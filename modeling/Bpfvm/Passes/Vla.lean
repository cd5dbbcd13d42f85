import Bpfvm.Cpu.FrameStack
import Mathlib.Data.List.Pairwise

/-!
# Dynamic allocas

The back end has no dynamic stack pointer, so `rewriteVla` replaces every alloca that is not a
static one of the entry block by a call of `vm::alloca`. A `stacksave` becomes `alloca(0)`, whose
result is the token. A `stackrestore` asks for the present bound with `alloca(0)` and then shrinks
by the difference to its token. Calls and signals may come between the two.
-/
namespace Bpfvm.Vla
open Memory Cpu BitVec List

/-! ## The pass -/

/-- A live dynamic alloca and the bytes that were asked for. -/
structure Block where
  addr : U64
  bytes : ℕ
deriving DecidableEq

/-- The result of a `stacksave`, with the level and the blocks of that moment. -/
structure Save where
  token : U64
  level : U64
  blocks : List Block
deriving DecidableEq

/-- The number of elements, a constant or a value extended to 64 bits. -/
inductive ArraySize where
  | constant (n : U64)
  | value (n : U64)

def ArraySize.count : ArraySize → U64
  | .constant n => n
  | .value n => n

def ArraySize.isDynamicSize : ArraySize → Bool
  | .constant _ => false
  | .value _ => true

/-- The instructions the pass looks at. -/
inductive Inst where
  | alloca (inEntry : Bool) (elemSize : U64) (arraySize : ArraySize)
  | stacksave
  | stackrestore (save : Save)

/-- Calls of `vm::alloca` one after the other, and the value that replaces the instruction. -/
inductive Calls where
  | ret (value : U64)
  | call (arg : U64) (next : U64 → Calls)

/-- `vla.bytes` -/
def vlaBytes (elemSize count : U64) : U64 :=
  if elemSize ≠ 1 then count * elemSize else count

/-- `vla.aligned` -/
def vlaAligned (elemSize count : U64) : U64 :=
  (vlaBytes elemSize count + 15) &&& ~~~15

/-- What `rewriteVla` puts in the place of an instruction, if it does not leave it alone. -/
def rewriteVla : Inst → Option Calls
  | .alloca inEntry elemSize arraySize =>
    if inEntry && !arraySize.isDynamicSize then none
    else some (.call (vlaAligned elemSize arraySize.count) .ret)
  | .stacksave => some (.call 0 .ret)
  | .stackrestore save => some (.call 0 fun cur => .call (cur - save.token) fun _ => .ret 0)

/-! ## Executions -/

/-- The dynamic allocas of one activation, and the instruction it is at. -/
structure Frame where
  blocks : List Block
  saves : List Save
  running : Option (Inst × Calls)

namespace Frame

def empty : Frame := ⟨[], [], none⟩

/-- What an instruction has done when its last call has returned. -/
def finish (v : Frame) (level value : U64) : Inst → Frame
  | .alloca _ elemSize arraySize =>
    ⟨⟨value, arraySize.count.toNat * elemSize.toNat⟩ :: v.blocks, v.saves, none⟩
  | .stacksave => ⟨v.blocks, ⟨value, level, v.blocks⟩ :: v.saves, none⟩
  | .stackrestore save => ⟨save.blocks, v.saves.dropWhile (· != save), none⟩

/-- The activation after a call of `vm::alloca` has returned. -/
def after (v : Frame) (level : U64) (inst : Inst) : Calls → Frame
  | .ret value => v.finish level value inst
  | .call arg next => { v with running := some (inst, .call arg next) }

/-- An alloca asks for less than `2^63` bytes, a `stackrestore` names an open `stacksave`. -/
def Meets (v : Frame) : Inst → Prop
  | .alloca _ elemSize arraySize => arraySize.count.toNat * elemSize.toNat < 2 ^ 63
  | .stacksave => True
  | .stackrestore save => save ∈ v.saves

end Frame

inductive VlaEvent where
  | frame (e : FrameEvent)
  | start (inst : Inst)
  | call (arg : U64)

/-- The code of the pass among calls, exits, signals and steps that leave the frames alone. Every
call of `vm::alloca` succeeds. -/
inductive VlaStep (c : Setup) (w : World) : Machine × List (Activation × Frame) → VlaEvent →
    Machine × List (Activation × Frame) → Prop where
  | push {m m' : Machine} {a : Activation} {st : List (Activation × Frame)} {e : FrameEvent}
      (h : FrameStep c w (m, st.map Prod.fst) e (m', a :: st.map Prod.fst)) :
      VlaStep c w (m, st) (.frame e) (m', (a, .empty) :: st)
  | pop {m m' : Machine} {x : Activation × Frame} {st : List (Activation × Frame)}
      {e : FrameEvent}
      (h : FrameStep c w (m, (x :: st).map Prod.fst) e (m', st.map Prod.fst)) :
      VlaStep c w (m, x :: st) (.frame e) (m', st)
  | other {m m' : Machine} {st : List (Activation × Frame)}
      (h : FrameStep c w (m, st.map Prod.fst) .other (m', st.map Prod.fst)) :
      VlaStep c w (m, st) (.frame .other) (m', st)
  | start {m : Machine} {a : Activation} {v : Frame} {st : List (Activation × Frame)}
      {inst : Inst} {calls : Calls} (hidle : v.running = none)
      (hcalls : rewriteVla inst = some calls) (hmeets : v.Meets inst) :
      VlaStep c w (m, (a, v) :: st) (.start inst)
        (m, (a, { v with running := some (inst, calls) }) :: st)
  | call {m m' : Machine} {a : Activation} {v : Frame} {st : List (Activation × Frame)}
      {inst : Inst} {arg low : U64} {next : U64 → Calls}
      (hrun : v.running = some (inst, .call arg next)) (h : m.alloca c arg = (.ok low, m')) :
      VlaStep c w (m, (a, v) :: st) (.call arg) (m'.setReg 0 low,
        ({ a with level := a.level + arg }, v.after (a.level + arg) inst (next low)) :: st)

/-! ## The blocks of one activation -/

/-- The blocks that were there at a save are still there, and the others lie below its token. -/
def Save.Within (s : Save) (level : U64) (blocks : List Block) : Prop :=
  s.level.toNat ≤ level.toNat ∧ ∃ newer, blocks = newer ++ s.blocks ∧
    ∀ b ∈ newer, b.addr.toNat + b.bytes ≤ s.token.toNat

/-- An instruction on its way: at its first call, or a restore that has read the bound. -/
inductive Running (a : Activation) (v : Frame) : Inst × Calls → Prop where
  | first {inst : Inst} {calls : Calls} (hcalls : rewriteVla inst = some calls)
      (hmeets : v.Meets inst) : Running a v (inst, calls)
  | second {s : Save} {cur : U64} (hmem : s ∈ v.saves)
      (hcur : cur.toNat + a.size.toNat + a.level.toNat = a.base.toNat) :
      Running a v (.stackrestore s, .call (cur - s.token) fun _ => .ret 0)

/-- The blocks lie one below the other in the alloca area, and every open save knows the bound of
its level. -/
structure FrameOk (a : Activation) (v : Frame) : Prop where
  above : ∀ b ∈ v.blocks, a.low ≤ b.addr.toNat
  below : ∀ b ∈ v.blocks, b.addr.toNat + b.bytes ≤ a.base.toNat - a.size.toNat
  order : v.blocks.Pairwise fun b b' => b.addr.toNat + b.bytes ≤ b'.addr.toNat
  tokens : ∀ s ∈ v.saves, s.token.toNat + a.size.toNat + s.level.toNat = a.base.toNat
  kept : ∀ s ∈ v.saves, ∀ b ∈ s.blocks, s.token.toNat ≤ b.addr.toNat
  within : ∀ s ∈ v.saves, s.Within a.level v.blocks
  nested : v.saves.Pairwise fun s s' => s'.Within s.level s.blocks
  running : ∀ r ∈ v.running, Running a v r

section
variable {a : Activation} {v : Frame} {c : Setup} {w : World} {m m' : Machine}
  {st st' : List (Activation × Frame)} {e : VlaEvent}

theorem frameOk_empty (a : Activation) : FrameOk a .empty := by
  constructor <;> simp [Frame.empty]

theorem toNat_vlaBytes {elemSize count : U64} (h : count.toNat * elemSize.toNat < 2 ^ 63) :
    (vlaBytes elemSize count).toNat = count.toNat * elemSize.toNat := by
  unfold vlaBytes
  by_cases he : elemSize = 1
  · rw [if_neg (not_not.mpr he), he]
    simp
  · rw [if_pos he, toNat_mul]
    exact Nat.mod_eq_of_lt (by omega)

theorem toNat_and_not_fifteen (x : U64) :
    (x &&& ~~~(15 : U64)).toNat = x.toNat / 16 * 16 := by
  have hx : x &&& ~~~(15 : U64) = (x >>> 4) <<< 4 := by
    refine eq_of_getLsbD_eq fun i hi => ?_
    have hmask : ∀ j : Fin 64, (~~~(15 : U64)).getLsbD j = decide (4 ≤ j.1) := by decide
    rw [getLsbD_and, hmask ⟨i, hi⟩, getLsbD_shiftLeft, getLsbD_ushiftRight]
    by_cases h4 : 4 ≤ i
    · simp [h4, hi]
    · simp [h4]
  rw [hx, toNat_shiftLeft, toNat_ushiftRight, Nat.shiftLeft_eq,
    Nat.shiftRight_eq_div_pow]
  have := x.isLt
  omega

/-- Rounding up to 16 does not lose bytes. -/
theorem toNat_vlaAligned {elemSize count : U64}
    (h : count.toNat * elemSize.toNat < 2 ^ 63) :
    count.toNat * elemSize.toNat ≤ (vlaAligned elemSize count).toNat ∧
      (vlaAligned elemSize count).toNat ≤ 2 ^ 63 := by
  have hsum : (vlaBytes elemSize count + 15).toNat = count.toNat * elemSize.toNat + 15 := by
    rw [toNat_add, toNat_vlaBytes h]
    exact Nat.mod_eq_of_lt (by simp; omega)
  rw [vlaAligned, toNat_and_not_fifteen, hsum]
  omega

theorem Save.within_self (s : Save) : s.Within s.level s.blocks :=
  ⟨le_rfl, [], rfl, by simp⟩

theorem FrameOk.low_le_token (h : FrameOk a v)
    (hlow : a.low + a.size.toNat + a.level.toNat = a.base.toNat) {s : Save} (hs : s ∈ v.saves) :
    a.low ≤ s.token.toNat := by
  have htok := h.tokens s hs
  have hle := (h.within s hs).1
  omega

/-- An instruction begins with its first call. -/
theorem FrameOk.start {inst : Inst} {calls : Calls} (h : FrameOk a v)
    (hcalls : rewriteVla inst = some calls) (hmeets : v.Meets inst) :
    FrameOk a { v with running := some (inst, calls) } := by
  refine ⟨h.above, h.below, h.order, h.tokens, h.kept, h.within, h.nested, ?_⟩
  intro r hr
  obtain rfl : _ = r := by simpa using hr
  refine .first hcalls ?_
  cases inst <;> exact hmeets

theorem FrameOk.alloca {level p : U64} {bytes : ℕ} (h : FrameOk a v)
    (hlow : a.low + a.size.toNat + a.level.toNat = a.base.toNat)
    (hp : p.toNat + a.size.toNat + level.toNat = a.base.toNat)
    (hbytes : a.level.toNat + bytes ≤ level.toNat) :
    FrameOk { a with level := level } ⟨⟨p, bytes⟩ :: v.blocks, v.saves, none⟩ := by
  have hlow' : ({ a with level := level } : Activation).low = p.toNat := by
    simp only [Activation.low]
    omega
  have hpost : p.toNat + bytes ≤ a.low := by omega
  refine ⟨?_, ?_, ?_, h.tokens, h.kept, ?_, h.nested, by simp⟩
  · intro b hb
    rw [hlow']
    rcases mem_cons.mp hb with rfl | hb
    · exact le_rfl
    · have := h.above b hb
      omega
  · intro b hb
    rcases mem_cons.mp hb with rfl | hb
    · show p.toNat + bytes ≤ a.base.toNat - a.size.toNat
      omega
    · exact h.below b hb
  · refine pairwise_cons.mpr ⟨fun b hb => ?_, h.order⟩
    exact hpost.trans (h.above b hb)
  · intro s hs
    obtain ⟨hle, newer, he, hnewer⟩ := h.within s hs
    refine ⟨by show s.level.toNat ≤ level.toNat; omega, ⟨p, bytes⟩ :: newer, by rw [he]; rfl,
      fun b hb => ?_⟩
    rcases mem_cons.mp hb with rfl | hb
    · exact hpost.trans (h.low_le_token hlow hs)
    · exact hnewer b hb

theorem FrameOk.stacksave {tok : U64} (h : FrameOk a v)
    (hlow : a.low + a.size.toNat + a.level.toNat = a.base.toNat)
    (htok : tok.toNat + a.size.toNat + a.level.toNat = a.base.toNat) :
    FrameOk a ⟨v.blocks, ⟨tok, a.level, v.blocks⟩ :: v.saves, none⟩ := by
  refine ⟨h.above, h.below, h.order, ?_, ?_, ?_, ?_, by simp⟩
  · intro s hs
    rcases mem_cons.mp hs with rfl | hs
    · exact htok
    · exact h.tokens s hs
  · intro s hs b hb
    rcases mem_cons.mp hs with rfl | hs
    · have := h.above b hb
      show tok.toNat ≤ _
      omega
    · exact h.kept s hs b hb
  · intro s hs
    rcases mem_cons.mp hs with rfl | hs
    · exact Save.within_self ⟨tok, a.level, v.blocks⟩
    · exact h.within s hs
  · exact pairwise_cons.mpr ⟨fun s hs => h.within s hs, h.nested⟩

/-- Back to an open save: it stays open, with those around it. -/
theorem FrameOk.stackrestore {s : Save} (h : FrameOk a v) (hs : s ∈ v.saves) :
    FrameOk { a with level := s.level } ⟨s.blocks, v.saves.dropWhile (· != s), none⟩ := by
  have hsuffix : v.saves.dropWhile (· != s) <:+ v.saves := dropWhile_suffix _
  have hsub {s' : Save} (hs' : s' ∈ v.saves.dropWhile (· != s)) : s' ∈ v.saves :=
    hsuffix.subset hs'
  obtain ⟨older, hdrop⟩ : ∃ older, v.saves.dropWhile (· != s) = s :: older := by
    have hne : v.saves.dropWhile (· != s) ≠ [] := by
      rw [Ne, dropWhile_eq_nil_iff]
      intro hall
      simpa using hall s hs
    obtain ⟨s', older, he⟩ := exists_cons_of_ne_nil hne
    have hhead := head_dropWhile_not (· != s) hne
    simp only [he, head_cons, bne_eq_false_iff_eq] at hhead
    exact ⟨older, by rw [he, hhead]⟩
  have htok := h.tokens s hs
  have hlow : ({ a with level := s.level } : Activation).low = s.token.toNat := by
    simp only [Activation.low]
    omega
  obtain ⟨-, newer, he, -⟩ := h.within s hs
  have hblock {b : Block} (hb : b ∈ s.blocks) : b ∈ v.blocks := by
    rw [he]
    exact mem_append_right _ hb
  have hnested := h.nested.sublist hsuffix.sublist
  rw [hdrop] at hnested hsub ⊢
  refine ⟨?_, fun b hb => h.below b (hblock hb), ?_, fun s' hs' => h.tokens s' (hsub hs'),
    fun s' hs' => h.kept s' (hsub hs'), ?_, hnested, by simp⟩
  · intro b hb
    rw [hlow]
    exact h.kept s hs b hb
  · have horder := h.order
    rw [he] at horder
    exact (pairwise_append.mp horder).2.1
  · intro s' hs'
    rcases mem_cons.mp hs' with rfl | hs'
    · exact Save.within_self s'
    · exact (pairwise_cons.mp hnested).1 s' hs'

/-- The level after the second call of a restore. -/
theorem level_restore {s : Save} {cur : U64}
    (htok : s.token.toNat + a.size.toNat + s.level.toNat = a.base.toNat)
    (hcur : cur.toNat + a.size.toNat + a.level.toNat = a.base.toNat) :
    a.level + (cur - s.token) = s.level := by
  have hlevel := s.level.isLt
  apply eq_of_toNat_eq
  rw [toNat_add, toNat_sub]
  omega

/-! ## Steps and runs -/

/-- A call of `vm::alloca` from the code of the pass. -/
theorem FrameOk.call {inst : Inst} {arg low : U64} {next : U64 → Calls}
    (h : FrameOk a v) (hlow : a.low + a.size.toNat + a.level.toNat = a.base.toNat)
    (hsmall : a.level.toNat < 2 ^ 24)
    (hrun : v.running = some (inst, .call arg next))
    (hnew : low.toNat + a.size.toNat + (a.level + arg).toNat = a.base.toNat)
    (hlevel : ((a.level + arg).toNat : ℤ) = a.level.toNat + arg.toInt) :
    FrameOk { a with level := a.level + arg } (v.after (a.level + arg) inst (next low)) := by
  have hrunning := h.running _ (by rw [hrun]; rfl)
  have hzero : a.level + 0 = a.level := by simp
  generalize hc : Calls.call arg next = calls at hrunning
  cases hrunning with
  | first hcalls hmeets =>
    subst hc
    cases inst with
    | alloca inEntry elemSize arraySize =>
      simp only [rewriteVla] at hcalls
      split_ifs at hcalls with hstatic
      injection hcalls with hcalls
      injection hcalls with harg hnext
      subst harg hnext
      obtain ⟨hle, hmax⟩ := toNat_vlaAligned hmeets
      have hpos := toInt_eq_toNat_cond (vlaAligned elemSize arraySize.count)
      refine h.alloca hlow hnew ?_
      split_ifs at hpos with hhalf <;> omega
    | stacksave =>
      injection hcalls with hcalls
      injection hcalls with harg hnext
      subst harg hnext
      rw [hzero] at hnew ⊢
      exact h.stacksave hlow hnew
    | stackrestore s =>
      injection hcalls with hcalls
      injection hcalls with harg hnext
      subst harg hnext
      rw [hzero] at hnew ⊢
      refine ⟨h.above, h.below, h.order, h.tokens, h.kept, h.within, h.nested, ?_⟩
      intro r hr
      obtain rfl : _ = r := by simpa [Frame.after] using hr
      exact .second hmeets hnew
  | second hmem hcur =>
    injection hc with harg hnext
    subst harg hnext
    rw [level_restore (h.tokens _ hmem) hcur]
    exact h.stackrestore hmem

/-- Frames and dynamic allocas as they should be. -/
structure VlaOk (c : Setup) (m : Machine) (st : List (Activation × Frame)) : Prop where
  frames : FramesOk c m (st.map Prod.fst)
  each : ∀ x ∈ st, FrameOk x.1 x.2

theorem VlaOk.step (h : VlaOk c m st) (hs : VlaStep c w (m, st) e (m', st')) :
    VlaOk c m' st' := by
  cases hs with
  | push hf =>
    refine ⟨h.frames.step hf, fun x hx => ?_⟩
    rcases mem_cons.mp hx with rfl | hx
    · exact frameOk_empty _
    · exact h.each x hx
  | pop hf => exact ⟨h.frames.step hf, fun x hx => h.each x (mem_cons_of_mem _ hx)⟩
  | other hf => exact ⟨h.frames.step hf, h.each⟩
  | start hidle hcalls hmeets =>
    refine ⟨h.frames, fun x hx => ?_⟩
    rcases mem_cons.mp hx with rfl | hx
    · exact (h.each _ mem_cons_self).start hcalls hmeets
    · exact h.each x (mem_cons_of_mem _ hx)
  | @call _ m₁ a v rest inst arg low next hrun ha =>
    have hmem : a ∈ ((a, v) :: rest).map Prod.fst := mem_cons_self
    have h10 : m.reg 10 = a.base := h.frames.top a rfl
    obtain ⟨hsize, hlevel⟩ := h.frames.small a hmem
    obtain ⟨mem, -, -, -, hint, -, hnew⟩ := alloca_spec h.frames.sound
      (by rw [h10]; exact (h.frames.intact a hmem).head) hsize hlevel ha
    rw [h10] at hnew
    refine ⟨h.frames.alloca ha, fun x hx => ?_⟩
    rcases mem_cons.mp hx with rfl | hx
    · exact (h.each _ mem_cons_self).call (h.frames.low_add hmem) hlevel hrun hnew hint
    · exact h.each x (mem_cons_of_mem _ hx)

theorem vlaOk_of_run {m₀ : Machine} {l : List VlaEvent}
    {s : Machine × List (Activation × Frame)} (hs : Sound m₀.mem c.vm)
    (h : Run (VlaStep c w) (m₀, []) l s) : VlaOk c s.1 s.2 := by
  refine h.invariant (P := fun s => VlaOk c s.1 s.2) ?_ fun s i s' hP hstep => hP.step hstep
  exact ⟨framesOk_of_run (w := w) hs (.nil (m₀, [])), by simp⟩

/-- The addresses of a block. -/
def Block.range (b : Block) : ℕ × ℕ := (b.addr.toNat, b.addr.toNat + b.bytes)

/-- A block lies in the alloca area of its activation. -/
theorem FrameOk.apart {b : Block} {i : ℕ × ℕ} (h : FrameOk a v) (hb : b ∈ v.blocks)
    (hi : Apart (a.low, a.base.toNat - a.size.toNat) i) : Apart b.range i := by
  have habove := h.above b hb
  have hbelow := h.below b hb
  unfold Apart Block.range at *
  simp only at hi ⊢
  omega

/-- Blocks of any activations are apart. -/
theorem VlaOk.blocks (h : VlaOk c m st) :
    (st.flatMap fun x => x.2.blocks.map Block.range).Pairwise Apart := by
  have hareas := h.frames.areas
  rw [flatMap_map, pairwise_flatMap] at hareas
  rw [pairwise_flatMap]
  constructor
  · intro x hx
    rw [pairwise_map]
    exact (h.each x hx).order.imp fun hle => .inl hle
  · refine hareas.2.imp_of_mem fun {x y} hx hy hxy i hi j hj => ?_
    obtain ⟨b, hb, rfl⟩ := mem_map.mp hi
    obtain ⟨b', hb', rfl⟩ := mem_map.mp hj
    have harea : Apart (x.1.low, x.1.base.toNat - x.1.size.toNat)
        (y.1.low, y.1.base.toNat - y.1.size.toNat) :=
      hxy _ (by simp [Activation.areas]) _ (by simp [Activation.areas])
    exact ((h.each x hx).apart hb ((h.each y hy).apart hb' harea.symm).symm)

theorem below_or_eq {acts : List Activation} (h : FramesOk c m acts) {a b : Activation}
    (ha : a ∈ acts) (hb : b ∈ acts) : a = b ∨ a.Below b ∨ b.Below a := by
  have hsymm : Std.Symm fun a b : Activation => a = b ∨ a.Below b ∨ b.Below a := by
    refine ⟨fun a b hab => ?_⟩
    rcases hab with rfl | hab | hab
    · exact .inl rfl
    · exact .inr (.inr hab)
    · exact .inr (.inl hab)
  have hall := h.below.imp (S := fun a b : Activation => a = b ∨ a.Below b ∨ b.Below a)
    fun hab => .inr (.inl hab)
  exact hall.forall_of_forall (fun _ _ => .inl rfl) ha hb

/-- A block is apart from the locals and the header of every activation. -/
theorem VlaOk.static (h : VlaOk c m st) {x y : Activation × Frame} (hx : x ∈ st) (hy : y ∈ st)
    {b : Block} (hb : b ∈ x.2.blocks) :
    Apart b.range (y.1.base.toNat - y.1.size.toNat, y.1.base.toNat + y.1.header) := by
  have hlowx := h.frames.low_add (mem_map_of_mem (f := Prod.fst) hx)
  have hlowy := h.frames.low_add (mem_map_of_mem (f := Prod.fst) hy)
  refine (h.each x hx).apart hb ?_
  rcases below_or_eq h.frames (mem_map_of_mem (f := Prod.fst) hx)
    (mem_map_of_mem (f := Prod.fst) hy) with heq | hxy | hyx
  · rw [heq]
    exact .inl le_rfl
  · refine .inl ?_
    unfold Activation.Below at hxy
    simp only
    omega
  · refine .inr ?_
    unfold Activation.Below at hyx
    exact hyx

/-- The last call of a restore. -/
theorem VlaOk.restored {x : Activation × Frame} {s : Save} {calls : Calls} {arg : U64}
    (h : VlaOk c m ((a, v) :: st)) (hrun : v.running = some (.stackrestore s, calls))
    (hs : VlaStep c w (m, (a, v) :: st) (.call arg) (m', x :: st)) (hdone : x.2.running = none) :
    x.1 = { a with level := s.level } ∧ x.2.blocks = s.blocks ∧
      ∀ b ∈ v.blocks, b ∉ s.blocks → b.addr.toNat + b.bytes ≤ x.1.low := by
  have hok : FrameOk a v := h.each _ mem_cons_self
  cases hs with
  | @call _ _ _ _ _ inst _ low next hcall ha =>
    obtain ⟨rfl, rfl⟩ := Prod.mk.inj (Option.some.inj (hcall.symm.trans hrun))
    have hrunning := hok.running _ (by rw [hrun]; rfl)
    generalize hc : Calls.call arg next = calls at hrunning
    cases hrunning with
    | first hcalls hmeets =>
      subst hc
      injection hcalls with hcalls
      injection hcalls with harg hnext
      subst harg hnext
      simp [Frame.after] at hdone
    | second hmem hcur =>
      injection hc with harg hnext
      subst harg hnext
      have hlevel := level_restore (hok.tokens _ hmem) hcur
      obtain ⟨-, newer, he, hnewer⟩ := hok.within _ hmem
      refine ⟨by rw [hlevel], rfl, fun b hb hnot => ?_⟩
      rw [he, mem_append] at hb
      have hend := hnewer b (hb.resolve_right hnot)
      have htok := hok.tokens _ hmem
      simp only [Activation.low, hlevel]
      omega

/-- However saves, dynamic allocas, restores, calls and signals follow each other: every live block
has its bytes in the alloca area of its activation, apart from all other live blocks and from the
locals and headers of all activations. A restore takes the level back to that of its save, which
frees the blocks made since and keeps the others; the level is the one in the frame header. -/
theorem vla_of_run {m₀ : Machine} {l : List VlaEvent} (hs : Sound m₀.mem c.vm)
    (h : Run (VlaStep c w) (m₀, []) l (m, st)) :
    (st.flatMap fun x => x.2.blocks.map Block.range).Pairwise Apart ∧
      (∀ x ∈ st, ∀ b ∈ x.2.blocks, x.1.low ≤ b.addr.toNat ∧
        b.addr.toNat + b.bytes ≤ x.1.base.toNat - x.1.size.toNat) ∧
      (∀ x ∈ st, ∀ y ∈ st, ∀ b ∈ x.2.blocks,
        Apart b.range (y.1.base.toNat - y.1.size.toNat, y.1.base.toNat + y.1.header)) ∧
      ∀ a v rest, st = (a, v) :: rest →
        (m.callerLen c).toNat = a.size.toNat + a.level.toNat ∧
        ∀ s calls arg m' x, v.running = some (.stackrestore s, calls) →
          VlaStep c w (m, st) (.call arg) (m', x :: rest) → x.2.running = none →
          x.1 = { a with level := s.level } ∧ x.2.blocks = s.blocks ∧
            ∀ b ∈ v.blocks, b ∉ s.blocks → b.addr.toNat + b.bytes ≤ x.1.low := by
  have hok : VlaOk c m st := vlaOk_of_run hs h
  refine ⟨hok.blocks, fun x hx b hb => ⟨(hok.each x hx).above b hb, (hok.each x hx).below b hb⟩,
    fun x hx y hy b hb => hok.static hx hy hb, fun a v rest he => ?_⟩
  subst he
  refine ⟨hok.frames.callerLen, fun s calls arg m' x hrun hstep hdone => ?_⟩
  exact hok.restored hrun hstep hdone

end

/-! ## A block of 16 bytes -/

/-- `alloca i8, i64 16` in the entry function of the small program. -/
def sixteen : Inst := .alloca false 1 (.value 16)

/-- What `stacksave` gives there. -/
def saved : Save := ⟨0x100007c0, 0, []⟩

/-- A block is made behind a `stacksave`, given back, and made again. -/
theorem vla_of_run_sixteen : ∃ l m a v, v.blocks = [⟨0x100007b0, 16⟩] ∧ v.saves = [saved] ∧
    Run (VlaStep Setup.plain World.quiet) (nested, []) l (m, [(a, v)]) ∧
    a.low ≤ 0x100007b0 ∧ 0x100007b0 + 16 ≤ a.base.toNat - a.size.toNat := by
  have hs : Sound nested.mem 0 := by
    refine sound_boot ⟨?_, ?_, ?_⟩ <;> simp [BootSeg.stop]
  have henter : FrameStep Setup.plain World.quiet (nested, []) (.enter 0x1000) (nestedEntry, _) :=
    .enter (Prod.ext (by decide +kernel) rfl) (by decide +kernel)
  have hpush : VlaStep Setup.plain World.quiet (nested, []) (.frame (.enter 0x1000))
      (nestedEntry, [(_, .empty)]) := .push henter
  have hcall {m : Machine} {a : Activation} {v : Frame} {inst : Inst} {arg : U64}
      {next : U64 → Calls} (low : U64) (hrun : v.running = some (inst, .call arg next))
      (h : (m.alloca Setup.plain arg).1 = .ok low) :
      VlaStep Setup.plain World.quiet (m, [(a, v)]) (.call arg) _ := .call hrun (Prod.ext h rfl)
  have hstart {m : Machine} {a : Activation} {v : Frame} {calls : Calls} (inst : Inst)
      (hidle : v.running = none) (hcalls : rewriteVla inst = some calls) (h : v.Meets inst) :
      VlaStep Setup.plain World.quiet (m, [(a, v)]) (.start inst) _ := .start hidle hcalls h
  have hless : (16 : U64).toNat * (1 : U64).toNat < 2 ^ 63 := by decide
  have hsave := ((Run.single hpush).snoc (hstart .stacksave rfl rfl trivial)).snoc
    (hcall 0x100007c0 rfl (by decide +kernel))
  have hmake := (hsave.snoc (hstart sixteen rfl rfl hless)).snoc
    (hcall 0x100007b0 rfl (by decide +kernel))
  have hback := ((hmake.snoc (hstart (.stackrestore saved) rfl rfl mem_cons_self)).snoc
    (hcall 0x100007b0 rfl (by decide +kernel))).snoc (hcall 0x100007c0 rfl (by decide +kernel))
  have hrun := (hback.snoc (hstart sixteen rfl rfl hless)).snoc
    (hcall 0x100007b0 rfl (by decide +kernel))
  obtain ⟨hlow, hend⟩ := (vla_of_run hs hrun).2.1 _ mem_cons_self _ mem_cons_self
  exact ⟨_, _, _, _, rfl, rfl, hrun, hlow, hend⟩

/-! ## Locals beyond the field -/

/-- A thread with a large stack, about to call a function at `0x1008` whose frame slot asks for
`2^24 + 8` bytes. -/
def largeLocals : Machine :=
  Machine.boot [⟨0x1000, 0x1000, 5,
      fun k => (wordBytes (frameSlotMagic <<< 32 ||| 0x1000008)).getD k 0⟩,
    ⟨0x10000000, 0x4000000, 6, fun _ => 0⟩] (fun k => if k = 10 then 0x13000000 else 0) 0x1008

def inLargeLocals : Machine := (largeLocals.pushFrame Setup.plain 0 0x1008 false false).2

/-- Only 24 bits of the size reach the frame header: the block lies among the locals. -/
theorem block_among_locals : ∃ (c : Setup) (m m₁ m₂ : Machine) (entry : U64)
    (inst : Inst) (arg : U64) (b : Block), Sound m.mem c.vm ∧
      m.pushFrame c 0 entry false false = (true, m₁) ∧ rewriteVla inst = some (.call arg .ret) ∧
      m₁.alloca c arg = (.ok b.addr, m₂) ∧
      (Frame.empty.finish arg b.addr inst).blocks = [b] ∧
      ¬ Apart b.range ((m.frameBase c false false).toNat -
        (m.calleeSize c entry false false).toNat, (m.frameBase c false false).toNat) := by
  have hs : Sound largeLocals.mem 0 := by
    refine sound_boot ⟨?_, ?_, ?_⟩ <;> simp [BootSeg.stop]
  have hpush : (largeLocals.pushFrame Setup.plain 0 0x1008 false false).1 = true := by
    decide +kernel
  have hbase : (largeLocals.frameBase Setup.plain false false).toNat = 0x12ffffc0 := by
    decide +kernel
  have hsize : (largeLocals.calleeSize Setup.plain 0x1008 false false).toNat = 0x1000008 := by
    decide +kernel
  refine ⟨Setup.plain, largeLocals, inLargeLocals, _, 0x1008, sixteen, 16, ⟨0x12ffffa8, 16⟩, hs,
    Prod.ext hpush rfl, rfl, alloca_eq (by decide +kernel), rfl, ?_⟩
  rw [hbase, hsize]
  simp [Apart, Block.range]

end Bpfvm.Vla
