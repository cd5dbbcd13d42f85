import Bpfvm.Cpu.FrameStack
import Bpfvm.Process.StackImage

/-!
# Frames and the argument block

`setup_stack` puts the arguments at the foot of the main stack and `r10` at its top. `push_frame`
tests that the new header is above `STACK_BASE`; the locals of the callee, which reach further down,
and the block at the foot are not part of the test. `alloca` tests the whole frame against
`STACK_BASE`, again without the block.
-/
namespace Bpfvm.Exec
open Memory Cpu List

/-- The end of the argument block. -/
def argumentsEnd (argv : List Str) (envp : Env) : ℕ := stackBase.toNat + totalBytes argv envp

/-- The frame lies in `[lo, hi)` as a whole. -/
def Contained (lo hi : ℕ) (a : Activation) : Prop := ∀ i ∈ a.areas, lo ≤ i.1 ∧ i.2 ≤ hi

/-! ## The memory after `setup_stack` -/

section
variable {w : ExecWorld} {p : Proc} {segs : List BootSeg} {argv : List Str} {envp : Env}
  {info : ElfLoad} {s : State}

theorem sound_setHost {v : ℕ} (h : Sound s v) (q : HostPtr) (bs : List Byte) :
    Sound (s.setHost (s.host.store q bs)) v :=
  ⟨h.wf.setHost le_rfl fun _ _ => rfl, h.lt, h.tlb⟩

/-- The first step on an image that keeps clear of the stack. -/
theorem stackFoot_boot (hb : BootOk (segs ++ [stackSeg])) {foot : HostPtr}
    (h : stackFoot w (State.boot segs) = some (foot, s)) : Sound s 0 := by
  have hsplit := pairwise_append.mp hb.disjoint
  have hsegs : BootOk segs :=
    ⟨fun b hm => hb.nonempty b (mem_append_left _ hm),
      fun b hm => hb.bound b (mem_append_left _ hm), hsplit.1⟩
  have hr := refilled_mmu (sound_boot hsegs) stackBase.toNat 1
  have hnone := mmu_of_zero (n := 1) Nat.one_pos (show stackBase.toNat + 1 < 2 ^ 64 by decide)
    (congrFun (loaded_boot segs).tlb _)
  unfold stackFoot at h
  rw [hnone, State.mmuSlow] at h
  rw [hnone, State.mmuSlow] at hr
  cases hf : findMap ((State.boot segs).maps 0) stackBase.toNat 1 with
  | some m =>
    rw [hf] at h hr
    cases h
    exact hr.sound
  | none =>
    rw [hf] at h
    dsimp only at h
    split_ifs at h
    cases h
    have hboot : (State.boot segs).bootMap stackSeg = State.boot (segs ++ [stackSeg]) := by
      rw [State.boot, State.boot, foldl_append]
      rfl
    rw [hboot]
    exact sound_boot hb

theorem sound_setupStack {r1 : U64} (hb : BootOk (segs ++ [stackSeg]))
    (h : setupStack w p (State.boot segs) argv envp info = some (s, r1)) : Sound s 0 := by
  unfold setupStack at h
  generalize hfoot : stackFoot w (State.boot segs) = o at h
  obtain _ | ⟨foot, s₁⟩ := o
  · cases h
  have hs₁ := stackFoot_boot hb hfoot
  have hready := mmuW_spec w.env hs₁.wf hs₁.lt hs₁.tlb (a := stackTop.toNat) (n := 8)
    (BitVec.isLt _) (by decide) (by decide)
  dsimp only at h
  generalize s₁.mmuW w.env 0 stackTop.toNat 8 = r at h hready
  obtain ⟨_ | sentinel, s₂⟩ := r
  · cases h
  dsimp only at h
  have hs₂ := sound_setHost (hready.updated hs₁).sound sentinel
    (wordBytes (frameFlagsMake false p.stackLimit 0))
  dsimp only at hs₂
  generalize s₂.setHost (s₂.host.store sentinel (wordBytes (frameFlagsMake false p.stackLimit 0))) =
    s₃ at h hs₂
  have hs₃ := (refilled_mmu hs₂ stackBase.toNat (totalBytes argv envp)).sound
  split_ifs at h
  · cases h
    exact hs₂
  · generalize s₃.mmu 0 stackBase.toNat (totalBytes argv envp) = r at h hs₃
    obtain ⟨_ | q, s₄⟩ := r
    · cases h
    · obtain ⟨random, -, he⟩ := Option.map_eq_some_iff.mp h
      cases he
      exact sound_setHost hs₃ _ _

end

/-! ## The top of the stack -/

section
variable {c : Setup} {w : World} {m m' : Machine} {acts acts' : List Activation} {e : FrameEvent}
  {top : ℕ}

/-- Every frame lies below the place where `r10` was at first. -/
structure UnderTop (top : ℕ) (m : Machine) (acts : List Activation) : Prop where
  under : ∀ a ∈ acts, a.base.toNat + a.header ≤ top
  bottom : ∀ a ∈ acts.getLast?, (a.saved.reg 10).toNat = top
  empty : acts = [] → (m.reg 10).toNat = top

theorem UnderTop.reg (h : UnderTop top m acts) (hok : FramesOk c m acts)
    (htop : 0x10000000 ≤ top) : 0x10000000 ≤ (m.reg 10).toNat ∧ (m.reg 10).toNat ≤ top := by
  cases acts with
  | nil =>
    rw [h.empty rfl]
    exact ⟨htop, le_rfl⟩
  | cons a rest =>
    have hu := h.under a mem_cons_self
    rw [hok.top a rfl]
    exact ⟨hok.floor a mem_cons_self, by omega⟩

/-- The new frame is right below the current one, whatever length `push_frame` takes for it. -/
theorem frameBase_add (h10 : 0x10000000 ≤ (m.reg 10).toNat) (isSignal saSiginfo : Bool) :
    (m.frameBase c isSignal saSiginfo).toNat + frameSize isSignal saSiginfo +
      (m.callerLen c).toNat = (m.reg 10).toNat := by
  have hlen := callerLen_lt c m
  have hfs := (frameSize_pos isSignal saSiginfo).2
  have hlt := (m.reg 10).isLt
  rw [Machine.frameBase, BitVec.toNat_sub, BitVec.toNat_sub, BitVec.toNat_ofNat]
  omega

theorem UnderTop.push {isSignal saSiginfo : Bool} {size ret : U64} {saved : Machine}
    (h : UnderTop top m acts) (hok : FramesOk c m acts) (htop : 0x10000000 ≤ top)
    (h10 : saved.reg 10 = m.reg 10) :
    UnderTop top m' (⟨m.frameBase c isSignal saSiginfo, isSignal, saSiginfo, size, 0, saved, ret⟩ ::
      acts) := by
  refine ⟨fun a ha => ?_, ?_, fun he => by cases he⟩
  · rcases mem_cons.mp ha with rfl | ha
    · obtain ⟨hlow, hhigh⟩ := h.reg hok htop
      have hbase := frameBase_add (c := c) hlow isSignal saSiginfo
      change (m.frameBase c isSignal saSiginfo).toNat + frameSize isSignal saSiginfo ≤ top
      omega
    · exact h.under a ha
  · intro a ha
    cases acts with
    | nil =>
      obtain rfl : _ = a := by simpa using ha
      rw [h10]
      exact h.empty rfl
    | cons b rest =>
      rw [List.getLast?_cons_cons] at ha
      exact h.bottom a ha

theorem UnderTop.pop {a : Activation} (h : UnderTop top m (a :: acts))
    (h10 : m'.reg 10 = a.saved.reg 10) : UnderTop top m' acts := by
  refine ⟨fun b hb => h.under b (mem_cons_of_mem _ hb), fun b hb => ?_, fun he => ?_⟩
  · cases acts with
    | nil => simp at hb
    | cons d rest => exact h.bottom b (by rwa [List.getLast?_cons_cons])
  · subst he
    rw [h10]
    exact h.bottom a rfl

theorem UnderTop.step (h : UnderTop top m acts) (hok : FramesOk c m acts)
    (htop : 0x10000000 ≤ top) (hs : FrameStep c w (m, acts) e (m', acts')) :
    UnderTop top m' acts' := by
  cases hs with
  | enter hpush hsize | call hcur hj hsize => exact h.push hok htop rfl
  | @signal _ _ _ info hdel hsize =>
    have h10 : m.resumeReg info 10 = m.reg 10 := Machine.resumeReg_of_ne (by decide)
    exact h.push hok htop h10
  | exit hcur hj =>
    obtain ⟨-, hregs, -⟩ := hok.exit hcur hj
    exact h.pop (hregs 10 (by decide) le_rfl)
  | @alloca _ _ a rest _ _ ha =>
    refine ⟨fun b hb => ?_, fun b hb => ?_, fun he => by cases he⟩
    · rcases mem_cons.mp hb with rfl | hb
      · exact h.under a mem_cons_self
      · exact h.under b (mem_cons_of_mem _ hb)
    · cases rest with
      | nil =>
        obtain rfl : _ = b := by simpa using hb
        exact h.bottom a rfl
      | cons d rest =>
        rw [List.getLast?_cons_cons] at hb
        exact h.bottom b (by rwa [List.getLast?_cons_cons])
  | allocaFails ha => exact ⟨h.under, h.bottom, fun he => by cases he⟩
  | other hsound h10 hmapped hkept =>
    exact ⟨h.under, h.bottom, fun he => (congrArg BitVec.toNat h10).trans (h.empty he)⟩

/-! ## Room below the current frame -/

/-- Below the current frame there is room above `lo` for a header and `size` bytes of locals. -/
def RoomFor (c : Setup) (lo : ℕ) (m : Machine) (size : U64) (header : ℕ) : Prop :=
  lo + size.toNat + header + (m.callerLen c).toNat ≤ (m.reg 10).toNat

/-- Seen from before the step there is room for the new frame, or for the new length of the current
one. -/
def Roomy (c : Setup) (lo : ℕ) (m : Machine) : FrameEvent → Prop
  | .enter entry => RoomFor c lo m (m.calleeSize c entry false false) (frameSize false false)
  | .call cur =>
    RoomFor c lo m (m.calleeSize c (m.calleeOf cur) false false) (frameSize false false)
  | .signal info => RoomFor c lo m (m.handlerSize c info) (frameSize true info.wantsSiginfo)
  | .alloca inc => lo + (m.callerLen c + inc).toNat ≤ (m.reg 10).toNat
  | .exit _ | .other => True

/-- A step of a thread with room for it. -/
def RoomyStep (c : Setup) (w : World) (lo : ℕ) (s : Machine × List Activation) (e : FrameEvent)
    (s' : Machine × List Activation) : Prop :=
  FrameStep c w s e s' ∧ Roomy c lo s.1 e

/-- The frame's locals and its alloca area are above `lo`. -/
def Above (lo : ℕ) (a : Activation) : Prop := lo + a.size.toNat + a.level.toNat ≤ a.base.toNat

theorem above_push {lo : ℕ} {isSignal saSiginfo : Bool} {size ret : U64} {saved : Machine}
    (h : ∀ a ∈ acts, Above lo a) (h10 : 0x10000000 ≤ (m.reg 10).toNat)
    (hroom : RoomFor c lo m size (frameSize isSignal saSiginfo)) :
    ∀ a ∈ (⟨m.frameBase c isSignal saSiginfo, isSignal, saSiginfo, size, 0, saved, ret⟩ ::
      acts : List Activation), Above lo a := by
  refine forall_mem_cons.mpr ⟨?_, h⟩
  have hbase := frameBase_add (c := c) h10 isSignal saSiginfo
  change lo + size.toNat + 0 ≤ (m.frameBase c isSignal saSiginfo).toNat
  unfold RoomFor at hroom
  omega

theorem above_step {lo : ℕ} (h : ∀ a ∈ acts, Above lo a) (hok : FramesOk c m acts)
    (hu : UnderTop top m acts) (htop : 0x10000000 ≤ top)
    (hs : RoomyStep c w lo (m, acts) e (m', acts')) : ∀ a ∈ acts', Above lo a := by
  obtain ⟨hstep, hroom⟩ := hs
  have h10 := (hu.reg hok htop).1
  have hok' := hok.step hstep
  cases hstep with
  | enter | call | signal => exact above_push h h10 hroom
  | exit => exact fun a ha => h a (mem_cons_of_mem _ ha)
  | @alloca _ _ a rest inc _ ha =>
    rw [forall_mem_cons] at h ⊢
    refine ⟨?_, h.2⟩
    have hlen := hok.callerLen
    have hsmall := hok.small a mem_cons_self
    have hsmall' := (hok'.small _ mem_cons_self).2
    have hroom : lo + (m.callerLen c + inc).toNat ≤ (m.reg 10).toNat := hroom
    rw [hok.top a rfl] at hroom
    change lo + a.size.toNat + (a.level + inc).toNat ≤ a.base.toNat
    dsimp only at hsmall'
    rw [BitVec.toNat_add] at hroom hsmall' ⊢
    omega
  | allocaFails => exact h
  | other => exact h

/-- A frame below the top is contained if its locals and its alloca area are. -/
theorem Above.contained {a : Activation} {lo hi : ℕ} (h : Above lo a)
    (hlow : a.low + a.size.toNat + a.level.toNat = a.base.toNat)
    (hhi : a.base.toNat + a.header ≤ hi) : Contained lo hi a := by
  simp only [Contained, Activation.areas, mem_cons, not_mem_nil, or_false,
    forall_eq_or_imp, forall_eq]
  unfold Above at h
  omega

end

/-- On the main stack of any program with any arguments: while every new frame and every `alloca`
finds room above the argument block, all active frames lie inside the stack and above the block. -/
theorem contained_of_roomy {w₀ : ExecWorld} {p : Proc} {segs : List BootSeg} {argv : List Str}
    {envp : Env} {info : ElfLoad} {r1 : U64} {c : Setup} {w : World} {m₀ m : Machine}
    {l : List FrameEvent} {acts : List Activation} (hb : BootOk (segs ++ [stackSeg]))
    (hsetup : setupStack w₀ p (State.boot segs) argv envp info = some (m₀.mem, r1))
    (h10 : m₀.reg 10 = stackTop) (hc : c.vm = 0)
    (h : Run (RoomyStep c w (argumentsEnd argv envp)) (m₀, []) l (m, acts)) :
    ∀ a ∈ acts, Contained (argumentsEnd argv envp) (stackBase.toNat + stackSize) a := by
  have hs : Sound m₀.mem c.vm := hc ▸ sound_setupStack hb hsetup
  have htop : (m₀.reg 10).toNat + 8 = stackBase.toNat + stackSize := by
    rw [h10]
    rfl
  have hlarge : 0x10000000 ≤ (m₀.reg 10).toNat := by
    rw [h10]
    decide
  obtain ⟨hok, hunder, habove⟩ := h.invariant
    (P := fun s => FramesOk c s.1 s.2 ∧ UnderTop (m₀.reg 10).toNat s.1 s.2 ∧
      ∀ a ∈ s.2, Above (argumentsEnd argv envp) a)
    ⟨framesOk_of_run (w := w) hs (.nil (m₀, [])), ⟨by simp, by simp, fun _ => rfl⟩, by simp⟩
    fun s i s' ⟨hok, hu, ha⟩ hstep => ⟨hok.step hstep.1, hu.step hok hlarge hstep.1,
      above_step ha hok hu hlarge hstep⟩
  intro a ha
  have hu := hunder.under a ha
  exact (habove a ha).contained (hok.low_add ha) (by omega)

/-! ## A function with large locals -/

/-- A function at `0x1008` whose frame slot asks for `size` bytes. -/
def slotImage (size : U64) : ElfLoad :=
  ⟨[⟨0x1000, 0x1000, pfR ||| pfX,
    fun k => (wordBytes (frameSlotMagic <<< 32 ||| size)).getD k 0⟩], 0x1008, 0, 0, 0, 0, 0, 0⟩

theorem bootOk_slotImage (size : U64) : BootOk ((slotImage size).segs ++ [stackSeg]) := by
  refine ⟨?_, ?_, ?_⟩ <;> simp [slotImage, stackSeg, BootSeg.stop, stackBase, stackSize]

def slotMemory (size : U64) : Option (State × U64) :=
  setupStack willing (caller 0) (State.boot (slotImage size).segs) [[0x61]] [] (slotImage size)

/-- The machine of `run` with the argument `a`, before its first frame. -/
def slotStart (size : U64) : Machine :=
  { Machine.boot [] (fun k => if k = 10 then stackTop else 0) 0x1008 with
    mem := (slotMemory size).elim State.empty Prod.fst }

def slotSetup : Setup := ⟨0, ⟨none, fun _ _ _ => none⟩, 0x100000, 0⟩

theorem slotMemory_eq {size r1 : U64} (h : (slotMemory size).map Prod.snd = some r1) :
    slotMemory size = some ((slotStart size).mem, r1) := by
  obtain ⟨⟨s, r⟩, hs, rfl⟩ := Option.map_eq_some_iff.mp h
  unfold slotStart
  rw [hs]
  rfl

theorem slotMemory_small : (slotMemory 0x100).map Prod.snd = some stackBase := by decide +kernel

theorem slotMemory_large : (slotMemory 0xfff000).map Prod.snd = some stackBase := by
  decide +kernel

/-- The frame that `run` pushes for the entry. -/
def entryFrame (c : Setup) (m : Machine) (entry : U64) : Activation :=
  ⟨m.frameBase c false false, false, false, m.calleeSize c entry false false, 0, m, 0⟩

theorem enter_entry (c : Setup) (m : Machine) (entry : U64) (w : World)
    (h : (m.pushFrame c 0 entry false false).1 = true)
    (hsize : (entryFrame c m entry).size.toNat < 2 ^ 24) : ∃ m', FrameStep c w (m, [])
      (.enter entry) (m', [entryFrame c m entry]) := by
  have hpush : m.pushFrame c 0 entry false false =
      (true, (m.pushFrame c 0 entry false false).2) := by
    rw [← h]
  exact ⟨_, .enter hpush hsize⟩

def slotFrame (size : U64) : Activation := entryFrame slotSetup (slotStart size) 0x1008

/-- The first frame of a function with 256 bytes of locals. -/
theorem contained_of_roomy_small : (slotFrame 0x100).base = 0x10efffb8 ∧
    (slotFrame 0x100).size = 0x100 ∧
    Contained (argumentsEnd [[0x61]] []) (stackBase.toNat + stackSize) (slotFrame 0x100) := by
  obtain ⟨m, henter⟩ := enter_entry slotSetup (slotStart 0x100) 0x1008 World.quiet
    (by decide +kernel) (by decide +kernel)
  have hroom : Roomy slotSetup (argumentsEnd [[0x61]] []) (slotStart 0x100) (.enter 0x1008) := by
    unfold Roomy RoomFor
    decide +kernel
  exact ⟨by decide +kernel, by decide +kernel, contained_of_roomy (bootOk_slotImage 0x100)
    (slotMemory_eq slotMemory_small) rfl rfl (.single ⟨henter, hroom⟩) _ mem_cons_self⟩

/-- The first frame of a function with almost 16 MiB of locals is accepted, and the locals reach
down over the arguments and out of the stack. -/
theorem locals_over_arguments : ∃ (w₀ : ExecWorld) (p : Proc) (segs : List BootSeg)
    (argv : List Str) (envp : Env) (info : ElfLoad) (r1 : U64) (c : Setup) (w : World)
    (m₀ m : Machine) (entry : U64) (a : Activation), BootOk (segs ++ [stackSeg]) ∧
      setupStack w₀ p (State.boot segs) argv envp info = some (m₀.mem, r1) ∧
      m₀.reg 10 = stackTop ∧ c.vm = 0 ∧ FrameStep c w (m₀, []) (.enter entry) (m, [a]) ∧
      a.base.toNat - a.size.toNat < stackBase.toNat ∧ argumentsEnd argv envp ≤ a.base.toNat ∧
      ¬ Contained (argumentsEnd argv envp) (stackBase.toNat + stackSize) a := by
  obtain ⟨m, henter⟩ := enter_entry slotSetup (slotStart 0xfff000) 0x1008 World.quiet
    (by decide +kernel) (by decide +kernel)
  have hlow : (slotFrame 0xfff000).base.toNat - (slotFrame 0xfff000).size.toNat <
      stackBase.toNat := by decide +kernel
  have hnot : ¬ Contained (argumentsEnd [[0x61]] []) (stackBase.toNat + stackSize)
      (slotFrame 0xfff000) := by
    intro hc
    have hlocals := (hc _ (mem_cons_of_mem _ mem_cons_self)).1
    unfold argumentsEnd at hlocals
    omega
  exact ⟨willing, caller 0, _, _, _, _, _, slotSetup, World.quiet, slotStart 0xfff000, m, 0x1008,
    slotFrame 0xfff000, bootOk_slotImage 0xfff000, slotMemory_eq slotMemory_large, rfl, rfl, henter,
    hlow, by decide +kernel, hnot⟩

end Bpfvm.Exec
