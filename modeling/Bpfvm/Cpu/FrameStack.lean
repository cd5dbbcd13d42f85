import Bpfvm.Cpu.Alloca

/-!
# The stack of frames

Calls, exits, `alloca` and signals in any order. What the frames should be is recorded beside the
machine: an activation remembers the registers and the return address of its call, the size of the
callee's locals and the bytes it has allocated since. The machine itself knows only `r10` and the
packed words in the headers.
-/
namespace Bpfvm.Cpu
open Memory FlatMemory
open List hiding lookup

/-- One active frame: where it is, of what kind, how large, and what its call saved. -/
structure Activation where
  base : U64
  isSignal : Bool
  saSiginfo : Bool
  size : U64
  level : U64
  saved : Machine
  ret : U64

namespace Activation

def header (a : Activation) : ℕ := frameSize a.isSignal a.saSiginfo

/-- The lowest address of the frame's own area. -/
def low (a : Activation) : ℕ := a.base.toNat - a.size.toNat - a.level.toNat

/-- The header, the locals and the alloca area. -/
def areas (a : Activation) : List (ℕ × ℕ) :=
  [(a.base.toNat, a.base.toNat + a.header), (a.base.toNat - a.size.toNat, a.base.toNat),
    (a.low, a.base.toNat - a.size.toNat)]

/-- The words that belong into the header. -/
def words (a : Activation) : List U64 :=
  frameHead a.isSignal a.saSiginfo a.size a.level ::
    (a.saved.frameWords a.isSignal a.saSiginfo a.size a.ret).tail

/-- The header is mapped in one piece and holds what belongs there. -/
structure Intact (a : Activation) (v : ℕ) (s : State) : Prop where
  mapped : Mapped s v a.base.toNat a.header
  frame : read (s.view v) a.base.toNat (a.words.flatMap wordBytes).length =
    some (a.words.flatMap wordBytes)
  ucontext : a.isSignal = true → a.saSiginfo = true →
    read (s.view v) (a.base.toNat + 256) 264 =
      some (ucontextBytes a.saved a.ret (a.saved.reg 10))

/-- The frame lies below the other one. -/
def Below (a b : Activation) : Prop := a.base.toNat + a.header ≤ b.low

end Activation

/-- The two ranges of addresses do not meet. -/
def Apart (i j : ℕ × ℕ) : Prop := i.2 ≤ j.1 ∨ j.2 ≤ i.1

/-- A call of the interpreter, by register or by offset. -/
def BpfInsn.IsCall (cur : BpfInsn) : Prop :=
  (cur.code &&& 0xf0).toNat = 0x80 ∧ (cur.useReg = true ∨ cur.srcReg = 1)

/-- The entry of the function that a call at `pc_` calls. -/
def Machine.calleeOf (m : Machine) (cur : BpfInsn) : U64 :=
  if cur.useReg then m.reg cur.dstReg.toNat else m.pc + 8 + cur.imm.signExtend 64 * 8

inductive FrameEvent where
  | enter (entry : U64)
  | call (cur : BpfInsn)
  | signal (info : SigInfo)
  | exit (cur : BpfInsn)
  | alloca (inc : U64)
  | other

/-- The steps that concern frames, and any other step that leaves `r10` and the headers of the
active frames alone. The size of a callee's locals fits the 24 bits of its field. -/
inductive FrameStep (c : Setup) (w : World) :
    Machine × List Activation → FrameEvent → Machine × List Activation → Prop where
  -- `vm::run`
  | enter {m m' : Machine} {acts : List Activation} {entry : U64}
      (h : m.pushFrame c 0 entry false false = (true, m'))
      (hsize : (m.calleeSize c entry false false).toNat < 2 ^ 24) :
      FrameStep c w (m, acts) (.enter entry) (m', ⟨m.frameBase c false false, false, false,
        m.calleeSize c entry false false, 0, m, 0⟩ :: acts)
  | call {m m' : Machine} {acts : List Activation} {cur : BpfInsn} (hcur : cur.IsCall)
      (h : m.jmp c w cur = (true, m'))
      (hsize : (m.calleeSize c (m.calleeOf cur) false false).toNat < 2 ^ 24) :
      FrameStep c w (m, acts) (.call cur) ({ m' with pc := m'.pc + 8 },
        ⟨m.frameBase c false false, false, false, m.calleeSize c (m.calleeOf cur) false false, 0, m,
          m.pc + 8⟩ :: acts)
  | signal {m m' : Machine} {acts : List Activation} {info : SigInfo}
      (h : m.deliverSignal c (.handler info) = (true, m'))
      (hsize : (m.handlerSize c info).toNat < 2 ^ 24) :
      FrameStep c w (m, acts) (.signal info) (m', ⟨m.frameBase c true info.wantsSiginfo, true,
        info.wantsSiginfo, m.handlerSize c info, 0, m.resumed info, m.resumePc info⟩ :: acts)
  | exit {m m' : Machine} {a : Activation} {acts : List Activation} {cur : BpfInsn}
      (hcur : (cur.code &&& 0xf0).toNat = 0x90) (h : m.jmp c w cur = (true, m')) :
      FrameStep c w (m, a :: acts) (.exit cur) ({ m' with pc := m'.pc + 8 }, acts)
  | alloca {m m' : Machine} {a : Activation} {acts : List Activation} {inc low : U64}
      (h : m.alloca c inc = (.ok low, m')) :
      FrameStep c w (m, a :: acts) (.alloca inc)
        (m'.setReg 0 low, { a with level := a.level + inc } :: acts)
  | allocaFails {m m' : Machine} {a : Activation} {acts : List Activation} {inc e : U64}
      (h : m.alloca c inc = (.error e, m')) :
      FrameStep c w (m, a :: acts) (.alloca inc) (m'.setReg 0 (-e), a :: acts)
  | other {m m' : Machine} {acts : List Activation} (hs : Sound m'.mem c.vm)
      (h10 : m'.reg 10 = m.reg 10)
      (hmapped : ∀ a ∈ acts, Mapped m'.mem c.vm a.base.toNat a.header)
      (hkept : ∀ a ∈ acts, ∀ i < a.header, m'.mem.view c.vm (a.base.toNat + i) =
        m.mem.view c.vm (a.base.toNat + i)) :
      FrameStep c w (m, acts) .other (m', acts)

/-! ## What is in a header -/

variable {s : State} {v : ℕ} {cur : BpfInsn}

section
variable {c : Setup} {w : World} {m m' : Machine} {a b : Activation} {acts : List Activation}

theorem Activation.length_words (a : Activation) :
    a.words.length = if a.isSignal then 13 else 7 := by
  obtain ⟨base, isSignal, saSiginfo, size, level, saved, ret⟩ := a
  cases isSignal <;> rfl

theorem Activation.words_fit (a : Activation) :
    8 ≤ (a.words.flatMap wordBytes).length ∧ (a.words.flatMap wordBytes).length ≤ a.header ∧
      (a.words.flatMap wordBytes).length ≤ 104 := by
  rw [length_flatMap_wordBytes, a.length_words, Activation.header, frameSize_eq]
  split_ifs <;> omega

theorem Activation.words_new (base : U64) (isSignal saSiginfo : Bool) (size ret : U64)
    (saved : Machine) :
    (⟨base, isSignal, saSiginfo, size, 0, saved, ret⟩ : Activation).words =
      saved.frameWords isSignal saSiginfo size ret := by
  cases isSignal <;> rfl

theorem Activation.Intact.head (h : a.Intact v s) :
    read (s.view v) a.base.toNat 8 =
      some (wordBytes (frameHead a.isSignal a.saSiginfo a.size a.level)) := by
  have hframe := h.frame
  rw [read_eq_some_iff] at hframe ⊢
  refine ⟨length_wordBytes _, fun i hi => ?_⟩
  rw [hframe.2 i (by have := a.words_fit.1; omega), Activation.words, flatMap_cons,
    getElem?_append_left (by rw [length_wordBytes]; exact hi)]

/-- A frame stays intact where nothing in its header changes. -/
theorem Activation.Intact.kept {s' : State} (h : a.Intact v s)
    (hm : Mapped s' v a.base.toNat a.header)
    (hk : ∀ i < a.header, s'.view v (a.base.toNat + i) = s.view v (a.base.toNat + i)) :
    a.Intact v s' := by
  refine ⟨hm, ?_, fun hsig hsi => ?_⟩
  · rw [← h.frame]
    exact read_congr fun i hi => hk i (by have := a.words_fit.2.1; omega)
  · rw [← h.ucontext hsig hsi]
    refine read_congr fun i hi => ?_
    have hsize : a.header = 520 := by
      rw [Activation.header, hsig, hsi]
      rfl
    rw [Nat.add_assoc]
    exact hk (256 + i) (by omega)

/-! ## The invariant -/

/-- The machine's frames are the recorded ones, one below the other. -/
structure FramesOk (c : Setup) (m : Machine) (acts : List Activation) : Prop where
  sound : Sound m.mem c.vm
  top : ∀ a ∈ acts.head?, m.reg 10 = a.base
  intact : ∀ a ∈ acts, a.Intact c.vm m.mem
  floor : ∀ a ∈ acts, stackBase.toNat ≤ a.base.toNat
  small : ∀ a ∈ acts, a.size.toNat < 2 ^ 24 ∧ a.level.toNat < 2 ^ 24
  below : acts.Pairwise Activation.Below
  link : acts.IsChain fun a b => a.saved.reg 10 = b.base

theorem FramesOk.low_add (h : FramesOk c m acts) (ha : a ∈ acts) :
    a.low + a.size.toNat + a.level.toNat = a.base.toNat := by
  have hf := h.floor a ha
  have hs := h.small a ha
  have hb : stackBase.toNat = 0x10000000 := rfl
  rw [Activation.low]
  omega

/-- Below a frame there is nothing but what belongs to later frames. -/
theorem Activation.Below.trans {d : Activation} (h : a.Below b) (h' : b.Below d) : a.Below d := by
  have hlow : b.low ≤ b.base.toNat := by
    rw [Activation.low]
    omega
  unfold Activation.Below at h h' ⊢
  omega

/-- `push_frame` finds the end of the current frame. -/
theorem FramesOk.callerLen (h : FramesOk c m (a :: acts)) :
    (m.callerLen c).toNat = a.size.toNat + a.level.toNat := by
  have ha : a ∈ a :: acts := mem_cons_self
  have h10 : m.reg 10 = a.base := h.top a rfl
  have hsmall := h.small a ha
  have hfit := a.words_fit
  obtain ⟨bs, mem, hload, hread, -⟩ := load_of_mapped (c := c) (x := m.reg 10) (n := 8) h.sound
    (by rw [h10]; exact (h.intact a ha).mapped.sub le_rfl (by omega)) (by decide)
  rw [h10, (h.intact a ha).head] at hread
  obtain rfl := Option.some.inj hread
  have hword := word_wordBytes (frameHead a.isSignal a.saSiginfo a.size a.level) []
  rw [append_nil] at hword
  rw [Machine.callerLen, hload, headerLen, hword]
  exact toNat_frameTotalLen_head hsmall.1 hsmall.2

/-- The new frame ends where the current one begins. -/
theorem FramesOk.frameBase (h : FramesOk c m (a :: acts)) (isSignal saSiginfo : Bool) :
    (m.frameBase c isSignal saSiginfo).toNat + frameSize isSignal saSiginfo = a.low := by
  have ha : a ∈ a :: acts := mem_cons_self
  have hlen := h.callerLen
  have hlow := h.low_add ha
  have hsmall := h.small a ha
  have hfloor := h.floor a ha
  have hb : stackBase.toNat = 0x10000000 := rfl
  have hfs := (frameSize_pos isSignal saSiginfo).2
  have hlt := a.base.isLt
  have h10 : m.reg 10 = a.base := h.top a rfl
  rw [Machine.frameBase, BitVec.toNat_sub, BitVec.toNat_sub, BitVec.toNat_ofNat, hlen, h10]
  omega

theorem FramesOk.push {saved : Machine} {ret size : U64} {isSignal saSiginfo : Bool}
    (h : FramesOk c m acts) (hp : Pushed c m m' saved ret size isSignal saSiginfo)
    (h10 : saved.reg 10 = m.reg 10) (hsize : size.toNat < 2 ^ 24) :
    FramesOk c m' (⟨m.frameBase c isSignal saSiginfo, isSignal, saSiginfo, size, 0, saved, ret⟩ ::
      acts) := by
  generalize hnew : (⟨m.frameBase c isSignal saSiginfo, isSignal, saSiginfo, size, 0, saved,
    ret⟩ : Activation) = new
  have hbase : new.base = m'.reg 10 := by
    rw [← hnew, hp.base]
  have hheader : new.header = frameSize isSignal saSiginfo := by
    rw [← hnew]
    rfl
  have hbelow : ∀ a ∈ acts, new.Below a := by
    cases acts with
    | nil => simp
    | cons b rest =>
      have hb : new.Below b := by
        rw [Activation.Below, hheader, hbase, hp.base]
        exact (h.frameBase isSignal saSiginfo).le
      intro a ha
      rcases mem_cons.mp ha with rfl | ha
      · exact hb
      · exact hb.trans (rel_of_pairwise_cons h.below ha)
  refine ⟨hp.updated.sound, ?_, ?_, ?_, ?_, pairwise_cons.mpr ⟨hbelow, h.below⟩, ?_⟩
  · intro a ha
    obtain rfl : new = a := by simpa using ha
    exact hbase.symm
  · intro a ha
    rcases mem_cons.mp ha with rfl | ha
    · refine ⟨?_, ?_, ?_⟩
      · rw [hbase, hheader]
        exact hp.mapped
      · have hwords : a.words = saved.frameWords isSignal saSiginfo size ret := by
          rw [← hnew]
          exact Activation.words_new ..
        rw [hbase, hwords]
        exact hp.frame
      · intro hsig hsi
        rw [hbase]
        rw [← hnew] at hsig hsi ⊢
        rw [show (Activation.saved _).reg 10 = m.reg 10 from h10]
        exact hp.ucontext hsig hsi
    · refine (h.intact a ha).kept (hp.updated.mapped (h.intact a ha).mapped) fun i hi => ?_
      apply hp.outside
      have hb := hbelow a ha
      have hlow : a.low ≤ a.base.toNat := by
        rw [Activation.low]
        omega
      rw [Activation.Below, hheader, hbase] at hb
      omega
  · intro a ha
    rcases mem_cons.mp ha with rfl | ha
    · rw [hbase]
      exact hp.floor
    · exact h.floor a ha
  · intro a ha
    rcases mem_cons.mp ha with rfl | ha
    · rw [← hnew]
      exact ⟨hsize, Nat.two_pow_pos 24⟩
    · exact h.small a ha
  · cases acts with
    | nil => exact List.IsChain.singleton _
    | cons b rest =>
      refine isChain_cons_cons.mpr ⟨?_, h.link⟩
      rw [← hnew, ← h.top b rfl]
      exact h10

theorem Activation.Intact.word {i : ℕ} {frame : List Byte} {x : U64} (h : a.Intact v s)
    (hf : read (s.view v) a.base.toNat 104 = some frame) (hx : a.words[i]? = some x) :
    word frame (8 * i) = x := by
  obtain ⟨rest, rfl⟩ := read_append hf h.frame a.words_fit.2.2
  exact word_flatMap a.words rest hx

/-- The registers that `pop_frame` takes from the frame. -/
theorem Activation.Intact.restoreFrame {frame : List Byte} (h : a.Intact v s)
    (hf : read (s.view v) a.base.toNat 104 = some frame) {k : ℕ} (hk : 6 ≤ k)
    (hk' : k ≤ 10) : (m.restoreFrame frame).reg k = a.saved.reg k := by
  unfold Machine.restoreFrame
  dsimp only
  by_cases h9 : k ≤ 9
  · rw [if_pos ⟨hk, h9⟩]
    have hword (i : ℕ) (x : U64) (hx : a.words[i]? = some x) := h.word hf hx
    interval_cases k
    · exact hword 3 _ rfl
    · exact hword 4 _ rfl
    · exact hword 5 _ rfl
    · exact hword 6 _ rfl
  · obtain rfl : k = 10 := by omega
    rw [if_neg (by omega), if_neg (by omega), if_pos rfl]
    exact h.word hf (i := 1) rfl

theorem sigreturn_refilled (hs : Sound m.mem c.vm) (base fallback : U64) :
    Refilled m.mem (m.sigreturn c base fallback).2.mem c.vm := by
  obtain ⟨mem, hmem, hr⟩ := load_refilled hs (base + BitVec.ofNat 64 siginfoFrameUcOff) 264
  unfold Machine.sigreturn
  generalize m.load c (base + BitVec.ofNat 64 siginfoFrameUcOff) 264 = r at hmem ⊢
  obtain ⟨_ | uc, m₀⟩ := r
  · dsimp only at hmem
    subst hmem
    exact hr
  · dsimp only at hmem
    subst hmem
    exact hr

theorem jmp_exit (hcur : (cur.code &&& 0xf0).toNat = 0x90) :
    m.jmp c w cur = if (m.popFrame c).1 = 0 then (false, (m.popFrame c).2)
      else (true, { (m.popFrame c).2 with pc := (m.popFrame c).1 - 8 }) := by
  rw [Machine.jmp, hcur]
  rfl

/-- `pop_frame` without 104 readable bytes. -/
theorem popFrame_of_not_mapped (hs : Sound m.mem c.vm)
    (hm : ¬ Mapped m.mem c.vm (m.reg 10).toNat 104) : (m.popFrame c).1 = 0 := by
  have hfst := load_fst hs (m.reg 10) (n := 104) (by decide) (by decide)
  have hnone : findMap (m.mem.maps c.vm) (m.reg 10).toNat 104 = none := by
    rw [Option.eq_none_iff_forall_not_mem]
    intro seg hseg
    exact hm ⟨seg, (findMap_eq_some_iff hs.mapsOk (BitVec.isLt _) (by decide) (by decide)).mp hseg⟩
  rw [lookup, hnone] at hfst
  unfold Machine.popFrame
  dsimp only
  generalize m.load c (m.reg 10) 104 = r at hfst ⊢
  obtain ⟨_ | frame, m₀⟩ := r
  · rfl
  · cases hfst

theorem FramesOk.popFrame (h : FramesOk c m (a :: acts))
    (hm : Mapped m.mem c.vm (m.reg 10).toNat 104) :
    (m.popFrame c).1 = a.ret ∧ (∀ k, 6 ≤ k → k ≤ 10 →
      (m.popFrame c).2.reg k = a.saved.reg k) ∧
      Refilled m.mem (m.popFrame c).2.mem c.vm := by
  have hmem : a ∈ a :: acts := mem_cons_self
  have h10 : m.reg 10 = a.base := h.top a rfl
  have hint := h.intact a hmem
  obtain ⟨frame, mem, hload, hframe, hr⟩ := load_of_mapped h.sound hm (by decide)
  unfold Machine.popFrame
  dsimp only
  rw [hload]
  dsimp only
  rw [h10] at hframe
  have hhead := hint.word hframe (i := 0) rfl
  have hra : word frame 16 = a.ret := hint.word hframe (i := 2) rfl
  rw [Nat.mul_zero] at hhead
  rw [hhead, frameIsSignal_head, frameHasSiginfo_head, hra]
  by_cases hsig : (a.isSignal && a.saSiginfo) = true
  · rw [if_pos hsig]
    obtain ⟨hs1, hs2⟩ := Bool.and_eq_true_iff.mp hsig
    have hheader : a.header = 520 := by
      rw [Activation.header, hs1, hs2]
      rfl
    have hmap := hint.mapped
    rw [hheader] at hmap
    have hb := h.sound.bound hmap
    have huc := hint.ucontext hs1 hs2
    rw [← hr.view] at huc
    obtain ⟨m₁, hsr, hregs, -, -⟩ := sigreturn_spec
      (m := ({ m with mem := mem } : Machine).restoreFrame frame) (m.reg 10) a.ret hr.sound
      (by rw [h10]; omega) (by rw [h10]; exact hr.mapped (hmap.sub (by omega) (by omega)))
      (by rw [h10]; exact huc)
    have hr' := sigreturn_refilled (m := ({ m with mem := mem } : Machine).restoreFrame frame)
      (c := c) hr.sound (m.reg 10) a.ret
    rw [hsr] at hr' ⊢
    refine ⟨rfl, fun k _ hk => ?_, hr.trans hr'⟩
    rw [hregs k hk]
    split_ifs with h10'
    · rw [h10']
    · rfl
  · rw [if_neg hsig]
    exact ⟨rfl, fun k hk hk' => hint.restoreFrame hframe hk hk', hr⟩

/-- `EXIT` goes on only if `pop_frame` can read its 104 bytes and the frame has a return
address. -/
theorem FramesOk.exit_iff (h : FramesOk c m (a :: acts)) (hcur : (cur.code &&& 0xf0).toNat = 0x90) :
    (m.jmp c w cur).1 = true ↔ Mapped m.mem c.vm a.base.toNat 104 ∧ a.ret ≠ 0 := by
  have h10 : m.reg 10 = a.base := h.top a rfl
  rw [jmp_exit hcur, ← h10]
  by_cases hm : Mapped m.mem c.vm (m.reg 10).toNat 104
  · rw [(h.popFrame hm).1]
    by_cases hret : a.ret = 0
    · rw [if_pos hret]
      exact iff_of_false Bool.false_ne_true fun h => h.2 hret
    · rw [if_neg hret]
      exact iff_of_true rfl ⟨hm, hret⟩
  · rw [if_pos (popFrame_of_not_mapped h.sound hm)]
    exact iff_of_false Bool.false_ne_true fun h => hm h.1

/-- `EXIT` gives back what the call of the frame on top has saved. -/
theorem FramesOk.exit (h : FramesOk c m (a :: acts)) (hcur : (cur.code &&& 0xf0).toNat = 0x90)
    (hj : m.jmp c w cur = (true, m')) :
    m'.pc + 8 = a.ret ∧ (∀ k, 6 ≤ k → k ≤ 10 → m'.reg k = a.saved.reg k) ∧
      Refilled m.mem m'.mem c.vm := by
  have h10 : m.reg 10 = a.base := h.top a rfl
  obtain ⟨hm, hret⟩ := (h.exit_iff hcur).mp (congrArg Prod.fst hj)
  obtain ⟨hra, hregs, hr⟩ := h.popFrame (h10 ▸ hm)
  rw [jmp_exit hcur, if_neg (by rw [hra]; exact hret)] at hj
  obtain rfl := (Prod.mk.inj hj).2
  exact ⟨(BitVec.sub_add_cancel _ _).trans hra, hregs, hr⟩

theorem FramesOk.pop (h : FramesOk c m (a :: acts)) (hr : Refilled m.mem m'.mem c.vm)
    (h10 : m'.reg 10 = a.saved.reg 10) : FramesOk c m' acts := by
  have hmem {b : Activation} (hb : b ∈ acts) : b ∈ a :: acts := mem_cons_of_mem _ hb
  refine ⟨hr.sound, ?_, ?_, fun b hb => h.floor b (hmem hb), fun b hb => h.small b (hmem hb),
    (pairwise_cons.mp h.below).2, ?_⟩
  · intro b hb
    cases acts with
    | nil => simp at hb
    | cons d rest =>
      obtain rfl : d = b := by simpa using hb
      exact h10.trans (isChain_cons_cons.mp h.link).1
  · intro b hb
    refine (h.intact b (hmem hb)).kept (hr.mapped (h.intact b (hmem hb)).mapped) fun i _ => ?_
    rw [hr.view]
  · cases acts with
    | nil => exact List.IsChain.nil
    | cons d rest => exact (isChain_cons_cons.mp h.link).2

/-- Growing or shrinking the alloca area of the frame on top. -/
theorem FramesOk.alloca {inc low : U64} (h : FramesOk c m (a :: acts))
    (ha : m.alloca c inc = (.ok low, m')) :
    FramesOk c (m'.setReg 0 low) ({ a with level := a.level + inc } :: acts) := by
  have hmem : a ∈ a :: acts := mem_cons_self
  have h10 : m.reg 10 = a.base := h.top a rfl
  have hint := h.intact a hmem
  obtain ⟨hsize, hlevel⟩ := h.small a hmem
  obtain ⟨mem, rfl, hup, hlt, -, -, -⟩ := alloca_spec h.sound (by rw [h10]; exact hint.head) hsize
    hlevel ha
  rw [h10] at hup
  have hbelow := pairwise_cons.mp h.below
  have hfit := a.words_fit
  refine ⟨hup.sound, ?_, ?_, ?_, ?_, pairwise_cons.mpr ⟨fun b hb => hbelow.1 b hb, hbelow.2⟩,
    ?_⟩
  · intro b hb
    obtain rfl : _ = b := by simpa using hb
    exact h10
  · intro b hb
    rcases mem_cons.mp hb with rfl | hb
    · refine ⟨hup.mapped hint.mapped, ?_, fun hsig hsi => ?_⟩
      · refine (congrArg (read · _ _) hup.view).trans ?_
        exact read_write_front hint.frame (by rw [length_wordBytes, length_wordBytes])
      · refine (congrArg (read · _ _) hup.view).trans ?_
        rw [read_write_of_disjoint (.inr ?_)]
        · exact hint.ucontext hsig hsi
        · rw [length_wordBytes]
          exact Nat.add_le_add_left (by decide) _
    · have hb' : b ∈ a :: acts := mem_cons_of_mem _ hb
      refine (h.intact b hb').kept (hup.mapped (h.intact b hb').mapped) fun i _ => ?_
      have hab : a.base.toNat + a.header ≤ b.low := hbelow.1 b hb
      have hlow : b.low ≤ b.base.toNat := by
        rw [Activation.low]
        omega
      exact (congrFun hup.view _).trans (write_of_not_mem (by
        rw [length_wordBytes]
        omega))
  · intro b hb
    rcases mem_cons.mp hb with rfl | hb
    · exact h.floor a hmem
    · exact h.floor b (mem_cons_of_mem _ hb)
  · intro b hb
    rcases mem_cons.mp hb with rfl | hb
    · exact ⟨hsize, hlt⟩
    · exact h.small b (mem_cons_of_mem _ hb)
  · cases acts with
    | nil => exact List.IsChain.singleton _
    | cons d rest => exact isChain_cons_cons.mpr (isChain_cons_cons.mp h.link)

theorem FramesOk.same (h : FramesOk c m acts) (hu : Updated m.mem m'.mem c.vm (m.mem.view c.vm))
    (h10 : m'.reg 10 = m.reg 10) : FramesOk c m' acts := by
  refine ⟨hu.sound, fun a ha => h10.trans (h.top a ha), fun a ha => ?_, h.floor, h.small, h.below,
    h.link⟩
  refine (h.intact a ha).kept (hu.mapped (h.intact a ha).mapped) fun i _ => ?_
  rw [hu.view]

theorem jmp_call (hcur : cur.IsCall) (h : m.jmp c w cur = (true, m')) :
    ∃ m₁ pc, m.pushFrame c (m.pc + 8) (m.calleeOf cur) false false = (true, m₁) ∧
      m' = { m₁ with pc := pc } := by
  obtain ⟨hop, hform⟩ := hcur
  unfold Machine.jmp at h
  rw [hop] at h
  dsimp only at h
  unfold Machine.calleeOf
  by_cases hreg : cur.useReg = true
  · rw [if_pos hreg] at h
    rw [if_pos hreg]
    generalize m.pushFrame c (m.pc + 8) (m.reg cur.dstReg.toNat) false false = r at h ⊢
    obtain ⟨_ | _, m₁⟩ := r
    · simp at h
    · exact ⟨m₁, _, rfl, (Prod.mk.inj h).2.symm⟩
  · have hsrc : cur.srcReg = 1 := hform.resolve_left hreg
    rw [if_neg hreg, if_neg (by rw [hsrc]; decide), if_pos hsrc] at h
    rw [if_neg hreg]
    generalize m.pushFrame c (m.pc + 8) (m.pc + 8 + cur.imm.signExtend 64 * 8) false false = r
      at h ⊢
    obtain ⟨_ | _, m₁⟩ := r
    · simp at h
    · exact ⟨m₁, _, rfl, (Prod.mk.inj h).2.symm⟩

/-- Neither `pc_` nor a register below `r10` matters for the frames. -/
theorem FramesOk.congr (h : FramesOk c m acts) (hmem : m'.mem = m.mem)
    (h10 : m'.reg 10 = m.reg 10) : FramesOk c m' acts :=
  h.same (by rw [hmem]; exact (Refilled.refl h.sound).updated) h10

theorem FramesOk.step {acts' : List Activation} {e : FrameEvent} (h : FramesOk c m acts)
    (hs : FrameStep c w (m, acts) e (m', acts')) : FramesOk c m' acts' := by
  cases hs with
  | enter hpush hsize => exact h.push (pushFrame_pushed h.sound hpush) rfl hsize
  | call hcur hj hsize =>
    obtain ⟨m₁, pc, hpush, rfl⟩ := jmp_call hcur hj
    exact (h.push (pushFrame_pushed h.sound hpush) rfl hsize).congr rfl rfl
  | @signal _ _ _ info hdel hsize =>
    have h10 : m.resumeReg info 10 = m.reg 10 := Machine.resumeReg_of_ne (by decide)
    exact h.push (deliverSignal_pushed h.sound hdel).1 h10 hsize
  | exit hcur hj =>
    obtain ⟨-, hregs, hr⟩ := h.exit hcur hj
    exact (h.pop hr (hregs 10 (by decide) le_rfl)).congr rfl rfl
  | alloca ha => exact h.alloca ha
  | allocaFails ha =>
    obtain ⟨hreg, hup⟩ := alloca_error h.sound ha
    exact (h.same hup (congrFun hreg 10)).congr rfl rfl
  | other hsound h10 hmapped hkept =>
    exact ⟨hsound, fun a ha => h10.trans (h.top a ha),
      fun a ha => (h.intact a ha).kept (hmapped a ha) (hkept a ha), h.floor, h.small, h.below,
      h.link⟩

theorem framesOk_of_run {m₀ : Machine} {l : List FrameEvent} {s : Machine × List Activation}
    (hs : Sound m₀.mem c.vm) (h : Run (FrameStep c w) (m₀, []) l s) : FramesOk c s.1 s.2 := by
  refine h.invariant (P := fun s => FramesOk c s.1 s.2) ?_ fun s i s' hP hstep => ?_
  · exact ⟨hs, by simp, by simp, by simp, by simp, .nil, .nil⟩
  · exact hP.step hstep

/-- The areas of frames that lie one below the other. -/
theorem FramesOk.areas (h : FramesOk c m acts) :
    (acts.flatMap Activation.areas).Pairwise Apart := by
  rw [pairwise_flatMap]
  constructor
  · intro a ha
    have hlow := h.low_add ha
    simp [Activation.areas, Apart]
  · refine h.below.imp_of_mem fun {a b} ha hb hab => ?_
    have hlowa := h.low_add ha
    have hlowb := h.low_add hb
    unfold Activation.Below at hab
    have hleft : ∀ x ∈ a.areas, x.2 ≤ a.base.toNat + a.header := by
      simp [Activation.areas]
      omega
    have hright : ∀ y ∈ b.areas, b.low ≤ y.1 := by
      simp [Activation.areas]
      omega
    intro x hx y hy
    exact .inl ((hleft x hx).trans (hab.trans (hright y hy)))

/-- However calls, exits, signals and `alloca` follow each other: the headers, the locals and the
alloca areas of the active frames are apart and `r10` is at the last one. An `EXIT` from a frame
with 104 mapped bytes and a return address goes on, with `r6` .. `r10` and `pc_` of the call that
made the frame; any other `EXIT` ends the vm. -/
theorem frames_of_run {m₀ : Machine} {l : List FrameEvent} (hs : Sound m₀.mem c.vm)
    (h : Run (FrameStep c w) (m₀, []) l (m, acts)) :
    (acts.flatMap Activation.areas).Pairwise Apart ∧
      (∀ a ∈ acts, a.size.toNat + a.level.toNat ≤ a.base.toNat) ∧
      (∀ a ∈ acts.head?, m.reg 10 = a.base) ∧
      ∀ a acts' cur, acts = a :: acts' → (cur.code &&& 0xf0).toNat = 0x90 →
        ((m.jmp c w cur).1 = true ↔ Mapped m.mem c.vm a.base.toNat 104 ∧ a.ret ≠ 0) ∧
        ∀ m', m.jmp c w cur = (true, m') →
          m'.pc + 8 = a.ret ∧ ∀ k, 6 ≤ k → k ≤ 10 → m'.reg k = a.saved.reg k := by
  have hok := framesOk_of_run hs h
  refine ⟨hok.areas, fun a ha => ?_, hok.top, fun a acts' cur he hcur => ?_⟩
  · have hlow : a.low + a.size.toNat + a.level.toNat = a.base.toNat := hok.low_add ha
    omega
  · subst he
    refine ⟨hok.exit_iff hcur, fun m' hj => ?_⟩
    obtain ⟨hpc, hregs, -⟩ := hok.exit hcur hj
    exact ⟨hpc, hregs⟩

end

/-! ## A call in a small program -/

/-- `call +0`. -/
def callNext : BpfInsn := ⟨0x85, 0, 1, 0, 0⟩

def nested : Machine :=
  Machine.boot [⟨0x1000, 0x1000, 5, fun k => callNext.bytes.getD k 0⟩,
    ⟨0x10000000, 0x1000, 6, fun _ => 0⟩] (fun k => if k = 10 then 0x10000800 else 0) 0x1000

/-- The entry frame, 16 bytes of alloca area in it, and a call. -/
def nestedEntry : Machine := (nested.pushFrame Setup.plain 0 0x1000 false false).2

def nestedGrown : Machine := (nestedEntry.alloca Setup.plain 16).2.setReg 0 0x100007b0

def nestedCall : Machine := (nestedGrown.jmp Setup.plain World.quiet callNext).2

theorem alloca_eq {c : Setup} {m : Machine} {inc low : U64}
    (h : (m.alloca c inc).1.toOption = some low) :
    m.alloca c inc = (.ok low, (m.alloca c inc).2) := by
  cases hr : m.alloca c inc with
  | mk o m' =>
    rw [hr] at h
    cases o with
    | error e => cases h
    | ok low' => rw [Option.some.inj h]

theorem alloca_nested : nestedEntry.alloca Setup.plain 16 =
    (.ok 0x100007b0, (nestedEntry.alloca Setup.plain 16).2) :=
  alloca_eq (by decide +kernel)

theorem frames_of_run_nested : ∃ l acts, acts.length = 2 ∧
    Run (FrameStep Setup.plain World.quiet) (nested, []) l
      ({ nestedCall with pc := nestedCall.pc + 8 }, acts) ∧
    (acts.flatMap Activation.areas).Pairwise Apart := by
  have hs : Sound nested.mem 0 := by
    refine sound_boot ⟨?_, ?_, ?_⟩ <;> simp [BootSeg.stop]
  have henter : FrameStep Setup.plain World.quiet (nested, []) (.enter 0x1000) (nestedEntry, _) :=
    .enter (Prod.ext (by decide +kernel) rfl) (by decide +kernel)
  have hgrow (a : Activation) (acts : List Activation) : FrameStep Setup.plain World.quiet
      (nestedEntry, a :: acts) (.alloca 16)
      (nestedGrown, { a with level := a.level + 16 } :: acts) :=
    .alloca alloca_nested
  have hcall (acts : List Activation) : FrameStep Setup.plain World.quiet (nestedGrown, acts)
      (.call callNext) ({ nestedCall with pc := nestedCall.pc + 8 }, _ :: acts) :=
    .call ⟨by decide, .inr rfl⟩ (Prod.ext (by decide +kernel) rfl) (by decide +kernel)
  have hrun := ((Run.single henter).snoc (hgrow _ _)).snoc (hcall _)
  exact ⟨_, _, rfl, hrun, (frames_of_run hs hrun).1⟩

/-! ## A call at the end of a mapping -/

def exitHere : BpfInsn := ⟨0x95, 0, 0, 0, 0⟩

/-- A thread whose stack pointer is the end of its stack, as `clone` leaves it. -/
def atStackEnd : Machine :=
  Machine.boot [⟨0x1000, 0x1000, 5, fun k => (callNext.bytes ++ exitHere.bytes).getD k 0⟩,
    ⟨0x10000000, 0x1000, 6, fun _ => 0⟩] (fun k => if k = 10 then 0x10001000 else 0) 0x1000

def calledAtEnd : Machine := (atStackEnd.jmp Setup.plain World.quiet callNext).2

/-- The call succeeds, the `EXIT` behind it does not return. -/
theorem exit_does_not_return : ∃ (c : Setup) (w : World) (m m' : Machine) (a : Activation)
    (call exit : BpfInsn), Sound m.mem c.vm ∧
      FrameStep c w (m, []) (.call call) (m', [a]) ∧ a.ret = m.pc + 8 ∧ a.ret ≠ 0 ∧
      m'.insn c = some exit ∧ exit.IsExit ∧ m'.advance c w = none ∧
      (m'.fetch c w).2.reg 10 ≠ a.saved.reg 10 := by
  have hs : Sound atStackEnd.mem 0 := by
    refine sound_boot ⟨?_, ?_, ?_⟩ <;> simp [BootSeg.stop]
  have hcall : FrameStep Setup.plain World.quiet (atStackEnd, []) (.call callNext)
      ({ calledAtEnd with pc := calledAtEnd.pc + 8 }, [_]) :=
    .call ⟨by decide, .inr rfl⟩ (Prod.ext (by decide +kernel) rfl) (by decide +kernel)
  refine ⟨Setup.plain, World.quiet, atStackEnd, _, _, callNext, exitHere, hs, hcall, rfl,
    by decide +kernel, by decide +kernel, by decide, ?_, by decide +kernel⟩
  rw [← Option.isNone_iff_eq_none]
  decide +kernel

end Bpfvm.Cpu
