import Bpfvm.Cpu.Signals
import Mathlib.Tactic.IntervalCases

/-!
# Pushing and popping frames

What `push_frame` writes, where, and what `pop_frame` reads back.
-/
namespace Bpfvm.Cpu
open Memory Machine
open List hiding lookup

/-! ## Words in a list of bytes -/

theorem word_wordBytes (x : U64) (bs : List Byte) : word (wordBytes x ++ bs) 0 = x := by
  have htake : (wordBytes x ++ bs).take 8 = wordBytes x := by
    rw [take_append_of_le_length (by simp), take_of_length_le (by simp)]
  have hlt : x.toNat < 256 ^ 8 := x.isLt
  rw [word, drop_zero, htake, wordBytes, LittleEndian.value_bytes, Nat.mod_eq_of_lt hlt,
    BitVec.ofNat_toNat, BitVec.setWidth_eq]

theorem word_append (pre bs : List Byte) (k : ℕ) :
    word (pre ++ bs) (pre.length + k) = word bs k := by
  rw [word, word, drop_append, drop_of_length_le (by omega), nil_append,
    Nat.add_sub_cancel_left]

variable {x : U64} {i k n : ℕ}

/-- The words of a block that starts with the words `ws`. -/
theorem word_flatMap (ws : List U64) (bs : List Byte) (h : ws[i]? = some x) :
    word (ws.flatMap wordBytes ++ bs) (8 * i) = x := by
  induction ws generalizing i with
  | nil => simp at h
  | cons y ws ih =>
    rw [flatMap_cons, append_assoc]
    cases i with
    | zero =>
      obtain rfl : y = x := by simpa using h
      exact word_wordBytes y _
    | succ i =>
      have hi : 8 * (i + 1) = (wordBytes y).length + 8 * i := by
        rw [length_wordBytes]
        omega
      rw [hi, word_append]
      exact ih (by simpa using h)

theorem word_take {bs : List Byte} (h : k + 8 ≤ n) : word (bs.take n) k = word bs k := by
  rw [word, word, drop_take, take_take, min_eq_left (by omega)]

/-! ## `push_frame` -/

section
variable {c : Setup} {m : Machine}

theorem frameSizeOf_refilled (hs : Sound m.mem c.vm) (entry : U64) :
    ∃ limit mem, m.frameSizeOf c entry = (limit, { m with mem := mem }) ∧
      Refilled m.mem mem c.vm := by
  unfold frameSizeOf
  split_ifs
  · exact ⟨_, m.mem, rfl, Refilled.refl hs⟩
  · dsimp only
    obtain ⟨mem, hmem, hr⟩ := load_refilled hs (entry - 8) 8
    generalize m.load c (entry - 8) 8 = r at hmem ⊢
    obtain ⟨_ | bs, m'⟩ := r
    · dsimp only at hmem
      subst hmem
      exact ⟨_, mem, rfl, hr⟩
    · dsimp only at hmem
      subst hmem
      dsimp only
      split_ifs
      all_goals exact ⟨_, mem, rfl, hr⟩

namespace Machine

/-- The length of locals and alloca area, from the header of the current frame. -/
def callerLen (c : Setup) (m : Machine) : U64 :=
  headerLen (m.load c (m.reg 10) 8).1

/-- Where `push_frame` puts the new frame. -/
def frameBase (c : Setup) (m : Machine) (isSignal saSiginfo : Bool) : U64 :=
  m.reg 10 - m.callerLen c - BitVec.ofNat 64 (frameSize isSignal saSiginfo)

/-- The size of the callee's locals, as `push_frame` looks it up: behind the two translations for
the frames. -/
def calleeSize (c : Setup) (m : Machine) (entry : U64) (isSignal saSiginfo : Bool) :
    U64 :=
  (({ m with mem := ((m.load c (m.reg 10) 8).2.mem.mmuW c.env c.vm
      (m.frameBase c isSignal saSiginfo).toNat (frameSize isSignal saSiginfo)).2 } :
      Machine).frameSizeOf c entry).1

/-- The machine after `push_frame`, in memory `mem`. -/
def pushed (c : Setup) (m : Machine) (mem : State) (isSignal saSiginfo : Bool) : Machine :=
  ({ m with
      mem := mem
      signalDepth := if isSignal then m.signalDepth + 1 else m.signalDepth } :
      Machine).setReg 10 (m.frameBase c isSignal saSiginfo)

end Machine

theorem frameSize_eq (isSignal saSiginfo : Bool) : frameSize isSignal saSiginfo =
    if isSignal then (if saSiginfo then 520 else 128) else 64 := rfl

theorem frameSize_pos (isSignal saSiginfo : Bool) :
    0 < frameSize isSignal saSiginfo ∧ frameSize isSignal saSiginfo ≤ 520 := by
  rw [frameSize_eq]
  split_ifs <;> omega

theorem length_frameWords (m : Machine) (isSignal saSiginfo : Bool) (limit ret : U64) :
    (m.frameWords isSignal saSiginfo limit ret).length = if isSignal then 13 else 7 := by
  cases isSignal <;> rfl

theorem frameWords_fit (m : Machine) (isSignal saSiginfo : Bool) (limit ret : U64) :
    ((m.frameWords isSignal saSiginfo limit ret).flatMap wordBytes).length ≤
      frameSize isSignal saSiginfo := by
  rw [length_flatMap_wordBytes, length_frameWords, frameSize_eq]
  split_ifs <;> omega

theorem pushFrame_spec {m' : Machine} {ret entry : U64} {isSignal saSiginfo : Bool}
    (hs : Sound m.mem c.vm) (h : m.pushFrame c ret entry isSignal saSiginfo = (true, m')) :
    ∃ seg mem, m' = m.pushed c mem isSignal saSiginfo ∧
      Owned mem c.vm seg (m.frameBase c isSignal saSiginfo).toNat
        (frameSize isSignal saSiginfo) ∧
      Updated m.mem mem c.vm (FlatMemory.write (m.mem.view c.vm)
        (m.frameBase c isSignal saSiginfo).toNat
        ((m.frameWords isSignal saSiginfo (m.calleeSize c entry isSignal saSiginfo)
          ret).flatMap wordBytes)) ∧
      stackBase.toNat ≤ (m.frameBase c isSignal saSiginfo).toNat := by
  obtain ⟨hpos, hle⟩ := frameSize_pos isSignal saSiginfo
  obtain ⟨mem₀, hmem₀, hr₀⟩ := load_refilled hs (m.reg 10) 8
  have hbase : m.reg 10 - m.callerLen c - BitVec.ofNat 64 (frameSize isSignal saSiginfo) =
      m.frameBase c isSignal saSiginfo := rfl
  rw [callerLen] at hbase
  rw [pushFrame] at h
  unfold calleeSize
  generalize m.load c (m.reg 10) 8 = r at h hmem₀ hbase ⊢
  obtain ⟨header, m₀⟩ := r
  dsimp only at hmem₀ hbase
  subst hmem₀
  dsimp only at h ⊢
  rw [hbase] at h
  by_cases hlow : (m.frameBase c isSignal saSiginfo).toNat < stackBase.toNat
  · rw [if_pos hlow] at h
    simp at h
  rw [if_neg hlow] at h
  generalize hw : mem₀.mmuW c.env c.vm (m.frameBase c isSignal saSiginfo).toNat
    (frameSize isSignal saSiginfo) = r at h ⊢
  obtain ⟨_ | p, mem₁⟩ := r
  · simp at h
  obtain ⟨seg, rfl, hown, hst⟩ := owned_of_mmuW hr₀.sound (BitVec.isLt _) hpos (by omega) hw
  obtain ⟨limit, mem₂, hsize, hr₂⟩ :=
    frameSizeOf_refilled (m := { m with mem := mem₁ }) hst.sound entry
  dsimp only at h ⊢
  rw [hsize] at h ⊢
  have hown₂ := hown.refilled hr₂
  have hlen := frameWords_fit m isSignal saSiginfo limit ret
  have hst₃ := Owned.store ((m.frameWords isSignal saSiginfo limit ret).flatMap wordBytes)
    hr₂.sound (hown₂.sub le_rfl (by omega))
  have hup := ((hr₀.updated.trans hst.updated).trans hr₂.updated).trans hst₃.updated
  rw [hr₂.view, hst.view, hr₀.view] at hup
  exact ⟨seg, _, (Prod.mk.inj h).2.symm,
    ⟨hown₂.mem, hown₂.cow, hown₂.write, hown₂.lo, hown₂.hi⟩, hup, not_lt.mp hlow⟩

/-! ## `build_siginfo` -/

theorem length_siginfoBytes (info : SigInfo) : (siginfoBytes info).length = 128 := by
  unfold siginfoBytes
  split_ifs <;> simp [zeros]

theorem length_ucontextBytes (m : Machine) (pc sp : U64) :
    (ucontextBytes m pc sp).length = 264 := by
  simp only [ucontextBytes, zeros, length_append, length_replicate,
    length_flatMap_wordBytes, length_wordBytes, length_cons, length_nil]

theorem toNat_add_of_owned {s : State} {v : ℕ} {seg : Memmap} (hs : Sound s v)
    (h : Owned s v seg x.toNat n) (hk : k ≤ n) : (x + BitVec.ofNat 64 k).toNat = x.toNat + k := by
  have hb := hs.bound h.mapped
  rw [BitVec.toNat_add, BitVec.toNat_ofNat]
  omega

/-- The stores of `build_siginfo` into a frame that `push_frame` has just made. -/
theorem buildSiginfo_spec {seg : Memmap} {base : U64} (hs : Sound m.mem c.vm)
    (hown : Owned m.mem c.vm seg base.toNat 520) (info : SigInfo) (pc sp : U64) :
    ∃ mem, m.buildSiginfo c base info pc sp = { m with mem := mem } ∧
      Updated m.mem mem c.vm (FlatMemory.write
        (FlatMemory.write (m.mem.view c.vm) (base.toNat + 128) (siginfoBytes info))
        (base.toNat + 256) (ucontextBytes m pc sp)) := by
  have hsi : (base + BitVec.ofNat 64 siginfoFrameSiOff).toNat = base.toNat + 128 :=
    toNat_add_of_owned hs hown (by decide)
  have huc : (base + BitVec.ofNat 64 siginfoFrameUcOff).toNat = base.toNat + 256 :=
    toNat_add_of_owned hs hown (by decide)
  obtain ⟨mem₁, hw₁, hr₁⟩ := Owned.mmuW c.env hs
    (hown.sub (b := base.toNat + 128) (k := 128) (by omega) (by omega)) (by decide)
  obtain ⟨mem₂, hw₂, hr₂⟩ := Owned.mmuW c.env hr₁.sound
    ((hown.refilled hr₁).sub (b := base.toNat + 256) (k := 264) (by omega) (by omega)) (by decide)
  have hr := hr₁.trans hr₂
  have hown₂ := hown.refilled hr
  have hst := Owned.store (siginfoBytes info) hr.sound
    (hown₂.sub (b := base.toNat + 128) (by omega) (by rw [length_siginfoBytes]; omega))
  have hown₃ : Owned (mem₂.setHost (mem₂.host.store (seg.ptr (base.toNat + 128))
      (siginfoBytes info))) c.vm seg (base.toNat + 256) (ucontextBytes m pc sp).length := by
    rw [length_ucontextBytes]
    exact ⟨hown₂.mem, hown₂.cow, hown₂.write, by have := hown₂.lo; omega,
      by have := hown₂.hi; omega⟩
  have hst' := Owned.store (ucontextBytes m pc sp) hst.sound hown₃
  have hup := (hr.updated.trans hst.updated).trans hst'.updated
  rw [hst.view, hr.view] at hup
  refine ⟨_, ?_, hup⟩
  rw [buildSiginfo]
  simp only [hsi, huc, hw₁, hw₂]

/-! ## What is read back -/

theorem and_twoPow_bne_zero (x : U64) (hk : k < 64) :
    (x &&& BitVec.twoPow 64 k != 0) = x.getLsbD k := by
  rw [BitVec.and_twoPow]
  cases x.getLsbD k with
  | true =>
    have hne : BitVec.twoPow 64 k ≠ 0 := by
      intro h
      have := congrArg (·.getLsbD k) h
      simp [hk] at this
    simpa using hne
  | false => rfl

theorem frameIsSignal_make (limit : U64) (saSiginfo : Bool) :
    frameIsSignal (frameFlagsMake true limit 0 ||| (if saSiginfo then frameFlagSiginfo else 0)) =
      true := by
  rw [frameIsSignal]
  refine (and_twoPow_bne_zero _ (k := 48) (by decide)).trans ?_
  simp [frameFlagsMake, frameFlagSignal]

theorem frameHasSiginfo_make (limit : U64) (saSiginfo : Bool) :
    frameHasSiginfo (frameFlagsMake true limit 0 |||
      (if saSiginfo then frameFlagSiginfo else 0)) = saSiginfo := by
  rw [frameHasSiginfo]
  refine (and_twoPow_bne_zero _ (k := 49) (by decide)).trans ?_
  cases saSiginfo <;>
    simp [frameFlagsMake, frameFlagSignal, frameFlagSiginfo, frameSizeMask]

theorem word_frame (m : Machine) (saSiginfo : Bool) (limit ret : U64)
    (h : (m.frameWords true saSiginfo limit ret)[i]? = some x) :
    word ((m.frameWords true saSiginfo limit ret).flatMap wordBytes) (8 * i) = x := by
  have := word_flatMap (m.frameWords true saSiginfo limit ret) [] h
  rwa [append_nil] at this

theorem restoreFrame_reg (m m' : Machine) (saSiginfo : Bool) (limit ret : U64) (hk : k ≤ 10) :
    (m.restoreFrame ((m'.frameWords true saSiginfo limit ret).flatMap wordBytes)).reg k =
      m'.reg k := by
  have hflags : frameIsSignal (word ((m'.frameWords true saSiginfo limit ret).flatMap wordBytes) 0)
      = true := by
    rw [word_frame m' saSiginfo limit ret (i := 0) rfl]
    exact frameIsSignal_make limit saSiginfo
  unfold restoreFrame
  simp only [hflags, and_true]
  interval_cases k
  · exact word_frame m' saSiginfo limit ret (i := 7) rfl
  · exact word_frame m' saSiginfo limit ret (i := 8) rfl
  · exact word_frame m' saSiginfo limit ret (i := 9) rfl
  · exact word_frame m' saSiginfo limit ret (i := 10) rfl
  · exact word_frame m' saSiginfo limit ret (i := 11) rfl
  · exact word_frame m' saSiginfo limit ret (i := 12) rfl
  · exact word_frame m' saSiginfo limit ret (i := 3) rfl
  · exact word_frame m' saSiginfo limit ret (i := 4) rfl
  · exact word_frame m' saSiginfo limit ret (i := 5) rfl
  · exact word_frame m' saSiginfo limit ret (i := 6) rfl
  · exact word_frame m' saSiginfo limit ret (i := 1) rfl

theorem word_ucontext (m : Machine) (pc sp : U64)
    (h : ([m.reg 0, m.reg 1, m.reg 2, m.reg 3, m.reg 4, m.reg 5, m.reg 6, m.reg 7, m.reg 8,
      m.reg 9, sp, pc, m.sigmask] : List U64)[i]? = some x) :
    word (ucontextBytes m pc sp) (40 + 8 * i) = x := by
  have hsplit : ucontextBytes m pc sp = zeros 40 ++ (([m.reg 0, m.reg 1, m.reg 2, m.reg 3, m.reg 4,
      m.reg 5, m.reg 6, m.reg 7, m.reg 8, m.reg 9, sp, pc, m.sigmask] :
      List U64).flatMap wordBytes ++ zeros 120) := by
    simp only [ucontextBytes, flatMap_cons, flatMap_nil, append_assoc,
      append_nil]
  have hlen : (zeros 40).length = 40 := length_replicate
  rw [hsplit]
  nth_rewrite 2 [← hlen]
  rw [word_append]
  exact word_flatMap _ _ h

theorem word_ucontext_reg (m : Machine) (pc sp : U64) (hk : k ≤ 10) :
    word (ucontextBytes m pc sp) (40 + 8 * k) = if k = 10 then sp else m.reg k := by
  interval_cases k <;> exact word_ucontext m pc sp rfl

theorem sigreturn_spec {m' : Machine} (base fallback : U64) {pc sp : U64}
    (hs : Sound m.mem c.vm) (hb : base.toNat + 256 < 2 ^ 64)
    (hm : Mapped m.mem c.vm (base.toNat + 256) 264)
    (hread : FlatMemory.read (m.mem.view c.vm) (base.toNat + 256) 264 =
      some (ucontextBytes m' pc sp)) :
    ∃ m₁, m.sigreturn c base fallback = (pc, m₁) ∧
      (∀ k ≤ 10, m₁.reg k = if k = 10 then sp else m'.reg k) ∧
      m₁.signalDepth = m.signalDepth ∧
      m₁.sigmask = m'.sigmask &&& ~~~(sigkillBit ||| sigstopBit) := by
  have haddr : (base + BitVec.ofNat 64 siginfoFrameUcOff).toNat = base.toNat + 256 := by
    exact BitVec.toNat_add_of_lt hb
  rw [← haddr] at hm hread
  obtain ⟨uc, mem, hload, huc, -⟩ := load_of_mapped hs hm (by decide)
  obtain rfl : ucontextBytes m' pc sp = uc := Option.some.inj (hread.symm.trans huc)
  have hpc : word (ucontextBytes m' pc sp) 128 = pc := word_ucontext m' pc sp (i := 11) rfl
  have hmask : word (ucontextBytes m' pc sp) 136 = m'.sigmask :=
    word_ucontext m' pc sp (i := 12) rfl
  rw [sigreturn, hload]
  dsimp only
  rw [hpc, hmask]
  refine ⟨_, rfl, ?_, rfl, rfl⟩
  intro k hk
  exact (if_pos hk).trans (word_ucontext_reg m' pc sp hk)

/-! ## Frames of calls -/

/-- A read of the beginning of a range that can be read. -/
theorem load_take (hs : Sound m.mem c.vm) {bs : List Byte} (h : (m.load c x n).1 = some bs)
    (hk : 0 < k) (hkn : k ≤ n) (hn : n < 2 ^ 64) : (m.load c x k).1 = some (bs.take k) := by
  obtain ⟨j, rfl⟩ := Nat.exists_eq_add_of_le hkn
  rw [load_fst hs x (by omega) hn] at h
  rw [load_fst hs x hk (by omega)]
  obtain ⟨q, hq, rfl⟩ := Option.map_eq_some_iff.mp h
  obtain ⟨seg, hseg, rfl⟩ := Option.map_eq_some_iff.mp hq
  have hfound := (findMap_eq_some_iff hs.mapsOk x.isLt (by omega) hn).mp hseg
  have hseg' : findMap (m.mem.maps c.vm) x.toNat k = some seg :=
    (findMap_eq_some_iff hs.mapsOk x.isLt hk (by omega)).mpr ⟨hfound.1, hfound.2.1, by omega⟩
  rw [lookup, hseg', Option.map_some, Option.map_some, Host.load_add _ _ k j]
  simp [Host.load]

theorem not_signal_of_shift (h : x >>> 48 = 0) : frameIsSignal x = false := by
  have hbit : x.getLsbD 48 = false := by simpa using congrArg (BitVec.getLsbD · 0) h
  have hflag : frameFlagSignal = BitVec.twoPow 64 48 := by decide
  rw [frameIsSignal, hflag, BitVec.and_twoPow, hbit]
  rfl

theorem popFrame_fst {frame : List Byte} (h : (m.load c (m.reg 10) 104).1 = some frame)
    (hzero : word frame 0 >>> 48 = 0) : (m.popFrame c).1 = word frame 16 := by
  unfold popFrame
  dsimp only
  generalize m.load c (m.reg 10) 104 = r at h ⊢
  obtain ⟨o, m₁⟩ := r
  dsimp only at h
  subst h
  dsimp only
  rw [not_signal_of_shift hzero]
  rfl

theorem popFrame_of_none (h : (m.load c (m.reg 10) 104).1 = none) : (m.popFrame c).1 = 0 := by
  unfold popFrame
  dsimp only
  generalize m.load c (m.reg 10) 104 = r at h ⊢
  obtain ⟨o, m₁⟩ := r
  dsimp only at h
  subst h
  rfl

end

end Bpfvm.Cpu
