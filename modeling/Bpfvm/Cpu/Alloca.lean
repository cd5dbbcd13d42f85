import Bpfvm.Cpu.Transparency

/-!
# The alloca area of a frame

`frame_base[0]` packs the size of the locals, the alloca level and the kind of the frame into one
word. `push_frame` writes it, `vm::alloca` replaces the level in place, and the next `push_frame`
finds the end of the frame from it.
-/
namespace Bpfvm.Cpu
open Memory

/-! ## The packed word -/

/-- The word `frame_base[0]` of a frame with `level` bytes of alloca area. -/
def frameHead (isSignal saSiginfo : Bool) (size level : U64) : U64 :=
  frameFlagsMake isSignal size level ||| (if saSiginfo then frameFlagSiginfo else 0)

variable {i : ℕ}

theorem getLsbD_sizeMask (hi : i < 64) : frameSizeMask.getLsbD i = decide (i < 24) := by
  have h : ∀ i : Fin 64, frameSizeMask.getLsbD i = decide (i.1 < 24) := by decide
  exact h ⟨i, hi⟩

theorem getLsbD_allocaField (hi : i < 64) :
    (frameAllocaMask <<< 24).getLsbD i = decide (24 ≤ i ∧ i < 48) := by
  have h : ∀ i : Fin 64, (frameAllocaMask <<< 24).getLsbD i = decide (24 ≤ i.1 ∧ i.1 < 48) := by
    decide
  exact h ⟨i, hi⟩

theorem getLsbD_kind (isSignal : Bool) (hi : i < 64) :
    (if isSignal then frameFlagSignal else 0).getLsbD i = (isSignal && decide (i = 48)) := by
  have h : ∀ i : Fin 64, frameFlagSignal.getLsbD i = decide (i.1 = 48) := by decide
  cases isSignal with
  | false => simp
  | true => simpa using h ⟨i, hi⟩

theorem getLsbD_siginfo (saSiginfo : Bool) (hi : i < 64) :
    (if saSiginfo then frameFlagSiginfo else 0).getLsbD i = (saSiginfo && decide (i = 49)) := by
  have h : ∀ i : Fin 64, frameFlagSiginfo.getLsbD i = decide (i.1 = 49) := by decide
  cases saSiginfo with
  | false => simp
  | true => simpa using h ⟨i, hi⟩

/-- The bits of the packed word, field by field. -/
theorem getLsbD_frameHead (isSignal saSiginfo : Bool) (size level : U64) (hi : i < 64) :
    (frameHead isSignal saSiginfo size level).getLsbD i =
      if i < 24 then size.getLsbD i
      else if i < 48 then level.getLsbD (i - 24)
      else if i = 48 then isSignal
      else if i = 49 then saSiginfo
      else false := by
  simp only [frameHead, frameFlagsMake, BitVec.getLsbD_or, BitVec.getLsbD_and,
    BitVec.getLsbD_shiftLeft, getLsbD_sizeMask hi, getLsbD_allocaField hi, getLsbD_kind _ hi,
    getLsbD_siginfo _ hi]
  split_ifs with h24 h48 he he'
  · simp [h24, show ¬ 24 ≤ i by omega, show i ≠ 48 by omega, show i ≠ 49 by omega]
  · simp [h24, h48, hi, show 24 ≤ i by omega, show i ≠ 48 by omega, show i ≠ 49 by omega]
  · simp [he]
  · simp [he']
  · simp [h24, h48, he, he']

theorem getLsbD_eq_false_of_lt {x : U64} (h : x.toNat < 2 ^ i) : x.getLsbD i = false := by
  rw [← BitVec.testBit_toNat]
  exact Nat.testBit_lt_two_pow h

theorem getLsbD_eq_false_of_le {x : U64} {k : ℕ} (h : x.toNat < 2 ^ k) (hk : k ≤ i) :
    x.getLsbD i = false :=
  getLsbD_eq_false_of_lt (h.trans_le (Nat.pow_le_pow_right (by decide) hk))

section
variable {isSignal saSiginfo : Bool} {size level : U64}

theorem frameStackSize_head (hs : size.toNat < 2 ^ 24) :
    frameStackSize (frameHead isSignal saSiginfo size level) = size := by
  refine BitVec.eq_of_getLsbD_eq fun i hi => ?_
  rw [frameStackSize, BitVec.getLsbD_and, getLsbD_frameHead _ _ _ _ hi, getLsbD_sizeMask hi]
  by_cases h24 : i < 24
  · simp [h24]
  · rw [getLsbD_eq_false_of_le hs (by omega)]
    simp [h24]

theorem frameAllocaLen_head (hl : level.toNat < 2 ^ 24) :
    frameAllocaLen (frameHead isSignal saSiginfo size level) = level := by
  refine BitVec.eq_of_getLsbD_eq fun i hi => ?_
  have hmask : frameAllocaMask.getLsbD i = decide (i < 24) := getLsbD_sizeMask hi
  rw [frameAllocaLen, BitVec.getLsbD_and, BitVec.getLsbD_ushiftRight, hmask]
  by_cases h24 : i < 24
  · rw [getLsbD_frameHead _ _ _ _ (by omega), if_neg (by omega), if_pos (by omega),
      Nat.add_sub_cancel_left]
    simp [h24]
  · rw [getLsbD_eq_false_of_le hl (by omega)]
    simp [h24]

theorem frameIsSignal_head :
    frameIsSignal (frameHead isSignal saSiginfo size level) = isSignal := by
  rw [frameIsSignal]
  refine (and_twoPow_bne_zero _ (k := 48) (by decide)).trans ?_
  rw [getLsbD_frameHead _ _ _ _ (by decide)]
  simp

theorem frameHasSiginfo_head :
    frameHasSiginfo (frameHead isSignal saSiginfo size level) = saSiginfo := by
  rw [frameHasSiginfo]
  refine (and_twoPow_bne_zero _ (k := 49) (by decide)).trans ?_
  rw [getLsbD_frameHead _ _ _ _ (by decide)]
  simp

/-- `vm::alloca` replaces the level and nothing else. -/
theorem frameHead_replace {level' : U64} (hl : level'.toNat < 2 ^ 24) :
    (frameHead isSignal saSiginfo size level &&& ~~~(frameAllocaMask <<< 24)) |||
      (level' <<< 24) = frameHead isSignal saSiginfo size level' := by
  refine BitVec.eq_of_getLsbD_eq fun i hi => ?_
  rw [BitVec.getLsbD_or, BitVec.getLsbD_and, BitVec.getLsbD_not, getLsbD_allocaField hi,
    BitVec.getLsbD_shiftLeft, getLsbD_frameHead _ _ _ _ hi, getLsbD_frameHead _ _ _ _ hi]
  by_cases h24 : i < 24
  · simp [h24, hi, show ¬ 24 ≤ i by omega]
  · by_cases h48 : i < 48
    · simp [h24, h48, hi, show 24 ≤ i by omega]
    · rw [getLsbD_eq_false_of_le hl (show 24 ≤ i - 24 by omega)]
      simp [h24, h48, hi]

/-- The end of a frame, as the next `push_frame` computes it. -/
theorem toNat_frameTotalLen_head (hs : size.toNat < 2 ^ 24) (hl : level.toNat < 2 ^ 24) :
    (frameTotalLen (frameHead isSignal saSiginfo size level)).toNat =
      size.toNat + level.toNat := by
  rw [frameTotalLen, frameStackSize_head hs, frameAllocaLen_head hl, BitVec.toNat_add]
  omega

end

/-! ## `vm::alloca` -/

def efault : U64 := 14
def einval : U64 := 22
def enomem : U64 := 12

namespace Machine

/-- `vm::alloca`: the new lower bound, or an error number. -/
def alloca (c : Setup) (m : Machine) (inc : U64) :
    Except U64 U64 × Machine :=
  match m.mem.mmuW c.env c.vm (m.reg 10).toNat 8 with
  | (none, mem) => (.error efault, { m with mem := mem })
  | (some frame, mem) =>
    let flags0 := word (mem.host.load frame 8) 0
    let newAlloca := frameAllocaLen flags0 + inc
    if newAlloca.toInt < 0 then (.error einval, { m with mem := mem })
    else
      let newTotal := frameStackSize flags0 + newAlloca
      if frameAllocaMask.toInt < newAlloca.toInt ∨
          (m.reg 10).toNat < (stackBase + newTotal).toNat then
        (.error enomem, { m with mem := mem })
      else
        -- growing, the whole area has to lie in one writable mapping
        let r := if 0 < inc.toInt then
            mem.mmuW c.env c.vm (m.reg 10 - newTotal).toNat newTotal.toNat
          else (some frame, mem)
        let m := { m with mem := r.2 }
        if r.1.isNone then (.error enomem, m)
        else
          let head := (flags0 &&& ~~~(frameAllocaMask <<< 24)) ||| (newAlloca <<< 24)
          (.ok (m.reg 10 - newTotal),
            { m with mem := m.mem.setHost (m.mem.host.store frame (wordBytes head)) })

/-- `do_alloca`: the result in `r0`. -/
def doAlloca (c : Setup) (m : Machine) (inc : U64) : Machine :=
  match m.alloca c inc with
  | (.ok low, m) => m.setReg 0 low
  | (.error e, m) => m.setReg 0 (-e)

end Machine

section
variable {c : Setup} {m m' : Machine} {inc low : U64} {isSignal saSiginfo : Bool}
  {size level : U64}

/-- The new level of an `alloca` that passes its tests. -/
theorem toNat_newAlloca (hl : level.toNat < 2 ^ 24) (hpos : ¬ (level + inc).toInt < 0)
    (hle : ¬ frameAllocaMask.toInt < (level + inc).toInt) :
    (level + inc).toNat < 2 ^ 24 ∧ ((level + inc).toNat : ℤ) = level.toNat + inc.toInt := by
  have hmask : frameAllocaMask.toInt = 0xFFFFFF := by decide
  have hlt := (level + inc).isLt
  have hi := inc.isLt
  rw [hmask] at hle
  rw [BitVec.toInt_eq_toNat_cond] at hpos hle
  rw [BitVec.toInt_eq_toNat_cond inc]
  have hadd := BitVec.toNat_add level inc
  split_ifs at hpos hle with h
  · refine ⟨by omega, ?_⟩
    split_ifs with h' <;> omega
  · omega

theorem frameAllocaLen_lt (flags : U64) : (frameAllocaLen flags).toNat < 2 ^ 24 := by
  rw [frameAllocaLen, BitVec.toNat_and]
  exact Nat.lt_succ_of_le Nat.and_le_right

theorem frameStackSize_lt (flags : U64) : (frameStackSize flags).toNat < 2 ^ 24 := by
  rw [frameStackSize, BitVec.toNat_and]
  exact Nat.lt_succ_of_le Nat.and_le_right

/-- `alloca` fails and changes nothing the guest can see, or it passes its tests and replaces the
head of the frame. -/
theorem alloca_cases (c : Setup) (inc : U64) (hs : Sound m.mem c.vm) :
    (∃ e mem, m.alloca c inc = (.error e, { m with mem := mem }) ∧
      Updated m.mem mem c.vm (m.mem.view c.vm)) ∨
    ∃ bs size level mem, FlatMemory.read (m.mem.view c.vm) (m.reg 10).toNat 8 = some bs ∧
      frameStackSize (word bs 0) = size ∧ frameAllocaLen (word bs 0) = level ∧
      m.alloca c inc = (.ok (m.reg 10 - (size + (level + inc))), { m with mem := mem }) ∧
      Updated m.mem mem c.vm (FlatMemory.write (m.mem.view c.vm) (m.reg 10).toNat
        (wordBytes ((word bs 0 &&& ~~~(frameAllocaMask <<< 24)) ||| ((level + inc) <<< 24)))) ∧
      (level + inc).toNat < 2 ^ 24 ∧ ((level + inc).toNat : ℤ) = level.toNat + inc.toInt ∧
      stackBase.toNat + size.toNat + (level + inc).toNat ≤ (m.reg 10).toNat := by
  unfold Machine.alloca
  have hready := mmuW_spec c.env hs.wf hs.lt hs.tlb (a := (m.reg 10).toNat) (n := 8)
    (BitVec.isLt _) (by decide) (by decide)
  generalize m.mem.mmuW c.env c.vm (m.reg 10).toNat 8 = r at hready
  have hup := hready.updated hs
  obtain ⟨_ | frame, mem⟩ := r
  · exact .inl ⟨_, mem, rfl, hup⟩
  have hread := hready.load hs
  obtain ⟨seg, hseg, hcow, hwrite, hlo, hhi, rfl⟩ := hready.hit frame rfl
  have hown : Owned mem c.vm seg (m.reg 10).toNat 8 := ⟨hseg, hcow, hwrite, hlo, hhi⟩
  dsimp only
  generalize hflags : word (mem.host.load (seg.ptr (m.reg 10).toNat) 8) 0 = flags0
  have hsize := frameStackSize_lt flags0
  generalize hsz : frameStackSize flags0 = size at hsize
  have hlevel := frameAllocaLen_lt flags0
  generalize hlv : frameAllocaLen flags0 = level at hlevel
  by_cases hneg : (level + inc).toInt < 0
  · rw [if_pos hneg]
    exact .inl ⟨_, mem, rfl, hup⟩
  rw [if_neg hneg]
  by_cases hbig : frameAllocaMask.toInt < (level + inc).toInt ∨
      (m.reg 10).toNat < (stackBase + (size + (level + inc))).toNat
  · rw [if_pos hbig]
    exact .inl ⟨_, mem, rfl, hup⟩
  rw [if_neg hbig]
  rw [not_or] at hbig
  obtain ⟨hlt, hsum⟩ := toNat_newAlloca hlevel hneg hbig.1
  have htotal : (size + (level + inc)).toNat = size.toNat + (level + inc).toNat := by
    rw [BitVec.toNat_add]
    omega
  have hfloor : stackBase.toNat + size.toNat + (level + inc).toNat ≤ (m.reg 10).toNat := by
    have hbase : stackBase.toNat = 0x10000000 := rfl
    have hle := hbig.2
    rw [BitVec.toNat_add, htotal] at hle
    omega
  generalize hr : (if 0 < inc.toInt then
      mem.mmuW c.env c.vm (m.reg 10 - (size + (level + inc))).toNat
        (size + (level + inc)).toNat else (some (seg.ptr (m.reg 10).toNat), mem)) = r
  -- the second translation, if there is one, leaves the segment of the frame alone
  obtain ⟨hup', hown'⟩ : Updated mem r.2 c.vm (mem.view c.vm) ∧
      Owned r.2 c.vm seg (m.reg 10).toNat 8 := by
    subst hr
    split_ifs with hinc
    · have hready' := mmuW_spec c.env hup.sound.wf hup.sound.lt hup.sound.tlb
        (a := (m.reg 10 - (size + (level + inc))).toNat) (n := (size + (level + inc)).toNat)
        (BitVec.isLt _) (by omega) (by omega)
      exact ⟨hready'.updated hup.sound, hown.ready_kept hready'⟩
    · exact ⟨(Refilled.refl hup.sound).updated, hown⟩
  have hboth := hup.trans hup'
  rw [hup.view] at hboth
  by_cases hnone : r.1.isNone
  · rw [if_pos hnone]
    exact .inl ⟨_, r.2, rfl, hboth⟩
  · rw [if_neg hnone]
    subst hflags
    refine .inr ⟨_, size, level, _, hread, hsz, hlv, rfl, hboth.trans ?_, hlt, hsum, hfloor⟩
    rw [← hboth.view]
    exact (Owned.store _ hup'.sound (by rw [length_wordBytes]; exact hown')).updated

/-- A successful `alloca` in a frame whose head is as `push_frame` or an earlier `alloca` left
it. -/
theorem alloca_spec (hs : Sound m.mem c.vm)
    (hread : FlatMemory.read (m.mem.view c.vm) (m.reg 10).toNat 8 =
      some (wordBytes (frameHead isSignal saSiginfo size level)))
    (hsize : size.toNat < 2 ^ 24) (hlevel : level.toNat < 2 ^ 24)
    (h : m.alloca c inc = (.ok low, m')) :
    ∃ mem, m' = { m with mem := mem } ∧
      Updated m.mem mem c.vm (FlatMemory.write (m.mem.view c.vm) (m.reg 10).toNat
        (wordBytes (frameHead isSignal saSiginfo size (level + inc)))) ∧
      (level + inc).toNat < 2 ^ 24 ∧ ((level + inc).toNat : ℤ) = level.toNat + inc.toInt ∧
      stackBase.toNat + size.toNat + (level + inc).toNat ≤ (m.reg 10).toNat ∧
      low.toNat + size.toNat + (level + inc).toNat = (m.reg 10).toNat := by
  obtain ⟨e, mem, he, -⟩ | ⟨bs, size', level', mem, hbs, hsz, hlv, hres, hup, hlt, hsum, hfloor⟩ :=
    alloca_cases c inc hs
  · simp [he] at h
  obtain rfl := Option.some.inj (hread.symm.trans hbs)
  have hword := word_wordBytes (frameHead isSignal saSiginfo size level) []
  rw [List.append_nil] at hword
  rw [hword, frameStackSize_head hsize] at hsz
  rw [hword, frameAllocaLen_head hlevel] at hlv
  subst hsz hlv
  rw [hword, frameHead_replace hlt] at hup
  obtain ⟨hlow, rfl⟩ := Prod.mk.inj (hres.symm.trans h)
  cases hlow
  refine ⟨mem, rfl, hup, hlt, hsum, hfloor, ?_⟩
  have := (m.reg 10).isLt
  rw [BitVec.toNat_sub, BitVec.toNat_add]
  omega

/-- A failed `alloca` changes nothing the guest can see. -/
theorem alloca_error {e : U64} (hs : Sound m.mem c.vm)
    (h : m.alloca c inc = (.error e, m')) :
    m'.reg = m.reg ∧ Updated m.mem m'.mem c.vm (m.mem.view c.vm) := by
  obtain ⟨e', mem, he, hup⟩ | ⟨_, _, _, _, -, -, -, hres, -⟩ :=
    alloca_cases c inc hs
  · obtain rfl := (Prod.mk.inj (he.symm.trans h)).2
    exact ⟨rfl, hup⟩
  · simp [hres] at h

end

end Bpfvm.Cpu
