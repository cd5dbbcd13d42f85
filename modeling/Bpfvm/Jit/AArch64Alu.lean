import Bpfvm.Jit.AArch64
import Mathlib.Tactic.IntervalCases

/-!
# Arithmetic on AArch64

`AArch64Emitter::emit_alu`. The divisions of the instruction set have no error, so they need no
guards.
-/
namespace Bpfvm.Jit.AArch64
open Memory Cpu HostCode Function State

/-! ## `emit_alu` -/

/-- The branch for `BPF_MOV` without sign extension. -/
def emitMov (insn : BpfInsn) (is64 : Bool) : List Insn :=
  let sd := bpfRegMap insn.dstReg.toNat
  let ss := bpfRegMap insn.srcReg.toNat
  if insn.useReg then
    if is64 ∧ insn.dstReg = insn.srcReg then []
    else if !is64 then [.mov false sd ss]
    else if sd ≠ ss then [.mov true sd ss] else []
  else if is64 then movImm .x0 (insn.imm.signExtend 64) true ++ [.mov true sd .x0]
  else movImm sd (insn.imm.zeroExtend 64) false

/-- The branch for `BPF_MOV` with sign extension. -/
def emitMovsx (insn : BpfInsn) (is64 : Bool) : Option (List Insn) :=
  let load := if insn.useReg then loadBpf insn.srcReg.toNat .x0
    else movImm .x0 (insn.imm.signExtend 64) true
  if insn.off ∈ (if is64 then [8, 16, 32] else [8, 16]) then
    some (load ++ [.sxt insn.off.toNat is64 .x0 .x0] ++ storeBpf insn.dstReg.toNat .x0 is64)
  else none

/-- The swap of `BPF_END`. -/
def emitSwap (imm : U32) (is64 : Bool) : Option (List Insn) :=
  if imm = 16 then some ([.rev16 is64 .x0 .x0] ++ logicImm .and .x0 .x0 0xffff true)
  else if imm = 32 then some [.rev false .x0 .x0]
  else if imm = 64 then some [.rev true .x0 .x0]
  else none

/-- The branch for `BPF_END`. -/
def emitEnd (insn : BpfInsn) (is64 : Bool) : Option (List Insn) :=
  let around := fun code =>
    loadBpf insn.dstReg.toNat .x0 ++ code ++ storeBpf insn.dstReg.toNat .x0 is64
  if is64 then (emitSwap insn.imm is64).map around
  else if !insn.useReg ∧ insn.imm = 64 then some []
  else if insn.useReg then
    if insn.imm = 64 then none else (emitSwap insn.imm is64).map around
  else if insn.imm = 16 then some (around (logicImm .and .x0 .x0 0xffff true))
  else if insn.imm = 32 then some (around [.mov false .x0 .x0])
  else none

/-- Zero extension of a guest register in place. -/
def extendInPlace (insn : BpfInsn) (is64 : Bool) : List Insn :=
  if !is64 then [.mov false (bpfRegMap insn.dstReg.toNat) (bpfRegMap insn.dstReg.toNat)] else []

/-- `dst` to `x0` and, with `BPF_X`, `src` to `x1`. -/
def loadOperands (insn : BpfInsn) : List Insn :=
  loadBpf insn.dstReg.toNat .x0 ++ if insn.useReg then loadBpf insn.srcReg.toNat .x1 else []

/-- The amount of a shift by an immediate. -/
def shiftAmount (insn : BpfInsn) (is64 : Bool) : ℕ :=
  (insn.imm &&& (if is64 then 0x3f else 0x1f)).toNat

def emitShift (op : ShiftOp) (insn : BpfInsn) (is64 : Bool) : List Insn :=
  if insn.useReg then [.shiftReg op is64 .x0 .x0 .x1]
  else [.shiftImm op is64 .x0 .x0 (shiftAmount insn is64)]

/-- `or`, `and` and `xor`. -/
def emitLogic (op : AluOp) (insn : BpfInsn) (is64 : Bool) : List Insn :=
  if insn.useReg then [.alu op is64 .x0 .x0 .x1]
  else logicImm op .x0 .x0 (insn.imm.signExtend 64) is64

def emitMul (insn : BpfInsn) (is64 : Bool) : List Insn :=
  if insn.useReg then [.alu .mul is64 .x0 .x0 .x1]
  else (if is64 then movImm .x1 (insn.imm.signExtend 64) true
    else movImm .x1 (insn.imm.zeroExtend 64) false) ++ [.alu .mul is64 .x0 .x0 .x1]

/-- A constant divisor in `x1`. -/
def loadDivisor (insn : BpfInsn) (is64 : Bool) : List Insn :=
  if insn.useReg then [] else movImm .x1 (insn.imm.signExtend 64) is64

def divide (insn : BpfInsn) (is64 : Bool) (d : Reg) : Insn :=
  if insn.off = 0 then .udiv is64 d .x0 .x1 else .sdiv is64 d .x0 .x1

def emitDiv (insn : BpfInsn) (is64 : Bool) : List Insn :=
  if !insn.useReg ∧ insn.imm = 0 then movImm .x0 0 is64
  else loadDivisor insn is64 ++ [divide insn is64 .x0]

/-- The case of `BPF_MOD`, for a divisor other than the constant 0. -/
def emitMod (insn : BpfInsn) (is64 : Bool) : List Insn :=
  loadDivisor insn is64 ++ [divide insn is64 .x2, .msub is64 .x0 .x2 .x1 .x0]

/-- The `switch`: from `dst` in `x0` and, with `BPF_X`, `src` in `x1`. -/
def emitOp (insn : BpfInsn) (is64 : Bool) : Option (List Insn) :=
  match aluOp insn with
  | 0x00 => some (if insn.useReg then [.alu .add is64 .x0 .x0 .x1]
      else addImm .x0 .x0 (insn.imm.signExtend 64) is64)
  | 0x10 => some (if insn.useReg then [.alu .sub is64 .x0 .x0 .x1]
      else subImm .x0 .x0 (insn.imm.signExtend 64) is64)
  | 0x40 => some (emitLogic .orr insn is64)
  | 0x50 => some (emitLogic .and insn is64)
  | 0xa0 => some (emitLogic .eor insn is64)
  | 0x60 => some (emitShift .lsl insn is64)
  | 0x70 => some (emitShift .lsr insn is64)
  | 0xc0 => some (emitShift .asr insn is64)
  | 0x20 => some (emitMul insn is64)
  | 0x30 => some (emitDiv insn is64)
  | 0x90 => some (emitMod insn is64)
  | _ => none

/-- `emit_alu`; nothing where it returns `false`. -/
def emitAlu (insn : BpfInsn) (is64 : Bool) : Option (List Insn) :=
  let dst := insn.dstReg.toNat
  if aluOp insn = 0xb0 ∧ insn.off = 0 then some (emitMov insn is64)
  else if aluOp insn = 0x80 then
    some (loadBpf dst .x0 ++ [.neg is64 .x0 .x0] ++ storeBpf dst .x0 is64)
  else if aluOp insn = 0xb0 then emitMovsx insn is64
  else if aluOp insn = 0xd0 then emitEnd insn is64
  else if !insn.useReg ∧ isNop (aluOp insn) insn.imm then some (extendInPlace insn is64)
  else if aluOp insn = 0x90 ∧ !insn.useReg ∧ insn.imm = 0 then
    some (loadOperands insn ++ extendInPlace insn is64)
  else (emitOp insn is64).map fun code => loadOperands insn ++ code ++ storeBpf dst .x0 is64

/-! ## Agreement with the interpreter -/

/-- The code leaves the value in `x0` and changes scratch registers only. -/
def Yields (P : Platform) (code : List Insn) (s : State) (x : U64) : Prop :=
  ∃ s', Computes (sem P) code s s' ∧ s'.reg .x0 = x ∧ Changes scratch s s'

/-- The code ends with the guest registers `r'` in place, and with the stack, `x28` and the vm as
they were. -/
def Reaches (P : Platform) (code : List Insn) (s : State) (r' : Regs) : Prop :=
  ∃ s', Computes (sem P) code s s' ∧ Mirrors r' s' ∧
    s'.reg .x28 = s.reg .x28 ∧ s'.stack = s.stack ∧ s'.vm = s.vm

variable {imm : U32}

section
variable {P : Platform} {r : Regs} {s s₁ : State} {d : ℕ} {x : U64} {code : List Insn}
  {insn : BpfInsn} {is64 : Bool}

theorem Yields.after {c c' : List Insn} (h : Computes (sem P) c s s₁) (hc : Changes scratch s s₁)
    (h' : Yields P c' s₁ x) : Yields P (c ++ c') s x := by
  obtain ⟨s', hcomp, hx, hch⟩ := h'
  exact ⟨s', h.append hcomp, hx, hc.trans hch⟩

theorem Reaches.after {c c' : List Insn} {r' : Regs} (h : Computes (sem P) c s s₁)
    (hc : Changes scratch s s₁) (h' : Reaches P c' s₁ r') : Reaches P (c ++ c') s r' := by
  obtain ⟨s', hcomp, hm, hvm, hstack, hmach⟩ := h'
  exact ⟨s', h.append hcomp, hm, hvm.trans (hc.reg _ (by decide)), hstack.trans hc.stack,
    hmach.trans hc.vm⟩

theorem reaches_write (h : Computes (sem P) code s (s₁.set (bpfRegMap d) x))
    (hc : Changes scratch s s₁) (hm : Mirrors r s) (hd : d ≤ 10) :
    Reaches P code s (update r d x) := by
  refine ⟨_, h, (hm.of_changes hc).write hd x, ?_, hc.stack, hc.vm⟩
  rw [reg_set_of_ne _ _ (bpfRegMap_ne_vm d).symm]
  exact hc.reg .x28 (by decide)

/-- `store_dst`, for a value that is zero-extended already. -/
theorem Yields.store (h : Yields P code s x) (hm : Mirrors r s) (hd : d ≤ 10)
    (hx : atWidth is64 (fun _ a _ => a) x 0 = x) :
    Reaches P (code ++ storeBpf d .x0 is64) s (update r d x) := by
  obtain ⟨s', hcomp, rfl, hch⟩ := h
  have hstore := computes_storeBpf (P := P) s' d .x0 is64
  rw [hx] at hstore
  exact reaches_write (hcomp.append hstore) hch hm hd

theorem reaches_nil (hm : Mirrors r s) (hx : x = r d) :
    Reaches P [] s (update r d x) := by
  rw [hx, update_eq_self]
  exact ⟨s, .nil, hm, rfl, rfl, rfl⟩

theorem reaches_extendInPlace (hm : Mirrors r s) (hd : insn.dstReg.toNat ≤ 10) :
    Reaches P (extendInPlace insn is64) s (update r insn.dstReg.toNat
      (atWidth is64 (fun _ a _ => a) (r insn.dstReg.toNat) x)) := by
  unfold extendInPlace
  cases is64 with
  | true => exact reaches_nil hm rfl
  | false =>
    rw [← hm _ hd]
    exact reaches_write (.single rfl) (.refl _ s) hm hd

theorem reaches_emitMov (hm : Mirrors r s) (hd : insn.dstReg.toNat ≤ 10)
    (hs : insn.srcReg.toNat ≤ 10) :
    Reaches P (emitMov insn is64) s (update r insn.dstReg.toNat
      (atWidth is64 (aluAt 0xb0 0) (r insn.dstReg.toNat) (srcValue insn r))) := by
  unfold emitMov srcValue
  by_cases hx : insn.useReg
  · simp only [hx, if_true]
    rw [← hm _ hs]
    cases is64 with
    | false => exact reaches_write (.single rfl) (.refl _ s) hm hd
    | true =>
      simp only [true_and, Bool.not_true, Bool.false_eq_true, if_false]
      split_ifs with he hne
      · exact reaches_nil hm (by rw [← he]; exact hm _ hd)
      · exact reaches_write (.single rfl) (.refl _ s) hm hd
      · exact reaches_nil hm (by rw [← not_not.mp hne]; exact hm _ hd)
  · simp only [hx, Bool.false_eq_true, if_false]
    cases is64 with
    | false =>
      have hval : atWidth false (aluAt 0xb0 0) (r insn.dstReg.toNat) (insn.imm.signExtend 64) =
          atWidth false (fun _ a _ => a) (insn.imm.zeroExtend 64) 0 := by
        refine congrArg (BitVec.zeroExtend 64) ((truncate_signExtend insn.imm).trans ?_)
        exact (truncate_zeroExtend insn.imm).symm
      rw [hval]
      exact reaches_write (computes_movImm s _ _ _) (.refl _ s) hm hd
    | true =>
      exact reaches_write ((computes_movImm s _ _ _).append (.single rfl)) (.set (by decide) s _)
        hm hd

/-- A piece between the load of `dst` and the store. -/
theorem reaches_around (hm : Mirrors r s) (hd : d ≤ 10)
    (h : Yields P code (s.set .x0 (r d)) x) (hx : atWidth is64 (fun _ a _ => a) x 0 = x) :
    Reaches P (loadBpf d .x0 ++ code ++ storeBpf d .x0 is64) s (update r d x) := by
  have hload := computes_loadBpf (P := P) s d .x0
  rw [hm d hd] at hload
  exact (Yields.after hload (.set (by decide) s _) h).store hm hd hx

theorem reaches_neg (hm : Mirrors r s) (hd : d ≤ 10) (off : BitVec 16) :
    Reaches P (loadBpf d .x0 ++ [.neg is64 .x0 .x0] ++ storeBpf d .x0 is64) s
      (update r d (atWidth is64 (aluAt 0x80 off) (r d) x)) := by
  refine reaches_around hm hd ⟨_, .single rfl, ?_, .set (by decide) _ _⟩ atWidth_atWidth
  rw [reg_set_self, reg_set_self,
    atWidth_congr (lowAt_of fun n _ a b => aluAt_neg (n := n) (a := a) (b := b))]
  rfl

theorem reaches_emitMovsx (hm : Mirrors r s) (hd : insn.dstReg.toNat ≤ 10)
    (hs : insn.srcReg.toNat ≤ 10) (h0 : insn.off ≠ 0) (he : emitMovsx insn is64 = some code) :
    Reaches P code s (update r insn.dstReg.toNat
      (atWidth is64 (aluAt 0xb0 insn.off) (r insn.dstReg.toNat) (srcValue insn r))) := by
  unfold emitMovsx at he
  dsimp only at he
  rw [Option.ite_none_right_eq_some] at he
  obtain ⟨hoff, he⟩ := he
  obtain rfl := Option.some.inj he
  have hload : Computes (sem P) (if insn.useReg then loadBpf insn.srcReg.toNat .x0
      else movImm .x0 (insn.imm.signExtend 64) true) s (s.set .x0 (srcValue insn r)) := by
    unfold srcValue
    split_ifs with hx
    · rw [← hm _ hs]
      exact computes_loadBpf s _ _
    · exact computes_movImm s _ _ _
  refine Yields.store (.after hload (.set (by decide) s _)
    ⟨_, .single rfl, ?_, .set (by decide) _ _⟩) hm hd atWidth_atWidth
  rw [reg_set_self, reg_set_self]
  cases is64 with
  | true => exact (aluAt_movsx (n := 64) h0 hoff).symm
  | false => exact congrArg (BitVec.zeroExtend 64) (aluAt_movsx (n := 32) h0 hoff).symm

/-! ### Byte swaps -/

theorem swapHalves_low {w : ℕ} (hw : w = 64 ∨ w = 32) (a : BitVec w) :
    (swapHalves w a).truncate 16 = (a.truncate 16).rotateLeft 8 := by
  ext k hk
  rcases hw with rfl | rfl <;> interval_cases k <;> simp [swapHalves, BitVec.getElem_rotateLeft]

theorem truncate_rev16 (x b : U64) :
    ((atWidth is64 (fun w a _ => swapHalves w a) x b).truncate 16).zeroExtend 64 = bswap 2 x := by
  rw [← rotateLeft_eight]
  cases is64 with
  | true => exact congrArg (BitVec.zeroExtend 64) (swapHalves_low (.inl rfl) x)
  | false =>
    have h := swapHalves_low (.inr rfl) (x.truncate 32)
    simp only [BitVec.truncate_eq_setWidth] at h ⊢
    simp [atWidth, h]

theorem yields_and_ffff : Yields P (logicImm .and .x0 .x0 0xffff true) s
    (((s.reg .x0).truncate 16).zeroExtend 64) := by
  obtain ⟨s', hcomp, hx, hch⟩ := computes_withImm (P := P) s .and .x0 (n := .x0)
    (by decide) 0xffff true
  exact ⟨s', hcomp, hx.trans (and_low16 (by decide) _), hch.mono (by decide)⟩

theorem yields_emitSwap (h : emitSwap imm is64 = some code) :
    ∃ x, swapValue imm (s.reg .x0) = some x ∧ Yields P code s x := by
  unfold emitSwap at h
  unfold swapValue
  split_ifs at h ⊢ <;> obtain rfl := Option.some.inj h
  · have hand := yields_and_ffff (P := P) (s :=
      s.set .x0 (atWidth is64 (fun w a _ => swapHalves w a) (s.reg .x0) 0))
    rw [reg_set_self, truncate_rev16] at hand
    exact ⟨_, rfl, .after (.single rfl) (.set (by decide) s _) hand⟩
  · exact ⟨_, rfl, _, .single rfl, reg_set_self .., .set (by decide) s _⟩
  · exact ⟨_, rfl, _, .single rfl, reg_set_self .., .set (by decide) s _⟩

/-- A swap of at most 32 bits where the width is 32. -/
theorem swapValue_extended {y : U64} (h : swapValue imm y = some x)
    (h64 : is64 = false → imm ≠ 64) : atWidth is64 (fun _ a _ => a) x 0 = x := by
  unfold swapValue at h
  cases is64 with
  | true => rfl
  | false =>
    simp only [h64 rfl, if_false] at h
    split_ifs at h <;> obtain rfl := Option.some.inj h
    · exact atWidth_of_lt ((toNat_bswap_lt 2 y).trans (by decide)) _ _
    · exact atWidth_of_lt (toNat_bswap_lt 4 y) _ _

theorem reaches_swap (hm : Mirrors r s) (hd : d ≤ 10) (h64 : is64 = false → imm ≠ 64)
    (he : (emitSwap imm is64).map (fun code => loadBpf d .x0 ++ code ++ storeBpf d .x0 is64) =
      some code) : ∃ x, swapValue imm (r d) = some x ∧ Reaches P code s (update r d x) := by
  obtain ⟨swap, hswap, rfl⟩ := Option.map_eq_some_iff.mp he
  obtain ⟨x, hx, hy⟩ := yields_emitSwap (P := P) (s := s.set .x0 (r d)) hswap
  rw [reg_set_self] at hx
  exact ⟨x, hx, reaches_around hm hd hy (swapValue_extended hx h64)⟩

theorem reaches_emitEnd (hm : Mirrors r s) (hd : insn.dstReg.toNat ≤ 10)
    (he : emitEnd insn is64 = some code) :
    ∃ x, endAt is64 insn.useReg insn.imm (r insn.dstReg.toNat) = some x ∧
      Reaches P code s (update r insn.dstReg.toNat x) := by
  cases is64 with
  | true => exact reaches_swap hm hd (fun h => by cases h) he
  | false =>
    by_cases hx : insn.useReg
    · -- to big endian
      have h64 : insn.imm ≠ 64 := by
        intro h64
        simp [emitEnd, hx, h64] at he
      rw [show endAt false insn.useReg insn.imm (r insn.dstReg.toNat) =
        swapValue insn.imm (r insn.dstReg.toNat) by simp [endAt, endValue, hx]]
      simp only [emitEnd, Bool.false_eq_true, hx, Bool.not_true, false_and, if_false, if_true,
        h64] at he
      exact reaches_swap hm hd (fun _ => h64) he
    · -- to little endian
      by_cases h64 : insn.imm = 64
      · obtain rfl : [] = code := by simpa [emitEnd, hx, h64] using he
        exact ⟨r insn.dstReg.toNat, by simp [endAt, endValue, hx, h64], reaches_nil hm rfl⟩
      · simp only [emitEnd, Bool.false_eq_true, hx, h64, and_false, if_false] at he
        simp only [endAt, endValue, Bool.false_eq_true, hx, h64, if_false]
        split_ifs at he ⊢
        · obtain rfl := Option.some.inj he
          have hand := yields_and_ffff (P := P) (s := s.set .x0 (r insn.dstReg.toNat))
          rw [reg_set_self] at hand
          refine ⟨_, rfl, reaches_around hm hd hand ?_⟩
          simp [atWidth]
        · obtain rfl := Option.some.inj he
          refine ⟨_, rfl, reaches_around hm hd ⟨_, .single rfl, rfl, .set (by decide) _ _⟩ ?_⟩
          simp [atWidth]

/-! ### Division -/

section
variable {n : ℕ} {a b : BitVec n} {off : BitVec 16}

theorem divValue_udiv : divValue false 0 n a b = udivValue n a b := by
  unfold udivValue
  split_ifs with hb
  · exact divValue_zero hb
  · exact divValue_unsigned hb

theorem modValue_udiv : divValue true 0 n a b = a - udivValue n a b * b := by
  unfold udivValue
  split_ifs with hb
  · rw [divValue_zero hb, zero_mul, sub_zero]
    rfl
  · rw [divValue_unsigned hb, eq_sub_iff_add_eq]
    calc BitVec.ofNat n (a.toNat % b.toNat) + BitVec.ofNat n (a.toNat / b.toNat) * b
      _ = BitVec.ofNat n (a.toNat % b.toNat + a.toNat / b.toNat * b.toNat) := by
        rw [BitVec.ofNat_add, BitVec.ofNat_mul, BitVec.ofNat_toNat n b, BitVec.setWidth_eq]
      _ = a := by rw [Nat.mod_add_div', BitVec.ofNat_toNat, BitVec.setWidth_eq]

/-- The quotient of the smallest value by -1 wraps to the smallest value. -/
theorem divValue_sdiv (hoff : off ≠ 0) : divValue false off n a b = sdivValue n a b := by
  unfold sdivValue
  split_ifs with hb
  · exact divValue_zero hb
  · by_cases ho : b.toInt = -1 ∧ a.toInt = -2 ^ (n - 1)
    · have hn : 0 < n := Nat.pos_of_ne_zero fun h0 => hb (by subst h0; exact BitVec.of_length_zero)
      have hmin : a = BitVec.intMin n :=
        BitVec.eq_of_toInt_eq (ho.2.trans (BitVec.toInt_intMin_of_pos hn).symm)
      rw [divValue_overflow hoff hb ho, ho.1, Int.tdiv_neg, Int.tdiv_one, BitVec.ofInt_neg,
        BitVec.ofInt_toInt, hmin, BitVec.neg_intMin]
      rfl
    · exact divValue_signed hoff hb ho

theorem modValue_sdiv (hoff : off ≠ 0) : divValue true off n a b = a - sdivValue n a b * b := by
  unfold sdivValue
  split_ifs with hb
  · rw [divValue_zero hb, zero_mul, sub_zero]
    rfl
  · have hmod : divValue true off n a b = BitVec.ofInt n (a.toInt.tmod b.toInt) := by
      by_cases ho : b.toInt = -1 ∧ a.toInt = -2 ^ (n - 1)
      · rw [divValue_overflow hoff hb ho, ho.1, Int.tmod_neg, Int.tmod_one]
        rfl
      · exact divValue_signed hoff hb ho
    rw [hmod, eq_sub_iff_add_eq]
    calc BitVec.ofInt n (a.toInt.tmod b.toInt) + BitVec.ofInt n (a.toInt.tdiv b.toInt) * b
      _ = BitVec.ofInt n (a.toInt.tmod b.toInt + a.toInt.tdiv b.toInt * b.toInt) := by
        rw [BitVec.ofInt_add, BitVec.ofInt_mul, BitVec.ofInt_toInt]
      _ = a := by rw [Int.tmod_add_tdiv_mul, BitVec.ofInt_toInt]

end

/-! ### The operations of the `switch` -/

/-- `dst` in `x0` and, with `BPF_X`, `src` in `x1`. -/
structure Loaded (insn : BpfInsn) (r : Regs) (s : State) : Prop where
  dst : s.reg .x0 = r insn.dstReg.toNat
  src : insn.useReg → s.reg .x1 = r insn.srcReg.toNat

theorem computes_load (hm : Mirrors r s) (hd : insn.dstReg.toNat ≤ 10)
    (hs : insn.srcReg.toNat ≤ 10) : ∃ s', Computes (sem P) (loadOperands insn) s s' ∧
      Loaded insn r s' ∧ Changes scratch s s' := by
  unfold loadOperands
  have hdst := computes_loadBpf (P := P) s insn.dstReg.toNat .x0
  rw [hm _ hd] at hdst
  have hch : Changes scratch s (s.set .x0 (r insn.dstReg.toNat)) := .set (by decide) s _
  split_ifs with hx
  · have hsrc := computes_loadBpf (P := P) (s.set .x0 (r insn.dstReg.toNat)) insn.srcReg.toNat .x1
    rw [(hm.of_changes hch) _ hs] at hsrc
    refine ⟨_, hdst.append hsrc, ⟨?_, fun _ => reg_set_self ..⟩,
      hch.trans (.set (by decide) _ _)⟩
    rw [reg_set_of_ne _ _ (by decide), reg_set_self]
  · exact ⟨_, hdst.append .nil, ⟨reg_set_self .., fun h => absurd h hx⟩, hch⟩

/-- An operation on `x0` and `x1`, or on `x0` and an immediate. -/
theorem Loaded.yields_alu (h : Loaded insn r s) (op : AluOp)
    (himm : ∃ s', Computes (sem P) code s s' ∧
      s'.reg .x0 = atWidth is64 (fun w => op.value w) (s.reg .x0) (insn.imm.signExtend 64) ∧
      Changes [.x0, .x2] s s') :
    Yields P (if insn.useReg then [.alu op is64 .x0 .x0 .x1] else code) s
      (atWidth is64 (fun w => op.value w) (r insn.dstReg.toNat) (srcValue insn r)) := by
  unfold srcValue
  split_ifs with hx
  · refine ⟨_, .single rfl, ?_, .set (by decide) s _⟩
    rw [reg_set_self, h.dst, h.src hx]
  · obtain ⟨s', hcomp, hval, hch⟩ := himm
    exact ⟨s', hcomp, h.dst ▸ hval, hch.mono (by decide)⟩

theorem Loaded.yields_mul (h : Loaded insn r s) :
    Yields P (emitMul insn is64) s
      (atWidth is64 (aluAt 0x20 insn.off) (r insn.dstReg.toNat) (srcValue insn r)) := by
  unfold emitMul srcValue
  by_cases hx : insn.useReg
  · simp only [hx, if_true]
    refine ⟨_, .single rfl, ?_, .set (by decide) s _⟩
    rw [reg_set_self, h.dst, h.src hx]
    rfl
  · simp only [hx, Bool.false_eq_true, if_false]
    cases is64 with
    | true =>
      refine ⟨_, (computes_movImm s _ _ _).append (.single rfl), ?_,
        .trans (.set (by decide) s _) (.set (by decide) _ _)⟩
      rw [reg_set_self, reg_set_self, reg_set_of_ne _ _ (by decide), h.dst]
      rfl
    | false =>
      refine ⟨_, (computes_movImm s _ _ _).append (.single rfl), ?_,
        .trans (.set (by decide) s _) (.set (by decide) _ _)⟩
      rw [reg_set_self, reg_set_self, reg_set_of_ne _ _ (by decide), h.dst,
        atWidth_low_right]
      simp only [atWidth, Bool.false_eq_true, if_false, truncate_zeroExtend, truncate_signExtend]
      rfl

theorem toNat_shiftAmount (insn : BpfInsn) (is64 : Bool) : shiftAmount insn is64 =
    (insn.imm.signExtend 64).toNat % (if is64 then 64 else 32) := by
  have himm := toNat_signExtend_mod insn.imm
  unfold shiftAmount
  split_ifs
  · have hmask : (insn.imm &&& 0x3f).toNat = insn.imm.toNat % 64 :=
      (BitVec.toNat_and ..).trans (Nat.and_two_pow_sub_one_eq_mod _ 6)
    omega
  · have hmask : (insn.imm &&& 0x1f).toNat = insn.imm.toNat % 32 :=
      (BitVec.toNat_and ..).trans (Nat.and_two_pow_sub_one_eq_mod _ 5)
    omega

theorem Loaded.yields_shift (h : Loaded insn r s) (op : ShiftOp) :
    Yields P (emitShift op insn is64) s
      (atWidth is64 (fun n a b => op.value n (b &&& BitVec.ofNat n (n - 1)).toNat a)
        (r insn.dstReg.toNat) (srcValue insn r)) := by
  have hk := toNat_mask is64 0 (srcValue insn r)
  have hval : atWidth is64 (fun w a _ => op.value w
      ((srcValue insn r).toNat % (if is64 then 64 else 32)) a) (r insn.dstReg.toNat) 0 =
      atWidth is64 (fun n a b => op.value n (b &&& BitVec.ofNat n (n - 1)).toNat a)
        (r insn.dstReg.toNat) (srcValue insn r) := by
    rw [← hk]
    cases is64 <;> rfl
  rw [← hval]
  unfold emitShift
  by_cases hx : insn.useReg
  · rw [if_pos hx]
    refine ⟨_, .single rfl, ?_, .set (by decide) s _⟩
    rw [reg_set_self, h.dst, h.src hx, srcValue, if_pos hx]
  · rw [if_neg hx]
    refine ⟨_, .single rfl, ?_, .set (by decide) s _⟩
    rw [reg_set_self, h.dst, toNat_shiftAmount, srcValue, if_neg hx]

/-- The divisor in `x1`, up to its width. -/
theorem Loaded.computes_loadDivisor (h : Loaded insn r s) (is64 : Bool) : ∃ s',
    Computes (sem P) (loadDivisor insn is64) s s' ∧ Changes scratch s s' ∧
      s'.reg .x0 = r insn.dstReg.toNat ∧
      ∀ f : (n : ℕ) → BitVec n → BitVec n → BitVec n, ∀ a,
        atWidth is64 f a (s'.reg .x1) = atWidth is64 f a (srcValue insn r) := by
  unfold loadDivisor srcValue
  split_ifs with hx
  · exact ⟨s, .nil, .refl _ s, h.dst, fun f a => by rw [h.src hx]⟩
  · refine ⟨_, computes_movImm s _ _ _, .set (by decide) s _, ?_, fun f a => ?_⟩
    · rw [reg_set_of_ne _ _ (by decide), h.dst]
    · rw [reg_set_self, atWidth_low_right]

/-- The quotient, as `udiv` or `sdiv` by the offset of the instruction. -/
theorem sem_divide (insn : BpfInsn) (is64 : Bool) (d : Reg) (s : State) :
    sem P (divide insn is64 d) s =
      (s.set d (atWidth is64 (divValue false insn.off) (s.reg .x0) (s.reg .x1)), .next) := by
  unfold divide
  split_ifs with hoff
  · rw [hoff, atWidth_congr (lowAt_of fun n _ a b => divValue_udiv (n := n) (a := a) (b := b))]
    rfl
  · rw [atWidth_congr (lowAt_of fun n _ a b => divValue_sdiv (n := n) (a := a) (b := b) hoff)]
    rfl

/-- `msub` with the quotient gives the remainder. -/
theorem atWidth_msub (off : BitVec 16) (a b : U64) :
    atWidth is64 (fun _ a b => a - b) a (atWidth is64 (divValue false off) a b * b) =
      atWidth is64 (divValue true off) a b := by
  have hmod (n : ℕ) (a b : BitVec n) :
      a - divValue false off n a b * b = divValue true off n a b := by
    by_cases hoff : off = 0
    · rw [hoff, divValue_udiv, modValue_udiv]
    · rw [divValue_sdiv hoff, modValue_sdiv hoff]
  cases is64 with
  | true => exact hmod 64 a b
  | false =>
    have hmul : (atWidth false (divValue false off) a b * b).truncate 32 =
        divValue false off 32 (a.truncate 32) (b.truncate 32) * b.truncate 32 :=
      (BitVec.setWidth_mul _ b (by decide)).trans (congrArg (· * _) (truncate_zeroExtend _))
    have h := hmod 32 (a.truncate 32) (b.truncate 32)
    rw [← hmul] at h
    exact congrArg (BitVec.zeroExtend 64) h

theorem Loaded.yields_emitDiv (h : Loaded insn r s) :
    Yields P (emitDiv insn is64) s
      (atWidth is64 (aluAt 0x30 insn.off) (r insn.dstReg.toNat) (srcValue insn r)) := by
  change Yields _ _ _ (atWidth is64 (divValue false insn.off) _ _)
  unfold emitDiv
  split_ifs with h0
  · have hx : ¬insn.useReg := by simpa using h0.1
    have hzero := lowAt_srcValue_zero (r := r) hx h0.2 is64 (r insn.dstReg.toNat)
    rw [atWidth_congr (lowAt_imp (fun _ _ _ _ => divValue_zero) hzero)]
    refine ⟨_, computes_movImm s _ _ _, ?_, .set (by decide) s _⟩
    rw [reg_set_self]
    cases is64 <;> rfl
  · obtain ⟨s', hcomp, hch, hdst, hsrc⟩ := h.computes_loadDivisor (P := P) is64
    refine .after hcomp hch ⟨_, .single (sem_divide insn is64 .x0 s'), ?_, .set (by decide) _ _⟩
    rw [reg_set_self, hsrc, hdst]

theorem Loaded.yields_emitMod (h : Loaded insn r s) :
    Yields P (emitMod insn is64) s
      (atWidth is64 (aluAt 0x90 insn.off) (r insn.dstReg.toNat) (srcValue insn r)) := by
  change Yields _ _ _ (atWidth is64 (divValue true insn.off) _ _)
  obtain ⟨s', hcomp, hch, hdst, hsrc⟩ := h.computes_loadDivisor (P := P) is64
  refine .after hcomp hch ⟨_, .cons (sem_divide insn is64 .x2 s') (.single rfl), ?_,
    .trans (.set (by decide) s' _) (.set (by decide) _ _)⟩
  rw [reg_set_self, reg_set_self, reg_set_of_ne _ _ (by decide),
    reg_set_of_ne _ _ (by decide), atWidth_msub, hsrc, hdst]

theorem Loaded.yields_emitOp (h : Loaded insn r s) (he : emitOp insn is64 = some code) :
    Yields P code s (atWidth is64 (aluAt (aluOp insn) insn.off)
      (r insn.dstReg.toNat) (srcValue insn r)) := by
  unfold emitOp at he
  split at he <;> rename_i hop <;> cases he <;> rw [hop]
  · exact h.yields_alu .add (computes_addImm s _ (by decide) _ _)
  · exact h.yields_alu .sub (computes_subImm s _ (by decide) _ _)
  · exact h.yields_alu .orr (computes_withImm s _ _ (by decide) _ _)
  · exact h.yields_alu .and (computes_withImm s _ _ (by decide) _ _)
  · exact h.yields_alu .eor (computes_withImm s _ _ (by decide) _ _)
  · exact h.yields_shift .lsl
  · exact h.yields_shift .lsr
  · exact h.yields_shift .asr
  · exact h.yields_mul
  · exact h.yields_emitDiv
  · exact h.yields_emitMod

/-! ### The whole of `emit_alu` -/

/-- The code of `emit_alu` computes what the interpreter computes. -/
theorem reaches_emitAlu (hm : Mirrors r s) (hd : insn.dstReg.toNat < 10)
    (hs : insn.srcReg.toNat ≤ 10) (he : emitAlu insn is64 = some code) :
    ∃ r', aluOf is64 insn r = some r' ∧ Reaches P code s r' := by
  have hd' : insn.dstReg.toNat ≤ 10 := hd.le
  unfold emitAlu at he
  dsimp only at he
  split_ifs at he with hmov hneg hmovsx hend hnop hmod
  · obtain rfl := Option.some.inj he
    refine ⟨_, aluOf_eq hd (by omega), ?_⟩
    rw [hmov.1, hmov.2]
    exact reaches_emitMov hm hd' hs
  · obtain rfl := Option.some.inj he
    refine ⟨_, aluOf_eq hd (by omega), ?_⟩
    rw [hneg]
    exact reaches_neg hm hd' _
  · refine ⟨_, aluOf_eq hd (by omega), ?_⟩
    rw [hmovsx]
    exact reaches_emitMovsx hm hd' hs (fun h0 => hmov ⟨hmovsx, h0⟩) he
  · obtain ⟨x, hx, hreach⟩ := reaches_emitEnd (P := P) hm hd' he
    rw [aluOf_end hd hend, hx]
    exact ⟨_, rfl, hreach⟩
  · obtain rfl := Option.some.inj he
    refine ⟨_, aluOf_eq hd hend, ?_⟩
    have hx : ¬insn.useReg := by simpa using hnop.1
    rw [srcValue, if_neg hx, atWidth_congr (lowAt_nop hnop.2)]
    exact reaches_extendInPlace hm hd'
  · obtain rfl := Option.some.inj he
    refine ⟨_, aluOf_eq hd hend, ?_⟩
    have hx : ¬insn.useReg := by simpa using hmod.2.1
    have hzero := lowAt_srcValue_zero (r := r) hx hmod.2.2 is64 (r insn.dstReg.toNat)
    rw [hmod.1]
    change Reaches _ _ _ (update _ _ (atWidth is64 (divValue true insn.off) _ _))
    rw [atWidth_congr (lowAt_imp (fun _ _ _ _ => divValue_zero) hzero)]
    obtain ⟨s', hload, -, hch⟩ := computes_load (P := P) hm hd' hs
    exact .after hload hch (reaches_extendInPlace (hm.of_changes hch) hd')
  · refine ⟨_, aluOf_eq hd hend, ?_⟩
    obtain ⟨code, hcode, rfl⟩ := Option.map_eq_some_iff.mp he
    obtain ⟨s', hload, hl, hch⟩ := computes_load (P := P) hm hd' hs
    exact (Yields.after hload hch (hl.yields_emitOp hcode)).store hm hd' atWidth_atWidth

end

end Bpfvm.Jit.AArch64
