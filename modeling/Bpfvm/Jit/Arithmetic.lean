import Bpfvm.Jit.Host
import Mathlib.Data.Nat.Bitwise
import Mathlib.Tactic.Positivity
import Mathlib.Tactic.Ring

/-!
# The interpreter's arithmetic at both widths

`vm::alu64` and `vm::alu` as one function of the width, which is how the back ends are written, and
the facts about two's complement on which the compiled forms rest.
-/
namespace Bpfvm.Jit
open Cpu LittleEndian BitVec

section
variable {is64 : Bool} {f : (n : ℕ) → BitVec n → BitVec n → BitVec n} {a b b' : U64}

theorem truncate_zeroExtend (x : U32) : (x.zeroExtend 64).truncate 32 = x := by
  simp

theorem truncate_signExtend (x : U32) : (x.signExtend 64).truncate 32 = x := by
  ext i hi
  have h64 : i < 64 := by omega
  simp [getElem_signExtend, hi, h64]

/-- A result of 32 bits is zero-extended already. -/
theorem atWidth_atWidth :
    atWidth is64 (fun _ a _ => a) (atWidth is64 f a b) b' = atWidth is64 f a b := by
  unfold atWidth
  cases is64 <;> simp

end

/-! ## One function for `alu64` and `alu` -/

/-- `alu64` or `alu`. -/
def aluOf (is64 : Bool) : BpfInsn → Regs → Option Regs := if is64 then alu64 else alu

/-- The source operand. -/
def srcValue (cur : BpfInsn) (r : Regs) : U64 :=
  if cur.useReg then r cur.srcReg.toNat else cur.imm.signExtend 64

def aluOp (cur : BpfInsn) : ℕ := (cur.code &&& 0xf0).toNat

/-- The arithmetic of both at width `n`. -/
def aluAt (op : ℕ) (off : BitVec 16) (n : ℕ) (a b : BitVec n) : BitVec n :=
  aluValue (BitVec.ofNat n (n - 1)) (if n = 64 then [8, 16, 32] else [8, 16]) op off a b

/-- The interpreter's result for `BPF_END`. -/
def endAt (is64 useReg : Bool) (imm : U32) (x : U64) : Option U64 :=
  if is64 then swapValue imm x else endValue useReg imm x

section
variable {cur : BpfInsn} {r : Regs} {is64 : Bool}

theorem code_ne_of_aluOp (h : aluOp cur ≠ 0xd0) : cur.code &&& 0xf0 ≠ 0xd0 := by
  intro hc
  exact h (by unfold aluOp; rw [hc]; rfl)

theorem code_eq_of_aluOp (h : aluOp cur = 0xd0) : cur.code &&& 0xf0 = 0xd0 :=
  eq_of_toNat_eq h

theorem truncate_srcValue (cur : BpfInsn) (r : Regs) : (srcValue cur r).truncate 32 =
    if cur.useReg then (r cur.srcReg.toNat).truncate 32 else cur.imm := by
  unfold srcValue
  split_ifs with h
  · rfl
  · exact truncate_signExtend cur.imm

theorem lowAt_srcValue_zero (hx : ¬cur.useReg) (h0 : cur.imm = 0) (is64 : Bool) (a : U64) :
    lowAt is64 (fun _ _ b => b = 0) a (srcValue cur r) := by
  rw [srcValue, if_neg hx, h0]
  cases is64 <;> rfl

theorem aluOf_eq (hd : cur.dstReg.toNat < 10) (hop : aluOp cur ≠ 0xd0) :
    aluOf is64 cur r = some (Function.update r cur.dstReg.toNat
      (atWidth is64 (aluAt (aluOp cur) cur.off) (r cur.dstReg.toNat) (srcValue cur r))) := by
  unfold aluOf
  cases is64 with
  | true =>
    simp only [if_true, alu64]
    rw [if_neg (by omega), if_neg (code_ne_of_aluOp hop)]
    rfl
  | false =>
    simp only [Bool.false_eq_true, if_false, alu]
    rw [if_neg (by omega), if_neg (code_ne_of_aluOp hop), ← truncate_srcValue]
    rfl

/-- `BPF_END`: a byte swap, or a truncation with `BPF_ALU` and no `BPF_X`. -/
theorem aluOf_end (hd : cur.dstReg.toNat < 10) (hop : aluOp cur = 0xd0) :
    aluOf is64 cur r = (endAt is64 cur.useReg cur.imm (r cur.dstReg.toNat)).map
      (Function.update r cur.dstReg.toNat) := by
  unfold aluOf
  cases is64 with
  | true =>
    simp only [if_true, alu64]
    rw [if_neg (by omega), if_pos (code_eq_of_aluOp hop)]
    rfl
  | false =>
    simp only [Bool.false_eq_true, if_false, alu]
    rw [if_neg (by omega), if_pos (code_eq_of_aluOp hop)]
    rfl

end

/-! ## Two's complement -/

/-- The high half that `cqo` fills in makes the double-width dividend the signed value. -/
theorem toInt_signFill {n : ℕ} (hn : 0 < n) (a : BitVec n) :
    (if a.msb then BitVec.allOnes n else 0).toInt * 2 ^ n + a.toNat = a.toInt := by
  rw [toInt_eq_msb_cond a]
  split_ifs with h
  · rw [toInt_allOnes, if_pos hn]
    push_cast
    ring
  · simp

/-- A signed quotient fits, but for the smallest value divided by -1. -/
theorem tdiv_fits {n : ℕ} {a d : BitVec n} (h : ¬(d.toInt = -1 ∧ a.toInt = -2 ^ (n - 1))) :
    -2 ^ (n - 1) ≤ a.toInt.tdiv d.toInt ∧ a.toInt.tdiv d.toInt < 2 ^ (n - 1) := by
  have hle := le_toInt a
  have hlt := toInt_lt (x := a)
  generalize (2 : ℤ) ^ (n - 1) = c at h hle hlt ⊢
  generalize a.toInt = x at h hle hlt ⊢
  generalize d.toInt = y at h ⊢
  have habs : (x.tdiv y).natAbs = x.natAbs / y.natAbs := Int.natAbs_tdiv x y
  have hq : (x.tdiv y).natAbs ≤ x.natAbs := habs ▸ Nat.div_le_self _ _
  refine ⟨by omega, ?_⟩
  by_contra hge
  -- the quotient is as large as the dividend, so the divisor is 1 or -1
  have hx : x = -c := by omega
  have hy : y.natAbs ≤ 1 := by
    by_contra hy
    have := Nat.div_lt_self (n := x.natAbs) (k := y.natAbs) (by omega) (by omega)
    omega
  have hy0 : y ≠ 0 := by
    rintro rfl
    rw [Int.tdiv_zero] at hge
    omega
  have hy1 : y = 1 := by omega
  rw [hy1, Int.tdiv_one] at hge
  omega

/-- The sign of a difference, corrected by the overflow, is the signed comparison. -/
theorem msb_sub_ne_overflow {n : ℕ} (hn : 0 < n) (a b : BitVec n) :
    ((a - b).msb != a.ssubOverflow b) = a.slt b := by
  obtain ⟨k, rfl⟩ : ∃ k, n = k + 1 := ⟨n - 1, by omega⟩
  have ha := le_toInt a
  have ha' := toInt_lt (x := a)
  have hb := le_toInt b
  have hb' := toInt_lt (x := b)
  rw [msb_eq_toInt, toInt_sub, BitVec.slt, BitVec.ssubOverflow]
  simp only [Nat.add_sub_cancel] at *
  have h2 : ((2 ^ (k + 1) : ℕ) : ℤ) = 2 * 2 ^ k := by
    push_cast
    ring
  generalize a.toInt = x at *
  generalize b.toInt = y at *
  have hc : (0 : ℤ) < 2 ^ k := by positivity
  have hbmod : (x - y).bmod (2 ^ (k + 1)) = if x - y ≥ 2 ^ k then x - y - 2 * 2 ^ k
      else if x - y < -2 ^ k then x - y + 2 * 2 ^ k else x - y := by
    split_ifs
    · rw [← h2, ← Int.sub_bmod_right, Int.bmod_eq_of_le (by omega) (by omega)]
    · rw [← h2, ← Int.add_bmod_right, Int.bmod_eq_of_le (by omega) (by omega)]
    · exact Int.bmod_eq_of_le (by omega) (by omega)
  rw [hbmod, Bool.eq_iff_iff, bne_iff_ne, ne_eq, Bool.eq_iff_iff, Bool.or_eq_true]
  simp only [decide_eq_true_eq]
  split_ifs <;> omega

/-! ## Division -/

/-- The arithmetic of `BPF_DIV` and `BPF_MOD`. -/
def divValue (isMod : Bool) (off : BitVec 16) : (n : ℕ) → BitVec n → BitVec n → BitVec n :=
  aluAt (if isMod then 0x90 else 0x30) off

section
variable {n : ℕ} {a b : BitVec n} {isMod : Bool} {off : BitVec 16}

theorem divValue_zero (h : b = 0) : divValue isMod off n a b = if isMod then a else 0 := by
  unfold divValue aluAt aluValue
  cases isMod <;> simp [h]

theorem divValue_unsigned (h : b ≠ 0) : divValue isMod 0 n a b =
    BitVec.ofNat n (if isMod then a.toNat % b.toNat else a.toNat / b.toNat) := by
  unfold divValue aluAt aluValue
  cases isMod
  · exact if_pos h
  · exact if_pos h

theorem divValue_overflow (hoff : off ≠ 0) (hb : b ≠ 0)
    (h : b.toInt = -1 ∧ a.toInt = -2 ^ (n - 1)) :
    divValue isMod off n a b = if isMod then 0 else a := by
  have ha : BitVec.ofInt n (-2 ^ (n - 1)) = a := by rw [← h.2, ofInt_toInt]
  unfold divValue aluAt aluValue
  cases isMod
  · exact (if_neg hoff).trans ((if_neg hb).trans ((if_pos h).trans ha))
  · exact (if_neg hoff).trans ((if_neg hb).trans (if_pos h))

theorem divValue_signed (hoff : off ≠ 0) (hb : b ≠ 0)
    (h : ¬(b.toInt = -1 ∧ a.toInt = -2 ^ (n - 1))) : divValue isMod off n a b =
      BitVec.ofInt n (if isMod then a.toInt.tmod b.toInt else a.toInt.tdiv b.toInt) := by
  unfold divValue aluAt aluValue
  cases isMod
  · exact (if_neg hoff).trans ((if_neg hb).trans (if_neg h))
  · exact (if_neg hoff).trans ((if_neg hb).trans (if_neg h))

end

/-! ## Immediate forms -/

/-- The immediate forms that change nothing but the upper half of a 32-bit result. -/
def isNop (op : ℕ) (imm : U32) : Bool :=
  imm == 0 && op ∈ [0x00, 0x10, 0x40, 0xa0, 0x60, 0x70, 0xc0] || imm == 1 && op ∈ [0x20, 0x30]

section
variable {n : ℕ} {a b : BitVec n} {op : ℕ} {off : BitVec 16} {imm : U32}

theorem aluAt_zero (hop : op ∈ [0x00, 0x10, 0x40, 0xa0, 0x60, 0x70, 0xc0]) (hb : b = 0) :
    aluAt op off n a b = a := by
  unfold aluAt aluValue
  simp only [List.mem_cons, List.not_mem_nil, or_false] at hop
  rcases hop with rfl | rfl | rfl | rfl | rfl | rfl | rfl <;> simp [hb]

theorem aluAt_one (hop : op ∈ [0x20, 0x30]) (hn : 1 < n) (hb : b = 1) :
    aluAt op off n a b = a := by
  have hint : (1 : BitVec n).toInt = 1 := toInt_one hn
  have hnat : (1 : BitVec n).toNat = 1 := toNat_one (by omega)
  have hne : b ≠ 0 := by
    intro h0
    rw [← hb, h0] at hnat
    simp at hnat
  simp only [List.mem_cons, List.not_mem_nil, or_false] at hop
  rcases hop with rfl | rfl
  · simp [aluAt, aluValue, hb]
  · change divValue false off n a b = a
    by_cases hoff : off = 0
    · rw [hoff, divValue_unsigned hne, hb, hnat]
      simp
    · rw [divValue_signed hoff hne (by rw [hb, hint]; omega), hb, hint]
      simp

/-- An immediate form that changes nothing. -/
theorem lowAt_nop {is64 : Bool} {a : U64} (h : isNop op imm) :
    lowAt is64 (fun n a b => aluAt op off n a b = a) a (imm.signExtend 64) := by
  simp only [isNop, Bool.or_eq_true, Bool.and_eq_true, beq_iff_eq, decide_eq_true_eq] at h
  rcases h with ⟨rfl, hop⟩ | ⟨rfl, hop⟩
  · cases is64
    · exact aluAt_zero hop (by decide)
    · exact aluAt_zero hop (by decide)
  · cases is64
    · exact aluAt_one hop (by decide) (by decide)
    · exact aluAt_one hop (by decide) (by decide)

theorem aluAt_neg : aluAt 0x80 off n a b = -a := by
  change BitVec.ofInt n (-a.toInt) = -a
  rw [ofInt_neg, ofInt_toInt]

/-- A sign-extending move. -/
theorem aluAt_movsx (h0 : off ≠ 0) (h : off ∈ (if n = 64 then [8, 16, 32] else [8, 16])) :
    aluAt 0xb0 off n a b = (b.truncate off.toNat).signExtend n :=
  (if_neg h0).trans (if_pos h)

end

/-! ## Shift amounts -/

/-- The mask of a shift amount is its remainder by the width. -/
theorem toNat_mask (is64 : Bool) (a b : U64) :
    lowAt is64 (fun n _ b => (b &&& BitVec.ofNat n (n - 1)).toNat) a b =
      b.toNat % (if is64 then 64 else 32) := by
  cases is64 with
  | true => exact (toNat_and ..).trans (Nat.and_two_pow_sub_one_eq_mod b.toNat 6)
  | false =>
    refine (toNat_and ..).trans ((Nat.and_two_pow_sub_one_eq_mod _ 5).trans ?_)
    simp only [truncate_eq_setWidth, toNat_setWidth, Bool.false_eq_true, if_false]
    omega

theorem toNat_signExtend_mod (imm : U32) : (imm.signExtend 64).toNat % 2 ^ 32 = imm.toNat := by
  have h := congrArg BitVec.toNat (truncate_signExtend imm)
  rwa [truncate_eq_setWidth, toNat_setWidth] at h

/-- A positive immediate is the same number at both widths. -/
theorem toNat_signExtend_low (is64 : Bool) (a : U64) {x : U32}
    (hx : x.toNat < 2 ^ 31) :
    lowAt is64 (fun _ _ b => b.toNat = x.toNat) a (x.signExtend 64) := by
  have hmsb : x.msb = false := msb_eq_false_iff_two_mul_lt.mpr (by omega)
  cases is64 with
  | true =>
    change (x.signExtend 64).toNat = x.toNat
    rw [signExtend_eq_setWidth_of_msb_false hmsb, toNat_setWidth]
    omega
  | false => exact congrArg BitVec.toNat (truncate_signExtend x)

/-! ## Byte swaps -/

theorem toNat_bswap_two (x : U64) :
    (bswap 2 x).toNat = x.toNat % 256 * 256 + x.toNat / 256 % 256 := by
  simp only [bswap, bytes]
  simp [value]
  omega

/-- A swap of two bytes is a rotation at 16 bits. -/
theorem rotateLeft_eight (x : U64) :
    ((x.truncate 16).rotateLeft 8).zeroExtend 64 = bswap 2 x := by
  have hhigh : (x.truncate 16).toNat <<< 8 % 2 ^ 16 = (x.toNat % 256) <<< 8 := by
    simp only [truncate_eq_setWidth, toNat_setWidth, Nat.shiftLeft_eq]
    omega
  have hlow : (x.truncate 16).toNat >>> 8 = x.toNat / 256 % 256 := by
    simp only [truncate_eq_setWidth, toNat_setWidth, Nat.shiftRight_eq_div_pow]
    omega
  have hrot : ((x.truncate 16).rotateLeft 8).toNat = (bswap 2 x).toNat := by
    rw [toNat_rotateLeft]
    change (x.truncate 16).toNat <<< 8 % 2 ^ 16 ||| (x.truncate 16).toNat >>> 8 = _
    rw [hhigh, hlow, ← Nat.shiftLeft_add_eq_or_of_lt (by omega), Nat.shiftLeft_eq, toNat_bswap_two]
  have hlt : ((x.truncate 16).rotateLeft 8).toNat < 2 ^ 64 :=
    BitVec.isLt _ |>.trans (by decide)
  apply eq_of_toNat_eq
  rw [← hrot]
  exact (toNat_setWidth ..).trans (Nat.mod_eq_of_lt hlt)

theorem toNat_bswap_lt (n : ℕ) (x : U64) : (bswap n x).toNat < 256 ^ n := by
  have hlt := value_lt (bytes n x.toNat).reverse
  rw [List.length_reverse, length_bytes] at hlt
  exact (toNat_ofNat ..).trans_le (Nat.mod_le ..) |>.trans_lt hlt

/-- A value of 32 bits is its own zero extension. -/
theorem atWidth_of_lt {x : U64} (h : x.toNat < 2 ^ 32) (is64 : Bool) (b : U64) :
    atWidth is64 (fun _ a _ => a) x b = x := by
  cases is64 with
  | true => rfl
  | false =>
    apply eq_of_toNat_eq
    change ((x.setWidth 32).setWidth 64).toNat = x.toNat
    rw [toNat_setWidth, toNat_setWidth]
    omega

theorem and_low16 {n : ℕ} (hn : 16 ≤ n) (x : BitVec n) :
    x &&& BitVec.ofNat n 0xffff = (x.truncate 16).zeroExtend n := by
  have hle : 2 ^ 16 ≤ 2 ^ n := Nat.pow_le_pow_right (by decide) hn
  have hmod : x.toNat % 2 ^ 16 < 2 ^ n := (Nat.mod_lt _ (by decide)).trans_le hle
  have hmask : (BitVec.ofNat n 0xffff).toNat = 2 ^ 16 - 1 := by
    rw [toNat_ofNat, Nat.mod_eq_of_lt (by omega)]
    rfl
  apply eq_of_toNat_eq
  rw [toNat_and, hmask, Nat.and_two_pow_sub_one_eq_mod]
  change _ = ((x.setWidth 16).setWidth n).toNat
  rw [toNat_setWidth, toNat_setWidth, Nat.mod_eq_of_lt hmod]

end Bpfvm.Jit
