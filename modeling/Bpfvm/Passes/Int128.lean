import Bpfvm.Lib.LittleEndian
import Mathlib.Tactic.Ring

/-!
# 128-bit integers

The machine has no 128-bit arithmetic. `BpfSoftFp` makes products, shifts and overflow tests out of
64-bit operations and the high half of a product, `BPF_FP_UMULH`. A product is made of the low
halves of its operands alone.
-/
namespace Bpfvm.Passes
open BitVec Nat

/-- `BPF_FP_UMULH` in `do_softfp`. -/
def umulh (a b : U64) : U64 := ((a.setWidth 128 * b.setWidth 128) >>> 64).setWidth 64

/-- `(zext hi << 64) | zext lo`. -/
def join (hi lo : U64) : BitVec 128 := hi.setWidth 128 <<< 64 ||| lo.setWidth 128

def low (x : BitVec 128) : U64 := x.setWidth 64

def high (x : BitVec 128) : U64 := (x >>> 64).setWidth 64

/-! ## Products -/

/-- An operand of type `i128`, by the instruction that produces it. -/
inductive Operand where
  | zext (x : U64)
  | and (x c : BitVec 128)
  | const (c : BitVec 128)
  | other (x : BitVec 128)

def Operand.value : Operand → BitVec 128
  | .zext x => x.setWidth 128
  | .and x c => x &&& c
  | .const c => c
  | .other x => x

def narrowToI64 : Operand → U64
  | .zext x => x
  | .and x c =>
    -- `c + 1` is a power of two of at most 64 bits
    if c + 1 ≠ 0 ∧ (c + 1) &&& c = 0 ∧ (c + 1).toNat < 2 ^ 64 then low x &&& low c
    else low (x &&& c)
  | .const c => low c
  | .other x => low x

/-- The lowered `mul i128`. -/
def mulI128 (a b : Operand) : BitVec 128 :=
  let a64 := narrowToI64 a
  let b64 := narrowToI64 b
  join (umulh a64 b64) (a64 * b64)

theorem toNat_join (hi lo : U64) : (join hi lo).toNat = hi.toNat * 2 ^ 64 + lo.toNat := by
  have hh := hi.isLt
  rw [join, toNat_or, toNat_shiftLeft, toNat_setWidth, toNat_setWidth,
    mod_eq_of_lt (show hi.toNat < 2 ^ 128 by omega),
    mod_eq_of_lt (show lo.toNat < 2 ^ 128 by omega),
    Nat.shiftLeft_eq, mod_eq_of_lt (by omega), ← Nat.shiftLeft_eq,
    ← shiftLeft_add_eq_or_of_lt lo.isLt]

theorem toNat_umulh (a b : U64) : (umulh a b).toNat = a.toNat * b.toNat / 2 ^ 64 := by
  have hlt : a.toNat * b.toNat < 2 ^ 64 * 2 ^ 64 := mul_lt_mul'' a.isLt b.isLt
  have ha := a.isLt
  have hb := b.isLt
  simp only [umulh, toNat_setWidth, toNat_ushiftRight, toNat_mul,
    shiftRight_eq_div_pow]
  rw [mod_eq_of_lt (show a.toNat < 2 ^ 128 by omega),
    mod_eq_of_lt (show b.toNat < 2 ^ 128 by omega)]
  omega

theorem join_umulh (a b : U64) : (join (umulh a b) (a * b)).toNat = a.toNat * b.toNat := by
  have hlt : a.toNat * b.toNat < 2 ^ 64 * 2 ^ 64 := mul_lt_mul'' a.isLt b.isLt
  rw [toNat_join, toNat_umulh, toNat_mul]
  omega

theorem narrowToI64_eq (a : Operand) : narrowToI64 a = low a.value := by
  cases a with
  | zext x => simp [narrowToI64, Operand.value, low]
  | and x c =>
    rw [narrowToI64, Operand.value]
    split_ifs
    · simp [low]
    · rfl
  | const c => rfl
  | other x => rfl

theorem toNat_eq (x : BitVec 128) : x.toNat = (high x).toNat * 2 ^ 64 + (low x).toNat := by
  simp [high, low]
  omega

/-- The lowered product is exact if and only if the products across the halves vanish. -/
theorem mulI128_eq_iff (a b : Operand) : mulI128 a b = a.value * b.value ↔
    high a.value * low b.value + low a.value * high b.value = 0 := by
  rw [mulI128, narrowToI64_eq, narrowToI64_eq, ← toNat_inj, ← toNat_inj,
    join_umulh, toNat_mul, toNat_eq a.value, toNat_eq b.value]
  have hlt : (low a.value).toNat * (low b.value).toNat < 2 ^ 64 * 2 ^ 64 :=
    mul_lt_mul'' (low a.value).isLt (low b.value).isLt
  rw [toNat_add, toNat_mul, toNat_mul, ← add_mod]
  generalize (high a.value).toNat = ah at *
  generalize (low a.value).toNat = al at *
  generalize (high b.value).toNat = bh at *
  generalize (low b.value).toNat = bl at *
  have hexpand : (ah * 2 ^ 64 + al) * (bh * 2 ^ 64 + bl) =
      al * bl + 2 ^ 64 * (ah * bl + al * bh) + 2 ^ 128 * (ah * bh) := by ring
  rw [hexpand, add_mul_mod_self_left]
  change _ ↔ _ = 0
  omega

theorem mulI128_high_lost : mulI128 (.other 0x10000000000000000) (.const 1) = 0 ∧
    (Operand.other 0x10000000000000000).value * (Operand.const 1).value = 0x10000000000000000 := by
  decide

/-! ## Shifts

A 64-bit shift by 64 or more is poison, modelled as `none`. A `select` passes on the arm that its
condition chooses and no poison of the other. -/

def shl (x k : U64) : Option U64 :=
  if k.toNat < 64 then some (x <<< k.toNat) else none

def lshr (x k : U64) : Option U64 :=
  if k.toNat < 64 then some (x >>> k.toNat) else none

/-- `CreateZExt` of an `i128` to `i64`: undone where the operand is itself an extension, ill-typed
otherwise. -/
def zextToI64 : Operand → Option U64
  | .zext x => some x
  | _ => none

/-- The lowered `shl i128`, for an amount that is no constant. -/
def shlI128 (x : BitVec 128) (k : Operand) : Option (BitVec 128) := do
  let xLo := low x
  let xHi := high x
  let k64 ← zextToI64 k
  let kInvM1 := 63 - k64
  let loS := shl xLo k64
  let hiS := do return (← shl xHi k64) ||| (← lshr (← lshr xLo kInvM1) 1)
  let hiB := shl xLo (k64 - 64)
  let lo ← if k64 < 64 then loS else some 0
  let hi ← if k64 < 64 then hiS else hiB
  return join hi lo

/-- The lowered `lshr i128`. -/
def lshrI128 (x : BitVec 128) (k : Operand) : Option (BitVec 128) := do
  let xLo := low x
  let xHi := high x
  let k64 ← zextToI64 k
  let kInvM1 := 63 - k64
  let loS := do return (← lshr xLo k64) ||| (← shl (← shl xHi kInvM1) 1)
  let hiS := lshr xHi k64
  let loB := lshr xHi (k64 - 64)
  let lo ← if k64 < 64 then loS else loB
  let hi ← if k64 < 64 then hiS else some 0
  return join hi lo

/-- The lowered `umul.with.overflow.i64`: what `extractvalue` yields at index 0 and at index 1. -/
def umulWithOverflow (a b : U64) : U64 × Bool := (a * b, umulh a b ≠ 0)

@[grind =]
theorem getLsbD_low (x : BitVec 128) (i : ℕ) :
    (low x).getLsbD i = (decide (i < 64) && x.getLsbD i) := by
  simp [low]

@[grind =]
theorem getLsbD_high (x : BitVec 128) (i : ℕ) :
    (high x).getLsbD i = (decide (i < 64) && x.getLsbD (64 + i)) := by
  simp [high]

theorem low_shiftLeft (x : BitVec 128) (k : ℕ) :
    low (x <<< k) = if k < 64 then low x <<< k else 0 := by
  apply eq_of_getLsbD_eq
  intro i hi
  split_ifs <;> grind

theorem high_shiftLeft (x : BitVec 128) (k : ℕ) : high (x <<< k) =
    if k < 64 then high x <<< k ||| low x >>> (63 - k) >>> 1 else low x <<< (k - 64) := by
  apply eq_of_getLsbD_eq
  intro i hi
  split_ifs <;> grind

theorem high_ushiftRight (x : BitVec 128) (k : ℕ) :
    high (x >>> k) = if k < 64 then high x >>> k else 0 := by
  apply eq_of_getLsbD_eq
  intro i hi
  split_ifs <;> grind

theorem low_ushiftRight (x : BitVec 128) (k : ℕ) : low (x >>> k) =
    if k < 64 then low x >>> k ||| high x <<< (63 - k) <<< 1 else high x >>> (k - 64) := by
  apply eq_of_getLsbD_eq
  intro i hi
  split_ifs <;> grind

theorem join_halves (x : BitVec 128) : join (high x) (low x) = x := by
  rw [← toNat_inj, toNat_join, ← toNat_eq]

theorem amount_cases {k : U64} (h : k.toNat < 128) :
    k.toNat < 64 ∧ (63#64 - k).toNat = 63 - k.toNat ∨
      ¬ k.toNat < 64 ∧ (k - 64#64).toNat = k.toNat - 64 := by
  bv_omega

theorem shlI128_zext {x : BitVec 128} {k : U64} (h : k.toNat < 128) :
    shlI128 x (.zext k) = some (x <<< k.toNat) := by
  rw [shlI128, ← join_halves (x <<< _), low_shiftLeft, high_shiftLeft]
  obtain ⟨hs, hm⟩ | ⟨hs, hm⟩ := amount_cases h
  · simp [-toNat_sub, zextToI64, shl, lshr, lt_def, hs, hm,
      show 63 - k.toNat < 64 by omega]
  · simp [-toNat_sub, zextToI64, shl, lt_def, hs, hm,
      show k.toNat - 64 < 64 by omega]

theorem lshrI128_zext {x : BitVec 128} {k : U64} (h : k.toNat < 128) :
    lshrI128 x (.zext k) = some (x >>> k.toNat) := by
  rw [lshrI128, ← join_halves (x >>> _), low_ushiftRight, high_ushiftRight]
  obtain ⟨hs, hm⟩ | ⟨hs, hm⟩ := amount_cases h
  · simp [-toNat_sub, zextToI64, shl, lshr, lt_def, hs, hm,
      show 63 - k.toNat < 64 by omega]
  · simp [-toNat_sub, zextToI64, lshr, lt_def, hs, hm,
      show k.toNat - 64 < 64 by omega]

/-- The lowered shifts multiply and divide by a power of two if and only if the amount has been
extended to 128 bits; the overflow test is exact. -/
theorem wide_exact_iff {k : Operand} (hk : k.value.toNat < 128) (x : BitVec 128)
    (a b : U64) :
    ((shlI128 x k).map BitVec.toNat = some (x.toNat * 2 ^ k.value.toNat % 2 ^ 128) ∧
      (lshrI128 x k).map BitVec.toNat = some (x.toNat / 2 ^ k.value.toNat) ↔ ∃ n, k = .zext n) ∧
      (umulWithOverflow a b).1.toNat = a.toNat * b.toNat % 2 ^ 64 ∧
      ((umulWithOverflow a b).2 ↔ 2 ^ 64 ≤ a.toNat * b.toNat) := by
  refine ⟨?_, toNat_mul a b, ?_⟩
  · cases k with
    | zext n =>
      have hn : (Operand.zext n).value.toNat = n.toNat := by
        rw [Operand.value, toNat_setWidth]
        omega
      rw [hn] at hk ⊢
      rw [shlI128_zext hk, lshrI128_zext hk, Option.map_some, Option.map_some,
        toNat_shiftLeft, Nat.shiftLeft_eq, toNat_ushiftRight,
        shiftRight_eq_div_pow]
      simp
    | and | const | other => simp [shlI128, zextToI64]
  · rw [umulWithOverflow, decide_eq_true_iff, ne_eq, ← toNat_inj, toNat_umulh]
    change ¬ _ = 0 ↔ _
    omega

theorem wide_exact_sixty_four : (shlI128 3 (.zext 64)).map BitVec.toNat = some (3 * 2 ^ 64) :=
  ((wide_exact_iff (k := .zext 64) (by decide) 3 0 0).1.mpr ⟨64, rfl⟩).1

/-- An amount that has been loaded. -/
theorem shlI128_loaded : (Operand.other 1).value.toNat < 128 ∧ shlI128 3 (.other 1) = none := by
  decide

end Bpfvm.Passes
