import Mathlib.Data.BitVec
import Mathlib.Data.Nat.Digits.Defs
import Mathlib.Tactic.Ring

/-!
# Little-endian bytes

A number as the list of its low bytes, least significant first, and back.
-/
namespace Bpfvm

abbrev U32 := BitVec 32
abbrev U64 := BitVec 64

end Bpfvm

namespace Bpfvm.LittleEndian

/-- The low `n` bytes of `x`. -/
def bytes : ℕ → ℕ → List (BitVec 8)
  | 0, _ => []
  | n + 1, x => BitVec.ofNat 8 x :: bytes n (x / 256)

/-- The number with the given bytes. -/
def value : List (BitVec 8) → ℕ
  | [] => 0
  | b :: bs => b.toNat + 256 * value bs

@[simp] theorem length_bytes (n x : ℕ) : (bytes n x).length = n := by
  induction n generalizing x with
  | zero => rfl
  | succ n ih => simp [bytes, ih]

theorem value_lt (bs : List (BitVec 8)) : value bs < 256 ^ bs.length := by
  induction bs with
  | nil => exact Nat.one_pos
  | cons b bs ih =>
    have hb : b.toNat < 256 := b.isLt
    rw [value, List.length_cons, Nat.pow_succ]
    omega

theorem value_bytes (n x : ℕ) : value (bytes n x) = x % 256 ^ n := by
  induction n generalizing x with
  | zero => simp [bytes, value, Nat.mod_one]
  | succ n ih =>
    have hb : (BitVec.ofNat 8 x).toNat = x % 256 := BitVec.toNat_ofNat x 8
    rw [bytes, value, ih, hb, Nat.pow_succ, Nat.mul_comm (256 ^ n), Nat.mod_mul]

theorem bytes_value (bs : List (BitVec 8)) : bytes bs.length (value bs) = bs := by
  induction bs with
  | nil => rfl
  | cons b bs ih =>
    have hb : b.toNat < 256 := b.isLt
    have hlow : BitVec.ofNat 8 (b.toNat + 256 * value bs) = b := by
      apply BitVec.eq_of_toNat_eq
      rw [BitVec.toNat_ofNat]
      omega
    have hhigh : (b.toNat + 256 * value bs) / 256 = value bs := by omega
    rw [List.length_cons, value, bytes, hlow, hhigh, ih]

/-- Only the low bytes matter. -/
theorem bytes_mod (n x : ℕ) : bytes n (x % 256 ^ n) = bytes n x := by
  have h := bytes_value (bytes n x)
  rwa [length_bytes, value_bytes] at h

end Bpfvm.LittleEndian

namespace Bpfvm

/-- The bytes of a word, least significant first. -/
def wordBytes (x : U64) : List (BitVec 8) := LittleEndian.bytes 8 x.toNat

@[simp] theorem length_wordBytes (x : U64) : (wordBytes x).length = 8 := by
  simp [wordBytes]

@[simp] theorem length_flatMap_wordBytes (xs : List U64) :
    (xs.flatMap wordBytes).length = 8 * xs.length := by
  simp [List.length_flatMap, Nat.mul_comm]

end Bpfvm
