import Mathlib.Data.List.Basic
import Mathlib.Tactic.Common

/-!
# Flat memories

A flat memory is a partial function from addresses to cells; an address without a cell is
unmapped. The operations replace the cells of one address range and leave every other
address alone.
-/
namespace Bpfvm.FlatMemory

variable {β : Type*}

/-- Consecutive cells from `a` on. -/
def write (m : ℕ → Option β) (a : ℕ) (bs : List β) : ℕ → Option β :=
  fun x => if a ≤ x ∧ x < a + bs.length then bs[x - a]? else m x

/-- The range `[a, a + n)` is mapped, with content `init`. -/
def map (m : ℕ → Option β) (a n : ℕ) (init : ℕ → β) : ℕ → Option β :=
  fun x => if a ≤ x ∧ x < a + n then some (init (x - a)) else m x

/-- The range `[a, a + n)` is unmapped. -/
def unmap (m : ℕ → Option β) (a n : ℕ) : ℕ → Option β :=
  fun x => if a ≤ x ∧ x < a + n then none else m x

variable {bs : List β} {m : ℕ → Option β} {a n : ℕ}

theorem write_of_mem {x : ℕ} (h : a ≤ x) (h' : x < a + bs.length) :
    write m a bs x = bs[x - a]? := if_pos ⟨h, h'⟩

theorem write_of_not_mem {x : ℕ} (h : x < a ∨ a + bs.length ≤ x) :
    write m a bs x = m x := if_neg (by omega)

/-- The `n` cells from `a` on, if all of them are mapped. -/
def read (m : ℕ → Option β) : ℕ → ℕ → Option (List β)
  | _, 0 => some []
  | a, n + 1 => do
    let b ← m a
    let bs ← read m (a + 1) n
    return b :: bs

theorem read_eq_some_iff : read m a n = some bs ↔ bs.length = n ∧ ∀ i < n, m (a + i) = bs[i]? := by
  induction n generalizing a bs with
  | zero =>
    rw [read, Option.some.injEq, eq_comm, ← List.length_eq_zero_iff]
    simp
  | succ n ih =>
    simp only [read, Option.bind_eq_bind, Option.bind_eq_some_iff, Option.pure_def,
      Option.some.injEq]
    constructor
    · rintro ⟨b, hb, bs', hbs, rfl⟩
      obtain ⟨hlen, hall⟩ := ih.mp hbs
      refine ⟨by simp [hlen], ?_⟩
      intro i hi
      cases i with
      | zero => simpa using hb
      | succ i => simpa [Nat.add_assoc, Nat.add_comm 1] using hall i (by omega)
    · rintro ⟨hlen, hall⟩
      cases bs with
      | nil => simp at hlen
      | cons b bs' =>
        refine ⟨b, by simpa using hall 0 (by omega), bs', ih.mpr ⟨by simpa using hlen, ?_⟩, rfl⟩
        intro i hi
        simpa [Nat.add_assoc, Nat.add_comm 1] using hall (i + 1) (by omega)

theorem read_congr {m' : ℕ → Option β} (h : ∀ i < n, m (a + i) = m' (a + i)) :
    read m a n = read m' a n := by
  apply Option.ext
  intro bs
  rw [read_eq_some_iff, read_eq_some_iff]
  refine and_congr_right fun _ => forall_congr' fun i => imp_congr_right fun hi => ?_
  rw [h i hi]

theorem read_write_self (m : ℕ → Option β) (a : ℕ) (bs : List β) :
    read (write m a bs) a bs.length = some bs := by
  rw [read_eq_some_iff]
  refine ⟨rfl, ?_⟩
  intro i hi
  rw [write_of_mem (by omega) (by omega), Nat.add_sub_cancel_left]

theorem read_write_of_disjoint {b : ℕ} (h : a + n ≤ b ∨ b + bs.length ≤ a) :
    read (write m b bs) a n = read m a n := by
  apply read_congr
  intro i hi
  exact write_of_not_mem (by omega)

/-- A read starts with every shorter read of the same place. -/
theorem read_append {k : ℕ} {cs : List β} (h : read m a n = some bs) (h' : read m a k = some cs)
    (hk : k ≤ n) : ∃ rest, bs = cs ++ rest := by
  obtain ⟨hlen, hall⟩ := read_eq_some_iff.mp h
  obtain ⟨hlen', hall'⟩ := read_eq_some_iff.mp h'
  refine ⟨bs.drop k, ?_⟩
  have htake : bs.take k = cs := by
    apply List.ext_getElem?
    intro i
    by_cases hi : i < k
    · rw [List.getElem?_take_of_lt hi, ← hall i (by omega), hall' i hi]
    · rw [List.getElem?_eq_none (by rw [List.length_take]; omega),
        List.getElem?_eq_none (by omega)]
  rw [← htake, List.take_append_drop]

/-- A write over the front of a block. -/
theorem read_write_front {front front' rest : List β}
    (h : read m a (front ++ rest).length = some (front ++ rest))
    (hlen : front'.length = front.length) :
    read (write m a front') a (front' ++ rest).length = some (front' ++ rest) := by
  rw [read_eq_some_iff] at h ⊢
  refine ⟨rfl, fun i hi => ?_⟩
  rw [List.length_append] at hi
  by_cases hf : i < front'.length
  · rw [write_of_mem (by omega) (by omega), Nat.add_sub_cancel_left,
      List.getElem?_append_left hf]
  · rw [write_of_not_mem (by omega), h.2 i (by rw [List.length_append]; omega),
      List.getElem?_append_right (by omega), List.getElem?_append_right (by omega), hlen]

end Bpfvm.FlatMemory
