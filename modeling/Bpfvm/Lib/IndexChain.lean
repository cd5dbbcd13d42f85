import Mathlib.Data.List.GetD
import Mathlib.Data.List.Nodup

/-!
# Chains of indices

A table of successors in which 0 ends a chain.
-/
namespace Bpfvm.IndexChain
open List

/-- From `x` the successors run through `l` and then reach 0. -/
def Linked (next : ℕ → ℕ) : ℕ → List ℕ → Prop
  | x, [] => x = 0
  | x, a :: l => x = a ∧ a ≠ 0 ∧ Linked next (next a) l

/-- The first index with `p` on the chain from `x`. -/
def searchFrom (next : ℕ → ℕ) (p : ℕ → Bool) : ℕ → ℕ → Option ℕ
  | 0, _ => none
  | fuel + 1, x => if x = 0 then none else if p x then some x else searchFrom next p fuel (next x)

variable {next next' : ℕ → ℕ} {x a fuel : ℕ} {l : List ℕ}

theorem Linked.searchFrom (h : Linked next x l) (hfuel : l.length < fuel) (p : ℕ → Bool) :
    searchFrom next p fuel x = l.find? p := by
  induction l generalizing x fuel with
  | nil =>
    obtain rfl : x = 0 := h
    cases fuel <;> rfl
  | cons a l ih =>
    obtain ⟨rfl, ha, hl⟩ := h
    obtain ⟨fuel, rfl⟩ : ∃ n, fuel = n + 1 := Nat.exists_eq_add_one.mpr (Nat.zero_lt_of_lt hfuel)
    rw [IndexChain.searchFrom, if_neg ha, List.find?_cons, ih hl (Nat.lt_of_succ_lt_succ hfuel)]
    cases p x <;> rfl

theorem Linked.congr (h : Linked next x l) (hkeep : ∀ i ∈ l, next' i = next i) :
    Linked next' x l := by
  induction l generalizing x with
  | nil => exact h
  | cons a l ih =>
    refine ⟨h.1, h.2.1, ?_⟩
    rw [hkeep a (by simp)]
    exact ih h.2.2 fun i hi => hkeep i (by simp [hi])

/-- Setting the successor of the last index appends to the chain. -/
theorem Linked.snoc (h : Linked next x l) (hne : l ≠ []) (hnd : l.Nodup) (ha : a ≠ 0)
    (hend : next' a = 0) (hlast : next' (l.getLast hne) = a)
    (hkeep : ∀ i ∈ l, i ≠ l.getLast hne → next' i = next i) : Linked next' x (l ++ [a]) := by
  induction l generalizing x with
  | nil => exact absurd rfl hne
  | cons b l ih =>
    obtain ⟨rfl, hb, hl⟩ := h
    refine ⟨rfl, hb, ?_⟩
    by_cases hnil : l = []
    · subst hnil
      exact ⟨hlast, ha, hend⟩
    · rw [getLast_cons hnil] at hlast hkeep
      have hx : x ≠ l.getLast hnil := fun he => (nodup_cons.mp hnd).1 (he ▸ getLast_mem _)
      rw [hkeep x (by simp) hx]
      exact ih hl hnil (nodup_cons.mp hnd).2 hlast fun i hi => hkeep i (by simp [hi])

theorem getD_set {α : Type*} (l : List α) (i j : ℕ) (v d : α) (hi : i < l.length) :
    (l.set i v).getD j d = if j = i then v else l.getD j d := by
  rw [getD_eq_getElem?_getD, List.getElem?_set, getD_eq_getElem?_getD]
  by_cases h : i = j
  · simp [h, h ▸ hi]
  · simp [h, Ne.symm h]

end Bpfvm.IndexChain
