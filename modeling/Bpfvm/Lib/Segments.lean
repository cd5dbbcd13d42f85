import Mathlib.Data.List.Basic
import Mathlib.Data.List.Sort
import Mathlib.Data.List.TakeWhile
import Mathlib.Tactic.Common

/-!
# Sorted interval lists

A list of half-open intervals `[lo x, hi x)` kept in address order, with the two
operations an address map needs: the last interval starting at or below a point
(an upper-bound search followed by one step back), and insertion before the first
interval that does not start below the new one. For a sorted list of nonempty
pairwise disjoint intervals, the search is the same as membership.
-/
namespace Bpfvm.Segments
open List

variable {α : Type*} (lo hi : α → ℕ)

/-- Nonempty intervals, each ending at or before the next one starts. -/
structure Sorted (l : List α) : Prop where
  nonempty : ∀ x ∈ l, lo x < hi x
  ordered : l.Pairwise (fun x y => hi x ≤ lo y)

/-- The element before the first one that starts above `a`. -/
def lastBelow (l : List α) (a : ℕ) : Option α := (l.takeWhile (fun x => lo x ≤ a)).getLast?

/-- Replacement of that element. -/
def replaceBelow (l : List α) (a : ℕ) (y : α) : List α :=
  l.set ((l.takeWhile (fun x => lo x ≤ a)).length - 1) y

/-- Insertion before the first element that does not start below `x`. -/
def insertBefore (l : List α) (x : α) : List α :=
  l.takeWhile (fun y => lo y < lo x) ++ x :: l.dropWhile (fun y => lo y < lo x)

variable {lo hi}

variable {x y : α} {a : ℕ}

namespace Sorted

variable {l l₁ l₂ : List α}

theorem nil : Sorted lo hi ([] : List α) := ⟨by simp, List.Pairwise.nil⟩

theorem sublist (h : Sorted lo hi l₂) (hs : l₁.Sublist l₂) : Sorted lo hi l₁ :=
  ⟨fun x hx => h.nonempty x (hs.subset hx), h.ordered.sublist hs⟩

theorem append_iff : Sorted lo hi (l₁ ++ l₂) ↔
    Sorted lo hi l₁ ∧ Sorted lo hi l₂ ∧ ∀ x ∈ l₁, ∀ y ∈ l₂, hi x ≤ lo y := by
  constructor
  · intro h
    refine ⟨h.sublist (sublist_append_left _ _),
      h.sublist (sublist_append_right _ _), ?_⟩
    exact (pairwise_append.mp h.ordered).2.2
  · rintro ⟨h₁, h₂, h₃⟩
    refine ⟨?_, pairwise_append.mpr ⟨h₁.ordered, h₂.ordered, h₃⟩⟩
    intro x hx
    rcases mem_append.mp hx with hx | hx
    · exact h₁.nonempty x hx
    · exact h₂.nonempty x hx

theorem cons_iff : Sorted lo hi (x :: l) ↔
    lo x < hi x ∧ (∀ y ∈ l, hi x ≤ lo y) ∧ Sorted lo hi l := by
  constructor
  · intro h
    have hp := pairwise_cons.mp h.ordered
    exact ⟨h.nonempty x (by simp), hp.1, h.sublist (sublist_cons_self x l)⟩
  · rintro ⟨hx, hy, h⟩
    refine ⟨?_, pairwise_cons.mpr ⟨hy, h.ordered⟩⟩
    intro z hz
    rcases mem_cons.mp hz with rfl | hz
    · exact hx
    · exact h.nonempty z hz

/-- Two members that share a point are equal. -/
theorem eq_of_mem (h : Sorted lo hi l) (hx : x ∈ l) (hy : y ∈ l) (hxa : lo x ≤ a) (hax : a < hi x)
    (hya : lo y ≤ a) (hay : a < hi y) : x = y := by
  induction l with
  | nil => simp at hx
  | cons z l ih =>
    obtain ⟨-, hz, hl⟩ := cons_iff.mp h
    rcases mem_cons.mp hx with hxz | hx <;> rcases mem_cons.mp hy with hyz | hy
    · rw [hxz, hyz]
    · have := hz y hy
      subst hxz
      omega
    · have := hz x hx
      subst hyz
      omega
    · exact ih hl hx hy

/-- Replacing one member by a sorted list of intervals inside it keeps the order. -/
theorem replace {ps : List α} (h : Sorted lo hi (l₁ ++ x :: l₂)) (hps : Sorted lo hi ps)
    (hin : ∀ p ∈ ps, lo x ≤ lo p ∧ hi p ≤ hi x) : Sorted lo hi (l₁ ++ (ps ++ l₂)) := by
  obtain ⟨h₁, h₂, h₃⟩ := append_iff.mp h
  obtain ⟨-, hx, h₂⟩ := cons_iff.mp h₂
  refine append_iff.mpr ⟨h₁, append_iff.mpr ⟨hps, h₂, ?_⟩, ?_⟩
  · intro p hp y hy
    exact (hin p hp).2.trans (hx y hy)
  · intro y hy p hp
    rcases mem_append.mp hp with hp | hp
    · exact (h₃ y hy x (by simp)).trans (hin p hp).1
    · exact h₃ y hy p (by simp [hp])

end Sorted

theorem lastBelow_cons (x : α) (l : List α) (a : ℕ) :
    lastBelow lo (x :: l) a =
      if lo x ≤ a then some ((lastBelow lo l a).getD x) else none := by
  by_cases h : lo x ≤ a
  · simp [lastBelow, h, List.getLast?_cons]
  · simp [lastBelow, h]

variable {l : List α}

theorem lastBelow_mem (h : lastBelow lo l a = some x) : x ∈ l ∧ lo x ≤ a := by
  have hx : x ∈ l.takeWhile (fun y => lo y ≤ a) := mem_of_getLast? h
  exact ⟨(takeWhile_sublist _).subset hx, by simpa using mem_takeWhile_imp hx⟩

/-- The element found splits the list, and replacing it keeps the rest. -/
theorem lastBelow_split (h : lastBelow lo l a = some x) :
    ∃ pre post, l = pre ++ x :: post ∧ ∀ y, replaceBelow lo l a y = pre ++ y :: post := by
  obtain ⟨pre, hpre⟩ := List.getLast?_eq_some_iff.mp h
  have hl : l = pre ++ x :: l.dropWhile (fun y => lo y ≤ a) := by
    conv_lhs => rw [← takeWhile_append_dropWhile (p := fun y => decide (lo y ≤ a)) (l := l)]
    rw [hpre]
    simp
  refine ⟨pre, _, hl, fun y => ?_⟩
  have hlen : (l.takeWhile (fun y => lo y ≤ a)).length - 1 = pre.length := by
    rw [hpre]
    simp
  rw [replaceBelow, hlen]
  conv_lhs => rw [hl]
  simp

/-- In a sorted list the search finds exactly the member that contains the point. -/
theorem lastBelow_eq_some_of_mem (h : Sorted lo hi l) (hx : x ∈ l) (hlo : lo x ≤ a)
    (hhi : a < hi x) : lastBelow lo l a = some x := by
  induction l with
  | nil => simp at hx
  | cons y l ih =>
    obtain ⟨hy, hyl, hl⟩ := Sorted.cons_iff.mp h
    rcases mem_cons.mp hx with rfl | hx
    · have hnone : lastBelow lo l a = none := by
        cases l with
        | nil => simp [lastBelow]
        | cons z l =>
          have := hyl z (by simp)
          rw [lastBelow_cons, if_neg (by omega)]
      rw [lastBelow_cons, if_pos hlo, hnone]
      rfl
    · have := hyl x hx
      rw [lastBelow_cons, if_pos (by omega), ih hl hx]
      rfl

theorem insertBefore_perm (l : List α) (x : α) : (insertBefore lo l x).Perm (x :: l) := by
  have h := takeWhile_append_dropWhile (p := fun z => decide (lo z < lo x)) (l := l)
  conv_rhs => rw [← h]
  exact perm_middle

/-- Points with no start in between have the same last element below them. -/
theorem lastBelow_eq_of_gap {b : ℕ} (hab : a ≤ b) (h : ∀ x ∈ l, ¬ (a < lo x ∧ lo x ≤ b)) :
    lastBelow lo l b = lastBelow lo l a := by
  induction l with
  | nil => rfl
  | cons y l ih =>
    have hy := h y (by simp)
    rw [lastBelow_cons, lastBelow_cons, ih fun x hx => h x (by simp [hx])]
    by_cases hle : lo y ≤ a
    · rw [if_pos hle, if_pos (by omega)]
    · rw [if_neg hle, if_neg (by omega)]

/-- In a list ordered by starts nothing starts between the element found and the point. -/
theorem le_of_lastBelow (h : l.Pairwise fun x y => lo x ≤ lo y) (hx : lastBelow lo l a = some x)
    (hy : y ∈ l) (hya : lo y ≤ a) : lo y ≤ lo x := by
  induction l with
  | nil => simp at hy
  | cons z l ih =>
    obtain ⟨hz, hl⟩ := pairwise_cons.mp h
    rw [lastBelow_cons] at hx
    split_ifs at hx with hza
    have hx' := Option.some.inj hx
    cases hrest : lastBelow lo l a with
    | none =>
      rw [hrest, Option.getD_none] at hx'
      rcases mem_cons.mp hy with rfl | hy
      · exact hx' ▸ le_rfl
      · cases l with
        | nil => simp at hy
        | cons t l =>
          rw [lastBelow_cons] at hrest
          split_ifs at hrest with hta
          have htz := pairwise_cons.mp hl
          rcases mem_cons.mp hy with rfl | hy
          · omega
          · have := htz.1 y hy
            omega
    | some t =>
      rw [hrest, Option.getD_some] at hx'
      subst hx'
      rcases mem_cons.mp hy with rfl | hy
      · exact hz t (lastBelow_mem hrest).1
      · exact ih hl hrest hy

/-- Insertion changes the search at the start of the new element only to the new element. -/
theorem lastBelow_insertBefore (l : List α) (x : α) :
    lastBelow lo (insertBefore lo l x) (lo x) = some x ∨
      lastBelow lo (insertBefore lo l x) (lo x) = lastBelow lo l (lo x) := by
  induction l with
  | nil => simp [insertBefore, lastBelow]
  | cons y l ih =>
    by_cases hlt : lo y < lo x
    · have he : insertBefore lo (y :: l) x = y :: insertBefore lo l x := by
        simp [insertBefore, hlt]
      rw [he, lastBelow_cons, lastBelow_cons, if_pos hlt.le, if_pos hlt.le]
      rcases ih with ih | ih
      · exact .inl (by rw [ih, Option.getD_some])
      · exact .inr (by rw [ih])
    · have he : insertBefore lo (y :: l) x = x :: y :: l := by simp [insertBefore, hlt]
      rw [he, lastBelow_cons, if_pos le_rfl]
      cases hy : lastBelow lo (y :: l) (lo x) with
      | none => exact .inl rfl
      | some z => exact .inr rfl

theorem pairwise_insertBefore (h : l.Pairwise fun x y => lo x ≤ lo y) (x : α) :
    (insertBefore lo l x).Pairwise fun x y => lo x ≤ lo y := by
  induction l with
  | nil => simp [insertBefore]
  | cons y l ih =>
    obtain ⟨hy, hl⟩ := pairwise_cons.mp h
    by_cases hlt : lo y < lo x
    · have he : insertBefore lo (y :: l) x = y :: insertBefore lo l x := by
        simp [insertBefore, hlt]
      rw [he]
      refine pairwise_cons.mpr ⟨fun z hz => ?_, ih hl⟩
      have hmem : z ∈ insertBefore lo l x := hz
      rw [(insertBefore_perm l x).mem_iff] at hmem
      rcases mem_cons.mp hmem with rfl | hz
      · exact hlt.le
      · exact hy z hz
    · have he : insertBefore lo (y :: l) x = x :: y :: l := by simp [insertBefore, hlt]
      rw [he]
      refine pairwise_cons.mpr ⟨fun z hz => ?_, h⟩
      rcases mem_cons.mp hz with rfl | hz
      · omega
      · have := hy z hz
        omega

@[simp] theorem mem_insertBefore : y ∈ insertBefore lo l x ↔ y = x ∨ y ∈ l := by
  have hl : y ∈ l ↔ y ∈ l.takeWhile (fun z => lo z < lo x) ∨
      y ∈ l.dropWhile (fun z => lo z < lo x) := by
    conv_lhs => rw [← takeWhile_append_dropWhile (p := fun z => decide (lo z < lo x)) (l := l)]
    exact mem_append
  simp only [insertBefore, mem_append, mem_cons, hl]
  tauto

/-- Inserting above every member appends. -/
theorem insertBefore_of_forall_lt (h : ∀ y ∈ l, lo y < lo x) : insertBefore lo l x = l ++ [x] := by
  have ht : l.takeWhile (fun y => lo y < lo x) = l :=
    takeWhile_eq_self_iff.mpr (by simpa using h)
  have hd : l.dropWhile (fun y => lo y < lo x) = [] :=
    dropWhile_eq_nil_iff.mpr (by simpa using h)
  rw [insertBefore, ht, hd]

/-- Inserting an interval disjoint from every member keeps the list sorted. -/
theorem Sorted.insertBefore (h : Sorted lo hi l) (hx : lo x < hi x)
    (hd : ∀ y ∈ l, hi y ≤ lo x ∨ hi x ≤ lo y) : Sorted lo hi (insertBefore lo l x) := by
  induction l with
  | nil => simpa [Segments.insertBefore] using Sorted.cons_iff.mpr ⟨hx, by simp, Sorted.nil⟩
  | cons y l ih =>
    obtain ⟨hy, hyl, hl⟩ := Sorted.cons_iff.mp h
    by_cases hlt : lo y < lo x
    · have he : Segments.insertBefore lo (y :: l) x = y :: Segments.insertBefore lo l x := by
        simp [Segments.insertBefore, hlt]
      rw [he]
      refine Sorted.cons_iff.mpr ⟨hy, ?_, ih hl (fun z hz => hd z (by simp [hz]))⟩
      intro z hz
      rcases mem_insertBefore.mp hz with rfl | hz
      · have := hd y (by simp)
        omega
      · exact hyl z hz
    · have he : Segments.insertBefore lo (y :: l) x = x :: y :: l := by
        simp [Segments.insertBefore, hlt]
      rw [he]
      have hxy : hi x ≤ lo y := by
        have := hd y (by simp)
        omega
      refine Sorted.cons_iff.mpr ⟨hx, ?_, h⟩
      intro z hz
      rcases mem_cons.mp hz with rfl | hz
      · exact hxy
      · have := hyl z hz
        omega

/-- Inserting the members of a sorted list one after the other rebuilds it. -/
theorem foldl_insertBefore (acc : List α) (h : Sorted lo hi (acc ++ l)) :
    l.foldl (Segments.insertBefore lo) acc = acc ++ l := by
  induction l generalizing acc with
  | nil => simp
  | cons x l ih =>
    have hx : ∀ y ∈ acc, lo y < lo x := by
      intro y hy
      have hn := h.nonempty y (by simp [hy])
      have ho := (Sorted.append_iff.mp h).2.2 y hy x (by simp)
      omega
    rw [foldl_cons, insertBefore_of_forall_lt hx, ih _ (by simpa using h)]
    simp

end Bpfvm.Segments
