import Mathlib.Tactic.Common

/-!
# Runs of labelled transition systems

A run takes labelled steps one after the other. A property that holds at the start and is
kept by every step holds in every state of the run; a relation to the states of a second
system that every step keeps, with the second system driven by the labels, holds at the end.
-/
namespace Bpfvm

variable {σ ι τ : Type*}

/-- `Run step s l s'`: from `s`, steps with the labels `l` in this order lead to `s'`. -/
inductive Run (step : σ → ι → σ → Prop) : σ → List ι → σ → Prop where
  | nil (s : σ) : Run step s [] s
  | snoc {s s' s'' : σ} {l : List ι} {i : ι} (h : Run step s l s') (hs : step s' i s'') :
      Run step s (l ++ [i]) s''

variable {R : σ → τ → Prop} {t : τ}

namespace Run

variable {step : σ → ι → σ → Prop} {s s' s'' : σ} {l l' : List ι}

theorem single {i : ι} (h : step s i s') : Run step s [i] s' := snoc (nil s) h

theorem append (h : Run step s l s') (h' : Run step s' l' s'') :
    Run step s (l ++ l') s'' := by
  induction h' with
  | nil => simpa using h
  | snoc _ hs ih =>
    rw [← List.append_assoc]
    exact snoc ih hs

theorem cons {i : ι} (hs : step s i s') (h : Run step s' l s'') : Run step s (i :: l) s'' :=
  (single hs).append h

theorem mono {step' : σ → ι → σ → Prop} (h : Run step s l s')
    (hm : ∀ s i s', step s i s' → step' s i s') : Run step' s l s' := by
  induction h with
  | nil => exact nil _
  | snoc _ hs ih => exact snoc ih (hm _ _ _ hs)

/-- The invariant rule. -/
theorem invariant {P : σ → Prop} (h : Run step s l s') (h₀ : P s)
    (hstep : ∀ s i s', P s → step s i s' → P s') : P s' := by
  induction h with
  | nil => exact h₀
  | snoc _ hs ih => exact hstep _ _ _ ih hs

/-- The simulation rule, for a second system that is a function of the labels. -/
theorem simulation {next : τ → ι → τ} (h : Run step s l s') (h₀ : R s t)
    (hstep : ∀ s i s' t, R s t → step s i s' → R s' (next t i)) : R s' (l.foldl next t) := by
  induction h with
  | nil => exact h₀
  | snoc _ hs ih =>
    rw [List.foldl_append]
    exact hstep _ _ _ _ ih hs

/-- The simulation rule for a monitor that reads the events of each step and may refuse one. -/
theorem accepted {ε : Type*} {step : σ → List ε → σ → Prop} {l : List (List ε)}
    {next : τ → ε → Option τ} (h : Run step s l s') (h₀ : R s t)
    (hstep : ∀ s es s' t, R s t → step s es s' → ∃ t', es.foldlM next t = some t' ∧ R s' t') :
    ∃ t', l.flatten.foldlM next t = some t' ∧ R s' t' := by
  induction h with
  | nil => exact ⟨t, rfl, h₀⟩
  | snoc _ hs ih =>
    obtain ⟨t', ht, hR⟩ := ih
    obtain ⟨t'', ht', hR'⟩ := hstep _ _ _ _ hR hs
    refine ⟨t'', ?_, hR'⟩
    rw [List.flatten_append, List.foldlM_append, ht]
    simpa using ht'

/-- The simulation rule for a second system that answers each step with a run of its own, whose
events are what is shown of the step. -/
theorem forward {ε : Type*} {step₂ : τ → List ε → τ → Prop} {shown : ι → List ε}
    (h : Run step s l s') (h₀ : R s t) (hstep : ∀ s i s' t, R s t → step s i s' →
      ∃ l₂ t', Run step₂ t l₂ t' ∧ l₂.flatten = shown i ∧ R s' t') :
    ∃ l₂ t', Run step₂ t l₂ t' ∧ l₂.flatten = l.flatMap shown ∧ R s' t' := by
  induction h with
  | nil => exact ⟨[], t, nil t, rfl, h₀⟩
  | snoc _ hs ih =>
    obtain ⟨l₂, t', hrun, hl, hR⟩ := ih
    obtain ⟨l₃, t'', hrun', hl', hR'⟩ := hstep _ _ _ _ hR hs
    refine ⟨l₂ ++ l₃, t'', hrun.append hrun', ?_, hR'⟩
    rw [List.flatten_append, hl, hl', List.flatMap_append, List.flatMap_singleton]

/-- A run along which a rank falls with every step is no longer than the rank. -/
theorem length_le_rank {P : σ → Prop} {rank : σ → ℕ} (h : Run step s l s') (h₀ : P s)
    (hstep : ∀ s i s', P s → step s i s' → P s' ∧ rank s' < rank s) :
    P s' ∧ l.length + rank s' ≤ rank s := by
  induction h with
  | nil => exact ⟨h₀, by simp⟩
  | snoc _ hs ih =>
    obtain ⟨hP, hle⟩ := ih
    obtain ⟨hP', hlt⟩ := hstep _ _ _ hP hs
    refine ⟨hP', ?_⟩
    rw [List.length_append, List.length_singleton]
    omega

/-- The steps of a partial function, taken one after the other. -/
theorem of_foldlM {f : σ → ι → Option σ} (h : l.foldlM f s = some s') :
    Run (fun s i s' => f s i = some s') s l s' := by
  induction l generalizing s with
  | nil =>
    cases h
    exact nil _
  | cons i l ih =>
    rw [List.foldlM_cons] at h
    obtain ⟨s₁, hs, hl⟩ := Option.bind_eq_some_iff.mp h
    exact cons hs (ih hl)

/-- The steps of a partial function, each taken where a test of the step succeeds. -/
theorem of_foldlM_if {f : σ → ι → Option σ} {C : σ → ι → Prop} [∀ s i, Decidable (C s i)]
    (h : l.foldlM (fun s i => if C s i then f s i else none) s = some s') :
    Run (fun s i s' => f s i = some s' ∧ C s i) s l s' := by
  refine (of_foldlM h).mono fun s i s' hs => ?_
  split_ifs at hs with hc
  exact ⟨hs, hc⟩

/-- The steps that a list of actions makes, each where a test succeeds, with what they show. -/
def play {α : Type*} (f : σ → α → Option (ι × σ)) (C : σ → α → Prop) [∀ s a, Decidable (C s a)]
    (s : σ) : List α → Option (List ι × σ)
  | [] => some ([], s)
  | a :: l =>
    if C s a then
      (f s a).bind fun x => (play f C x.2 l).map fun y => (x.1 :: y.1, y.2)
    else none

theorem of_play {α : Type*} {f : σ → α → Option (ι × σ)} {C : σ → α → Prop}
    [∀ s a, Decidable (C s a)] {as : List α} (h : play f C s as = some (l, s')) :
    Run (fun s i s' => ∃ a, f s a = some (i, s') ∧ C s a) s l s' := by
  induction as generalizing s l with
  | nil =>
    cases h
    exact nil _
  | cons a as ih =>
    rw [play, Option.ite_none_right_eq_some] at h
    obtain ⟨hc, h⟩ := h
    obtain ⟨x, hx, hy⟩ := Option.bind_eq_some_iff.mp h
    obtain ⟨y, hplay, he⟩ := Option.map_eq_some_iff.mp hy
    cases he
    exact cons ⟨a, hx, hc⟩ (ih hplay)

/-- A run with a result that the actions can be seen to have. -/
theorem exists_of_play {α β : Type*} {f : σ → α → Option (ι × σ)} {C : σ → α → Prop}
    [∀ s a, Decidable (C s a)] (as : List α) (g : List ι × σ → β) {x : β}
    (h : (play f C s as).map g = some x) :
    ∃ l s', Run (fun s i s' => ∃ a, f s a = some (i, s') ∧ C s a) s l s' ∧ g (l, s') = x := by
  obtain ⟨⟨l, s'⟩, hplay, hx⟩ := Option.map_eq_some_iff.mp h
  exact ⟨l, s', of_play hplay, hx⟩

end Run
end Bpfvm
