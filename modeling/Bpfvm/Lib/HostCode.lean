import Mathlib.Data.Int.Notation
import Mathlib.Data.List.Basic
import Mathlib.Tactic.Common

/-!
# Pieces of machine code

A piece of code is a list of instructions. Jumps inside a piece are relative, so a piece does the
same wherever it stands: pieces that run off their ends can be put one after the other, and a jump
over a piece is a jump to the next one.
-/
namespace Bpfvm.HostCode

variable {ι σ ε : Type*}

/-- Where control goes behind an instruction: on, by `d` instructions further, or out of the
piece. -/
inductive Flow (ε : Type*) where
  | next
  | jump (d : ℤ)
  | exit (e : ε)

/-- From instruction `i` of the code and state `s`, execution ends in the given state: at the end
of the code, or at an exit. -/
inductive Ends (sem : ι → σ → σ × Flow ε) (code : List ι) : ℕ → σ → σ × Option ε → Prop
  | done {s : σ} : Ends sem code code.length s (s, none)
  | next {i : ℕ} {x : ι} {s s' : σ} {r : σ × Option ε} (hx : code[i]? = some x)
      (hs : sem x s = (s', .next)) (h : Ends sem code (i + 1) s' r) : Ends sem code i s r
  | jump {i j : ℕ} {d : ℤ} {x : ι} {s s' : σ} {r : σ × Option ε} (hx : code[i]? = some x)
      (hs : sem x s = (s', .jump d)) (hj : (j : ℤ) = i + 1 + d) (h : Ends sem code j s' r) :
      Ends sem code i s r
  | exit {i : ℕ} {e : ε} {x : ι} {s s' : σ} (hx : code[i]? = some x)
      (hs : sem x s = (s', .exit e)) : Ends sem code i s (s', some e)

/-- The code runs from its first instruction off its end. -/
def Computes (sem : ι → σ → σ × Flow ε) (code : List ι) (s s' : σ) : Prop :=
  Ends sem code 0 s (s', none)

/-- The code runs from its first instruction to an exit. -/
def Leaves (sem : ι → σ → σ × Flow ε) (code : List ι) (s s' : σ) (e : ε) : Prop :=
  Ends sem code 0 s (s', some e)

section
variable {sem : ι → σ → σ × Flow ε} {code a b : List ι} {i : ℕ} {x : ι} {s s' s'' : σ} {e : ε}
  {r r' : σ × Option ε}

/-- The rest of an execution behind an instruction of the code. -/
def After (sem : ι → σ → σ × Flow ε) (code : List ι) (i : ℕ) (r : σ × Option ε) :
    σ × Flow ε → Prop
  | (s, .next) => Ends sem code (i + 1) s r
  | (s, .jump d) => ∃ j : ℕ, (j : ℤ) = i + 1 + d ∧ Ends sem code j s r
  | (s, .exit e) => r = (s, some e)

theorem Ends.after (h : Ends sem code i s r) (hx : code[i]? = some x) :
    After sem code i r (sem x s) := by
  cases h with
  | done => simp at hx
  | next hx' hs h =>
    obtain rfl := Option.some.inj (hx.symm.trans hx')
    rwa [hs]
  | jump hx' hs hj h =>
    obtain rfl := Option.some.inj (hx.symm.trans hx')
    rw [hs]
    exact ⟨_, hj, h⟩
  | exit hx' hs =>
    obtain rfl := Option.some.inj (hx.symm.trans hx')
    rw [hs]
    rfl

/-- Execution is deterministic. -/
theorem Ends.unique (h : Ends sem code i s r) (h' : Ends sem code i s r') : r = r' := by
  induction h with
  | done =>
    cases h' with
    | done => rfl
    | next hx | jump hx | exit hx => simp at hx
  | next hx hs _ ih =>
    have hafter := h'.after hx
    rw [hs] at hafter
    exact ih hafter
  | jump hx hs hj _ ih =>
    have hafter := h'.after hx
    rw [hs] at hafter
    obtain ⟨j, hj', hafter⟩ := hafter
    obtain rfl := Int.ofNat.inj (hj.trans hj'.symm)
    exact ih hafter
  | exit hx hs =>
    have hafter := h'.after hx
    rw [hs] at hafter
    exact hafter.symm

/-! ## Composition -/

/-- Code in front of a piece moves its instructions and nothing else. -/
theorem Ends.shift (h : Ends sem b i s r) : Ends sem (a ++ b) (a.length + i) s r := by
  have hget {i : ℕ} : (a ++ b)[a.length + i]? = b[i]? := by
    rw [List.getElem?_append_right (by omega), Nat.add_sub_cancel_left]
  induction h with
  | done =>
    rw [← List.length_append]
    exact .done
  | next hx hs _ ih => exact .next (hget.trans hx) hs ih
  | jump hx hs hj _ ih => exact .jump (hget.trans hx) hs (by push_cast; omega) ih
  | exit hx hs => exact .exit (hget.trans hx) hs

theorem getElem?_append_of_some (hx : a[i]? = some x) : (a ++ b)[i]? = some x := by
  rw [List.getElem?_append_left (List.getElem?_eq_some_iff.mp hx).1, hx]

theorem Ends.append (h : Ends sem a i s (s', none)) (h' : Ends sem b 0 s' r) :
    Ends sem (a ++ b) i s r := by
  generalize hr : (s', (none : Option ε)) = q at h
  induction h with
  | done =>
    obtain rfl := (Prod.mk.inj hr).1
    exact h'.shift
  | next hx hs _ ih => exact .next (getElem?_append_of_some hx) hs (ih hr)
  | jump hx hs hj _ ih => exact .jump (getElem?_append_of_some hx) hs hj (ih hr)
  | exit hx hs => cases (Prod.mk.inj hr).2

theorem Computes.nil : Computes sem [] s s := Ends.done

theorem Ends.cons (hs : sem x s = (s', .next)) (h : Ends sem code 0 s' r) :
    Ends sem (x :: code) 0 s r := by
  have hshift := h.shift (a := [x])
  exact .next rfl hs hshift

theorem Computes.cons (hs : sem x s = (s', .next)) (h : Computes sem code s' s'') :
    Computes sem (x :: code) s s'' :=
  Ends.cons hs h

theorem Computes.single (hs : sem x s = (s', .next)) : Computes sem [x] s s' :=
  .cons hs .nil

theorem Computes.append (h : Computes sem a s s') (h' : Computes sem b s' s'') :
    Computes sem (a ++ b) s s'' :=
  Ends.append h h'

theorem Computes.append_leaves (h : Computes sem a s s') (h' : Leaves sem b s' s'' e) :
    Leaves sem (a ++ b) s s'' e :=
  Ends.append h h'

theorem Ends.jumpOver (hs : sem x s = (s', .jump a.length)) (h : Ends sem b 0 s' r) :
    Ends sem (x :: (a ++ b)) 0 s r := by
  have hshift := h.shift (a := x :: a)
  exact .jump rfl hs (by simp [Int.add_comm]) hshift

theorem Computes.over_rest (hs : sem x s = (s', .jump a.length)) : Computes sem (x :: a) s s' := by
  have hover := Ends.jumpOver (b := []) hs .done
  rwa [List.append_nil] at hover

/-- A branch over the first of two alternatives `a` and `b`; `y` is the jump behind `a`. -/
theorem Computes.skip {y : ι} (hs : sem x s = (s', .jump (a.length + 1)))
    (hb : Computes sem b s' s'') : Computes sem (x :: (a ++ y :: b)) s s'' := by
  have hover := Ends.jumpOver (a := a ++ [y]) (by rw [hs, List.length_append]; rfl) hb
  rwa [List.append_assoc] at hover

/-- The first of the alternatives, and the jump behind it over the second. -/
theorem Computes.choose {y : ι} {s₃ : σ} (hs : sem x s = (s', .next))
    (ha : Computes sem a s' s'') (hy : sem y s'' = (s₃, .jump b.length)) :
    Computes sem (x :: (a ++ y :: b)) s s₃ :=
  .cons hs (ha.append (.over_rest hy))

/-- Code whose last instruction may branch over the rest. -/
def test (branch : ℤ → ι) (code rest : List ι) : List ι := code ++ branch rest.length :: rest

/-- From the states of `R`, the code ends as `A` says. -/
def Ensures (sem : ι → σ → σ × Flow ε) (R : σ → Prop) (code : List ι)
    (A : σ × Option ε → Prop) : Prop :=
  ∀ s, R s → ∃ q, Ends sem code 0 s q ∧ A q

/-- From the states of `R`, the code runs into one of `R'`, where the branch behind it is taken
just if `C` is the case. -/
def Decides (sem : ι → σ → σ × Flow ε) (R R' : σ → Prop) (branch : ℤ → ι) (code : List ι)
    (C : Prop) : Prop :=
  ∀ s, R s → ∃ s', Computes sem code s s' ∧ R' s' ∧
    (C → ∀ d, sem (branch d) s' = (s', .jump d)) ∧ (¬C → ∀ d, sem (branch d) s' = (s', .next))

/-- A test in front of two alternatives. -/
theorem Ensures.test {C : Prop} {R R' : σ → Prop} {A : σ × Option ε → Prop} {branch : ℤ → ι}
    (h : Decides sem R R' branch code C) (hfail : C → Ensures sem R' b A)
    (hpass : ¬C → Ensures sem R' (a ++ b) A) :
    Ensures sem R (HostCode.test branch code a ++ b) A := by
  intro s hs
  obtain ⟨s', hc, hs', htaken, hnext⟩ := h s hs
  rw [HostCode.test, List.append_assoc]
  by_cases hC : C
  · obtain ⟨q, hq, ha⟩ := hfail hC s' hs'
    exact ⟨q, Ends.append hc (.jumpOver (htaken hC _) hq), ha⟩
  · obtain ⟨q, hq, ha⟩ := hpass hC s' hs'
    exact ⟨q, Ends.append hc (.cons (hnext hC _) hq), ha⟩

theorem Leaves.cons (hs : sem x s = (s', .next)) (h : Leaves sem code s' s'' e) :
    Leaves sem (x :: code) s s'' e :=
  Ends.cons hs h

theorem Leaves.single (hs : sem x s = (s', .exit e)) : Leaves sem [x] s s' e :=
  Ends.exit rfl hs

end

end Bpfvm.HostCode
