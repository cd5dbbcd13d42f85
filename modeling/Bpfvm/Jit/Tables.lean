import Bpfvm.Jit.Cache

/-!
# The tables of the compiler agree

`pc_cache_` is a direct-mapped shadow of `entries_`. A slot may hold any program counter that
belongs there, and a failed compilation writes slots of program counters that were never compiled;
but a slot that names a program counter answers as `entries_` does, and no entry is replaced
before `clear`.
-/
namespace Bpfvm.Jit
open Memory Cpu Function

/-- A call of the compiler. `attached` is `VM_DEBUG_ATTACHED`, `finalized` the host's answer in
`finalize_code`, and `s` the memory at the time of the call. -/
inductive Call where
  | compile (attached finalized : Bool) (s : State) (gpa : U64)
  | clear

namespace JitCompiler

/-- The answer to a call and the tables after it. -/
def call (c : Config) (j : JitCompiler) : Call → Option ℕ × JitCompiler
  | .compile attached finalized s gpa =>
    if attached then (none, j)
    else
      let (o, j, _) := j.compile c finalized s gpa
      (o, j)
  | .clear => (none, j.clear)

/-- The tables after a sequence of calls. -/
def calls (c : Config) (j : JitCompiler) (l : List Call) : JitCompiler :=
  l.foldl (fun j a => (j.call c a).2) j

/-- A slot that names a program counter knows its code, and the code is of that program counter. -/
structure Agree (j : JitCompiler) : Prop where
  hot : ∀ g, (j.pcCache (pcSlot g)).1 = g → ∀ id,
    (j.pcCache (pcSlot g)).2 = some id ↔ j.entries g = some (.compiled id)
  code : ∀ g id, j.entries g = some (.compiled id) → (j.code[id]?).map Fragment.gpa = some g

variable {j j' : JitCompiler} {gpa g : U64} {c : Config} {finalized : Bool} {s : State}
  {e : JitEntry} {id : ℕ}

theorem agree_empty : empty.Agree := ⟨by simp [empty], by simp [empty]⟩

theorem agree_clear (j : JitCompiler) : j.clear.Agree := ⟨by simp [clear], by simp [clear]⟩

theorem Agree.quiet (h : j.Agree) (hq : j.Quiet j') : j'.Agree := by
  refine ⟨fun g hg id => ?_, fun g id hid => ?_⟩
  · rw [hq.entries]
    rcases hq.hot (pcSlot g) with he | he
    · rw [he] at hg ⊢
      exact h.hot g hg id
    · rw [he, hg]
  · rw [hq.code]
    exact h.code g id ((hq.entries g id).mp hid)

theorem Agree.install (h : j.Agree) (f : Fragment) : (j.install f).Agree := by
  refine ⟨fun g hg id => ?_, fun g id hid => ?_⟩
  · simp only [JitCompiler.install, JitCompiler.setHot, JitCompiler.setEntry] at hg ⊢
    by_cases hs : pcSlot g = pcSlot f.gpa
    · rw [hs, update_self] at hg ⊢
      obtain rfl : f.gpa = g := hg
      simp
    · have hne : g ≠ f.gpa := fun he => hs (he ▸ rfl)
      rw [update_of_ne hs] at hg ⊢
      rw [update_of_ne hne]
      exact h.hot g hg id
  · rw [install_code]
    rcases install_entries hid with ⟨rfl, rfl⟩ | ⟨-, hid⟩
    · simp
    · have hcode := h.code g id hid
      obtain ⟨f', hf', -⟩ := Option.map_eq_some_iff.mp hcode
      rwa [List.getElem?_append_left (List.getElem?_eq_some_iff.mp hf').1]

/-- `compile` answered `o` for `gpa`: the tables agree, nothing compiled or failed is replaced, and
the answer is in the table. -/
structure Answers (j : JitCompiler) (gpa : U64) (o : Option ℕ) (j' : JitCompiler) : Prop where
  agree : j'.Agree
  keeps : ∀ g e, e ≠ .counting → j.entries g = some e → j'.entries g = some e
  answer : ∀ id, o = some id → j'.entries gpa = some (.compiled id)

theorem Quiet.keeps (hq : j.Quiet j') (hne : e ≠ .counting) (he : j.entries g = some e) :
    j'.entries g = some e := by
  cases e with
  | counting => exact absurd rfl hne
  | failed => exact hq.failed g he
  | compiled id => exact (hq.entries g id).mpr he

theorem Agree.compile {s' : State} {o : Option ℕ} (h : j.Agree)
    (hc : j.compile c finalized s gpa = (o, j', s')) : j.Answers gpa o j' := by
  rcases compile_cases hc with ⟨-, hq, ho⟩ | ⟨f, p, j₁, hq, hnone, rfl, -, -, rfl, rfl, -, -⟩
  · refine ⟨h.quiet hq, fun g e => hq.keeps, fun id hid => (hq.entries gpa id).mpr ?_⟩
    rcases ho id hid with he | he
    · exact (h.hot gpa (by rw [he]) id).mp (by rw [he])
    · exact he
  · refine ⟨(h.quiet hq).install f, fun g e hne he => (update_of_ne ?_ ..).trans (hq.keeps hne he),
      ?_⟩
    · rintro rfl
      simp [hnone] at he
    · rintro _ ⟨⟩
      rw [← hq.code]
      exact update_self ..

/-! ## Sequences of calls -/

theorem Agree.call (h : j.Agree) (a : Call) : (j.call c a).2.Agree ∧
    (a ≠ .clear → ∀ g e, e ≠ .counting → j.entries g = some e →
      (j.call c a).2.entries g = some e) := by
  cases a with
  | clear => exact ⟨agree_clear j, by simp⟩
  | compile attached finalized s gpa =>
    cases attached with
    | true => exact ⟨h, fun _ _ _ _ he => he⟩
    | false => exact ⟨(h.compile rfl).agree, fun _ => (h.compile rfl).keeps⟩

theorem Agree.calls (h : j.Agree) (l : List Call) : (j.calls c l).Agree ∧
    (Call.clear ∉ l → ∀ g e, e ≠ .counting → j.entries g = some e →
      (j.calls c l).entries g = some e) := by
  induction l generalizing j with
  | nil => exact ⟨h, fun _ _ _ _ he => he⟩
  | cons a l ih =>
    obtain ⟨hag, hkeep⟩ := h.call (c := c) a
    obtain ⟨hag', hkeep'⟩ := ih hag
    refine ⟨hag', fun hl g e hne he => ?_⟩
    rw [List.mem_cons, not_or] at hl
    exact hkeep' hl.2 g e hne (hkeep (Ne.symm hl.1) g e hne he)

theorem Agree.compile_compiled (h : j.Agree) (hon : c.enabled = true)
    (he : j.entries gpa = some (.compiled id)) : (j.compile c finalized s gpa).1 = some id := by
  rw [JitCompiler.compile, hon]
  by_cases hot : (j.pcCache (pcSlot gpa)).1 = gpa
  · simpa [hot] using (h.hot gpa hot id).mpr he
  · simp [hot, he]

/-- After every sequence of calls: code that `compile` returns is the code of the program counter
and is returned until `clear`, and a failed program counter has none until `clear`. -/
theorem tables_agree (c : Config) (l : List Call) (gpa : U64) :
    (∀ finalized s id j' s', (empty.calls c l).compile c finalized s gpa = (some id, j', s') →
      j'.entries gpa = some (.compiled id) ∧ (j'.code[id]?).map Fragment.gpa = some gpa ∧
      ∀ l', Call.clear ∉ l' → ∀ finalized s,
        ((j'.calls c l').compile c finalized s gpa).1 = some id) ∧
    ((empty.calls c l).entries gpa = some .failed → ∀ l', Call.clear ∉ l' → ∀ finalized s,
      (((empty.calls c l).calls c l').compile c finalized s gpa).1 = none) := by
  have hag : (empty.calls c l).Agree := (agree_empty.calls l).1
  refine ⟨fun finalized s id j' s' hc => ?_, fun hf l' hl finalized s => ?_⟩
  · have hon : c.enabled = true := by
      by_contra hoff
      rw [Bool.not_eq_true] at hoff
      simp [compile, hoff] at hc
    have hans := hag.compile hc
    have he := hans.answer id rfl
    refine ⟨he, hans.agree.code gpa id he, fun l' hl _ _ => ?_⟩
    obtain ⟨hag', hkeep⟩ := hans.agree.calls (c := c) l'
    exact hag'.compile_compiled hon (hkeep hl gpa _ (by simp) he)
  · obtain ⟨hag', hkeep⟩ := hag.calls (c := c) l'
    have hans := hag'.compile (rfl : JitCompiler.compile c finalized _ s gpa = _)
    refine Option.eq_none_iff_forall_ne_some.mpr fun id hid => ?_
    have hfail := hans.keeps gpa _ (by simp) (hkeep hl gpa _ (by simp) hf)
    rw [hans.answer id hid] at hfail
    cases hfail

end JitCompiler

end Bpfvm.Jit
