import Bpfvm.Jit.Budget
import Mathlib.Data.Nat.Count
import Mathlib.Logic.Relation

/-!
# Tests of the flags in compiled code

Compiled code tests `flags` at the heads of loops, at a call before the callee is entered, and when
a callee has returned. A way through a fragment that meets no loop head only goes up, so that no
cycle avoids all safepoints, and what is executed between two tests fits into one fragment.
-/
namespace Bpfvm.Jit
open Memory Cpu

/-! ## Cycles of a fragment -/

/-- Control can pass from instruction `i` to instruction `k` of the fragment. -/
def Fragment.Edge (f : Fragment) (i k : ℕ) : Prop :=
  f.found.reachable i = true ∧ (f.fallsTo i = some k ∨
    ∃ t, jumpTarget (f.insn i) i = some t ∧ 0 ≤ t ∧ t < f.size ∧ t.toNat = k)

/-- An edge to an instruction without a safepoint. -/
def Fragment.UnpolledEdge (f : Fragment) (i k : ℕ) : Prop :=
  f.Edge i k ∧ f.found.backEdgeTarget k = false

theorem Fragment.UnpolledEdge.lt {f : Fragment} {i k : ℕ} (h : f.UnpolledEdge i k) : i < k := by
  obtain ⟨⟨hi, hfall | ⟨t, ht, h0, -, rfl⟩⟩, hk⟩ := h
  · exact (Fragment.fallsTo_spec hfall).1
  · by_contra hle
    have hpolled := (loopBodySize_of_jump hi ht h0 (by omega)).1
    change f.found.backEdgeTarget t.toNat = true at hpolled
    simp [hpolled] at hk

/-- Every cycle passes a safepoint. -/
theorem Fragment.no_unpolled_cycle (f : Fragment) (i : ℕ) :
    ¬ Relation.TransGen f.UnpolledEdge i i := by
  intro h
  have hlt : ∀ k, Relation.TransGen f.UnpolledEdge i k → i < k := by
    intro k hk
    induction hk with
    | single h => exact h.lt
    | tail _ h ih => exact ih.trans h.lt
  exact (hlt i h).false

/-! ## Between two tests -/

/-- The thread is in compiled code, or on the way back through compiled callers. -/
def Place.Compiled : Place → Prop
  | .native _ _ _ _ _ | .exiting _ _ => True
  | _ => False

/-- The code of the step tests `flags`: at a safepoint (unless the budget is used up), at a call
that enters its callee, behind a call whose callee has returned, and in `step`. -/
def TestsFlags (c : Config) (s s' : Core) : Prop :=
  match s.place with
  | .native _ _ id i false => (∃ f, s.jit.code[id]? = some f ∧ f.found.backEdgeTarget i = true ∧
      (c.insnLimit = 0 ∨ charged c f i s.count < c.insnLimit)) ∧ s'.place ≠ s.place
  | .native calls before id i true =>
    ∃ callee, s'.place = .native (⟨id, i⟩ :: calls) before callee 0 false
  | .exiting (w :: calls) before =>
    ∃ f, s.jit.code[w.id]? = some f ∧ s'.place = f.behind calls before w.id w.site
  | .exiting [] _ => s'.place ≠ s.place
  | _ => False

/-- A step of compiled code that tests nothing, or a change by another thread. -/
def UntestedStep (c : Config) (s : Core) (e : Event) (s' : Core) : Prop :=
  CoreStep c s e s' ∧ s.place.Compiled ∧ ¬ TestsFlags c s s'

/-- The emitted instructions of a fragment below index `i`. -/
def Fragment.emittedBelow (f : Fragment) (i : ℕ) : ℕ :=
  Nat.count (fun k => f.found.reachable k = true) i

/-- The number of instructions of a fragment. -/
def Fragment.emitted (f : Fragment) : ℕ := f.emittedBelow f.size

/-- How much compiled code can execute up to its next test. -/
def room (j : JitCompiler) : Place → ℕ
  | .native _ _ id i polled =>
    match j.code[id]? with
    | some f => if !polled && f.found.backEdgeTarget i then 0 else f.emitted - f.emittedBelow i
    | none => 0
  | _ => 0

theorem Fragment.emittedBelow_lt {f : Fragment} {i k : ℕ} (h : f.found.reachable i = true)
    (hik : i < k) : f.emittedBelow i < f.emittedBelow k :=
  Nat.count_strict_mono h hik

section
variable {j : JitCompiler} {f : Fragment} {calls : List Waiting} {before : U64}
  {id i : ℕ} {polled : Bool}

theorem room_le (hid : j.code[id]? = some f) :
    room j (.native calls before id i polled) ≤ f.emitted - f.emittedBelow i := by
  simp only [room, hid]
  split_ifs <;> omega

theorem room_polled (hid : j.code[id]? = some f) :
    room j (.native calls before id i true) = f.emitted - f.emittedBelow i := by
  simp [room, hid]

theorem room_of_target (hid : j.code[id]? = some f) (ht : f.found.backEdgeTarget i = true) :
    room j (.native calls before id i false) = 0 := by
  simp [room, hid, ht]

/-- An instruction has room for itself. -/
theorem room_pos (hid : j.code[id]? = some f) (hi : f.found.reachable i = true) :
    0 < room j (.native calls before id i true) := by
  have hlt := Fragment.emittedBelow_lt hi (reachable_lt hi)
  rw [room_polled hid]
  change f.emittedBelow i < f.emitted at hlt
  omega

/-- Farther up there is less room. -/
theorem room_lt {k : ℕ} (hid : j.code[id]? = some f) (hi : f.found.reachable i = true)
    (hik : i < k) :
    room j (.native calls before id k polled) < room j (.native calls before id i true) := by
  have hle : room j (.native calls before id k polled) ≤ _ := room_le hid
  have hlt := Fragment.emittedBelow_lt hi hik
  have hpos : 0 < room j (.native calls before id i true) := room_pos hid hi
  rw [room_polled hid] at hpos ⊢
  omega

theorem room_behind (hid : j.code[id]? = some f) (hi : f.found.reachable i = true) :
    room j (f.behind calls before id i) < room j (.native calls before id i true) := by
  unfold Fragment.behind
  cases hto : f.fallsTo i with
  | none => exact room_pos hid hi
  | some k => exact room_lt hid hi (Fragment.fallsTo_spec hto).1

/-- A jump inside the fragment goes up, or to a safepoint. -/
theorem room_jump {t : ℤ} (hid : j.code[id]? = some f) (hi : f.found.reachable i = true)
    (ht : jumpTarget (f.insn i) i = some t) (h0 : 0 ≤ t) :
    room j (.native calls before id t.toNat false) < room j (.native calls before id i true) := by
  by_cases hback : t ≤ i
  · rw [room_of_target hid (loopBodySize_of_jump hi ht h0 hback).1]
    exact room_pos hid hi
  · exact room_lt hid hi (by omega)

end

section
variable {c : Config} {s s' : Core} {e : Event}

/-- What one step executes fits into the room. -/
theorem executed_le_room (hplaced : s.place.All s.jit.Has) (hin : s.place.Compiled)
    (hs : CoreStep c s e s') : e.executed ≤ room s.jit s.place := by
  by_cases he : e.executed = 0
  · omega
  obtain ⟨hone, ⟨hp, -⟩ | ⟨calls, before, id, i, hp⟩⟩ := hs.executing he
  · simp [hp, Place.Compiled] at hin
  · rw [hp] at hplaced ⊢
    obtain ⟨⟨f, hid, hi⟩, -⟩ := hplaced
    rw [hone]
    exact room_pos hid hi

/-- A step without a test takes from the room what it executes. -/
theorem untested_room (hplaced : s.place.All s.jit.Has) (hs : UntestedStep c s e s') :
    s'.jit.code = s.jit.code ∧ e.executed + room s'.jit s'.place ≤ room s.jit s.place := by
  obtain ⟨hs, hin, hno⟩ := hs
  have hexec := executed_le_room hplaced hin hs
  cases hs with
  | memory | otherExec | flag => exact ⟨rfl, by simp [Event.executed]⟩
  | attached hp | cold hp | enter hp | refuse pc hp | interpret pc hp | interpStop pc hp
  | interpExec hp | interpBudget hp => simp [hp, Place.Compiled] at hin
  | unpolled hp hid ht => exact ⟨rfl, by simp [hp, room, Event.executed, hid, ht]⟩
  | poll hp hid ht hn | pollSlow hp hid ht hn | pollOut pc hp hid ht hn =>
    refine absurd ?_ hno
    simp only [TestsFlags, hp]
    exact ⟨⟨_, hid, ht, hn⟩, by simp⟩
  | @next calls before id i f pc hp hid | @execOn calls before id i f _ _ hp hid =>
    rw [hp] at hplaced ⊢
    obtain ⟨⟨f', hid', hi⟩, -⟩ := hplaced
    cases hid.symm.trans hid'
    have hroom : room s.jit (f.behind calls before id i) < _ := room_behind hid hi
    exact ⟨rfl, by rw [Event.executed, Nat.add_comm]; exact hroom⟩
  | @jump calls before id i t f hp hid ht h0 hlt =>
    rw [hp] at hplaced ⊢
    obtain ⟨⟨f', hid', hi⟩, -⟩ := hplaced
    cases hid.symm.trans hid'
    have hroom : room s.jit (.native calls before id t.toNat false) < _ := room_jump hid hi ht h0
    exact ⟨rfl, by rw [Event.executed, Nat.add_comm]; exact hroom⟩
  | pollBudget hp | deopt hp | abort hp | syscallOut pc hp | exec hp | callOut hp
  | callFails hp | exit pc hp | bottom hp | contOut hp =>
    exact ⟨rfl, by simpa [room] using hexec⟩
  | callIndirectOut hp => exact ⟨(JitCompiler.fillIc_frame ..).1, by simpa [room] using hexec⟩
  | call hp | resolve hp | callIndirect hp =>
    refine absurd ?_ hno
    simp only [TestsFlags, hp]
    exact ⟨_, rfl⟩
  | cont hp hid =>
    refine absurd ?_ hno
    simp only [TestsFlags, hp]
    exact ⟨_, hid, rfl⟩
  | back hp | backSafepoint pc hp =>
    refine absurd ?_ hno
    simp only [TestsFlags, hp]
    split_ifs <;> simp
  | backStop hp =>
    refine absurd ?_ hno
    simp [TestsFlags, hp]

/-- Places of a run are instructions of fragments. -/
theorem placed_of_run {s₀ : Core} {l : List Event} (hv : s₀.jit.Valid)
    (hp : s₀.place.All s₀.jit.Has) (h : Run (CoreStep c) s₀ l s) :
    s.jit.Valid ∧ s.place.All s.jit.Has :=
  h.invariant (P := fun s => s.jit.Valid ∧ s.place.All s.jit.Has) ⟨hv, hp⟩
    fun _ _ _ hi hs => ⟨hs.valid hi.1, hs.placed hi.1 hi.2⟩

theorem executed_snoc (l : List Event) (e : Event) :
    executed (l ++ [e]) = executed l + e.executed := by
  simp [executed]

theorem untested_run {s₀ : Core} {l : List Event} (hv : s₀.jit.Valid)
    (hp : s₀.place.All s₀.jit.Has) (h : Run (UntestedStep c) s₀ l s) :
    s.jit.code = s₀.jit.code ∧ executed l + room s.jit s.place ≤ room s₀.jit s₀.place := by
  induction h with
  | nil => exact ⟨rfl, by simp [executed]⟩
  | snoc h hs ih =>
    obtain ⟨hcode, hle⟩ := ih
    obtain ⟨hv', hp'⟩ := placed_of_run hv hp (h.mono fun _ _ _ hs => hs.1)
    obtain ⟨hcode', hle'⟩ := untested_room hp' hs
    refine ⟨hcode'.trans hcode, ?_⟩
    rw [executed_snoc]
    omega

theorem room_le_emitted {F : ℕ} {j : JitCompiler} (hF : ∀ f ∈ j.code, f.emitted ≤ F) (p : Place) :
    room j p ≤ F := by
  unfold room
  split
  · split
    · next f hid =>
      have hf := hF f (List.mem_of_getElem? hid)
      split_ifs <;> omega
    · omega
  · omega

/-- A compiled call enters its callee only if no flag is set. -/
theorem tests_call (hs : CoreStep c s .call s') : s.flags = 0 ∧ TestsFlags c s s' := by
  cases hs with
  | call hp _ _ hf | resolve hp _ _ hf | callIndirect hp _ _ hf =>
    refine ⟨hf, ?_⟩
    simp only [TestsFlags, hp]
    exact ⟨_, rfl⟩

/-- A caller goes on behind a call only if no flag is set. -/
theorem tests_return {w : Waiting} {calls : List Waiting} {before : U64}
    (hs : CoreStep c s e s') (hp : s.place = .exiting (w :: calls) before)
    (hout : ∀ calls' before', s'.place ≠ .exiting calls' before') :
    s.flags = 0 ∧ TestsFlags c s s' := by
  cases hs with
  | memory | otherExec | flag => exact absurd hp (hout _ _)
  | @cont w' calls' before' f hp' hid hf =>
    refine ⟨hf, ?_⟩
    simp only [TestsFlags, hp']
    exact ⟨_, hid, rfl⟩
  | contOut => exact absurd rfl (hout _ _)
  | _ => simp_all

/-- From one test of `flags` to the next, and including the instruction that makes it, compiled
code executes at most as many instructions as the largest fragment has: no cycle of a fragment
avoids its safepoints, and calls and returns go on only past a test. -/
theorem executed_between_tests {mem : State} {pc : U64} {l₀ l : List Event} {s₀ : Core}
    (h₀ : Run (CoreStep c) (Core.start mem pc) l₀ s₀) (h : Run (UntestedStep c) s₀ l s)
    (hin : s.place.Compiled) (hs : CoreStep c s e s') :
    (∀ F, (∀ f ∈ s₀.jit.code, f.emitted ≤ F) → executed (l ++ [e]) ≤ F) ∧
      (∀ f ∈ s₀.jit.code, ∀ i, ¬ Relation.TransGen f.UnpolledEdge i i) ∧
      (e = .call → s.flags = 0 ∧ TestsFlags c s s') ∧
      ∀ w calls before, s.place = .exiting (w :: calls) before →
        (∀ calls' before', s'.place ≠ .exiting calls' before') →
        s.flags = 0 ∧ TestsFlags c s s' := by
  refine ⟨fun F hF => ?_, fun f _ i => f.no_unpolled_cycle i, fun he => tests_call (he ▸ hs),
    fun w calls before hp hout => tests_return hs hp hout⟩
  have hstart : (Core.start mem pc).place.All (Core.start mem pc).jit.Has := trivial
  obtain ⟨hv₀, hp₀⟩ := placed_of_run JitCompiler.valid_empty hstart h₀
  obtain ⟨-, hp⟩ := placed_of_run hv₀ hp₀ (h.mono fun _ _ _ hs => hs.1)
  obtain ⟨-, hle⟩ := untested_run hv₀ hp₀ h
  have hlast := executed_le_room hp hin hs
  have hroom := room_le_emitted hF s₀.place
  rw [executed_snoc]
  omega

end

/-- The lower of two fragments that jump to each other, entered and left again. -/
theorem executed_between_tests_seesaw : ∃ f : Fragment,
    Run (UntestedStep eager)
      ⟨seesawLow.2.2, seesawLow.2.1, 0x1ff8, 0, 0, .native [] 0x1ff8 0 0 false⟩ [.other]
      ⟨seesawLow.2.2, seesawLow.2.1, 0x1ff8, 0, 0, .native [] 0x1ff8 0 0 true⟩ ∧
    CoreStep eager
      ⟨seesawLow.2.2, seesawLow.2.1, 0x1ff8, 0, 0, .native [] 0x1ff8 0 0 true⟩ .native
      ⟨seesawLow.2.2, seesawLow.2.1, f.addr 1, 0, 0, .exiting [] 0x1ff8⟩ ∧
    ∀ F, (∀ f ∈ seesawLow.2.1.code, f.emitted ≤ F) → executed [.other, .native] ≤ F := by
  obtain ⟨f, hf, hsize, hhead, ht, ha⟩ := of_hops hops_low
  have henter : CoreStep eager (Core.start (State.boot seesaw) 0x1ff8) .enter
      ⟨seesawLow.2.2, seesawLow.2.1, 0x1ff8, 0, 0, .native [] 0x1ff8 0 0 false⟩ :=
    .enter rfl (compiled_eq seesawLow_fst) passed_zero
  have hrun : Run (UntestedStep eager)
      ⟨seesawLow.2.2, seesawLow.2.1, 0x1ff8, 0, 0, .native [] 0x1ff8 0 0 false⟩ [.other]
      ⟨seesawLow.2.2, seesawLow.2.1, 0x1ff8, 0, 0, .native [] 0x1ff8 0 0 true⟩ := by
    refine .single ⟨.unpolled rfl hf hhead, trivial, ?_⟩
    rintro ⟨⟨g, hg, hpolled, -⟩, -⟩
    cases hf.symm.trans hg
    simp [hhead] at hpolled
  have hout : CoreStep eager
      ⟨seesawLow.2.2, seesawLow.2.1, 0x1ff8, 0, 0, .native [] 0x1ff8 0 0 true⟩ .native
      ⟨seesawLow.2.2, seesawLow.2.1, f.addr 1, 0, 0, .exiting [] 0x1ff8⟩ :=
    .deopt rfl hf ht (.inr (by omega))
  exact ⟨f, hrun, hout, (executed_between_tests (.single henter) hrun trivial hout).1⟩

end Bpfvm.Jit
