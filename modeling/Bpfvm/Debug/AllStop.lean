import Bpfvm.Debug.Breakpoints

/-!
# All-stop

Between a stop reply and the next packet that resumes a vm the debugger takes everything it
debugs to stand still. `wait_any_stopped` replies as soon as every flag says so; a vm that has
passed its last look at the flag executes one more instruction. The vms do stand still when each
of them is on its way into `debug_park`, or is gone, by the time the reply goes out.
-/
namespace Bpfvm.Debug

/-- The stop flag is set and the thread is past the safepoint, which may still deliver a signal, but
not past `debug_park`; or the thread is gone. -/
def Vm.Rests (m : Vm) : Prop :=
  m.phase ≠ .fetch ∧ m.phase ≠ .exec ∧ m.stop = true ∧ m.killed = false ∨ m.phase = .ended

instance (m : Vm) : Decidable m.Rests :=
  inferInstanceAs (Decidable (_ ∧ _ ∧ _ ∧ _ ∨ _))

/-- What happens while the debugger resumes nothing; no vm is killed. -/
def Act.Still : Act → Prop
  | .packet (.insert _ _) | .packet (.remove _ _) => True
  | .packet _ | .kill _ => False
  | _ => True

instance (a : Act) : Decidable a.Still :=
  decidable_of_bool
    (match a with
      | .packet (.insert _ _) | .packet (.remove _ _) => true
      | .packet _ | .kill _ => false
      | _ => true)
    (by unfold Act.Still; split <;> simp)

def StillStep (s : Session) (a : Act) (s' : Session) : Prop := s.step a = some s' ∧ a.Still

instance (p : Server) : Decidable (p = .idle) :=
  decidable_of_bool (match p with | .idle => true | _ => false) (by cases p <;> simp)

/-- The step sends a stop reply, or an exit reply. -/
def Session.Replies (s : Session) (a : Act) (s' : Session) : Prop :=
  s.step a = some s' ∧ s'.server = .idle ∧ (a = .serve ∨ ∃ p, a = .packet p ∧ ¬ a.Still)

/-- Until the debugger resumes a vm, no vm that it debugs executes an instruction. -/
def Session.AllStop (s : Session) : Prop :=
  ∀ l s', Run StillStep s l s' → ∀ v ∈ s.tasks,
    (s'.vms v).phase ≠ .exec ∧ (s'.vms v).pc = (s.vms v).pc

/-- The thread of a vm that rests gets as far as `debug_park`. -/
theorem Vm.Rests.go {m m' : Vm} {known : Bool} {o : Outcome} (h : m.Rests)
    (hg : m.go known o = some m') : m'.Rests ∧ m'.pc = m.pc := by
  rcases h with ⟨hf, he, hs, hk⟩ | hp
  · unfold Vm.go at hg
    split at hg
    case h_1 hp => exact absurd hp hf
    case h_5 => simp [hs, hk] at hg
    case h_6 hp => exact absurd hp he
    case h_7 => cases hg
    all_goals
      try split_ifs at hg
      all_goals
        cases hg
        simp [Rests, hs, hk]
  · simp [Vm.go, hp] at hg

/-- The vms that were debugged in `t` rest where they stood. -/
structure Resting (t s : Session) : Prop where
  server : s.server = .idle
  tasks : s.tasks = t.tasks
  rests : ∀ v ∈ t.tasks, (s.vms v).Rests
  same : ∀ v ∈ t.tasks, (s.vms v).pc = (t.vms v).pc

variable {t s s' : Session} {a : Act}

theorem Resting.setVm {u : ℕ} {m : Vm} (h : Resting t s)
    (hm : u ∈ t.tasks → m.Rests ∧ m.pc = (s.vms u).pc) : Resting t (s.setVm u m) := by
  have hall : ∀ v ∈ t.tasks, ((s.setVm u m).vms v).Rests ∧
      ((s.setVm u m).vms v).pc = (t.vms v).pc := by
    intro v hv
    by_cases hu : v = u
    · subst hu
      rw [Session.setVm_vms_self]
      exact ⟨(hm hv).1, (hm hv).2.trans (h.same v hv)⟩
    · rw [Session.setVm_vms_of_ne m hu]
      exact ⟨h.rests v hv, h.same v hv⟩
  exact ⟨h.server, h.tasks, fun v hv => (hall v hv).1, fun v hv => (hall v hv).2⟩

theorem Resting.step (h : Resting t s) (hs : StillStep s a s') : Resting t s' := by
  obtain ⟨hs, ha⟩ := hs
  cases a with
  | vm v o =>
    obtain ⟨m, hm, rfl⟩ := Option.map_eq_some_iff.mp hs
    exact h.setVm fun hv => (h.rests v hv).go hm
  | serve => simp [Session.step, Session.serve, h.server] at hs
  | packet p =>
    simp only [Session.step, h.server, Option.some.injEq] at hs
    cases p with
    | insert v addr | remove v addr => exact hs ▸ h.setVm fun hv => ⟨h.rests v hv, rfl⟩
    | cont v | step v | vCont acts pref => exact ha.elim
  | interrupt => simp [Session.step, h.server] at hs
  | kill v => exact ha.elim
  | hold v b =>
    cases hs
    exact h.setVm fun hv => ⟨h.rests v hv, rfl⟩

theorem Vm.Rests.not_exec {m : Vm} (h : m.Rests) : m.phase ≠ .exec := by
  rcases h with ⟨-, he, -⟩ | hp
  · exact he
  · simp [hp]

/-- After a reply that finds every debugged vm at rest, no debugged vm executes anything before the
debugger resumes one, unless a vm is killed. -/
theorem allStop_of_rests {s s' : Session} {a : Act} (hr : s.Replies a s')
    (h : ∀ v ∈ s'.tasks, (s'.vms v).Rests) : s'.AllStop := by
  intro l s'' hrun v hv
  have hR : Resting s' s'' :=
    hrun.invariant ⟨hr.2.1, rfl, h, fun _ _ => rfl⟩ fun _ _ _ hR hs => hR.step hs
  exact ⟨(hR.rests v hv).not_exec, hR.same v hv⟩

/-- The reply when the vm of `hitRun` has parked at its breakpoint. -/
theorem allStop_of_rests_hitRun : ∃ s s', Run (fun s a s' => Session.step s a = some s')
    (.start [1] fun _ => 0) (hitRun.take 18) s ∧ s.Replies .serve s' ∧ s'.AllStop := by
  have hp : (((hitRun.take 18).foldlM Session.step (.start [1] fun _ => 0)).bind fun s =>
      (s.step .serve).map fun s' => (decide (s'.server = .idle),
        decide (∀ v ∈ s'.tasks, (s'.vms v).Rests))) = some (true, true) := by
    decide
  obtain ⟨s, hs, hp⟩ := Option.bind_eq_some_iff.mp hp
  obtain ⟨s', hs', hp⟩ := Option.map_eq_some_iff.mp hp
  simp only [Prod.mk.injEq, decide_eq_true_eq] at hp
  have hr : s.Replies .serve s' := ⟨hs', hp.1, Or.inl rfl⟩
  exact ⟨s, s', Run.of_foldlM hs, hr, allStop_of_rests hr hp.2⟩

/-- Vms 1 and 2 park at address 0 and are continued; vm 2 has left `debug_park` when vm 1 stops
at a breakpoint at 8. -/
def lateRun : List Act :=
  steps 3 ++ List.replicate 3 (.vm 2 (.next 16)) ++
    [.packet (.insert 1 8), .packet (.cont 1)] ++ List.replicate 5 .serve ++
    [.vm 2 (.next 16)] ++ steps 5 ++ List.replicate 4 .serve

/-- Vm 2 executes an instruction after the stop reply. -/
theorem not_allStop_late : ∃ s s', Run (fun s a s' => Session.step s a = some s')
    (.start [1, 2] fun _ => 0) lateRun s ∧ s.Replies .serve s' ∧ ¬ s'.AllStop := by
  have hp : ((lateRun.foldlM Session.step (.start [1, 2] fun _ => 0)).bind fun s =>
      (s.step .serve).bind fun s' => (s'.step (.vm 2 (.next 16))).map fun s'' =>
        (decide (s'.server = .idle), decide (2 ∈ s'.tasks), (s'.vms 2).pc, (s''.vms 2).pc)) =
      some (true, true, 0, 16) := by
    decide
  obtain ⟨s, hs, hp⟩ := Option.bind_eq_some_iff.mp hp
  obtain ⟨s', hs', hp⟩ := Option.bind_eq_some_iff.mp hp
  obtain ⟨s'', hs'', hp⟩ := Option.map_eq_some_iff.mp hp
  simp only [Prod.mk.injEq, decide_eq_true_eq] at hp
  obtain ⟨hidle, hmem, hpc, hpc'⟩ := hp
  refine ⟨s, s', Run.of_foldlM hs, ⟨hs', hidle, Or.inl rfl⟩, fun hall => ?_⟩
  have hsame := (hall _ s'' (Run.single ⟨hs'', trivial⟩) 2 hmem).2
  rw [hpc, hpc'] at hsame
  cases hsame

end Bpfvm.Debug
