import Bpfvm.Lib.CondVar
import Bpfvm.Process.Exec

/-!
# Sleeping and waking up

The sleepers of a vm are `wait_for`, `safepoint` and `debug_park`. All that changes the flags of a
vm is listed here, with the wakeups it makes: by another thread of the guest, by the debugger, or by
the thread of the vm itself. A vm that is blocked while it should go on always has a wakeup coming
to it.
-/
namespace Bpfvm.Process.Sleep
open Cpu CondVar
open Cpu.Machine (vmSignalPending)
open Exec (vmBlocked)

def vmDebugAttached : U32 := 0x40
def vmDebugStop : U32 := 0x80

/-- `set_flags`. -/
def setFlags (mask f : U32) : U32 := f ||| mask

/-- `clear_flags`. -/
def clearFlags (mask f : U32) : U32 := f &&& ~~~mask

inductive Sleeper where
  | waitFor
  | safepoint
  | debugPark
  deriving DecidableEq, Repr

/-- The flags with which the loop around the wait is left. -/
def exit : Sleeper → U32 → Bool
  | .waitFor, f =>
    f &&& vmBlocked = 0 ||
      f &&& (vmKilled ||| vmSignalPending ||| vmStopped ||| vmDebugStop) ≠ 0
  | .safepoint, f =>
    f &&& (vmExited ||| vmKilled ||| vmBudgetExceeded) ≠ 0 || f &&& vmStopped = 0
  | .debugPark, f => f &&& vmDebugStop = 0 || f &&& vmKilled ≠ 0

abbrev Op := CondVar.Op ℕ U32 Sleeper

/-- `v->set_flags(mask); v->wakeup(false)`. -/
def setAndWake (mask : U32) (v : ℕ) : List Op := [.change v (setFlags mask), .wakeup v id]

/-- `v->clear_flags(mask); v->wakeup(false)`. -/
def clearAndWake (mask : U32) (v : ℕ) : List Op := [.change v (clearFlags mask), .wakeup v id]

/-- What changes flags, with the vms it is done to. -/
inductive Call where
  /-- `queue_signal` of `SIGKILL` -/
  | kill (v : ℕ)
  /-- `stop_process` for the threads of the group -/
  | stopProcess (vs : List ℕ)
  /-- `queue_signal` of `SIGCONT` -/
  | sigcont (vs : List ℕ)
  /-- `queue_signal` of a signal that is pushed -/
  | enqueue (v : ℕ)
  /-- `wake_waiters`, `futex_wake`, `futex_child_tid_clear` -/
  | wakeWaiters (vs : List ℕ)
  /-- `host_signal` of 0 -/
  | hostSignal (v : ℕ)
  /-- `do_clone` that succeeds, with `on_create_vm` under the debugger -/
  | clone (child : ℕ) (attached forkEvent : Bool)
  /-- `request_stop`, `stop_all_vms` -/
  | requestStop (vs : List ℕ)
  /-- the debugger's kill packets -/
  | debugKill (v : ℕ)
  /-- `VM_DEBUG_ATTACHED` -/
  | attach (v : ℕ)
  /-- `end_session`, `detach_vm` -/
  | detach (vs : List ℕ)
  /-- `continue_all_vms`, `resume_continue`, `handle_vcont`, a single step -/
  | release (vs : List ℕ)
  /-- `resume` without a breakpoint to step over -/
  | resume (v : ℕ)
  /-- `VM_BLOCKED` around `wait_for`, in `futex_wait`, `do_wait_common`, `do_sigsuspend` and
  `do_execveat` -/
  | waitFor
  | safepoint
  | debugPark
  /-- `do_sigprocmask` and `do_siglongjmp` with an event in the queue -/
  | rearm
  /-- any change of the thread's own flags: at its end, by a hook of the debugger, by
  `handle_signals` -/
  | own (g : U32 → U32)

/-- What thread `t` does. -/
def Call.ops (t : ℕ) : Call → List Op
  | .kill v => setAndWake vmKilled v
  | .stopProcess vs => vs.flatMap (setAndWake vmStopped)
  | .sigcont vs => vs.flatMap (clearAndWake vmStopped)
  | .enqueue v => setAndWake vmSignalPending v
  | .wakeWaiters vs => vs.map fun v => .wakeup v (clearFlags vmBlocked)
  | .hostSignal v => [.wakeup v id]
  | .clone child attached forkEvent =>
    -- the stop is set before the thread of the child exists
    .change child (setFlags vmStopped) ::
      (if attached then
        [.change child (setFlags vmDebugAttached), .change child (setFlags vmDebugStop)] ++
          if forkEvent then [.change t (setFlags vmDebugStop)] else []
      else []) ++ clearAndWake vmStopped child
  | .requestStop vs => vs.flatMap fun v => setAndWake vmDebugStop v ++ [.wakeup v id]
  | .debugKill v => setAndWake vmKilled v ++ [.wakeup v id]
  | .attach v => [.change v (setFlags vmDebugAttached)]
  | .detach vs => vs.flatMap (clearAndWake (vmDebugAttached ||| vmDebugStop))
  | .release vs => vs.flatMap (clearAndWake vmDebugStop)
  | .resume v => .change v (clearFlags vmDebugStop) :: clearAndWake vmDebugStop v
  | .waitFor => [.change t (setFlags vmBlocked), .sleep .waitFor, .change t (clearFlags vmBlocked)]
  | .safepoint => [.change t (clearFlags vmJitAbort), .sleep .safepoint]
  | .debugPark => [.sleep .debugPark]
  | .rearm => setAndWake vmSignalPending t
  | .own g => [.change t g]

theorem sound_changeAndWake (t v : ℕ) (g : U32 → U32) :
    Sound exit t [.change v g, .wakeup v id] :=
  ⟨.inr (.inr ⟨id, List.mem_singleton.mpr rfl⟩), trivial⟩

/-- `VM_DEBUG_ATTACHED` is tested by no sleeper. -/
theorem quiet_attach : Quiet exit (setFlags vmDebugAttached) := by
  have hand (f mask : U32) (hm : vmDebugAttached &&& mask = 0) :
      setFlags vmDebugAttached f &&& mask = f &&& mask := by
    rw [setFlags, BitVec.and_comm, BitVec.and_or_distrib_left, BitVec.and_comm mask vmDebugAttached,
      hm, BitVec.and_comm mask f]
    exact BitVec.or_zero
  intro k f h
  cases k with
  | waitFor | safepoint | debugPark =>
    simp only [exit] at h ⊢
    rwa [hand _ _ (by decide), hand _ _ (by decide)] at h

/-- The last thing `do_clone` does is to wake the child up. -/
theorem sound_clone (t child : ℕ) (attached forkEvent : Bool) :
    Sound exit t (Call.ops t (.clone child attached forkEvent)) := by
  have hwake (ops : List Op) : ∃ g, .wakeup child g ∈ ops ++ clearAndWake vmStopped child :=
    ⟨id, List.mem_append_right _ (by simp [clearAndWake])⟩
  have hend : Sound exit t (clearAndWake vmStopped child) := sound_changeAndWake t child _
  cases attached
  · exact ⟨.inr (.inr (hwake [])), hend⟩
  · cases forkEvent
    · exact ⟨.inr (.inr (hwake [_, _])), .inr (.inr (hwake [_])), .inr (.inr (hwake [])), hend⟩
    · exact ⟨.inr (.inr (hwake [_, _, _])), .inr (.inr (hwake [_, _])), .inr (.inr (hwake [_])),
        .inl rfl, hend⟩

theorem sound_ops (t : ℕ) (call : Call) : Sound exit t (call.ops t) := by
  cases call with
  | kill v | enqueue v => exact sound_changeAndWake t v _
  | stopProcess vs | sigcont vs | detach vs | release vs =>
    exact .flatMap fun v _ => sound_changeAndWake t v _
  | wakeWaiters vs =>
    rw [Call.ops, List.map_eq_flatMap]
    exact .flatMap fun _ _ => trivial
  | hostSignal v => trivial
  | clone child attached forkEvent => exact sound_clone t child attached forkEvent
  | requestStop vs => exact .flatMap fun v _ => (sound_changeAndWake t v _).append trivial
  | debugKill v => exact (sound_changeAndWake t v _).append trivial
  | attach v => exact ⟨.inr (.inl quiet_attach), trivial⟩
  | resume v =>
    exact ⟨.inr (.inr ⟨id, by simp [clearAndWake]⟩), sound_changeAndWake t v _⟩
  | waitFor => exact ⟨.inl rfl, .inl rfl, trivial⟩
  | safepoint | own g => exact ⟨.inl rfl, trivial⟩
  | debugPark => trivial
  | rearm => exact sound_changeAndWake t t _

/-- What a thread may set out to do. -/
def Routine (t : ℕ) (ops : List Op) : Prop := ∃ call : Call, call.ops t = ops

abbrev Step := CondVar.Step exit Routine

/-- A vm that is blocked in the wait of `wait_for`, `safepoint` or `debug_park` while the loop
around it should be left has a wakeup coming: another thread has changed its flags and has still to
broadcast. -/
theorem wakeup_coming_of_run {flags : ℕ → U32} {l : List ℕ}
    {s : State ℕ U32 Sleeper} (h : Run Step (.idle flags) l s) {v : ℕ} {k : Sleeper}
    (hl : (s.thread v).loc = .asleep k) (he : exit k (s.flags v) = true) :
    ∃ u, u ≠ v ∧ s.Owes u v := by
  refine owes_of_run (fun t ops hops => ?_) h hl he
  obtain ⟨call, rfl⟩ := hops
  exact sound_ops t call

/-- Thread 1 waits, and thread 2 has set `VM_KILLED` for it but has not woken it up yet. -/
theorem wakeup_coming_of_run_kill : ∃ l s, Run Step (.idle fun _ => 0) l s ∧
    (s.thread 1).loc = .asleep .waitFor ∧ exit .waitFor (s.flags 1) = true ∧
    ∃ u, u ≠ 1 ∧ s.Owes u 1 := by
  have hrun : Run Step (.idle fun _ => 0) _ _ :=
    ((((((Run.single (.start (t := 1) rfl rfl ⟨.waitFor, rfl⟩)).snoc
    (.change (t := 1) rfl rfl)).snoc
      (.sleep (t := 1) rfl rfl rfl)).snoc (.test (t := 1) rfl rfl)).snoc (.wait (t := 1) rfl)).snoc
      (.start (t := 2) rfl rfl ⟨.kill 1, rfl⟩)).snoc (.change (t := 2) rfl rfl)
  exact ⟨_, _, hrun, rfl, rfl, wakeup_coming_of_run hrun rfl rfl⟩

end Bpfvm.Process.Sleep
