import Bpfvm.Signal.Steps

/-!
# `VM_SIGNAL_PENDING`

The flag stays set as long as there is an event in the queue, blocked or not, except that
`do_sigsuspend` clears it while all events are blocked by the mask it has stored. It returns either
because an event has come that is not blocked, and has set the flag again, or because the thread is
to stop. In the second case the flag may be clear with blocked events in the queue, and `sigreturn`,
which stores a mask without looking at the queue, may unblock them.
-/
namespace Bpfvm.Signal

/-- The mask of `do_sigsuspend`, inside it. -/
def Pc.suspending : Pc → Option U64
  | .suspend mask | .suspendScan mask | .block .suspend mask | .waitFor .suspend mask
  | .unblock .suspend mask _ => some mask
  | _ => none

/-- The owner holds the lock of the queue. -/
def Pc.scanning : Pc → Bool
  | .scan .. | .scanned .. => true
  | _ => false

/-- The owner is in `handle_signals` or in a call that changes the mask. -/
def Pc.inside (pc : Pc) : Bool :=
  pc.scanning || pc.suspending.isSome || match pc with
    | .handle _ | .act .. | .rearm | .raise => true
    | _ => false

namespace State

/-- The events that are in the queue, or go back to it. -/
def left (s : State) : List SigEvent :=
  match s.pc with
  | .scan _ _ _ deferred => deferred ++ s.queue
  | .scanned _ deferred => deferred ++ s.queue
  | _ => s.queue

/-- No thread is between the push and the flag. -/
def Published (s : State) : Prop := ∀ t, s.lock ≠ some (.sender t)

/-- The flag covers what is in the queue. -/
def Covered (s : State) : Prop :=
  match s.pc.suspending with
  | none => s.left ≠ [] → s.flags.pending = true
  | some mask => s.flags.pending = true ∨ ∀ e ∈ s.queue, e.memOf mask = true

/-- `do_sigsuspend` is not left for a stop with the flag clear and an event in the queue. -/
def Undisturbed (s : State) : Act → Prop
  | .go _ _ =>
    match s.pc with
    | .suspend _ => s.flags.halting = true → s.flags.pending = true ∨ s.queue = []
    | _ => True
  | _ => True

end State

structure Primed (s : State) : Prop where
  lock : s.lock = some .owner ↔ s.pc.scanning = true
  covered : s.Published → s.Covered

variable {mask : U64}

section
variable {s s' : State} {es : List Note} {b : Bool} {order : List ℕ} {a : Act} {f : Flags} {pc : Pc}

/-- Outside `do_sigsuspend`. -/
theorem covered_iff (h : s.pc.suspending = none) :
    s.Covered ↔ (s.left ≠ [] → s.flags.pending = true) := by
  rw [State.Covered, h]

theorem covered_iff_mask (h : s.pc.suspending = some mask) :
    s.Covered ↔ s.flags.pending = true ∨ ∀ e ∈ s.queue, e.memOf mask = true := by
  rw [State.Covered, h]

theorem left_of_not_scanning (h : s.pc.scanning = false) : s.left = s.queue := by
  unfold State.left
  split <;> simp_all [Pc.scanning]

theorem Pc.scanning_of_suspending (h : pc.suspending = some mask) : pc.scanning = false := by
  cases pc <;> simp_all [Pc.suspending, Pc.scanning]

theorem Pc.of_not_inside (h : pc.inside = false) :
    pc.scanning = false ∧ pc.suspending = none := by
  obtain ⟨h, -⟩ := Bool.or_eq_false_iff.mp h
  obtain ⟨hs, hw⟩ := Bool.or_eq_false_iff.mp h
  exact ⟨hs, Option.isNone_iff_eq_none.mp (by rw [← Option.not_isSome, hw]; rfl)⟩

/-- The flag covers the queue in either case. -/
theorem covered_of_pending (h : s.flags.pending = true) : s.Covered := by
  unfold State.Covered
  split
  · exact fun _ => h
  · exact .inl h

theorem covered_of_empty (hs : s.pc.scanning = false) (h : s.queue = []) : s.Covered := by
  unfold State.Covered
  split
  · exact fun hne => absurd ((left_of_not_scanning hs).trans h) hne
  · exact .inr (by simp [h])

/-- Between places outside a scan and outside `do_sigsuspend` nothing has to be seen. -/
theorem Primed.goto (h : Primed s) (hs : s.pc.scanning = false) (hw : s.pc.suspending = none)
    (hs' : pc.scanning = false) (hf : s.flags.pending = true → f.pending = true) :
    Primed { s with flags := f, sigmask := mask, pc := pc } := by
  refine ⟨by rw [h.lock, hs, hs'], fun hpub => ?_⟩
  have hcov := (covered_iff hw).mp (h.covered hpub)
  by_cases hq : s.queue = []
  · exact covered_of_empty hs' hq
  · exact covered_of_pending (hf (hcov (by rwa [left_of_not_scanning hs])))

/-- The same inside `do_sigsuspend`. -/
theorem Primed.suspended (h : Primed s) (hw : s.pc.suspending = some mask)
    (hw' : pc.suspending = some mask) (hf : f.pending = s.flags.pending) :
    Primed { s with flags := f, pc := pc } := by
  have hs := Pc.scanning_of_suspending hw
  have hs' := Pc.scanning_of_suspending hw'
  refine ⟨by rw [h.lock, hs, hs'], fun hpub => ?_⟩
  have hcov := (covered_iff_mask hw).mp (h.covered hpub)
  rw [covered_iff_mask hw']
  exact hcov.imp (hf ▸ ·) id

/-- Steps inside `wait_for` and around it. -/
theorem Primed.wait {w : Waiter} (h : Primed s)
    (hw : s.pc.suspending = if w = .suspend then some mask else none) (hs : s.pc.scanning = false)
    (hs' : pc.scanning = false) (hw' : w = .suspend → pc.suspending = some mask)
    (hf : f.pending = s.flags.pending) : Primed { s with flags := f, pc := pc } := by
  by_cases hsus : w = .suspend
  · exact h.suspended (by rw [hw, if_pos hsus]) (hw' hsus) hf
  · exact h.goto hs (by rw [hw, if_neg hsus]) hs' (hf ▸ id)

theorem suspending_block (w : Waiter) (mask : U64) :
    (Pc.block w mask).suspending = if w = .suspend then some mask else none := by
  cases w <;> rfl

theorem suspending_waitFor (w : Waiter) (mask : U64) :
    (Pc.waitFor w mask).suspending = if w = .suspend then some mask else none := by
  cases w <;> rfl

theorem suspending_unblock (w : Waiter) (mask : U64) (rc : Process.Futex.Rc) :
    (Pc.unblock w mask rc).suspending = if w = .suspend then some mask else none := by
  cases w <;> rfl

theorem scanning_afterWait (w : Waiter) (mask : U64) (rc : Process.Futex.Rc) :
    (State.afterWait w mask rc).2.scanning = false := by
  unfold State.afterWait
  split
  case h_4 => split <;> rfl
  all_goals rfl

theorem Advances.primed (h : Advances s b es f pc) (hp : Primed s)
    (hu : s.Undisturbed (.go b order)) : Primed { s with flags := f, pc := pc } := by
  cases h with
  | rearmed hpc | rearm hpc | waitInterrupted hpc | waitDone hpc | waitSleep hpc | execDone hpc
  | execSleep hpc =>
    exact hp.goto (by rw [hpc]; rfl) (by rw [hpc]; rfl) rfl id
  | raise hpc => exact hp.goto (by rw [hpc]; rfl) (by rw [hpc]; rfl) rfl fun _ => rfl
  | halted hpc hh =>
    simp only [State.Undisturbed, hpc] at hu
    refine ⟨by rw [hp.lock, hpc]; rfl, fun _ => ?_⟩
    exact (hu hh).elim (fun hf => covered_of_pending hf) fun hq => covered_of_empty rfl hq
  | suspend hpc => exact hp.suspended (by rw [hpc]; rfl) rfl rfl
  | deliverable hpc hl he hm =>
    refine ⟨by rw [hp.lock, hpc]; rfl, fun hpub => ?_⟩
    have hcov := (covered_iff_mask (by rw [hpc]; rfl)).mp (hp.covered hpub)
    refine covered_of_pending (hcov.resolve_right fun hall => ?_)
    rw [hall _ he] at hm
    cases hm
  | undeliverable hpc hl hq =>
    exact ⟨by rw [hp.lock, hpc]; rfl, fun _ => (covered_iff_mask rfl).mpr (.inr hq)⟩
  | block hpc =>
    exact hp.wait (by rw [hpc, suspending_block]) (by rw [hpc]; rfl) rfl
      (fun hw => by rw [hw]; rfl) rfl
  | waitFor hpc =>
    exact hp.wait (by rw [hpc, suspending_waitFor]) (by rw [hpc]; rfl) rfl
      (fun hw => by rw [hw]; rfl) rfl
  | unblock hpc =>
    exact hp.wait (by rw [hpc, suspending_unblock]) (by rw [hpc]; rfl) (scanning_afterWait _ _ _)
      (fun hw => by rw [hw]; rfl) rfl

/-- What a pass of the loop leaves of the state. -/
theorem scanOne_frame {blocked : U64} {n : ℕ} {fds : Option (List ℕ)}
    {deferred rest : List SigEvent} {e : SigEvent}
    (h : s.scanOne blocked n fds deferred b order e rest = some (es, s')) :
    s'.lock = s.lock ∧ s'.flags = s.flags ∧ s'.pc.scanning = true := by
  unfold State.scanOne at h
  split at h
  · cases fds with
    | none =>
      obtain ⟨-, he⟩ := Option.ite_none_right_eq_some.mp h
      cases he
      exact ⟨rfl, rfl, rfl⟩
    | some fds =>
      dsimp only at h
      split at h
      · rename_i hdel
        cases h
        obtain ⟨id, -, he⟩ := Option.map_eq_some_iff.mp hdel
        split at he <;> cases he <;> exact ⟨rfl, rfl, rfl⟩
      · cases h
        exact ⟨rfl, rfl, rfl⟩
  · cases h
    exact ⟨rfl, rfl, rfl⟩

theorem Primed.putBack {chosen : Option SigEvent} {deferred : List SigEvent} (h : Primed s)
    (hpc : s.pc = .scanned chosen deferred) : Primed (s.putBack chosen deferred) := by
  have hlock : s.lock = some .owner := h.lock.mpr (by rw [hpc]; rfl)
  have hpub : s.Published := fun t ht => by rw [hlock] at ht; cases ht
  have hcov := (covered_iff (by rw [hpc]; rfl)).mp (h.covered hpub)
  have hleft : s.left = deferred ++ s.queue := by rw [State.left, hpc]
  have hscan : (s.putBack chosen deferred).pc.scanning = false := by
    unfold State.putBack
    cases chosen <;> rfl
  have hqueue : (s.putBack chosen deferred).queue = s.queue ++ deferred := by
    unfold State.putBack
    dsimp only
    split <;> rfl
  refine ⟨?_, fun _ => ?_⟩
  · have hnone : (s.putBack chosen deferred).lock = none := by
      unfold State.putBack
      dsimp only
      split <;> rfl
    simp [hnone, hscan]
  · by_cases hq : s.queue ++ deferred = []
    · exact covered_of_empty hscan (hqueue.trans hq)
    · refine covered_of_pending ?_
      have hpend : s.flags.pending = true := by
        refine hcov fun hl => hq ?_
        rw [hleft] at hl
        simpa [and_comm] using hl
      unfold State.putBack
      dsimp only
      rw [if_neg fun hc => hq hc.2.2]
      exact hpend

theorem Goes.primed (h : Goes s b order es s') (hp : Primed s)
    (hu : s.Undisturbed (.go b order)) : Primed s' := by
  cases h with
  | enter hpc hl =>
    refine ⟨by simp [Pc.scanning], fun _ => (covered_iff rfl).mpr ?_⟩
    have hpub : s.Published := fun t ht => by rw [hl] at ht; cases ht
    have hcov := (covered_iff (by rw [hpc]; rfl)).mp (hp.covered hpub)
    rwa [left_of_not_scanning (by rw [hpc]; rfl)] at hcov
  | one hpc hq h =>
    obtain ⟨hlock, hflags, hscan⟩ := scanOne_frame h
    have howner : s.lock = some .owner := hp.lock.mpr (by rw [hpc]; rfl)
    have hpub : s.Published := fun t ht => by rw [howner] at ht; cases ht
    have hcov := (covered_iff (by rw [hpc]; rfl)).mp (hp.covered hpub)
    refine ⟨by simp [hlock, howner, hscan], fun _ => covered_of_pending ?_⟩
    rw [hflags]
    exact hcov (by simp [State.left, hpc, hq])
  | stop hpc =>
    refine ⟨by rw [hp.lock, hpc]; rfl, fun hpub => (covered_iff rfl).mpr ?_⟩
    have hcov := (covered_iff (by rw [hpc]; rfl)).mp (hp.covered hpub)
    simpa only [State.left, hpc] using hcov
  | back hpc => exact hp.putBack hpc
  | act hpc =>
    unfold State.actOn
    split <;> exact hp.goto (by rw [hpc]; rfl) (by rw [hpc]; rfl) rfl id
  | advance h => exact h.primed hp hu

theorem primed_of_step (h : s.step a = some (es, s')) (hp : Primed s) (hu : s.Undisturbed a) :
    Primed s' := by
  cases steps_of_step h with
  | go hg => exact hg.primed hp hu
  | start hpc hb =>
    refine hp.goto (by rw [hpc]; rfl) (by rw [hpc]; rfl) ?_ id
    cases hb <;> rfl
  | push he hl =>
    refine ⟨?_, fun hpub => absurd rfl (hpub _)⟩
    have hlock := hp.lock
    rw [hl] at hlock
    simpa using hlock
  | publish hl =>
    refine ⟨?_, fun _ => covered_of_pending rfl⟩
    have hlock := hp.lock
    rw [hl] at hlock
    simpa using hlock
  | aside ha =>
    refine ⟨by rw [ha.lock, ha.pc, hp.lock], fun hpub => ?_⟩
    have hcov := hp.covered fun t => by rw [← ha.lock]; exact hpub t
    unfold State.Covered State.left at hcov ⊢
    rwa [ha.pc, ha.queue, ha.pending]
  | woken | fromOther | read => exact ⟨hp.lock, hp.covered⟩

end

/-- A step that does not leave `do_sigsuspend` with the flag clear and an event in the queue. -/
def UndisturbedStep (s : State) (es : List Note) (s' : State) : Prop :=
  ∃ a, s.step a = some (es, s') ∧ s.Undisturbed a

/-- If the queue holds an event that is not blocked, then `VM_SIGNAL_PENDING` is set, unless the
owner is inside `handle_signals` or a call that changes the mask, or a sender holds the lock of the
queue. -/
theorem pending_of_run {sigmask : U64} {action : ℕ → Action} {fds : List ℕ}
    {fdMask : ℕ → U64} {pipe : ℕ → List SigEvent} {l : List (List Note)} {s : State}
    (h : Run UndisturbedStep (.init sigmask action fds fdMask pipe) l s)
    (hpc : s.pc.inside = false) (hl : s.lock = none)
    (he : ∃ e ∈ s.queue, e.memOf s.sigmask = false) : s.flags.pending = true := by
  have hinit : Primed (.init sigmask action fds fdMask pipe) :=
    ⟨by simp [State.init, Pc.scanning], fun _ => covered_of_empty rfl rfl⟩
  have hp : Primed s := h.invariant hinit fun _ _ _ hp ⟨_, hs, hu⟩ => primed_of_step hs hp hu
  obtain ⟨hscan, hsus⟩ := Pc.of_not_inside hpc
  have hcov := (covered_iff hsus).mp (hp.covered fun t ht => by rw [hl] at ht; cases ht)
  rw [left_of_not_scanning hscan] at hcov
  obtain ⟨e, he, -⟩ := he
  exact hcov (List.ne_nil_of_mem he)

instance (s : State) (a : Act) : Decidable (s.Undisturbed a) :=
  decidable_of_iff ((match a, s.pc with
    | .go _ _, .suspend _ => !s.flags.halting || (s.flags.pending || s.queue.isEmpty)
    | _, _ => true) = true) (by
  unfold State.Undisturbed
  cases a with
  | go b order =>
    cases s.pc with
    | suspend _ => cases s.flags.halting <;> simp
    | _ => simp
  | _ => simp)

/-- An event behind a handler, unblocked by `sigprocmask`. -/
def unblocking : List Act :=
  sending (usr2 0) ++ handling 5 true [] ++ [.sigprocmask .setmask 0, .go true [], .go true []]

theorem pending_of_run_unblocking : ∃ l s, Run UndisturbedStep (catching 0x800) l s ∧
    s.queue = [usr2 0] ∧ s.sigmask = 0 ∧ s.flags.pending = true := by
  obtain ⟨l, s, hrun, hx⟩ := Run.exists_of_play (f := State.step) (C := State.Undisturbed)
    (s := catching 0x800) unblocking (fun x => (x.2.queue, x.2.sigmask, x.2.lock, x.2.pc))
    (x := ([usr2 0], 0, none, .guest)) (by decide +kernel)
  simp only [Prod.mk.injEq] at hx
  obtain ⟨hq, hm, hl, hpc⟩ := hx
  refine ⟨l, s, hrun, hq, hm, pending_of_run hrun (by rw [hpc]; rfl) hl ⟨usr2 0, ?_, ?_⟩⟩
  · rw [hq]
    exact List.mem_singleton.mpr rfl
  · rw [hm]
    decide

/-- In a handler `SIGUSR2` is blocked and arrives; `do_sigsuspend` clears the flag and sleeps. A
stop ends it, and the thread is continued before it comes to a safepoint. Then the handler returns
through `sigreturn`. -/
def interruptedSuspend : List Act :=
  sending (usr1 0) ++ handling 4 true [] ++ handling 3 true [] ++
    [.sigprocmask .block 0x800, .go true []] ++ sending (usr2 0) ++ handling 5 true [] ++
    [.sigsuspend 0x800, .go true [], .go true [], .go true [], .stop true, .go true [], .go true [],
      .go true [], .stop false, .sigreturn 0]

/-- Nothing is blocked, the event is there, nobody is inside an operation, and no flag is set. -/
theorem unblocked_without_flag : ∃ l s, Run Step (catching 0) l s ∧ s.pc = .guest ∧
    s.lock = none ∧ s.sender 1 = none ∧ s.queue = [usr2 0] ∧ s.sigmask = 0 ∧
    s.flags = ⟨false, false, false, false, false⟩ := by
  obtain ⟨l, s, hrun, hx⟩ := exists_run (s := catching 0) interruptedSuspend
    (fun x => decide (x.2.pc = .guest ∧ x.2.lock = none ∧ x.2.sender 1 = none ∧
      x.2.queue = [usr2 0] ∧ x.2.sigmask = 0 ∧ x.2.flags = ⟨false, false, false, false, false⟩))
    (x := true) (by decide +kernel)
  exact ⟨l, s, hrun, of_decide_eq_true hx⟩

end Bpfvm.Signal
