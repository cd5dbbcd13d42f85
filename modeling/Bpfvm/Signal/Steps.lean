import Bpfvm.Signal.Model

/-!
# What a step can do

The cases of a step, with the conditions under which it is made. The invariants below are proved
from these cases.
-/
namespace Bpfvm.Signal
open Option
open Process.Futex (Rc)

/-! ## The owner outside `handle_signals` -/

/-- The cases of `advance`. -/
inductive Advances (s : State) (b : Bool) : List Note → Flags → Pc → Prop
  | rearmed (hpc : s.pc = .rearm) (hl : s.lock = none) (hq : s.queue = []) :
      Advances s b [] s.flags .guest
  | rearm (hpc : s.pc = .rearm) (hl : s.lock = none) : Advances s b [] s.flags .raise
  | raise (hpc : s.pc = .raise) : Advances s b [] { s.flags with pending := true } .guest
  | halted {mask : U64} (hpc : s.pc = .suspend mask) (hh : s.flags.halting = true) :
      Advances s b [.returned .suspend .interrupted] s.flags .guest
  | suspend {mask : U64} (hpc : s.pc = .suspend mask) :
      Advances s b [] s.flags (.suspendScan mask)
  | deliverable {mask : U64} {e : SigEvent} (hpc : s.pc = .suspendScan mask)
      (hl : s.lock = none) (he : e ∈ s.queue) (hm : e.memOf mask = false) :
      Advances s b [.returned .suspend .interrupted] s.flags .guest
  | undeliverable {mask : U64} (hpc : s.pc = .suspendScan mask) (hl : s.lock = none)
      (hq : ∀ e ∈ s.queue, e.memOf mask = true) :
      Advances s b [] { s.flags with pending := false } (.block .suspend mask)
  | waitInterrupted (hpc : s.pc = .waitHead) (hf : (s.flags.pending || s.flags.halting) = true) :
      Advances s b [.returned .wait .interrupted] s.flags .guest
  | waitDone (hpc : s.pc = .waitHead) : Advances s b [.returned .wait .ok] s.flags .guest
  | waitSleep (hpc : s.pc = .waitHead) : Advances s b [] s.flags (.block .wait 0)
  | execDone (hpc : s.pc = .execHead) : Advances s b [.returned .exec .ok] s.flags .guest
  | execSleep (hpc : s.pc = .execHead) : Advances s b [] s.flags (.block .exec 0)
  | block {w : Waiter} {mask : U64} (hpc : s.pc = .block w mask) :
      Advances s b [] { s.flags with blocked := true } (.waitFor w mask)
  | waitFor {w : Waiter} {mask : U64} {rc : Rc} (hpc : s.pc = .waitFor w mask)
      (hw : s.waitFor w b = some rc) : Advances s b [.waited w rc] s.flags (.unblock w mask rc)
  | unblock {w : Waiter} {mask : U64} {rc : Rc} (hpc : s.pc = .unblock w mask rc) :
      Advances s b (State.afterWait w mask rc).1 { s.flags with blocked := false }
        (State.afterWait w mask rc).2

section
variable {s s' : State} {es : List Note} {b : Bool} {order : List ℕ} {a : Act} {f : Flags} {pc : Pc}

theorem advances_of_advance (h : s.advance b = some (es, f, pc)) : Advances s b es f pc := by
  unfold State.advance at h
  cases hpc : s.pc <;> simp only [hpc] at h
  case rearm =>
    rw [ite_none_right_eq_some] at h
    obtain ⟨hl, he⟩ := h
    cases he
    split
    · exact .rearmed hpc hl ‹_›
    · exact .rearm hpc hl
  case raise =>
    cases h
    exact .raise hpc
  case suspend mask =>
    split at h <;> cases h
    · exact .halted hpc ‹_›
    · exact .suspend hpc
  case suspendScan mask =>
    rw [ite_none_right_eq_some] at h
    obtain ⟨hl, h⟩ := h
    split at h <;> cases h
    · rename_i hany
      obtain ⟨e, he, hm⟩ := List.any_eq_true.mp hany
      exact .deliverable hpc hl he (by simpa using hm)
    · rename_i hany
      exact .undeliverable hpc hl (by simpa using hany)
  case waitHead =>
    split at h
    · cases h
      exact .waitInterrupted hpc ‹_›
    · split at h <;> cases h
      · exact .waitDone hpc
      · exact .waitSleep hpc
  case execHead =>
    split at h <;> cases h
    · exact .execDone hpc
    · exact .execSleep hpc
  case block w mask =>
    cases h
    exact .block hpc
  case waitFor w mask =>
    obtain ⟨rc, hw, he⟩ := map_eq_some_iff.mp h
    cases he
    exact .waitFor hpc hw
  case unblock w mask rc =>
    cases h
    exact .unblock hpc
  all_goals cases h

/-! ## The owner -/

/-- The cases of `go`. -/
inductive Goes (s : State) (b : Bool) (order : List ℕ) : List Note → State → Prop
  | enter {blocked : U64} (hpc : s.pc = .handle blocked) (hl : s.lock = none) :
      Goes s b order [] { s with lock := some .owner, pc := .scan blocked queSize none [] }
  | one {blocked : U64} {left : ℕ} {fds : Option (List ℕ)} {deferred rest : List SigEvent}
      {e : SigEvent} {es : List Note} {s' : State} (hpc : s.pc = .scan blocked left fds deferred)
      (hq : s.queue = e :: rest)
      (h : s.scanOne blocked left fds deferred b order e rest = some (es, s')) :
      Goes s b order es s'
  | stop {blocked : U64} {left : ℕ} {fds : Option (List ℕ)} {deferred : List SigEvent}
      (hpc : s.pc = .scan blocked left fds deferred) :
      Goes s b order [] { s with pc := .scanned none deferred }
  | back {chosen : Option SigEvent} {deferred : List SigEvent}
      (hpc : s.pc = .scanned chosen deferred) : Goes s b order [] (s.putBack chosen deferred)
  | act {e : SigEvent} {a : Action} (hpc : s.pc = .act e a) :
      Goes s b order [.fate e (fate e a)] (s.actOn e a)
  | advance {es : List Note} {f : Flags} {pc : Pc} (h : Advances s b es f pc) :
      Goes s b order es { s with flags := f, pc := pc }

theorem goes_of_go (h : s.go b order = some (es, s')) : Goes s b order es s' := by
  unfold State.go at h
  cases hpc : s.pc <;> simp only [hpc] at h
  case handle blocked =>
    rw [ite_none_right_eq_some] at h
    obtain ⟨hl, he⟩ := h
    cases he
    exact .enter hpc hl
  case scan blocked left fds deferred =>
    split at h
    · exact .one hpc ‹_› h
    · cases h
      exact .stop hpc
  case scanned chosen deferred =>
    cases h
    exact .back hpc
  case act e a =>
    cases h
    exact .act hpc
  all_goals
    obtain ⟨⟨es', f, pc⟩, hadv, he⟩ := map_eq_some_iff.mp h
    cases he
    exact .advance (advances_of_advance hadv)

/-! ## All threads -/

/-- The calls the owner begins, with the mask they store and where they go. -/
inductive Begins (s : State) : Act → U64 → Pc → Prop
  | handle : Begins s .handle s.sigmask (.handle s.sigmask)
  | sigprocmask (how : How) (bits : U64) :
      Begins s (.sigprocmask how bits) (sigprocmask how s.sigmask bits) .rearm
  | siglongjmp (bits : U64) : Begins s (.siglongjmp bits) bits .rearm
  | sigsuspend (bits : U64) : Begins s (.sigsuspend bits) bits (.suspend bits)
  | sigreturn (bits : U64) : Begins s (.sigreturn bits) (maskable bits) .guest
  | futexWait (timeout : Bool) :
      Begins s (.futexWait timeout) s.sigmask (.block (.futex timeout) 0)
  | wait : Begins s .wait s.sigmask .waitHead
  | exec : Begins s .exec s.sigmask .execHead

/-- A step that leaves the queue, the mask, `VM_SIGNAL_PENDING`, `VM_BLOCKED` and the owner. -/
structure Aside (s s' : State) : Prop where
  queue : s'.queue = s.queue
  lock : s'.lock = s.lock
  pending : s'.flags.pending = s.flags.pending
  blocked : s'.flags.blocked = s.flags.blocked
  sigmask : s'.sigmask = s.sigmask
  pc : s'.pc = s.pc

/-- The cases of a step. -/
inductive Steps (s : State) : Act → List Note → State → Prop
  | go {b : Bool} {order : List ℕ} {es : List Note} {s' : State} (h : Goes s b order es s') :
      Steps s (.go b order) es s'
  | start {a : Act} {mask : U64} {pc : Pc} (hpc : s.pc = .guest) (h : Begins s a mask pc) :
      Steps s a [] { s with sigmask := mask, pc := pc }
  | push {t : ℕ} {e : SigEvent} (he : s.sender t = some e) (hl : s.lock = none) :
      Steps s (.push t) [.accepted e] { s with queue := s.queue ++ [e], lock := some (.sender t) }
  | publish {t : ℕ} (hl : s.lock = some (.sender t)) :
      Steps s (.publish t) [] { s with
        lock := none
        flags := { s.flags with pending := true }
        sender := Function.update s.sender t none }
  | aside {a : Act} {s' : State} (h : Aside s s') (hp : s'.pipe = s.pipe) : Steps s a [] s'
  | woken : Steps s .wake [.woken] { s with flags := { s.flags with blocked := false } }
  | fromOther {id : ℕ} {e : SigEvent} :
      Steps s (.fromOther id e) [.fromOther id e]
        { s with pipe := Function.update s.pipe id (s.pipe id ++ [e]) }
  | read {id : ℕ} {e : SigEvent} {rest : List SigEvent} (h : s.pipe id = e :: rest) :
      Steps s (.read id) [.read id e] { s with pipe := Function.update s.pipe id rest }

theorem aside_send (s : State) (t : ℕ) (e : SigEvent) :
    Aside s (s.send t e) ∧ (s.send t e).pipe = s.pipe := by
  unfold State.send
  split <;> exact ⟨⟨rfl, rfl, rfl, rfl, rfl, rfl⟩, rfl⟩

theorem steps_of_step (h : s.step a = some (es, s')) : Steps s a es s' := by
  cases a
  case go b order => exact .go (goes_of_go h)
  case send t e =>
    obtain ⟨-, he⟩ := ite_none_right_eq_some.mp h
    cases he
    obtain ⟨haside, hpipe⟩ := aside_send s t e
    exact .aside haside hpipe
  case push t =>
    cases he : s.sender t with
    | none =>
      simp only [State.step, he] at h
      cases h
    | some e =>
      simp only [State.step, he] at h
      obtain ⟨hl, h⟩ := ite_none_right_eq_some.mp h
      split at h <;> cases h
      · exact .aside ⟨rfl, rfl, rfl, rfl, rfl, rfl⟩ rfl
      · exact .push he hl
  case publish t =>
    obtain ⟨hl, he⟩ := ite_none_right_eq_some.mp h
    cases he
    exact .publish hl
  case fromOther id e =>
    cases h
    exact .fromOther
  case read id =>
    cases hp : s.pipe id with
    | nil =>
      simp only [State.step, hp] at h
      cases h
    | cons e rest =>
      simp only [State.step, hp] at h
      cases h
      exact .read hp
  case wake =>
    cases h
    exact .woken
  case stop | kill | debugStop | sigaction | signalfd =>
    cases h
    exact .aside ⟨rfl, rfl, rfl, rfl, rfl, rfl⟩ rfl
  all_goals
    obtain ⟨hpc, he⟩ := ite_none_right_eq_some.mp h
    cases he
  case handle => exact .start hpc .handle
  case sigprocmask how bits => exact .start hpc (.sigprocmask how bits)
  case siglongjmp bits => exact .start hpc (.siglongjmp bits)
  case sigsuspend bits => exact .start hpc (.sigsuspend bits)
  case sigreturn bits => exact .start hpc (.sigreturn bits)
  case futexWait timeout => exact .start hpc (.futexWait timeout)
  case wait => exact .start hpc .wait
  case exec => exact .start hpc .exec

/-- A run of any steps that the actions can be seen to make. -/
theorem exists_run {β : Type*} (as : List Act) (g : List (List Note) × State → β) {x : β}
    (h : (Run.play State.step (fun _ _ => True) s as).map g = some x) :
    ∃ l s', Run Step s l s' ∧ g (l, s') = x := by
  obtain ⟨l, s', hrun, hx⟩ := Run.exists_of_play as g h
  exact ⟨l, s', hrun.mono fun _ _ _ ⟨a, ha, _⟩ => ⟨a, ha⟩, hx⟩

end

/-! ## Some threads and actions -/

/-- A signal from nobody, with a value. -/
def SigEvent.plain (sig : ℕ) (value : U64) (pos : 0 < sig) (lt : sig < nsig) : SigEvent :=
  ⟨sig, 0, 0, 0, value, pos, lt⟩

def usr1 (value : U64) : SigEvent := .plain 10 value (by decide) (by decide)
def usr2 (value : U64) : SigEvent := .plain 12 value (by decide) (by decide)

/-- A thread whose signals all have a handler. -/
def catching (sigmask : U64) : State :=
  .init sigmask (fun _ => ⟨0x1000, 0⟩) [] (fun _ => 0) fun _ => []

/-- An event is sent, pushed and published. -/
def sending (e : SigEvent) : List Act := [.send 1 e, .push 1, .publish 1]

/-- `handle_signals`, with the signalfds in this order. -/
def handling (n : ℕ) (b : Bool) (order : List ℕ) : List Act :=
  .handle :: List.replicate n (.go b order)

end Bpfvm.Signal
