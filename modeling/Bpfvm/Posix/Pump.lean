import Bpfvm.Lib.Runs
import Mathlib.Data.List.Infix

/-!
# The pump of the terminal

`pump_thread_fn` waits in `epoll_wait` for standard input, for the master side of the terminal
and for host signals, and copies what it reads from the master to standard output. A hang-up is
looked at before anything there is to read: its event is not read, and the pump ends with the
batch.

The line discipline is left out: the master reads what was written to the slave.
-/
namespace Bpfvm.Posix.Pump

/-- The descriptors of the `epoll` set. -/
inductive Fd where
  | stdin
  | master
  | sigSfd
  deriving DecidableEq, Repr

/-- `epoll_event`; `hup` is `EPOLLHUP | EPOLLERR`. -/
structure Event where
  fd : Fd
  epollin : Bool
  rdhup : Bool
  hup : Bool
  deriving DecidableEq, Repr

/-- What the reads of a turn return; `w` bytes of what standard input gave are accepted by the
master. -/
inductive Read where
  | failed
  | eof
  | bytes (bs : List (BitVec 8)) (w : ℕ)
  | signals (signos : List ℕ)
  deriving DecidableEq, Repr

/-- Why the loop has ended. -/
inductive End where
  | pollFailed
  | stdinFailed
  | stdinClosed
  | masterFailed
  /-- `has_error`, with the descriptors that hung up -/
  | hasError (fds : List Fd)
  deriving DecidableEq, Repr

/-- Where the pump is: in `epoll_wait`, in a batch with its `has_error` so far, or at its end. -/
inductive Pc where
  | polling
  | batch (events : List Event) (gone : List Fd)
  | done (why : End)
  deriving DecidableEq, Repr

structure State where
  /-- the slave side is closed -/
  closed : Bool
  /-- all that was written to the slave, and what of it the master has not read -/
  wrote : List (BitVec 8)
  unread : List (BitVec 8)
  /-- what the pump has written to standard output and to the master -/
  out : List (BitVec 8)
  input : List (BitVec 8)
  /-- the calls of `host_signal` -/
  signalled : List ℕ
  pc : Pc
  deriving DecidableEq, Repr

def State.start : State := ⟨false, [], [], [], [], [], .polling⟩

inductive Act where
  | write (bs : List (BitVec 8))
  | close
  | pollFails
  | poll (events : List Event)
  /-- the next turn of the `for`, or its end -/
  | turn (r : Read)
  deriving DecidableEq, Repr

/-- There is something to read. -/
def Event.readable (e : Event) : Bool := e.epollin || (e.rdhup && e.fd ≠ .sigSfd)

/-- The event `e`, with `events` to come. A `read` from the master waits until there is something
to read or the slave side is closed. -/
def State.turn (s : State) (e : Event) (events : List Event) (gone : List Fd) (r : Read) :
    Option State :=
  if e.hup then some { s with pc := .batch events (e.fd :: gone) }
  else if e.readable = false then some { s with pc := .batch events gone }
  else match e.fd, r with
  | .sigSfd, .signals signos =>
    -- `SIGWINCH` sets the size of the terminal
    some { s with signalled := s.signalled ++ signos.filter (· ≠ 28), pc := .batch events gone }
  | .stdin, .failed => some { s with pc := .done .stdinFailed }
  | .stdin, .eof => some { s with pc := .done .stdinClosed }
  | .stdin, .bytes bs w => some { s with input := s.input ++ bs.take w, pc := .batch events gone }
  | .master, .bytes bs _ =>
    if bs ≠ [] ∧ bs.length ≤ 4096 ∧ bs <+: s.unread then
      some { s with
        unread := s.unread.drop bs.length, out := s.out ++ bs, pc := .batch events gone }
    else none
  | .master, _ =>
    if s.closed ∧ s.unread = [] then some { s with pc := .done .masterFailed } else none
  | _, _ => none

def State.step (s : State) : Act → Option State
  | .write bs =>
    if s.closed then none else some { s with wrote := s.wrote ++ bs, unread := s.unread ++ bs }
  | .close => some { s with closed := true }
  | .pollFails => if s.pc = .polling then some { s with pc := .done .pollFailed } else none
  | .poll events =>
    -- the master hangs up when the slave side is closed
    if s.pc = .polling ∧ (s.closed ∨ ∀ e ∈ events, e.fd = .master → e.hup = false) then
      some { s with pc := .batch events [] }
    else none
  | .turn r =>
    match s.pc with
    | .batch [] gone =>
      some { s with pc := if gone = [] then .polling else .done (.hasError gone) }
    | .batch (e :: events) gone => s.turn e events gone r
    | _ => none

/-! ## What is left behind -/

/-- The pump has ended because the slave side is closed. -/
def End.bySlave : End → Prop
  | .masterFailed => True
  | .hasError fds => .master ∈ fds
  | _ => False

/-- The master has hung up, and the pump ends for it, now or with the batch. -/
def Pc.Ends : Pc → Prop
  | .polling => False
  | .batch events gone => (∃ e ∈ events, e.fd = .master ∧ e.hup = true) ∨ .master ∈ gone
  | .done why => why.bySlave

/-- A hang-up of the master is reported only when it has been read empty. -/
def State.Drained (s : State) : Act → Prop
  | .poll events => s.unread = [] ∨ ∀ e ∈ events, e.fd = .master → e.hup = false
  | _ => True

instance (s : State) (a : Act) : Decidable (s.Drained a) := by
  unfold State.Drained
  split <;> infer_instance

structure Ok (s : State) : Prop where
  /-- nothing is lost on the way, and nothing is out of order -/
  kept : s.out ++ s.unread = s.wrote
  drained : s.pc.Ends → s.closed = true ∧ s.unread = []

variable {s s' : State} {e : Event} {events : List Event} {gone : List Fd} {r : Read}

theorem Ok.turn (h : Ok s) (hpc : s.pc = .batch (e :: events) gone)
    (hs : s.turn e events gone r = some s') : Ok s' := by
  have hd : (Pc.batch (e :: events) gone).Ends → s.closed = true ∧ s.unread = [] := by
    rw [← hpc]
    exact h.drained
  have hnext (h : (Pc.batch events gone).Ends) : s.closed = true ∧ s.unread = [] :=
    hd (h.imp_left fun ⟨e', he, h'⟩ => ⟨e', List.mem_cons_of_mem e he, h'⟩)
  unfold State.turn at hs
  by_cases hhup : e.hup = true
  · rw [if_pos hhup] at hs
    cases hs
    refine ⟨h.kept, fun hends => ?_⟩
    rcases hends with hev | hgone
    · exact hnext (.inl hev)
    · rcases List.mem_cons.mp hgone with hfd | hgone
      · exact hd (.inl ⟨e, List.mem_cons_self, hfd.symm, hhup⟩)
      · exact hnext (.inr hgone)
  · rw [if_neg hhup] at hs
    split at hs
    · cases hs
      exact ⟨h.kept, hnext⟩
    · split at hs
      case h_1 | h_4 =>
        cases hs
        exact ⟨h.kept, hnext⟩
      case h_2 | h_3 =>
        cases hs
        exact ⟨h.kept, False.elim⟩
      case h_5 =>
        split_ifs at hs with hc
        cases hs
        obtain ⟨-, -, rest, hrest⟩ := hc
        refine ⟨?_, fun hends => ⟨(hnext hends).1, ?_⟩⟩
        · dsimp only
          rw [← h.kept, ← hrest, List.drop_left, List.append_assoc]
        · rw [(hnext hends).2, List.drop_nil]
      case h_6 =>
        split_ifs at hs with hc
        cases hs
        exact ⟨h.kept, fun _ => hc⟩
      case h_7 => cases hs

theorem Ok.step {a : Act} (h : Ok s) (ha : s.Drained a) (hs : s.step a = some s') : Ok s' := by
  cases a with
  | write bs =>
    simp only [State.step] at hs
    split_ifs at hs with hc
    cases hs
    refine ⟨?_, fun hends => absurd (h.drained hends).1 hc⟩
    dsimp only
    rw [← List.append_assoc, h.kept]
  | close =>
    cases hs
    exact ⟨h.kept, fun hends => ⟨rfl, (h.drained hends).2⟩⟩
  | pollFails =>
    simp only [State.step] at hs
    split_ifs at hs
    cases hs
    exact ⟨h.kept, False.elim⟩
  | poll events =>
    simp only [State.step] at hs
    split_ifs at hs with hc
    cases hs
    refine ⟨h.kept, fun hends => ?_⟩
    rcases hends with ⟨e, he, hfd, hhup⟩ | hnil
    · have hnot : ¬ ∀ e ∈ events, e.fd = .master → e.hup = false := by
        intro hall
        rw [hall e he hfd] at hhup
        cases hhup
      exact ⟨hc.2.resolve_right hnot, ha.resolve_right hnot⟩
    · cases hnil
  | turn r =>
    simp only [State.step] at hs
    split at hs
    · next gone hpc =>
      cases hs
      refine ⟨h.kept, fun hends => h.drained ?_⟩
      rw [hpc]
      by_cases hg : gone = []
      · simp [hg, Pc.Ends] at hends
      · simp only [if_neg hg] at hends
        exact .inr hends
    · next hpc => exact h.turn hpc hs
    · cases hs

/-- **Terminal output is complete** when the pump ends for the slave side, along every run in
which a hang-up of the master is reported only when it has been read empty. -/
theorem output_complete {l : List Act}
    (h : Run (fun s a s' => s.step a = some s' ∧ s.Drained a) State.start l s) {why : End}
    (hpc : s.pc = .done why) (hwhy : why.bySlave) : s.out = s.wrote := by
  have hok : Ok s := h.invariant ⟨rfl, False.elim⟩ fun s a s' hs hstep => hs.step hstep.2 hstep.1
  have hempty := (hok.drained (by rw [hpc]; exact hwhy)).2
  rw [← hok.kept, hempty, List.append_nil]

/-- A byte is written and read, and then the slave side is closed. -/
def readRun : List Act :=
  [.write [65], .poll [⟨.master, true, false, false⟩], .turn (.bytes [65] 0), .turn .eof, .close,
    .poll [⟨.master, false, false, true⟩], .turn .eof, .turn .eof]

theorem output_complete_readRun :
    ∃ s, Run (fun s a s' => s.step a = some s' ∧ s.Drained a) State.start readRun s ∧
      s.pc = .done (.hasError [.master]) ∧ s.out = s.wrote ∧ s.wrote = [65] := by
  have hrun : Run _ State.start readRun
      ⟨true, [65], [], [65], [], [], .done (.hasError [.master])⟩ :=
    Run.of_foldlM_if (f := State.step) (C := State.Drained) (by decide)
  exact ⟨_, hrun, rfl, output_complete hrun rfl List.mem_cons_self, rfl⟩

/-- The master is reported readable and hung up in one event: the byte is not read. -/
theorem output_lost : ∃ l s, Run (fun s a s' => State.step s a = some s') State.start l s ∧
    s.pc = .done (.hasError [.master]) ∧ s.wrote = [65] ∧ s.out = [] := by
  have hrun : Run _ State.start _ ⟨true, [65], [65], [], [], [], .done (.hasError [.master])⟩ :=
    Run.of_foldlM (f := State.step)
      (l := [.write [65], .close, .poll [⟨.master, true, false, true⟩], .turn .eof, .turn .eof])
      (by decide)
  exact ⟨_, _, hrun, rfl, rfl, rfl⟩

end Bpfvm.Posix.Pump
