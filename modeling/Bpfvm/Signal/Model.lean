import Bpfvm.Cpu.Signals
import Bpfvm.Process.Futex
import Bpfvm.Process.Tasks

/-!
# The signals of one thread

`queue_signal` is run by any thread against the queue, the mask and the flags of another. The rest
is run by the owner of the queue itself: `handle_signals`, the calls that change its mask, and the
calls that sleep in `wait_for`. Every access to the queue, the mask, a flag, a disposition or a
signalfd is a step of its own, as is a region under the lock of the queue that touches only what
this lock protects; memory is sequentially consistent.
-/
namespace Bpfvm.Signal
open Function
open Process (isDefaultTerm)
open Process.Futex (Rc)

/-- `NSIG` of the host. -/
def nsig : ℕ := 65

/-- `BPF_SIGNAL_QUE_SIZE`. -/
def queSize : ℕ := 1024

def sigkill : ℕ := 9
def sigcont : ℕ := 18
def sigstop : ℕ := 19

/-- `SigEvent`. All senders check the range of the signal number. -/
structure SigEvent where
  sig : ℕ
  sender : U64
  code : U32
  status : U32
  value : U64
  pos : 0 < sig
  lt : sig < nsig
  deriving DecidableEq, Repr

/-- Whether the bit of the signal is set in a mask. -/
def SigEvent.memOf (e : SigEvent) (mask : U64) : Bool := mask.getLsbD (e.sig - 1)

/-- `signal_action`, without the mask that delivery does not use. -/
structure Action where
  handler : U64
  flags : U32
  deriving DecidableEq, Repr

def Action.isDefault (a : Action) : Bool := a.handler = 0
def Action.isIgnored (a : Action) : Bool := a.handler = 1

/-- `is_default_stop`. -/
def isDefaultStop (sig : ℕ) : Bool := sig = 20 ∨ sig = 21 ∨ sig = 22

/-- `signal_ignorable`. -/
def signalIgnorable (a : Action) (sig : ℕ) : Bool :=
  a.isIgnored || a.isDefault && !isDefaultTerm sig && !isDefaultStop sig

/-- What `queue_signal` does with a signal. -/
inductive Route where
  | kill
  | stop
  | cont
  | drop
  | enqueue
  deriving DecidableEq, Repr

/-- The tests of `queue_signal`, from the disposition and the mask of the target. -/
def route (a : Action) (mask : U64) (e : SigEvent) : Route :=
  if e.sig = sigkill then .kill
  else if e.sig = sigstop ∨ (isDefaultStop e.sig && a.isDefault) then .stop
  else if e.sig = sigcont then .cont
  else if signalIgnorable a e.sig && !e.memOf mask then .drop
  else .enqueue

/-- What becomes of the event that `handle_signals` has chosen. -/
inductive Fate where
  | ignored
  /-- `do_exit_group` -/
  | terminated
  /-- `stop_process` -/
  | stopped
  | handler (info : Cpu.SigInfo)

/-- The end of `handle_signals`. -/
def fate (e : SigEvent) (a : Action) : Fate :=
  if a.isIgnored then .ignored
  else if a.isDefault then
    if isDefaultTerm e.sig then .terminated
    else if isDefaultStop e.sig then .stopped
    else .ignored
  else .handler ⟨BitVec.ofNat 32 e.sig, a.handler, a.flags.signExtend 64, e.sender, e.value, e.code,
    e.status⟩

inductive How where
  | block
  | unblock
  | setmask
  deriving DecidableEq, Repr

/-- `SIGKILL` and `SIGSTOP` taken out of a mask. -/
def maskable (bits : U64) : U64 :=
  bits &&& ~~~(Cpu.Machine.sigkillBit ||| Cpu.Machine.sigstopBit)

/-- The new mask of `do_sigprocmask`. -/
def sigprocmask (how : How) (old bits : U64) : U64 :=
  match how with
  | .block => old ||| maskable bits
  | .unblock => old &&& ~~~maskable bits
  | .setmask => maskable bits

/-! ## The owner -/

/-- The calls that sleep in `wait_for`. -/
inductive Waiter where
  | suspend
  | futex (timeout : Bool)
  /-- `do_wait_common` -/
  | wait
  /-- the wait of `do_execveat` for its siblings -/
  | exec
  deriving DecidableEq, Repr

/-- Where the owner is. -/
inductive Pc where
  /-- anywhere else, in guest code for instance -/
  | guest
  /-- in `handle_signals` with the mask read -/
  | handle (blocked : U64)
  /-- in its loop, `left` passes still to go; the snapshot of the signalfds is taken at the first
  blocked event -/
  | scan (blocked : U64) (left : ℕ) (fds : Option (List ℕ)) (deferred : List SigEvent)
  | scanned (chosen : Option SigEvent) (deferred : List SigEvent)
  /-- out of the lock, with the disposition read -/
  | act (e : SigEvent) (a : Action)
  | ended
  /-- the mask has been stored, the queue still has to be looked at -/
  | rearm
  /-- the queue was not empty -/
  | raise
  /-- the head of the loop of `do_sigsuspend` -/
  | suspend (mask : U64)
  | suspendScan (mask : U64)
  | waitHead
  | execHead
  /-- about to set `VM_BLOCKED` -/
  | block (w : Waiter) (mask : U64)
  | waitFor (w : Waiter) (mask : U64)
  /-- out of `wait_for`, about to clear `VM_BLOCKED` -/
  | unblock (w : Waiter) (mask : U64) (rc : Rc)
  deriving DecidableEq, Repr

structure Flags where
  pending : Bool
  stopped : Bool
  killed : Bool
  debugStop : Bool
  blocked : Bool
  deriving DecidableEq, Repr

/-- `VM_KILLED | VM_STOPPED | VM_DEBUG_STOP`. -/
def Flags.halting (f : Flags) : Bool := f.killed || f.stopped || f.debugStop

inductive Holder where
  | owner
  | sender (t : ℕ)
  deriving DecidableEq, Repr

/-- The queue with the holder of its lock over several steps, the flags and the mask of the owner,
the dispositions, the signalfds with what is in their pipes, and where everybody is. -/
structure State where
  queue : List SigEvent
  lock : Option Holder
  flags : Flags
  sigmask : U64
  action : ℕ → Action
  fds : List ℕ
  fdMask : ℕ → U64
  pipe : ℕ → List SigEvent
  pc : Pc
  /-- the event with which a thread is in `queue_signal`, on its way to the queue -/
  sender : ℕ → Option SigEvent

/-- What a step shows. -/
inductive Note where
  | accepted (e : SigEvent)
  | fate (e : SigEvent) (f : Fate)
  /-- written to a signalfd, whose mask is read for that -/
  | toFd (id : ℕ) (mask : U64) (e : SigEvent)
  /-- taken for a signalfd whose pipe did not take it -/
  | lost (id : ℕ) (e : SigEvent)
  /-- written to a signalfd by another thread of the process -/
  | fromOther (id : ℕ) (e : SigEvent)
  | read (id : ℕ) (e : SigEvent)
  /-- a `wakeup(true)` for the owner -/
  | woken
  /-- `wait_for` returns -/
  | waited (w : Waiter) (rc : Rc)
  /-- the call returns; `SYSCALL_RESTART` is the interrupted one -/
  | returned (w : Waiter) (rc : Rc)

inductive Act where
  /-- the next access of the owner, with what the host answers and, for a snapshot of the
  signalfds, their order -/
  | go (b : Bool) (order : List ℕ)
  | handle
  | sigprocmask (how : How) (bits : U64)
  /-- `do_siglongjmp` with a mask in the buffer -/
  | siglongjmp (bits : U64)
  | sigsuspend (bits : U64)
  | sigreturn (bits : U64)
  | futexWait (timeout : Bool)
  | wait
  | exec
  | send (t : ℕ) (e : SigEvent)
  | push (t : ℕ)
  | publish (t : ℕ)
  /-- stopped or continued with its group -/
  | stop (b : Bool)
  | kill
  | debugStop (b : Bool)
  /-- a `wakeup(true)` -/
  | wake
  | sigaction (sig : ℕ) (a : Action)
  /-- a new signalfd, or a new mask for one -/
  | signalfd (id : ℕ) (mask : U64)
  | fromOther (id : ℕ) (e : SigEvent)
  | read (id : ℕ)
  deriving DecidableEq, Repr

namespace State

def goto (s : State) (pc : Pc) : State := { s with pc := pc }

def setFlags (s : State) (f : Flags → Flags) : State := { s with flags := f s.flags }

/-- `SignalFd::deliver` of the first signalfd that takes the event. -/
def deliver (s : State) (fds : List ℕ) (e : SigEvent) (b : Bool) : Option (Note × State) :=
  (fds.find? fun id => e.memOf (s.fdMask id)).map fun id =>
    if b then
      (.toFd id (s.fdMask id) e, { s with pipe := update s.pipe id (s.pipe id ++ [e]) })
    else (.lost id e, s)

/-- One pass of the loop of `handle_signals` over the first event of the queue. -/
def scanOne (s : State) (blocked : U64) (left : ℕ) (fds : Option (List ℕ))
    (deferred : List SigEvent) (b : Bool) (order : List ℕ) (e : SigEvent) (rest : List SigEvent) :
    Option (List Note × State) :=
  if e.memOf blocked then
    match fds with
    | none =>
      if order.Perm s.fds then some ([], s.goto (.scan blocked left (some order) deferred))
        else none
    | some fds =>
      let s := { s with queue := rest }
      match s.deliver fds e b with
      | some (n, s) => some ([n], s.goto (.scan blocked (left - 1) (some fds) deferred))
      | none => some ([], s.goto (.scan blocked (left - 1) (some fds) (deferred ++ [e])))
  else some ([], { s with queue := rest }.goto (.scanned (some e) deferred))

/-- The blocked events go back, and `VM_SIGNAL_PENDING` is cleared if nothing was there. -/
def putBack (s : State) (chosen : Option SigEvent) (deferred : List SigEvent) : State :=
  let s := { s with queue := s.queue ++ deferred, lock := none }
  let s := if chosen = none ∧ deferred = [] ∧ s.queue = [] then
    s.setFlags fun f => { f with pending := false } else s
  s.goto (match chosen with
    | none => .guest
    | some e => .act e (s.action e.sig))

/-- What follows the choice. -/
def actOn (s : State) (e : SigEvent) (a : Action) : State :=
  match fate e a with
  | .ignored => s.goto .guest
  | .terminated => s.goto .ended
  | .stopped => (s.setFlags fun f => { f with stopped := true }).goto .guest
  | .handler _ => s.goto .guest

/-- `wait_for`, unless it sleeps; `b` tells whether the time is up. -/
def waitFor (s : State) (w : Waiter) (b : Bool) : Option Rc :=
  if !s.flags.blocked then some .ok
  else if s.flags.pending || s.flags.halting then some .interrupted
  else if w = .futex true ∧ b then some .timedOut
  else none

/-- Where a call goes behind `wait_for`. -/
def afterWait (w : Waiter) (mask : U64) (rc : Rc) : List Note × Pc :=
  match w with
  | .suspend => ([], .suspend mask)
  | .futex _ => ([.returned w rc], .guest)
  | .wait => ([], .waitHead)
  | .exec => if rc = .ok then ([], .execHead) else ([.returned w .interrupted], .guest)

/-- The next access of the owner outside `handle_signals`: what it shows, the flags and where the
owner is then. -/
def advance (s : State) (b : Bool) : Option (List Note × Flags × Pc) :=
  let f := s.flags
  match s.pc with
  | .rearm => if s.lock = none then some ([], f, if s.queue = [] then .guest else .raise) else none
  | .raise => some ([], { f with pending := true }, .guest)
  | .suspend mask =>
    if f.halting then some ([.returned .suspend .interrupted], f, .guest)
    else some ([], f, .suspendScan mask)
  | .suspendScan mask =>
    if s.lock = none then
      if s.queue.any (!·.memOf mask) then some ([.returned .suspend .interrupted], f, .guest)
      else some ([], { f with pending := false }, .block .suspend mask)
    else none
  | .waitHead =>
    if f.pending || f.halting then some ([.returned .wait .interrupted], f, .guest)
    else if b then some ([.returned .wait .ok], f, .guest)
    else some ([], f, .block .wait 0)
  | .execHead =>
    if b then some ([.returned .exec .ok], f, .guest) else some ([], f, .block .exec 0)
  | .block w mask => some ([], { f with blocked := true }, .waitFor w mask)
  | .waitFor w mask => (s.waitFor w b).map fun rc => ([.waited w rc], f, .unblock w mask rc)
  | .unblock w mask rc =>
    let (es, pc) := afterWait w mask rc
    some (es, { f with blocked := false }, pc)
  | _ => none

/-- The next access of the owner, if it can be made. -/
def go (s : State) (b : Bool) (order : List ℕ) : Option (List Note × State) :=
  match s.pc with
  | .handle blocked =>
    if s.lock = none then
      some ([], { s with lock := some .owner }.goto (.scan blocked queSize none []))
    else none
  | .scan blocked left fds deferred =>
    match left, s.queue with
    | _ + 1, e :: rest => s.scanOne blocked left fds deferred b order e rest
    | _, _ => some ([], s.goto (.scanned none deferred))
  | .scanned chosen deferred => some ([], s.putBack chosen deferred)
  | .act e a => some ([.fate e (fate e a)], s.actOn e a)
  | _ => (s.advance b).map fun (es, f, pc) => (es, { s with flags := f, pc := pc })

/-- `queue_signal` as far as its lock. -/
def send (s : State) (t : ℕ) (e : SigEvent) : State :=
  match route (s.action e.sig) s.sigmask e with
  | .kill => s.setFlags fun f => { f with killed := true }
  | .stop => s.setFlags fun f => { f with stopped := true }
  | .cont => s.setFlags fun f => { f with stopped := false }
  | .drop => s
  | .enqueue => { s with sender := update s.sender t (some e) }

/-- One step of some thread. -/
def step (s : State) : Act → Option (List Note × State)
  | .go b order => s.go b order
  | .handle => if s.pc = .guest then some ([], s.goto (.handle s.sigmask)) else none
  | .sigprocmask how bits =>
    if s.pc = .guest then
      some ([], { s with sigmask := Signal.sigprocmask how s.sigmask bits }.goto .rearm)
    else none
  | .siglongjmp bits =>
    if s.pc = .guest then some ([], { s with sigmask := bits }.goto .rearm) else none
  | .sigsuspend bits =>
    if s.pc = .guest then some ([], { s with sigmask := bits }.goto (.suspend bits)) else none
  | .sigreturn bits =>
    if s.pc = .guest then some ([], { s with sigmask := maskable bits }.goto .guest) else none
  | .futexWait timeout =>
    if s.pc = .guest then some ([], s.goto (.block (.futex timeout) 0)) else none
  | .wait => if s.pc = .guest then some ([], s.goto .waitHead) else none
  | .exec => if s.pc = .guest then some ([], s.goto .execHead) else none
  | .send t e => if s.sender t = none then some ([], s.send t e) else none
  | .push t =>
    match s.sender t with
    | none => none
    | some e =>
      if s.lock = none then
        if queSize ≤ s.queue.length then
          some ([], { s with sender := update s.sender t none })
        else some ([.accepted e], { s with queue := s.queue ++ [e], lock := some (.sender t) })
      else none
  | .publish t =>
    if s.lock = some (.sender t) then
      let s := s.setFlags fun f => { f with pending := true }
      some ([], { s with lock := none, sender := update s.sender t none })
    else none
  | .stop b => some ([], s.setFlags fun f => { f with stopped := b })
  | .kill => some ([], s.setFlags fun f => { f with killed := true })
  | .debugStop b => some ([], s.setFlags fun f => { f with debugStop := b })
  | .wake => some ([.woken], s.setFlags fun f => { f with blocked := false })
  | .sigaction sig a => some ([], { s with action := update s.action sig a })
  | .signalfd id mask =>
    let fds := if id ∈ s.fds then s.fds else s.fds ++ [id]
    some ([], { s with fds := fds, fdMask := update s.fdMask id mask })
  | .fromOther id e =>
    some ([.fromOther id e], { s with pipe := update s.pipe id (s.pipe id ++ [e]) })
  | .read id =>
    match s.pipe id with
    | [] => none
    | e :: rest => some ([.read id e], { s with pipe := update s.pipe id rest })

/-- A new thread with the mask of its creator and the dispositions and signalfds of its process. -/
def init (sigmask : U64) (action : ℕ → Action) (fds : List ℕ) (fdMask : ℕ → U64)
    (pipe : ℕ → List SigEvent) : State where
  queue := []
  lock := none
  flags := ⟨false, false, false, false, false⟩
  sigmask := sigmask
  action := action
  fds := fds
  fdMask := fdMask
  pipe := pipe
  pc := .guest
  sender := fun _ => none

end State

/-- One step of some thread, with what it shows. -/
def Step (s : State) (es : List Note) (s' : State) : Prop := ∃ a, s.step a = some (es, s')

end Bpfvm.Signal
