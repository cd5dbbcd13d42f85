import Bpfvm.Process.Lifecycle

/-!
# `do_wait_common` against exits and stops, access by access

`claim_one` holds `pid_map_mutex` for its whole scan, but the flags it reads belong to the
children, whose threads store them without that lock. Here every load, store and
compare-and-swap of those flags is a step of its own, as is every entry into a region under
`pid_map_mutex` or under the `mtx` of a thread group; memory is sequentially consistent. The
rest of the life of a group is as in the model of the tasks.

A child that matches is the leader of its group, so its group is found under its pid.
-/
namespace Bpfvm.Process
open Function

/-- The arguments of `do_wait_common`, with the group of its caller. -/
structure WaitArgs where
  me : ℕ
  idtype : ℕ
  id : U64
  options : U32
  deriving DecidableEq, Repr

/-- `options & WNOWAIT`. -/
def WaitArgs.nowait (w : WaitArgs) : Bool := w.options &&& wnowait ≠ 0

/-- What `claim_one` does next with a child that matches. -/
inductive Look where
  | exited
  /-- found exited: fill in `exit_code` and return -/
  | code
  | stopped
  | reported
  /-- the compare-and-swap of `stop_reported` -/
  | take
  /-- fill in `stop_sig` and return -/
  | sig
  deriving DecidableEq, Repr

/-- What the registration of a waiter does next with a child, under its `mtx`. -/
inductive Check where
  | exited
  | stopped
  | reported
  | push
  deriving DecidableEq, Repr

/-- Where a thread is in `stop_process`, in `fini` or in `do_wait_common`. -/
inductive Pc where
  /-- anywhere else -/
  | run
  | storeStopped (g : ℕ) (sig : U32)
  | storeSig (g : ℕ) (sig : U32)
  | report (g : ℕ)
  | storeExited (g : ℕ)
  /-- `wake_waiters` of `g`, the list still to be taken; `fini` goes on to reparent -/
  | notify (g : ℕ) (fini : Bool)
  | wake (g : ℕ) (fini : Bool) (ws : List ℕ)
  | reparent (g : ℕ)
  /-- about to call `claim_one`, the first time or in the loop -/
  | claim (w : WaitArgs) (first : Bool)
  | scan (w : WaitArgs) (first any : Bool) (rest : List ℕ)
  | look (stage : Look) (w : WaitArgs) (first : Bool) (p : ℕ) (rest : List ℕ)
  /-- the head of the loop -/
  | head (w : WaitArgs)
  | snapshot (w : WaitArgs)
  | block (w : WaitArgs) (kids : List ℕ)
  | register (w : WaitArgs) (kids rest : List ℕ) (hasEvent : Bool)
  | check (stage : Check) (w : WaitArgs) (kids : List ℕ) (p : ℕ) (rest : List ℕ) (hasEvent : Bool)
  /-- in `wait_for` -/
  | asleep (w : WaitArgs) (kids : List ℕ)
  | unblock (w : WaitArgs) (kids : List ℕ)
  /-- the calls of `remove_waiter` -/
  | remove (w : WaitArgs) (rest : List ℕ)
  deriving DecidableEq, Repr

/-- What a step shows of the events of the children. -/
inductive Note where
  /-- `stop_reported` went up -/
  | reported (g : ℕ)
  | stopSig (g : ℕ) (sig : U32)
  | published (g : ℕ) (code : U32)
  /-- `t` took down `stop_reported` -/
  | tookStop (t p : ℕ)
  /-- `t` found `p` exited and removed it from `pid_map` -/
  | tookExit (t p : ℕ)
  /-- `do_wait_common` returns with the event -/
  | event (t : ℕ) (nowait : Bool) (ev : WaitEvent)
  deriving DecidableEq, Repr

/-- The processes, the two kinds of locks with their holders, the `waiters` of each group,
`VM_BLOCKED`, and whether a flag is set that ends `wait_for` with `EINTR`. -/
structure Waiting where
  procs : Procs
  lock : Option ℕ
  mtx : ℕ → Option ℕ
  waiters : ℕ → List ℕ
  blocked : ℕ → Bool
  flagged : ℕ → Bool
  pc : ℕ → Pc

namespace Waiting

def goto (s : Waiting) (t : ℕ) (pc : Pc) : Waiting :=
  { s with pc := update s.pc t pc }

def setGroup (s : Waiting) (g : ℕ) (f : ThreadGroup → ThreadGroup) : Waiting :=
  { s with procs := s.procs.setGroup g f }

def isMatch (s : Waiting) (w : WaitArgs) (p : ℕ) : Bool :=
  s.procs.matchChild w.me w.idtype w.id p

/-- `claim_one` at a child that matches. -/
def lookAt (s : Waiting) (t : ℕ) (w : WaitArgs) (first : Bool) (p : ℕ) (rest : List ℕ) :
    Look → List Note × Waiting
  | .exited =>
    if (s.procs.group p).exited then
      if w.nowait then ([], s.goto t (.look .code w first p rest))
      else
        ([.tookExit t p],
          { s with procs := { s.procs with pidMap := s.procs.pidMap.erase p } }.goto t
            (.look .code w first p rest))
    else ([], s.goto t (.look .stopped w first p rest))
  | .code =>
    ([.event t w.nowait ⟨p, true, 0, (s.procs.group p).exitCode.signExtend 64⟩],
      { s with lock := none }.goto t .run)
  | .stopped =>
    ([], s.goto t (if (s.procs.group p).stopped then .look .reported w first p rest
      else .scan w first true rest))
  | .reported =>
    ([], s.goto t (if (s.procs.group p).stopReported then
        .look (if w.nowait then .sig else .take) w first p rest
      else .scan w first true rest))
  | .take =>
    if (s.procs.group p).stopReported then
      ([.tookStop t p], (s.setGroup p fun k => { k with stopReported := false }).goto t
        (.look .sig w first p rest))
    else ([], s.goto t (.scan w first true rest))
  | .sig =>
    ([.event t w.nowait ⟨p, false, (s.procs.group p).stopSig, 0⟩],
      { s with lock := none }.goto t .run)

/-- Leave the `mtx` of `p` for the next child to register with. -/
def checked (s : Waiting) (t : ℕ) (w : WaitArgs) (kids : List ℕ) (p : ℕ) (rest : List ℕ)
    (hasEvent : Bool) : Waiting :=
  { s with mtx := update s.mtx p none }.goto t (.register w kids rest hasEvent)

/-- `child_has_event` and the registration, under the `mtx` of `p`. -/
def checkAt (s : Waiting) (t : ℕ) (w : WaitArgs) (kids : List ℕ) (p : ℕ) (rest : List ℕ)
    (hasEvent : Bool) : Check → Waiting
  | .exited =>
    if (s.procs.group p).exited then s.checked t w kids p rest true
    else s.goto t (.check .stopped w kids p rest hasEvent)
  | .stopped =>
    s.goto t (.check
      (if (s.procs.group p).stopped then .reported else .push) w kids p rest hasEvent)
  | .reported =>
    if (s.procs.group p).stopReported then s.checked t w kids p rest true
    else s.goto t (.check .push w kids p rest hasEvent)
  | .push =>
    { s with waiters := update s.waiters p (s.waiters p ++ [t]) }.checked t w kids p rest
      hasEvent

/-- The next access of thread `t`, if it can be made. `order` is the order in which a scan
of `pid_map` that starts here walks it. -/
def go (s : Waiting) (t : ℕ) (order : List ℕ) : Option (List Note × Waiting) :=
  match s.pc t with
  | .run => none
  -- stop_process
  | .storeStopped g sig =>
    some ([], (s.setGroup g fun k => { k with stopped := true }).goto t (.storeSig g sig))
  | .storeSig g sig =>
    some ([.stopSig g sig], (s.setGroup g fun k => { k with stopSig := sig }).goto t (.report g))
  | .report g =>
    if (s.procs.group g).stopReported then some ([], s.goto t .run)
    else
      some ([.reported g],
        (s.setGroup g fun k => { k with stopReported := true }).goto t (.notify g false))
  -- fini, and wake_waiters from both
  | .storeExited g =>
    some ([.published g (s.procs.group g).exitCode],
      (s.setGroup g fun k => { k with exited := true }).goto t (.notify g true))
  | .notify g fini =>
    if s.mtx g = none then
      some ([], { s with waiters := update s.waiters g [] }.goto t
        (.wake g fini (s.waiters g)))
    else none
  | .wake g fini [] => some ([], s.goto t (if fini then .reparent g else .run))
  | .wake g fini (w :: ws) =>
    some ([], { s with blocked := update s.blocked w false }.goto t (.wake g fini ws))
  | .reparent g =>
    if s.lock = none then
      some ([], { s with procs := (s.procs.reparent g).setPhase t .gone }.goto t .run)
    else none
  -- do_wait_common
  | .claim w first =>
    if s.lock = none ∧ order.Perm s.procs.pidMap then
      some ([], { s with lock := some t }.goto t (.scan w first false order))
    else none
  | .scan w first any [] =>
    some ([], { s with lock := none }.goto t
      (if !any then .run
      else if !first then .snapshot w
      else if w.options &&& wnohang ≠ 0 then .run else .head w))
  | .scan w first any (p :: rest) =>
    some ([], s.goto t (if s.isMatch w p then .look .exited w first p rest
      else .scan w first any rest))
  | .look stage w first p rest => some (s.lookAt t w first p rest stage)
  | .head w => some ([], s.goto t (if s.flagged t then .run else .claim w false))
  | .snapshot w =>
    if s.lock = none ∧ order.Perm s.procs.pidMap then
      some ([], s.goto t (.block w (order.filter fun p => s.isMatch w p)))
    else none
  | .block w kids =>
    some ([], { s with blocked := update s.blocked t true }.goto t
      (.register w kids kids false))
  | .register w kids [] hasEvent =>
    some ([], s.goto t (if hasEvent then .unblock w kids else .asleep w kids))
  | .register w kids (p :: rest) hasEvent =>
    if s.mtx p = none then
      some ([], { s with mtx := update s.mtx p (some t) }.goto t
        (.check .exited w kids p rest hasEvent))
    else none
  | .check stage w kids p rest hasEvent => some ([], s.checkAt t w kids p rest hasEvent stage)
  | .asleep w kids =>
    if !s.blocked t || s.flagged t then some ([], s.goto t (.unblock w kids)) else none
  | .unblock w kids =>
    some ([], { s with blocked := update s.blocked t false }.goto t (.remove w kids))
  | .remove w [] => some ([], s.goto t (.head w))
  | .remove w (p :: rest) =>
    if s.mtx p = none then
      let left := (s.waiters p).filter (· ≠ t)
      some ([], { s with waiters := update s.waiters p left }.goto t (.remove w rest))
    else none

end Waiting

/-- What a thread that is not in one of these functions may do, or what is done to it. -/
inductive WaitAct where
  /-- the next access of a thread inside one of them -/
  | go (t : ℕ) (order : List ℕ)
  | stop (t g : ℕ) (sig : U32)
  | cont (g : ℕ)
  /-- the last thread of a group that is not pid 1 publishes its end -/
  | fini (t : ℕ)
  /-- a thread that is not the last of its group calls `wake_waiters` on its way out -/
  | wakeSiblings (t : ℕ)
  | wait (t idtype : ℕ) (id : U64) (options : U32)
  /-- a flag of `t` other than `VM_BLOCKED` is set or cleared -/
  | flag (t : ℕ) (b : Bool)
  | task (a : Act)
  deriving DecidableEq, Repr

/-- The steps of the model of the tasks that stand here as they are. -/
def Act.plain : Act → Bool
  | .finiLast t => t = 1
  | .stop .. => false
  | .cont .. => false
  | .wait4 .. => false
  | .waitid .. => false
  | _ => true

/-- The thread that takes the step, if it is one of guest code. -/
def Act.thread : Act → Option ℕ
  | .exit t _ => some t
  | .exitGroup t _ => some t
  | .fatalSignal t _ => some t
  | .killOthers t => some t
  | .die t => some t
  | .ret t => some t
  | .finiSub t => some t
  | .finiLast t => some t
  | .clone t _ => some t
  | _ => none

/-- Does the step change `pid_map`, for which it takes `pid_map_mutex`? -/
def Act.locks (s : Procs) : Act → Bool
  | .finiSub t => t ≠ s.tgid t
  | .finiLast _ => true
  | .clone .. => true
  | _ => false

namespace Waiting

/-- One step of some thread. -/
def step (s : Waiting) : WaitAct → Option (List Note × Waiting)
  | .go t order => s.go t order
  | .stop t g sig =>
    if s.pc t = .run ∧ g < s.procs.nextPid then some ([], s.goto t (.storeStopped g sig)) else none
  | .cont g =>
    if g < s.procs.nextPid then some ([], s.setGroup g fun k => { k with stopped := false })
      else none
  | .fini t =>
    if s.pc t = .run ∧ (s.procs.task t).phase = .last ∧ t ≠ 1 then
      some ([], { s with procs := s.procs.recordExit (s.procs.tgid t) (128 + 9) }.goto t
        (.storeExited (s.procs.tgid t)))
    else none
  | .wakeSiblings t =>
    if s.pc t = .run ∧ (s.procs.task t).phase = .gone then
      some ([], s.goto t (.notify (s.procs.tgid t) false))
    else none
  | .wait t idtype id options =>
    if s.pc t = .run ∧ (s.procs.task t).phase = .running then
      some ([], s.goto t (.claim ⟨s.procs.tgid t, idtype, id, options⟩ true))
    else none
  | .flag t b => some ([], { s with flagged := update s.flagged t b })
  | .task a =>
    if a.plain ∧ (∀ t ∈ a.thread, s.pc t = .run) ∧ (a.locks s.procs → s.lock = none) then
      (s.procs.step a).map fun p => ([], { s with procs := p })
    else none

/-- Pid 1 alone. -/
def init : Waiting where
  procs := Procs.init
  lock := none
  mtx := fun _ => none
  waiters := fun _ => []
  blocked := fun _ => false
  flagged := fun _ => false
  pc := fun _ => .run

end Waiting

/-- One step of some thread, with what it shows. -/
def WaitStep (s : Waiting) (es : List Note) (s' : Waiting) : Prop :=
  ∃ a, s.step a = some (es, s')

/-- The steps of a list, with what they show. -/
def Waiting.play (s : Waiting) : List WaitAct → Option (List (List Note) × Waiting)
  | [] => some ([], s)
  | a :: l =>
    (s.step a).bind fun x => (x.2.play l).map fun y => (x.1 :: y.1, y.2)

theorem run_play {s s' : Waiting} {as : List WaitAct} {l : List (List Note)}
    (h : s.play as = some (l, s')) : Run WaitStep s l s' := by
  induction as generalizing s l with
  | nil =>
    cases h
    exact .nil _
  | cons a as ih =>
    obtain ⟨x, hx, hy⟩ := Option.bind_eq_some_iff.mp h
    obtain ⟨y, hplay, he⟩ := Option.map_eq_some_iff.mp hy
    cases he
    exact .cons ⟨a, hx⟩ (ih hplay)

end Bpfvm.Process
