import Bpfvm.Lib.LittleEndian
import Bpfvm.Lib.Runs
import Mathlib.Data.Finset.Card
import Mathlib.Data.Finset.Range
import Mathlib.Logic.Function.Basic

/-!
# Thread groups, their end, and waiting for them

Threads leave in two ways: through `do_exit`, `do_exit_group` or the default action of a
fatal signal, which record a code in `exit_code` by compare-and-swap, or by being killed,
which records nothing. The last thread of a group to run `fini` publishes the group as
exited; `claim_one` hands it to a waiting parent.

A step is what one thread does without being interleaved with another: one
compare-and-swap, one loop under a lock, one side of the `fetch_sub` in `fini`.
-/
namespace Bpfvm.Process

/-- Where a thread is between the loop of `run` and the end of `fini`. -/
inductive Phase where
  | running
  /-- in `do_exit_group`, the code recorded and the kill loop still to run -/
  | exiting
  /-- `step` has returned false, `fini` has not counted the thread out -/
  | leaving
  /-- in `fini`, `live_threads.fetch_sub` has returned 1 -/
  | last
  | gone
  deriving DecidableEq, Repr

/-- A thread, under its pid. `tg` is the tgid of its group. -/
structure Task where
  tg : ℕ
  pgid : ℕ
  killed : Bool
  phase : Phase
  deriving DecidableEq, Repr

/-- A thread group, under its tgid. -/
structure ThreadGroup where
  ppid : ℕ
  liveThreads : ℕ
  exited : Bool
  exitCode : U32
  stopped : Bool
  stopSig : U32
  stopReported : Bool
  threads : List ℕ
  deriving DecidableEq, Repr

/-- The state of all processes. `pidMap` lists the keys of `pid_map`. -/
structure Procs where
  task : ℕ → Task
  group : ℕ → ThreadGroup
  nextPid : ℕ
  pidMap : List ℕ

def ThreadGroup.fresh (pid ppid : ℕ) : ThreadGroup :=
  ⟨ppid, 1, false, -1, false, -1, false, [pid]⟩

/-- Stands for the groups that do not exist. -/
def ThreadGroup.unused : ThreadGroup := ⟨0, 0, false, -1, false, -1, false, []⟩

/-- `arg_s32`: the low half of a register. -/
def argS32 (r : U64) : U32 := r.truncate 32

def sigkill : ℕ := 9

/-- The signals whose default action is to terminate. -/
def isDefaultTerm (sig : ℕ) : Bool :=
  sig ∈ [1, 2, 3, 4, 5, 6, 7, 8, 10, 11, 12, 13, 14, 15, 16, 24, 25, 26, 27]

namespace Procs

def setTask (s : Procs) (t : ℕ) (f : Task → Task) : Procs :=
  { s with task := Function.update s.task t (f (s.task t)) }

def setGroup (s : Procs) (g : ℕ) (f : ThreadGroup → ThreadGroup) : Procs :=
  { s with group := Function.update s.group g (f (s.group g)) }

def tgid (s : Procs) (t : ℕ) : ℕ := (s.task t).tg

def setPhase (s : Procs) (t : ℕ) (p : Phase) : Procs := s.setTask t fun k => { k with phase := p }

/-- `exit_code.compare_exchange_strong(-1, code)`. -/
def recordExit (s : Procs) (g : ℕ) (code : U32) : Procs :=
  s.setGroup g fun k => if k.exitCode = -1 then { k with exitCode := code } else k

/-- `queue_signal(SIGKILL)` for each of the threads. -/
def kill (s : Procs) (ts : List ℕ) : Procs :=
  { s with task := fun t => if t ∈ ts then { s.task t with killed := true } else s.task t }

def doExit (s : Procs) (t : ℕ) (r1 : U64) : Procs :=
  (s.recordExit (s.tgid t) (argS32 r1)).setPhase t .leaving

/-- `do_exit_group` as far as its compare-and-swap. -/
def doExitGroup (s : Procs) (t : ℕ) (r1 : U64) : Procs :=
  (s.recordExit (s.tgid t) (argS32 r1)).setPhase t .exiting

/-- The rest of `do_exit_group`: kill the other threads and leave. -/
def killOthers (s : Procs) (t : ℕ) : Procs :=
  (s.kill ((s.group (s.tgid t)).threads.filter (· ≠ t))).setPhase t .leaving

/-- The default action of a fatal signal in `handle_signals`. -/
def defaultTerm (s : Procs) (t : ℕ) (sig : ℕ) : Procs :=
  s.doExitGroup t (128 + BitVec.ofNat 64 sig)

/-- `fini` as far as `live_threads.fetch_sub` and the removal of a non-leader. -/
def finiSub (s : Procs) (t : ℕ) : Procs :=
  let g := s.tgid t
  { (s.setGroup g fun k => { k with liveThreads := k.liveThreads - 1 }).setPhase t
      (if (s.group g).liveThreads = 1 then .last else .gone) with
    pidMap := if t = g then s.pidMap else s.pidMap.erase t }

/-- Children of `g` become children of pid 1. -/
def reparent (s : Procs) (g : ℕ) : Procs :=
  { s with group := fun k =>
      if (s.pidMap.any fun p => s.tgid p = k) ∧ (s.group k).ppid = g then
        { s.group k with ppid := 1 }
      else s.group k }

/-- The rest of `fini`, in the last thread of a group. -/
def finiLast (s : Procs) (t : ℕ) : Procs :=
  let g := s.tgid t
  if t = 1 then { s.setPhase t .gone with pidMap := s.pidMap.erase t }
  else
    ((((s.recordExit g (128 + 9)).setGroup g
      fun k => { k with exited := true }).reparent g).setPhase
      t .gone)

/-- A `do_clone` that succeeds. -/
def doClone (s : Procs) (t : ℕ) (isThread : Bool) : Procs :=
  let g := if isThread then s.tgid t else s.nextPid
  { task := Function.update s.task s.nextPid ⟨g, (s.task t).pgid, false, .running⟩
    group := Function.update s.group g
      (if isThread then
        { s.group g with
          liveThreads := (s.group g).liveThreads + 1
          threads := (s.group g).threads ++ [s.nextPid] }
      else ThreadGroup.fresh s.nextPid (s.tgid t))
    nextPid := s.nextPid + 1
    pidMap := s.pidMap ++ [s.nextPid] }

def stopProcess (s : Procs) (g : ℕ) (sig : U32) : Procs :=
  s.setGroup g fun k => { k with stopped := true, stopSig := sig, stopReported := true }

def sigcont (s : Procs) (g : ℕ) : Procs := s.setGroup g fun k => { k with stopped := false }

end Procs

/-! ## Waiting -/

def wnohang : U32 := 1
def wuntraced : U32 := 2
def wexited : U32 := 4
def wnowait : U32 := 0x01000000

/-- `wait_event`, with the child's pid for its `vm`. -/
structure WaitEvent where
  child : ℕ
  exited : Bool
  stopSig : U32
  exitCode : U64
  deriving DecidableEq, Repr

inductive Errno where
  | einval
  | echild
  deriving DecidableEq, Repr

/-- What one pass over the children gives: an error, nothing to report yet, or an event. -/
inductive WaitOutcome where
  | error (e : Errno)
  | noEvent
  | event (ev : WaitEvent)
  deriving DecidableEq, Repr

namespace Procs

/-- `match_child` for a caller in the group `me`. -/
def matchChild (s : Procs) (me : ℕ) (idtype : ℕ) (id : U64) (p : ℕ) : Bool :=
  (s.group (s.tgid p)).ppid = me && p = s.tgid p &&
    match idtype with
    | 0 => true
    | 1 => p = id.toNat
    | 2 => (s.task p).pgid = id.toNat
    | _ => false

/-- The loop of `claim_one` over the entries of `pid_map`, `any` telling whether a child
matched before. -/
def claimLoop (s : Procs) (me idtype : ℕ) (id : U64) (options : U32) :
    List ℕ → Bool → WaitOutcome × Procs
  | [], any => (if any then .noEvent else .error .echild, s)
  | p :: rest, any =>
    let g := s.group (s.tgid p)
    if !s.matchChild me idtype id p then s.claimLoop me idtype id options rest any
    else if g.exited then
      (.event ⟨p, true, 0, g.exitCode.signExtend 64⟩,
        if options &&& wnowait = 0 then { s with pidMap := s.pidMap.erase p } else s)
    else if g.stopped && g.stopReported then
      (.event ⟨p, false, g.stopSig, 0⟩,
        if options &&& wnowait = 0 then
          s.setGroup (s.tgid p) fun k => { k with stopReported := false }
        else s)
    else s.claimLoop me idtype id options rest true

/-- `claim_one`. The map is unordered: `order` is the order in which it is walked. -/
def claimOne (s : Procs) (me idtype : ℕ) (id : U64) (options : U32)
    (order : List ℕ) : WaitOutcome × Procs :=
  s.claimLoop me idtype id options order false

/-- One pass of `do_wait4`: its arguments checked and normalised, then `claim_one`. -/
def doWait4 (s : Procs) (t : ℕ) (r1 r3 : U64) (order : List ℕ) : WaitOutcome × Procs :=
  let target := (argS32 r1).toInt
  let options := argS32 r3
  if options &&& ~~~(wnohang ||| wuntraced) ≠ 0 then (.error .einval, s)
  else if target = t then (.error .einval, s)
  else if 0 < target then s.claimOne (s.tgid t) 1 (BitVec.ofInt 64 target) options order
  else if target = -1 then s.claimOne (s.tgid t) 0 0 options order
  else if target = 0 then
    s.claimOne (s.tgid t) 2 (BitVec.ofNat 64 (s.task t).pgid) options order
  else s.claimOne (s.tgid t) 2 (BitVec.ofInt 64 (-target)) options order

/-- One pass of `do_waitid`. -/
def doWaitid (s : Procs) (t : ℕ) (r1 r2 r4 : U64) (order : List ℕ) :
    WaitOutcome × Procs :=
  let idtype := (argS32 r1).toInt
  let options := argS32 r4
  if idtype < 0 ∨ 2 < idtype then (.error .einval, s)
  else if options &&& ~~~(wnohang ||| wuntraced ||| wexited ||| wnowait) ≠ 0 ∨
      options &&& (wexited ||| wuntraced) = 0 then (.error .einval, s)
  else if idtype ≠ 0 ∧ r2.toInt < 0 then (.error .einval, s)
  else
    let id := if idtype = 2 ∧ r2 = 0 then BitVec.ofNat 64 (s.task t).pgid else r2
    s.claimOne (s.tgid t) idtype.toNat id
      (options &&& wnohang ||| (if options &&& wuntraced ≠ 0 then wuntraced else 0) |||
        options &&& wnowait) order

end Procs

/-- `wait4_exit_status`. -/
def wait4ExitStatus (exitCode : U64) : U32 :=
  if 128 ≤ exitCode.toNat then (exitCode - 128).truncate 32 &&& 0x7f
  else (exitCode.truncate 32 &&& 0xff) <<< 8

/-- The word `do_wait4` stores. -/
def WaitEvent.status (ev : WaitEvent) : U32 :=
  if ev.exited then wait4ExitStatus ev.exitCode
  else (ev.stopSig &&& 0xff) <<< 8 ||| 0x7f

/-- The fields `si_code` and `si_status` that `do_waitid` stores. -/
def WaitEvent.siginfo (ev : WaitEvent) : ℕ × U32 :=
  if ev.exited then
    if 128 ≤ ev.exitCode.toNat then (2, (ev.exitCode - 128).truncate 32)
    else (1, ev.exitCode.truncate 32)
  else (5, ev.stopSig)

/-! ## Runs -/

/-- What the threads do. `order` is as in `claimOne`. -/
inductive Act where
  | exit (t : ℕ) (r1 : U64)
  | exitGroup (t : ℕ) (r1 : U64)
  | fatalSignal (t sig : ℕ)
  | killOthers (t : ℕ)
  /-- `VM_KILLED` set for one thread: `SIGKILL` by `tkill` or `exec`, or a memory violation -/
  | tkill (t : ℕ)
  /-- `SIGKILL` to a whole group -/
  | kill (g : ℕ)
  /-- a killed thread reaches a safepoint -/
  | die (t : ℕ)
  /-- a thread returns from its bottom frame -/
  | ret (t : ℕ)
  | finiSub (t : ℕ)
  | finiLast (t : ℕ)
  | clone (t : ℕ) (isThread : Bool)
  | setpgid (t pgid : ℕ)
  | stop (g : ℕ) (sig : U32)
  | cont (g : ℕ)
  | wait4 (t : ℕ) (r1 r3 : U64) (order : List ℕ)
  | waitid (t : ℕ) (r1 r2 r4 : U64) (order : List ℕ)
  deriving DecidableEq, Repr

namespace Procs

/-- The thread an action needs to be in the loop of `run`, or at another place, and what the
action does. -/
def step (s : Procs) : Act → Option Procs
  | .exit t r1 => if (s.task t).phase = .running then some (s.doExit t r1) else none
  | .exitGroup t r1 => if (s.task t).phase = .running then some (s.doExitGroup t r1) else none
  | .fatalSignal t sig =>
    if (s.task t).phase = .running ∧ isDefaultTerm sig then some (s.defaultTerm t sig) else none
  | .killOthers t => if (s.task t).phase = .exiting then some (s.killOthers t) else none
  | .tkill t => some (s.kill [t])
  | .kill g => some (s.kill (s.group g).threads)
  | .die t =>
    if (s.task t).phase = .running ∧ (s.task t).killed then some (s.setPhase t .leaving) else none
  | .ret t => if (s.task t).phase = .running then some (s.setPhase t .leaving) else none
  | .finiSub t => if (s.task t).phase = .leaving then some (s.finiSub t) else none
  | .finiLast t => if (s.task t).phase = .last then some (s.finiLast t) else none
  | .clone t isThread =>
    if (s.task t).phase = .running then some (s.doClone t isThread) else none
  | .setpgid t pgid => some (s.setTask t fun k => { k with pgid := pgid })
  | .stop g sig => some (s.stopProcess g sig)
  | .cont g => some (s.sigcont g)
  | .wait4 t r1 r3 order =>
    if (s.task t).phase = .running ∧ order.Perm s.pidMap then some (s.doWait4 t r1 r3 order).2
    else none
  | .waitid t r1 r2 r4 order =>
    if (s.task t).phase = .running ∧ order.Perm s.pidMap then some (s.doWaitid t r1 r2 r4 order).2
    else none

/-- Pid 1 alone. -/
def init : Procs where
  task := fun t => ⟨1, 1, false, if t = 1 then .running else .gone⟩
  group := fun g => if g = 1 then ThreadGroup.fresh 1 0 else ThreadGroup.unused
  nextPid := 2
  pidMap := [1]

end Procs

/-- One step of some thread. -/
def Step (s : Procs) (a : Act) (s' : Procs) : Prop := s.step a = some s'

end Bpfvm.Process
