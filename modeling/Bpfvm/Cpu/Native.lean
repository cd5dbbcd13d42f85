import Bpfvm.Cpu.Control

/-!
# Interpreted and compiled execution

The loop of `vm::step` around compiled code, the helpers that compiled code calls and the flag
tests on its way out. What a compiled instruction computes is left open; that it touches neither
the pending restart nor its flag is not. The events record what the guest can observe of system
calls and signals.
-/
namespace Bpfvm.Cpu
open Memory

/-! ## Events -/

/-- Whether an instruction was a system call, and which one is to be restarted. -/
inductive Outcome where
  | plain
  | done
  | restart (call : U32)
  deriving DecidableEq, Repr

inductive Event where
  /-- The instruction at `pc` was executed; `args` were `r1` .. `r5` before it. -/
  | exec (pc : U64) (args : List U64) (out : Outcome)
  /-- `deliver_signal` went back to the interrupted system call at `pc`. -/
  | again (pc : U64) (args : List U64)
  /-- A handler was entered; its frame holds the return address `ret`, `r0` and `args`. -/
  | handler (ret r0 : U64) (args : List U64)
  /-- There was no room for the frame of a handler. -/
  | failed
  deriving DecidableEq

namespace Machine

def args (m : Machine) : List U64 := [m.reg 1, m.reg 2, m.reg 3, m.reg 4, m.reg 5]

/-- What one `deliver_signal` shows. -/
def deliverEvents (c : Setup) (m : Machine) : Handled → List Event
  | .fatal => []
  | .none => if m.restartPc = 0 then [] else [.again m.restartPc m.args]
  | .handler info =>
    if (m.load c info.handler 8).1.isNone then []
    else if (m.deliverSignal c (.handler info)).1 then
      [.handler (m.takeRestart info).1 ((m.takeRestart info).2.reg 0) (m.takeRestart info).2.args]
    else [.failed]

/-- What one `safepoint` shows. -/
def safepointEvents (c : Setup) (w : SafepointWorld) (m : Machine) : List Event :=
  let m := { m with flags := m.flags &&& ~~~vmJitAbort }
  let first := if m.signalDepth = 0 then m.deliverEvents c w.first else []
  match (if m.signalDepth = 0 then m.deliverSignal c w.first else (true, m)) with
  | (false, _) => first
  | (true, m) =>
    let m := { m with flags := w.flags }
    if m.flags &&& (vmExited ||| vmKilled ||| vmBudgetExceeded) ≠ 0 then first
    else first ++ m.deliverEvents c w.second

/-- What the execution of a fetched instruction is. -/
def outcome (w : World) (m : Machine) (cur : BpfInsn) : Outcome :=
  if cur.IsSyscall then
    (if (w.syscall cur.imm m).1 = syscallRestart ∨ (w.syscall cur.imm m).1 = syscallRestartNohand
      then .restart cur.imm else .done)
  else .plain

/-- What `fetch` shows. -/
def fetchEvents (c : Setup) (w : World) (m : Machine) : List Event :=
  match m.mem.mmu c.vm m.pc.toNat 8 with
  | (none, _) => []
  | (some p, mem) =>
    let cur := BpfInsn.ofBytes (mem.host.load p 8)
    if 10 < cur.dstReg.toNat ∨ 10 < cur.srcReg.toNat then []
    else [.exec m.pc m.args (outcome w { m with mem := mem } cur)]

/-- What the interpreted part of `step` shows. -/
def stepEvents (c : Setup) (w : World) (m : Machine) : List Event :=
  let m := { m with insnCount := m.insnCount + 1 }
  if c.insnLimit ≠ 0 ∧ c.insnLimit ≤ m.insnCount then []
  else if m.flags ≠ 0 then
    match m.safepoint c w.safepoint with
    | (false, _) => m.safepointEvents c w.safepoint
    | (true, m') => m.safepointEvents c w.safepoint ++ m'.fetchEvents c w
  else m.fetchEvents c w

/-! ## Helpers of compiled code -/

/-- `helper_safepoint`; the flag is set when compiled code has to be left. -/
def helperSafepoint (c : Setup) (w : SafepointWorld) (m : Machine) : Bool × Machine :=
  match m.safepoint c w with
  | (false, m') => (true, m')
  | (true, m') => (m'.pc != m.pc, m')

def vmSignalPending : U32 := 0x8

/-- `helper_do_syscall`; the flag is set when compiled code goes on. -/
def helperDoSyscall (w : World) (m : Machine) (call : U32) : Bool × Machine :=
  match m.doSyscall w call with
  | (false, m') => (false, if m'.pc = m.pc then { m' with pc := m'.pc + 8 } else m')
  | (true, m') =>
    if m'.pc ≠ m.pc then
      (false, { m' with flags := m'.flags ||| vmJitAbort, pc := m'.pc + 8 })
    else if m'.restartPc ≠ 0 then (false, m')
    else if m'.flags &&& (vmExited ||| vmKilled ||| vmStopped ||| vmSignalPending) ≠ 0 then
      (false, { m' with pc := m'.pc + 8 })
    else (true, m')

end Machine

/-! ## The loop of `step` -/

/-- Where the thread of the vm is. -/
inductive Loc where
  /-- At the call of `compile`. -/
  | loop
  /-- Past the loop over compiled code. -/
  | interp
  /-- In compiled code entered at `entry`, about to execute the guest instruction at `cur`, with
  `n` compiled callers below. -/
  | native (n : ℕ) (entry cur : U64)
  /-- On the way out of compiled code, with `n` compiled callers to pass. -/
  | exiting (n : ℕ) (entry : U64)
  /-- Compiled code has returned to `step`. -/
  | back (entry : U64)
  | stopped

structure Conf where
  m : Machine
  loc : Loc

/-- The flags that nothing clears. -/
def sticky : U32 := vmExited ||| vmKilled ||| vmBudgetExceeded

/-- `f'` still has the sticky flags of `f`. -/
def KeepsSticky (f f' : U32) : Prop := f &&& sticky ≠ 0 → f' &&& sticky ≠ 0

/-- One step of the vm and what it shows. -/
inductive VmStep (c : Setup) : Conf → List Event → Conf → Prop
  /-- Other threads change flags and memory. -/
  | other {m : Machine} {loc : Loc} (flags : U32) (mem : State)
      (hf : KeepsSticky m.flags flags) :
      VmStep c ⟨m, loc⟩ [] ⟨{ m with flags := flags, mem := mem }, loc⟩
  /-- There is compiled code for `pc_`; its entry calls `helper_safepoint`. -/
  | enter {m : Machine} {w : SafepointWorld} (hf : KeepsSticky m.flags w.flags) :
      VmStep c ⟨m, .loop⟩ (m.safepointEvents c w) ⟨(m.helperSafepoint c w).2,
        if (m.helperSafepoint c w).1 then .exiting 0 m.pc else .native 0 m.pc m.pc⟩
  /-- There is none. -/
  | interpret {m : Machine} : VmStep c ⟨m, .loop⟩ [] ⟨m, .interp⟩
  | step {m : Machine} {w : World} (hw : w.Restartable)
      (hf : KeepsSticky m.flags w.safepoint.flags) :
      VmStep c ⟨m, .interp⟩ (m.stepEvents c w)
        (match m.step c w with
          | (false, m') => ⟨m', .stopped⟩
          | (true, m') => ⟨{ m' with pc := m'.pc + 8 }, .loop⟩)
  /-- A compiled instruction other than a system call; a compiled call adds a caller. -/
  | exec {m m' : Machine} {n n' : ℕ} {entry cur next : U64}
      (hr : m'.restart = m.restart) :
      VmStep c ⟨m, .native n entry cur⟩ [.exec cur m.args .plain] ⟨m', .native n' entry next⟩
  /-- A compiled instruction after which compiled code is left: a return, a call of code that is
  not compiled or with flags set. -/
  | leave {m m' : Machine} {n : ℕ} {entry cur : U64} (hr : m'.restart = m.restart) :
      VmStep c ⟨m, .native n entry cur⟩ [.exec cur m.args .plain] ⟨m', .exiting n entry⟩
  /-- A memory access of compiled code fails; `pc_` stays what it was. -/
  | abort {m : Machine} {n : ℕ} {entry cur : U64} (reg : ℕ → U64)
      (hargs : ∀ k, 1 ≤ k → k ≤ 5 → reg k = m.reg k) :
      VmStep c ⟨m, .native n entry cur⟩ [] ⟨{ m with reg := reg }, .exiting n entry⟩
  /-- The safepoint at the head of a compiled loop. -/
  | poll {m : Machine} {w : SafepointWorld} {n : ℕ} {entry cur : U64} (hne : m.flags ≠ 0)
      (hf : KeepsSticky m.flags w.flags) :
      VmStep c ⟨m, .native n entry cur⟩ (({ m with pc := cur } : Machine).safepointEvents c w)
        ⟨(({ m with pc := cur } : Machine).helperSafepoint c w).2,
          if (({ m with pc := cur } : Machine).helperSafepoint c w).1 then .exiting n entry
          else .native n entry cur⟩
  | syscall {m : Machine} {w : World} {n : ℕ} {entry cur : U64} (call : U32)
      (hw : w.Restartable) :
      VmStep c ⟨m, .native n entry cur⟩
        [.exec cur m.args (if (w.syscall call { m with pc := cur }).1 = syscallRestart ∨
          (w.syscall call { m with pc := cur }).1 = syscallRestartNohand
            then .restart call else .done)]
        ⟨(({ m with pc := cur } : Machine).helperDoSyscall w call).2,
          if (({ m with pc := cur } : Machine).helperDoSyscall w call).1
          then .native n entry (cur + 8) else .exiting n entry⟩
  /-- The tests after a compiled call, which expects to come back to `ret`. -/
  | cont {m : Machine} {n : ℕ} {entry : U64} (ret : U64) :
      VmStep c ⟨m, .exiting (n + 1) entry⟩ []
        ⟨m, if m.flags ≠ 0 ∨ m.pc ≠ ret then .exiting n entry else .native n entry ret⟩
  | ret {m : Machine} {entry : U64} : VmStep c ⟨m, .exiting 0 entry⟩ [] ⟨m, .back entry⟩
  /-- `step` finds no flag set. -/
  | quiet {m : Machine} {entry : U64} (h : m.flags = 0) :
      VmStep c ⟨m, .back entry⟩ [] ⟨m, if m.pc ≠ entry then .loop else .interp⟩
  | safepoint {m : Machine} {w : SafepointWorld} {entry : U64} (h : m.flags ≠ 0)
      (hf : KeepsSticky m.flags w.flags) :
      VmStep c ⟨m, .back entry⟩ (m.safepointEvents c w)
        (match m.safepoint c w with
          | (false, m') => ⟨m', .stopped⟩
          | (true, m') => ⟨m', if m'.pc ≠ entry then .loop else .interp⟩)

end Bpfvm.Cpu
