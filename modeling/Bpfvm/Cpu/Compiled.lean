import Bpfvm.Cpu.Native

/-!
# Compiled code instruction by instruction

Pure interpretation, and the execution that `vm::step` makes of compiled code and single
interpreted instructions, both for a vm that no signal reaches. A compiled instruction computes
what the interpreter computes for it, the TLB fill of its fetch included, but leaves `pc_` where
it was. `pc_` is set before a system call or a floating-point helper, by `EXIT`, by a jump out of
the compiled code and by a call of code that is not compiled. The count of instructions is left
out.
-/
namespace Bpfvm.Cpu
open Memory

/-! ## Instructions -/

/-- The instructions that the compiler treats apart. -/
inductive Kind where
  | plain
  | syscall
  | softfp
  | call
  | callIndirect
  | exit
  deriving DecidableEq, Repr

namespace BpfInsn

def kind (i : BpfInsn) : Kind :=
  if (i.code &&& 0x07).toNat = 5 then
    match (i.code &&& 0xf0).toNat with
    | 0x80 =>
      if i.useReg then .callIndirect
      else if i.srcReg = 0 then .syscall
      else if i.srcReg = 1 then .call
      else if i.srcReg = 2 then .softfp
      else .plain
    | 0x90 => .exit
    | _ => .plain
  else .plain

theorem kind_eq_syscall {i : BpfInsn} : i.kind = .syscall ↔ i.IsSyscall := by
  unfold kind IsSyscall
  generalize (i.code &&& 0x07).toNat = cls
  generalize (i.code &&& 0xf0).toNat = op
  by_cases hclass : cls = 5
  · rw [if_pos hclass]
    split
    · split_ifs <;> simp_all
    · simp
    · next hop _ => exact iff_of_false (by simp) fun h => hop h.2.1
  · simp [hclass]

theorem kind_eq_softfp {i : BpfInsn} (h : i.kind = .softfp) :
    (i.code &&& 0x07).toNat = 5 ∧ (i.code &&& 0xf0).toNat = 0x80 ∧ i.useReg = false ∧
      i.srcReg = 2 := by
  unfold kind at h
  by_cases hclass : (i.code &&& 0x07).toNat = 5
  · rw [if_pos hclass] at h
    split at h
    · next hop =>
      split_ifs at h with hreg h0 h1 h2
      exact ⟨hclass, hop, by simpa using hreg, h2⟩
    · cases h
    · cases h
  · rw [if_neg hclass] at h
    cases h

end BpfInsn

namespace Machine

/-- `m` with `pc_` at `cur`: what the interpreter would start from. -/
def goto (m : Machine) (cur : U64) : Machine := { m with pc := cur }

/-- Where `push_frame` puts the frame of a call. -/
def callBase (c : Setup) (m : Machine) : U64 :=
  m.reg 10 - headerLen (m.load c (m.reg 10) 8).1 - BitVec.ofNat 64 normalFrameSize

/-- Whether an access that the compiled instruction makes itself fails. -/
def accessFails (c : Setup) (m : Machine) (i : BpfInsn) : Bool :=
  match (i.code &&& 0x07).toNat with
  | 1 => (m.load c (m.reg i.srcReg.toNat + i.off.signExtend 64) (accessSize i.code)).1.isNone
  | 2 | 3 =>
    (m.mem.mmuW c.env c.vm (m.reg i.dstReg.toNat + i.off.signExtend 64).toNat
      (accessSize i.code)).1.isNone
  | _ =>
    match i.kind with
    | .call | .callIndirect =>
      (m.load c (m.reg 10) 8).1.isNone || (stackBase.toNat ≤ (m.callBase c).toNat &&
        (m.mem.mmuW c.env c.vm (m.callBase c).toNat normalFrameSize).1.isNone)
    | .exit => (m.load c (m.reg 10) 56).1.isNone
    | _ => false

/-- Whether the frame of a compiled call would lie below the stack. -/
def overflows (c : Setup) (m : Machine) : Bool := (m.callBase c).toNat < stackBase.toNat

/-- `safepoint` when no signal is pending. -/
def calm (c : Setup) (m : Machine) : Bool × Machine :=
  m.safepoint c ⟨.none, m.flags &&& sticky, .none⟩

/-- `helper_safepoint` when no signal is pending. -/
def helperCalm (c : Setup) (m : Machine) : Bool × Machine :=
  m.helperSafepoint c ⟨.none, m.flags &&& sticky, .none⟩

/-- What `emit_exit` makes of the 56 bytes it has read from the frame. -/
def inlineExit (c : Setup) (m : Machine) (frame : List Byte) : Machine :=
  if word frame 0 >>> 48 ≠ 0 then { (m.popFrame c).2 with pc := (m.popFrame c).1 }
  else { m.restoreFrame frame with pc := word frame 16 }

/-- The registers of a compiled caller that goes on: `r6` .. `r9` come from the host's stack. -/
def resume (m : Machine) (saved : ℕ → U64) : Machine :=
  { m with reg := fun k => if 6 ≤ k ∧ k ≤ 9 then saved k else m.reg k }

end Machine

/-! ## The two executions -/

/-- No signal reaches the vm: no system call is to be restarted. The flags a system call can set
are those that `helper_do_syscall` tests, and the floating-point helpers leave `pc_` and the flags
alone. -/
structure World.Undisturbed (w : World) : Prop extends w.Restartable where
  finished : ∀ call m, ¬ ((w.syscall call m).1 = syscallRestart ∨
    (w.syscall call m).1 = syscallRestartNohand)
  syscallFlags : ∀ call m, m.flags = 0 → (w.syscall call m).2.flags &&&
    (vmExited ||| vmKilled ||| vmStopped ||| vmSignalPending) = 0 → (w.syscall call m).2.flags = 0
  softfpPc : ∀ op m, (w.softfp op m).2.pc = m.pc
  softfpFlags : ∀ op m, (w.softfp op m).2.flags = m.flags

/-- What an execution records. -/
inductive Act where
  /-- Another thread, or the TLB fill of an access that then failed. -/
  | other (mem : State)
  /-- The instruction at `pc` was executed. -/
  | exec (pc : U64) (w : World)
  /-- The instruction at `pc` ended the vm. -/
  | stop (pc : U64) (w : World)
  /-- Compiled code gave up before the instruction at `cur`; `pc_` was `pc`, and the compiled
  callers were waiting for `rets`. -/
  | abort (cur pc : U64) (rets : List U64)
  /-- A compiled caller went on with the registers `saved`, the vm holding `reg`. -/
  | resumed (saved reg : ℕ → U64)
  /-- Compiled code did at `cur` what the interpreter would not. -/
  | lost (cur : U64)

/-- Pure interpretation; the flag tells whether the vm is still running. -/
inductive InterpStep (c : Setup) : Machine × Bool → List Act → Machine × Bool → Prop
  | other {m : Machine} {running : Bool} (mem : State) :
      InterpStep c (m, running) [.other mem] ({ m with mem := mem }, running)
  | exec {m m' : Machine} {w : World} (hw : w.Undisturbed) (hf : m.flags = 0)
      (h : m.fetch c w = (true, m')) :
      InterpStep c (m, true) [.exec m.pc w] ({ m' with pc := m'.pc + 8 }, true)
  | stop {m m' : Machine} {w : World} (hw : w.Undisturbed) (hf : m.flags = 0)
      (h : m.fetch c w = (false, m')) : InterpStep c (m, true) [.stop m.pc w] (m', false)
  | safepoint {m : Machine} (hf : m.flags ≠ 0) :
      InterpStep c (m, true) [] ((m.calm c).2, (m.calm c).1)

/-- A compiled call that waits for its callee: where it expects to come back to, and `r6` .. `r9`
as the host's stack keeps them. -/
structure CompiledCall where
  ret : U64
  saved : ℕ → U64

/-- Where the thread of the vm is. -/
inductive Place where
  | loop
  | interp
  /-- In compiled code that `step` has entered at `entry`, before the instruction at `cur`. -/
  | native (calls : List CompiledCall) (entry cur : U64)
  /-- On the way out of compiled code, with the compiled callers to pass. -/
  | exiting (calls : List CompiledCall) (entry : U64)
  /-- Compiled code has returned to `step`. -/
  | back (entry : U64)
  /-- The interpreter could not execute an instruction. -/
  | halted
  /-- A safepoint has found that the vm has ended. -/
  | ended

structure Mixed where
  m : Machine
  place : Place

/-- One step of `vm::step` with compiled code. -/
inductive JitStep (c : Setup) : Mixed → List Act → Mixed → Prop
  | other {m : Machine} {place : Place} (mem : State) :
      JitStep c ⟨m, place⟩ [.other mem] ⟨{ m with mem := mem }, place⟩
  | enter {m : Machine} :
      JitStep c ⟨m, .loop⟩ [] ⟨(m.helperCalm c).2,
        if (m.helperCalm c).1 then .exiting [] m.pc else .native [] m.pc m.pc⟩
  | interpret {m : Machine} : JitStep c ⟨m, .loop⟩ [] ⟨m, .interp⟩
  | interpSafepoint {m : Machine} (hf : m.flags ≠ 0) :
      JitStep c ⟨m, .interp⟩ [] ⟨(m.calm c).2, if (m.calm c).1 then .interp else .ended⟩
  | interpExec {m m' : Machine} {w : World} (hw : w.Undisturbed) (hf : m.flags = 0)
      (h : m.fetch c w = (true, m')) :
      JitStep c ⟨m, .interp⟩ [.exec m.pc w] ⟨{ m' with pc := m'.pc + 8 }, .loop⟩
  | interpStop {m m' : Machine} {w : World} (hw : w.Undisturbed) (hf : m.flags = 0)
      (h : m.fetch c w = (false, m')) : JitStep c ⟨m, .interp⟩ [.stop m.pc w] ⟨m', .halted⟩
  | exec {m m' : Machine} {w : World} {calls : List CompiledCall} {entry cur : U64}
      {i : BpfInsn} (hi : (m.goto cur).insn c = some i)
      (hk : i.kind = .plain ∨ i.kind = .softfp) (hw : w.Undisturbed)
      (h : (m.goto cur).fetch c w = (true, m')) :
      JitStep c ⟨m, .native calls entry cur⟩ [.exec cur w]
        ⟨{ m' with pc := m.pc }, .native calls entry (m'.pc + 8)⟩
  /-- A jump out of the compiled code. -/
  | deopt {m m' : Machine} {w : World} {calls : List CompiledCall} {entry cur : U64}
      {i : BpfInsn} (hi : (m.goto cur).insn c = some i) (hk : i.kind = .plain)
      (hw : w.Undisturbed) (h : (m.goto cur).fetch c w = (true, m')) :
      JitStep c ⟨m, .native calls entry cur⟩ [.exec cur w]
        ⟨{ m' with pc := m'.pc + 8 }, .exiting calls entry⟩
  /-- `emit_call_softfp_slow`. -/
  | softfp {m m' : Machine} {w : World} {calls : List CompiledCall} {entry cur : U64}
      {i : BpfInsn} (hi : (m.goto cur).insn c = some i) (hk : i.kind = .softfp)
      (hw : w.Undisturbed) (h : (m.goto cur).fetch c w = (true, m')) :
      JitStep c ⟨m, .native calls entry cur⟩ [.exec cur w]
        ⟨{ m' with pc := cur }, .native calls entry (cur + 8)⟩
  /-- `helper_do_softfp` drops the answer of `do_softfp`. -/
  | softfpFails {m m' : Machine} {w : World} {calls : List CompiledCall} {entry cur : U64}
      {i : BpfInsn} (hi : (m.goto cur).insn c = some i) (hk : i.kind = .softfp)
      (hw : w.Undisturbed) (h : (m.goto cur).fetch c w = (false, m')) :
      JitStep c ⟨m, .native calls entry cur⟩ [.lost cur]
        ⟨{ m' with pc := cur }, .native calls entry (cur + 8)⟩
  /-- `flush_and_exit` behind an access that failed. -/
  | abort {m : Machine} {calls : List CompiledCall} {entry cur : U64} {i : BpfInsn}
      (hi : (m.goto cur).insn c = some i) (ha : (m.goto cur).accessFails c i = true) :
      JitStep c ⟨m, .native calls entry cur⟩ [.abort cur m.pc (calls.map CompiledCall.ret)]
        ⟨m, .exiting calls entry⟩
  | call {m m' : Machine} {w : World} {calls : List CompiledCall} {entry cur : U64}
      {i : BpfInsn} (hi : (m.goto cur).insn c = some i)
      (hk : i.kind = .call ∨ i.kind = .callIndirect) (hf : m.flags = 0) (hw : w.Undisturbed)
      (ha : (m.goto cur).accessFails c i = false) (h : (m.goto cur).fetch c w = (true, m')) :
      JitStep c ⟨m, .native calls entry cur⟩ [.exec cur w]
        ⟨{ m' with pc := m.pc }, .native (⟨cur + 8, m.reg⟩ :: calls) entry (m'.pc + 8)⟩
  /-- The callee is not compiled, or not cached, or there are flags. -/
  | callOut {m m' : Machine} {w : World} {calls : List CompiledCall} {entry cur : U64}
      {i : BpfInsn} (hi : (m.goto cur).insn c = some i)
      (hk : i.kind = .call ∨ i.kind = .callIndirect) (hw : w.Undisturbed)
      (h : (m.goto cur).fetch c w = (true, m')) :
      JitStep c ⟨m, .native calls entry cur⟩ [.exec cur w]
        ⟨{ m' with pc := m'.pc + 8 }, .exiting calls entry⟩
  /-- `emit_call_overflow_stub`; the registers were not written back. -/
  | overflow {m : Machine} {calls : List CompiledCall} {entry cur : U64} {i : BpfInsn}
      (reg : ℕ → U64) (hi : (m.goto cur).insn c = some i)
      (hk : i.kind = .call ∨ i.kind = .callIndirect)
      (hl : (m.load c (m.reg 10) 8).1.isSome = true) (ho : (m.goto cur).overflows c = true) :
      JitStep c ⟨m, .native calls entry cur⟩ [.lost cur]
        ⟨{ m with reg := reg, flags := m.flags ||| vmKilled }, .exiting calls entry⟩
  /-- `push_frame` fails in `helper_call_indirect` or `helper_call_bpf`. -/
  | callFails {m m' : Machine} {w : World} {calls : List CompiledCall} {entry cur : U64}
      {i : BpfInsn} (hi : (m.goto cur).insn c = some i)
      (hk : i.kind = .callIndirect ∨ i.kind = .call ∧ m.flags ≠ 0) (hw : w.Undisturbed)
      (h : (m.goto cur).fetch c w = (false, m')) :
      JitStep c ⟨m, .native calls entry cur⟩ [.lost cur]
        ⟨{ m' with
            pc := m.pc
            flags := if i.kind = .call then m'.flags ||| vmExited else m'.flags },
          .exiting calls entry⟩
  /-- The same helpers find that the callee is not mapped. -/
  | callUnmapped {m m' : Machine} {w : World} {calls : List CompiledCall} {entry cur : U64}
      {i : BpfInsn} (hi : (m.goto cur).insn c = some i)
      (hk : i.kind = .callIndirect ∨ i.kind = .call ∧ m.flags ≠ 0) (hw : w.Undisturbed)
      (h : (m.goto cur).fetch c w = (true, m')) (hu : (m'.load c (m'.pc + 8) 8).1 = none) :
      JitStep c ⟨m, .native calls entry cur⟩ [.lost cur]
        ⟨{ m'.logMemViolation c with pc := m.pc }, .exiting calls entry⟩
  /-- `emit_exit`. -/
  | exit {m m' : Machine} {w : World} {calls : List CompiledCall} {entry cur : U64}
      {i : BpfInsn} (hi : (m.goto cur).insn c = some i) (hk : i.kind = .exit)
      (hw : w.Undisturbed) (h : (m.goto cur).fetch c w = (true, m')) :
      JitStep c ⟨m, .native calls entry cur⟩ [.exec cur w]
        ⟨{ m' with pc := m'.pc + 8 }, .exiting calls entry⟩
  /-- `emit_exit` at the bottom of the stack. -/
  | bottom {m : Machine} {w : World} {calls : List CompiledCall} {entry cur : U64}
      {i : BpfInsn} {frame : List Byte} (hi : (m.goto cur).insn c = some i) (hk : i.kind = .exit)
      (hw : w.Undisturbed) (hframe : (m.load c (m.reg 10) 56).1 = some frame)
      (hret : word frame 16 = 0) :
      JitStep c ⟨m, .native calls entry cur⟩
        [if ((m.goto cur).fetch c w).1 then .lost cur else .stop cur w]
        ⟨{ m with flags := m.flags ||| vmExited }, .exiting calls entry⟩
  /-- `emit_exit` needs less of the frame than `pop_frame`. -/
  | exitAnyway {m m' : Machine} {w : World} {calls : List CompiledCall} {entry cur : U64}
      {i : BpfInsn} {frame : List Byte} (hi : (m.goto cur).insn c = some i) (hk : i.kind = .exit)
      (hw : w.Undisturbed) (hframe : (m.load c (m.reg 10) 56).1 = some frame)
      (hret : word frame 16 ≠ 0) (h : (m.goto cur).fetch c w = (false, m')) :
      JitStep c ⟨m, .native calls entry cur⟩ [.lost cur]
        ⟨m.inlineExit c frame, .exiting calls entry⟩
  /-- `emit_call_syscall`. -/
  | syscall {m : Machine} {w : World} {calls : List CompiledCall} {entry cur : U64}
      {i : BpfInsn} (hi : (m.goto cur).insn c = some i) (hk : i.kind = .syscall)
      (hreg : i.dstReg.toNat ≤ 10) (hw : w.Undisturbed) :
      JitStep c ⟨m, .native calls entry cur⟩
        [if (((m.goto cur).afterFetch c).doSyscall w i.imm).1 then .exec cur w else .stop cur w]
        ⟨(((m.goto cur).afterFetch c).helperDoSyscall w i.imm).2,
          if (((m.goto cur).afterFetch c).helperDoSyscall w i.imm).1
          then .native calls entry (cur + 8) else .exiting calls entry⟩
  /-- The safepoint at the head of a compiled loop. -/
  | poll {m : Machine} {calls : List CompiledCall} {entry cur : U64} (hf : m.flags ≠ 0) :
      JitStep c ⟨m, .native calls entry cur⟩ [] ⟨((m.goto cur).helperCalm c).2,
        if ((m.goto cur).helperCalm c).1 then .exiting calls entry else .native calls entry cur⟩
  /-- `emit_call_cont_tail`. -/
  | cont {m : Machine} {a : CompiledCall} {calls : List CompiledCall} {entry : U64}
      (hf : m.flags = 0) (hpc : m.pc = a.ret) :
      JitStep c ⟨m, .exiting (a :: calls) entry⟩ [.resumed a.saved m.reg]
        ⟨m.resume a.saved, .native calls entry a.ret⟩
  | contOut {m : Machine} {a : CompiledCall} {calls : List CompiledCall} {entry : U64}
      (h : m.flags ≠ 0 ∨ m.pc ≠ a.ret) :
      JitStep c ⟨m, .exiting (a :: calls) entry⟩ [] ⟨m, .exiting calls entry⟩
  | ret {m : Machine} {entry : U64} :
      JitStep c ⟨m, .exiting [] entry⟩ [] ⟨m, .back entry⟩
  /-- `step` finds no flag set. -/
  | quiet {m : Machine} {entry : U64} (hf : m.flags = 0) :
      JitStep c ⟨m, .back entry⟩ [] ⟨m, if m.pc ≠ entry then .loop else .interp⟩
  | safepoint {m : Machine} {entry : U64} (hf : m.flags ≠ 0) :
      JitStep c ⟨m, .back entry⟩ [] ⟨(m.calm c).2,
        if (m.calm c).1 then (if (m.calm c).2.pc ≠ entry then .loop else .interp) else .ended⟩

end Bpfvm.Cpu
