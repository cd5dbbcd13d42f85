import Bpfvm.Jit.Cache
import Bpfvm.Process.Layout

/-!
# Running compiled code

`vm::step` with the code cache: one vm on a memory that every vm changes. Which way a conditional
jump goes, what is in registers and where a return leads are left open; where the code of an
instruction goes on, which slot a call goes through and what is counted follow `emit_instruction`
and the emitters. The instructions that compiled code executes are those of its fragment.
-/
namespace Bpfvm.Jit
open Memory Cpu

/-- A compiled call that waits for its callee: the fragment and the index of the call. -/
structure Waiting where
  id : ℕ
  site : ℕ
  deriving DecidableEq, Repr

/-- Where the thread of the vm is. -/
inductive Place where
  /-- `step` is about to ask for compiled code. -/
  | loop
  /-- `step` is about to interpret an instruction. -/
  | interp
  /-- Compiled code that `step` entered at `before` is at instruction `i` of fragment `id`, before
  or behind its safepoint. -/
  | native (calls : List Waiting) (before : U64) (id i : ℕ) (polled : Bool)
  /-- `vm_exit`, with the compiled callers that are still to be passed. -/
  | exiting (calls : List Waiting) (before : U64)
  /-- The host has run off the end of a fragment. -/
  | astray
  | ended

/-- The instructions that a place refers to. -/
def Place.All (A : ℕ → ℕ → Prop) : Place → Prop
  | .native calls _ id i _ => A id i ∧ ∀ w ∈ calls, A w.id w.site
  | .exiting calls _ => ∀ w ∈ calls, A w.id w.site
  | _ => True

theorem Place.All.mono {A B : ℕ → ℕ → Prop} {p : Place} (h : p.All A)
    (hab : ∀ id i, A id i → B id i) : p.All B := by
  cases p with
  | native calls before id i polled => exact ⟨hab _ _ h.1, fun w hw => hab _ _ (h.2 w hw)⟩
  | exiting calls before => exact fun w hw => hab _ _ (h w hw)
  | _ => trivial

/-- The vm: `pc_`, `flags`, `insn_count`, its compiler and the memory. -/
structure Core where
  mem : State
  jit : JitCompiler
  pc : U64
  flags : U32
  count : ℕ
  place : Place

def Core.start (mem : State) (pc : U64) : Core :=
  ⟨mem, .empty, pc, 0, 0, .loop⟩

inductive Event where
  | other
  | memory (op : Op)
  | otherExec (u : ℕ) (segs : List BootSeg)
  | execve (segs : List BootSeg) (entry : U64)
  | interpreted
  /-- Compiled code has executed an instruction. -/
  | native
  /-- `step` has entered compiled code. -/
  | enter
  /-- Compiled code has called compiled code. -/
  | call

/-- The flags that only the vm itself sets and clears. -/
def ownFlags : U32 := vmJitAbort ||| vmBudgetExceeded

/-- The budget flag stays: `safepoint` does not clear it. -/
def KeepsBudget (f f' : U32) : Prop := f' &&& vmBudgetExceeded = f &&& vmBudgetExceeded

/-- `safepoint` has found no reason to stop, and has cleared `VM_JIT_ABORT`. -/
def Passed (f f' : U32) : Prop := f &&& sticky = 0 ∧ f' &&& ownFlags = 0

theorem passed_zero : Passed 0 0 := by simp [Passed]

/-- The count at a loop head. -/
def charged (c : Config) (f : Fragment) (i n : ℕ) : ℕ :=
  if c.insnLimit ≠ 0 then n + f.found.loopBodySize i else n

/-- Where compiled code goes on behind instruction `i`. -/
def Fragment.behind (f : Fragment) (calls : List Waiting) (before : U64) (id i : ℕ) : Place :=
  match f.fallsTo i with
  | some k => .native calls before id k false
  | none => .astray

/-- One step of the vm, or a change of the memory by any vm. -/
inductive CoreStep (c : Config) : Core → Event → Core → Prop
  | memory {s : Core} {op : Op} {mem : State} (h : Step s.mem op mem) (hv : mem.Runs c.vm) :
      CoreStep c s (.memory op) { s with mem := mem }
  | otherExec {s : Core} {u : ℕ} {segs : List BootSeg} (hu : u ≠ c.vm) (hr : s.mem.Runs u) :
      CoreStep c s (.otherExec u segs) { s with mem := Layout.execSpace s.mem u segs }
  /-- Another thread. -/
  | flag {s : Core} {f : U32} (hf : f &&& ownFlags = s.flags &&& ownFlags) :
      CoreStep c s .other { s with flags := f }
  -- `step`
  | attached {s : Core} (hp : s.place = .loop) : CoreStep c s .other { s with place := .interp }
  | cold {s : Core} {finalized : Bool} {j : JitCompiler} {mem : State} (hp : s.place = .loop)
      (h : s.jit.compile c finalized s.mem s.pc = (none, j, mem)) :
      CoreStep c s .other { s with jit := j, mem := mem, place := .interp }
  | enter {s : Core} {finalized : Bool} {j : JitCompiler} {mem : State} {id : ℕ}
      {f : U32} (hp : s.place = .loop)
      (h : s.jit.compile c finalized s.mem s.pc = (some id, j, mem)) (hf : Passed s.flags f) :
      CoreStep c s .enter
        { s with jit := j, mem := mem, flags := f, place := .native [] s.pc id 0 false }
  /-- The safepoint of the prologue. -/
  | refuse {s : Core} {finalized : Bool} {j : JitCompiler} {mem : State} {id : ℕ}
      {f : U32} (pc : U64) (hp : s.place = .loop)
      (h : s.jit.compile c finalized s.mem s.pc = (some id, j, mem))
      (hf : KeepsBudget s.flags f) :
      CoreStep c s .other
        { s with jit := j, mem := mem, flags := f, pc := pc, place := .exiting [] s.pc }
  | interpret {s : Core} {f : U32} (pc : U64) (hp : s.place = .interp)
      (hn : c.insnLimit = 0 ∨ s.count + 1 < c.insnLimit) (hf : Passed s.flags f) :
      CoreStep c s .interpreted
        { s with count := s.count + 1, flags := f, pc := pc, place := .loop }
  | interpStop {s : Core} {f : U32} (pc : U64) (hp : s.place = .interp)
      (hn : c.insnLimit = 0 ∨ s.count + 1 < c.insnLimit) :
      CoreStep c s .interpreted
        { s with count := s.count + 1, flags := f, pc := pc, place := .ended }
  | interpExec {s : Core} {f : U32} {segs : List BootSeg} {entry : U64}
      (hp : s.place = .interp) (hn : c.insnLimit = 0 ∨ s.count + 1 < c.insnLimit)
      (hf : Passed s.flags f) :
      CoreStep c s (.execve segs entry)
        { s with
          mem := Layout.execSpace s.mem c.vm segs
          jit := s.jit.clear
          count := s.count + 1
          flags := f
          pc := entry
          place := .loop }
  | interpBudget {s : Core} (hp : s.place = .interp) (hl : c.insnLimit ≠ 0)
      (hn : c.insnLimit ≤ s.count + 1) :
      CoreStep c s .other
        { s with
          count := s.count + 1
          flags := s.flags ||| vmBudgetExceeded
          place := .ended }
  -- `emit_safepoint`
  | unpolled {s : Core} {calls : List Waiting} {before : U64} {id i : ℕ} {f : Fragment}
      (hp : s.place = .native calls before id i false) (hid : s.jit.code[id]? = some f)
      (ht : f.found.backEdgeTarget i = false) :
      CoreStep c s .other { s with place := .native calls before id i true }
  | poll {s : Core} {calls : List Waiting} {before : U64} {id i : ℕ} {f : Fragment}
      (hp : s.place = .native calls before id i false) (hid : s.jit.code[id]? = some f)
      (ht : f.found.backEdgeTarget i = true)
      (hn : c.insnLimit = 0 ∨ charged c f i s.count < c.insnLimit) (hf : s.flags = 0) :
      CoreStep c s .other
        { s with count := charged c f i s.count, place := .native calls before id i true }
  | pollSlow {s : Core} {calls : List Waiting} {before : U64} {id i : ℕ} {f : Fragment}
      {g : U32} (hp : s.place = .native calls before id i false)
      (hid : s.jit.code[id]? = some f) (ht : f.found.backEdgeTarget i = true)
      (hn : c.insnLimit = 0 ∨ charged c f i s.count < c.insnLimit) (hf : Passed s.flags g) :
      CoreStep c s .other
        { s with
          count := charged c f i s.count
          flags := g
          pc := f.addr i
          place := .native calls before id i true }
  | pollOut {s : Core} {calls : List Waiting} {before : U64} {id i : ℕ} {f : Fragment}
      {g : U32} (pc : U64) (hp : s.place = .native calls before id i false)
      (hid : s.jit.code[id]? = some f) (ht : f.found.backEdgeTarget i = true)
      (hn : c.insnLimit = 0 ∨ charged c f i s.count < c.insnLimit)
      (hg : KeepsBudget s.flags g) :
      CoreStep c s .other
        { s with
          count := charged c f i s.count
          flags := g
          pc := pc
          place := .exiting calls before }
  | pollBudget {s : Core} {calls : List Waiting} {before : U64} {id i : ℕ} {f : Fragment}
      (hp : s.place = .native calls before id i false) (hid : s.jit.code[id]? = some f)
      (ht : f.found.backEdgeTarget i = true) (hl : c.insnLimit ≠ 0)
      (hn : c.insnLimit ≤ charged c f i s.count) :
      CoreStep c s .other
        { s with
          count := charged c f i s.count
          flags := s.flags ||| vmBudgetExceeded
          place := .exiting calls before }
  -- `emit_instruction`
  | next {s : Core} {calls : List Waiting} {before : U64} {id i : ℕ} {f : Fragment}
      (pc : U64) (hp : s.place = .native calls before id i true)
      (hid : s.jit.code[id]? = some f) (hk : (f.insn i).kind = .plain ∧ pc = s.pc ∨
        ((f.insn i).kind = .softfp ∨ (f.insn i).kind = .syscall) ∧ pc = f.addr i)
      (hn : (fallThrough (f.insn i) i).isSome = true) :
      CoreStep c s .native { s with pc := pc, place := f.behind calls before id i }
  | jump {s : Core} {calls : List Waiting} {before : U64} {id i : ℕ} {t : ℤ} {f : Fragment}
      (hp : s.place = .native calls before id i true) (hid : s.jit.code[id]? = some f)
      (ht : jumpTarget (f.insn i) i = some t) (h0 : 0 ≤ t) (hlt : t < f.size) :
      CoreStep c s .native { s with place := .native calls before id t.toNat false }
  | deopt {s : Core} {calls : List Waiting} {before : U64} {id i : ℕ} {t : ℤ} {f : Fragment}
      (hp : s.place = .native calls before id i true) (hid : s.jit.code[id]? = some f)
      (ht : jumpTarget (f.insn i) i = some t) (hout : t < 0 ∨ f.size ≤ t) :
      CoreStep c s .native { s with pc := f.addr t, place := .exiting calls before }
  /-- `flush_and_exit` behind an access that failed. -/
  | abort {s : Core} {calls : List Waiting} {before : U64} {id i : ℕ}
      (hp : s.place = .native calls before id i true) :
      CoreStep c s .other { s with place := .exiting calls before }
  /-- `helper_do_syscall` answers that compiled code is to be left. -/
  | syscallOut {s : Core} {calls : List Waiting} {before : U64} {id i : ℕ} {f : Fragment}
      {g : U32} (pc : U64) (hp : s.place = .native calls before id i true)
      (hid : s.jit.code[id]? = some f) (hk : (f.insn i).kind = .syscall)
      (hg : KeepsBudget s.flags g) :
      CoreStep c s .native { s with flags := g, pc := pc, place := .exiting calls before }
  /-- `execveat` made from compiled code: `pc_` is left at `entry - 8`, and compiled code goes on
  if that is where the system call was. -/
  | exec {s : Core} {calls : List Waiting} {before : U64} {id i : ℕ} {f : Fragment}
      {segs : List BootSeg} {entry : U64} (hp : s.place = .native calls before id i true)
      (hid : s.jit.code[id]? = some f) (hk : (f.insn i).kind = .syscall)
      (hpc : entry - 8 ≠ f.addr i) :
      CoreStep c s (.execve segs entry)
        { s with
          mem := Layout.execSpace s.mem c.vm segs
          jit := s.jit.clear
          flags := s.flags ||| vmJitAbort
          pc := entry
          place := .exiting calls before }
  | execOn {s : Core} {calls : List Waiting} {before : U64} {id i : ℕ} {f : Fragment}
      {segs : List BootSeg} {entry : U64} (hp : s.place = .native calls before id i true)
      (hid : s.jit.code[id]? = some f) (hk : (f.insn i).kind = .syscall)
      (hpc : entry - 8 = f.addr i) :
      CoreStep c s (.execve segs entry)
        { s with
          mem := Layout.execSpace s.mem c.vm segs
          jit := s.jit.clear
          pc := f.addr i
          place := f.behind calls before id i }
  -- `emit_call_bpf`
  | call {s : Core} {calls : List Waiting} {before : U64} {id i callee : ℕ} {f : Fragment}
      (hp : s.place = .native calls before id i true) (hid : s.jit.code[id]? = some f)
      (hk : (f.insn i).kind = .call) (hf : s.flags = 0)
      (hslot : s.jit.callCache id i = some callee) :
      CoreStep c s .call { s with place := .native (⟨id, i⟩ :: calls) before callee 0 false }
  | resolve {s : Core} {calls : List Waiting} {before : U64} {id i callee : ℕ}
      {f : Fragment} (hp : s.place = .native calls before id i true)
      (hid : s.jit.code[id]? = some f) (hk : (f.insn i).kind = .call) (hf : s.flags = 0)
      (hslot : s.jit.callCache id i = none)
      (hres : s.jit.resolveCall (f.callee i) = some callee) :
      CoreStep c s .call
        { s with
          jit := s.jit.setCall id i callee
          place := .native (⟨id, i⟩ :: calls) before callee 0 false }
  | callOut {s : Core} {calls : List Waiting} {before : U64} {id i : ℕ} {f : Fragment}
      (hp : s.place = .native calls before id i true) (hid : s.jit.code[id]? = some f)
      (hk : (f.insn i).kind = .call)
      (hres : s.flags ≠ 0 ∨ s.jit.callCache id i = none ∧
        s.jit.resolveCall (f.callee i) = none) :
      CoreStep c s .native { s with pc := f.callee i, place := .exiting calls before }
  -- `emit_call_indirect`
  | callIndirect {s : Core} {calls : List Waiting} {before target : U64}
      {id i callee : ℕ} {f : Fragment} (hp : s.place = .native calls before id i true)
      (hid : s.jit.code[id]? = some f) (hk : (f.insn i).kind = .callIndirect) (hf : s.flags = 0)
      (hslot : s.jit.icSlots id i = some (target, callee)) :
      CoreStep c s .call { s with place := .native (⟨id, i⟩ :: calls) before callee 0 false }
  | callIndirectOut {s : Core} {calls : List Waiting} {before target : U64} {id i : ℕ}
      {f : Fragment} (hp : s.place = .native calls before id i true)
      (hid : s.jit.code[id]? = some f) (hk : (f.insn i).kind = .callIndirect) :
      CoreStep c s .native
        { s with
          jit := s.jit.fillIc id i target
          pc := target
          place := .exiting calls before }
  /-- The frame of a call does not fit, or its callee is not mapped. -/
  | callFails {s : Core} {calls : List Waiting} {before : U64} {id i : ℕ} {f : Fragment}
      {g : U32} (hp : s.place = .native calls before id i true)
      (hid : s.jit.code[id]? = some f)
      (hk : (f.insn i).kind = .call ∨ (f.insn i).kind = .callIndirect)
      (hg : KeepsBudget s.flags g) :
      CoreStep c s .native { s with flags := g, place := .exiting calls before }
  -- `emit_exit`
  | exit {s : Core} {calls : List Waiting} {before : U64} {id i : ℕ} {f : Fragment}
      (pc : U64) (hp : s.place = .native calls before id i true)
      (hid : s.jit.code[id]? = some f) (hk : (f.insn i).kind = .exit) :
      CoreStep c s .native { s with pc := pc, place := .exiting calls before }
  | bottom {s : Core} {calls : List Waiting} {before : U64} {id i : ℕ} {f : Fragment}
      (hp : s.place = .native calls before id i true) (hid : s.jit.code[id]? = some f)
      (hk : (f.insn i).kind = .exit) :
      CoreStep c s .native
        { s with flags := s.flags ||| vmExited, place := .exiting calls before }
  -- `emit_call_cont_tail`
  | cont {s : Core} {w : Waiting} {calls : List Waiting} {before : U64} {f : Fragment}
      (hp : s.place = .exiting (w :: calls) before) (hid : s.jit.code[w.id]? = some f)
      (hf : s.flags = 0) (hpc : s.pc = f.addr (w.site + 1)) :
      CoreStep c s .other { s with place := f.behind calls before w.id w.site }
  | contOut {s : Core} {w : Waiting} {calls : List Waiting} {before : U64} {f : Fragment}
      (hp : s.place = .exiting (w :: calls) before) (hid : s.jit.code[w.id]? = some f)
      (h : s.flags ≠ 0 ∨ s.pc ≠ f.addr (w.site + 1)) :
      CoreStep c s .other { s with place := .exiting calls before }
  -- back in `step`
  | back {s : Core} {before : U64} (hp : s.place = .exiting [] before) (hf : s.flags = 0) :
      CoreStep c s .other { s with place := if s.pc ≠ before then .loop else .interp }
  | backSafepoint {s : Core} {before : U64} {f : U32} (pc : U64)
      (hp : s.place = .exiting [] before) (hf : Passed s.flags f) :
      CoreStep c s .other
        { s with flags := f, pc := pc, place := if pc ≠ before then .loop else .interp }
  | backStop {s : Core} {before : U64} (hp : s.place = .exiting [] before)
      (hf : s.flags ≠ 0) : CoreStep c s .other { s with place := .ended }

/-- What `compile` answers, as a hypothesis of a step. -/
theorem compiled_eq {r : Option ℕ × JitCompiler × State} {id : ℕ} (h : r.1 = some id) :
    r = (some id, r.2.1, r.2.2) := by
  rw [← h]

/-- Compiled code has returned with another `pc_`. -/
theorem CoreStep.back_loop {c : Config} {mem : State} {j : JitCompiler} {pc before : U64}
    {n : ℕ} (h : pc ≠ before) : CoreStep c ⟨mem, j, pc, 0, n, .exiting [] before⟩ .other
      ⟨mem, j, pc, 0, n, .loop⟩ := by
  have hs := CoreStep.back (c := c) (s := ⟨mem, j, pc, 0, n, .exiting [] before⟩) rfl rfl
  rwa [if_pos h] at hs

end Bpfvm.Jit
