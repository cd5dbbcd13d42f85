import Bpfvm.Cpu.Signals
import Bpfvm.Memory.System

/-!
# The interpreter

One function for each instruction class, as `vm::alu64`, `vm::alu`, `vm::jmp`, `vm::jmp32`,
`vm::ld`, `vm::ldx`, `vm::st`, `vm::stx` are written, and `vm::step`. A `switch` without a
matching case does nothing.
-/
namespace Bpfvm.Cpu
open Memory

abbrev Regs := ℕ → U64

/-- `__builtin_bswap16/32/64` on the low `n` bytes, zero-extended. -/
def bswap (n : ℕ) (x : U64) : U64 :=
  BitVec.ofNat 64 (LittleEndian.value (LittleEndian.bytes n x.toNat).reverse)

/-- Whether the source operand is a register (`BPF_X`). -/
def BpfInsn.useReg (cur : BpfInsn) : Bool := cur.code &&& 0x08 == 0x08

-- The interpreter and the translators test the offset of a move by one instance.
instance decidableMoves (off : BitVec 16) (moves : List (BitVec 16)) : Decidable (off ∈ moves) :=
  inferInstance

/-- The arithmetic that `vm::alu64` and `vm::alu` share, at `w` bits: the new value of `dst`.
Shift amounts are masked with `mask`; `moves` are the offsets of the sign-extending moves. -/
def aluValue {w : ℕ} (mask : BitVec w) (moves : List (BitVec 16)) (op : ℕ) (off : BitVec 16)
    (dst src : BitVec w) : BitVec w :=
  match op with
  | 0x00 => dst + src
  | 0x10 => dst - src
  | 0x20 => dst * src
  | 0x30 =>
    if off = 0 then (if src ≠ 0 then BitVec.ofNat w (dst.toNat / src.toNat) else 0)
    else if src = 0 then 0
    else if src.toInt = -1 ∧ dst.toInt = -2 ^ (w - 1) then BitVec.ofInt w (-2 ^ (w - 1))
    else BitVec.ofInt w (dst.toInt.tdiv src.toInt)
  | 0x40 => dst ||| src
  | 0x50 => dst &&& src
  | 0x60 => dst <<< (src &&& mask).toNat
  | 0x70 => dst >>> (src &&& mask).toNat
  | 0x80 => BitVec.ofInt w (-dst.toInt)
  | 0x90 =>
    if off = 0 then (if src ≠ 0 then BitVec.ofNat w (dst.toNat % src.toNat) else dst)
    else if src = 0 then dst
    else if src.toInt = -1 ∧ dst.toInt = -2 ^ (w - 1) then 0
    else BitVec.ofInt w (dst.toInt.tmod src.toInt)
  | 0xa0 => dst ^^^ src
  | 0xb0 =>
    if off = 0 then src
    else if off ∈ moves then (src.truncate off.toNat).signExtend w
    else dst
  | 0xc0 => BitVec.ofInt w (dst.toInt >>> (src &&& mask).toNat)
  | _ => dst

/-- `BPF_END` in `vm::alu64`: a byte swap. -/
def swapValue (imm : U32) (dst : U64) : Option U64 :=
  if imm = 16 then some (bswap 2 dst)
  else if imm = 32 then some (bswap 4 dst)
  else if imm = 64 then some (bswap 8 dst)
  else none

def alu64 (cur : BpfInsn) (r : Regs) : Option Regs :=
  if 10 ≤ cur.dstReg.toNat then none
  else
    let d := cur.dstReg.toNat
    if cur.code &&& 0xf0 = 0xd0 then (swapValue cur.imm (r d)).map (Function.update r d)
    else
      let src := if cur.useReg then r cur.srcReg.toNat else cur.imm.signExtend 64
      some (Function.update r d
        (aluValue 0x3f [8, 16, 32] (cur.code &&& 0xf0).toNat cur.off (r d) src))

/-- `BPF_END` in `vm::alu`: to big endian with `BPF_X`, to little endian without. -/
def endValue (useReg : Bool) (imm : U32) (dst : U64) : Option U64 :=
  if useReg then swapValue imm dst
  else
    if imm = 16 then some ((dst.truncate 16).zeroExtend 64)
    else if imm = 32 then some ((dst.truncate 32).zeroExtend 64)
    else if imm = 64 then some dst
    else none

def alu (cur : BpfInsn) (r : Regs) : Option Regs :=
  if 10 ≤ cur.dstReg.toNat then none
  else
    let d := cur.dstReg.toNat
    if cur.code &&& 0xf0 = 0xd0 then
      (endValue cur.useReg cur.imm (r d)).map (Function.update r d)
    else
      let src := if cur.useReg then (r cur.srcReg.toNat).truncate 32 else cur.imm
      let x := aluValue 0x1f [8, 16] (cur.code &&& 0xf0).toNat cur.off ((r d).truncate 32) src
      some (Function.update r d (x.zeroExtend 64))

/-- Whether a conditional jump is taken, at either width; `none` for the other codes. -/
def taken {w : ℕ} (op : ℕ) (dst src : BitVec w) : Option Bool :=
  match op with
  | 0x10 => some (dst == src)
  | 0x20 => some (src.ult dst)
  | 0x30 => some (src.ule dst)
  | 0x40 => some (dst &&& src != 0)
  | 0x50 => some (dst != src)
  | 0x60 => some (src.slt dst)
  | 0x70 => some (src.sle dst)
  | 0xa0 => some (dst.ult src)
  | 0xb0 => some (dst.ule src)
  | 0xc0 => some (dst.slt src)
  | 0xd0 => some (dst.sle src)
  | _ => none

/-- The system calls and the floating-point helpers. -/
structure World where
  safepoint : SafepointWorld
  syscall : U32 → Machine → U64 × Machine
  softfp : U32 → Machine → Bool × Machine

def syscallRestart : U64 := -512
def syscallRestartNohand : U64 := -511

namespace Machine

/-- `pc_ += off * sizeof(bpf_insn)`. -/
def jumpBy (m : Machine) {w : ℕ} (off : BitVec w) : Machine :=
  { m with pc := m.pc + off.signExtend 64 * 8 }

/-- `do_syscall`, without the debugger's hooks. -/
def doSyscall (w : World) (m : Machine) (call : U32) : Bool × Machine :=
  let (ret, m) := w.syscall call m
  if ret = syscallRestart ∨ ret = syscallRestartNohand then
    (true, { m with restartPc := m.pc, restartNohand := decide (ret = syscallRestartNohand) })
  else
    let m := m.setReg 0 ret
    (m.flags &&& (vmExited ||| vmKilled) = 0, m)

/-- `vm::jmp`. -/
def jmp (c : Setup) (w : World) (m : Machine) (cur : BpfInsn) : Bool × Machine :=
  let dst := m.reg cur.dstReg.toNat
  let src := if cur.useReg then m.reg cur.srcReg.toNat else cur.imm.signExtend 64
  match (cur.code &&& 0xf0).toNat with
  | 0x00 => (true, m.jumpBy cur.off)
  | 0x80 =>
    if cur.useReg then
      match m.pushFrame c (m.pc + 8) dst false false with
      | (false, m) => (false, m)
      | (true, m) => (true, { m with pc := m.reg cur.dstReg.toNat - 8 })
    else if cur.srcReg = 0 then m.doSyscall w cur.imm
    else if cur.srcReg = 1 then
      match m.pushFrame c (m.pc + 8) (m.pc + 8 + cur.imm.signExtend 64 * 8) false false with
      | (false, m) => (false, m)
      | (true, m) => (true, m.jumpBy cur.imm)
    else if cur.srcReg = 2 then w.softfp cur.imm m
    else (true, m)
  | 0x90 =>
    let (ret, m) := m.popFrame c
    if ret = 0 then (false, m) else (true, { m with pc := ret - 8 })
  | op => (true, if taken op dst src = some true then m.jumpBy cur.off else m)

/-- `vm::jmp32`. -/
def jmp32 (m : Machine) (cur : BpfInsn) : Bool × Machine :=
  let dst : U32 := (m.reg cur.dstReg.toNat).truncate 32
  let src := if cur.useReg then (m.reg cur.srcReg.toNat).truncate 32 else cur.imm
  match (cur.code &&& 0xf0).toNat with
  | 0x00 => (true, m.jumpBy cur.imm)
  | 0x80 => (false, m)
  | 0x90 => (false, m)
  | op => (true, if taken op dst src = some true then m.jumpBy cur.off else m)

end Machine

/-! ## Memory instructions -/

/-- `access_size`. -/
def accessSize (code : BitVec 8) : ℕ :=
  match (code &&& 0x18).toNat with
  | 0x18 => 8
  | 0x00 => 4
  | 0x08 => 2
  | _ => 1

/-- Where an atomic operation puts the old value. -/
inductive Fetch where
  | nowhere
  | src
  | r0
  deriving DecidableEq, Repr

/-- `do_atomic`: the new value in memory and the register that receives the old one. -/
def atomicOp {w : ℕ} (op : U32) (old src r0 : BitVec w) : Option (BitVec w × Fetch) :=
  match op.toNat with
  | 0x00 => some (old + src, .nowhere)
  | 0x40 => some (old ||| src, .nowhere)
  | 0x50 => some (old &&& src, .nowhere)
  | 0xa0 => some (old ^^^ src, .nowhere)
  | 0x01 => some (old + src, .src)
  | 0x41 => some (old ||| src, .src)
  | 0x51 => some (old &&& src, .src)
  | 0xa1 => some (old ^^^ src, .src)
  | 0xe1 => some (src, .src)
  | 0xf1 => some (if old = r0 then src else old, .r0)
  | _ => none

/-- The value of `w` bits in little-endian bytes. -/
def ofBytes (w : ℕ) (bs : List Byte) : BitVec w := BitVec.ofNat w (LittleEndian.value bs)

namespace Machine

/-- `vm::ld`, any instruction of the class being taken for `lddw`. The first slot was read
through the host pointer `p`; the second is checked at its guest address and read behind the
first. -/
def ld (c : Setup) (m : Machine) (cur : BpfInsn) (p : HostPtr) : Bool × Machine :=
  if 10 ≤ cur.dstReg.toNat then (false, m)
  else
    let r := m.mem.mmu c.vm (m.pc + 8).toNat 8
    let m := { m with mem := r.2 }
    if r.1.isNone then (false, m.logMemViolation c)
    else
      let next := BpfInsn.ofBytes (m.mem.host.load (p.add 8) 8)
      let x := next.imm.signExtend 64 <<< 32 ||| cur.imm.zeroExtend 64
      (true, { m.setReg cur.dstReg.toNat x with pc := m.pc + 8 })

/-- `vm::ldx`. -/
def ldx (c : Setup) (m : Machine) (cur : BpfInsn) : Bool × Machine :=
  if 10 ≤ cur.dstReg.toNat then (false, m)
  else
    let n := accessSize cur.code
    match m.load c (m.reg cur.srcReg.toNat + cur.off.signExtend 64) n with
    | (none, m) => (false, m.logMemViolation c)
    | (some bs, m) =>
      match (cur.code &&& 0xe0).toNat with
      | 0x60 => (true, m.setReg cur.dstReg.toNat (ofBytes 64 bs))
      | 0x80 =>
        if n = 8 then (false, m)
        else (true, m.setReg cur.dstReg.toNat ((ofBytes (8 * n) bs).signExtend 64))
      | _ => (false, m)

/-- The store that `vm::st` and the plain part of `vm::stx` share. -/
def storeValue (c : Setup) (m : Machine) (cur : BpfInsn) (x : U64) : Bool × Machine :=
  let a := m.reg cur.dstReg.toNat + cur.off.signExtend 64
  match m.store c a (LittleEndian.bytes (accessSize cur.code) x.toNat) with
  | (false, m) => (false, m.logMemViolation c)
  | (true, m) => (true, m)

/-- `vm::st`. -/
def st (c : Setup) (m : Machine) (cur : BpfInsn) : Bool × Machine :=
  m.storeValue c cur (cur.imm.signExtend 64)

/-- The atomic part of `vm::stx` at a width of `n` bytes. -/
def atomic (c : Setup) (m : Machine) (cur : BpfInsn) (n : ℕ) : Bool × Machine :=
  let a := m.reg cur.dstReg.toNat + cur.off.signExtend 64
  let src := (m.reg cur.srcReg.toNat).truncate (8 * n)
  let r0 := (m.reg 0).truncate (8 * n)
  let change := fun bs => match atomicOp cur.imm (ofBytes (8 * n) bs) src r0 with
    | some (x, _) => LittleEndian.bytes n x.toNat
    | none => bs
  match m.mem.rmwBytes c.env c.vm a.toNat n change with
  | (none, mem) => (false, ({ m with mem := mem } : Machine).logMemViolation c)
  | (some bs, mem) =>
    let m := { m with mem := mem }
    let old := (ofBytes (8 * n) bs).zeroExtend 64
    match atomicOp cur.imm (ofBytes (8 * n) bs) src r0 with
    | none => (false, m)
    | some (_, .nowhere) => (true, m)
    | some (_, .src) => (true, m.setReg cur.srcReg.toNat old)
    | some (_, .r0) => (true, m.setReg 0 old)

/-- `vm::stx`. -/
def stx (c : Setup) (m : Machine) (cur : BpfInsn) : Bool × Machine :=
  if cur.code &&& 0xe0 = 0xc0 then
    if cur.code &&& 0x18 = 0x18 then m.atomic c cur 8
    else if cur.code &&& 0x18 = 0x00 then m.atomic c cur 4
    else (false, m)
  else m.storeValue c cur (m.reg cur.srcReg.toNat)

def withRegs (m : Machine) : Option Regs → Bool × Machine
  | none => (false, m)
  | some r => (true, { m with reg := r })

/-- The `switch` of `vm::step` on the instruction class. -/
def execute (c : Setup) (w : World) (m : Machine) (cur : BpfInsn) (p : HostPtr) :
    Bool × Machine :=
  match (cur.code &&& 0x07).toNat with
  | 0 => m.ld c cur p
  | 1 => m.ldx c cur
  | 2 => m.st c cur
  | 3 => m.stx c cur
  | 4 => m.withRegs (alu cur m.reg)
  | 5 => m.jmp c w cur
  | 6 => m.jmp32 cur
  | _ => m.withRegs (alu64 cur m.reg)

/-- Fetch and execute. -/
def fetch (c : Setup) (w : World) (m : Machine) : Bool × Machine :=
  match m.mem.mmu c.vm m.pc.toNat 8 with
  | (none, mem) => (false, ({ m with mem := mem } : Machine).logMemViolation c)
  | (some p, mem) =>
    let m := { m with mem := mem }
    let cur := BpfInsn.ofBytes (mem.host.load p 8)
    if 10 < cur.dstReg.toNat ∨ 10 < cur.srcReg.toNat then (false, m.logMemViolation c)
    else m.execute c w cur p

/-- `vm::step` when there is no compiled code for `pc_`, without the debugger's hooks. -/
def step (c : Setup) (w : World) (m : Machine) : Bool × Machine :=
  let m := { m with insnCount := m.insnCount + 1 }
  if c.insnLimit ≠ 0 ∧ c.insnLimit ≤ m.insnCount then
    (false, { m with flags := m.flags ||| vmBudgetExceeded })
  else
    match (if m.flags ≠ 0 then m.safepoint c w.safepoint else (true, m)) with
    | (false, m) => (false, m)
    | (true, m) => m.fetch c w

/-- One turn of the loop of `vm::run`; `none` when the loop ends. -/
def turn (c : Setup) (w : World) (m : Machine) : Option Machine :=
  match m.step c w with
  | (false, _) => none
  | (true, m) => some { m with pc := m.pc + 8 }

end Machine

/-! ## Start -/

/-- A machine that has loaded the image `segs`. -/
def Machine.boot (segs : List BootSeg) (reg : ℕ → U64) (pc : U64) : Machine :=
  ⟨reg, pc, 0, 0, 0, false, 0, 0, State.boot segs⟩

theorem sound_boot {segs : List BootSeg} (h : BootOk segs) : Sound (State.boot segs) 0 := by
  have hboot := booting_boot h
  exact ⟨hboot.wf, by rw [hboot.nextVm]; exact Nat.one_pos, hboot.tlb⟩

def Setup.plain : Setup := ⟨0, ⟨none, fun _ _ _ => none⟩, 0, 0⟩

def World.quiet : World :=
  ⟨⟨.none, 0, .none⟩, fun _ m => (0, m), fun _ m => (true, m)⟩

end Bpfvm.Cpu
