import Bpfvm.Cpu.Machine

/-!
# The instruction set of RFC 9669

The instructions as a syntax, so that every value is a valid instruction (in particular `r10`
is never a destination), their encoding, and what each does to the registers, the memory and
the program counter on a little-endian host.
-/
namespace Bpfvm.Cpu.Isa
open Memory

inductive AluOp where
  | add | sub | mul | div | sdiv | or | and | lsh | rsh | mod | smod | xor | mov | arsh
  deriving DecidableEq, Repr

inductive Cond where
  | eq | gt | ge | set | ne | sgt | sge | lt | le | slt | sle
  deriving DecidableEq, Repr

inductive AtomicOp where
  | add | or | and | xor
  deriving DecidableEq, Repr

/-- The width of an operation: 64 bits, or the low 32. -/
inductive Width where
  | w32 | w64
  deriving DecidableEq, Repr

inductive Size where
  | b | h | w | dw
  deriving DecidableEq, Repr

def Width.bits : Width → ℕ
  | .w32 => 32
  | .w64 => 64

def Width.bytes : Width → ℕ
  | .w32 => 4
  | .w64 => 8

def Size.bytes : Size → ℕ
  | .b => 1
  | .h => 2
  | .w => 4
  | .dw => 8

/-- The sizes below a double word. -/
abbrev SubSize := { s : Size // s ≠ .dw }

/-- The sizes below the width of a sign-extending move. -/
abbrev MoveSize (w : Width) := { s : Size // s.bytes < w.bytes }

/-- The sizes of a byte swap. -/
abbrev SwapSize := { s : Size // s ≠ .b }

inductive Order where
  | le | be | swap
  deriving DecidableEq, Repr

inductive Operand where
  | reg (k : Fin 11)
  | imm (i : U32)
  deriving DecidableEq, Repr

inductive Insn where
  | alu (w : Width) (op : AluOp) (dst : Fin 10) (src : Operand)
  | neg (w : Width) (dst : Fin 10)
  | movsx (w : Width) (s : MoveSize w) (dst : Fin 10) (src : Fin 11)
  | bytes (o : Order) (s : SwapSize) (dst : Fin 10)
  | ja (off : BitVec 16)
  | jaLong (imm : U32)
  | jcond (w : Width) (cond : Cond) (dst : Fin 11) (src : Operand) (off : BitVec 16)
  | lddw (dst : Fin 10) (imm : U64)
  | ldx (s : Size) (dst : Fin 10) (src : Fin 11) (off : BitVec 16)
  | ldxs (s : SubSize) (dst : Fin 10) (src : Fin 11) (off : BitVec 16)
  | st (s : Size) (dst : Fin 11) (off : BitVec 16) (imm : U32)
  | stx (s : Size) (dst src : Fin 11) (off : BitVec 16)
  | atomic (w : Width) (op : AtomicOp) (dst src : Fin 11) (off : BitVec 16)
  | fetch (w : Width) (op : AtomicOp) (dst : Fin 11) (src : Fin 10) (off : BitVec 16)
  | xchg (w : Width) (dst : Fin 11) (src : Fin 10) (off : BitVec 16)
  | cmpxchg (w : Width) (dst src : Fin 11) (off : BitVec 16)
  deriving DecidableEq

/-! ## Encoding -/

def AluOp.code : AluOp → BitVec 8
  | .add => 0x00 | .sub => 0x10 | .mul => 0x20 | .div => 0x30 | .sdiv => 0x30 | .or => 0x40
  | .and => 0x50 | .lsh => 0x60 | .rsh => 0x70 | .mod => 0x90 | .smod => 0x90 | .xor => 0xa0
  | .mov => 0xb0 | .arsh => 0xc0

/-- The signed forms of division and modulo have offset 1. -/
def AluOp.off : AluOp → BitVec 16
  | .sdiv => 1
  | .smod => 1
  | _ => 0

def Cond.code : Cond → BitVec 8
  | .eq => 0x10 | .gt => 0x20 | .ge => 0x30 | .set => 0x40 | .ne => 0x50 | .sgt => 0x60
  | .sge => 0x70 | .lt => 0xa0 | .le => 0xb0 | .slt => 0xc0 | .sle => 0xd0

def AtomicOp.code : AtomicOp → U32
  | .add => 0x00 | .or => 0x40 | .and => 0x50 | .xor => 0xa0

def Size.code : Size → BitVec 8
  | .w => 0x00 | .h => 0x08 | .b => 0x10 | .dw => 0x18

def Width.size : Width → Size
  | .w32 => .w
  | .w64 => .dw

def Width.aluClass : Width → BitVec 8
  | .w32 => 0x04
  | .w64 => 0x07

def Width.jmpClass : Width → BitVec 8
  | .w32 => 0x06
  | .w64 => 0x05

def Operand.code : Operand → BitVec 8
  | .reg _ => 0x08
  | .imm _ => 0x00

def Operand.srcReg : Operand → BitVec 4
  | .reg k => BitVec.ofNat 4 k
  | .imm _ => 0

def Operand.immField : Operand → U32
  | .reg _ => 0
  | .imm i => i

def regField {n : ℕ} (k : Fin n) : BitVec 4 := BitVec.ofNat 4 k

/-- The instruction slots. -/
def Insn.slots : Insn → List BpfInsn
  | .alu w op dst src =>
    [⟨w.aluClass ||| op.code ||| src.code, regField dst, src.srcReg, op.off, src.immField⟩]
  | .neg w dst => [⟨w.aluClass ||| 0x80, regField dst, 0, 0, 0⟩]
  | .movsx w s dst src =>
    [⟨w.aluClass ||| 0xb8, regField dst, regField src, BitVec.ofNat 16 (8 * s.1.bytes), 0⟩]
  | .bytes o s dst =>
    [⟨match o with | .le => 0xd4 | .be => 0xdc | .swap => 0xd7, regField dst, 0, 0,
      BitVec.ofNat 32 (8 * s.1.bytes)⟩]
  | .ja off => [⟨0x05, 0, 0, off, 0⟩]
  | .jaLong imm => [⟨0x06, 0, 0, 0, imm⟩]
  | .jcond w cond dst src off =>
    [⟨w.jmpClass ||| cond.code ||| src.code, regField dst, src.srcReg, off, src.immField⟩]
  | .lddw dst imm =>
    [⟨0x18, regField dst, 0, 0, imm.truncate 32⟩, ⟨0, 0, 0, 0, (imm >>> 32).truncate 32⟩]
  | .ldx s dst src off => [⟨0x61 ||| s.code, regField dst, regField src, off, 0⟩]
  | .ldxs s dst src off => [⟨0x81 ||| s.1.code, regField dst, regField src, off, 0⟩]
  | .st s dst off imm => [⟨0x62 ||| s.code, regField dst, 0, off, imm⟩]
  | .stx s dst src off => [⟨0x63 ||| s.code, regField dst, regField src, off, 0⟩]
  | .atomic w op dst src off =>
    [⟨0xc3 ||| w.size.code, regField dst, regField src, off, op.code⟩]
  | .fetch w op dst src off =>
    [⟨0xc3 ||| w.size.code, regField dst, regField src, off, op.code ||| 0x01⟩]
  | .xchg w dst src off => [⟨0xc3 ||| w.size.code, regField dst, regField src, off, 0xe1⟩]
  | .cmpxchg w dst src off => [⟨0xc3 ||| w.size.code, regField dst, regField src, off, 0xf1⟩]

/-- The instruction as it lies in memory. -/
def Insn.encode (i : Insn) : List Byte := i.slots.flatMap BpfInsn.bytes

/-! ## Meaning -/

/-- What a program sees: registers, program counter, memory. -/
@[ext] structure Arch where
  reg : ℕ → U64
  pc : U64
  mem : ℕ → Option Byte

/-- Immediates are sign-extended. -/
def Operand.value (w : ℕ) (r : ℕ → U64) : Operand → BitVec w
  | .reg k => (r k).truncate w
  | .imm i => i.signExtend w

def AluOp.eval {w : ℕ} (op : AluOp) (x y : BitVec w) : BitVec w :=
  match op with
  | .add => x + y
  | .sub => x - y
  | .mul => x * y
  | .div => if y = 0 then 0 else x / y
  | .sdiv => if y = 0 then 0 else if y = -1 ∧ x = BitVec.intMin w then BitVec.intMin w else x.sdiv y
  | .or => x ||| y
  | .and => x &&& y
  | .lsh => x <<< (y.toNat % w)
  | .rsh => x >>> (y.toNat % w)
  | .mod => if y = 0 then x else x % y
  | .smod => if y = 0 then x else if y = -1 ∧ x = BitVec.intMin w then 0 else x.srem y
  | .xor => x ^^^ y
  | .mov => y
  | .arsh => x.sshiftRight (y.toNat % w)

def Cond.eval {w : ℕ} (c : Cond) (x y : BitVec w) : Prop :=
  match c with
  | .eq => x = y
  | .gt => y.toNat < x.toNat
  | .ge => y.toNat ≤ x.toNat
  | .set => x &&& y ≠ 0
  | .ne => x ≠ y
  | .sgt => y.toInt < x.toInt
  | .sge => y.toInt ≤ x.toInt
  | .lt => x.toNat < y.toNat
  | .le => x.toNat ≤ y.toNat
  | .slt => x.toInt < y.toInt
  | .sle => x.toInt ≤ y.toInt

instance {w : ℕ} (c : Cond) (x y : BitVec w) : Decidable (c.eval x y) :=
  match c with
  | .eq => inferInstanceAs (Decidable (x = y))
  | .gt => inferInstanceAs (Decidable (y.toNat < x.toNat))
  | .ge => inferInstanceAs (Decidable (y.toNat ≤ x.toNat))
  | .set => inferInstanceAs (Decidable (x &&& y ≠ 0))
  | .ne => inferInstanceAs (Decidable (x ≠ y))
  | .sgt => inferInstanceAs (Decidable (y.toInt < x.toInt))
  | .sge => inferInstanceAs (Decidable (y.toInt ≤ x.toInt))
  | .lt => inferInstanceAs (Decidable (x.toNat < y.toNat))
  | .le => inferInstanceAs (Decidable (x.toNat ≤ y.toNat))
  | .slt => inferInstanceAs (Decidable (x.toInt < y.toInt))
  | .sle => inferInstanceAs (Decidable (x.toInt ≤ y.toInt))

def AtomicOp.eval {w : ℕ} (op : AtomicOp) (x y : BitVec w) : BitVec w :=
  match op with
  | .add => x + y
  | .or => x ||| y
  | .and => x &&& y
  | .xor => x ^^^ y

/-- The low `n` bytes in reverse order, zero-extended. -/
def reverseBytes (n : ℕ) (x : U64) : U64 :=
  BitVec.ofNat 64 (LittleEndian.value (LittleEndian.bytes n x.toNat).reverse)

def Order.eval (o : Order) (n : ℕ) (x : U64) : U64 :=
  match o with
  | .le => (x.truncate (8 * n)).zeroExtend 64
  | .be => reverseBytes n x
  | .swap => reverseBytes n x

namespace Arch

def setReg (s : Arch) (k : ℕ) (x : U64) : Arch := { s with reg := Function.update s.reg k x }

/-- Past `n` slots. -/
def next (s : Arch) (n : ℕ) : Arch := { s with pc := s.pc + BitVec.ofNat 64 (8 * n) }

/-- To an offset in slots from the next instruction. -/
def jump (s : Arch) {w : ℕ} (off : BitVec w) : Arch :=
  { s with pc := s.pc + 8 + off.signExtend 64 * 8 }

def addr (s : Arch) (k : ℕ) (off : BitVec 16) : ℕ := (s.reg k + off.signExtend 64).toNat

def read (s : Arch) (a n : ℕ) : Option ℕ := (FlatMemory.read s.mem a n).map LittleEndian.value

def write (s : Arch) (a n : ℕ) (x : ℕ) : Arch :=
  { s with mem := FlatMemory.write s.mem a (LittleEndian.bytes n x) }

/-- An atomic operation at width `w`: the new value, and the register that gets the old one. -/
def modify (s : Arch) (w : Width) (a : ℕ) (f : BitVec w.bits → BitVec w.bits)
    (into : Option ℕ) : Option Arch := do
  let old ← s.read a w.bytes
  let s := s.write a w.bytes (f (BitVec.ofNat w.bits old)).toNat
  return match into with
    | none => s
    | some k => s.setReg k (BitVec.ofNat 64 old)

end Arch

/-- One instruction; `none` when it accesses unmapped memory. -/
def Insn.exec (s : Arch) : Insn → Option Arch
  | .alu w op dst src =>
    let x := op.eval ((s.reg dst).truncate w.bits) (src.value w.bits s.reg)
    some ((s.setReg dst (x.zeroExtend 64)).next 1)
  | .neg w dst =>
    some ((s.setReg dst ((-(s.reg dst).truncate w.bits).zeroExtend 64)).next 1)
  | .movsx w sz dst src =>
    let x := ((s.reg src).truncate (8 * sz.1.bytes)).signExtend w.bits
    some ((s.setReg dst (x.zeroExtend 64)).next 1)
  | .bytes o sz dst => some ((s.setReg dst (o.eval sz.1.bytes (s.reg dst))).next 1)
  | .ja off => some (s.jump off)
  | .jaLong imm => some (s.jump imm)
  | .jcond w cond dst src off =>
    if cond.eval ((s.reg dst).truncate w.bits) (src.value w.bits s.reg) then some (s.jump off)
    else some (s.next 1)
  | .lddw dst imm => some ((s.setReg dst imm).next 2)
  | .ldx sz dst src off => do
    let x ← s.read (s.addr src off) sz.bytes
    return (s.setReg dst (BitVec.ofNat 64 x)).next 1
  | .ldxs sz dst src off => do
    let x ← s.read (s.addr src off) sz.1.bytes
    return (s.setReg dst ((BitVec.ofNat (8 * sz.1.bytes) x).signExtend 64)).next 1
  | .st sz dst off imm => do
    let _ ← s.read (s.addr dst off) sz.bytes
    return (s.write (s.addr dst off) sz.bytes (imm.signExtend 64).toNat).next 1
  | .stx sz dst src off => do
    let _ ← s.read (s.addr dst off) sz.bytes
    return (s.write (s.addr dst off) sz.bytes (s.reg src).toNat).next 1
  | .atomic w op dst src off => do
    let s' ← s.modify w (s.addr dst off) (fun x => op.eval x ((s.reg src).truncate w.bits)) none
    return s'.next 1
  | .fetch w op dst src off => do
    let s' ← s.modify w (s.addr dst off) (fun x => op.eval x ((s.reg src).truncate w.bits))
      (some src)
    return s'.next 1
  | .xchg w dst src off => do
    let s' ← s.modify w (s.addr dst off) (fun _ => (s.reg src).truncate w.bits) (some src)
    return s'.next 1
  | .cmpxchg w dst src off => do
    let s' ← s.modify w (s.addr dst off)
      (fun x => if x = (s.reg 0).truncate w.bits then (s.reg src).truncate w.bits else x) (some 0)
    return s'.next 1

/-- The range of memory an instruction loads from. -/
def Insn.loads (s : Arch) : Insn → Option (ℕ × ℕ)
  | .ldx sz _ src off => some (s.addr src off, sz.bytes)
  | .ldxs sz _ src off => some (s.addr src off, sz.1.bytes)
  | _ => none

/-- The range of memory an instruction writes. -/
def Insn.stores (s : Arch) : Insn → Option (ℕ × ℕ)
  | .st sz dst off _ => some (s.addr dst off, sz.bytes)
  | .stx sz dst _ off => some (s.addr dst off, sz.bytes)
  | .atomic w _ dst _ off => some (s.addr dst off, w.bytes)
  | .fetch w _ dst _ off => some (s.addr dst off, w.bytes)
  | .xchg w dst _ off => some (s.addr dst off, w.bytes)
  | .cmpxchg w dst _ off => some (s.addr dst off, w.bytes)
  | _ => none

end Bpfvm.Cpu.Isa
