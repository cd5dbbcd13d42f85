import Bpfvm.Cpu.Interp
import Bpfvm.Lib.HostCode

/-!
# What compiled code finds in the host

Compiled code keeps the guest registers in host registers and reaches everything else through the
`vm` structure: `reg[]`, `pc_` and the TLB at fixed offsets, and guest memory at the host addresses
that the TLB or the helpers give. Both back ends share this.
-/
namespace Bpfvm.Jit
open Memory Cpu

/-! ## The `vm` structure -/

inductive TlbField where
  | guestBase
  | guestEnd
  | hostBase
  | flags
  | cow
  deriving DecidableEq, Repr

def TlbField.offset : TlbField → ℕ
  | .guestBase => 0
  | .guestEnd => 8
  | .hostBase => 16
  | .flags => 24
  | .cow => 28

/-- `sizeof(TlbEntry)`. -/
def tlbEntrySize : ℕ := 32

/-- The fields of `vm` that compiled code uses. -/
inductive Field where
  | reg (k : ℕ)
  | pc
  | tlb (i : ℕ) (f : TlbField)
  deriving DecidableEq, Repr

/-- The offsets of the fields. They are passed on as `int32_t`. -/
structure Layout where
  offReg : ℕ
  offPc : ℕ
  offTlb : ℕ
  pc_reg : offPc + 8 ≤ offReg ∨ offReg + 88 ≤ offPc
  pc_tlb : offPc + 8 ≤ offTlb ∨ offTlb + tlbSize * tlbEntrySize ≤ offPc
  reg_tlb : offReg + 88 ≤ offTlb ∨ offTlb + tlbSize * tlbEntrySize ≤ offReg
  reg_small : offReg + 88 < 2 ^ 31
  pc_small : offPc + 8 < 2 ^ 31
  tlb_small : offTlb + tlbSize * tlbEntrySize < 2 ^ 31

namespace Layout

/-- The field at an offset. -/
def field (l : Layout) (a : ℕ) : Option Field :=
  if a = l.offPc then some .pc
  else if l.offReg ≤ a ∧ a < l.offReg + 88 ∧ (a - l.offReg) % 8 = 0 then
    some (.reg ((a - l.offReg) / 8))
  else if l.offTlb ≤ a ∧ a < l.offTlb + tlbSize * tlbEntrySize then
    let i := (a - l.offTlb) / tlbEntrySize
    match (a - l.offTlb) % tlbEntrySize with
    | 0 => some (.tlb i .guestBase)
    | 8 => some (.tlb i .guestEnd)
    | 16 => some (.tlb i .hostBase)
    | 24 => some (.tlb i .flags)
    | 28 => some (.tlb i .cow)
    | _ => none
  else none

variable (l : Layout)

theorem field_pc : l.field l.offPc = some .pc := if_pos rfl

theorem field_tlb {i : ℕ} (hi : i < tlbSize) (f : TlbField) :
    l.field (l.offTlb + tlbEntrySize * i + f.offset) = some (.tlb i f) := by
  have hpc := l.pc_tlb
  have hreg := l.reg_tlb
  have hf : f.offset < 32 := by cases f <;> decide
  unfold tlbEntrySize tlbSize at *
  unfold field
  rw [if_neg (by omega), if_neg (by omega),
    if_pos ⟨by omega, by unfold tlbSize tlbEntrySize; omega⟩]
  have hdiv : (l.offTlb + 32 * i + f.offset - l.offTlb) / tlbEntrySize = i := by
    unfold tlbEntrySize
    omega
  have hmod : (l.offTlb + 32 * i + f.offset - l.offTlb) % tlbEntrySize = f.offset := by
    unfold tlbEntrySize
    omega
  rw [hdiv, hmod]
  cases f <;> rfl

end Layout

/-- The host: where `vm` has its fields, at which address a host pointer is and back, which vm
this is, and what a helper leaves in the registers it need not keep. -/
structure Platform where
  layout : Layout
  setup : Setup
  place : HostPtr → U64
  locate : U64 → HostPtr
  junk : ℕ → U64
  place_add : ∀ p k, place (p.add k) = place p + BitVec.ofNat 64 k

namespace Platform

def tlbValue (P : Platform) (e : TlbEntry) : TlbField → U64
  | .guestBase => BitVec.ofNat 64 e.guestBase
  | .guestEnd => BitVec.ofNat 64 e.guestEnd
  | .hostBase => e.hostBase.elim 0 P.place
  | .flags => e.flags.zeroExtend 64
  | .cow => if e.cow then 1 else 0

def read (P : Platform) (m : Machine) : Field → U64
  | .reg k => m.reg k
  | .pc => m.pc
  | .tlb i f => P.tlbValue ((m.mem.vms P.setup.vm).tlb i) f

/-- Compiled code does not write the TLB. -/
def write (m : Machine) (x : U64) : Field → Machine
  | .reg k => m.setReg k x
  | .pc => { m with pc := x }
  | .tlb _ _ => m

end Platform

/-- How a piece of compiled code is left: to `flush_and_exit` because an access failed or because
`pc_` has been set, to the code of another instruction, or by a fault of the host. -/
inductive Exit where
  | abort
  | flushAndExit
  | target (t : ℤ)
  | fault
  deriving DecidableEq, Repr

/-! ## Operations at both widths -/

/-- An operation at 64 bits, or at 32 bits with the result zero-extended. -/
def atWidth (is64 : Bool) (f : (n : ℕ) → BitVec n → BitVec n → BitVec n) (a b : U64) :
    U64 :=
  if is64 then f 64 a b else (f 32 (a.truncate 32) (b.truncate 32)).zeroExtend 64

/-- Something said of both operands, or of their low halves. -/
def lowAt {α : Sort*} (is64 : Bool) (f : (n : ℕ) → BitVec n → BitVec n → α) (a b : U64) : α :=
  if is64 then f 64 a b else f 32 (a.truncate 32) (b.truncate 32)

section
variable {is64 : Bool} {a b : U64} {R S : (n : ℕ) → BitVec n → BitVec n → Prop}
  {f g : (n : ℕ) → BitVec n → BitVec n → BitVec n}

theorem not_lowAt : ¬lowAt is64 R a b ↔ lowAt is64 (fun n a b => ¬R n a b) a b := by
  cases is64 <;> exact Iff.rfl

theorem lowAt_and : lowAt is64 R a b ∧ lowAt is64 S a b ↔
    lowAt is64 (fun n a b => R n a b ∧ S n a b) a b := by
  cases is64 <;> exact Iff.rfl

theorem lowAt_of (h : ∀ n, 0 < n → ∀ a b : BitVec n, R n a b) : lowAt is64 R a b := by
  cases is64
  · exact h 32 (by decide) _ _
  · exact h 64 (by decide) _ _

theorem lowAt_imp (h : ∀ n, 0 < n → ∀ a b : BitVec n, R n a b → S n a b)
    (hr : lowAt is64 R a b) : lowAt is64 S a b := by
  cases is64
  · exact h 32 (by decide) _ _ hr
  · exact h 64 (by decide) _ _ hr

theorem atWidth_congr (h : lowAt is64 (fun n a b => f n a b = g n a b) a b) :
    atWidth is64 f a b = atWidth is64 g a b := by
  unfold atWidth
  cases is64
  · exact congrArg (BitVec.zeroExtend 64) h
  · exact h

end

end Bpfvm.Jit
