import Bpfvm.Jit.Host

/-!
# x86-64

The instructions that `X86Emitter` emits, and what they do. Flags are kept where the emitted code
tests them; an instruction that leaves them otherwise makes them unknown, and a conditional jump on
unknown flags is a fault. The stack is the list of the pushed words, so `rsp` is not a register.
-/
namespace Bpfvm.Jit.X86
open Memory Cpu HostCode Function

inductive Reg where
  | rax | rcx | rdx | rbx | rbp | rsi | rdi
  | r8 | r9 | r10 | r11 | r12 | r13 | r14 | r15
  deriving DecidableEq, Repr

/-- `BPF_REG_MAP`. -/
def bpfRegMap : ℕ → Reg
  | 0 => .r8
  | 1 => .r9
  | 2 => .r10
  | 3 => .rdi
  | 4 => .rsi
  | 5 => .rdx
  | 6 => .rbx
  | 7 => .r12
  | 8 => .r13
  | 9 => .r14
  | _ => .r15

/-- `BPF_CALLER_SAVED_X86`. -/
def bpfCallerSaved : List Reg := [.r8, .r9, .r10, .rdi, .rsi, .rdx]

/-! ## Flags -/

structure Flags where
  zf : Bool
  cf : Bool
  sf : Bool
  of : Bool
  deriving DecidableEq, Repr

/-- The flags of `cmp a, b`. -/
def subFlags {n : ℕ} (a b : BitVec n) : Flags :=
  ⟨a == b, a.ult b, (a - b).msb, a.ssubOverflow b⟩

/-- The flags of `test`, from the conjunction. -/
def logicFlags {n : ℕ} (a : BitVec n) : Flags := ⟨a == 0, false, a.msb, false⟩

/-- Condition codes; the encodings of a condition and of its negation differ in the last bit. -/
inductive Cc where
  | b | ae | e | ne | be | a | l | ge | le | g
  deriving DecidableEq, Repr

namespace Cc

def holds (f : Flags) : Cc → Bool
  | .b => f.cf
  | .ae => !f.cf
  | .e => f.zf
  | .ne => !f.zf
  | .be => f.cf || f.zf
  | .a => !(f.cf || f.zf)
  | .l => f.sf != f.of
  | .ge => !(f.sf != f.of)
  | .le => f.zf || (f.sf != f.of)
  | .g => !(f.zf || (f.sf != f.of))

/-- `cc ^ 1`. -/
def inv : Cc → Cc
  | .b => .ae
  | .ae => .b
  | .e => .ne
  | .ne => .e
  | .be => .a
  | .a => .be
  | .l => .ge
  | .ge => .l
  | .le => .g
  | .g => .le

theorem holds_inv (f : Flags) (cc : Cc) : cc.inv.holds f = !cc.holds f := by
  cases cc <;> simp [inv, holds]

end Cc

/-! ## Instructions -/

inductive AluOp where
  | add | sub | or | and | xor | imul
  deriving DecidableEq, Repr

def AluOp.value (n : ℕ) : AluOp → BitVec n → BitVec n → BitVec n
  | .add, a, b => a + b
  | .sub, a, b => a - b
  | .or, a, b => a ||| b
  | .and, a, b => a &&& b
  | .xor, a, b => a ^^^ b
  | .imul, a, b => a * b

inductive ShiftOp where
  | shl | shr | sar
  deriving DecidableEq, Repr

def ShiftOp.value (n : ℕ) (k : ℕ) : ShiftOp → BitVec n → BitVec n
  | .shl, a => a <<< k
  | .shr, a => a >>> k
  | .sar, a => a.sshiftRight k

/-- A register, a sign-extended immediate, or the qword at `[rbp + r11 + disp]`. -/
inductive Operand where
  | reg (r : Reg)
  | imm (i : U32)
  | sib (disp : ℕ)
  deriving DecidableEq, Repr

inductive Count where
  | cl
  | imm (i : BitVec 8)
  deriving DecidableEq, Repr

/-- A jump by instructions of the piece, or out of it. -/
inductive Target where
  | rel (d : ℤ)
  | out (e : Exit)
  deriving DecidableEq, Repr

/-- The atomic operations on the word at `[r11]`. -/
inductive LockOp where
  | alu (op : AluOp)
  | xadd
  | xchg
  | cmpxchg
  deriving DecidableEq, Repr

inductive Insn where
  | mov (is64 : Bool) (dst src : Reg)
  /-- `mov r64, imm32`, sign-extended. -/
  | movSext (dst : Reg) (imm : U32)
  /-- `mov r32, imm32`. -/
  | movImm32 (dst : Reg) (imm : U32)
  | movabs (dst : Reg) (imm : U64)
  | alu (op : AluOp) (is64 : Bool) (dst : Reg) (src : Operand)
  | cmp (is64 : Bool) (a : Reg) (b : Operand)
  | test (is64 : Bool) (a : Reg) (b : Operand)
  | neg (is64 : Bool) (r : Reg)
  | shift (op : ShiftOp) (is64 : Bool) (r : Reg) (count : Count)
  /-- Sign extension of the low `bits` bits. -/
  | movsx (bits : ℕ) (is64 : Bool) (r : Reg)
  /-- `movzx r32, r16`. -/
  | movzx16 (r : Reg)
  /-- `rol r16, count`. -/
  | rol16 (r : Reg) (count : ℕ)
  | bswap (is64 : Bool) (r : Reg)
  /-- `cqo` or `cdq`. -/
  | cqo (is64 : Bool)
  | div (is64 signed : Bool) (src : Reg)
  | push (r : Reg)
  | pop (r : Reg)
  | lea (dst base : Reg) (disp : U32)
  /-- `mov r64, [rbp + disp]`. -/
  | load (dst : Reg) (disp : ℕ)
  /-- `mov [rbp + disp], r64`. -/
  | store (disp : ℕ) (src : Reg)
  /-- `test dword [rbp + r11 + disp], imm32`. -/
  | testMem (disp : ℕ) (imm : U32)
  /-- `cmp byte [rbp + r11 + disp], imm8`. -/
  | cmpMem (disp : ℕ) (imm : BitVec 8)
  | jcc (cc : Cc) (t : Target)
  | jmp (t : Target)
  /-- `call_helper` of `helper_mmu` or `helper_mmu_w`. -/
  | callMmu (isWrite : Bool)
  /-- `mov rax, [r11]`. -/
  | loadWord (isDw : Bool)
  /-- `lock op [r11], src`. -/
  | lock (op : LockOp) (isDw : Bool) (src : Reg)
  deriving DecidableEq, Repr

/-! ## Execution -/

/-- The host registers and flags, the host stack, and the `vm` that `rbp` points to. -/
structure State where
  reg : Reg → U64
  flags : Option Flags
  stack : List U64
  vm : Machine

namespace State

def set (s : State) (r : Reg) (x : U64) : State :=
  { s with reg := update s.reg r x }

/-- A result whose flags the emitted code never tests. -/
def result (s : State) (r : Reg) (x : U64) : State := { s.set r x with flags := none }

def withFlags (s : State) (f : Flags) : State := { s with flags := some f }

variable (s : State) (r q : Reg) (x : U64)

@[simp] theorem reg_set_self : (s.set r x).reg r = x := update_self ..

theorem reg_set_of_ne {r q : Reg} (h : q ≠ r) : (s.set r x).reg q = s.reg q :=
  update_of_ne h ..

@[simp] theorem vm_set : (s.set r x).vm = s.vm := rfl
@[simp] theorem stack_set : (s.set r x).stack = s.stack := rfl
@[simp] theorem flags_set : (s.set r x).flags = s.flags := rfl

@[simp] theorem reg_result_self : (s.result r x).reg r = x := update_self ..

theorem reg_result_of_ne {r q : Reg} (h : q ≠ r) : (s.result r x).reg q = s.reg q :=
  update_of_ne h ..

@[simp] theorem vm_result : (s.result r x).vm = s.vm := rfl
@[simp] theorem stack_result : (s.result r x).stack = s.stack := rfl

@[simp] theorem reg_withFlags (f : Flags) : (s.withFlags f).reg = s.reg := rfl
@[simp] theorem vm_withFlags (f : Flags) : (s.withFlags f).vm = s.vm := rfl
@[simp] theorem stack_withFlags (f : Flags) : (s.withFlags f).stack = s.stack := rfl
@[simp] theorem flags_withFlags (f : Flags) : (s.withFlags f).flags = some f := rfl

end State

/-- The quotient and the remainder of `hi:lo` by `d`, at `n` bits; nothing on a division error. -/
def divide {n : ℕ} (signed : Bool) (hi lo d : BitVec n) : Option (BitVec n × BitVec n) :=
  if d = 0 then none
  else if signed then
    let x := hi.toInt * 2 ^ n + lo.toNat
    let q := x.tdiv d.toInt
    if -2 ^ (n - 1) ≤ q ∧ q < 2 ^ (n - 1) then
      some (BitVec.ofInt n q, BitVec.ofInt n (x.tmod d.toInt))
    else none
  else
    let x := hi.toNat * 2 ^ n + lo.toNat
    if x / d.toNat < 2 ^ n then
      some (BitVec.ofNat n (x / d.toNat), BitVec.ofNat n (x % d.toNat))
    else none

/-- `divide` at either width, on the host registers. -/
def divideAt (is64 signed : Bool) (hi lo d : U64) : Option (U64 × U64) :=
  if is64 then divide signed hi lo d
  else (divide signed (hi.truncate 32) (lo.truncate 32) (d.truncate 32)).map fun q =>
    (q.1.zeroExtend 64, q.2.zeroExtend 64)

namespace State

/-- The field of `vm` at an address relative to `rbp`. -/
def fieldAt (P : Platform) (s : State) (a : U64) : Option U64 :=
  (P.layout.field a.toNat).map (P.read s.vm)

def operand (P : Platform) (s : State) : Operand → Option U64
  | .reg r => some (s.reg r)
  | .imm i => some (i.signExtend 64)
  | .sib disp => s.fieldAt P (s.reg .r11 + BitVec.ofNat 64 disp)

def count (s : State) : Count → ℕ
  | .cl => (s.reg .rcx).toNat
  | .imm i => i.toNat

/-- The word at the host address in `r11`. -/
def word (P : Platform) (s : State) (isDw : Bool) : U64 :=
  let n := if isDw then 8 else 4
  ofBytes 64 (s.vm.mem.host.load (P.locate (s.reg .r11)) n)

def setWord (P : Platform) (s : State) (isDw : Bool) (x : U64) : State :=
  let n := if isDw then 8 else 4
  let host := s.vm.mem.host.store (P.locate (s.reg .r11)) (LittleEndian.bytes n x.toNat)
  { s with vm := { s.vm with mem := s.vm.mem.setHost host } }

/-- A helper call: `rdi`, `rsi` and `edx` are its arguments, `rax` its result, and only `rbx`,
`rbp` and `r12` .. `r15` are kept. -/
def callMmu (P : Platform) (s : State) (isWrite : Bool) : State :=
  let a := (s.reg .rsi).toNat
  let n := (s.reg .rdx).toNat
  let r := if isWrite then s.vm.mem.mmuWSlow P.setup.env P.setup.vm a n
    else s.vm.mem.mmuSlow P.setup.vm a n
  { s with
    reg := fun q => match q with
      | .rax => r.1.elim 0 P.place
      | .rbx | .rbp | .r12 | .r13 | .r14 | .r15 => s.reg q
      | _ => P.junk 0
    flags := none
    vm := { s.vm with mem := r.2 } }

end State

def jumpTo (s : State) : Target → State × Flow Exit
  | .rel d => (s, .jump d)
  | .out e => (s, .exit e)

/-- One instruction. -/
def sem (P : Platform) (x : Insn) (s : State) : State × Flow Exit :=
  match x with
  | .mov is64 dst src => (s.set dst (atWidth is64 (fun _ a _ => a) (s.reg src) 0), .next)
  | .movSext dst imm => (s.set dst (imm.signExtend 64), .next)
  | .movImm32 dst imm => (s.set dst (imm.zeroExtend 64), .next)
  | .movabs dst imm => (s.set dst imm, .next)
  | .alu op is64 dst src =>
    match s.operand P src with
    | some b => (s.result dst (atWidth is64 (fun n => op.value n) (s.reg dst) b), .next)
    | none => (s, .exit .fault)
  | .cmp is64 a b =>
    match s.operand P b with
    | some b => (s.withFlags (lowAt is64 (fun _ => subFlags) (s.reg a) b), .next)
    | none => (s, .exit .fault)
  | .test is64 a b =>
    match s.operand P b with
    | some b =>
      (s.withFlags (lowAt is64 (fun _ a b => logicFlags (a &&& b)) (s.reg a) b), .next)
    | none => (s, .exit .fault)
  | .neg is64 r => (s.result r (atWidth is64 (fun _ a _ => -a) (s.reg r) 0), .next)
  | .shift op is64 r count =>
    let k := s.count count % (if is64 then 64 else 32)
    (s.result r (atWidth is64 (fun n a _ => op.value n k a) (s.reg r) 0), .next)
  | .movsx bits is64 r =>
    (s.set r (atWidth is64 (fun n a _ => (a.truncate bits).signExtend n) (s.reg r) 0), .next)
  | .movzx16 r => (s.set r (((s.reg r).truncate 16).zeroExtend 64), .next)
  | .rol16 r count =>
    let x := ((s.reg r).truncate 16).rotateLeft count
    (s.result r ((s.reg r &&& ~~~0xffff) ||| x.zeroExtend 64), .next)
  | .bswap is64 r => (s.set r (bswap (if is64 then 8 else 4) (s.reg r)), .next)
  | .cqo is64 =>
    (s.set .rdx (atWidth is64 (fun n a _ => if a.msb then BitVec.allOnes n else 0)
      (s.reg .rax) 0), .next)
  | .div is64 signed src =>
    match divideAt is64 signed (s.reg .rdx) (s.reg .rax) (s.reg src) with
    | some (q, r) => ((s.result .rax q).set .rdx r, .next)
    | none => (s, .exit .fault)
  | .push r => ({ s with stack := s.reg r :: s.stack }, .next)
  | .pop r =>
    match s.stack with
    | x :: stack => ({ s with stack := stack }.set r x, .next)
    | [] => (s, .exit .fault)
  | .lea dst base disp => (s.set dst (s.reg base + disp.signExtend 64), .next)
  | .load dst disp =>
    match s.fieldAt P (BitVec.ofNat 64 disp) with
    | some x => (s.set dst x, .next)
    | none => (s, .exit .fault)
  | .store disp src =>
    match P.layout.field disp with
    | some f => ({ s with vm := Platform.write s.vm (s.reg src) f }, .next)
    | none => (s, .exit .fault)
  | .testMem disp imm =>
    match s.fieldAt P (s.reg .r11 + BitVec.ofNat 64 disp) with
    | some x => (s.withFlags (logicFlags (x.truncate 32 &&& imm)), .next)
    | none => (s, .exit .fault)
  | .cmpMem disp imm =>
    match s.fieldAt P (s.reg .r11 + BitVec.ofNat 64 disp) with
    | some x => (s.withFlags (subFlags (x.truncate 8) imm), .next)
    | none => (s, .exit .fault)
  | .jcc cc t =>
    match s.flags with
    | some f => if cc.holds f then jumpTo s t else (s, .next)
    | none => (s, .exit .fault)
  | .jmp t => jumpTo s t
  | .callMmu isWrite => (s.callMmu P isWrite, .next)
  | .loadWord isDw => (s.set .rax (s.word P isDw), .next)
  | .lock op isDw src =>
    let old := s.word P isDw
    match op with
    | .alu op =>
      let x := atWidth isDw (fun n => op.value n) old (s.reg src)
      ({ s.setWord P isDw x with flags := none }, .next)
    | .xadd =>
      let x := atWidth isDw (fun n => AluOp.add.value n) old (s.reg src)
      (((s.setWord P isDw x).result src old), .next)
    | .xchg => ((s.setWord P isDw (s.reg src)).set src old, .next)
    | .cmpxchg =>
      let f := lowAt isDw (fun _ => subFlags) (s.reg .rax) old
      if f.zf then ((s.setWord P isDw (s.reg src)).withFlags f, .next)
      else ((s.set .rax old).withFlags f, .next)

/-! ## Guest registers in host registers -/

/-- The host registers hold the guest registers. -/
def Mirrors (r : Regs) (s : State) : Prop := ∀ k ≤ 10, s.reg (bpfRegMap k) = r k

/-- The registers that hold no guest register. -/
def scratch : List Reg := [.rax, .rcx, .r11]

/-- Only registers of the list change, and the flags. -/
structure Changes (l : List Reg) (s s' : State) : Prop where
  reg : ∀ q ∉ l, s'.reg q = s.reg q
  stack : s'.stack = s.stack
  vm : s'.vm = s.vm

theorem bpfRegMap_notMem (k : ℕ) : bpfRegMap k ∉ scratch := by
  unfold bpfRegMap
  split <;> decide

theorem bpfRegMap_ne_rbp (k : ℕ) : bpfRegMap k ≠ .rbp := by
  unfold bpfRegMap
  split <;> decide

theorem bpfRegMap_inj {j k : ℕ} (hj : j ≤ 10) (hk : k ≤ 10) (h : bpfRegMap j = bpfRegMap k) :
    j = k := by
  have hall : ∀ j k : Fin 11, bpfRegMap j = bpfRegMap k → j = k := by decide
  exact congrArg Fin.val (hall ⟨j, by omega⟩ ⟨k, by omega⟩ h)

section
variable {P : Platform} {r : Regs} {s s' s'' : State} {l l' : List Reg} {k d : ℕ} {q : Reg}
  {x : U64}

namespace Changes

theorem refl (l : List Reg) (s : State) : Changes l s s := ⟨fun _ _ => rfl, rfl, rfl⟩

theorem trans (h : Changes l s s') (h' : Changes l s' s'') : Changes l s s'' :=
  ⟨fun q hq => (h'.reg q hq).trans (h.reg q hq), h'.stack.trans h.stack, h'.vm.trans h.vm⟩

theorem mono (h : Changes l s s') (hl : l ⊆ l') : Changes l' s s' :=
  ⟨fun q hq => h.reg q fun hm => hq (hl hm), h.stack, h.vm⟩

theorem set (hq : q ∈ l) (s : State) (x : U64) : Changes l s (s.set q x) :=
  ⟨fun _ hp => State.reg_set_of_ne s x fun he => hp (he ▸ hq), rfl, rfl⟩

theorem result (hq : q ∈ l) (s : State) (x : U64) : Changes l s (s.result q x) :=
  ⟨fun _ hp => State.reg_result_of_ne s x fun he => hp (he ▸ hq), rfl, rfl⟩

theorem withFlags (l : List Reg) (s : State) (f : Flags) : Changes l s (s.withFlags f) :=
  ⟨fun _ _ => rfl, rfl, rfl⟩

end Changes

theorem Mirrors.of_changes (h : Mirrors r s) (hc : Changes scratch s s') : Mirrors r s' :=
  fun k hk => (hc.reg _ (bpfRegMap_notMem k)).trans (h k hk)

theorem Mirrors.write (h : Mirrors r s) (hd : d ≤ 10) (x : U64) :
    Mirrors (update r d x) (s.set (bpfRegMap d) x) := by
  intro k hk
  by_cases he : k = d
  · rw [he, State.reg_set_self, update_self]
  · rw [update_of_ne he, State.reg_set_of_ne s x fun hm => he (bpfRegMap_inj hk hd hm)]
    exact h k hk

end

/-! ## `load_bpf` and `store_bpf` -/

def loadBpf (bpfReg : ℕ) (dst : Reg) : List Insn :=
  if bpfRegMap bpfReg ≠ dst then [.mov true dst (bpfRegMap bpfReg)] else []

def storeBpf (bpfReg : ℕ) (src : Reg) : List Insn :=
  if bpfRegMap bpfReg ≠ src then [.mov true (bpfRegMap bpfReg) src] else []

section
variable {P : Platform}

theorem set_reg_self (s : State) (q : Reg) : s.set q (s.reg q) = s := by
  unfold State.set
  rw [update_eq_self]

theorem computes_loadBpf (s : State) (k : ℕ) (dst : Reg) :
    Computes (sem P) (loadBpf k dst) s (s.set dst (s.reg (bpfRegMap k))) := by
  unfold loadBpf
  split_ifs with h
  · exact .single rfl
  · rw [not_not.mp h, set_reg_self]
    exact .nil

theorem computes_storeBpf (s : State) (k : ℕ) (src : Reg) :
    Computes (sem P) (storeBpf k src) s (s.set (bpfRegMap k) (s.reg src)) := by
  unfold storeBpf
  split_ifs with h
  · exact .single rfl
  · rw [not_not.mp h, set_reg_self]
    exact .nil

end

end Bpfvm.Jit.X86
