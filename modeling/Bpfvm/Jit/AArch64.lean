import Bpfvm.Jit.Arithmetic

/-!
# AArch64

The instructions that `AArch64Emitter` emits, and what they do. As on x86-64 the flags are kept
where the emitted code tests them. The stack is the list of the words above the stack pointer.
-/
namespace Bpfvm.Jit.AArch64
open Memory Cpu HostCode Function

/-- The registers that the emitted code uses. -/
inductive Reg where
  | x0 | x1 | x2 | x3 | x9 | x10 | x11 | x12 | x13 | x14 | x15
  | x19 | x20 | x21 | x22 | x23 | x28
  deriving DecidableEq, Repr

/-- `BPF_REG_MAP`. -/
def bpfRegMap : ℕ → Reg
  | 0 => .x9
  | 1 => .x10
  | 2 => .x11
  | 3 => .x12
  | 4 => .x13
  | 5 => .x14
  | 6 => .x19
  | 7 => .x20
  | 8 => .x21
  | 9 => .x22
  | _ => .x23

/-! ## Flags -/

structure Flags where
  n : Bool
  z : Bool
  c : Bool
  v : Bool
  deriving DecidableEq, Repr

/-- The flags of `cmp a, b`; the carry is the absence of a borrow. -/
def subFlags {w : ℕ} (a b : BitVec w) : Flags :=
  ⟨(a - b).msb, a == b, !a.ult b, a.ssubOverflow b⟩

/-- The flags of `tst`, from the conjunction. -/
def logicFlags {w : ℕ} (a : BitVec w) : Flags := ⟨a.msb, a == 0, false, false⟩

/-- Condition codes; the encodings of a condition and of its negation differ in the last bit. -/
inductive Cond where
  | eq | ne | cs | cc | hi | ls | ge | lt | gt | le
  deriving DecidableEq, Repr

namespace Cond

def holds (f : Flags) : Cond → Bool
  | .eq => f.z
  | .ne => !f.z
  | .cs => f.c
  | .cc => !f.c
  | .hi => f.c && !f.z
  | .ls => !(f.c && !f.z)
  | .ge => f.n == f.v
  | .lt => !(f.n == f.v)
  | .gt => !f.z && f.n == f.v
  | .le => !(!f.z && f.n == f.v)

/-- `cond ^ 1`. -/
def inv : Cond → Cond
  | .eq => .ne
  | .ne => .eq
  | .cs => .cc
  | .cc => .cs
  | .hi => .ls
  | .ls => .hi
  | .ge => .lt
  | .lt => .ge
  | .gt => .le
  | .le => .gt

theorem holds_inv (f : Flags) (cond : Cond) : cond.inv.holds f = !cond.holds f := by
  cases cond <;> simp [inv, holds]

end Cond

/-! ## Instructions -/

inductive AluOp where
  | add | sub | and | orr | eor | mul
  deriving DecidableEq, Repr

def AluOp.value (w : ℕ) : AluOp → BitVec w → BitVec w → BitVec w
  | .add, a, b => a + b
  | .sub, a, b => a - b
  | .and, a, b => a &&& b
  | .orr, a, b => a ||| b
  | .eor, a, b => a ^^^ b
  | .mul, a, b => a * b

inductive ShiftOp where
  | lsl | lsr | asr
  deriving DecidableEq, Repr

def ShiftOp.value (w : ℕ) (k : ℕ) : ShiftOp → BitVec w → BitVec w
  | .lsl, a => a <<< k
  | .lsr, a => a >>> k
  | .asr, a => a.sshiftRight k

/-- A jump by instructions of the piece, or out of it. -/
inductive Target where
  | rel (d : ℤ)
  | out (e : Exit)
  deriving DecidableEq, Repr

inductive Insn where
  /-- `movz`, `movn`, `movk`: a chunk of 16 bits at chunk position `hw`. -/
  | movz (is64 : Bool) (d : Reg) (imm : BitVec 16) (hw : ℕ)
  | movn (is64 : Bool) (d : Reg) (imm : BitVec 16) (hw : ℕ)
  | movk (is64 : Bool) (d : Reg) (imm : BitVec 16) (hw : ℕ)
  | mov (is64 : Bool) (d m : Reg)
  | alu (op : AluOp) (is64 : Bool) (d n m : Reg)
  /-- `add` and `sub` with an immediate of 12 bits. -/
  | addImm (is64 : Bool) (d n : Reg) (imm : ℕ)
  | subImm (is64 : Bool) (d n : Reg) (imm : ℕ)
  | neg (is64 : Bool) (d m : Reg)
  | udiv (is64 : Bool) (d n m : Reg)
  | sdiv (is64 : Bool) (d n m : Reg)
  /-- `d = a - n * m`. -/
  | msub (is64 : Bool) (d n m a : Reg)
  | shiftReg (op : ShiftOp) (is64 : Bool) (d n m : Reg)
  | shiftImm (op : ShiftOp) (is64 : Bool) (d n : Reg) (c : ℕ)
  | cmp (is64 : Bool) (n m : Reg)
  /-- `cmp` with an immediate of 12 bits. -/
  | cmpImm (is64 : Bool) (n : Reg) (imm : ℕ)
  | tst (is64 : Bool) (n m : Reg)
  | bcond (cond : Cond) (t : Target)
  | b (t : Target)
  | cbnz (is64 : Bool) (r : Reg) (t : Target)
  /-- Sign extension of the low `bits` bits. -/
  | sxt (bits : ℕ) (is64 : Bool) (d n : Reg)
  /-- The bytes of every halfword swapped. -/
  | rev16 (is64 : Bool) (d n : Reg)
  /-- The bytes of the word or doubleword reversed. -/
  | rev (is64 : Bool) (d n : Reg)
  /-- Loads and stores of fields of `vm`. -/
  | ldr (is64 : Bool) (t n : Reg) (off : ℕ)
  | ldrb (t n : Reg) (off : ℕ)
  | str (t n : Reg) (off : ℕ)
  /-- The stack pointer down or up by words. -/
  | subSp (words : ℕ)
  | addSp (words : ℕ)
  /-- Two words at an offset from the stack pointer. -/
  | stp (t₁ t₂ : Reg) (off : ℕ)
  | ldp (t₁ t₂ : Reg) (off : ℕ)
  /-- `call_helper` of `helper_mmu` or `helper_mmu_w`. -/
  | callMmu (isWrite : Bool)
  | ldaxr (isDw : Bool) (t n : Reg)
  | stlxr (isDw : Bool) (status t n : Reg)
  deriving DecidableEq, Repr

/-! ## Execution -/

/-- The host registers and flags, the host stack, the `vm` that `x28` points to, and how many
more exclusive stores will fail without reason. -/
structure State where
  reg : Reg → U64
  flags : Option Flags
  stack : List U64
  vm : Machine
  spurious : ℕ

namespace State

def set (s : State) (r : Reg) (x : U64) : State :=
  { s with reg := update s.reg r x }

def withFlags (s : State) (f : Flags) : State := { s with flags := some f }

variable (s : State) (r q : Reg) (x : U64)

@[simp] theorem reg_set_self : (s.set r x).reg r = x := update_self ..

theorem reg_set_of_ne {r q : Reg} (h : q ≠ r) : (s.set r x).reg q = s.reg q :=
  update_of_ne h ..

@[simp] theorem vm_set : (s.set r x).vm = s.vm := rfl

@[simp] theorem flags_withFlags (f : Flags) : (s.withFlags f).flags = some f := rfl

/-- The field of `vm` at a host address. -/
def fieldAt (P : Platform) (s : State) (a : U64) : Option Field :=
  P.layout.field (a - s.reg .x28).toNat

/-- The word at the host address in a register. -/
def word (P : Platform) (s : State) (isDw : Bool) (n : Reg) : U64 :=
  let len := if isDw then 8 else 4
  ofBytes 64 (s.vm.mem.host.load (P.locate (s.reg n)) len)

def setWord (P : Platform) (s : State) (isDw : Bool) (n : Reg) (x : U64) : State :=
  let len := if isDw then 8 else 4
  let host := s.vm.mem.host.store (P.locate (s.reg n)) (LittleEndian.bytes len x.toNat)
  { s with vm := { s.vm with mem := s.vm.mem.setHost host } }

/-- A helper call: `x0`, `x1` and `x2` are its arguments, `x0` its result, and only `x19` and up
are kept. -/
def callMmu (P : Platform) (s : State) (isWrite : Bool) : State :=
  let a := (s.reg .x1).toNat
  let n := (s.reg .x2).toNat
  let r := if isWrite then s.vm.mem.mmuWSlow P.setup.env P.setup.vm a n
    else s.vm.mem.mmuSlow P.setup.vm a n
  { s with
    reg := fun q => match q with
      | .x0 => r.1.elim 0 P.place
      | .x19 | .x20 | .x21 | .x22 | .x23 | .x28 => s.reg q
      | _ => P.junk 0
    flags := none
    vm := { s.vm with mem := r.2 } }

end State

def jumpTo (s : State) : Target → State × Flow Exit
  | .rel d => (s, .jump d)
  | .out e => (s, .exit e)

/-- A chunk of 16 bits in place. -/
def placed (w : ℕ) (imm : BitVec 16) (hw : ℕ) : BitVec w := imm.zeroExtend w <<< (16 * hw)

/-- The bytes of every halfword swapped, at `w` bits. -/
def swapHalves (w : ℕ) (a : BitVec w) : BitVec w :=
  (a >>> 8 &&& BitVec.ofNat w 0x00ff00ff00ff00ff) |||
  (a <<< 8 &&& BitVec.ofNat w 0xff00ff00ff00ff00)

/-- `udiv`: by zero it gives zero. -/
def udivValue (w : ℕ) (a b : BitVec w) : BitVec w :=
  if b = 0 then 0 else BitVec.ofNat w (a.toNat / b.toNat)

/-- `sdiv`: by zero it gives zero, and a quotient that does not fit wraps. -/
def sdivValue (w : ℕ) (a b : BitVec w) : BitVec w :=
  if b = 0 then 0 else BitVec.ofInt w (a.toInt.tdiv b.toInt)

/-- One instruction. -/
def sem (P : Platform) (x : Insn) (s : State) : State × Flow Exit :=
  match x with
  | .movz is64 d imm hw => (s.set d (atWidth is64 (fun w _ _ => placed w imm hw) 0 0), .next)
  | .movn is64 d imm hw => (s.set d (atWidth is64 (fun w _ _ => ~~~placed w imm hw) 0 0), .next)
  | .movk is64 d imm hw =>
    (s.set d (atWidth is64 (fun w a _ => (a &&& ~~~placed w (BitVec.allOnes 16) hw) |||
      placed w imm hw) (s.reg d) 0), .next)
  | .mov is64 d m => (s.set d (atWidth is64 (fun _ a _ => a) (s.reg m) 0), .next)
  | .alu op is64 d n m =>
    (s.set d (atWidth is64 (fun w => op.value w) (s.reg n) (s.reg m)), .next)
  | .addImm is64 d n imm =>
    (s.set d (atWidth is64 (fun _ a b => a + b) (s.reg n) (BitVec.ofNat 64 imm)), .next)
  | .subImm is64 d n imm =>
    (s.set d (atWidth is64 (fun _ a b => a - b) (s.reg n) (BitVec.ofNat 64 imm)), .next)
  | .neg is64 d m => (s.set d (atWidth is64 (fun _ a _ => -a) (s.reg m) 0), .next)
  | .udiv is64 d n m => (s.set d (atWidth is64 udivValue (s.reg n) (s.reg m)), .next)
  | .sdiv is64 d n m => (s.set d (atWidth is64 sdivValue (s.reg n) (s.reg m)), .next)
  | .msub is64 d n m a =>
    (s.set d (atWidth is64 (fun _ a b => a - b) (s.reg a) (s.reg n * s.reg m)), .next)
  | .shiftReg op is64 d n m =>
    let k := (s.reg m).toNat % (if is64 then 64 else 32)
    (s.set d (atWidth is64 (fun w a _ => op.value w k a) (s.reg n) 0), .next)
  | .shiftImm op is64 d n c => (s.set d (atWidth is64 (fun w a _ => op.value w c a) (s.reg n) 0),
    .next)
  | .cmp is64 n m => (s.withFlags (lowAt is64 (fun _ => subFlags) (s.reg n) (s.reg m)), .next)
  | .cmpImm is64 n imm =>
    (s.withFlags (lowAt is64 (fun _ => subFlags) (s.reg n) (BitVec.ofNat 64 imm)), .next)
  | .tst is64 n m =>
    (s.withFlags (lowAt is64 (fun _ a b => logicFlags (a &&& b)) (s.reg n) (s.reg m)), .next)
  | .bcond cond t =>
    match s.flags with
    | some f => if cond.holds f then jumpTo s t else (s, .next)
    | none => (s, .exit .fault)
  | .b t => jumpTo s t
  | .cbnz is64 r t =>
    if lowAt is64 (fun _ a _ => a != 0) (s.reg r) 0 then jumpTo s t else (s, .next)
  | .sxt bits is64 d n =>
    (s.set d (atWidth is64 (fun w a _ => (a.truncate bits).signExtend w) (s.reg n) 0), .next)
  | .rev16 is64 d n => (s.set d (atWidth is64 (fun w a _ => swapHalves w a) (s.reg n) 0), .next)
  | .rev is64 d n => (s.set d (bswap (if is64 then 8 else 4) (s.reg n)), .next)
  | .ldr is64 t n off =>
    match s.fieldAt P (s.reg n + BitVec.ofNat 64 off) with
    | some f => (s.set t (atWidth is64 (fun _ a _ => a) (P.read s.vm f) 0), .next)
    | none => (s, .exit .fault)
  | .ldrb t n off =>
    match s.fieldAt P (s.reg n + BitVec.ofNat 64 off) with
    | some f => (s.set t (((P.read s.vm f).truncate 8).zeroExtend 64), .next)
    | none => (s, .exit .fault)
  | .str t n off =>
    match s.fieldAt P (s.reg n + BitVec.ofNat 64 off) with
    | some f => ({ s with vm := Platform.write s.vm (s.reg t) f }, .next)
    | none => (s, .exit .fault)
  | .subSp words => ({ s with stack := (List.range words).map P.junk ++ s.stack }, .next)
  | .addSp words => ({ s with stack := s.stack.drop words }, .next)
  | .stp t₁ t₂ off =>
    ({ s with stack := (s.stack.set (off / 8) (s.reg t₁)).set (off / 8 + 1) (s.reg t₂) }, .next)
  | .ldp t₁ t₂ off =>
    match s.stack[off / 8]?, s.stack[off / 8 + 1]? with
    | some x, some y => ((s.set t₁ x).set t₂ y, .next)
    | _, _ => (s, .exit .fault)
  | .callMmu isWrite => (s.callMmu P isWrite, .next)
  | .ldaxr isDw t n => (s.set t (s.word P isDw n), .next)
  | .stlxr isDw status t n =>
    match s.spurious with
    | 0 => ((s.setWord P isDw n (s.reg t)).set status 0, .next)
    | k + 1 => (({ s with spurious := k } : State).set status 1, .next)

/-! ## Guest registers in host registers -/

/-- The host registers hold the guest registers. -/
def Mirrors (r : Regs) (s : State) : Prop := ∀ k ≤ 10, s.reg (bpfRegMap k) = r k

/-- The registers that hold no guest register and not the vm. -/
def scratch : List Reg := [.x0, .x1, .x2, .x3, .x15]

/-- Only registers of the list change, and the flags. -/
structure Changes (l : List Reg) (s s' : State) : Prop where
  reg : ∀ q ∉ l, s'.reg q = s.reg q
  stack : s'.stack = s.stack
  vm : s'.vm = s.vm
  spurious : s'.spurious = s.spurious

theorem bpfRegMap_notMem (k : ℕ) : bpfRegMap k ∉ scratch := by
  unfold bpfRegMap
  split <;> decide

theorem bpfRegMap_ne_vm (k : ℕ) : bpfRegMap k ≠ .x28 := by
  unfold bpfRegMap
  split <;> decide

theorem bpfRegMap_inj {j k : ℕ} (hj : j ≤ 10) (hk : k ≤ 10) (h : bpfRegMap j = bpfRegMap k) :
    j = k := by
  have hall : ∀ j k : Fin 11, bpfRegMap j = bpfRegMap k → j = k := by decide
  exact congrArg Fin.val (hall ⟨j, by omega⟩ ⟨k, by omega⟩ h)

section
variable {P : Platform} {r : Regs} {s s' s'' : State} {l l' : List Reg} {k d : ℕ} {q : Reg}
  {x : U64}

namespace Changes

theorem refl (l : List Reg) (s : State) : Changes l s s := ⟨fun _ _ => rfl, rfl, rfl, rfl⟩

theorem trans (h : Changes l s s') (h' : Changes l s' s'') : Changes l s s'' :=
  ⟨fun q hq => (h'.reg q hq).trans (h.reg q hq), h'.stack.trans h.stack, h'.vm.trans h.vm,
    h'.spurious.trans h.spurious⟩

theorem mono (h : Changes l s s') (hl : l ⊆ l') : Changes l' s s' :=
  ⟨fun q hq => h.reg q fun hm => hq (hl hm), h.stack, h.vm, h.spurious⟩

theorem set (hq : q ∈ l) (s : State) (x : U64) : Changes l s (s.set q x) :=
  ⟨fun _ hp => State.reg_set_of_ne s x fun he => hp (he ▸ hq), rfl, rfl, rfl⟩

theorem withFlags (l : List Reg) (s : State) (f : Flags) : Changes l s (s.withFlags f) :=
  ⟨fun _ _ => rfl, rfl, rfl, rfl⟩

end Changes

theorem Mirrors.of_changes (h : Mirrors r s) (hc : Changes scratch s s') : Mirrors r s' :=
  fun k hk => (hc.reg _ (bpfRegMap_notMem k)).trans (h k hk)

theorem Mirrors.write (h : Mirrors r s) (hd : d ≤ 10) (x : U64) :
    Mirrors (update r d x) (s.set (bpfRegMap d) x) := by
  intro k hk
  by_cases he : k = d
  · rw [he, State.reg_set_self, update_self]
  · rw [update_of_ne he, State.reg_set_of_ne s x fun hm => he (bpfRegMap_inj hk hd hm)]
    exact h k hk

end

theorem set_reg_self (s : State) (q : Reg) : s.set q (s.reg q) = s := by
  unfold State.set
  rw [update_eq_self]

theorem set_set (s : State) (q : Reg) (x y : U64) : (s.set q x).set q y = s.set q y := by
  unfold State.set
  rw [update_idem]

/-! ## `load_bpf` and `store_bpf` -/

def loadBpf (bpfReg : ℕ) (dst : Reg) : List Insn :=
  if bpfRegMap bpfReg ≠ dst then [.mov true dst (bpfRegMap bpfReg)] else []

def storeBpf (bpfReg : ℕ) (src : Reg) (is64 : Bool) : List Insn :=
  if !is64 then [.mov false (bpfRegMap bpfReg) src]
  else if bpfRegMap bpfReg ≠ src then [.mov true (bpfRegMap bpfReg) src] else []

theorem computes_loadBpf {P : Platform} (s : State) (k : ℕ) (dst : Reg) :
    Computes (sem P) (loadBpf k dst) s (s.set dst (s.reg (bpfRegMap k))) := by
  unfold loadBpf
  split_ifs with h
  · exact .single rfl
  · rw [not_not.mp h, set_reg_self]
    exact .nil

theorem computes_storeBpf {P : Platform} (s : State) (k : ℕ) (src : Reg) (is64 : Bool) :
    Computes (sem P) (storeBpf k src is64) s
      (s.set (bpfRegMap k) (atWidth is64 (fun _ a _ => a) (s.reg src) 0)) := by
  unfold storeBpf
  cases is64 with
  | false => exact .single rfl
  | true =>
    simp only [Bool.not_true, Bool.false_eq_true, if_false]
    split_ifs with h
    · exact .single rfl
    · rw [not_not.mp h]
      exact (set_reg_self s src).symm ▸ .nil

/-! ## Immediates -/

/-- The chunk of 16 bits at chunk position `i`. -/
def chunk (val : U64) (i : ℕ) : BitVec 16 := (val >>> (16 * i)).truncate 16

/-- A loop of `mov_imm`: the first chunk to write starts the register, the others go into place. -/
def movChunks (is64 : Bool) (dst : Reg) (val : U64) (none : Insn) (first : ℕ → Insn) :
    List ℕ → List Insn
  | [] => [none]
  | i :: l => first i :: l.map fun i => .movk is64 dst (chunk val i) i

/-- `mov_imm`, from zero or from all ones, whichever needs fewer chunks. -/
def movImm (dst : Reg) (val : U64) (is64 : Bool) : List Insn :=
  let nz := (List.range (if is64 then 4 else 2)).filter (chunk val · ≠ 0)
  let nf := (List.range (if is64 then 4 else 2)).filter (chunk val · ≠ 0xffff)
  if nf.length < nz.length then
    movChunks is64 dst val (.movn is64 dst 0 0) (fun i => .movn is64 dst (~~~chunk val i) i) nf
  else movChunks is64 dst val (.movz is64 dst 0 0) (fun i => .movz is64 dst (chunk val i) i) nz

def addImm (d n : Reg) (imm : U64) (is64 : Bool) : List Insn :=
  if 0 ≤ imm.toInt ∧ imm.toInt ≤ 4095 then [.addImm is64 d n imm.toNat]
  else if imm.toInt < 0 ∧ -4095 ≤ imm.toInt then [.subImm is64 d n (-imm).toNat]
  else movImm .x2 imm is64 ++ [.alu .add is64 d n .x2]

def subImm (d n : Reg) (imm : U64) (is64 : Bool) : List Insn :=
  if -4095 ≤ imm.toInt ∧ imm.toInt ≤ 4095 then addImm d n (-imm) is64
  else movImm .x2 imm is64 ++ [.alu .sub is64 d n .x2]

/-- `and_imm`, `orr_imm` and `eor_imm`. -/
def logicImm (op : AluOp) (d n : Reg) (imm : U64) (is64 : Bool) : List Insn :=
  movImm .x2 imm is64 ++ [.alu op is64 d n .x2]

def cmpImm (n : Reg) (imm : U64) (is64 : Bool) : List Insn :=
  if 0 ≤ imm.toInt ∧ imm.toInt ≤ 4095 then [.cmpImm is64 n imm.toNat]
  else movImm .x2 imm is64 ++ [.cmp is64 n .x2]

/-! ### What `mov_imm` does -/

section
variable {w i j : ℕ} {val : U64}

theorem getLsbD_chunk (val : U64) (hj : j / 16 = i) :
    (chunk val i).getLsbD (j - 16 * i) = val.getLsbD j := by
  have hlt : j - 16 * i < 16 := by omega
  have hsum : 16 * i + (j - 16 * i) = j := by omega
  simp [chunk, hlt, hsum]

theorem getLsbD_placed {imm : BitVec 16} (hj : j < w) :
    (placed w imm i).getLsbD j = (decide (j / 16 = i) && imm.getLsbD (j - 16 * i)) := by
  have hpos : (decide (j / 16 = i) && imm.getLsbD (j - 16 * i)) =
      (!decide (j < 16 * i) && imm.getLsbD (j - 16 * i)) := by
    by_cases hi : j / 16 = i
    · have hge : ¬j < 16 * i := by omega
      simp [hi, hge]
    · by_cases hge : j < 16 * i
      · simp [hi, hge]
      · rw [BitVec.getLsbD_of_ge imm _ (by omega)]
        simp
  have hlt : j - 16 * i < w := by omega
  rw [hpos, placed, BitVec.getLsbD_shiftLeft]
  simp [hj, hlt]

theorem getLsbD_movk {a : BitVec w} (hj : j < w) :
    ((a &&& ~~~placed w (BitVec.allOnes 16) i) ||| placed w (chunk val i) i).getLsbD j =
      if j / 16 = i then val.getLsbD j else a.getLsbD j := by
  rw [BitVec.getLsbD_or, BitVec.getLsbD_and, BitVec.getLsbD_not, getLsbD_placed hj,
    getLsbD_placed hj]
  split_ifs with hi
  · have hone : (BitVec.allOnes 16).getLsbD (j - 16 * i) = true := by
      rw [BitVec.getLsbD_allOnes]
      exact decide_eq_true (by omega)
    rw [hone, getLsbD_chunk val hi]
    simp [hi]
  · simp [hi, hj]

theorem getLsbD_movz (hj : j < w) : (placed w (chunk val i) i).getLsbD j =
    if j / 16 = i then val.getLsbD j else false := by
  rw [getLsbD_placed hj]
  split_ifs with hi
  · simp [hi, getLsbD_chunk val hi]
  · simp [hi]

theorem getLsbD_movn (hj : j < w) : (~~~placed w (~~~chunk val i) i).getLsbD j =
    if j / 16 = i then val.getLsbD j else true := by
  rw [BitVec.getLsbD_not, getLsbD_placed hj]
  split_ifs with hi
  · have hlt : j - 16 * i < 16 := by omega
    rw [BitVec.getLsbD_not, getLsbD_chunk val hi]
    simp [hi, hj, hlt]
  · simp [hi, hj]

/-- The bits of a result at either width. -/
theorem getLsbD_atWidth {is64 : Bool} {f : (w : ℕ) → BitVec w → BitVec w → BitVec w}
    {a b : U64} {g : Bool} (h : lowAt is64 (fun w a b => j < w → (f w a b).getLsbD j = g) a b) :
    (atWidth is64 f a b).getLsbD j = (decide (j < if is64 then 64 else 32) && g) := by
  cases is64 with
  | true =>
    change (f 64 a b).getLsbD j = (decide (j < 64) && g)
    by_cases hj : j < 64
    · rw [h hj, decide_eq_true hj, Bool.true_and]
    · rw [BitVec.getLsbD_of_ge _ _ (by omega), decide_eq_false hj, Bool.false_and]
  | false =>
    change ((f 32 (a.truncate 32) (b.truncate 32)).setWidth 64).getLsbD j = (decide (j < 32) && g)
    rw [BitVec.getLsbD_setWidth]
    by_cases hj : j < 32
    · rw [h hj, decide_eq_true hj, decide_eq_true (by omega : j < 64)]
    · rw [BitVec.getLsbD_of_ge _ _ (by omega), decide_eq_false hj, Bool.and_false, Bool.false_and]

end

/-- The chunks of the list are in place; the others have the filling. -/
def Filled (is64 : Bool) (val : U64) (fill : Bool) (l : List ℕ) (x : U64) : Prop :=
  ∀ j, x.getLsbD j = (decide (j < if is64 then 64 else 32) &&
    if j / 16 ∈ l then val.getLsbD j else fill)

section
variable {P : Platform} {dst : Reg} {val x : U64} {is64 fill : Bool} {l : List ℕ} {i : ℕ}

theorem Filled.of_mem {l' : List ℕ} (h : Filled is64 val fill l x) (hl : ∀ k, k ∈ l ↔ k ∈ l') :
    Filled is64 val fill l' x := by
  intro j
  rw [h j]
  simp only [hl]

theorem Filled.movk (h : Filled is64 val fill l x) : Filled is64 val fill (i :: l)
    (atWidth is64 (fun w a _ => (a &&& ~~~placed w (BitVec.allOnes 16) i) |||
      placed w (chunk val i) i) x 0) := by
  intro j
  have hlow : lowAt is64 (fun w a _ => j < w → a.getLsbD j =
      if j / 16 ∈ l then val.getLsbD j else fill) x 0 := by
    have hx := h j
    cases is64 with
    | true =>
      intro hj
      simpa [hj] using hx
    | false =>
      intro hj
      simpa [hj] using hx
  refine getLsbD_atWidth (lowAt_imp (fun w _ a b ha hj => ?_) hlow)
  rw [getLsbD_movk hj, ha hj]
  by_cases hi : j / 16 = i <;> simp [hi]

theorem computes_movks (l' : List ℕ) (s : State) (h : Filled is64 val fill l (s.reg dst)) :
    ∃ x, Computes (sem P) (l'.map fun i => .movk is64 dst (chunk val i) i) s (s.set dst x) ∧
      Filled is64 val fill (l' ++ l) x := by
  induction l' generalizing s l with
  | nil => exact ⟨s.reg dst, by rw [set_reg_self]; exact .nil, h⟩
  | cons i l' ih =>
    obtain ⟨x, hcomp, hx⟩ := ih (s.set dst _) (l := i :: l) (by
      rw [State.reg_set_self]
      exact h.movk)
    rw [set_set] at hcomp
    exact ⟨x, .cons rfl hcomp, hx.of_mem fun k => by simp [or_left_comm]⟩

theorem filled_movz (i : ℕ) : Filled is64 val false [i]
    (atWidth is64 (fun w _ _ => placed w (chunk val i) i) 0 0) := by
  intro j
  refine getLsbD_atWidth (lowAt_of fun w _ _ _ hj => ?_)
  simp only [getLsbD_movz hj, List.mem_singleton]

theorem filled_movn (i : ℕ) : Filled is64 val true [i]
    (atWidth is64 (fun w _ _ => ~~~placed w (~~~chunk val i) i) 0 0) := by
  intro j
  refine getLsbD_atWidth (lowAt_of fun w _ _ _ hj => ?_)
  simp only [getLsbD_movn hj, List.mem_singleton]

theorem filled_zero : Filled is64 val false [] (atWidth is64 (fun w _ _ => placed w 0 0) 0 0) := by
  intro j
  refine getLsbD_atWidth (lowAt_of fun w _ _ _ hj => ?_)
  rw [getLsbD_placed hj]
  simp

theorem filled_ones :
    Filled is64 val true [] (atWidth is64 (fun w _ _ => ~~~placed w 0 0) 0 0) := by
  intro j
  refine getLsbD_atWidth (lowAt_of fun w _ _ _ hj => ?_)
  rw [BitVec.getLsbD_not, getLsbD_placed hj]
  simp [hj]

/-- Every chunk is in place or was the filling. -/
theorem Filled.eq (h : Filled is64 val fill l x)
    (hl : ∀ i < (if is64 then 4 else 2), i ∉ l →
      chunk val i = if fill then BitVec.allOnes 16 else 0) :
    x = atWidth is64 (fun _ a _ => a) val 0 := by
  refine BitVec.eq_of_getLsbD_eq fun j _ => ?_
  have hval : lowAt is64 (fun w a _ => j < w → a.getLsbD j = val.getLsbD j) val 0 := by
    cases is64 with
    | true => exact fun _ => rfl
    | false =>
      intro hj
      simp [hj]
  rw [h j, getLsbD_atWidth hval]
  by_cases hj : j < if is64 then 64 else 32
  · congr 1
    split_ifs with hmem
    · rfl
    · have hlt : j / 16 < if is64 then 4 else 2 := by
        split_ifs at hj ⊢ <;> omega
      have hk : j - 16 * (j / 16) < 16 := by omega
      rw [← getLsbD_chunk val rfl, hl _ hlt hmem]
      cases fill
      · exact BitVec.getLsbD_zero.symm
      · exact ((BitVec.getLsbD_allOnes ..).trans (decide_eq_true hk)).symm
  · rw [decide_eq_false hj, Bool.false_and, Bool.false_and]

/-- What a filter leaves out does not have its property. -/
theorem chunk_of_notMem {c : BitVec 16} {k : ℕ} (hi : i < k)
    (h : i ∉ (List.range k).filter (chunk val · ≠ c)) : chunk val i = c := by
  by_contra hne
  exact h (List.mem_filter.mpr ⟨List.mem_range.mpr hi, decide_eq_true hne⟩)

theorem computes_movChunks {s : State} (none : Insn) (first : ℕ → Insn) (l : List ℕ)
    (hnone : ∃ x, sem P none s = (s.set dst x, .next) ∧ Filled is64 val fill [] x)
    (hfirst : ∀ i, ∃ x, sem P (first i) s = (s.set dst x, .next) ∧ Filled is64 val fill [i] x) :
    ∃ x, Computes (sem P) (movChunks is64 dst val none first l) s (s.set dst x) ∧
      Filled is64 val fill l x := by
  cases l with
  | nil =>
    obtain ⟨x, hs, hx⟩ := hnone
    exact ⟨x, .single hs, hx⟩
  | cons i l =>
    obtain ⟨x, hs, hx⟩ := hfirst i
    rw [← State.reg_set_self s dst x] at hx
    obtain ⟨y, hcomp, hy⟩ := computes_movks (P := P) l (s.set dst x) hx
    rw [set_set] at hcomp
    exact ⟨y, .cons hs hcomp, hy.of_mem fun k => by simp [or_comm]⟩

/-- `mov_imm` at 32 bits clears the upper half. -/
theorem computes_movImm (s : State) (dst : Reg) (val : U64) (is64 : Bool) :
    Computes (sem P) (movImm dst val is64) s
      (s.set dst (atWidth is64 (fun _ a _ => a) val 0)) := by
  unfold movImm
  dsimp only
  by_cases hlen : ((List.range (if is64 then 4 else 2)).filter (chunk val · ≠ 0xffff)).length <
      ((List.range (if is64 then 4 else 2)).filter (chunk val · ≠ 0)).length
  · rw [if_pos hlen]
    obtain ⟨x, hcomp, hx⟩ := computes_movChunks (P := P) (s := s) (.movn is64 dst 0 0)
      (fun i => .movn is64 dst (~~~chunk val i) i)
      ((List.range (if is64 then 4 else 2)).filter (chunk val · ≠ 0xffff))
      ⟨_, rfl, filled_ones⟩ fun i => ⟨_, rfl, filled_movn i⟩
    rwa [hx.eq fun i hi => chunk_of_notMem hi] at hcomp
  · rw [if_neg hlen]
    obtain ⟨x, hcomp, hx⟩ := computes_movChunks (P := P) (s := s) (.movz is64 dst 0 0)
      (fun i => .movz is64 dst (chunk val i) i)
      ((List.range (if is64 then 4 else 2)).filter (chunk val · ≠ 0))
      ⟨_, rfl, filled_zero⟩ fun i => ⟨_, rfl, filled_movz i⟩
    rwa [hx.eq fun i hi => chunk_of_notMem hi] at hcomp

/-- An operand of 32 bits may be zero-extended. -/
theorem atWidth_low_right {f : (w : ℕ) → BitVec w → BitVec w → BitVec w} {a b c : U64} :
    atWidth is64 f a (atWidth is64 (fun _ a _ => a) b c) = atWidth is64 f a b := by
  cases is64 <;> simp [atWidth]

theorem truncate_neg (x : U64) : (-x).truncate 32 = -x.truncate 32 := by
  apply eq_neg_of_add_eq_zero_left
  exact (BitVec.setWidth_add (-x) x (by decide)).symm.trans (by rw [neg_add_cancel]; rfl)

theorem atWidth_sub_neg (a b : U64) :
    atWidth is64 (fun _ a b => a - b) a (-b) = atWidth is64 (fun _ a b => a + b) a b := by
  cases is64 with
  | true => exact sub_neg_eq_add a b
  | false =>
    have h : a.truncate 32 - (-b).truncate 32 = a.truncate 32 + b.truncate 32 := by
      rw [truncate_neg, sub_neg_eq_add]
    exact congrArg (BitVec.zeroExtend 64) h

/-- An operation on `n` and an immediate in `x2`. -/
theorem computes_withImm (s : State) (op : AluOp) (d : Reg) {n : Reg} (hn : n ≠ .x2)
    (imm : U64) (is64 : Bool) : ∃ s', Computes (sem P)
      (movImm .x2 imm is64 ++ [.alu op is64 d n .x2]) s s' ∧
      s'.reg d = atWidth is64 (fun w => op.value w) (s.reg n) imm ∧ Changes [d, .x2] s s' := by
  refine ⟨_, (computes_movImm s .x2 imm is64).append (.single rfl), ?_,
    .trans (.set (by simp) s _) (.set (by simp) _ _)⟩
  rw [State.reg_set_self, State.reg_set_self, State.reg_set_of_ne _ _ hn, atWidth_low_right]

theorem computes_addImm (s : State) (d : Reg) {n : Reg} (hn : n ≠ .x2) (imm : U64)
    (is64 : Bool) : ∃ s', Computes (sem P) (addImm d n imm is64) s s' ∧
      s'.reg d = atWidth is64 (fun _ a b => a + b) (s.reg n) imm ∧ Changes [d, .x2] s s' := by
  unfold addImm
  split_ifs
  · refine ⟨_, .single rfl, ?_, .set (by simp) s _⟩
    rw [State.reg_set_self, BitVec.ofNat_toNat, BitVec.setWidth_eq]
  · refine ⟨_, .single rfl, ?_, .set (by simp) s _⟩
    rw [State.reg_set_self, BitVec.ofNat_toNat, BitVec.setWidth_eq, atWidth_sub_neg]
  · exact computes_withImm s .add d hn imm is64

theorem computes_subImm (s : State) (d : Reg) {n : Reg} (hn : n ≠ .x2) (imm : U64)
    (is64 : Bool) : ∃ s', Computes (sem P) (subImm d n imm is64) s s' ∧
      s'.reg d = atWidth is64 (fun _ a b => a - b) (s.reg n) imm ∧ Changes [d, .x2] s s' := by
  unfold subImm
  split_ifs
  · have h := computes_addImm (P := P) s d hn (-imm) is64
    rwa [← atWidth_sub_neg, neg_neg] at h
  · exact computes_withImm s .sub d hn imm is64

end

end Bpfvm.Jit.AArch64
