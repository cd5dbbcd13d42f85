import Bpfvm.Cpu.Interp
import Bpfvm.Cpu.Isa

/-!
# Instructions on registers

The arithmetic instructions and the jumps of the interpreter do what the instruction set
prescribes, at both widths.
-/
namespace Bpfvm.Cpu
open Memory Isa BitVec Machine

/-! ## Operations on values -/

theorem ofInt_tdiv {w : ℕ} (x y : BitVec w) :
    BitVec.ofInt w (x.toInt.tdiv y.toInt) = x.sdiv y := by
  apply eq_of_toInt_eq
  rw [toInt_ofInt, toInt_sdiv]

theorem ofInt_tmod {w : ℕ} (x y : BitVec w) :
    BitVec.ofInt w (x.toInt.tmod y.toInt) = x.srem y := by
  rw [← toInt_srem, ofInt_toInt]

theorem ofInt_neg_toInt {w : ℕ} (x : BitVec w) : BitVec.ofInt w (-x.toInt) = -x := by
  apply eq_of_toInt_eq
  rw [toInt_ofInt, toInt_neg]

theorem toInt_eq_neg_one_iff {w : ℕ} (hw : 0 < w) (x : BitVec w) : x.toInt = -1 ↔ x = -1 := by
  have hone : (-1 : BitVec w) = BitVec.allOnes w := neg_one_eq_allOnes
  rw [hone, ← toInt_inj, toInt_allOnes, if_pos hw]

theorem toInt_eq_intMin_iff {w : ℕ} (hw : 0 < w) (x : BitVec w) :
    x.toInt = -2 ^ (w - 1) ↔ x = BitVec.intMin w := by
  rw [← toInt_inj, toInt_intMin_of_pos hw]

theorem toNat_and_63 (y : U64) : (y &&& 0x3f).toNat = y.toNat % 64 := by
  rw [toNat_and]
  exact Nat.and_two_pow_sub_one_eq_mod y.toNat 6

theorem toNat_and_31 (y : U32) : (y &&& 0x1f).toNat = y.toNat % 32 := by
  rw [toNat_and]
  exact Nat.and_two_pow_sub_one_eq_mod y.toNat 5

theorem ofNat_div {w : ℕ} (x y : BitVec w) : BitVec.ofNat w (x.toNat / y.toNat) = x / y := by
  apply eq_of_toNat_eq
  rw [toNat_ofNat, toNat_udiv]
  exact Nat.mod_eq_of_lt ((Nat.div_le_self _ _).trans_lt x.isLt)

theorem ofNat_mod {w : ℕ} (x y : BitVec w) : BitVec.ofNat w (x.toNat % y.toNat) = x % y := by
  apply eq_of_toNat_eq
  rw [toNat_ofNat, toNat_umod]
  exact Nat.mod_eq_of_lt ((Nat.mod_le _ _).trans_lt x.isLt)

theorem aluValue_eval {w : ℕ} (hw : 0 < w) {mask : BitVec w}
    (hmask : ∀ y : BitVec w, (y &&& mask).toNat = y.toNat % w) (moves : List (BitVec 16))
    (op : AluOp) (x y : BitVec w) :
    aluValue mask moves op.code.toNat op.off x y = op.eval x y := by
  have hmin := toInt_eq_intMin_iff hw x
  have hone := toInt_eq_neg_one_iff hw y
  have hofmin : BitVec.ofInt w (-2 ^ (w - 1)) = BitVec.intMin w := by
    rw [← toInt_intMin_of_pos hw, ofInt_toInt]
  cases op with
  | div =>
    show (if y ≠ 0 then _ else _) = if y = 0 then _ else _
    rw [ofNat_div, ite_not]
  | sdiv =>
    show (if y = 0 then 0 else if y.toInt = -1 ∧ x.toInt = -2 ^ (w - 1) then
      BitVec.ofInt w (-2 ^ (w - 1)) else _) = _
    rw [ofInt_tdiv, hofmin]
    simp only [AluOp.eval, hmin, hone]
  | mod =>
    show (if y ≠ 0 then _ else _) = if y = 0 then _ else _
    rw [ofNat_mod, ite_not]
  | smod =>
    show (if y = 0 then x else if y.toInt = -1 ∧ x.toInt = -2 ^ (w - 1) then 0 else _) = _
    rw [ofInt_tmod]
    simp only [AluOp.eval, hmin, hone]
  | lsh => exact congrArg (x <<< ·) (hmask y)
  | rsh => exact congrArg (x >>> ·) (hmask y)
  | arsh => exact congrArg (fun k : ℕ => BitVec.ofInt w (x.toInt >>> k)) (hmask y)
  | _ => rfl

theorem bne_eq_decide {α : Type*} [DecidableEq α] (x y : α) : (x != y) = decide (x ≠ y) := by
  by_cases h : x = y <;> simp [h]

/-- The jumps of the interpreter are the conditions of the instruction set, at both widths. -/
theorem taken_eval {w : ℕ} (cond : Cond) (x y : BitVec w) :
    taken cond.code.toNat x y = some (decide (cond.eval x y)) := by
  cases cond with
  | eq => exact congrArg some (Bool.beq_eq_decide_eq x y)
  | set => exact congrArg some (bne_eq_decide (x &&& y) 0)
  | ne => exact congrArg some (bne_eq_decide x y)
  | _ => rfl

/-! ## What a step leaves alone -/

/-- What the program of vm `c.vm` sees of the machine. -/
def Machine.arch (c : Setup) (m : Machine) : Arch := ⟨m.reg, m.pc, m.mem.view c.vm⟩

/-- The outcome `r` of executing an instruction from `m`, before `run` adds 8 to `pc_`, is
the state `o` of the instruction set; nothing else of the machine changes. -/
structure Conforms (c : Setup) (m : Machine) (r : Bool × Machine) (o : Option Arch) : Prop where
  ok : r.1 = true
  arch : o = some (({ r.2 with pc := r.2.pc + 8 } : Machine).arch c)
  sound : Sound r.2.mem c.vm
  flags : r.2.flags = m.flags
  signalDepth : r.2.signalDepth = m.signalDepth
  restartPc : r.2.restartPc = m.restartPc
  sigmask : r.2.sigmask = m.sigmask

variable {c : Setup} {w : World} {m : Machine}

/-- An instruction that only sets a register. -/
theorem conforms_setReg (hs : Sound m.mem c.vm) (k : ℕ) (x : U64) :
    Conforms c m (true, m.setReg k x) (some (((m.arch c).setReg k x).next 1)) :=
  ⟨rfl, rfl, hs, rfl, rfl, rfl, rfl⟩

theorem conforms_jump (hs : Sound m.mem c.vm) {n : ℕ} (off : BitVec n) :
    Conforms c m (true, m.jumpBy off) (some ((m.arch c).jump off)) := by
  refine ⟨rfl, ?_, hs, rfl, rfl, rfl, rfl⟩
  have hpc : m.pc + 8 + off.signExtend 64 * 8 = m.pc + off.signExtend 64 * 8 + 8 := by
    rw [add_assoc, add_comm 8, ← add_assoc]
  simp only [arch, Arch.jump, jumpBy, hpc]

theorem conforms_next (hs : Sound m.mem c.vm) :
    Conforms c m (true, m) (some ((m.arch c).next 1)) :=
  ⟨rfl, rfl, hs, rfl, rfl, rfl, rfl⟩

/-! ## Fields of the encoding -/

theorem regField_toNat {n : ℕ} (hn : n ≤ 16) (k : Fin n) : (regField k).toNat = k := by
  rw [regField, toNat_ofNat]
  exact Nat.mod_eq_of_lt (k.isLt.trans_le hn)

theorem regField_dst (k : Fin 10) : (regField k).toNat = k := regField_toNat (by decide) k

theorem regField_src (k : Fin 11) : (regField k).toNat = k := regField_toNat (by decide) k

def Isa.Operand.isReg : Operand → Bool
  | .reg _ => true
  | .imm _ => false

theorem operand64 (r : ℕ → U64) (src : Operand) :
    (if src.isReg then r src.srcReg.toNat else src.immField.signExtend 64) =
      src.value 64 r := by
  cases src with
  | reg k =>
    simp only [Operand.isReg, if_true, Operand.value, truncate_eq_setWidth,
      setWidth_eq]
    exact congrArg r (regField_src k)
  | imm i => rfl

theorem operand32 (r : ℕ → U64) (src : Operand) :
    (if src.isReg then (r src.srcReg.toNat).truncate 32 else src.immField) =
      src.value 32 r := by
  cases src with
  | reg k => exact congrArg (fun j => (r j).truncate 32) (regField_src k)
  | imm i => exact (signExtend_eq i).symm

section Classes
variable (c w m) (p : HostPtr) {cur : BpfInsn}

theorem execute_ld (h : cur.code &&& 0x07 = 0x00) : m.execute c w cur p = m.ld c cur p := by
  rw [execute, h]
  rfl

theorem execute_ldx (h : cur.code &&& 0x07 = 0x01) : m.execute c w cur p = m.ldx c cur := by
  rw [execute, h]
  rfl

theorem execute_st (h : cur.code &&& 0x07 = 0x02) : m.execute c w cur p = m.st c cur := by
  rw [execute, h]
  rfl

theorem execute_stx (h : cur.code &&& 0x07 = 0x03) : m.execute c w cur p = m.stx c cur := by
  rw [execute, h]
  rfl

theorem execute_alu (h : cur.code &&& 0x07 = 0x04) :
    m.execute c w cur p = m.withRegs (alu cur m.reg) := by
  rw [execute, h]
  rfl

theorem execute_jmp (h : cur.code &&& 0x07 = 0x05) : m.execute c w cur p = m.jmp c w cur := by
  rw [execute, h]
  rfl

theorem execute_jmp32 (h : cur.code &&& 0x07 = 0x06) : m.execute c w cur p = m.jmp32 cur := by
  rw [execute, h]
  rfl

theorem execute_alu64 (h : cur.code &&& 0x07 = 0x07) :
    m.execute c w cur p = m.withRegs (alu64 cur m.reg) := by
  rw [execute, h]
  rfl

end Classes

/-! ## Arithmetic instructions -/

theorem alu_code (w : Width) (op : AluOp) (src : Operand) :
    (w.aluClass ||| op.code ||| src.code) &&& 0x07 = w.aluClass ∧
    (w.aluClass ||| op.code ||| src.code) &&& 0xf0 = op.code ∧
    ((w.aluClass ||| op.code ||| src.code) &&& 0x08 == 0x08) = src.isReg := by
  cases src <;> cases w <;> cases op <;>
    simp [Width.aluClass, AluOp.code, Operand.code, Operand.isReg]

theorem aluOp_code_ne_end (op : AluOp) : op.code ≠ 0xd0 := by
  cases op <;> decide

/-- `vm::alu64` on an operation other than the byte swap. -/
theorem alu64_of_code {cur : BpfInsn} {o : BitVec 8} (dst : Fin 10) (r : Regs)
    (hdst : cur.dstReg = regField dst) (hop : cur.code &&& 0xf0 = o) (hne : o ≠ 0xd0) :
    alu64 cur r = some (Function.update r dst (aluValue 0x3f [8, 16, 32] o.toNat cur.off (r dst)
      (if cur.useReg then r cur.srcReg.toNat else cur.imm.signExtend 64))) := by
  simp only [alu64, hdst, regField_dst, if_neg (Nat.not_le.mpr dst.isLt), hop, if_neg hne]

/-- `vm::alu` on an operation other than the byte orders. -/
theorem alu_of_code {cur : BpfInsn} {o : BitVec 8} (dst : Fin 10) (r : Regs)
    (hdst : cur.dstReg = regField dst) (hop : cur.code &&& 0xf0 = o) (hne : o ≠ 0xd0) :
    alu cur r = some (Function.update r dst ((aluValue 0x1f [8, 16] o.toNat cur.off
      ((r dst).truncate 32)
      (if cur.useReg then (r cur.srcReg.toNat).truncate 32 else cur.imm)).zeroExtend 64)) := by
  simp only [alu, hdst, regField_dst, if_neg (Nat.not_le.mpr dst.isLt), hop, if_neg hne]

/-- An instruction that sets a register from registers alone. -/
theorem conforms_withRegs (hs : Sound m.mem c.vm) {o : Option Regs} {k : ℕ} {x : U64}
    (h : o = some (Function.update m.reg k x)) {s : Option Arch}
    (hexec : s = some (((m.arch c).setReg k x).next 1)) : Conforms c m (m.withRegs o) s := by
  subst h hexec
  exact conforms_setReg hs k x

theorem conforms_alu (hs : Sound m.mem c.vm) (wd : Width) (op : AluOp) (dst : Fin 10)
    (src : Operand) (p : HostPtr) :
    Conforms c m (m.execute c w ⟨wd.aluClass ||| op.code ||| src.code, regField dst, src.srcReg,
      op.off, src.immField⟩ p) ((Insn.alu wd op dst src).exec (m.arch c)) := by
  obtain ⟨hclass, hop, hsrc⟩ := alu_code wd op src
  cases wd with
  | w32 =>
    rw [execute_alu c w m p hclass, alu_of_code dst m.reg rfl hop (aluOp_code_ne_end op)]
    refine conforms_withRegs hs rfl ?_
    simp only [BpfInsn.useReg, hsrc, operand32, aluValue_eval (by decide) toNat_and_31]
    rfl
  | w64 =>
    rw [execute_alu64 c w m p hclass, alu64_of_code dst m.reg rfl hop (aluOp_code_ne_end op)]
    refine conforms_withRegs hs rfl ?_
    simp only [BpfInsn.useReg, hsrc, operand64, aluValue_eval (by decide) toNat_and_63,
      Insn.exec, Width.bits, arch, truncate_eq_setWidth, setWidth_eq]

theorem conforms_neg (hs : Sound m.mem c.vm) (wd : Width) (dst : Fin 10) (p : HostPtr) :
    Conforms c m (m.execute c w ⟨wd.aluClass ||| 0x80, regField dst, 0, 0, 0⟩ p)
      ((Insn.neg wd dst).exec (m.arch c)) := by
  cases wd with
  | w32 =>
    rw [execute_alu c w m p (by simp [Width.aluClass]),
      alu_of_code (o := 0x80) dst m.reg rfl (by simp [Width.aluClass]) (by decide)]
    refine conforms_withRegs hs rfl ?_
    exact congrArg (fun x : U32 => some (((m.arch c).setReg dst (x.zeroExtend 64)).next 1))
      (ofInt_neg_toInt _).symm
  | w64 =>
    rw [execute_alu64 c w m p (by simp [Width.aluClass]),
      alu64_of_code (o := 0x80) dst m.reg rfl (by simp [Width.aluClass]) (by decide)]
    refine conforms_withRegs hs rfl ?_
    have hexec : (Insn.neg .w64 dst).exec (m.arch c) =
        some (((m.arch c).setReg dst (-m.reg dst)).next 1) := by
      simp only [Insn.exec, Width.bits, arch, truncate_eq_setWidth,
        setWidth_eq]
      rfl
    rw [hexec]
    exact congrArg (fun x => some (((m.arch c).setReg dst x).next 1)) (ofInt_neg_toInt _).symm

theorem aluValue_movsx {b : ℕ} {mask : BitVec b} {moves : List (BitVec 16)} (sz : Size)
    (hsz : BitVec.ofNat 16 (8 * sz.bytes) ∈ moves) (dst src : BitVec b) :
    aluValue mask moves (0xb0 : BitVec 8).toNat (BitVec.ofNat 16 (8 * sz.bytes)) dst src =
      (src.truncate (8 * sz.bytes)).signExtend b := by
  have hpos : BitVec.ofNat 16 (8 * sz.bytes) ≠ 0 := by cases sz <;> decide
  have hnat : (BitVec.ofNat 16 (8 * sz.bytes)).toNat = 8 * sz.bytes := by cases sz <;> rfl
  calc aluValue mask moves (0xb0 : BitVec 8).toNat (BitVec.ofNat 16 (8 * sz.bytes)) dst src
    _ = (src.truncate (BitVec.ofNat 16 (8 * sz.bytes)).toNat).signExtend b :=
      (if_neg hpos).trans (if_pos hsz)
    _ = (src.truncate (8 * sz.bytes)).signExtend b := by rw [hnat]

theorem conforms_movsx (hs : Sound m.mem c.vm) (wd : Width) (sz : MoveSize wd) (dst : Fin 10)
    (src : Fin 11) (p : HostPtr) :
    Conforms c m (m.execute c w ⟨wd.aluClass ||| 0xb8, regField dst, regField src,
      BitVec.ofNat 16 (8 * sz.1.bytes), 0⟩ p) ((Insn.movsx wd sz dst src).exec (m.arch c)) := by
  obtain ⟨sz, hsz⟩ := sz
  cases wd with
  | w32 =>
    rw [execute_alu c w m p (by simp [Width.aluClass]),
      alu_of_code (o := 0xb0) dst m.reg rfl (by simp [Width.aluClass]) (by decide)]
    refine conforms_withRegs hs rfl ?_
    have hmem : BitVec.ofNat 16 (8 * sz.bytes) ∈ ([8, 16] : List (BitVec 16)) := by
      revert hsz
      cases sz <;> decide
    have hle : 8 * sz.bytes ≤ 32 := by
      revert hsz
      cases sz <;> decide
    have hreg : (if (⟨Width.w32.aluClass ||| 0xb8, regField dst, regField src,
        BitVec.ofNat 16 (8 * sz.bytes), 0⟩ : BpfInsn).useReg then (m.reg src).truncate 32
        else 0) = (m.reg src).truncate 32 := by
      simp [BpfInsn.useReg, Width.aluClass]
    simp only [regField_src, hreg, aluValue_movsx sz hmem]
    simp only [Insn.exec, Width.bits, arch, truncate_eq_setWidth,
      setWidth_setWidth_of_le _ hle]
  | w64 =>
    rw [execute_alu64 c w m p (by simp [Width.aluClass]),
      alu64_of_code (o := 0xb0) dst m.reg rfl (by simp [Width.aluClass]) (by decide)]
    refine conforms_withRegs hs rfl ?_
    have hmem : BitVec.ofNat 16 (8 * sz.bytes) ∈ ([8, 16, 32] : List (BitVec 16)) := by
      revert hsz
      cases sz <;> decide
    have hreg : (if (⟨Width.w64.aluClass ||| 0xb8, regField dst, regField src,
        BitVec.ofNat 16 (8 * sz.bytes), 0⟩ : BpfInsn).useReg then m.reg src
        else (0 : U32).signExtend 64) = m.reg src := by
      simp [BpfInsn.useReg, Width.aluClass]
    simp only [regField_src, hreg, aluValue_movsx sz hmem]
    simp only [Insn.exec, Width.bits, arch, truncate_eq_setWidth,
      setWidth_eq]

theorem swapValue_size (sz : SwapSize) (x : U64) :
    swapValue (BitVec.ofNat 32 (8 * sz.1.bytes)) x = some (reverseBytes sz.1.bytes x) := by
  obtain ⟨sz, hsz⟩ := sz
  cases sz with
  | b => exact absurd rfl hsz
  | h => rfl
  | w => rfl
  | dw => rfl

theorem endValue_size (sz : SwapSize) (x : U64) :
    endValue false (BitVec.ofNat 32 (8 * sz.1.bytes)) x =
      some ((x.truncate (8 * sz.1.bytes)).zeroExtend 64) := by
  obtain ⟨sz, hsz⟩ := sz
  cases sz with
  | b => exact absurd rfl hsz
  | h => rfl
  | w => rfl
  | dw => exact congrArg some (by simp [Size.bytes])

theorem conforms_bytes (hs : Sound m.mem c.vm) (o : Order) (sz : SwapSize) (dst : Fin 10)
    (p : HostPtr) :
    Conforms c m (m.execute c w ⟨match o with | .le => 0xd4 | .be => 0xdc | .swap => 0xd7,
      regField dst, 0, 0, BitVec.ofNat 32 (8 * sz.1.bytes)⟩ p)
      ((Insn.bytes o sz dst).exec (m.arch c)) := by
  cases o with
  | le =>
    rw [execute_alu c w m p (by simp)]
    refine conforms_withRegs (x := (Order.le).eval sz.1.bytes (m.reg dst)) hs ?_ rfl
    simp only [alu, regField_dst, if_neg (Nat.not_le.mpr dst.isLt)]
    simp [BpfInsn.useReg, endValue_size, Order.eval]
  | be =>
    rw [execute_alu c w m p (by simp)]
    refine conforms_withRegs (x := (Order.be).eval sz.1.bytes (m.reg dst)) hs ?_ rfl
    simp only [alu, regField_dst, if_neg (Nat.not_le.mpr dst.isLt)]
    simp [BpfInsn.useReg, endValue, swapValue_size, Order.eval]
  | swap =>
    rw [execute_alu64 c w m p (by simp)]
    refine conforms_withRegs (x := (Order.swap).eval sz.1.bytes (m.reg dst)) hs ?_ rfl
    simp only [alu64, regField_dst, if_neg (Nat.not_le.mpr dst.isLt)]
    simp [swapValue_size, Order.eval]

/-! ## Jumps -/

theorem jmp_code (w : Width) (cond : Cond) (src : Operand) :
    (w.jmpClass ||| cond.code ||| src.code) &&& 0x07 = w.jmpClass ∧
    (w.jmpClass ||| cond.code ||| src.code) &&& 0xf0 = cond.code ∧
    ((w.jmpClass ||| cond.code ||| src.code) &&& 0x08 == 0x08) = src.isReg := by
  cases src <;> cases w <;> cases cond <;>
    simp [Width.jmpClass, Cond.code, Operand.code, Operand.isReg]

theorem jmp_of_cond {cur : BpfInsn} {cond : Cond} (h : cur.code &&& 0xf0 = cond.code) :
    m.jmp c w cur = (true, if cond.eval (m.reg cur.dstReg.toNat)
      (if cur.useReg then m.reg cur.srcReg.toNat else cur.imm.signExtend 64)
      then m.jumpBy cur.off else m) := by
  calc m.jmp c w cur
    _ = (true, if taken cond.code.toNat (m.reg cur.dstReg.toNat)
        (if cur.useReg then m.reg cur.srcReg.toNat else cur.imm.signExtend 64) = some true
        then m.jumpBy cur.off else m) := by
      rw [jmp, h]
      cases cond <;> rfl
    _ = _ := by simp only [taken_eval, Option.some.injEq, decide_eq_true_eq]

theorem jmp32_of_cond {cur : BpfInsn} {cond : Cond} (h : cur.code &&& 0xf0 = cond.code) :
    m.jmp32 cur = (true, if cond.eval ((m.reg cur.dstReg.toNat).truncate 32)
      (if cur.useReg then (m.reg cur.srcReg.toNat).truncate 32 else cur.imm)
      then m.jumpBy cur.off else m) := by
  calc m.jmp32 cur
    _ = (true, if taken cond.code.toNat ((m.reg cur.dstReg.toNat).truncate 32)
        (if cur.useReg then (m.reg cur.srcReg.toNat).truncate 32 else cur.imm) = some true
        then m.jumpBy cur.off else m) := by
      rw [jmp32, h]
      cases cond <;> rfl
    _ = _ := by simp only [taken_eval, Option.some.injEq, decide_eq_true_eq]

theorem conforms_branch (hs : Sound m.mem c.vm) (b : Prop) [Decidable b] (off : BitVec 16) :
    Conforms c m (true, if b then m.jumpBy off else m)
      (if b then some ((m.arch c).jump off) else some ((m.arch c).next 1)) := by
  split_ifs
  · exact conforms_jump hs off
  · exact conforms_next hs

theorem conforms_jcond (hs : Sound m.mem c.vm) (wd : Width) (cond : Cond) (dst : Fin 11)
    (src : Operand) (off : BitVec 16) (p : HostPtr) :
    Conforms c m (m.execute c w ⟨wd.jmpClass ||| cond.code ||| src.code, regField dst,
      src.srcReg, off, src.immField⟩ p) ((Insn.jcond wd cond dst src off).exec (m.arch c)) := by
  obtain ⟨hclass, hop, hsrc⟩ := jmp_code wd cond src
  cases wd with
  | w32 =>
    rw [execute_jmp32 c w m p hclass, jmp32_of_cond hop]
    simp only [BpfInsn.useReg, hsrc, operand32, regField_src]
    exact conforms_branch hs _ off
  | w64 =>
    rw [execute_jmp c w m p hclass, jmp_of_cond hop]
    simp only [BpfInsn.useReg, hsrc, operand64, regField_src]
    have hbranch := conforms_branch hs (cond.eval (m.reg dst) (src.value 64 m.reg)) off
    simpa only [Insn.exec, Width.bits, arch, truncate_eq_setWidth,
      setWidth_eq] using hbranch

theorem conforms_ja (hs : Sound m.mem c.vm) (off : BitVec 16) (p : HostPtr) :
    Conforms c m (m.execute c w ⟨0x05, 0, 0, off, 0⟩ p) ((Insn.ja off).exec (m.arch c)) := by
  have hjmp : m.jmp c w ⟨0x05, 0, 0, off, 0⟩ = (true, m.jumpBy off) := by simp [jmp]
  rw [execute_jmp c w m p (by simp), hjmp]
  exact conforms_jump hs off

theorem conforms_jaLong (hs : Sound m.mem c.vm) (imm : U32) (p : HostPtr) :
    Conforms c m (m.execute c w ⟨0x06, 0, 0, 0, imm⟩ p)
      ((Insn.jaLong imm).exec (m.arch c)) := by
  have hjmp : m.jmp32 ⟨0x06, 0, 0, 0, imm⟩ = (true, m.jumpBy imm) := by simp [jmp32]
  rw [execute_jmp32 c w m p (by simp), hjmp]
  exact conforms_jump hs imm

end Bpfvm.Cpu
