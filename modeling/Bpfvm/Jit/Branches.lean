import Bpfvm.Jit.AArch64Alu
import Bpfvm.Jit.Discover
import Bpfvm.Jit.X86Alu
import Mathlib.Tactic.Ring

/-!
# Conditional jumps

`jmp_load_operands`, `emit_jmp` and `emit_jmp_deopt` of both back ends, and the part of
`emit_instruction` that chooses between the two.
-/
namespace Bpfvm.Jit
open Memory Cpu HostCode BitVec

/-- `entry_gpa + (uint64_t)(int64_t)tgt * sizeof(bpf_insn)`. -/
def guestAddr (entry : U64) (tgt : ℤ) : U64 := entry + BitVec.ofInt 64 tgt * 8

/-- The target of a jump lies outside the fragment. -/
def outside (numInsns : ℕ) (tgt : ℤ) : Bool := tgt < 0 ∨ numInsns ≤ tgt

/-- `vm::jmp` or `vm::jmp32`. -/
def jumpOf (is64 : Bool) (c : Setup) (w : World) (m : Machine) (insn : BpfInsn) : Bool × Machine :=
  if is64 then m.jmp c w insn else m.jmp32 insn

/-- Whether a conditional jump is taken, from the operands. -/
def takenAt (is64 : Bool) (insn : BpfInsn) (dst src : U64) : Option Bool :=
  lowAt is64 (fun _ => taken (aluOp insn)) dst src

section
variable {is64 t : Bool} {c : Setup} {w : World} {m : Machine} {insn : BpfInsn}

theorem jumpOf_eq
    (h : takenAt is64 insn (m.reg insn.dstReg.toNat) (srcValue insn m.reg) = some t) :
    jumpOf is64 c w m insn = (true, if t then m.jumpBy insn.off else m) := by
  have hop : aluOp insn ≠ 0x00 ∧ aluOp insn ≠ 0x80 ∧ aluOp insn ≠ 0x90 := by
    refine ⟨?_, ?_, ?_⟩ <;> (intro h0; rw [takenAt, h0] at h; cases is64 <;> cases h)
  cases is64 with
  | true =>
    change m.jmp c w insn = _
    unfold Machine.jmp
    dsimp only
    split
    · exact absurd ‹_› hop.1
    · exact absurd ‹_› hop.2.1
    · exact absurd ‹_› hop.2.2
    · have htaken : taken (insn.code &&& 0xf0).toNat (m.reg insn.dstReg.toNat)
          (if insn.useReg then m.reg insn.srcReg.toNat else insn.imm.signExtend 64) = some t := h
      rw [htaken]
      cases t <;> rfl
  | false =>
    have hsrc := truncate_srcValue insn m.reg
    change m.jmp32 insn = _
    unfold Machine.jmp32
    dsimp only
    split
    · exact absurd ‹_› hop.1
    · exact absurd ‹_› hop.2.1
    · exact absurd ‹_› hop.2.2
    · have htaken : taken (insn.code &&& 0xf0).toNat ((m.reg insn.dstReg.toNat).truncate 32)
          ((srcValue insn m.reg).truncate 32) = some t := h
      rw [hsrc] at htaken
      rw [htaken]
      cases t <;> rfl

/-- The interpreter's next address after a jump that is taken. -/
theorem jumpBy_pc {entry : U64} {i : ℕ} (hpc : m.pc = guestAddr entry i) (off : BitVec 16) :
    (m.jumpBy off).pc + 8 = guestAddr entry (i + 1 + off.toInt) := by
  have hoff : off.signExtend 64 = BitVec.ofInt 64 off.toInt := rfl
  have hone : BitVec.ofInt 64 1 = 1 := rfl
  rw [Machine.jumpBy, hpc, hoff, guestAddr, guestAddr, ofInt_add, ofInt_add, hone]
  ring

theorem ult_or_eq {n : ℕ} (a b : BitVec n) : (a.ult b || a == b) = !b.ult a := by
  rw [Bool.eq_iff_iff]
  simp [BitVec.ult, toNat_eq]
  omega

theorem eq_or_slt {n : ℕ} (a b : BitVec n) : (a == b || a.slt b) = !b.slt a := by
  rw [Bool.eq_iff_iff]
  simp [BitVec.slt, ← toInt_inj]
  omega

end

/-- The codes of the conditional jumps. -/
def jumpConditions : List ℕ := [0x10, 0x20, 0x30, 0x40, 0x50, 0x60, 0x70, 0xa0, 0xb0, 0xc0, 0xd0]

theorem exists_takenAt (is64 : Bool) {insn : BpfInsn} (h : aluOp insn ∈ jumpConditions)
    (a b : U64) : ∃ t, takenAt is64 insn a b = some t := by
  unfold takenAt lowAt
  generalize aluOp insn = op at h ⊢
  simp only [jumpConditions, List.mem_cons, List.not_mem_nil, or_false] at h
  rcases h with rfl | rfl | rfl | rfl | rfl | rfl | rfl | rfl | rfl | rfl | rfl <;>
    cases is64 <;> exact ⟨_, rfl⟩

/-- How the code of a conditional jump is left. -/
def condExit (numInsns : ℕ) (tgt : ℤ) (t : Bool) : Option Exit :=
  if t then some (if outside numInsns tgt then .flushAndExit else .target tgt) else none

/-- The vm behind it: only the exit from the fragment sets `pc_`. -/
def condVm (numInsns : ℕ) (tgt : ℤ) (t : Bool) (vm : Machine) (next : U64) : Machine :=
  if t ∧ outside numInsns tgt then { vm with pc := next } else vm

namespace X86

/-- The condition code, and whether it is for `test`. -/
def condOf : ℕ → Option (Cc × Bool)
  | 0x10 => some (.e, false)
  | 0x50 => some (.ne, false)
  | 0x20 => some (.a, false)
  | 0x30 => some (.ae, false)
  | 0xa0 => some (.b, false)
  | 0xb0 => some (.be, false)
  | 0x60 => some (.g, false)
  | 0x70 => some (.ge, false)
  | 0xc0 => some (.l, false)
  | 0xd0 => some (.le, false)
  | 0x40 => some (.ne, true)
  | _ => none

/-- `jmp_load_operands`; nothing where it returns `false`. -/
def jmpLoadOperands (insn : BpfInsn) (is64 : Bool) : Option (Cc × List Insn) :=
  (condOf (aluOp insn)).map fun (cc, isTest) =>
    (cc, loadOperands insn ++
      [if isTest then .test is64 .rax (srcOperand insn) else .cmp is64 .rax (srcOperand insn)])

def emitJmp (insn : BpfInsn) (cur : ℕ) (is64 : Bool) : Option (List Insn) :=
  (jmpLoadOperands insn is64).map fun (cc, code) =>
    code ++ [.jcc cc (.out (.target (cur + 1 + insn.off.toInt)))]

/-- `emit_set_pc_imm`. -/
def emitSetPcImm (l : Layout) (gpa : U64) : List Insn :=
  [.movabs .rax gpa, .store l.offPc .rax]

def emitJmpDeopt (l : Layout) (insn : BpfInsn) (is64 : Bool) (gpa : U64) :
    Option (List Insn) :=
  let stub := emitSetPcImm l gpa ++ [.jmp (.out .flushAndExit)]
  (jmpLoadOperands insn is64).map fun (cc, code) => code ++ .jcc cc.inv (.rel stub.length) :: stub

/-- The branch of `emit_instruction` for a conditional jump. -/
def emitCondJump (l : Layout) (insn : BpfInsn) (is64 : Bool) (entry : U64)
    (i numInsns : ℕ) : Option (List Insn) :=
  let tgt : ℤ := i + 1 + insn.off.toInt
  if outside numInsns tgt then emitJmpDeopt l insn is64 (guestAddr entry tgt)
  else emitJmp insn i is64

/-- The code ends so, with the guest registers `r` in place and this vm. -/
def Follows (P : Platform) (code : List Insn) (s : State) (r : Regs) (e : Option Exit)
    (vm : Machine) : Prop :=
  ∃ s', Ends (sem P) code 0 s (s', e) ∧ Mirrors r s' ∧ s'.vm = vm

section
variable {P : Platform} {n op : ℕ} {cc : Cc} {s : State} {r : Regs} {insn : BpfInsn}
  {is64 : Bool} {code : List Insn}

theorem taken_cmp (hn : 0 < n) (h : condOf op = some (cc, false)) (a b : BitVec n) :
    taken op a b = some (cc.holds (subFlags a b)) := by
  have hslt := msb_sub_ne_overflow hn a b
  unfold condOf at h
  split at h <;> cases h <;> simp only [taken, Cc.holds, subFlags, hslt, ult_or_eq, eq_or_slt,
    ule_eq_not_ult, sle_eq_not_slt, Bool.not_not]
  rfl

theorem taken_test (h : condOf op = some (cc, true)) (a b : BitVec n) :
    taken op a b = some (cc.holds (logicFlags (a &&& b))) := by
  unfold condOf at h
  split at h <;> cases h
  rfl

/-- The flags decide as the interpreter does. -/
theorem computes_jmpLoadOperands (h : jmpLoadOperands insn is64 = some (cc, code))
    (hm : Mirrors r s) (hd : insn.dstReg.toNat ≤ 10) (hs : insn.srcReg.toNat ≤ 10) :
    ∃ s' f, Computes (sem P) code s s' ∧ Changes scratch s s' ∧ s'.flags = some f ∧
      takenAt is64 insn (r insn.dstReg.toNat) (srcValue insn r) = some (cc.holds f) := by
  obtain ⟨⟨cc', isTest⟩, hcond, he⟩ := Option.map_eq_some_iff.mp h
  obtain ⟨rfl, rfl⟩ := Prod.mk.inj he
  obtain ⟨s', hload, hl, hch⟩ := computes_load (P := P) hm hd hs
  cases isTest with
  | true =>
    refine ⟨s'.withFlags (lowAt is64 (fun _ a b => logicFlags (a &&& b)) (r insn.dstReg.toNat)
      (srcValue insn r)), _, hload.append (.single ?_), hch.trans (.withFlags _ _ _), rfl, ?_⟩
    · simp only [if_true, sem, hl.operand, hl.dst]
    · cases is64 <;> exact taken_test hcond _ _
  | false =>
    refine ⟨s'.withFlags (lowAt is64 (fun _ => subFlags) (r insn.dstReg.toNat)
      (srcValue insn r)), _, hload.append (.single ?_), hch.trans (.withFlags _ _ _), rfl, ?_⟩
    · simp only [Bool.false_eq_true, if_false, sem, hl.operand, hl.dst]
    · cases is64 <;> exact taken_cmp (by decide) hcond _ _

/-- Every conditional jump has a condition code. -/
theorem condOf_of_taken {t : Bool} {a b : BitVec n} (h : taken op a b = some t) :
    ∃ p, condOf op = some p := by
  unfold taken at h
  split at h <;> first | exact ⟨_, rfl⟩ | cases h

theorem jmpLoadOperands_of_taken {t : Bool} {a b : U64} (h : takenAt is64 insn a b = some t) :
    ∃ cc code, jmpLoadOperands insn is64 = some (cc, code) := by
  have hcond : ∃ p, condOf (aluOp insn) = some p := by
    cases is64 <;> exact condOf_of_taken h
  obtain ⟨p, hp⟩ := hcond
  unfold jmpLoadOperands
  rw [hp]
  exact ⟨_, _, rfl⟩

theorem follows_emitCondJump (entry : U64) (i numInsns : ℕ) (hm : Mirrors r s)
    (hd : insn.dstReg.toNat ≤ 10) (hs : insn.srcReg.toNat ≤ 10) {t : Bool}
    (ht : takenAt is64 insn (r insn.dstReg.toNat) (srcValue insn r) = some t) :
    ∃ code, emitCondJump P.layout insn is64 entry i numInsns = some code ∧
      Follows P code s r (condExit numInsns (i + 1 + insn.off.toInt) t)
        (condVm numInsns (i + 1 + insn.off.toInt) t s.vm
          (guestAddr entry (i + 1 + insn.off.toInt))) := by
  obtain ⟨cc, code, hload⟩ := jmpLoadOperands_of_taken ht
  obtain ⟨s', f, hcomp, hch, hf, ht'⟩ := computes_jmpLoadOperands (P := P) hload hm hd hs
  obtain rfl : cc.holds f = t := Option.some.inj (ht'.symm.trans ht)
  have hm' := hm.of_changes hch
  unfold emitCondJump emitJmp
  dsimp only
  generalize (i : ℤ) + 1 + insn.off.toInt = tgt
  generalize guestAddr entry tgt = gpa
  unfold condExit condVm
  cases ho : outside numInsns tgt with
  | false =>
    refine ⟨_, (if_neg Bool.false_ne_true).trans (congrArg (Option.map _) hload), s', ?_, hm', ?_⟩
    · cases hcc : cc.holds f with
      | true => exact hcomp.append_leaves (.single (sem_jcc_out hf hcc))
      | false => exact hcomp.append (.single (sem_jcc_next hf hcc))
    · simp [hch.vm]
  | true =>
    refine ⟨_, (if_pos rfl).trans (congrArg (Option.map _) hload), ?_⟩
    have hinv := Cc.holds_inv f cc
    cases hcc : cc.holds f with
    | true =>
      have hset : Changes scratch s' (s'.set .rax gpa) := .set (by decide) _ _
      refine ⟨{ s'.set .rax gpa with vm := { s.vm with pc := gpa } }, ?_,
        fun k hk => hm'.of_changes hset k hk, rfl⟩
      refine hcomp.append_leaves (.cons (sem_jcc_next hf (by rw [hinv, hcc]; rfl)) ?_)
      refine .cons rfl (.cons ?_ (.single rfl))
      simp [sem, Layout.field_pc, Platform.write, hch.vm]
    | false =>
      exact ⟨s', hcomp.append (.over_rest (sem_jcc_taken hf (by rw [hinv, hcc]; rfl))), hm', hch.vm⟩

end

end X86

namespace AArch64

/-- The condition code, and whether it is for `tst`. -/
def condOf : ℕ → Option (Cond × Bool)
  | 0x10 => some (.eq, false)
  | 0x50 => some (.ne, false)
  | 0x20 => some (.hi, false)
  | 0x30 => some (.cs, false)
  | 0xa0 => some (.cc, false)
  | 0xb0 => some (.ls, false)
  | 0x60 => some (.gt, false)
  | 0x70 => some (.ge, false)
  | 0xc0 => some (.lt, false)
  | 0xd0 => some (.le, false)
  | 0x40 => some (.ne, true)
  | _ => none

/-- `jmp_load_operands`; nothing where it returns `false`. The immediate of a `tst` is
zero-extended. -/
def jmpLoadOperands (insn : BpfInsn) (is64 : Bool) : Option (Cond × List Insn) :=
  (condOf (aluOp insn)).map fun (cond, isTest) =>
    (cond, loadBpf insn.dstReg.toNat .x0 ++
      if isTest then
        (if insn.useReg then loadBpf insn.srcReg.toNat .x1
          else movImm .x1 (insn.imm.zeroExtend 64) is64) ++ [.tst is64 .x0 .x1]
      else if insn.useReg then loadBpf insn.srcReg.toNat .x1 ++ [.cmp is64 .x0 .x1]
      else cmpImm .x0 (insn.imm.signExtend 64) is64)

/-- `emit_far_cond`: the inverted condition jumps over an unconditional branch. -/
def emitFarCond (cond : Cond) (e : Exit) : List Insn := [.bcond cond.inv (.rel 1), .b (.out e)]

def emitJmp (insn : BpfInsn) (cur : ℕ) (is64 : Bool) : Option (List Insn) :=
  (jmpLoadOperands insn is64).map fun (cond, code) =>
    code ++ emitFarCond cond (.target (cur + 1 + insn.off.toInt))

/-- `str_imm` of a doubleword; a large offset is added up in `x1`. -/
def strImm (t n : Reg) (off : ℕ) : List Insn :=
  if off % 8 = 0 ∧ off / 8 ≤ 0xfff then [.str t n off]
  else addImm .x1 n (BitVec.ofNat 64 off) true ++ [.str t .x1 0]

/-- `emit_set_pc_imm`. -/
def emitSetPcImm (l : Layout) (gpa : U64) : List Insn :=
  movImm .x0 gpa true ++ strImm .x0 .x28 l.offPc

def emitJmpDeopt (l : Layout) (insn : BpfInsn) (is64 : Bool) (gpa : U64) :
    Option (List Insn) :=
  let stub := emitSetPcImm l gpa ++ [.b (.out .flushAndExit)]
  (jmpLoadOperands insn is64).map fun (cond, code) =>
    code ++ .bcond cond.inv (.rel stub.length) :: stub

/-- The branch of `emit_instruction` for a conditional jump. -/
def emitCondJump (l : Layout) (insn : BpfInsn) (is64 : Bool) (entry : U64)
    (i numInsns : ℕ) : Option (List Insn) :=
  let tgt : ℤ := i + 1 + insn.off.toInt
  if outside numInsns tgt then emitJmpDeopt l insn is64 (guestAddr entry tgt)
  else emitJmp insn i is64

/-- The code ends so, with the guest registers `r` in place and this vm. -/
def Follows (P : Platform) (code : List Insn) (s : State) (r : Regs) (e : Option Exit)
    (vm : Machine) : Prop :=
  ∃ s', Ends (sem P) code 0 s (s', e) ∧ Mirrors r s' ∧ s'.vm = vm

/-- What the destination is compared with. -/
def condSource (insn : BpfInsn) (r : Regs) : U64 :=
  if aluOp insn = 0x40 ∧ !insn.useReg then insn.imm.zeroExtend 64 else srcValue insn r

section
variable {P : Platform} {n op : ℕ} {cond : Cond} {f : Flags} {s : State} {r : Regs}
  {insn : BpfInsn} {is64 : Bool} {code : List Insn} {e : Exit} {d : ℤ} {t : Target}

theorem sem_bcond_taken (hf : s.flags = some f) (h : cond.holds f = true) :
    sem P (.bcond cond (.rel d)) s = (s, .jump d) := by
  simp [sem, hf, h, jumpTo]

theorem sem_bcond_next (hf : s.flags = some f) (h : cond.holds f = false) :
    sem P (.bcond cond t) s = (s, .next) := by
  simp [sem, hf, h]

theorem taken_cmp (hn : 0 < n) (h : condOf op = some (cond, false)) (a b : BitVec n) :
    taken op a b = some (cond.holds (subFlags a b)) := by
  have hslt : ((a - b).msb == a.ssubOverflow b) = !a.slt b := by
    rw [← msb_sub_ne_overflow hn a b, bne, Bool.not_not]
  have hhi : (!a.ult b && !a == b) = b.ult a := by
    rw [← Bool.not_or, ult_or_eq, Bool.not_not]
  have hgt : (!a == b && !a.slt b) = b.slt a := by
    rw [← Bool.not_or, eq_or_slt, Bool.not_not]
  unfold condOf at h
  split at h <;> cases h <;> simp only [taken, Cond.holds, subFlags, hslt, hhi, hgt,
    ule_eq_not_ult, sle_eq_not_slt, Bool.not_not]
  rfl

theorem taken_test (h : condOf op = some (cond, true)) (a b : BitVec n) :
    taken op a b = some (cond.holds (logicFlags (a &&& b))) := by
  unfold condOf at h
  split at h <;> cases h
  rfl

/-- `tst` is for `JSET`. -/
theorem condOf_test {b : Bool} (h : condOf op = some (cond, b)) : b = decide (op = 0x40) := by
  unfold condOf at h
  split at h <;> cases h <;> rfl

theorem condOf_of_taken {t : Bool} {a b : BitVec n} (h : taken op a b = some t) :
    ∃ p, condOf op = some p := by
  unfold taken at h
  split at h <;> first | exact ⟨_, rfl⟩ | cases h

theorem jmpLoadOperands_of_taken {t : Bool} {a b : U64} (h : takenAt is64 insn a b = some t) :
    ∃ cond code, jmpLoadOperands insn is64 = some (cond, code) := by
  have hcond : ∃ p, condOf (aluOp insn) = some p := by
    cases is64 <;> exact condOf_of_taken h
  obtain ⟨p, hp⟩ := hcond
  unfold jmpLoadOperands
  rw [hp]
  exact ⟨_, _, rfl⟩

theorem lowAt_low_right {α : Sort*} {g : (w : ℕ) → BitVec w → BitVec w → α} {a b c : U64} :
    lowAt is64 g a (atWidth is64 (fun _ a _ => a) b c) = lowAt is64 g a b := by
  cases is64 <;> simp [lowAt, atWidth]

theorem computes_cmpImm (s : State) {m : Reg} (hm : m ≠ .x2) (imm : U64) (is64 : Bool) :
    ∃ s', Computes (sem P) (cmpImm m imm is64) s s' ∧ Changes scratch s s' ∧
      s'.flags = some (lowAt is64 (fun _ => subFlags) (s.reg m) imm) := by
  unfold cmpImm
  split_ifs
  · refine ⟨_, .single rfl, .withFlags _ _ _, ?_⟩
    rw [State.flags_withFlags, ofNat_toNat, setWidth_eq]
  · refine ⟨_, (computes_movImm s .x2 imm is64).append (.single rfl),
      .trans (.set (by decide) s _) (.withFlags _ _ _), ?_⟩
    rw [State.flags_withFlags, State.reg_set_self, State.reg_set_of_ne _ _ hm, lowAt_low_right]

/-- The flags decide as the interpreter does on `condSource`. -/
theorem computes_jmpLoadOperands (h : jmpLoadOperands insn is64 = some (cond, code))
    (hm : Mirrors r s) (hd : insn.dstReg.toNat ≤ 10) (hs : insn.srcReg.toNat ≤ 10) :
    ∃ s' f, Computes (sem P) code s s' ∧ Changes scratch s s' ∧ s'.flags = some f ∧
      takenAt is64 insn (r insn.dstReg.toNat) (condSource insn r) = some (cond.holds f) := by
  obtain ⟨⟨cond', isTest⟩, hcond, he⟩ := Option.map_eq_some_iff.mp h
  obtain ⟨rfl, rfl⟩ := Prod.mk.inj he
  have hop := condOf_test hcond
  have hload := computes_loadBpf (P := P) s insn.dstReg.toNat .x0
  have hch : Changes scratch s (s.set .x0 (s.reg (bpfRegMap insn.dstReg.toNat))) :=
    .set (by decide) _ _
  have hx0 : (s.set .x0 (s.reg (bpfRegMap insn.dstReg.toNat))).reg .x0 = r insn.dstReg.toNat :=
    (State.reg_set_self _ _ _).trans (hm _ hd)
  have hm₁ := hm.of_changes hch
  generalize s.set .x0 (s.reg (bpfRegMap insn.dstReg.toNat)) = s₁ at hload hch hx0 hm₁
  have hx1 := computes_loadBpf (P := P) s₁ insn.srcReg.toNat .x1
  rw [hm₁ _ hs] at hx1
  unfold condSource
  rw [← hx0]
  cases isTest with
  | true =>
    have hjset : aluOp insn = 0x40 := of_decide_eq_true hop.symm
    simp only [if_true, hjset, true_and]
    suffices hsrc : ∃ x, Computes (sem P) (if insn.useReg then loadBpf insn.srcReg.toNat .x1
        else movImm .x1 (insn.imm.zeroExtend 64) is64) s₁ (s₁.set .x1 x) ∧
        lowAt is64 (fun _ a b => logicFlags (a &&& b)) (s₁.reg .x0) x =
          lowAt is64 (fun _ a b => logicFlags (a &&& b)) (s₁.reg .x0)
            (if !insn.useReg then insn.imm.zeroExtend 64 else srcValue insn r) by
      obtain ⟨x, hcomp, hx⟩ := hsrc
      refine ⟨_, _, hload.append (hcomp.append (.single rfl)),
        (hch.trans (.set (by decide) _ _)).trans (.withFlags _ _ _), rfl, ?_⟩
      rw [State.reg_set_self, State.reg_set_of_ne _ _ (by decide), hx]
      cases is64 <;> exact taken_test hcond _ _
    unfold srcValue
    cases hu : insn.useReg with
    | true => exact ⟨_, hx1, rfl⟩
    | false => exact ⟨_, computes_movImm _ _ _ _, lowAt_low_right⟩
  | false =>
    have hjset : aluOp insn ≠ 0x40 := of_decide_eq_false hop.symm
    simp only [Bool.false_eq_true, if_false, hjset, false_and]
    suffices hcmp : ∃ s', Computes (sem P) (if insn.useReg then
        loadBpf insn.srcReg.toNat .x1 ++ [.cmp is64 .x0 .x1]
        else cmpImm .x0 (insn.imm.signExtend 64) is64) s₁ s' ∧ Changes scratch s₁ s' ∧
        s'.flags = some (lowAt is64 (fun _ => subFlags) (s₁.reg .x0) (srcValue insn r)) by
      obtain ⟨s', hcomp, hch', hf⟩ := hcmp
      refine ⟨s', _, hload.append hcomp, hch.trans hch', hf, ?_⟩
      cases is64 <;> exact taken_cmp (by decide) hcond _ _
    unfold srcValue
    cases hu : insn.useReg with
    | true =>
      refine ⟨_, hx1.append (.single rfl), .trans (.set (by decide) _ _) (.withFlags _ _ _), ?_⟩
      rw [State.flags_withFlags, State.reg_set_self, State.reg_set_of_ne _ _ (by decide)]
      rfl
    | false => exact computes_cmpImm s₁ (by decide) _ is64

theorem fieldAt_vm (P : Platform) (s : State) {off : ℕ} (h : off < 2 ^ 31) :
    s.fieldAt P (s.reg .x28 + BitVec.ofNat 64 off) = P.layout.field off := by
  unfold State.fieldAt
  rw [add_sub_cancel_left, toNat_ofNat, Nat.mod_eq_of_lt (by omega)]

theorem computes_strPc (s : State) : ∃ s', Computes (sem P) (strImm .x0 .x28 P.layout.offPc) s s' ∧
    (∀ q ∉ scratch, s'.reg q = s.reg q) ∧ s'.vm = { s.vm with pc := s.reg .x0 } := by
  have hsmall : P.layout.offPc < 2 ^ 31 := by
    have h := P.layout.pc_small
    omega
  unfold strImm
  split_ifs
  · refine ⟨{ s with vm := { s.vm with pc := s.reg .x0 } }, .single ?_, fun _ _ => rfl, rfl⟩
    simp only [sem, fieldAt_vm P s hsmall, Layout.field_pc, Platform.write]
  · obtain ⟨s₁, hadd, hx1, hch⟩ := computes_addImm (P := P) s .x1 (n := .x28) (by decide)
      (BitVec.ofNat 64 P.layout.offPc) true
    have hvm : s₁.reg .x28 = s.reg .x28 := hch.reg _ (by decide)
    have hx0 : s₁.reg .x0 = s.reg .x0 := hch.reg _ (by decide)
    have hfield := fieldAt_vm P s₁ hsmall
    refine ⟨{ s₁ with vm := { s₁.vm with pc := s₁.reg .x0 } }, hadd.append (.single ?_), ?_, ?_⟩
    · have haddr : s₁.reg .x1 + BitVec.ofNat 64 0 =
          s₁.reg .x28 + BitVec.ofNat 64 P.layout.offPc := by
        rw [hx1, hvm]
        exact add_zero _
      simp only [sem, haddr, hfield, Layout.field_pc, Platform.write]
    · exact (hch.mono (by decide)).reg
    · rw [hch.vm, hx0]

/-- A jump follows the interpreter, except that it compares with `condSource`. -/
theorem follows_emitCondJump (entry : U64) (i numInsns : ℕ) (hm : Mirrors r s)
    (hd : insn.dstReg.toNat ≤ 10) (hs : insn.srcReg.toNat ≤ 10) {t : Bool}
    (ht : takenAt is64 insn (r insn.dstReg.toNat) (condSource insn r) = some t) :
    ∃ code, emitCondJump P.layout insn is64 entry i numInsns = some code ∧
      Follows P code s r (condExit numInsns (i + 1 + insn.off.toInt) t)
        (condVm numInsns (i + 1 + insn.off.toInt) t s.vm
          (guestAddr entry (i + 1 + insn.off.toInt))) := by
  obtain ⟨cond, code, hload⟩ := jmpLoadOperands_of_taken ht
  obtain ⟨s', f, hcomp, hch, hf, ht'⟩ := computes_jmpLoadOperands (P := P) hload hm hd hs
  obtain rfl : cond.holds f = t := Option.some.inj (ht'.symm.trans ht)
  have hm' := hm.of_changes hch
  have hinv := Cond.holds_inv f cond
  unfold emitCondJump emitJmp
  dsimp only
  generalize (i : ℤ) + 1 + insn.off.toInt = tgt
  generalize guestAddr entry tgt = gpa
  unfold condExit condVm
  cases ho : outside numInsns tgt with
  | false =>
    refine ⟨_, (if_neg Bool.false_ne_true).trans (congrArg (Option.map _) hload), s', ?_, hm', ?_⟩
    · cases hcc : cond.holds f with
      | true =>
        exact hcomp.append_leaves (.cons (sem_bcond_next hf (by rw [hinv, hcc]; rfl)) (.single rfl))
      | false => exact hcomp.append (.over_rest (sem_bcond_taken hf (by rw [hinv, hcc]; rfl)))
    · simp [hch.vm]
  | true =>
    refine ⟨_, (if_pos rfl).trans (congrArg (Option.map _) hload), ?_⟩
    cases hcc : cond.holds f with
    | true =>
      have hmov := computes_movImm (P := P) s' .x0 gpa true
      obtain ⟨s₂, hstr, hreg, hvm⟩ := computes_strPc (P := P)
        (s'.set .x0 (atWidth true (fun _ a _ => a) gpa 0))
      refine ⟨s₂, hcomp.append_leaves (.cons (sem_bcond_next hf (by rw [hinv, hcc]; rfl))
        ((hmov.append hstr).append_leaves (.single rfl))), fun k hk => ?_, ?_⟩
      · rw [hreg _ (bpfRegMap_notMem k), State.reg_set_of_ne _ _
          fun he => bpfRegMap_notMem k (by rw [he]; decide)]
        exact hm' k hk
      · rw [hvm, State.vm_set, State.reg_set_self, hch.vm]
        rfl
    | false =>
      exact ⟨s', hcomp.append (.over_rest (sem_bcond_taken hf (by rw [hinv, hcc]; rfl))), hm',
        hch.vm⟩

theorem and_zeroExtend_of_and_signExtend (a : U64) (imm : U32)
    (h : a &&& imm.signExtend 64 = 0) : a &&& imm.zeroExtend 64 = 0 := by
  refine eq_of_getLsbD_eq fun j hj => ?_
  have hbit := congrArg (·.getLsbD j) h
  simp only [getLsbD_and, getLsbD_signExtend] at hbit
  rw [getLsbD_and, BitVec.zeroExtend, getLsbD_setWidth]
  by_cases hlt : j < 32
  · simpa [hlt, hj] using hbit
  · rw [getLsbD_of_ge imm j (by omega), Bool.and_false, Bool.and_false]
    exact getLsbD_zero.symm

/-- The other immediate matters for a `JSET` at 64 bits, for bits above the immediate. -/
theorem takenAt_condSource_iff {t t' : Bool}
    (ht : takenAt is64 insn (r insn.dstReg.toNat) (srcValue insn r) = some t)
    (ht' : takenAt is64 insn (r insn.dstReg.toNat) (condSource insn r) = some t') :
    t' = t ↔ ¬(is64 ∧ aluOp insn = 0x40 ∧ insn.useReg = false ∧
      r insn.dstReg.toNat &&& insn.imm.signExtend 64 ≠ 0 ∧
      r insn.dstReg.toNat &&& insn.imm.zeroExtend 64 = 0) := by
  by_cases himm : aluOp insn = 0x40 ∧ !insn.useReg
  · obtain ⟨hop, hu⟩ := himm
    have hu : insn.useReg = false := by simpa using hu
    have hsrc : srcValue insn r = insn.imm.signExtend 64 := if_neg (by simp [hu])
    have hcond : condSource insn r = insn.imm.zeroExtend 64 := if_pos ⟨hop, by simp [hu]⟩
    rw [hsrc, takenAt, hop] at ht
    rw [hcond, takenAt, hop] at ht'
    cases is64 with
    | true =>
      obtain rfl := Option.some.inj ht
      obtain rfl := Option.some.inj ht'
      have hzero := and_zeroExtend_of_and_signExtend (r insn.dstReg.toNat) insn.imm
      rw [Bool.eq_iff_iff, bne_iff_ne, bne_iff_ne]
      tauto
    | false =>
      have hlow := (truncate_zeroExtend insn.imm).trans (truncate_signExtend insn.imm).symm
      have htt : some t' = some t := by
        rw [← ht, ← ht']
        exact congrArg (taken 0x40 ((r insn.dstReg.toNat).truncate 32)) hlow
      exact iff_of_true (Option.some.inj htt) (by simp)
  · have hcond : condSource insn r = srcValue insn r := if_neg himm
    rw [hcond] at ht'
    obtain rfl := Option.some.inj (ht.symm.trans ht')
    refine iff_of_true rfl fun h => himm ⟨h.2.1, by rw [h.2.2.1]; rfl⟩

end

end AArch64

section
variable {numInsns : ℕ} {tgt : ℤ} {t t' : Bool}

theorem condExit_inj (h : condExit numInsns tgt t = condExit numInsns tgt t') : t = t' := by
  unfold condExit at h
  cases t <;> cases t' <;> simp_all

end

end Bpfvm.Jit
