import Bpfvm.Jit.Branches

/-!
# Compiled code and the interpreter

What both back ends have in common with the interpreter, instruction class by instruction class,
and where one of them differs.
-/
namespace Bpfvm.Jit
open Memory Cpu HostCode Function

/-! ## A host -/

def Layout.plain : Layout where
  offReg := 8
  offPc := 0
  offTlb := 96
  pc_reg := by decide
  pc_tlb := by decide
  reg_tlb := by decide
  reg_small := by decide
  pc_small := by decide
  tlb_small := by decide

/-- Every allocation has a range of addresses of its own. -/
def Platform.plain : Platform where
  layout := .plain
  setup := .plain
  place p := BitVec.ofNat 64 (2 ^ 32 * (p.region + 1) + p.off)
  locate x := ⟨x.toNat / 2 ^ 32 - 1, x.toNat % 2 ^ 32⟩
  junk _ := 0
  place_add p k := by rw [HostPtr.add_region, HostPtr.add_off, ← Nat.add_assoc, BitVec.ofNat_add]

/-- The host registers as the prologue loads them. -/
def X86.State.entered (m : Machine) : X86.State :=
  let reg : X86.Reg → U64
    | .r8 => m.reg 0
    | .r9 => m.reg 1
    | .r10 => m.reg 2
    | .rdi => m.reg 3
    | .rsi => m.reg 4
    | .rdx => m.reg 5
    | .rbx => m.reg 6
    | .r12 => m.reg 7
    | .r13 => m.reg 8
    | .r14 => m.reg 9
    | .r15 => m.reg 10
    | _ => 0
  ⟨reg, none, [], m⟩

theorem X86.mirrors_entered (m : Machine) : X86.Mirrors m.reg (.entered m) := by
  intro k hk
  interval_cases k <;> rfl

def AArch64.State.entered (m : Machine) : AArch64.State :=
  let reg : AArch64.Reg → U64
    | .x9 => m.reg 0
    | .x10 => m.reg 1
    | .x11 => m.reg 2
    | .x12 => m.reg 3
    | .x13 => m.reg 4
    | .x14 => m.reg 5
    | .x19 => m.reg 6
    | .x20 => m.reg 7
    | .x21 => m.reg 8
    | .x22 => m.reg 9
    | .x23 => m.reg 10
    | _ => 0
  ⟨reg, none, [], m, 0⟩

theorem AArch64.mirrors_entered (m : Machine) : AArch64.Mirrors m.reg (.entered m) := by
  intro k hk
  interval_cases k <;> rfl

/-! ## Arithmetic -/

/-- The interpreter changes the destination only. -/
theorem aluOf_update {is64 : Bool} {insn : BpfInsn} {r r' : Regs} (hd : insn.dstReg.toNat < 10)
    (h : aluOf is64 insn r = some r') : ∃ x, r' = update r insn.dstReg.toNat x := by
  by_cases hop : aluOp insn = 0xd0
  · rw [aluOf_end hd hop] at h
    obtain ⟨x, -, rfl⟩ := Option.map_eq_some_iff.mp h
    exact ⟨x, rfl⟩
  · rw [aluOf_eq hd hop] at h
    exact ⟨_, (Option.some.inj h).symm⟩

/-- The code of `emit_alu` of either back end leaves in the destination what the interpreter
computes, and keeps every other guest register. -/
theorem alu_agrees (P : Platform) (insn : BpfInsn) (is64 : Bool) (r : Regs)
    (hd : insn.dstReg.toNat < 10) (hs : insn.srcReg.toNat ≤ 10) :
    (∀ s code, X86.Mirrors r s → X86.emitAlu insn is64 = some code →
      ∃ x, aluOf is64 insn r = some (update r insn.dstReg.toNat x) ∧
        X86.Reaches P code s (update r insn.dstReg.toNat x)) ∧
    ∀ s code, AArch64.Mirrors r s → AArch64.emitAlu insn is64 = some code →
      ∃ x, aluOf is64 insn r = some (update r insn.dstReg.toNat x) ∧
        AArch64.Reaches P code s (update r insn.dstReg.toNat x) := by
  constructor
  · intro s code hm he
    obtain ⟨r', hr, hreach⟩ := X86.reaches_emitAlu (P := P) hm hd hs he
    obtain ⟨x, rfl⟩ := aluOf_update hd hr
    exact ⟨x, hr, hreach⟩
  · intro s code hm he
    obtain ⟨r', hr, hreach⟩ := AArch64.reaches_emitAlu (P := P) hm hd hs he
    obtain ⟨x, rfl⟩ := aluOf_update hd hr
    exact ⟨x, hr, hreach⟩

/-- `r5 s%= r5` at 32 bits. -/
def smodSelf : BpfInsn := ⟨0x9c, 5, 5, 1, 0⟩

/-- Register `k` holds `k`. -/
def counting : Machine := Machine.boot [] (fun k => BitVec.ofNat 64 k) 0x1000

theorem alu_agrees_smodSelf :
    (∃ code x, X86.emitAlu smodSelf false = some code ∧
      aluOf false smodSelf counting.reg = some (update counting.reg 5 x) ∧
      X86.Reaches .plain code (.entered counting) (update counting.reg 5 x)) ∧
    ∃ code x, AArch64.emitAlu smodSelf false = some code ∧
      aluOf false smodSelf counting.reg = some (update counting.reg 5 x) ∧
      AArch64.Reaches .plain code (.entered counting) (update counting.reg 5 x) := by
  have h := alu_agrees .plain smodSelf false counting.reg (by decide) (by decide)
  obtain ⟨x, hx⟩ := h.1 (.entered counting) _ (X86.mirrors_entered _) rfl
  obtain ⟨y, hy⟩ := h.2 (.entered counting) _ (AArch64.mirrors_entered _) rfl
  exact ⟨⟨_, x, rfl, hx⟩, _, y, rfl, hy⟩

/-! ## Conditional jumps -/

/-- A conditional jump of either back end is taken if and only if the interpreter takes it, keeps
the guest registers, and leaves the fragment with the interpreter's next address in `pc_`. On
AArch64 this needs that a `JSET` of a 64-bit register with an immediate is not decided by the upper
half. -/
theorem condJump_agrees (P : Platform) (c : Setup) (w : World) (insn : BpfInsn) (is64 : Bool)
    (entry : U64) (i numInsns : ℕ) (m : Machine) (s : X86.State) (s' : AArch64.State)
    (hop : aluOp insn ∈ jumpConditions) (hpc : m.pc = guestAddr entry i)
    (hd : insn.dstReg.toNat ≤ 10) (hs : insn.srcReg.toNat ≤ 10)
    (hm : X86.Mirrors m.reg s) (hm' : AArch64.Mirrors m.reg s') :
    ∃ t, jumpOf is64 c w m insn = (true, if t then m.jumpBy insn.off else m) ∧
      (∃ code, X86.emitCondJump P.layout insn is64 entry i numInsns = some code ∧
        X86.Follows P code s m.reg (condExit numInsns (i + 1 + insn.off.toInt) t)
          (condVm numInsns (i + 1 + insn.off.toInt) t s.vm
            ((jumpOf is64 c w m insn).2.pc + 8))) ∧
      ((∃ code, AArch64.emitCondJump P.layout insn is64 entry i numInsns = some code ∧
        AArch64.Follows P code s' m.reg (condExit numInsns (i + 1 + insn.off.toInt) t)
          (condVm numInsns (i + 1 + insn.off.toInt) t s'.vm
            ((jumpOf is64 c w m insn).2.pc + 8))) ↔
        ¬(is64 ∧ aluOp insn = 0x40 ∧ insn.useReg = false ∧
          m.reg insn.dstReg.toNat &&& insn.imm.signExtend 64 ≠ 0 ∧
          m.reg insn.dstReg.toNat &&& insn.imm.zeroExtend 64 = 0)) := by
  obtain ⟨t, ht⟩ := exists_takenAt is64 hop (m.reg insn.dstReg.toNat) (srcValue insn m.reg)
  obtain ⟨t', ht'⟩ := exists_takenAt is64 hop (m.reg insn.dstReg.toNat)
    (AArch64.condSource insn m.reg)
  have hjump := jumpOf_eq (c := c) (w := w) ht
  have hvm (vm : Machine) : condVm numInsns (i + 1 + insn.off.toInt) t vm
      ((jumpOf is64 c w m insn).2.pc + 8) = condVm numInsns (i + 1 + insn.off.toInt) t vm
        (guestAddr entry (i + 1 + insn.off.toInt)) := by
    cases t with
    | true => rw [hjump, if_pos rfl, jumpBy_pc hpc]
    | false => simp [condVm]
  refine ⟨t, hjump, ?_, ?_⟩
  · rw [hvm]
    exact X86.follows_emitCondJump entry i numInsns hm hd hs ht
  · rw [hvm, ← AArch64.takenAt_condSource_iff ht ht']
    have hcode := AArch64.follows_emitCondJump (P := P) entry i numInsns hm' hd hs ht'
    constructor
    · rintro ⟨code, hemit, s₁, hends, -⟩
      obtain ⟨code', hemit', s₂, hends', -⟩ := hcode
      obtain rfl := Option.some.inj (hemit.symm.trans hemit')
      exact condExit_inj (Prod.mk.inj (hends'.unique hends)).2
    · rintro rfl
      exact hcode

/-- `if (r1 & -1) goto +1`. -/
def jsetOnes : BpfInsn := ⟨0x45, 1, 0, 1, -1⟩

/-- On a fragment of four instructions the jump is taken inside it; `r1` is 1. -/
theorem condJump_agrees_jsetOnes :
    jumpOf true Setup.plain World.quiet counting jsetOnes = (true, counting.jumpBy jsetOnes.off) ∧
    (∃ code, X86.emitCondJump .plain jsetOnes true 0x1000 0 4 = some code ∧
      X86.Follows .plain code (.entered counting) counting.reg (some (.target 2)) counting) ∧
    ∃ code, AArch64.emitCondJump .plain jsetOnes true 0x1000 0 4 = some code ∧
      AArch64.Follows .plain code (.entered counting) counting.reg (some (.target 2)) counting := by
  obtain ⟨t, ht, hx86, harm⟩ := condJump_agrees .plain Setup.plain World.quiet jsetOnes true 0x1000
    0 4 counting (.entered counting) (.entered counting) (by decide) (by decide) (by decide)
    (by decide) (X86.mirrors_entered _) (AArch64.mirrors_entered _)
  have hjump : jumpOf true Setup.plain World.quiet counting jsetOnes =
      (true, counting.jumpBy jsetOnes.off) := jumpOf_eq (t := true) (by decide)
  cases t with
  | false =>
    have hpc : (counting.jumpBy jsetOnes.off).pc = counting.pc :=
      congrArg (·.2.pc) (hjump.symm.trans ht)
    exact absurd hpc (by decide)
  | true => exact ⟨hjump, hx86, harm.mpr (by decide)⟩

/-- `r1` has bit 40 only. -/
def highBit : Machine := Machine.boot [] (fun k => if k = 1 then 2 ^ 40 else 0) 0x1000

/-- The interpreter jumps; the AArch64 code goes on to the next instruction. -/
theorem jset_high_not_taken :
    jumpOf true Setup.plain World.quiet highBit jsetOnes = (true, highBit.jumpBy jsetOnes.off) ∧
    ∃ code, AArch64.emitCondJump .plain jsetOnes true 0x1000 0 4 = some code ∧
      AArch64.Follows .plain code (.entered highBit) highBit.reg none highBit := by
  refine ⟨jumpOf_eq (t := true) (by decide), ?_⟩
  have ht : takenAt true jsetOnes (highBit.reg jsetOnes.dstReg.toNat)
      (AArch64.condSource jsetOnes highBit.reg) = some false := by decide
  exact AArch64.follows_emitCondJump 0x1000 0 4 (AArch64.mirrors_entered highBit) (by decide)
    (by decide) ht

end Bpfvm.Jit
