import Bpfvm.Cpu.FrameStack
import Bpfvm.Jit.Agreement
import Bpfvm.Jit.Coherence

/-!
# Control flow of a compiled fragment

Where the code that a back end emits for one instruction goes on: at the code of another
instruction of the fragment, outside of it with `pc_` set, or behind the last instruction. This is
compared with the address that the interpreter goes on at.
-/
namespace Bpfvm.Jit
open Memory Cpu HostCode Machine

inductive Backend where
  | x86
  | aarch64
  deriving DecidableEq, Repr

open Backend

/-! ## What the back ends accept -/

/-- The `imm` of the atomic operations that a back end emits. On AArch64 `BPF_FETCH` is taken out of
the operation, and what remains is kept in eight bits. -/
def Backend.atomics (b : Backend) (imm : U32) : Bool :=
  match b with
  | .x86 => imm ∈ ([0x00, 0x40, 0x50, 0xa0, 0x01, 0x41, 0x51, 0xa1, 0xe1, 0xf1] : List U32)
  | .aarch64 =>
    if imm &&& 1 ≠ 0 ∧ imm ≠ 0xe1 ∧ imm ≠ 0xf1 then
      (imm &&& ~~~1).truncate 8 ∈ ([0x00, 0x40, 0x50, 0xa0] : List (BitVec 8))
    else imm ∈ ([0x00, 0x40, 0x50, 0xa0, 0xe1, 0xf1] : List U32)

/-- Whether `emit_ld`, `emit_ldx`, `emit_st`, `emit_stx`, `emit_alu` or `emit_jmp` returns
`true`. -/
def Backend.emits (b : Backend) (insn : BpfInsn) : Bool :=
  let mode := insn.code &&& 0xe0
  let size := insn.code &&& 0x18
  match (insn.code &&& 0x07).toNat with
  | 0 => isImm64 insn && decide (insn.dstReg.toNat < 10)
  | 1 => mode == 0x60 || mode == 0x80 && size != 0x18
  | 2 => mode == 0x60
  | 3 => mode == 0x60 || mode == 0xc0 && (size == 0x18 || size == 0x00) && b.atomics insn.imm
  | 4 => match b with
    | .x86 => (X86.emitAlu insn false).isSome
    | .aarch64 => (AArch64.emitAlu insn false).isSome
  | 7 => match b with
    | .x86 => (X86.emitAlu insn true).isSome
    | .aarch64 => (AArch64.emitAlu insn true).isSome
  | _ => match b with
    | .x86 => (X86.condOf (aluOp insn)).isSome
    | .aarch64 => (AArch64.condOf (aluOp insn)).isSome

/-! ## Where the code of an instruction goes on -/

/-- What the back end compares the destination with. -/
def Backend.source (b : Backend) (insn : BpfInsn) (r : Regs) : U64 :=
  match b with
  | .x86 => srcValue insn r
  | .aarch64 => AArch64.condSource insn r

/-- Whether the code of a jump is left by its branch. -/
def Backend.jumps (b : Backend) (insn : BpfInsn) (r : Regs) : Bool :=
  match (insn.code &&& 0x07).toNat with
  | 5 => aluOp insn = 0 || takenAt true insn (r insn.dstReg.toNat) (b.source insn r) = some true
  | 6 => aluOp insn = 0 || takenAt false insn (r insn.dstReg.toNat) (b.source insn r) = some true
  | _ => false

variable {insn : BpfInsn} {b : Backend} {r : Regs} {is64 : Bool}

theorem jumps_jmp (h : (insn.code &&& 0x07).toNat = 5) :
    b.jumps insn r = (decide (aluOp insn = 0) ||
      decide (takenAt true insn (r insn.dstReg.toNat) (b.source insn r) = some true)) := by
  simp only [jumps, h]

theorem jumps_jmp32 (h : (insn.code &&& 0x07).toNat = 6) :
    b.jumps insn r = (decide (aluOp insn = 0) ||
      decide (takenAt false insn (r insn.dstReg.toNat) (b.source insn r) = some true)) := by
  simp only [jumps, h]

theorem jumps_other (h5 : (insn.code &&& 0x07).toNat ≠ 5) (h6 : (insn.code &&& 0x07).toNat ≠ 6) :
    b.jumps insn r = false := by
  unfold jumps
  split
  · exact absurd ‹_› h5
  · exact absurd ‹_› h6
  · rfl

inductive Goes where
  /-- To the code of instruction `k` of the fragment. -/
  | native (k : ℕ)
  /-- Out of the fragment, to the instruction at `pc`. -/
  | leaves (pc : U64)
  /-- Out of the fragment without a new `pc_`. -/
  | stops
  /-- Behind the last instruction. -/
  | astray
  deriving DecidableEq, Repr

/-- How far the host branches of a fragment have to go: from the branch of instruction `i` to the
code of instruction `k`, and to the way out in the prologue (0 where a call leaves through a
register). -/
structure HostSpan where
  native : ℕ → ℕ → ℤ
  out : ℕ → ℤ

/-- What `patch_branch_cond` and `patch_branch_uncond` leave of a displacement in bytes: 32 bits, or
26 bits of words. -/
def Backend.cut : Backend → ℤ → ℤ
  | .x86, d => d.bmod (2 ^ 32)
  | .aarch64, d => d.bmod (2 ^ 28)

namespace Fragment

/-- Behind the code of instruction `i`. -/
def follow (f : Fragment) (i : ℕ) : Goes :=
  match f.fallsTo i with
  | some k => .native k
  | none => .astray

/-- A branch to index `t`, which is patched to the code of `t` or leaves the fragment. -/
def branch (f : Fragment) (t : ℤ) : Goes :=
  if outside f.size t then .leaves (f.addr t) else .native t.toNat

/-- `emit_exit`, from the 56 bytes it reads: a return address of 0 ends the vm. -/
def exitGoes (c : Setup) (m : Machine) : Option (List Byte) → Goes
  | none => .stops
  | some frame => if word frame 16 = 0 then .stops else .leaves (m.inlineExit c frame).pc

/-- Where the code of instruction `i` goes on when the vm would interpret it in `m` and its accesses
to memory succeed. -/
def goes (b : Backend) (c : Setup) (w : World) (f : Fragment) (i : ℕ) (m : Machine) : Goes :=
  let insn := f.insn i
  match insn.kind with
  | .plain =>
    match jumpTarget insn i with
    | some t => if b.jumps insn m.reg then f.branch t else f.follow i
    | none => f.follow i
  | .softfp => f.follow i
  | .syscall =>
    match m.helperDoSyscall w insn.imm with
    | (true, _) => f.follow i
    | (false, m') => .leaves m'.pc
  | .call => .leaves (f.callee i)
  | .callIndirect => .leaves (m.reg insn.dstReg.toNat)
  | .exit => exitGoes c m (m.load c (m.reg 10) 56).1

/-- The address of the instruction that the interpreter executes next, from `m` before an
instruction and `m'` behind it. A system call that asks for a restart is executed again. -/
def nextPc (w : World) (m m' : Machine) (insn : BpfInsn) : U64 :=
  if m.outcome w insn = .restart insn.imm ∧ m'.restartPc ≠ 0 then m'.restartPc else m'.pc + 8

/-- Control goes to the instruction at `a`. -/
def Leads (f : Fragment) (a : U64) : Goes → Prop
  | .native k => f.found.reachable k = true ∧ f.addr k = a
  | .leaves pc => pc = a
  | .stops | .astray => False

/-- The code of instruction `i` is to go on where the interpreter does. -/
def Agrees (b : Backend) (c : Setup) (w : World) (f : Fragment) (i : ℕ) (m m' : Machine) : Prop :=
  f.Leads (nextPc w m m' (f.insn i)) (f.goes b c w i m)

/-- Where control comes to: a branch whose displacement has been cut goes to whatever lies there.
Control that falls through needs no branch. -/
def lands (b : Backend) (h : HostSpan) (i : ℕ) (jumps : Bool) : Goes → Goes
  | .native k => if jumps && b.cut (h.native i k) != h.native i k then .astray else .native k
  | .leaves pc => if b.cut (h.out i) = h.out i then .leaves pc else .astray
  | g => g

/-- The code of instruction `i` comes to where the interpreter goes on. -/
def Arrives (b : Backend) (h : HostSpan) (c : Setup) (w : World) (f : Fragment) (i : ℕ)
    (m m' : Machine) : Prop :=
  f.Leads (nextPc w m m' (f.insn i)) (lands b h i (b.jumps (f.insn i) m.reg) (f.goes b c w i m))

/-- The displacement of the branch that is taken has room in the branch. -/
def Reaches (b : Backend) (h : HostSpan) (c : Setup) (w : World) (f : Fragment) (i : ℕ)
    (m : Machine) : Prop :=
  match f.goes b c w i m with
  | .native k => b.jumps (f.insn i) m.reg = true → b.cut (h.native i k) = h.native i k
  | .leaves _ => b.cut (h.out i) = h.out i
  | .stops | .astray => True

theorem arrives_iff {b : Backend} {h : HostSpan} {c : Setup} {w : World} {f : Fragment} {i : ℕ}
    {m m' : Machine} :
    f.Arrives b h c w i m m' ↔ f.Agrees b c w i m m' ∧ f.Reaches b h c w i m := by
  unfold Arrives Agrees Reaches
  cases f.goes b c w i m with
  | native k =>
    cases b.jumps (f.insn i) m.reg <;> by_cases hcut : b.cut (h.native i k) = h.native i k <;>
      simp [lands, hcut, Leads]
  | leaves pc => by_cases hcut : b.cut (h.out i) = h.out i <;> simp [lands, hcut, Leads]
  | stops | astray => simp [lands, Leads]

end Fragment

/-! ## Addresses -/

namespace Fragment
variable {f : Fragment} {i n : ℕ}

/-- The code of the next instruction lies behind that of `i`, unless the segment ends there. -/
theorem fallsTo_eq (hi : f.found.reachable i = true) (hn : fallThrough (f.insn i) i = some n) :
    f.fallsTo i = if n < f.limit then some n else none := by
  have hgap : ∀ k, i < k → k < n → f.found.reachable k = false := by
    intro k hik hkn
    have heq := fallThrough_eq hn
    by_cases himm : isImm64 (f.insn i) = true
    · rw [if_pos himm] at heq
      obtain rfl : k = i + 1 := by omega
      exact not_reachable_slot hi himm
    · rw [if_neg himm] at heq
      omega
  have hlt : i < n := by
    have heq := fallThrough_eq hn
    split_ifs at heq <;> omega
  unfold fallsTo
  split_ifs with hlimit
  · have hr : f.found.reachable n = true := reachable_next hi hn hlimit
    refine List.find?_range_eq_some.mpr ⟨by simp [hlt, hr], List.mem_range.mpr (reachable_lt hr),
      fun k hk => ?_⟩
    by_cases hik : i < k
    · simp [hgap k hik hk]
    · simp [hik]
  · refine List.find?_eq_none.mpr fun k _ hk => ?_
    obtain ⟨hik, hr⟩ := Bool.and_eq_true_iff.mp hk
    have hkl := reachable_lt_limit hr
    rw [hgap k (of_decide_eq_true hik) (by omega)] at hr
    cases hr

theorem addr_add (f : Fragment) (t k : ℤ) : f.addr (t + k) = f.addr t + BitVec.ofInt 64 k * 8 := by
  have hmul : BitVec.ofInt 64 (k * 8) = BitVec.ofInt 64 k * 8 := BitVec.ofInt_mul ..
  rw [addr, addr, add_mul, BitVec.ofInt_add, hmul, BitVec.add_assoc]

theorem addr_eq_iff (f : Fragment) (t : ℤ) {k : ℤ} (h : -2 ^ 32 ≤ k ∧ k < 2 ^ 32) :
    f.addr (t + k) = f.addr t ↔ k = 0 := by
  rw [addr_add]
  constructor
  · intro heq
    have hzero : BitVec.ofInt 64 (k * 8) = 0 := by
      have hmul : BitVec.ofInt 64 (k * 8) = BitVec.ofInt 64 k * 8 := BitVec.ofInt_mul ..
      rw [hmul]
      simpa using heq
    have hint := congrArg BitVec.toInt hzero
    rw [BitVec.toInt_ofInt, Int.bmod_eq_of_le (by omega) (by omega)] at hint
    have : (0 : U64).toInt = 0 := rfl
    omega
  · rintro rfl
    simp

/-- The interpreter's next address behind a jump by `off`. -/
theorem jumpBy_next {m : Machine} (hpc : m.pc = f.addr i) {w : ℕ} (off : BitVec w) :
    (m.jumpBy off).pc + 8 = f.addr (i + 1 + off.toInt) := by
  have hoff : off.signExtend 64 = BitVec.ofInt 64 off.toInt := rfl
  have hone : BitVec.ofInt 64 1 * 8 = (8 : U64) := by decide
  rw [jumpBy, hpc, hoff, add_right_comm, addr_add, addr_add, hone]

theorem next_pc {pc : U64} (hpc : pc = f.addr i) : pc + 8 = f.addr (i + 1 : ℕ) := by
  have hone : BitVec.ofInt 64 1 * 8 = (8 : U64) := by decide
  rw [hpc, Nat.cast_add, Nat.cast_one, addr_add, hone]

end Fragment

/-! ## The interpreter's next address -/

section
variable {c : Setup} {w : World} {m m' : Machine} {p : HostPtr}

/-- The classes without jumps, `lddw` apart. -/
theorem execute_pc (h0 : (insn.code &&& 0x07).toNat ≠ 0) (h5 : (insn.code &&& 0x07).toNat ≠ 5)
    (h6 : (insn.code &&& 0x07).toNat ≠ 6) (h : m.execute c w insn p = (true, m')) :
    m'.pc = m.pc := by
  unfold execute at h
  split at h
  · exact absurd ‹_› h0
  · exact congrArg Prod.fst (ldx_place h)
  · exact congrArg Prod.fst (storeValue_place h)
  · exact congrArg Prod.fst (stx_place h)
  · exact congrArg Prod.fst (withRegs_place h)
  · exact absurd ‹_› h5
  · exact absurd ‹_› h6
  · exact congrArg Prod.fst (withRegs_place h)

/-- `vm::jmp` takes a jump if the x86 back end does. -/
theorem jmp_eq (h5 : (insn.code &&& 0x07).toNat = 5) (hk : insn.kind = .plain)
    (h : m.jmp c w insn = (true, m')) :
    m' = if x86.jumps insn m.reg then m.jumpBy insn.off else m := by
  have hjumps : x86.jumps insn m.reg = (decide ((insn.code &&& 0xf0).toNat = 0) ||
      decide (taken (insn.code &&& 0xf0).toNat (m.reg insn.dstReg.toNat)
        (if insn.useReg then m.reg insn.srcReg.toNat else insn.imm.signExtend 64) = some true)) :=
    jumps_jmp h5
  unfold BpfInsn.kind at hk
  rw [if_pos h5] at hk
  unfold jmp at h
  rw [hjumps]
  dsimp only at h
  generalize (insn.code &&& 0xf0).toNat = op at h hk ⊢
  split at h
  · exact (Prod.mk.inj h).2.symm
  · simp only at hk
    split_ifs at h hk
    exact (Prod.mk.inj h).2.symm
  · cases hk
  next h0 _ _ =>
    obtain rfl := (Prod.mk.inj h).2
    simp [show op ≠ 0 from h0]

theorem jmp32_eq (h6 : (insn.code &&& 0x07).toNat = 6) (h : m.jmp32 insn = (true, m')) :
    m' = if x86.jumps insn m.reg then
      (if insn.code &&& 0xf0 = 0 then m.jumpBy insn.imm else m.jumpBy insn.off) else m := by
  have hjumps : x86.jumps insn m.reg = (decide ((insn.code &&& 0xf0).toNat = 0) ||
      decide (taken (insn.code &&& 0xf0).toNat ((m.reg insn.dstReg.toNat).truncate 32)
        ((srcValue insn m.reg).truncate 32) = some true)) :=
    jumps_jmp32 h6
  have hzero : insn.code &&& 0xf0 = 0 ↔ (insn.code &&& 0xf0).toNat = 0 :=
    BitVec.toNat_inj.symm
  unfold jmp32 at h
  rw [hjumps, truncate_srcValue]
  simp only [hzero]
  dsimp only at h
  generalize (insn.code &&& 0xf0).toNat = op at h ⊢
  split at h
  · exact (Prod.mk.inj h).2.symm
  · cases h
  · cases h
  next h0 _ _ =>
    obtain rfl := (Prod.mk.inj h).2
    simp [show op ≠ 0 from h0]

end

/-! ## Both compared -/

/-- On AArch64 a `JSET` of a 64-bit register with an immediate that is decided by the upper half. -/
def Backend.Misjudges (b : Backend) (insn : BpfInsn) (r : Regs) : Prop :=
  b = .aarch64 ∧ (insn.code &&& 0x07).toNat = 5 ∧ aluOp insn = 0x40 ∧ insn.useReg = false ∧
    r insn.dstReg.toNat &&& insn.imm.signExtend 64 ≠ 0 ∧
    r insn.dstReg.toNat &&& insn.imm.zeroExtend 64 = 0

theorem jumps_iff (b : Backend) (insn : BpfInsn) (r : Regs) :
    b.jumps insn r = x86.jumps insn r ↔ ¬ b.Misjudges insn r := by
  cases b with
  | x86 => exact iff_of_true rfl fun h => by cases h.1
  | aarch64 =>
    by_cases himm : aluOp insn = 0x40 ∧ insn.useReg = false
    · have hat (is64 : Bool) : (decide (takenAt is64 insn (r insn.dstReg.toNat)
          (AArch64.condSource insn r) = some true) = decide (takenAt is64 insn
            (r insn.dstReg.toNat) (srcValue insn r) = some true)) ↔
          ¬(is64 ∧ aluOp insn = 0x40 ∧ insn.useReg = false ∧
            r insn.dstReg.toNat &&& insn.imm.signExtend 64 ≠ 0 ∧
            r insn.dstReg.toNat &&& insn.imm.zeroExtend 64 = 0) := by
        have hop : aluOp insn ∈ jumpConditions := by rw [himm.1]; decide
        obtain ⟨t, ht⟩ := exists_takenAt is64 hop (r insn.dstReg.toNat) (srcValue insn r)
        obtain ⟨t', ht'⟩ := exists_takenAt is64 hop (r insn.dstReg.toNat)
          (AArch64.condSource insn r)
        rw [← AArch64.takenAt_condSource_iff ht ht', ht, ht']
        cases t <;> cases t' <;> simp
      unfold Backend.Misjudges
      by_cases h5 : (insn.code &&& 0x07).toNat = 5
      · rw [jumps_jmp h5, jumps_jmp h5, himm.1]
        exact (hat true).trans (not_congr
          ⟨fun h => ⟨rfl, h5, rfl, h.2.2⟩, fun h => ⟨rfl, himm.1, h.2.2.2⟩⟩)
      · refine iff_of_true ?_ fun h => h5 h.2.1
        by_cases h6 : (insn.code &&& 0x07).toNat = 6
        · rw [jumps_jmp32 h6, jumps_jmp32 h6, himm.1]
          exact (hat false).mpr (by simp)
        · rw [jumps_other h5 h6, jumps_other h5 h6]
    · have hsource : AArch64.condSource insn r = srcValue insn r :=
        if_neg fun h => himm ⟨h.1, by simpa using h.2⟩
      refine iff_of_true ?_ fun h => himm ⟨h.2.2.1, h.2.2.2.1⟩
      unfold jumps source
      rw [hsource]

/-- What is misjudged is not jumped. -/
theorem Backend.Misjudges.jumps (h : b.Misjudges insn r) :
    b.jumps insn r = false ∧ x86.jumps insn r = true := by
  have hne := mt (jumps_iff b insn r).mp (not_not.mpr h)
  obtain ⟨rfl, h5, hop, hreg, -, hzero⟩ := h
  have hsource : AArch64.condSource insn r = insn.imm.zeroExtend 64 :=
    if_pos ⟨hop, by simp [hreg]⟩
  have hno : aarch64.jumps insn r = false := by
    rw [jumps_jmp h5, source, hsource, hop, takenAt, hop]
    change (decide (0x40 = 0) || decide (some (_ != _) = some true)) = false
    rw [hzero]
    rfl
  rw [hno] at hne ⊢
  exact ⟨rfl, Bool.of_not_eq_false (Ne.symm hne)⟩

namespace Fragment
variable {c : Setup} {w : World} {f : Fragment} {i : ℕ} {m m' : Machine} {p : HostPtr}
  {a : U64}

theorem nextPc_eq (hk : insn.kind ≠ .syscall) : nextPc w m m' insn = m'.pc + 8 := by
  have hout : m.outcome w insn = .plain := if_neg fun h => hk (BpfInsn.kind_eq_syscall.mpr h)
  exact if_neg fun h => by simp [hout] at h

theorem leads_follow {n : ℕ} (hi : f.found.reachable i = true)
    (hn : fallThrough (f.insn i) i = some n) :
    f.Leads a (f.follow i) ↔ n < f.limit ∧ f.addr n = a := by
  unfold follow
  rw [fallsTo_eq hi hn]
  split_ifs with hlt
  · exact and_congr_left fun _ => iff_of_true (reachable_next hi hn hlt) hlt
  · exact iff_of_false id fun h => hlt h.1

theorem leads_branch {t : ℤ} (hi : f.found.reachable i = true)
    (ht : jumpTarget (f.insn i) i = some t) : f.Leads a (f.branch t) ↔ f.addr t = a := by
  unfold branch
  split_ifs with ho
  · exact Iff.rfl
  · have hin : 0 ≤ t ∧ t < f.size := by simpa [outside] using ho
    have hcast : ((t.toNat : ℕ) : ℤ) = t := Int.toNat_of_nonneg hin.1
    change f.found.reachable t.toNat = true ∧ f.addr t.toNat = a ↔ _
    rw [hcast]
    exact and_iff_right (reachable_jump hi ht hin.1 hin.2)

/-- How a plain instruction `insn` at index `i` can go on from `m`: straight on, by a jump, or as a
conditional jump. -/
def PlainCases (f : Fragment) (i : ℕ) (insn : BpfInsn) (m m' : Machine) : Prop :=
  (jumpTarget insn i = none ∧ (∀ b : Backend, b.jumps insn m.reg = false) ∧
    ∃ n, fallThrough insn i = some n ∧ m'.pc + 8 = f.addr n) ∨
  (∃ t, jumpTarget insn i = some t ∧ fallThrough insn i = none ∧
    (∀ b : Backend, b.jumps insn m.reg = true) ∧ m'.pc + 8 = f.addr t) ∨
  (jumpTarget insn i = some (i + 1 + insn.off.toInt) ∧ fallThrough insn i = some (i + 1) ∧
    m'.pc + 8 = f.addr (if x86.jumps insn m.reg then i + 1 + insn.off.toInt
      else (i + 1 : ℕ)))

theorem plain_jmp (hpc : m.pc = f.addr i) (h5 : (insn.code &&& 0x07).toNat = 5)
    (hk : insn.kind = .plain) (hex : m.jmp c w insn = (true, m')) : PlainCases f i insn m m' := by
  have hm' := jmp_eq h5 hk hex
  unfold BpfInsn.kind at hk
  rw [if_pos h5] at hk
  by_cases h0 : (insn.code &&& 0xf0).toNat = 0
  · have hjumps (b : Backend) : b.jumps insn m.reg = true := by
      rw [jumps_jmp h5, aluOp, h0]
      rfl
    refine .inr (.inl ⟨i + 1 + insn.off.toInt, ?_, ?_, hjumps, ?_⟩)
    · simp only [jumpTarget, h5, h0]
    · simp only [fallThrough, h5, h0]
    · rw [hm', hjumps, if_pos rfl, jumpBy_next hpc]
  by_cases h80 : (insn.code &&& 0xf0).toNat = 0x80
  · have hjumps (b : Backend) : b.jumps insn m.reg = false := by
      rw [jumps_jmp h5, aluOp, h80, takenAt, aluOp, h80]
      rfl
    refine .inl ⟨?_, hjumps, i + 1, ?_, ?_⟩
    · simp only [jumpTarget, h5, h80]
    · simp only [fallThrough, h5, h80]
    · rw [hm', hjumps]
      exact next_pc hpc
  have h90 : (insn.code &&& 0xf0).toNat ≠ 0x90 := by
    intro h90
    simp only [h90] at hk
    cases hk
  refine .inr (.inr ⟨?_, ?_, ?_⟩)
  · simp only [jumpTarget, h5]
  · simp only [fallThrough, h5]
  · rw [hm']
    cases x86.jumps insn m.reg with
    | true => exact jumpBy_next hpc _
    | false => exact next_pc hpc

theorem plain_jmp32 (hpc : m.pc = f.addr i) (h6 : (insn.code &&& 0x07).toNat = 6)
    (hex : m.jmp32 insn = (true, m')) : PlainCases f i insn m m' := by
  have hm' := jmp32_eq h6 hex
  by_cases h0 : insn.code &&& 0xf0 = 0
  · have hjumps (b : Backend) : b.jumps insn m.reg = true := by
      rw [jumps_jmp32 h6, aluOp, h0]
      rfl
    refine .inr (.inl ⟨i + 1 + insn.imm.toInt, ?_, ?_, hjumps, ?_⟩)
    · simp only [jumpTarget, h6, h0, if_true]
    · simp only [fallThrough, h6, h0, if_true]
    · rw [hm', hjumps, if_pos rfl, if_pos h0, jumpBy_next hpc]
  · refine .inr (.inr ⟨?_, ?_, ?_⟩)
    · simp only [jumpTarget, h6, h0, if_false]
    · simp only [fallThrough, h6, h0, if_false]
    · rw [hm', if_neg h0]
      cases x86.jumps insn m.reg with
      | true => exact jumpBy_next hpc _
      | false => exact next_pc hpc

theorem plain_cases (hpc : m.pc = f.addr i) (hk : insn.kind = .plain)
    (hld : (insn.code &&& 0x07).toNat = 0 → isImm64 insn = true)
    (hex : m.execute c w insn p = (true, m')) : PlainCases f i insn m m' := by
  by_cases h5 : (insn.code &&& 0x07).toNat = 5
  · exact plain_jmp hpc h5 hk (by simpa only [execute, h5] using hex)
  by_cases h6 : (insn.code &&& 0x07).toNat = 6
  · exact plain_jmp32 hpc h6 (by simpa only [execute, h6] using hex)
  have hnone : jumpTarget insn i = none := by
    unfold jumpTarget
    split
    · exact absurd ‹_› h5
    · exact absurd ‹_› h6
    · rfl
  by_cases h0 : (insn.code &&& 0x07).toNat = 0
  · have hlddw : m.ld c insn p = (true, m') := by simpa only [execute, h0] using hex
    refine .inl ⟨hnone, fun _ => jumps_other h5 h6, i + 2, ?_, ?_⟩
    · simp only [fallThrough, h0, hld h0, if_true]
    · rw [show m'.pc = m.pc + 8 from congrArg Prod.fst (ld_place hlddw), next_pc hpc]
      exact next_pc rfl
  · refine .inl ⟨hnone, fun _ => jumps_other h5 h6, i + 1, ?_, ?_⟩
    · unfold fallThrough
      split
      · exact absurd ‹_› h0
      · exact absurd ‹_› h5
      · exact absurd ‹_› h6
      · rfl
    · rw [execute_pc h0 h5 h6 hex]
      exact next_pc hpc

/-- A plain instruction goes on where the interpreter does, unless the segment ends behind it or the
back end misjudges it. -/
theorem agrees_plain (hi : f.found.reachable i = true) (hk : (f.insn i).kind = .plain)
    (h : PlainCases f i (f.insn i) m m') :
    f.Agrees b c w i m m' ↔
      (b.jumps (f.insn i) m.reg = false → ∀ n, fallThrough (f.insn i) i = some n → n < f.limit) ∧
      (b.Misjudges (f.insn i) m.reg → (f.insn i).off = 0) := by
  have hnext : nextPc w m m' (f.insn i) = m'.pc + 8 := nextPc_eq (by simp [hk])
  unfold Agrees goes
  rw [hnext]
  simp only [hk]
  rcases h with ⟨ht, hjumps, n, hn, heq⟩ | ⟨t, ht, hn, hjumps, heq⟩ | ⟨ht, hn, heq⟩
  · have hnot : ¬ b.Misjudges (f.insn i) m.reg :=
      (jumps_iff b _ _).mp ((hjumps b).trans (hjumps .x86).symm)
    simp only [ht, leads_follow hi hn, hjumps b, hn, heq]
    simp [hnot]
  · have hnot : ¬ b.Misjudges (f.insn i) m.reg :=
      (jumps_iff b _ _).mp ((hjumps b).trans (hjumps .x86).symm)
    simp only [ht, hjumps b, if_true, leads_branch hi ht, heq]
    simp [hnot]
  · simp only [ht]
    cases hb : b.jumps (f.insn i) m.reg with
    | true =>
      have hnot : ¬ b.Misjudges (f.insn i) m.reg := fun h => by simp [h.jumps.1] at hb
      have hx86 := hb.symm.trans ((jumps_iff b _ _).mpr hnot)
      rw [← hx86, if_pos rfl] at heq
      rw [if_pos rfl, leads_branch hi ht, heq]
      simp [hnot]
    | false =>
      have hiff : f.addr (i + 1 : ℕ) = f.addr (if x86.jumps (f.insn i) m.reg then
          i + 1 + (f.insn i).off.toInt else (i + 1 : ℕ)) ↔
          (b.Misjudges (f.insn i) m.reg → (f.insn i).off = 0) := by
        by_cases hmis : b.Misjudges (f.insn i) m.reg
        · have hoff : (f.insn i).off.toInt = 0 ↔ (f.insn i).off = 0 := BitVec.toInt_inj (y := 0)
          have hlt := (f.insn i).off.toInt_lt
          have hle := (f.insn i).off.le_toInt
          rw [if_pos hmis.jumps.2, ← hoff, imp_iff_right hmis, eq_comm]
          exact addr_eq_iff f _ ⟨by omega, by omega⟩
        · have hx86 := hb.symm.trans ((jumps_iff b _ _).mpr hmis)
          rw [← hx86, if_neg Bool.false_ne_true]
          exact iff_of_true rfl fun h => absurd h hmis
      rw [if_neg Bool.false_ne_true, leads_follow hi hn, hn, heq, hiff]
      simp

/-! ### The code of a conditional jump -/

/-- Where control is behind the host code of instruction `i`, from the way it was left; nowhere if
it was left for a failed access or a fault. -/
def reached (f : Fragment) (i : ℕ) (pc : U64) : Option Exit → Option Goes
  | none => f.follow i
  | some (.target t) => some (.native t.toNat)
  | some .flushAndExit => some (.leaves pc)
  | some _ => none

/-- A conditional jump of width `is64`. -/
structure IsCondJump (insn : BpfInsn) (is64 : Bool) : Prop where
  width : (insn.code &&& 0x07).toNat = if is64 then 5 else 6
  op : aluOp insn ∈ jumpConditions
  dst : insn.dstReg.toNat ≤ 10
  src : insn.srcReg.toNat ≤ 10

theorem IsCondJump.plain (h : IsCondJump insn is64) :
    insn.kind = .plain ∧ jumpTarget insn i = some (i + 1 + insn.off.toInt) := by
  obtain ⟨hwidth, hop, -, -⟩ := h
  unfold BpfInsn.kind jumpTarget
  unfold aluOp at hop
  have hzero : insn.code &&& 0xf0 = 0 ↔ (insn.code &&& 0xf0).toNat = 0 := BitVec.toNat_inj.symm
  simp only [hzero, hwidth]
  generalize (insn.code &&& 0xf0).toNat = op at hop ⊢
  cases is64 with
  | false =>
    have h0 : op ≠ 0 := fun h => by simp [h, jumpConditions] at hop
    simp [h0]
  | true =>
    have h80 : op ≠ 0x80 := fun h => by simp [h, jumpConditions] at hop
    have h90 : op ≠ 0x90 := fun h => by simp [h, jumpConditions] at hop
    simp

theorem IsCondJump.jumps {t : Bool} (h : IsCondJump insn is64)
    (ht : takenAt is64 insn (r insn.dstReg.toNat) (b.source insn r) = some t) :
    b.jumps insn r = t := by
  have h0 : aluOp insn ≠ 0 := fun h0 => by simpa [h0, jumpConditions] using h.op
  cases is64 with
  | false => simp [jumps_jmp32 h.width, h0, ht]
  | true => simp [jumps_jmp h.width, h0, ht]

/-- The exits of the code of a conditional jump are where `goes` leads. -/
theorem goes_condJump {t : Bool} (hj : IsCondJump (f.insn i) is64)
    (ht : takenAt is64 (f.insn i) (m.reg (f.insn i).dstReg.toNat) (b.source (f.insn i) m.reg) =
      some t) (vm : Machine) :
    some (f.goes b c w i m) = f.reached i
      (condVm f.size (i + 1 + (f.insn i).off.toInt) t vm
        (guestAddr f.gpa (i + 1 + (f.insn i).off.toInt))).pc
      (condExit f.size (i + 1 + (f.insn i).off.toInt) t) := by
  obtain ⟨hkind, htarget⟩ := hj.plain (i := i)
  have haddr : guestAddr f.gpa (i + 1 + (f.insn i).off.toInt) =
      f.addr (i + 1 + (f.insn i).off.toInt) := by
    have hmul (t : ℤ) : BitVec.ofInt 64 (t * 8) = BitVec.ofInt 64 t * 8 := BitVec.ofInt_mul ..
    rw [guestAddr, addr, hmul]
  unfold goes condExit condVm
  simp only [hkind, htarget, hj.jumps ht]
  cases t with
  | false => rfl
  | true =>
    unfold branch
    cases outside f.size (i + 1 + (f.insn i).off.toInt) with
    | false => rfl
    | true =>
      rw [haddr]
      rfl

/-- The code of either back end for a conditional jump leads where `goes` says. -/
theorem goes_code {P : Platform} {s : X86.State} {s' : AArch64.State}
    (hj : IsCondJump (f.insn i) is64) (hm : X86.Mirrors m.reg s) (hm' : AArch64.Mirrors m.reg s') :
    (∃ code t e, X86.emitCondJump P.layout (f.insn i) is64 f.gpa i f.size = some code ∧
      Ends (X86.sem P) code 0 s (t, e) ∧ f.reached i t.vm.pc e = f.goes .x86 c w i m) ∧
    ∃ code t e, AArch64.emitCondJump P.layout (f.insn i) is64 f.gpa i f.size = some code ∧
      Ends (AArch64.sem P) code 0 s' (t, e) ∧
      f.reached i t.vm.pc e = f.goes .aarch64 c w i m := by
  constructor
  · obtain ⟨b, hb⟩ := exists_takenAt is64 hj.op (m.reg (f.insn i).dstReg.toNat)
      (srcValue (f.insn i) m.reg)
    obtain ⟨code, hcode, t, hends, -, hvm⟩ :=
      X86.follows_emitCondJump (P := P) f.gpa i f.size hm hj.dst hj.src hb
    refine ⟨code, t, _, hcode, hends, ?_⟩
    rw [hvm]
    exact (goes_condJump hj hb s.vm).symm
  · obtain ⟨b, hb⟩ := exists_takenAt is64 hj.op (m.reg (f.insn i).dstReg.toNat)
      (AArch64.condSource (f.insn i) m.reg)
    obtain ⟨code, hcode, t, hends, -, hvm⟩ :=
      AArch64.follows_emitCondJump (P := P) f.gpa i f.size hm' hj.dst hj.src hb
    refine ⟨code, t, _, hcode, hends, ?_⟩
    rw [hvm]
    exact (goes_condJump hj hb s'.vm).symm

def jsets : Fragment := ⟨0x1000, fun _ => jsetOnes, 4, by decide⟩

theorem goes_code_jsets :
    (∃ code t e, X86.emitCondJump .plain jsetOnes true 0x1000 0 jsets.size = some code ∧
      Ends (X86.sem .plain) code 0 (.entered counting) (t, e) ∧
      jsets.reached 0 t.vm.pc e = jsets.goes .x86 .plain .quiet 0 counting) ∧
    ∃ code t e, AArch64.emitCondJump .plain jsetOnes true 0x1000 0 jsets.size = some code ∧
      Ends (AArch64.sem .plain) code 0 (.entered counting) (t, e) ∧
      jsets.reached 0 t.vm.pc e = jsets.goes .aarch64 .plain .quiet 0 counting := by
  have hj : IsCondJump (jsets.insn 0) true := ⟨by decide, by decide, by decide, by decide⟩
  exact goes_code hj (X86.mirrors_entered counting) (AArch64.mirrors_entered counting)

/-! ### Calls -/

/-- The code of a call of some kind, or of `EXIT`. -/
theorem kind_code (hk : insn.kind ≠ .plain) : (insn.code &&& 0x07).toNat = 5 ∧
    (insn.code &&& 0xf0).toNat = if insn.kind = .exit then 0x90 else 0x80 := by
  unfold BpfInsn.kind at hk ⊢
  by_cases h5 : (insn.code &&& 0x07).toNat = 5
  · refine ⟨h5, ?_⟩
    rw [if_pos h5] at hk ⊢
    generalize (insn.code &&& 0xf0).toNat = op at hk ⊢
    split at hk
    · split_ifs <;> simp_all
    · rfl
    · exact absurd rfl hk
  · rw [if_neg h5] at hk
    exact absurd rfl hk

theorem fallThrough_call (hk : insn.kind ≠ .plain ∧ insn.kind ≠ .exit) :
    fallThrough insn i = some (i + 1) := by
  obtain ⟨h5, h80⟩ := kind_code hk.1
  simp only [fallThrough, h5, h80, hk.2, if_false]

theorem execute_call (hk : insn.kind ≠ .plain ∧ insn.kind ≠ .exit) :
    m.execute c w insn p =
      if insn.useReg then
        match m.pushFrame c (m.pc + 8) (m.reg insn.dstReg.toNat) false false with
        | (false, m) => (false, m)
        | (true, m) => (true, { m with pc := m.reg insn.dstReg.toNat - 8 })
      else if insn.srcReg = 0 then m.doSyscall w insn.imm
      else if insn.srcReg = 1 then
        match m.pushFrame c (m.pc + 8) (m.pc + 8 + insn.imm.signExtend 64 * 8) false false with
        | (false, m) => (false, m)
        | (true, m) => (true, m.jumpBy insn.imm)
      else if insn.srcReg = 2 then w.softfp insn.imm m
      else (true, m) := by
  obtain ⟨h5, h80⟩ := kind_code hk.1
  rw [execute, h5]
  change m.jmp c w insn = _
  rw [jmp, h80, if_neg hk.2]
  rfl

/-- The operands of the calls. -/
theorem kind_operands :
    (insn.kind = .callIndirect → insn.useReg = true) ∧
    (insn.kind = .syscall → insn.useReg = false ∧ insn.srcReg = 0) ∧
    (insn.kind = .call → insn.useReg = false ∧ insn.srcReg = 1) ∧
    (insn.kind = .softfp → insn.useReg = false ∧ insn.srcReg = 2) := by
  unfold BpfInsn.kind
  by_cases h5 : (insn.code &&& 0x07).toNat = 5
  · rw [if_pos h5]
    split
    · split_ifs <;> simp_all
    · simp
    · simp
  · rw [if_neg h5]
    simp

theorem agrees_softfp (hi : f.found.reachable i = true) (hpc : m.pc = f.addr i)
    (hk : (f.insn i).kind = .softfp) :
    f.Agrees b c w i m m' ↔ i + 1 < f.limit ∧ m'.pc = m.pc := by
  have hnext : nextPc w m m' (f.insn i) = m'.pc + 8 := nextPc_eq (by simp [hk])
  unfold Agrees goes
  rw [hnext]
  simp only [hk]
  rw [leads_follow hi (fallThrough_call (by simp [hk])), ← next_pc hpc, eq_comm, add_left_inj]

theorem agrees_syscall (hi : f.found.reachable i = true) (hpc : m.pc = f.addr i)
    (hk : (f.insn i).kind = .syscall) (hex : m.execute c w (f.insn i) p = (true, m')) :
    f.Agrees b c w i m m' ↔
      ((m.helperDoSyscall w (f.insn i).imm).1 = true → i + 1 < f.limit) ∧
      (m'.restartPc ≠ 0 → (m.outcome w (f.insn i) = .restart (f.insn i).imm ↔ m'.pc = m.pc)) := by
  have hne : (f.insn i).kind ≠ .plain ∧ (f.insn i).kind ≠ .exit := by simp [hk]
  obtain ⟨hreg, hsrc⟩ := kind_operands.2.1 hk
  have hdo : m.doSyscall w (f.insn i).imm = (true, m') := by
    rwa [execute_call hne, if_neg (by simp [hreg]), if_pos hsrc] at hex
  have hrestart : m.outcome w (f.insn i) = .restart (f.insn i).imm → m'.restartPc = m'.pc := by
    intro hout
    unfold outcome at hout
    rw [if_pos (BpfInsn.kind_eq_syscall.mp hk)] at hout
    unfold doSyscall at hdo
    dsimp only at hdo
    split_ifs at hout hdo with hret
    obtain rfl := (Prod.mk.inj hdo).2
    rfl
  have hself : m'.pc ≠ m'.pc + 8 := by simp
  unfold Agrees goes nextPc
  simp only [hk]
  unfold helperDoSyscall
  rw [hdo]
  dsimp only
  by_cases hmoved : m'.pc = m.pc
  · rw [if_neg (not_not.mpr hmoved)]
    by_cases hr : m'.restartPc = 0
    · rw [if_neg (not_not.mpr hr), if_neg fun h => h.2 hr]
      split_ifs
      · simp [Leads, hr]
      · rw [leads_follow hi (fallThrough_call hne), ← next_pc hpc, hmoved]
        simp [hr]
    · rw [if_pos hr]
      by_cases hout : m.outcome w (f.insn i) = .restart (f.insn i).imm
      · rw [if_pos ⟨hout, hr⟩]
        exact iff_of_true (hrestart hout).symm ⟨by simp, fun _ => iff_of_true hout hmoved⟩
      · rw [if_neg fun h => hout h.1]
        exact iff_of_false hself fun h => hout ((h.2 hr).mpr hmoved)
  · rw [if_pos hmoved]
    by_cases hout : m.outcome w (f.insn i) = .restart (f.insn i).imm ∧ m'.restartPc ≠ 0
    · rw [if_pos hout]
      exact iff_of_false (fun h => hself ((hrestart hout.1).symm.trans h.symm))
        fun h => hmoved ((h.2 hout.2).mp hout.1)
    · rw [if_neg hout]
      exact iff_of_true rfl ⟨by simp, fun hr => iff_of_false (fun h => hout ⟨h, hr⟩) hmoved⟩

/-- A frame has been pushed: `r10` has moved, and nothing else that a call looks at. -/
theorem pushFrame_call {ret entry : U64} {m₁ : Machine} (hs : Sound m.mem c.vm)
    (h : m.pushFrame c ret entry false false = (true, m₁)) :
    m₁.pc = m.pc ∧ (∀ k, k ≠ 10 → m₁.reg k = m.reg k) ∧ m₁.reg 10 ≠ m.reg 10 := by
  obtain ⟨seg, mem, rfl, -⟩ := pushFrame_spec hs h
  refine ⟨rfl, fun k hk => Function.update_of_ne hk .., fun h10 => ?_⟩
  have hbase : m.frameBase c false false = m.reg 10 := h10
  have hlen := callerLen_lt c m
  have hsum : m.callerLen c + 64 = 0 := by
    rw [frameBase, BitVec.sub_sub] at hbase
    simpa [frameSize_eq] using hbase
  have hnat := congrArg BitVec.toNat hsum
  rw [BitVec.toNat_add, Nat.mod_eq_of_lt (by simp; omega)] at hnat
  simp at hnat

theorem agrees_call (hs : Sound m.mem c.vm) (hpc : m.pc = f.addr i) (hk : (f.insn i).kind = .call)
    (hex : m.execute c w (f.insn i) p = (true, m')) : f.Agrees b c w i m m' := by
  have hne : (f.insn i).kind ≠ .plain ∧ (f.insn i).kind ≠ .exit := by simp [hk]
  obtain ⟨hreg, hsrc⟩ := kind_operands.2.2.1 hk
  rw [execute_call hne, if_neg (by simp [hreg]), if_neg (by simp [hsrc]), if_pos hsrc] at hex
  split at hex
  · cases hex
  next m₁ hpush =>
    obtain rfl := (Prod.mk.inj hex).2
    have hpc₁ := (pushFrame_call hs hpush).1.trans hpc
    unfold Agrees goes
    rw [nextPc_eq (by simp [hk]), jumpBy_next hpc₁]
    simp only [hk]
    rfl

theorem agrees_callIndirect (hs : Sound m.mem c.vm) (hk : (f.insn i).kind = .callIndirect)
    (hex : m.execute c w (f.insn i) p = (true, m')) :
    f.Agrees b c w i m m' ↔ (f.insn i).dstReg ≠ 10 := by
  have hne : (f.insn i).kind ≠ .plain ∧ (f.insn i).kind ≠ .exit := by simp [hk]
  rw [execute_call hne, if_pos (kind_operands.1 hk)] at hex
  split at hex
  · cases hex
  next m₁ hpush =>
    obtain rfl := (Prod.mk.inj hex).2
    obtain ⟨-, hkeep, h10⟩ := pushFrame_call hs hpush
    unfold Agrees goes
    rw [nextPc_eq (by simp [hk])]
    simp only [hk, Leads, BitVec.sub_add_cancel]
    by_cases hd : (f.insn i).dstReg = 10
    · rw [hd]
      exact iff_of_false (Ne.symm h10) (by simp)
    · have hnat : (f.insn i).dstReg.toNat ≠ 10 := fun h => hd (BitVec.eq_of_toNat_eq h)
      exact iff_of_true (hkeep _ hnat).symm hd

/-- A return goes on where the interpreter does, unless the frame of a signal handler has no return
address: the handler's context is then not looked at. -/
theorem agrees_exit (hs : Sound m.mem c.vm) (hk : (f.insn i).kind = .exit)
    (hex : m.execute c w (f.insn i) p = (true, m')) :
    f.Agrees b c w i m m' ↔
      ∃ frame, (m.load c (m.reg 10) 104).1 = some frame ∧ word frame 16 ≠ 0 := by
  have hne : (f.insn i).kind ≠ .plain := by simp [hk]
  obtain ⟨h5, h90⟩ := kind_code hne
  rw [if_pos hk] at h90
  rw [execute, h5] at hex
  change m.jmp c w (f.insn i) = (true, m') at hex
  rw [jmp_exit h90] at hex
  split_ifs at hex with hret
  · cases hex
  have hnext : m'.pc + 8 = (m.popFrame c).1 := by
    rw [← (Prod.mk.inj hex).2]
    exact BitVec.sub_add_cancel ..
  unfold Agrees goes
  rw [nextPc_eq (by simp [hk]), hnext]
  simp only [hk]
  cases hload : (m.load c (m.reg 10) 104).1 with
  | none => exact absurd (popFrame_of_none hload) hret
  | some frame =>
    rw [load_take hs hload (by omega) (by omega) (by omega), exitGoes, word_take (by omega)]
    by_cases h16 : word frame 16 = 0
    · rw [if_pos h16]
      refine iff_of_false id ?_
      rintro ⟨_, ⟨⟩, hne⟩
      exact hne h16
    · rw [if_neg h16]
      refine iff_of_true ?_ ⟨frame, rfl, h16⟩
      unfold inlineExit
      rw [word_take (by omega), word_take (by omega)]
      split_ifs with hzero
      · rfl
      · exact (popFrame_fst hload (not_not.mp hzero)).symm

/-- When the code of instruction `i` keeps track of the interpreter. The segment does not end behind
an instruction that control falls through, no `JSET` is misjudged (unless it jumps to the next
instruction), the target of a call is not in `r10`, the frame that an `EXIT` leaves has a return
address, and a system call asks for a restart if it leaves one pending and has not moved `pc_`. -/
def Tracks (b : Backend) (c : Setup) (w : World) (f : Fragment) (i : ℕ) (m m' : Machine) : Prop :=
  match (f.insn i).kind with
  | .plain =>
    (b.jumps (f.insn i) m.reg = false → ∀ n, fallThrough (f.insn i) i = some n → n < f.limit) ∧
      (b.Misjudges (f.insn i) m.reg → (f.insn i).off = 0)
  | .softfp => i + 1 < f.limit ∧ m'.pc = m.pc
  | .syscall =>
    ((m.helperDoSyscall w (f.insn i).imm).1 = true → i + 1 < f.limit) ∧
      (m'.restartPc ≠ 0 → (m.outcome w (f.insn i) = .restart (f.insn i).imm ↔ m'.pc = m.pc))
  | .call => True
  | .callIndirect => (f.insn i).dstReg ≠ 10
  | .exit => ∃ frame, (m.load c (m.reg 10) 104).1 = some frame ∧ word frame 16 ≠ 0

end Fragment

/-! ## Fragments of a run -/

/-- Every instruction of every fragment could be emitted. -/
def JitCompiler.Emitted (c : Config) (j : JitCompiler) : Prop :=
  ∀ f ∈ j.code, poison c.emits f.insn f.limit = none

theorem JitCompiler.Emitted.compile {c : Config} {j j' : JitCompiler} {finalized : Bool}
    {s s' : State} {gpa : U64} {o : Option ℕ} (h : j.Emitted c)
    (hc : j.compile c finalized s gpa = (o, j', s')) : j'.Emitted c := by
  rcases compile_cases hc with ⟨-, hq, -⟩ | ⟨f, p, j₁, hq, -, -, -, -, -, rfl, -, hpoison⟩
  · intro f hf
    exact h f (hq.code ▸ hf)
  · intro g hg
    rw [install_code, hq.code] at hg
    rcases List.mem_append.mp hg with hg | hg
    · exact h g hg
    · rw [List.mem_singleton.mp hg]
      exact hpoison

theorem CoreStep.emitted {c : Config} {s s' : Core} {e : Event} (h : s.jit.Emitted c)
    (hs : CoreStep c s e s') : s'.jit.Emitted c := by
  cases hs with
  | cold _ hc | enter _ hc | refuse _ _ hc => exact h.compile hc
  | callIndirectOut =>
    intro f hf
    rw [(JitCompiler.fillIc_frame ..).1] at hf
    exact h f hf
  | _ => exact h

theorem emitInstruction_of_poison {emits : BpfInsn → Bool} {insn : ℕ → BpfInsn} {limit i : ℕ}
    (h : poison emits insn limit = none) (hi : (discoverReachable insn limit).reachable i = true) :
    emitInstruction emits (insn i) = true := by
  have hnot := List.find?_eq_none.mp h i (List.mem_range.mpr (reachable_lt hi))
  simp only [hi, Bool.true_and, Bool.not_eq_true, Bool.or_eq_false_iff] at hnot
  simpa using hnot.2

/-- Of the class of `lddw` nothing else is emitted. -/
theorem isImm64_of_emitted (h : emitInstruction b.emits insn = true)
    (h0 : (insn.code &&& 0x07).toNat = 0) : isImm64 insn = true := by
  simp only [emitInstruction, emits, h0] at h
  exact (Bool.and_eq_true_iff.mp h).1

/-- `r0 = 0`. -/
def movInsn : BpfInsn := ⟨0xb7, 0, 0, 0, 0⟩

/-- A segment whose last two instructions are `r0 = 0`. -/
def openEnd : List BootSeg := [⟨0x1000, 0x1000, pfR ||| pfX, pageEnd [movInsn, movInsn]⟩]

def promptX86 : Config := ⟨0, true, 0, 0, x86.emits⟩

def openCode : Option ℕ × JitCompiler × State :=
  JitCompiler.empty.compile promptX86 true (State.boot openEnd) 0x1ff0

theorem openCode_fst : openCode.1 = some 0 := by decide +kernel

theorem openCode_code : openCode.2.1.code[0]?.any (fun f => f.found.reachable 0 &&
    f.found.reachable 1 && f.insn 0 == movInsn && f.insn 1 == movInsn && f.limit == 2 &&
    f.addr 0 == 0x1ff0 && f.addr 1 == 0x1ff8 && f.fallsTo 1 == none) = true := by
  decide +kernel

theorem run_openCode : Run (CoreStep promptX86) (Core.start (State.boot openEnd) 0x1ff0) [.enter]
    ⟨openCode.2.2, openCode.2.1, 0x1ff0, 0, 0, .native [] 0x1ff0 0 0 false⟩ := by
  exact .single (.enter rfl (compiled_eq openCode_fst) passed_zero)

/-- The vm that would interpret the instruction at `pc`. -/
def openVm (pc : U64) : Machine := boot openEnd (fun _ => 0) pc

theorem bootOk_openEnd : BootOk openEnd := by
  refine ⟨?_, ?_, ?_⟩ <;> simp [openEnd, BootSeg.stop]

theorem execute_movInsn (c : Setup) (w : World) (m : Machine) (p : HostPtr) :
    m.execute c w movInsn p = (true, m.setReg 0 0) := by
  rfl

def nearby : HostSpan := ⟨fun _ _ => 16, fun _ => -64⟩

end Bpfvm.Jit
