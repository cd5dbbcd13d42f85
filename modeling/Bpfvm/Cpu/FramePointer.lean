import Bpfvm.Cpu.Control

/-!
# Who writes `r10`

Frames are found through `r10`, which only calls, exits and signals should move. `ld`, `ldx`, `alu`
and `alu64` refuse `r10` as a destination. An atomic operation with fetch writes its *source*
register, and `do_atomic` does not look which one that is.
-/
namespace Bpfvm.Cpu
open Memory Function Machine

/-- The calls and `EXIT` of the class `BPF_JMP`, system calls and helpers included. -/
def BpfInsn.IsCallOrExit (cur : BpfInsn) : Prop :=
  (cur.code &&& 0x07).toNat = 5 ∧
    ((cur.code &&& 0xf0).toNat = 0x80 ∨ (cur.code &&& 0xf0).toNat = 0x90)

instance (cur : BpfInsn) : Decidable cur.IsCallOrExit :=
  inferInstanceAs (Decidable ((cur.code &&& 0x07).toNat = 5 ∧
    ((cur.code &&& 0xf0).toNat = 0x80 ∨ (cur.code &&& 0xf0).toNat = 0x90)))

/-- An atomic operation of width 4 or 8 that puts the old value into `r10`. -/
def BpfInsn.FetchesInto10 (cur : BpfInsn) : Prop :=
  (cur.code &&& 0x07).toNat = 3 ∧ cur.code &&& 0xe0 = 0xc0 ∧
    (cur.code &&& 0x18 = 0x18 ∨ cur.code &&& 0x18 = 0x00) ∧
    cur.imm.toNat ∈ [0x01, 0x41, 0x51, 0xa1, 0xe1] ∧ cur.srcReg = 10 ∧ cur.dstReg.toNat ≤ 10

instance (cur : BpfInsn) : Decidable cur.FetchesInto10 :=
  inferInstanceAs (Decidable ((cur.code &&& 0x07).toNat = 3 ∧ cur.code &&& 0xe0 = 0xc0 ∧
    (cur.code &&& 0x18 = 0x18 ∨ cur.code &&& 0x18 = 0x00) ∧
    cur.imm.toNat ∈ [0x01, 0x41, 0x51, 0xa1, 0xe1] ∧ cur.srcReg = 10 ∧ cur.dstReg.toNat ≤ 10))

namespace Machine

/-- The value of `n` bytes that an atomic operation finds, if `mmu_w` lets it. -/
def oldValue (c : Setup) (m : Machine) (cur : BpfInsn) (n : ℕ) : Option U64 :=
  (m.mem.rmwBytes c.env c.vm (m.reg cur.dstReg.toNat + cur.off.signExtend 64).toNat n id).1.map
    fun bs => (ofBytes (8 * n) bs).zeroExtend 64

end Machine

section
variable {c : Setup} {w : World} {m : Machine} {cur : BpfInsn}

theorem setReg_r10 {k : ℕ} (h : k ≠ 10) (x : U64) (m : Machine) :
    (m.setReg k x).reg 10 = m.reg 10 := by
  unfold setReg
  exact update_of_ne h.symm _ _

theorem logMemViolation_r10 (c : Setup) (m : Machine) :
    (m.logMemViolation c).reg 10 = m.reg 10 := by
  rw [logMemViolation, backtrace_eq]
  exact setReg_r10 (by decide) _ _

theorem ld_r10 (p : HostPtr) : (m.ld c cur p).2.reg 10 = m.reg 10 := by
  unfold ld
  dsimp only
  split_ifs with hd hn
  · rfl
  · exact logMemViolation_r10 c _
  · exact setReg_r10 (by omega) _ _

theorem ldx_r10 : (m.ldx c cur).2.reg 10 = m.reg 10 := by
  unfold ldx
  by_cases hd : 10 ≤ cur.dstReg.toNat
  · rw [if_pos hd]
  · rw [if_neg hd]
    dsimp only
    have hload : (m.load c (m.reg cur.srcReg.toNat + cur.off.signExtend 64)
      (accessSize cur.code)).2.reg = m.reg := rfl
    generalize m.load c _ _ = r at hload ⊢
    obtain ⟨_ | bs, m₁⟩ := r
    · exact (logMemViolation_r10 c m₁).trans (congrFun hload 10)
    · dsimp only at hload ⊢
      rw [← hload]
      split
      · exact setReg_r10 (by omega) _ _
      · split_ifs
        · rfl
        · exact setReg_r10 (by omega) _ _
      · rfl

theorem storeValue_r10 (x : U64) : (m.storeValue c cur x).2.reg 10 = m.reg 10 := by
  unfold storeValue
  have hstore (a : U64) (bs : List Byte) : (m.store c a bs).2.reg = m.reg := rfl
  dsimp only
  split
  · next m₁ heq =>
    have hreg : m₁.reg = m.reg := (congrArg (fun r => r.2.reg) heq).symm.trans (hstore _ _)
    exact (logMemViolation_r10 c m₁).trans (congrFun hreg 10)
  · next m₁ heq =>
    exact congrFun ((congrArg (fun r => r.2.reg) heq).symm.trans (hstore _ _)) 10

theorem rmwBytes_fst {env : HostEnv} {s : State} {v a n : ℕ} (f g : List Byte → List Byte) :
    (s.rmwBytes env v a n f).1 = (s.rmwBytes env v a n g).1 := by
  unfold State.rmwBytes
  generalize s.mmuW env v a n = r
  obtain ⟨_ | p, s₁⟩ := r <;> rfl

/-- The operations that put the old value into their source register. -/
theorem atomicOp_fetch {b : ℕ} (op : U32) (old src r0 : BitVec b) :
    (∃ x, atomicOp op old src r0 = some (x, .src)) ↔
      op.toNat ∈ [0x01, 0x41, 0x51, 0xa1, 0xe1] := by
  unfold atomicOp
  split <;> simp_all

theorem atomic_r10 (n : ℕ) : (m.atomic c cur n).2.reg 10 =
    if cur.imm.toNat ∈ [0x01, 0x41, 0x51, 0xa1, 0xe1] ∧ cur.srcReg = 10 then
      (m.oldValue c cur n).getD (m.reg 10)
    else m.reg 10 := by
  unfold atomic oldValue
  dsimp only
  generalize (m.reg cur.dstReg.toNat + cur.off.signExtend 64).toNat = a
  have hfst := @rmwBytes_fst c.env m.mem c.vm a n id
  split
  · next heq =>
    rw [show (m.mem.rmwBytes c.env c.vm a n id).1 = none from
      (hfst _).trans (congrArg Prod.fst heq), logMemViolation_r10]
    exact (ite_self _).symm
  · next bs mem heq =>
    rw [show (m.mem.rmwBytes c.env c.vm a n id).1 = some bs from
      (hfst _).trans (congrArg Prod.fst heq)]
    have hfetch := atomicOp_fetch cur.imm (ofBytes (8 * n) bs)
      ((m.reg cur.srcReg.toNat).truncate (8 * n)) ((m.reg 0).truncate (8 * n))
    generalize atomicOp cur.imm (ofBytes (8 * n) bs) _ _ = o at hfetch ⊢
    obtain _ | ⟨x, _ | _ | _⟩ := o
    · rw [if_neg fun h => by simpa using hfetch.mpr h.1]
    · rw [if_neg fun h => by simpa using hfetch.mpr h.1]
    · by_cases hs : cur.srcReg = 10
      · rw [if_pos ⟨hfetch.mp ⟨x, rfl⟩, hs⟩, hs]
        exact update_self (10 : ℕ) _ m.reg
      · rw [if_neg fun h => hs h.2]
        refine setReg_r10 (fun h => hs ?_) _ _
        exact BitVec.eq_of_toNat_eq h
    · rw [if_neg fun h => by simpa using hfetch.mpr h.1]
      exact setReg_r10 (by decide) _ _

/-- The shape of `vm::alu` and `vm::alu64`: `r10` is never written. -/
theorem written_r10 {p : Prop} [Decidable p] {d : ℕ} {o : Option U64} {x : U64}
    {r r' : Regs} (h : (if 10 ≤ d then none else if p then o.map (update r d)
      else some (update r d x)) = some r') : r' 10 = r 10 := by
  split_ifs at h with hd hp
  · have hne : 10 ≠ d := by omega
    obtain ⟨y, -, rfl⟩ := Option.map_eq_some_iff.mp h
    exact update_of_ne hne _ _
  · have hne : 10 ≠ d := by omega
    rw [← Option.some.inj h]
    exact update_of_ne hne _ _

theorem alu_r10 {r : Regs} (h : alu cur m.reg = some r) : r 10 = m.reg 10 := written_r10 h

theorem alu64_r10 {r : Regs} (h : alu64 cur m.reg = some r) : r 10 = m.reg 10 := written_r10 h

theorem withRegs_r10 {o : Option Regs} (h : ∀ r, o = some r → r 10 = m.reg 10) :
    (m.withRegs o).2.reg 10 = m.reg 10 := by
  cases o with
  | none => rfl
  | some r => exact h r rfl

theorem jmp_r10 (h : (cur.code &&& 0xf0).toNat ≠ 0x80 ∧ (cur.code &&& 0xf0).toNat ≠ 0x90) :
    (m.jmp c w cur).2.reg 10 = m.reg 10 := by
  unfold jmp
  dsimp only
  split
  · rfl
  · next hop => exact absurd hop h.1
  · next hop => exact absurd hop h.2
  · split_ifs <;> rfl

theorem jmp32_r10 : (m.jmp32 cur).2.reg 10 = m.reg 10 := by
  unfold jmp32
  dsimp only
  split
  · rfl
  · rfl
  · rfl
  · split_ifs <;> rfl

/-- `r10` after one instruction. -/
theorem execute_r10 (p : HostPtr) (hd : cur.dstReg.toNat ≤ 10) (h : ¬ cur.IsCallOrExit) :
    (m.execute c w cur p).2.reg 10 =
      if cur.FetchesInto10 then (m.oldValue c cur (accessSize cur.code)).getD (m.reg 10)
      else m.reg 10 := by
  by_cases hstx : (cur.code &&& 0x07).toNat = 3
  · have hexec : m.execute c w cur p = m.stx c cur := by
      unfold execute
      rw [hstx]
      rfl
    rw [hexec, stx]
    by_cases hmode : cur.code &&& 0xe0 = 0xc0
    · rw [if_pos hmode]
      by_cases h8 : cur.code &&& 0x18 = 0x18
      · rw [if_pos h8, atomic_r10, show accessSize cur.code = 8 by rw [accessSize, h8]; rfl]
        exact if_congr ⟨fun h => ⟨hstx, hmode, .inl h8, h.1, h.2, hd⟩,
          fun h => ⟨h.2.2.2.1, h.2.2.2.2.1⟩⟩ rfl rfl
      · rw [if_neg h8]
        by_cases h4 : cur.code &&& 0x18 = 0x00
        · rw [if_pos h4, atomic_r10, show accessSize cur.code = 4 by rw [accessSize, h4]; rfl]
          exact if_congr ⟨fun h => ⟨hstx, hmode, .inr h4, h.1, h.2, hd⟩,
            fun h => ⟨h.2.2.2.1, h.2.2.2.2.1⟩⟩ rfl rfl
        · rw [if_neg h4, if_neg fun hf => hf.2.2.1.elim h8 h4]
    · rw [if_neg hmode, if_neg fun hf => hmode hf.2.1]
      exact storeValue_r10 _
  · rw [if_neg fun hf => hstx hf.1]
    unfold execute
    split
    · exact ld_r10 p
    · exact ldx_r10
    · exact storeValue_r10 _
    · next hclass => exact absurd hclass hstx
    · exact withRegs_r10 fun r hr => alu_r10 hr
    · next hclass =>
      exact jmp_r10 ⟨fun hop => h ⟨hclass, .inl hop⟩, fun hop => h ⟨hclass, .inr hop⟩⟩
    · exact jmp32_r10
    · exact withRegs_r10 fun r hr => alu64_r10 hr

/-- Whatever is at `pc_`, if it is no call and no `EXIT`: `r10` stays, unless an atomic operation
with fetch has `r10` as source and finds another value in memory. -/
theorem fetch_r10_iff (h : ∀ cur, m.insn c = some cur → ¬ cur.IsCallOrExit) :
    (m.fetch c w).2.reg 10 = m.reg 10 ↔
      ∀ cur old, m.insn c = some cur → cur.FetchesInto10 →
        (m.afterFetch c).oldValue c cur (accessSize cur.code) = some old → old = m.reg 10 := by
  unfold insn at h
  unfold fetch insn afterFetch
  generalize m.mem.mmu c.vm m.pc.toNat 8 = r at h ⊢
  obtain ⟨_ | p, mem⟩ := r
  · simp [logMemViolation_r10]
  · dsimp only [Option.map_some] at h ⊢
    generalize BpfInsn.ofBytes (mem.host.load p 8) = cur at h ⊢
    have hcur := h cur rfl
    by_cases hreg : 10 < cur.dstReg.toNat ∨ 10 < cur.srcReg.toNat
    · rw [if_pos hreg, logMemViolation_r10]
      refine iff_of_true rfl fun cur' old hc hf => ?_
      cases hc
      have hsrc : cur.srcReg.toNat = 10 := by rw [hf.2.2.2.2.1]; rfl
      have hdst := hf.2.2.2.2.2
      omega
    · rw [if_neg hreg, execute_r10 p (by omega) hcur]
      by_cases hf : cur.FetchesInto10
      · rw [if_pos hf]
        constructor
        · intro heq cur' old hc _ hold
          cases hc
          rwa [hold] at heq
        · intro hall
          cases hold : oldValue c _ cur (accessSize cur.code) with
          | none => rfl
          | some old => exact hall cur old rfl hf hold
      · rw [if_neg hf]
        refine iff_of_true rfl fun cur' old hc hf' => ?_
        cases hc
        exact absurd hf' hf

end

/-! ## An exchange with the frame pointer -/

/-- `r10 = xchg((u64 *)(r1 + 0), r10)`. -/
def exchangeFrame : BpfInsn := ⟨0xdb, 1, 10, 0, 0xe1⟩

/-- The instruction at `0x1000`, and `r1` on a zero page. -/
def exchanging : Machine :=
  boot [⟨0x1000, 0x1000, 7, fun k => exchangeFrame.bytes.getD k 0⟩,
    ⟨0x2000, 0x1000, 7, fun _ => 0⟩] (fun k => if k = 1 then 0x2000 else 0x10fffff8) 0x1000

theorem fetch_r10_iff_exchanging : (∀ cur, exchanging.insn Setup.plain = some cur →
      ¬ cur.IsCallOrExit) ∧
    ((exchanging.fetch Setup.plain World.quiet).2.reg 10 = exchanging.reg 10 ↔
      ∀ cur old, exchanging.insn Setup.plain = some cur → cur.FetchesInto10 →
        (exchanging.afterFetch Setup.plain).oldValue Setup.plain cur (accessSize cur.code) =
          some old → old = exchanging.reg 10) := by
  have hinsn : exchanging.insn Setup.plain = some exchangeFrame := by decide +kernel
  have h : ∀ cur, exchanging.insn Setup.plain = some cur → ¬ cur.IsCallOrExit := by
    intro cur hcur
    rw [hinsn] at hcur
    cases hcur
    decide
  exact ⟨h, fetch_r10_iff h⟩

/-- The exchange succeeds, and the vm goes on with `r10 = 0`. -/
theorem exchange_moves_frame : ∃ (c : Setup) (w : World) (m : Machine) (cur : BpfInsn),
    Sound m.mem c.vm ∧ m.flags = 0 ∧ m.insn c = some cur ∧ ¬ cur.IsCallOrExit ∧
      (m.fetch c w).1 = true ∧ (m.fetch c w).2.reg 10 ≠ m.reg 10 := by
  have hok : BootOk [⟨0x1000, 0x1000, 7, fun k => exchangeFrame.bytes.getD k 0⟩,
      ⟨0x2000, 0x1000, 7, fun _ => 0⟩] := by
    refine ⟨?_, ?_, ?_⟩ <;> simp [BootSeg.stop]
  exact ⟨Setup.plain, World.quiet, exchanging, exchangeFrame, sound_boot hok, rfl,
    by decide +kernel, by decide, by decide +kernel, by decide +kernel⟩

end Bpfvm.Cpu
