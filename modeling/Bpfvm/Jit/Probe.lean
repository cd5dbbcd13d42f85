import Bpfvm.Jit.Branches

/-!
# The inline TLB probe

`begin_mem_access` and `finish_mem_access` of both back ends: the address, the tests on the entry of
the TLB, and the helper call behind them. A test that fails branches to the helper call.
-/
namespace Bpfvm.Jit
open Memory Cpu HostCode BitVec State

/-! ## Translation -/

/-- `vm::mmu_w` or `vm::mmu`. -/
def translate (c : Setup) (mem : Memory.State) (isWrite : Bool) (a n : ℕ) :
    Option HostPtr × Memory.State :=
  if isWrite then mem.mmuW c.env c.vm a n else mem.mmu c.vm a n

/-- `helper_mmu_w` or `helper_mmu`: the TLB is not asked again. -/
def translateSlow (c : Setup) (mem : Memory.State) (isWrite : Bool) (a n : ℕ) :
    Option HostPtr × Memory.State :=
  if isWrite then mem.mmuWSlow c.env c.vm a n else mem.mmuSlow c.vm a n

/-- The tests on an entry, in the order in which they are made. -/
structure Hit (e : TlbEntry) (isWrite : Bool) (a n : ℕ) : Prop where
  base : ¬a < e.guestBase
  wraps : ¬uadd a n < a
  stop : ¬e.guestEnd < uadd a n
  write : isWrite = true → hasFlag e.flags pfW = true
  cow : isWrite = true → e.cow = false

/-- The fields are 64 bits wide, and an entry without pages covers nothing. -/
structure ValidEntry (e : TlbEntry) : Prop where
  base : e.guestBase < 2 ^ 64
  stop : e.guestEnd < 2 ^ 64
  empty : e.hostBase = none → e.guestEnd = 0

theorem validEntry_zero : ValidEntry TlbEntry.zero := ⟨by decide, by decide, fun _ => rfl⟩

theorem validEntry_ofMap {m : Memmap} (h : m.paddr < 2 ^ 64) : ValidEntry (TlbEntry.ofMap m) :=
  ⟨h, Nat.mod_lt _ (by decide), fun hn => by cases hn⟩

section
variable {c : Setup} {mem : Memory.State} {isWrite : Bool} {a n : ℕ} {e : TlbEntry}

theorem translateSlow_of_wraps (h : uadd a n < a) :
    translateSlow c mem isWrite a n = (none, mem) := by
  have hfind : findMap (mem.maps c.vm) a n = none := if_pos h
  cases isWrite <;> simp [translateSlow, mmuSlow, mmuWSlow, hfind]

theorem translate_of_hit (h : Hit ((mem.vms c.vm).tlb (tlbIndex a)) isWrite a n) :
    translate c mem isWrite a n = (((mem.vms c.vm).tlb (tlbIndex a)).hostBase.map
      (·.add (a - ((mem.vms c.vm).tlb (tlbIndex a)).guestBase)), mem) := by
  obtain ⟨hbase, hwraps, hstop, hwrite, hcow⟩ := h
  cases isWrite with
  | false =>
    simp only [translate, Bool.false_eq_true, if_false, mmu]
    rw [if_neg hwraps, if_pos ⟨not_lt.mp hbase, not_lt.mp hstop⟩]
  | true =>
    simp only [translate, if_true, mmuW]
    rw [if_neg hwraps, if_pos ⟨not_lt.mp hbase, not_lt.mp hstop, hwrite rfl, hcow rfl⟩]

theorem translate_of_miss (h : ¬Hit ((mem.vms c.vm).tlb (tlbIndex a)) isWrite a n) :
    translate c mem isWrite a n = translateSlow c mem isWrite a n := by
  by_cases hwraps : uadd a n < a
  · rw [translateSlow_of_wraps hwraps]
    cases isWrite <;> simp [translate, mmu, mmuW, hwraps]
  · cases isWrite with
    | false =>
      simp only [translate, translateSlow, Bool.false_eq_true, if_false, mmu]
      rw [if_neg hwraps, if_neg]
      rintro ⟨hbase, hstop⟩
      exact h ⟨not_lt.mpr hbase, hwraps, not_lt.mpr hstop, by simp, by simp⟩
    | true =>
      simp only [translate, translateSlow, if_true, mmuW]
      rw [if_neg hwraps, if_neg]
      rintro ⟨hbase, hstop, hwrite, hcow⟩
      exact h ⟨not_lt.mpr hbase, hwraps, not_lt.mpr hstop, fun _ => hwrite, fun _ => hcow⟩

/-- An entry that is hit has pages. -/
theorem Hit.hostBase (h : Hit e isWrite a n) (hv : ValidEntry e) (hn : 0 < n)
    (hn' : n < 2 ^ 64) : ∃ p, e.hostBase = some p := by
  cases hp : e.hostBase with
  | some p => exact ⟨p, rfl⟩
  | none =>
    have hstop := h.stop
    have hwraps := h.wraps
    rw [hv.empty hp] at hstop
    unfold uadd at hstop hwraps
    omega

end

/-- What a translation leaves in the result register. -/
def Platform.address (P : Platform) (r : Option HostPtr) : U64 := r.elim 0 P.place

theorem Platform.place_hit {P : Platform} {e : TlbEntry} {a : U64} {p : HostPtr}
    (hp : e.hostBase = some p) (h : ¬a.toNat < e.guestBase) :
    a - P.tlbValue e .guestBase + P.tlbValue e .hostBase =
      P.place (p.add (a.toNat - e.guestBase)) := by
  have hsub : a - BitVec.ofNat 64 e.guestBase = BitVec.ofNat 64 (a.toNat - e.guestBase) := by
    apply eq_of_toNat_eq
    rw [toNat_sub, toNat_ofNat, toNat_ofNat]
    have hlt := a.isLt
    omega
  rw [P.place_add, tlbValue, tlbValue, hp, hsub]
  exact add_comm _ _

/-- The entry for an address. -/
def Platform.entry (P : Platform) (m : Machine) (a : U64) : TlbEntry :=
  (m.mem.vms P.setup.vm).tlb (tlbIndex a.toNat)

/-- What is asked of an access: the entry of the TLB is one, the size fits a displacement, and the
host has no guest page at address 0. -/
structure AccessOk (P : Platform) (m : Machine) (isWrite : Bool) (a : U64) (n : ℕ) :
    Prop where
  entry : ValidEntry (P.entry m a)
  pos : 0 < n
  small : n < 2 ^ 31
  nonnull : ∀ p, (translate P.setup m.mem isWrite a.toNat n).1 = some p → P.place p ≠ 0

/-! ### The tests on host words -/

section
variable {P : Platform} {e : TlbEntry} {a : U64} {n : ℕ}

theorem ult_guestBase (hv : ValidEntry e) :
    a.ult (P.tlbValue e .guestBase) = decide (a.toNat < e.guestBase) := by
  rw [ult_eq_decide, Platform.tlbValue, toNat_ofNat, Nat.mod_eq_of_lt hv.base]

theorem toNat_add_size (a : U64) (n : ℕ) :
    (a + BitVec.ofNat 64 n).toNat = uadd a.toNat n := by
  rw [toNat_add, toNat_ofNat, uadd, Nat.add_mod_mod]

theorem ult_wraps : (a + BitVec.ofNat 64 n).ult a = decide (uadd a.toNat n < a.toNat) := by
  rw [ult_eq_decide, toNat_add_size]

theorem ult_guestEnd (hv : ValidEntry e) :
    (P.tlbValue e .guestEnd).ult (a + BitVec.ofNat 64 n) =
      decide (e.guestEnd < uadd a.toNat n) := by
  rw [ult_eq_decide, toNat_add_size, Platform.tlbValue, toNat_ofNat,
    Nat.mod_eq_of_lt hv.stop]

theorem tlbIndex_lt (a : ℕ) : tlbIndex a < tlbSize := Nat.mod_lt _ (by decide)

theorem signExtend_size {n : ℕ} (hn : n < 2 ^ 31) :
    (BitVec.ofNat 32 n).signExtend 64 = BitVec.ofNat 64 n := by
  have hmsb : (BitVec.ofNat 32 n).msb = false := by
    rw [msb_eq_false_iff_two_mul_lt, toNat_ofNat]
    omega
  rw [signExtend_eq_setWidth_of_msb_false hmsb]
  apply eq_of_toNat_eq
  rw [toNat_setWidth, toNat_ofNat, toNat_ofNat]
  omega

theorem signExtend_off (off : BitVec 16) :
    (off.signExtend 32).signExtend 64 = off.signExtend 64 := by
  apply eq_of_toInt_eq
  simp [toInt_signExtend_of_le]

end

/-! ### The tests -/

/-- The tests on an entry, whose branches all go to the code behind them. -/
theorem ensures_probe {ι σ : Type*} {sem : ι → σ → σ × Flow Exit} {R Q : σ → Prop}
    {A : σ × Option Exit → Prop} {b₁ b₂ b₃ b₄ b₅ : ℤ → ι} {c₁ c₂ c₃ c₄ c₅ hit slow : List ι}
    {e : TlbEntry} {isWrite : Bool} {a n : ℕ} (hbase : Decides sem R R b₁ c₁ (a < e.guestBase))
    (hwraps : Decides sem R Q b₂ c₂ (uadd a n < a))
    (hstop : Decides sem Q R b₃ c₃ (e.guestEnd < uadd a n))
    (hwrite : Decides sem R R b₄ c₄ (hasFlag e.flags pfW = false))
    (hcow : Decides sem R R b₅ c₅ (e.cow = true)) (hR : ∀ s, Q s → R s)
    (hmiss : ¬Hit e isWrite a n → Ensures sem R slow A)
    (hhit : Hit e isWrite a n → Ensures sem R (hit ++ slow) A) :
    Ensures sem R (test b₁ c₁ (test b₂ c₂ (test b₃ c₃
      (if isWrite then test b₄ c₄ (test b₅ c₅ hit) else hit))) ++ slow) A := by
  refine .test hbase (fun h => hmiss fun hit => hit.base h) fun hb => ?_
  refine .test hwraps (fun h s hs => hmiss (fun hit => hit.wraps h) s (hR s hs)) fun hw => ?_
  refine .test hstop (fun h => hmiss fun hit => hit.stop h) fun hs => ?_
  cases isWrite with
  | false => exact hhit ⟨hb, hw, hs, by simp, by simp⟩
  | true =>
    refine .test hwrite (fun h => hmiss fun hit => by simp [hit.write rfl] at h) fun hf => ?_
    refine .test hcow (fun h => hmiss fun hit => by simp [hit.cow rfl] at h) fun hc => ?_
    exact hhit ⟨hb, hw, hs, fun _ => by simpa using hf, fun _ => by simpa using hc⟩

/-! ## x86-64 -/

namespace X86

/-- A comparison, and a conditional jump over the rest. -/
def testJcc (code : List Insn) (cc : Cc) (rest : List Insn) : List Insn :=
  test (fun d => .jcc cc (.rel d)) code rest

def spillCallerSaved : List Insn := bpfCallerSaved.map .push
def restoreCallerSaved : List Insn := bpfCallerSaved.reverse.map .pop

/-- `guest_addr` in `rax`. -/
def accessAddress (base : Reg) (off : BitVec 16) : List Insn :=
  (if base ≠ .rax then [.mov true .rax base] else []) ++
    if off ≠ 0 then [.alu .add true .rax (.imm (off.signExtend 32))] else []

/-- The offset of the entry in `r11`. -/
def accessIndex : List Insn :=
  [.mov true .r11 .rax, .shift .shr true .r11 (.imm 12), .mov true .rcx .rax,
    .shift .shr true .rcx (.imm 20), .alu .xor true .r11 (.reg .rcx),
    .alu .and false .r11 (.imm (BitVec.ofNat 32 (tlbSize - 1))), .shift .shl false .r11 (.imm 5)]

/-- `.slow`. -/
def accessSlow (size : ℕ) (isWrite : Bool) : List Insn :=
  spillCallerSaved ++ [.mov true .rdi .rbp, .mov true .rsi .rax,
    .movImm32 .rdx (BitVec.ofNat 32 size), .callMmu isWrite] ++ restoreCallerSaved ++
    [.test true .rax (.reg .rax), .jcc .e (.out .abort)]

def tlbDisp (l : Layout) (f : TlbField) : ℕ := l.offTlb + f.offset

/-- The address in `rax`, and the jump to `.done`. -/
def accessHit (l : Layout) (size : ℕ) (isWrite : Bool) : List Insn :=
  [.alu .sub true .rax (.sib (tlbDisp l .guestBase)),
    .alu .add true .rax (.sib (tlbDisp l .hostBase)),
    .jmp (.rel (accessSlow size isWrite).length)]

/-- For a write, the tests of `flags` and `cow`. -/
def accessPerms (l : Layout) (size : ℕ) (isWrite : Bool) : List Insn :=
  if isWrite then
    testJcc [.testMem (tlbDisp l .flags) 2] .e
      (testJcc [.cmpMem (tlbDisp l .cow) 0] .ne (accessHit l size isWrite))
  else accessHit l size isWrite

/-- The tests of `guest_base` and `guest_end`. -/
def accessFast (l : Layout) (size : ℕ) (isWrite : Bool) : List Insn :=
  testJcc [.cmp true .rax (.sib (tlbDisp l .guestBase))] .b
    (testJcc [.lea .rcx .rax (BitVec.ofNat 32 size), .cmp true .rcx (.reg .rax)] .b
      (testJcc [.cmp true .rcx (.sib (tlbDisp l .guestEnd))] .a (accessPerms l size isWrite)))

/-- `begin_mem_access` and `finish_mem_access`. -/
def memAccess (l : Layout) (base : Reg) (off : BitVec 16) (size : ℕ) (isWrite : Bool) :
    List Insn :=
  accessAddress base off ++ accessIndex ++ (accessFast l size isWrite ++ accessSlow size isWrite)

/-- The end of the code of an access at `a`: the address `vm::mmu` or `vm::mmu_w` gives is in
`rax`, or control has left to the abort exit because there is none. Nothing else but the scratch
registers and the TLB has changed. -/
structure Accessed (P : Platform) (t : Option HostPtr × Memory.State) (s : State)
    (q : State × Option Exit) : Prop where
  reg : ∀ r ∉ scratch, q.1.reg r = s.reg r
  stack : q.1.stack = s.stack
  vm : q.1.vm = { s.vm with mem := t.2 }
  exit : q.2 = if t.1.isSome then none else some .abort
  rax : ∀ p, t.1 = some p → q.1.reg .rax = P.place p

section
variable {P : Platform} {s s' s₀ : State} {code : List Insn} {cc : Cc} {a : U64} {n i : ℕ}
  {isWrite : Bool} {t : Option HostPtr × Memory.State}

theorem decides_jcc {C : Prop} [Decidable C] {R R' : State → Prop}
    (h : ∀ s, R s → ∃ s' f, Computes (sem P) code s s' ∧ R' s' ∧ s'.flags = some f ∧
      cc.holds f = decide C) : Decides (sem P) R R' (fun d => .jcc cc (.rel d)) code C := by
  intro s hs
  obtain ⟨s', f, hc, hs', hf, hcc⟩ := h s hs
  exact ⟨s', hc, hs', fun h _ => sem_jcc_taken hf (hcc.trans (decide_eq_true h)),
    fun h _ => sem_jcc_next hf (hcc.trans (decide_eq_false h))⟩

theorem holds_a (a b : BitVec n) : Cc.a.holds (subFlags a b) = b.ult a := by
  rw [Cc.holds, subFlags, ult_or_eq, Bool.not_not]

theorem holds_flags (e : TlbEntry) :
    Cc.e.holds (logicFlags ((P.tlbValue e .flags).truncate 32 &&& 2)) =
      decide (hasFlag e.flags pfW = false) := by
  rw [Platform.tlbValue, truncate_zeroExtend, Bool.eq_iff_iff]
  simp [Cc.holds, logicFlags, hasFlag, pfW]

theorem holds_cow (e : TlbEntry) :
    Cc.ne.holds (subFlags ((P.tlbValue e .cow).truncate 8) 0) = decide (e.cow = true) := by
  rw [Platform.tlbValue]
  cases e.cow <;> decide

/-- The field of the entry that `r11` selects. -/
theorem fieldAt_tlb (hi : i < tlbSize) (hr : (s.reg .r11).toNat = tlbEntrySize * i)
    (f : TlbField) : s.fieldAt P (s.reg .r11 + BitVec.ofNat 64 (P.layout.offTlb + f.offset)) =
      some (P.tlbValue ((s.vm.mem.vms P.setup.vm).tlb i) f) := by
  have hsmall := P.layout.tlb_small
  have hf : f.offset < 32 := by cases f <;> decide
  have haddr : (s.reg .r11 + BitVec.ofNat 64 (P.layout.offTlb + f.offset)).toNat =
      P.layout.offTlb + tlbEntrySize * i + f.offset := by
    rw [toNat_add, toNat_ofNat, hr]
    unfold tlbEntrySize tlbSize at *
    omega
  rw [State.fieldAt, haddr, P.layout.field_tlb hi]
  rfl

theorem ends_slow (ha : s.reg .rax = a) (hn : n < 2 ^ 31)
    (ht : translateSlow P.setup s.vm.mem isWrite a.toNat n = t)
    (hnull : ∀ p, t.1 = some p → P.place p ≠ 0) :
    ∃ q, Ends (sem P) (accessSlow n isWrite) 0 s q ∧ Accessed P t s q := by
  have hsize : ((BitVec.ofNat 32 n).zeroExtend 64).toNat = n := by
    rw [toNat_setWidth, toNat_ofNat]
    omega
  obtain ⟨s₁, hcall, hrax, hreg, hstack, hvm⟩ : ∃ s₁, Computes (sem P) (spillCallerSaved ++
      [.mov true .rdi .rbp, .mov true .rsi .rax, .movImm32 .rdx (BitVec.ofNat 32 n),
        .callMmu isWrite] ++ restoreCallerSaved) s s₁ ∧ s₁.reg .rax = P.address t.1 ∧
      (∀ r ∉ scratch, s₁.reg r = s.reg r) ∧ s₁.stack = s.stack ∧
      s₁.vm = { s.vm with mem := t.2 } := by
    rw [← ht, ← ha]
    nth_rewrite 2 3 [← hsize]
    refine ⟨_, .cons rfl (.cons rfl (.cons rfl (.cons rfl (.cons rfl (.cons rfl (.cons rfl
      (.cons rfl (.cons rfl (.cons rfl (.cons rfl (.cons rfl (.cons rfl (.cons rfl (.cons rfl
        (.single rfl))))))))))))))), rfl, fun r hr => ?_, rfl, rfl⟩
    cases r <;> first | rfl | exact absurd (by decide) hr
  have htest : sem P (.test true .rax (.reg .rax)) s₁ =
      (s₁.withFlags (logicFlags (s₁.reg .rax &&& s₁.reg .rax)), .next) := rfl
  rw [hrax, BitVec.and_self] at htest
  refine ⟨(s₁.withFlags (logicFlags (P.address t.1)), if t.1.isSome then none else some .abort),
    ?_, hreg, hstack, hvm, rfl, fun p hp => ?_⟩
  · cases hp : t.1 with
    | none =>
      rw [hp] at htest
      exact hcall.append_leaves (.cons htest (.single (sem_jcc_out rfl rfl)))
    | some p =>
      rw [hp] at htest
      exact Ends.append hcall (.cons htest (Computes.single (sem_jcc_next rfl
        (beq_eq_false_iff_ne.mpr (hnull p hp)))))
  · rw [State.reg_withFlags, hrax, hp]
    rfl

theorem computes_accessAddress (s : State) (base : Reg) (off : BitVec 16) :
    ∃ s', Computes (sem P) (accessAddress base off) s s' ∧
      s'.reg .rax = s.reg base + off.signExtend 64 ∧ Changes scratch s s' := by
  have hmov : Computes (sem P) (if base ≠ .rax then [.mov true .rax base] else []) s
      (s.set .rax (s.reg base)) := by
    split_ifs with hb
    · exact .single rfl
    · rw [not_not.mp hb, set_reg_self]
      exact .nil
  by_cases hoff : off = 0
  · refine ⟨_, hmov.append (by rw [if_neg (not_not.mpr hoff)]; exact .nil), ?_,
      .set (by decide) s _⟩
    rw [State.reg_set_self, hoff]
    simp
  · refine ⟨_, hmov.append (by rw [if_pos hoff]; exact .single rfl), ?_,
      .trans (.set (by decide) s _) (.result (by decide) _ _)⟩
    rw [State.reg_result_self, State.reg_set_self, signExtend_off]
    rfl

/-- What the shifts and masks of `accessIndex` compute. -/
theorem toNat_index (a : U64) : (atWidth false (fun n x _ => ShiftOp.shl.value n 5 x)
    (atWidth false (fun n => AluOp.and.value n) (a >>> 12 ^^^ a >>> 20)
      ((BitVec.ofNat 32 (tlbSize - 1)).signExtend 64)) 0).toNat =
        tlbEntrySize * tlbIndex a.toNat := by
  have hmask : ∀ x : ℕ, x % 2 ^ 32 &&& 2047 = x % 2048 := by
    intro x
    rw [show (2047 : ℕ) = 2 ^ 11 - 1 by rfl, Nat.and_two_pow_sub_one_eq_mod]
    omega
  have himm : ((BitVec.ofNat 32 (tlbSize - 1)).signExtend 64).truncate 32 = 2047#32 := by decide
  simp only [atWidth, Bool.false_eq_true, if_false, himm, ShiftOp.value, AluOp.value]
  simp only [toNat_setWidth, toNat_shiftLeft, toNat_and, toNat_xor,
    toNat_ushiftRight, toNat_ofNat, Nat.shiftLeft_eq]
  rw [show (2047 % 2 ^ 32 : ℕ) = 2047 by rfl, hmask]
  unfold tlbIndex tlbSize tlbEntrySize
  omega

theorem computes_accessIndex (s : State) :
    ∃ s', Computes (sem P) accessIndex s s' ∧
      (s'.reg .r11).toNat = tlbEntrySize * tlbIndex (s.reg .rax).toNat ∧
      Changes [.rcx, .r11] s s' := by
  refine ⟨_, .cons rfl (.cons rfl (.cons rfl (.cons rfl (.cons rfl (.cons rfl (.single rfl)))))),
    toNat_index (s.reg .rax), fun r hr => ?_, rfl, rfl⟩
  cases r <;> first | rfl | exact absurd (by decide) hr

/-- At a test of the entry for `a`, in an access that began in `s₀`. -/
structure AtProbe (P : Platform) (a : U64) (s₀ s : State) : Prop where
  rax : s.reg .rax = a
  index : (s.reg .r11).toNat = tlbEntrySize * tlbIndex a.toNat
  changes : Changes scratch s₀ s

namespace AtProbe

theorem withFlags (h : AtProbe P a s₀ s) (f : Flags) : AtProbe P a s₀ (s.withFlags f) :=
  ⟨h.rax, h.index, h.changes.trans (.withFlags _ _ _)⟩

theorem setRcx (h : AtProbe P a s₀ s) (x : U64) : AtProbe P a s₀ (s.set .rcx x) :=
  ⟨h.rax, h.index, h.changes.trans (.set (by decide) _ _)⟩

theorem field (h : AtProbe P a s₀ s) (f : TlbField) :
    s.fieldAt P (s.reg .r11 + BitVec.ofNat 64 (tlbDisp P.layout f)) =
      some (P.tlbValue (P.entry s₀.vm a) f) := by
  rw [← h.changes.vm]
  exact fieldAt_tlb (tlbIndex_lt _) h.index f

theorem cmp (h : AtProbe P a s₀ s) (r : Reg) (f : TlbField) :
    sem P (.cmp true r (.sib (tlbDisp P.layout f))) s = (s.withFlags (subFlags (s.reg r)
      (P.tlbValue (P.entry s₀.vm a) f)), .next) := by
  simp only [sem, State.operand, h.field f]
  rfl

theorem alu (h : AtProbe P a s₀ s) (hs : Changes [.rax] s s') (op : AluOp) (f : TlbField) :
    sem P (.alu op true .rax (.sib (tlbDisp P.layout f))) s' =
      (s'.result .rax (op.value 64 (s'.reg .rax)
        (P.tlbValue (P.entry s₀.vm a) f)), .next) := by
  have hf : s'.fieldAt P (s'.reg .r11 + BitVec.ofNat 64 (tlbDisp P.layout f)) =
      some (P.tlbValue (P.entry s₀.vm a) f) := by
    rw [hs.reg _ (by decide), State.fieldAt, hs.vm]
    exact h.field f
  simp only [sem, State.operand, hf]
  rfl

theorem ensures_slow (hok : AccessOk P s₀.vm isWrite a n)
    (hmiss : ¬Hit (P.entry s₀.vm a) isWrite a.toNat n) :
    Ensures (sem P) (AtProbe P a s₀) (accessSlow n isWrite)
      (Accessed P (translate P.setup s₀.vm.mem isWrite a.toNat n) s₀) := by
  intro s h
  have hnull := hok.nonnull
  rw [translate_of_miss hmiss, ← h.changes.vm] at hnull ⊢
  obtain ⟨q, hq, hacc⟩ := ends_slow h.rax hok.small rfl hnull
  refine ⟨q, hq, fun r hr => (hacc.reg r hr).trans (h.changes.reg r hr),
    hacc.stack.trans h.changes.stack, ?_, hacc.exit, hacc.rax⟩
  rw [hacc.vm, h.changes.vm]

theorem ensures_hit (hok : AccessOk P s₀.vm isWrite a n)
    (hit : Hit (P.entry s₀.vm a) isWrite a.toNat n) :
    Ensures (sem P) (AtProbe P a s₀) (accessHit P.layout n isWrite ++ accessSlow n isWrite)
      (Accessed P (translate P.setup s₀.vm.mem isWrite a.toNat n) s₀) := by
  intro s h
  have hsmall := hok.small
  obtain ⟨p, hp⟩ := hit.hostBase hok.entry hok.pos (by omega)
  have hhost : ((s₀.vm.mem.vms P.setup.vm).tlb (tlbIndex a.toNat)).hostBase = some p := hp
  rw [translate_of_hit hit, hhost]
  refine ⟨_, .cons (h.alu (.refl _ s) .sub .guestBase)
    (.cons (h.alu (.result (List.mem_singleton_self _) s _) .add .hostBase)
      (Computes.over_rest rfl)), ?_⟩
  rw [h.rax, State.reg_result_self]
  have hkept (x y : U64) : Changes scratch s₀ ((s.result .rax x).result .rax y) :=
    h.changes.trans (.trans (.result (by decide) s x) (.result (by decide) _ y))
  refine ⟨(hkept _ _).reg, (hkept _ _).stack, (hkept _ _).vm, rfl, ?_⟩
  rintro _ ⟨⟩
  rw [State.reg_result_self]
  exact Platform.place_hit hp hit.base

theorem ensures_fast (hok : AccessOk P s₀.vm isWrite a n) :
    Ensures (sem P) (AtProbe P a s₀) (accessFast P.layout n isWrite ++ accessSlow n isWrite)
      (Accessed P (translate P.setup s₀.vm.mem isWrite a.toNat n) s₀) := by
  refine ensures_probe (e := P.entry s₀.vm a)
    (Q := fun s => AtProbe P a s₀ s ∧ s.reg .rcx = a + BitVec.ofNat 64 n)
    (decides_jcc fun s h => ⟨_, _, .single (h.cmp .rax .guestBase), h.withFlags _, rfl, ?_⟩)
    (decides_jcc fun s h => ⟨_, _, .cons rfl (.single rfl), ⟨(h.setRcx _).withFlags _, ?_⟩, rfl,
    ?_⟩)
    (decides_jcc fun s h => ⟨_, _, .single (h.1.cmp .rcx .guestEnd), h.1.withFlags _, rfl, ?_⟩)
    (decides_jcc fun s h => ⟨_, _, .single ?_, h.withFlags _, rfl, holds_flags (P := P) _⟩)
    (decides_jcc fun s h => ⟨_, _, .single ?_, h.withFlags _, rfl, holds_cow (P := P) _⟩)
    (fun s h => h.1) (ensures_slow hok) (ensures_hit hok)
  · rw [h.rax]
    exact ult_guestBase hok.entry
  · rw [← signExtend_size hok.small, ← h.rax]
    rfl
  · change (s.reg .rax + (BitVec.ofNat 32 n).signExtend 64).ult (s.reg .rax) = _
    rw [h.rax, signExtend_size hok.small]
    exact ult_wraps
  · rw [h.2, holds_a]
    exact ult_guestEnd hok.entry
  · simp only [sem, h.field]
  · simp only [sem, h.field]

end AtProbe

theorem ends_memAccess (s : State) (base : Reg) (off : BitVec 16)
    (hok : AccessOk P s.vm isWrite (s.reg base + off.signExtend 64) n) :
    ∃ q, Ends (sem P) (memAccess P.layout base off n isWrite) 0 s q ∧
      Accessed P (translate P.setup s.vm.mem isWrite (s.reg base + off.signExtend 64).toNat n)
        s q := by
  obtain ⟨s₁, haddr, hrax, hs₁⟩ := computes_accessAddress (P := P) s base off
  obtain ⟨s₂, hindex, hr11, hs₂⟩ := computes_accessIndex (P := P) s₁
  have hprobe : AtProbe P (s.reg base + off.signExtend 64) s s₂ :=
    ⟨(hs₂.reg _ (by decide)).trans hrax, by rw [hr11, hrax],
      hs₁.trans (hs₂.mono (by simp [scratch]))⟩
  obtain ⟨q, hq, hacc⟩ := AtProbe.ensures_fast hok s₂ hprobe
  exact ⟨q, Ends.append (haddr.append hindex) hq, hacc⟩

end

end X86

/-! ## AArch64 -/

namespace AArch64

def spillCallerSaved : List Insn :=
  [.subSp 6, .stp .x9 .x10 0, .stp .x11 .x12 16, .stp .x13 .x14 32]

def restoreCallerSaved : List Insn :=
  [.ldp .x9 .x10 0, .ldp .x11 .x12 16, .ldp .x13 .x14 32, .addSp 6]

/-- A comparison, and a conditional branch over the rest. -/
def testCond (code : List Insn) (cond : Cond) (rest : List Insn) : List Insn :=
  test (fun d => .bcond cond (.rel d)) code rest

/-- The guest address in `x0`. -/
def accessAddress (base : Reg) (off : BitVec 16) : List Insn :=
  (if base ≠ .x0 then [.mov true .x0 base] else []) ++
    if off ≠ 0 then addImm .x0 .x0 (off.signExtend 64) true else []

/-- The address of the entry in `x15`. -/
def accessIndex (l : Layout) : List Insn :=
  [.shiftImm .lsr true .x1 .x0 20, .shiftImm .lsr true .x15 .x0 12,
    .alu .eor true .x15 .x15 .x1] ++
    logicImm .and .x15 .x15 (BitVec.ofNat 64 (tlbSize - 1)) true ++
    [.shiftImm .lsl true .x15 .x15 5, .alu .add true .x15 .x15 .x28] ++
    addImm .x15 .x15 (BitVec.ofNat 64 l.offTlb) true

/-- `.slow`; `emit_far_czero` branches over the jump to the abort exit. -/
def accessSlow (size : ℕ) (isWrite : Bool) : List Insn :=
  spillCallerSaved ++ [.mov true .x1 .x0, .mov true .x0 .x28] ++
    movImm .x2 (BitVec.ofNat 64 size) true ++ [.callMmu isWrite] ++ restoreCallerSaved ++
    [.cbnz true .x0 (.rel 1), .b (.out .abort)]

/-- The address in `x0`, and the jump to `.done`. -/
def accessHit (size : ℕ) (isWrite : Bool) : List Insn :=
  [.ldr true .x1 .x15 TlbField.guestBase.offset, .alu .sub true .x0 .x0 .x1,
    .ldr true .x1 .x15 TlbField.hostBase.offset, .alu .add true .x0 .x0 .x1,
    .b (.rel (accessSlow size isWrite).length)]

/-- For a write, the tests of `flags` and `cow`. -/
def accessPerms (size : ℕ) (isWrite : Bool) : List Insn :=
  if isWrite then
    testCond ([.ldr false .x1 .x15 TlbField.flags.offset] ++ movImm .x2 2 false ++
        [.tst false .x1 .x2]) .eq
      (test (fun d => .cbnz true .x1 (.rel d)) [.ldrb .x1 .x15 TlbField.cow.offset]
        (accessHit size isWrite))
  else accessHit size isWrite

/-- The tests of `guest_base` and `guest_end`. -/
def accessFast (size : ℕ) (isWrite : Bool) : List Insn :=
  testCond [.ldr true .x1 .x15 TlbField.guestBase.offset, .cmp true .x0 .x1] .cc
    (testCond (addImm .x2 .x0 (BitVec.ofNat 64 size) true ++ [.cmp true .x2 .x0]) .cc
      (testCond [.ldr true .x1 .x15 TlbField.guestEnd.offset, .cmp true .x2 .x1] .hi
        (accessPerms size isWrite)))

/-- `begin_mem_access` and `finish_mem_access`. -/
def memAccess (l : Layout) (base : Reg) (off : BitVec 16) (size : ℕ) (isWrite : Bool) :
    List Insn :=
  accessAddress base off ++ accessIndex l ++ (accessFast size isWrite ++ accessSlow size isWrite)

/-- The end of the code of an access: the address that `vm::mmu` or `vm::mmu_w` gives is in `x0`,
or control has left to the abort exit because there is none. -/
structure Accessed (P : Platform) (t : Option HostPtr × Memory.State) (s : State)
    (q : State × Option Exit) : Prop where
  reg : ∀ r ∉ scratch, q.1.reg r = s.reg r
  stack : q.1.stack = s.stack
  vm : q.1.vm = { s.vm with mem := t.2 }
  spurious : q.1.spurious = s.spurious
  exit : q.2 = if t.1.isSome then none else some .abort
  x0 : ∀ p, t.1 = some p → q.1.reg .x0 = P.place p

section
variable {P : Platform} {s s' s₀ : State} {code : List Insn} {cond : Cond} {a : U64} {n : ℕ}
  {isWrite : Bool} {t : Option HostPtr × Memory.State}

theorem decides_bcond {C : Prop} [Decidable C] {R R' : State → Prop}
    (h : ∀ s, R s → ∃ s' f, Computes (sem P) code s s' ∧ R' s' ∧ s'.flags = some f ∧
      cond.holds f = decide C) : Decides (sem P) R R' (fun d => .bcond cond (.rel d)) code C := by
  intro s hs
  obtain ⟨s', f, hc, hs', hf, hcond⟩ := h s hs
  exact ⟨s', hc, hs', fun h _ => sem_bcond_taken hf (hcond.trans (decide_eq_true h)),
    fun h _ => sem_bcond_next hf (hcond.trans (decide_eq_false h))⟩

theorem holds_cc (a b : BitVec n) : Cond.cc.holds (subFlags a b) = a.ult b := by
  rw [Cond.holds, subFlags, Bool.not_not]

theorem holds_hi (a b : BitVec n) : Cond.hi.holds (subFlags a b) = b.ult a := by
  rw [Cond.holds, subFlags, ← Bool.not_or, ult_or_eq, Bool.not_not]

theorem computes_spill (s : State) : Computes (sem P) spillCallerSaved s
    { s with stack := [s.reg .x9, s.reg .x10, s.reg .x11, s.reg .x12, s.reg .x13, s.reg .x14] ++
        s.stack } :=
  .cons rfl (.cons rfl (.cons rfl (.single rfl)))

theorem computes_restore {x₀ x₁ x₂ x₃ x₄ x₅ : U64} {l : List U64}
    (h : s.stack = [x₀, x₁, x₂, x₃, x₄, x₅] ++ l) : Computes (sem P) restoreCallerSaved s
      { (((((s.set .x9 x₀).set .x10 x₁).set .x11 x₂).set .x12 x₃).set .x13 x₄).set .x14 x₅ with
        stack := l } := by
  obtain ⟨reg, flags, stack, vm, spurious⟩ := s
  dsimp only at h
  subst h
  exact .cons rfl (.cons rfl (.cons rfl (.single rfl)))

theorem ends_slow (ha : s.reg .x0 = a) (hn : n < 2 ^ 31)
    (ht : translateSlow P.setup s.vm.mem isWrite a.toNat n = t)
    (hnull : ∀ p, t.1 = some p → P.place p ≠ 0) :
    ∃ q, Ends (sem P) (accessSlow n isWrite) 0 s q ∧ Accessed P t s q := by
  have hsize : (BitVec.ofNat 64 n).toNat = n := by
    rw [toNat_ofNat]
    omega
  obtain ⟨s₁, hcall, hx0, hreg, hstack, hvm, hspur⟩ : ∃ s₁, Computes (sem P) (spillCallerSaved ++
      [.mov true .x1 .x0, .mov true .x0 .x28] ++ movImm .x2 (BitVec.ofNat 64 n) true ++
      [.callMmu isWrite] ++ restoreCallerSaved) s s₁ ∧ s₁.reg .x0 = P.address t.1 ∧
      (∀ r ∉ scratch, s₁.reg r = s.reg r) ∧ s₁.stack = s.stack ∧
      s₁.vm = { s.vm with mem := t.2 } ∧ s₁.spurious = s.spurious := by
    have hargs (s : State) : Computes (sem P) [.mov true .x1 .x0, .mov true .x0 .x28] s
        ((s.set .x1 (s.reg .x0)).set .x0 (s.reg .x28)) := .cons rfl (.single rfl)
    have hhelp (s : State) : Computes (sem P) [.callMmu isWrite] s (s.callMmu P isWrite) :=
      .single rfl
    rw [← ht, ← ha]
    nth_rewrite 2 3 [← hsize]
    refine ⟨_, ((((computes_spill s).append (hargs _)).append (computes_movImm _ .x2 _ true)).append
      (hhelp _)).append (computes_restore rfl), rfl, fun r hr => ?_, rfl, rfl, rfl⟩
    cases r <;> first | rfl | exact absurd (by decide) hr
  refine ⟨(s₁, if t.1.isSome then none else some .abort), ?_, hreg, hstack, hvm, hspur, rfl,
    fun p hp => ?_⟩
  · cases hp : t.1 with
    | none =>
      have hzero : sem P (.cbnz true .x0 (.rel 1)) s₁ = (s₁, .next) := by
        simp [sem, lowAt, hx0, hp, Platform.address]
      exact hcall.append_leaves (.cons hzero (.single rfl))
    | some p =>
      have htaken : sem P (.cbnz true .x0 (.rel 1)) s₁ = (s₁, .jump 1) := by
        simp [sem, lowAt, hx0, hp, Platform.address, jumpTo]
        exact hnull p hp
      exact Ends.append hcall (Computes.over_rest htaken)
  · rw [hx0, hp]
    rfl

theorem computes_accessAddress (s : State) (base : Reg) (off : BitVec 16) :
    ∃ s', Computes (sem P) (accessAddress base off) s s' ∧
      s'.reg .x0 = s.reg base + off.signExtend 64 ∧ Changes scratch s s' := by
  have hmov : Computes (sem P) (if base ≠ .x0 then [.mov true .x0 base] else []) s
      (s.set .x0 (s.reg base)) := by
    split_ifs with hb
    · exact .single rfl
    · rw [not_not.mp hb, set_reg_self]
      exact .nil
  have hset : Changes scratch s (s.set .x0 (s.reg base)) := .set (by decide) s _
  by_cases hoff : off = 0
  · refine ⟨_, hmov.append (by rw [if_neg (not_not.mpr hoff)]; exact .nil), ?_, hset⟩
    rw [State.reg_set_self, hoff]
    simp
  · obtain ⟨s', hadd, hx0, hs'⟩ := computes_addImm (P := P) (s.set .x0 (s.reg base)) .x0
      (n := .x0) (by decide) (off.signExtend 64) true
    refine ⟨s', hmov.append (by rwa [if_pos hoff]), ?_, hset.trans (hs'.mono (by simp [scratch]))⟩
    rw [hx0, State.reg_set_self]
    rfl

/-- What the shifts and masks of `accessIndex` compute. -/
theorem index_value (a : U64) :
    (((a >>> 12 ^^^ a >>> 20) &&& BitVec.ofNat 64 (tlbSize - 1)) <<< 5) =
      BitVec.ofNat 64 (tlbEntrySize * tlbIndex a.toNat) := by
  apply eq_of_toNat_eq
  rw [toNat_shiftLeft, toNat_and, toNat_xor, toNat_ushiftRight,
    toNat_ushiftRight, toNat_ofNat, toNat_ofNat, Nat.shiftLeft_eq,
    show (tlbSize - 1) % 2 ^ 64 = 2 ^ 11 - 1 by rfl, Nat.and_two_pow_sub_one_eq_mod, tlbIndex,
    tlbSize, tlbEntrySize]
  omega

theorem computes_accessIndex (s : State) :
    ∃ s', Computes (sem P) (accessIndex P.layout) s s' ∧
      s'.reg .x15 = s.reg .x28 + BitVec.ofNat 64 (P.layout.offTlb +
        tlbEntrySize * tlbIndex (s.reg .x0).toNat) ∧
      Changes [.x1, .x2, .x15] s s' := by
  have hxor : Computes (sem P) [.shiftImm .lsr true .x1 .x0 20, .shiftImm .lsr true .x15 .x0 12,
      .alu .eor true .x15 .x15 .x1] s (((s.set .x1 (s.reg .x0 >>> 20)).set .x15
        (s.reg .x0 >>> 12)).set .x15 (s.reg .x0 >>> 12 ^^^ s.reg .x0 >>> 20)) :=
    .cons rfl (.cons rfl (.single rfl))
  generalize hs₁ : ((s.set .x1 (s.reg .x0 >>> 20)).set .x15 (s.reg .x0 >>> 12)).set
    .x15 (s.reg .x0 >>> 12 ^^^ s.reg .x0 >>> 20) = s₁ at hxor
  have hc₁ : Changes [.x1, .x2, .x15] s s₁ := by
    rw [← hs₁]
    exact .trans (.set (by decide) s _) (.trans (.set (by decide) _ _) (.set (by decide) _ _))
  have hx₁ : s₁.reg .x15 = s.reg .x0 >>> 12 ^^^ s.reg .x0 >>> 20 := by
    rw [← hs₁, State.reg_set_self]
  obtain ⟨s₂, hand, hx₂, hc₂⟩ := computes_withImm (P := P) s₁ .and .x15 (n := .x15) (by decide)
    (BitVec.ofNat 64 (tlbSize - 1)) true
  have hshift : Computes (sem P) [.shiftImm .lsl true .x15 .x15 5, .alu .add true .x15 .x15 .x28] s₂
      ((s₂.set .x15 (s₂.reg .x15 <<< 5)).set .x15 (s₂.reg .x15 <<< 5 + s₂.reg .x28)) :=
    .cons rfl (.single rfl)
  obtain ⟨s₃, hadd, hx₃, hc₃⟩ := computes_addImm (P := P)
    ((s₂.set .x15 (s₂.reg .x15 <<< 5)).set .x15 (s₂.reg .x15 <<< 5 + s₂.reg .x28)) .x15 (n := .x15)
    (by decide) (BitVec.ofNat 64 P.layout.offTlb) true
  refine ⟨s₃, ((hxor.append hand).append hshift).append hadd, ?_, ?_⟩
  · have hx28 : s₂.reg .x28 = s.reg .x28 := (hc₂.reg _ (by decide)).trans (hc₁.reg _ (by decide))
    have hidx : s₂.reg .x15 <<< 5 =
        BitVec.ofNat 64 (tlbEntrySize * tlbIndex (s.reg .x0).toNat) := by
      rw [hx₂, hx₁]
      exact index_value (s.reg .x0)
    rw [hx₃, State.reg_set_self, hidx, hx28]
    change BitVec.ofNat 64 _ + s.reg .x28 + BitVec.ofNat 64 _ = _
    rw [ofNat_add, add_comm (BitVec.ofNat 64 _) (s.reg .x28), add_assoc,
      add_comm (BitVec.ofNat 64 (tlbEntrySize * _))]
  · exact hc₁.trans ((hc₂.mono (by simp)).trans (.trans (.set (by decide) _ _)
      (.trans (.set (by decide) _ _) (hc₃.mono (by simp)))))

/-- At a test of the entry for `a`, in an access that began in `s₀`. -/
structure AtProbe (P : Platform) (a : U64) (s₀ s : State) : Prop where
  x0 : s.reg .x0 = a
  index : s.reg .x15 = s.reg .x28 + BitVec.ofNat 64 (P.layout.offTlb +
    tlbEntrySize * tlbIndex a.toNat)
  changes : Changes scratch s₀ s

namespace AtProbe

/-- Nothing but `x1`, `x2` and the flags changes during the tests. -/
theorem change (h : AtProbe P a s₀ s) (hs : Changes [.x1, .x2] s s') : AtProbe P a s₀ s' := by
  refine ⟨(hs.reg _ (by decide)).trans h.x0, ?_, h.changes.trans (hs.mono (by simp [scratch]))⟩
  rw [hs.reg _ (by decide), hs.reg _ (by decide), h.index]

theorem field (h : AtProbe P a s₀ s) (f : TlbField) :
    s.fieldAt P (s.reg .x15 + BitVec.ofNat 64 f.offset) = some (.tlb (tlbIndex a.toNat) f) := by
  have hsmall := P.layout.tlb_small
  have hlt := tlbIndex_lt a.toNat
  have hf : f.offset < 32 := by cases f <;> decide
  have haddr : (s.reg .x15 + BitVec.ofNat 64 f.offset - s.reg .x28).toNat =
      P.layout.offTlb + tlbEntrySize * tlbIndex a.toNat + f.offset := by
    rw [h.index, add_assoc, ← ofNat_add, add_comm, add_sub_cancel,
      toNat_ofNat]
    unfold tlbEntrySize tlbSize at *
    omega
  rw [State.fieldAt, haddr, P.layout.field_tlb hlt]

theorem ldr (h : AtProbe P a s₀ s) (hs : Changes [.x0, .x1] s s') (f : TlbField) (is64 : Bool) :
    sem P (.ldr is64 .x1 .x15 f.offset) s' =
      (s'.set .x1 (atWidth is64 (fun _ a _ => a) (P.tlbValue (P.entry s₀.vm a) f) 0), .next) := by
  have hf : s'.fieldAt P (s'.reg .x15 + BitVec.ofNat 64 f.offset) =
      some (.tlb (tlbIndex a.toNat) f) := by
    rw [hs.reg _ (by decide), State.fieldAt, hs.reg .x28 (by decide)]
    exact h.field f
  simp only [sem, hf, Platform.read, hs.vm, h.changes.vm]
  rfl

theorem ensures_slow (hok : AccessOk P s₀.vm isWrite a n)
    (hmiss : ¬Hit (P.entry s₀.vm a) isWrite a.toNat n) :
    Ensures (sem P) (AtProbe P a s₀) (accessSlow n isWrite)
      (Accessed P (translate P.setup s₀.vm.mem isWrite a.toNat n) s₀) := by
  intro s h
  have hnull := hok.nonnull
  rw [translate_of_miss hmiss, ← h.changes.vm] at hnull ⊢
  obtain ⟨q, hq, hacc⟩ := ends_slow h.x0 hok.small rfl hnull
  refine ⟨q, hq, fun r hr => (hacc.reg r hr).trans (h.changes.reg r hr),
    hacc.stack.trans h.changes.stack, ?_, hacc.spurious.trans h.changes.spurious, hacc.exit,
    hacc.x0⟩
  rw [hacc.vm, h.changes.vm]

theorem ensures_hit (hok : AccessOk P s₀.vm isWrite a n)
    (hit : Hit (P.entry s₀.vm a) isWrite a.toNat n) :
    Ensures (sem P) (AtProbe P a s₀) (accessHit n isWrite ++ accessSlow n isWrite)
      (Accessed P (translate P.setup s₀.vm.mem isWrite a.toNat n) s₀) := by
  intro s h
  have hsmall := hok.small
  obtain ⟨p, hp⟩ := hit.hostBase hok.entry hok.pos (by omega)
  have hhost : ((s₀.vm.mem.vms P.setup.vm).tlb (tlbIndex a.toNat)).hostBase = some p := hp
  rw [translate_of_hit hit, hhost]
  refine ⟨_, .cons (h.ldr (.refl _ s) .guestBase true) (.cons rfl (.cons (h.ldr
    (.trans (.set (by decide) s _) (.set (by decide) _ _)) .hostBase true)
      (.cons rfl (Computes.over_rest rfl)))), ?_⟩
  have hkept (w x y z : U64) :
      Changes scratch s₀ ((((s.set .x1 w).set .x0 x).set .x1 y).set .x0 z) :=
    h.changes.trans (.trans (.set (by decide) s w) (.trans (.set (by decide) _ x)
      (.trans (.set (by decide) _ y) (.set (by decide) _ z))))
  refine ⟨(hkept ..).reg, (hkept ..).stack, (hkept ..).vm, (hkept ..).spurious, rfl, ?_⟩
  rintro _ ⟨⟩
  change s.reg .x0 - P.tlbValue _ .guestBase + P.tlbValue _ .hostBase = _
  rw [h.x0]
  exact Platform.place_hit hp hit.base

theorem cmp_field (h : AtProbe P a s₀ s) {r : Reg} (hr : r ≠ .x1) (f : TlbField) :
    ∃ s', Computes (sem P) [.ldr true .x1 .x15 f.offset, .cmp true r .x1] s s' ∧
      s'.flags = some (subFlags (s.reg r) (P.tlbValue (P.entry s₀.vm a) f)) ∧
      Changes [.x1, .x2] s s' := by
  refine ⟨_, .cons (h.ldr (.refl _ s) f true) (.single rfl), ?_,
    .trans (.set (by decide) s _) (.withFlags _ _ _)⟩
  rw [State.flags_withFlags, State.reg_set_self, State.reg_set_of_ne _ _ hr]
  rfl

/-- The end of the access in `x2`, compared with its beginning. -/
theorem cmp_wraps (h : AtProbe P a s₀ s) (n : ℕ) :
    ∃ s', Computes (sem P) (addImm .x2 .x0 (BitVec.ofNat 64 n) true ++ [.cmp true .x2 .x0]) s s' ∧
      s'.flags = some (subFlags (a + BitVec.ofNat 64 n) a) ∧
      s'.reg .x2 = a + BitVec.ofNat 64 n ∧ Changes [.x1, .x2] s s' := by
  obtain ⟨s₁, hadd, hx2, hs₁⟩ := computes_addImm (P := P) s .x2 (n := .x0) (by decide)
    (BitVec.ofNat 64 n) true
  have hval : s₁.reg .x2 = a + BitVec.ofNat 64 n := by
    rw [hx2, h.x0]
    rfl
  have hs₁' : Changes [.x1, .x2] s s₁ := hs₁.mono (by simp)
  refine ⟨_, hadd.append (.single rfl), ?_, hval, hs₁'.trans (.withFlags _ _ _)⟩
  rw [State.flags_withFlags, hval, hs₁'.reg _ (by decide), h.x0]
  rfl

theorem tst_flags (h : AtProbe P a s₀ s) :
    ∃ s', Computes (sem P) ([.ldr false .x1 .x15 TlbField.flags.offset] ++ movImm .x2 2 false ++
        [.tst false .x1 .x2]) s s' ∧
      s'.flags = some (logicFlags ((P.entry s₀.vm a).flags &&& 2)) ∧
      Changes [.x1, .x2] s s' := by
  refine ⟨_, ((Computes.single (h.ldr (.refl _ s) .flags false)).append
    (computes_movImm _ .x2 2 false)).append (.single rfl), ?_,
    .trans (.set (by decide) s _) (.trans (.set (by decide) _ _) (.withFlags _ _ _))⟩
  rw [State.flags_withFlags, State.reg_set_self, State.reg_set_of_ne _ _ (by decide),
    State.reg_set_self]
  simp [lowAt, atWidth, Platform.tlbValue]

theorem ldrb_cow (h : AtProbe P a s₀ s) :
    ∃ s', Computes (sem P) [.ldrb .x1 .x15 TlbField.cow.offset] s s' ∧
      s'.reg .x1 = (if (P.entry s₀.vm a).cow then 1 else 0) ∧ Changes [.x1, .x2] s s' := by
  have hld : sem P (.ldrb .x1 .x15 TlbField.cow.offset) s =
      (s.set .x1 (((P.tlbValue (P.entry s₀.vm a) .cow).truncate 8).zeroExtend 64), .next) := by
    simp only [sem, h.field .cow, Platform.read, h.changes.vm]
    rfl
  refine ⟨_, .single hld, ?_, .set (by decide) s _⟩
  rw [State.reg_set_self, Platform.tlbValue]
  cases (P.entry s₀.vm a).cow <;> rfl

theorem ensures_fast (hok : AccessOk P s₀.vm isWrite a n) :
    Ensures (sem P) (AtProbe P a s₀) (accessFast n isWrite ++ accessSlow n isWrite)
      (Accessed P (translate P.setup s₀.vm.mem isWrite a.toNat n) s₀) := by
  refine ensures_probe (e := P.entry s₀.vm a)
    (Q := fun s => AtProbe P a s₀ s ∧ s.reg .x2 = a + BitVec.ofNat 64 n)
    (decides_bcond fun s h => ?_) (decides_bcond fun s h => ?_) (decides_bcond fun s h => ?_)
    (decides_bcond fun s h => ?_) (fun s h => ?_) (fun s h => h.1) (ensures_slow hok)
    (ensures_hit hok)
  · obtain ⟨s', hcmp, hf, hs'⟩ := h.cmp_field (r := .x0) (by decide) .guestBase
    refine ⟨s', _, hcmp, h.change hs', hf, ?_⟩
    rw [h.x0, holds_cc]
    exact ult_guestBase hok.entry
  · obtain ⟨s', hcmp, hf, hx2, hs'⟩ := h.cmp_wraps n
    exact ⟨s', _, hcmp, ⟨h.change hs', hx2⟩, hf, (holds_cc _ _).trans ult_wraps⟩
  · obtain ⟨s', hcmp, hf, hs'⟩ := h.1.cmp_field (r := .x2) (by decide) .guestEnd
    refine ⟨s', _, hcmp, h.1.change hs', hf, ?_⟩
    rw [h.2, holds_hi]
    exact ult_guestEnd hok.entry
  · obtain ⟨s', htst, hf, hs'⟩ := h.tst_flags
    refine ⟨s', _, htst, h.change hs', hf, ?_⟩
    rw [Bool.eq_iff_iff]
    simp [Cond.holds, logicFlags, hasFlag, pfW]
  · obtain ⟨s', hld, hx1, hs'⟩ := h.ldrb_cow
    refine ⟨s', hld, h.change hs', fun hcow d => ?_, fun hcow d => ?_⟩
    · simp [sem, lowAt, hx1, hcow, jumpTo]
    · simp [sem, lowAt, hx1, hcow]

end AtProbe

theorem ends_memAccess (s : State) (base : Reg) (off : BitVec 16)
    (hok : AccessOk P s.vm isWrite (s.reg base + off.signExtend 64) n) :
    ∃ q, Ends (sem P) (memAccess P.layout base off n isWrite) 0 s q ∧
      Accessed P (translate P.setup s.vm.mem isWrite (s.reg base + off.signExtend 64).toNat n)
        s q := by
  obtain ⟨s₁, haddr, hx0, hs₁⟩ := computes_accessAddress (P := P) s base off
  obtain ⟨s₂, hindex, hx15, hs₂⟩ := computes_accessIndex (P := P) s₁
  have hprobe : AtProbe P (s.reg base + off.signExtend 64) s s₂ := by
    refine ⟨(hs₂.reg _ (by decide)).trans hx0, ?_, hs₁.trans (hs₂.mono (by simp [scratch]))⟩
    rw [hx15, hx0, hs₂.reg _ (by decide)]
  obtain ⟨q, hq, hacc⟩ := AtProbe.ensures_fast hok s₂ hprobe
  exact ⟨q, Ends.append (haddr.append hindex) hq, hacc⟩

end

end AArch64

/-! ## Both back ends -/

/-- The entries of a TLB that fits the segments. -/
theorem validEntry_of_sound {P : Platform} {m : Machine} (h : Sound m.mem P.setup.vm)
    (a : U64) : ValidEntry (P.entry m a) := by
  rcases h.tlb (tlbIndex a.toNat) with hz | ⟨seg, hseg, he⟩
  · rw [Platform.entry, hz]
    exact validEntry_zero
  · rw [Platform.entry, he]
    exact validEntry_ofMap ((h.mapsOk.paddr_lt hseg).trans (h.mapsOk.bound seg hseg))

/-- The code of an access reaches the access with the host address that `vm::mmu` or `vm::mmu_w`
returns, or takes the abort exit if there is none, and that is all it does. -/
theorem probe_agrees_mmu (P : Platform) (r : Regs) (m : Machine) {k n : ℕ} (hk : k ≤ 10)
    (off : BitVec 16) (isWrite : Bool)
    (hok : AccessOk P m isWrite (r k + off.signExtend 64) n) :
    let t := translate P.setup m.mem isWrite (r k + off.signExtend 64).toNat n
    (∀ s : X86.State, X86.Mirrors r s → s.vm = m →
      ∃ s', (∀ q, Ends (X86.sem P) (X86.memAccess P.layout (X86.bpfRegMap k) off n isWrite) 0 s q ↔
          q = (s', if t.1.isSome then none else some .abort)) ∧
        X86.Mirrors r s' ∧ s'.stack = s.stack ∧ s'.vm = { m with mem := t.2 } ∧
        ∀ p, t.1 = some p → s'.reg .rax = P.place p) ∧
    ∀ s : AArch64.State, AArch64.Mirrors r s → s.vm = m →
      ∃ s', (∀ q, Ends (AArch64.sem P)
          (AArch64.memAccess P.layout (AArch64.bpfRegMap k) off n isWrite) 0 s q ↔
          q = (s', if t.1.isSome then none else some .abort)) ∧
        AArch64.Mirrors r s' ∧ s'.stack = s.stack ∧ s'.vm = { m with mem := t.2 } ∧
        ∀ p, t.1 = some p → s'.reg .x0 = P.place p := by
  refine ⟨?_, ?_⟩
  · rintro s hm rfl
    rw [← hm k hk] at hok
    obtain ⟨⟨s', e⟩, hends, hacc⟩ := X86.ends_memAccess s _ off hok
    rw [hm k hk] at hacc
    obtain rfl : e = _ := hacc.exit
    exact ⟨s', fun q => ⟨fun hq => hq.unique hends, fun hq => hq ▸ hends⟩,
      fun j hj => (hacc.reg _ (X86.bpfRegMap_notMem j)).trans (hm j hj), hacc.stack, hacc.vm,
      hacc.rax⟩
  · rintro s hm rfl
    rw [← hm k hk] at hok
    obtain ⟨⟨s', e⟩, hends, hacc⟩ := AArch64.ends_memAccess s _ off hok
    rw [hm k hk] at hacc
    obtain rfl : e = _ := hacc.exit
    exact ⟨s', fun q => ⟨fun hq => hq.unique hends, fun hq => hq ▸ hends⟩,
      fun j hj => (hacc.reg _ (AArch64.bpfRegMap_notMem j)).trans (hm j hj), hacc.stack, hacc.vm,
      hacc.x0⟩

section Example

theorem plainLayout_small : 96 + tlbSize * tlbEntrySize < 2 ^ 31 := by decide

def plainLayout : Layout :=
  ⟨0, 88, 96, by decide, by decide, by decide, by decide, by decide, plainLayout_small⟩

/-- Every region of host memory has 2 GiB for itself. -/
def plainPlatform : Platform where
  layout := plainLayout
  setup := Setup.plain
  place p := BitVec.ofNat 64 ((p.region + 1) * 2 ^ 31 + p.off)
  locate a := ⟨a.toNat / 2 ^ 31 - 1, a.toNat % 2 ^ 31⟩
  junk _ := 0
  place_add p k := by
    rw [← ofNat_add, HostPtr.add, Nat.add_assoc]

/-- A page at `0x2000`, and that address in every register. -/
def probed : Machine :=
  Machine.boot [⟨0x2000, 0x1000, 6, fun _ => 0⟩] (fun _ => 0x2000) 0x1000

theorem sound_probed : Sound probed.mem plainPlatform.setup.vm := by
  have hok : BootOk [⟨0x2000, 0x1000, 6, fun _ => 0⟩] := by
    refine ⟨?_, ?_, ?_⟩ <;> simp [BootSeg.stop]
  exact sound_boot hok

theorem translate_probed : (translate plainPlatform.setup probed.mem true
    (0x2000 + (8 : BitVec 16).signExtend 64).toNat 8).1 = some ⟨0, 8⟩ := by decide +kernel

theorem accessOk_probed :
    AccessOk plainPlatform probed true (0x2000 + (8 : BitVec 16).signExtend 64) 8 := by
  refine ⟨validEntry_of_sound sound_probed _, by decide, by decide, fun p hp => ?_⟩
  obtain rfl := Option.some.inj (translate_probed.symm.trans hp)
  decide

theorem probe_agrees_mmu_probed :
    (∃ s', Computes (X86.sem plainPlatform)
        (X86.memAccess plainLayout (X86.bpfRegMap 1) 8 8 true) ⟨fun _ => 0x2000, none, [], probed⟩
        s' ∧ s'.reg .rax = 0x80000008) ∧
    ∃ s', Computes (AArch64.sem plainPlatform)
        (AArch64.memAccess plainLayout (AArch64.bpfRegMap 1) 8 8 true)
        ⟨fun _ => 0x2000, none, [], probed, 0⟩ s' ∧ s'.reg .x0 = 0x80000008 := by
  obtain ⟨hx86, haarch64⟩ := probe_agrees_mmu plainPlatform (fun _ => 0x2000) probed
    (k := 1) (by decide) 8 true accessOk_probed
  simp only [translate_probed] at hx86 haarch64
  obtain ⟨s, hends, -, -, -, hrax⟩ := hx86 ⟨fun _ => 0x2000, none, [], probed⟩ (fun _ _ => rfl) rfl
  obtain ⟨s', hends', -, -, -, hx0⟩ := haarch64 ⟨fun _ => 0x2000, none, [], probed, 0⟩
    (fun _ _ => rfl) rfl
  exact ⟨⟨s, (hends _).mpr rfl, (hrax _ rfl).trans (by decide)⟩, s', (hends' _).mpr rfl,
    (hx0 _ rfl).trans (by decide)⟩

end Example

end Bpfvm.Jit
