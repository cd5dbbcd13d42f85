import Bpfvm.Jit.Arithmetic
import Bpfvm.Jit.X86

/-!
# Arithmetic on x86-64

`X86Emitter::emit_inline_div` and `X86Emitter::emit_alu`.
-/
namespace Bpfvm.Jit.X86
open Memory Cpu HostCode Function BitVec State

/-! ## Division -/

/-- The result of the division in `rax`. -/
def takeRemainder (is64 isMod : Bool) : List Insn := if isMod then [.mov is64 .rax .rdx] else []

/-- `xor eax, eax` clears the whole register. -/
def clearRax (is64 : Bool) : Insn := .alu .xor is64 .rax (.reg .rax)

def divUnsigned (is64 isMod : Bool) : List Insn :=
  [.alu .xor is64 .rdx (.reg .rdx), .div is64 false .rcx] ++ takeRemainder is64 isMod

/-- `.do_div`. -/
def divSigned (is64 isMod : Bool) : List Insn :=
  [.cqo is64, .div is64 true .rcx] ++ takeRemainder is64 isMod

def cmpMin (is64 : Bool) : List Insn :=
  if is64 then [.movabs .r11 0x8000000000000000, .cmp true .rax (.reg .r11)]
  else [.cmp false .rax (.imm 0x80000000)]

/-- The smallest value by -1: the quotient is in `rax` already. -/
def onOverflow (is64 isMod : Bool) : List Insn :=
  if isMod then [clearRax is64] else if !is64 then [.mov false .rax .rax] else []

/-- `.zero`. -/
def onZero (is64 isMod : Bool) : List Insn :=
  if !isMod then [clearRax is64] else if !is64 then [.mov false .rax .rax] else []

/-- The overflow check and the division; both of its conditional jumps go to `.do_div`. -/
def divGuarded (is64 isMod : Bool) : List Insn :=
  let check := cmpMin is64 ++ .jcc .ne (.rel ((onOverflow is64 isMod).length + 1)) ::
    (onOverflow is64 isMod ++ [.jmp (.rel (divSigned is64 isMod).length)])
  [.cmp is64 .rcx (.imm (-1))] ++ .jcc .ne (.rel check.length) :: (check ++ divSigned is64 isMod)

def divHot (is64 isUnsigned isMod : Bool) : List Insn :=
  if !isUnsigned then divGuarded is64 isMod else divUnsigned is64 isMod

/-- `emit_inline_div`: `rax` by `rcx`. The guest register in `rdx` is saved on the stack. -/
def emitInlineDiv (is64 isUnsigned isMod : Bool) : List Insn :=
  [.push .rdx, .test is64 .rcx (.reg .rcx)] ++
    (.jcc .e (.rel ((divHot is64 isUnsigned isMod).length + 1)) ::
      (divHot is64 isUnsigned isMod ++
        .jmp (.rel (onZero is64 isMod).length) :: onZero is64 isMod)) ++
    [.pop .rdx]

section
variable {P : Platform} {s : State} {is64 isMod : Bool} {cc : Cc} {d : ℤ} {f : Flags}

theorem sem_jcc_taken (hf : s.flags = some f) (h : cc.holds f = true) :
    sem P (.jcc cc (.rel d)) s = (s, .jump d) := by
  simp [sem, hf, h, jumpTo]

theorem sem_jcc_out {e : Exit} (hf : s.flags = some f) (h : cc.holds f = true) :
    sem P (.jcc cc (.out e)) s = (s, .exit e) := by
  simp [sem, hf, h, jumpTo]

theorem sem_jcc_next {t : Target} (hf : s.flags = some f) (h : cc.holds f = false) :
    sem P (.jcc cc t) s = (s, .next) := by
  simp [sem, hf, h]

/-- The code leaves the value in `rax` and changes registers of the list only. -/
def Yields (P : Platform) (l : List Reg) (code : List Insn) (s : State) (x : U64) : Prop :=
  ∃ s', Computes (sem P) code s s' ∧ s'.reg .rax = x ∧ Changes l s s'

end

section
variable {n : ℕ} {a b : BitVec n}

theorem divide_unsigned (hb : b ≠ 0) : divide false 0 a b =
    some (BitVec.ofNat n (a.toNat / b.toNat), BitVec.ofNat n (a.toNat % b.toNat)) := by
  have hlt : a.toNat / b.toNat < 2 ^ n := (Nat.div_le_self _ _).trans_lt a.isLt
  unfold divide
  rw [if_neg hb]
  simp [hlt]

theorem divide_signed (hn : 0 < n) (hb : b ≠ 0)
    (h : ¬(b.toInt = -1 ∧ a.toInt = -2 ^ (n - 1))) :
    divide true (if a.msb then BitVec.allOnes n else 0) a b =
      some (BitVec.ofInt n (a.toInt.tdiv b.toInt), BitVec.ofInt n (a.toInt.tmod b.toInt)) := by
  unfold divide
  rw [if_neg hb, toInt_signFill hn a]
  simp only [if_true, if_pos (tdiv_fits h)]

end

section
variable {P : Platform} {s : State} {is64 isMod : Bool} {a b : U64} {off : BitVec 16}

theorem divideAt_eq {signed : Bool} {hi q r : (n : ℕ) → BitVec n → BitVec n → BitVec n}
    (h : lowAt is64 (fun n a b => divide signed (hi n a b) a b = some (q n a b, r n a b)) a b) :
    divideAt is64 signed (atWidth is64 hi a b) a b =
      some (atWidth is64 q a b, atWidth is64 r a b) := by
  unfold divideAt atWidth
  cases is64 with
  | true => exact h
  | false =>
    simp only [Bool.false_eq_true, if_false]
    rw [truncate_zeroExtend]
    exact congrArg (Option.map _) h

theorem divideAt_unsigned (hb : lowAt is64 (fun _ _ b => b ≠ 0) a b) :
    divideAt is64 false (atWidth is64 (fun _ _ _ => 0) a b) a b =
      some (atWidth is64 (divValue false 0) a b, atWidth is64 (divValue true 0) a b) := by
  refine divideAt_eq (lowAt_imp (fun n _ a b hb => ?_) hb)
  rw [divide_unsigned hb, divValue_unsigned hb, divValue_unsigned hb]
  rfl

theorem divideAt_signed (hoff : off ≠ 0) (hb : lowAt is64 (fun _ _ b => b ≠ 0) a b)
    (ho : ¬lowAt is64 (fun n a b => b.toInt = -1 ∧ a.toInt = -2 ^ (n - 1)) a b) :
    divideAt is64 true (atWidth is64 (fun n a _ => if a.msb then BitVec.allOnes n else 0) a b) a b =
      some (atWidth is64 (divValue false off) a b, atWidth is64 (divValue true off) a b) := by
  refine divideAt_eq (lowAt_imp (fun n hn a b h => ?_) (lowAt_and.mp ⟨hb, not_lowAt.mp ho⟩))
  rw [divide_signed hn h.1 h.2, divValue_signed hoff h.1 h.2, divValue_signed hoff h.1 h.2]
  rfl

theorem atWidth_const_zero (is64 : Bool) (a b : U64) : atWidth is64 (fun _ _ _ => 0) a b = 0 := by
  cases is64 <;> rfl

theorem atWidth_xor_self (is64 : Bool) (a : U64) :
    atWidth is64 (fun n => AluOp.xor.value n) a a = 0 := by
  cases is64 <;> simp [atWidth, AluOp.value]

end

/-! ### The pieces of the division -/

variable {y : Insn} {imm : U32}

section
variable {P : Platform} {s s' : State} {is64 isMod : Bool} {a b x : U64} {off : BitVec 16}
  {l : List Reg} {c c' : List Insn}

theorem Yields.nil (l : List Reg) (s : State) : Yields P l [] s (s.reg .rax) :=
  ⟨s, .nil, rfl, .refl l s⟩

theorem Yields.after (h : Computes (sem P) c s s') (hc : Changes l s s')
    (h' : Yields P l c' s' x) : Yields P l (c ++ c') s x := by
  obtain ⟨s'', hcomp, hrax, hch⟩ := h'
  exact ⟨s'', h.append hcomp, hrax, hc.trans hch⟩

theorem Yields.cons (hs : sem P y s = (s', .next)) (hc : Changes l s s') (h : Yields P l c s' x) :
    Yields P l (y :: c) s x :=
  .after (.single hs) hc h

theorem Yields.jumpOver (hs : sem P y s = (s, .jump c.length)) (h : Yields P l c' s x) :
    Yields P l (y :: (c ++ c')) s x := by
  obtain ⟨s', hcomp, hrax, hch⟩ := h
  exact ⟨s', Ends.jumpOver hs hcomp, hrax, hch⟩

/-- The second of two alternatives. -/
theorem Yields.skip {z : Insn} (hs : sem P y s = (s, .jump (c.length + 1)))
    (h : Yields P l c' s x) : Yields P l (y :: (c ++ z :: c')) s x := by
  obtain ⟨s', hcomp, hrax, hch⟩ := h
  exact ⟨s', .skip hs hcomp, hrax, hch⟩

/-- The first of two alternatives. -/
theorem Yields.choose (hs : sem P y s = (s, .next)) (h : Yields P l c s x) :
    Yields P l (y :: (c ++ .jmp (.rel c'.length) :: c')) s x := by
  obtain ⟨s', hcomp, hrax, hch⟩ := h
  exact ⟨s', .choose hs hcomp rfl, hrax, hch⟩

theorem yields_takeRemainder (hrax : s.reg .rax = atWidth is64 (divValue false off) a b)
    (hrdx : s.reg .rdx = atWidth is64 (divValue true off) a b) :
    Yields P [.rax, .rdx, .r11] (takeRemainder is64 isMod) s
      (atWidth is64 (divValue isMod off) a b) := by
  cases isMod with
  | false => exact ⟨s, .nil, hrax, .refl _ s⟩
  | true =>
    refine ⟨_, .single rfl, ?_, .set (by decide) s _⟩
    rw [reg_set_self, hrdx, atWidth_atWidth]

/-- A division that does not fault. -/
theorem yields_div {signed : Bool}
    (h : divideAt is64 signed (s.reg .rdx) (s.reg .rax) (s.reg .rcx) =
      some (atWidth is64 (divValue false off) a b, atWidth is64 (divValue true off) a b)) :
    Yields P [.rax, .rdx, .r11] ([.div is64 signed .rcx] ++ takeRemainder is64 isMod) s
      (atWidth is64 (divValue isMod off) a b) := by
  have hstep : sem P (.div is64 signed .rcx) s =
      ((s.result .rax (atWidth is64 (divValue false off) a b)).set .rdx
        (atWidth is64 (divValue true off) a b), .next) := by
    simp only [sem, h]
  refine .after (.single hstep) ?_ (yields_takeRemainder ?_ (reg_set_self ..))
  · exact (Changes.result (by decide) s _).trans (.set (by decide) _ _)
  · rw [reg_set_of_ne _ _ (by decide), reg_result_self]

theorem yields_divUnsigned (hb : lowAt is64 (fun _ _ b => b ≠ 0) (s.reg .rax) (s.reg .rcx)) :
    Yields P [.rax, .rdx, .r11] (divUnsigned is64 isMod) s
      (atWidth is64 (divValue isMod 0) (s.reg .rax) (s.reg .rcx)) := by
  have hdiv := divideAt_unsigned hb
  rw [atWidth_const_zero, ← atWidth_xor_self is64 (s.reg .rdx)] at hdiv
  exact .cons rfl (.result (by decide) s _) (yields_div hdiv)

theorem yields_divSigned (hoff : off ≠ 0)
    (hb : lowAt is64 (fun _ _ b => b ≠ 0) (s.reg .rax) (s.reg .rcx))
    (ho : ¬lowAt is64 (fun n a b => b.toInt = -1 ∧ a.toInt = -2 ^ (n - 1))
      (s.reg .rax) (s.reg .rcx)) :
    Yields P [.rax, .rdx, .r11] (divSigned is64 isMod) s
      (atWidth is64 (divValue isMod off) (s.reg .rax) (s.reg .rcx)) :=
  .cons rfl (.set (by decide) s _) (yields_div (divideAt_signed hoff hb ho))

theorem yields_clearRax (hl : .rax ∈ l) : Yields P l [clearRax is64] s 0 :=
  ⟨_, .single rfl, (reg_result_self ..).trans (atWidth_xor_self ..), .result hl s _⟩

/-- The zero extension that the 32-bit form needs where it computes nothing. -/
theorem yields_extend (hl : .rax ∈ l) :
    Yields P l (if !is64 then [.mov false .rax .rax] else []) s
      (atWidth is64 (fun _ a _ => a) (s.reg .rax) b) := by
  cases is64 with
  | true => exact .nil _ s
  | false => exact ⟨_, .single rfl, reg_set_self .., .set hl s _⟩

theorem yields_onZero (hb : lowAt is64 (fun _ _ b => b = 0) (s.reg .rax) (s.reg .rcx)) :
    Yields P [.rax, .rdx, .r11] (onZero is64 isMod) s
      (atWidth is64 (divValue isMod off) (s.reg .rax) (s.reg .rcx)) := by
  rw [atWidth_congr (lowAt_imp (fun _ _ _ _ => divValue_zero) hb)]
  cases isMod with
  | false => exact atWidth_const_zero is64 _ _ ▸ yields_clearRax (by decide)
  | true => exact yields_extend (by decide)

theorem yields_onOverflow (hoff : off ≠ 0)
    (hb : lowAt is64 (fun _ _ b => b ≠ 0) (s.reg .rax) (s.reg .rcx))
    (ho : lowAt is64 (fun n a b => b.toInt = -1 ∧ a.toInt = -2 ^ (n - 1))
      (s.reg .rax) (s.reg .rcx)) :
    Yields P [.rax, .rdx, .r11] (onOverflow is64 isMod) s
      (atWidth is64 (divValue isMod off) (s.reg .rax) (s.reg .rcx)) := by
  rw [atWidth_congr (lowAt_imp (fun _ _ _ _ h => divValue_overflow hoff h.1 h.2)
    (lowAt_and.mp ⟨hb, ho⟩))]
  cases isMod with
  | false => exact yields_extend (by decide)
  | true => exact atWidth_const_zero is64 _ _ ▸ yields_clearRax (by decide)

/-! ### The guards -/

theorem zf_subFlags : (lowAt is64 (fun _ => subFlags) a b).zf = true ↔
    lowAt is64 (fun _ a b => a = b) a b := by
  cases is64 <;> exact beq_iff_eq

theorem zf_logicFlags : (lowAt is64 (fun _ a b => logicFlags (a &&& b)) a b).zf = true ↔
    lowAt is64 (fun _ a b => a &&& b = 0) a b := by
  cases is64 <;> exact beq_iff_eq

theorem eq_iff_toInt {n : ℕ} {x y : BitVec n} {c : ℤ} (h : y.toInt = c) :
    x = y ↔ x.toInt = c := by
  rw [← h, toInt_inj]

theorem zf_cmp_minus_one (is64 : Bool) (a b : U64) :
    (lowAt is64 (fun _ => subFlags) b ((-1 : U32).signExtend 64)).zf = true ↔
      lowAt is64 (fun _ _ b => b.toInt = -1) a b := by
  rw [zf_subFlags]
  cases is64
  · exact eq_iff_toInt (by decide)
  · exact eq_iff_toInt (by decide)

/-- The comparison with the smallest value. -/
theorem computes_cmpMin (is64 : Bool) (s : State) : ∃ s' f, Computes (sem P) (cmpMin is64) s s' ∧
    Changes [.r11] s s' ∧ s'.flags = some f ∧
    (f.zf = true ↔ lowAt is64 (fun n a _ => a.toInt = -2 ^ (n - 1)) (s.reg .rax) (s.reg .rcx)) := by
  cases is64 with
  | true =>
    refine ⟨_, _, .cons rfl (.single rfl), .trans (.set (by decide) s _) (.withFlags _ _ _), rfl,
      ?_⟩
    refine beq_iff_eq.trans (eq_iff_toInt ?_)
    rw [reg_set_self]
    decide
  | false =>
    refine ⟨_, _, .single rfl, .withFlags _ s _, rfl, ?_⟩
    exact beq_iff_eq.trans (eq_iff_toInt (by decide))

theorem yields_divGuarded (hoff : off ≠ 0)
    (hb : lowAt is64 (fun _ _ b => b ≠ 0) (s.reg .rax) (s.reg .rcx)) :
    Yields P [.rax, .rdx, .r11] (divGuarded is64 isMod) s
      (atWidth is64 (divValue isMod off) (s.reg .rax) (s.reg .rcx)) := by
  have hone := zf_cmp_minus_one is64 (s.reg .rax) (s.reg .rcx)
  refine .cons rfl (.withFlags _ s _) ?_
  generalize lowAt is64 (fun _ => subFlags) (s.reg .rcx) ((-1 : U32).signExtend 64) = f at hone ⊢
  cases hf : f.zf with
  | false =>
    -- the divisor is not -1
    refine .jumpOver (sem_jcc_taken rfl (by simp [Cc.holds, hf])) (yields_divSigned hoff hb ?_)
    intro ho
    rw [hone.mpr (lowAt_imp (fun _ _ _ _ h => h.1) ho)] at hf
    cases hf
  | true =>
    obtain ⟨s', f', hcomp, hch, hflags, hmin⟩ :=
      computes_cmpMin (P := P) is64 (s.withFlags f)
    have hrax : s.reg .rax = s'.reg .rax := (hch.reg .rax (by decide)).symm
    have hrcx : s.reg .rcx = s'.reg .rcx := (hch.reg .rcx (by decide)).symm
    rw [reg_withFlags] at hmin
    rw [hrax, hrcx] at hb hone hmin ⊢
    refine .cons (sem_jcc_next rfl (by simp [Cc.holds, hf])) (.refl _ _) ?_
    rw [List.append_assoc, List.cons_append, List.append_assoc]
    refine .after hcomp (hch.mono (by decide)) ?_
    cases hf' : f'.zf with
    | false =>
      refine .skip (sem_jcc_taken hflags (by simp [Cc.holds, hf'])) (yields_divSigned hoff hb ?_)
      intro ho
      rw [hmin.mpr (lowAt_imp (fun _ _ _ _ h => h.2) ho)] at hf'
      cases hf'
    | true =>
      exact .choose (sem_jcc_next hflags (by simp [Cc.holds, hf']))
        (yields_onOverflow hoff hb (lowAt_and.mp ⟨hone.mp hf, hmin.mp hf'⟩))

/-- The division, whether or not the divisor is zero, for a machine that may change `rdx`. -/
theorem yields_divHot (hb : lowAt is64 (fun _ _ b => b ≠ 0) (s.reg .rax) (s.reg .rcx)) :
    Yields P [.rax, .rdx, .r11] (divHot is64 (off == 0) isMod) s
      (atWidth is64 (divValue isMod off) (s.reg .rax) (s.reg .rcx)) := by
  unfold divHot
  by_cases hoff : off = 0
  · simp only [hoff, beq_self_eq_true, Bool.not_true, Bool.false_eq_true, if_false]
    exact yields_divUnsigned hb
  · have hne : (off == 0) = false := beq_eq_false_iff_ne.mpr hoff
    simp only [hne, Bool.not_false, if_true]
    exact yields_divGuarded hoff hb

theorem yields_emitInlineDiv (s : State) (is64 isMod : Bool) (off : BitVec 16) :
    Yields P scratch (emitInlineDiv is64 (off == 0) isMod) s
      (atWidth is64 (divValue isMod off) (s.reg .rax) (s.reg .rcx)) := by
  set f := lowAt is64 (fun _ a b => logicFlags (a &&& b)) (s.reg .rcx) (s.reg .rcx) with hf
  set s₁ := ({ s with stack := s.reg .rdx :: s.stack } : State).withFlags f with hs₁
  have hstart : Computes (sem P) [.push .rdx, .test is64 .rcx (.reg .rcx)] s s₁ :=
    .cons rfl (.single rfl)
  have hzf : f.zf = true ↔ lowAt is64 (fun _ _ b => b = 0) (s.reg .rax) (s.reg .rcx) := by
    rw [hf, zf_logicFlags]
    cases is64 <;> simp [lowAt]
  have hbody : Yields P [.rax, .rdx, .r11]
    (.jcc .e (.rel ((divHot is64 (off == 0) isMod).length + 1)) ::
      (divHot is64 (off == 0) isMod ++ .jmp (.rel (onZero is64 isMod).length) ::
      onZero is64 isMod)) s₁
      (atWidth is64 (divValue isMod off) (s.reg .rax) (s.reg .rcx)) := by
    cases hz : f.zf with
    | true => exact .skip (sem_jcc_taken rfl hz) (yields_onZero (hzf.mp hz))
    | false =>
      refine .choose (sem_jcc_next rfl hz) (yields_divHot (s := s₁) (not_lowAt.mp fun h0 => ?_))
      rw [hzf.mpr h0] at hz
      cases hz
  obtain ⟨s₂, hcomp, hrax, hch⟩ := hbody
  have hpop : sem P (.pop .rdx) s₂ = (({ s₂ with stack := s.stack } : State).set .rdx
      (s.reg .rdx), .next) := by
    simp only [sem, hch.stack, hs₁, stack_withFlags]
  refine ⟨_, (hstart.append hcomp).append (.single hpop), ?_, ?_, rfl, hch.vm⟩
  · rw [reg_set_of_ne _ _ (by decide)]
    exact hrax
  · intro q hq
    by_cases he : q = .rdx
    · rw [he, reg_set_self]
    · rw [reg_set_of_ne _ _ he]
      refine hch.reg q fun hm => ?_
      simp only [scratch, List.mem_cons, List.not_mem_nil, or_false] at hm hq
      tauto

end

/-! ## `emit_alu` -/

/-- The branch for `BPF_MOV` without sign extension. -/
def emitMov (insn : BpfInsn) (is64 : Bool) : List Insn :=
  let dst := bpfRegMap insn.dstReg.toNat
  let src := bpfRegMap insn.srcReg.toNat
  if insn.useReg then
    if is64 ∧ insn.dstReg = insn.srcReg then []
    else if !is64 then [.mov false dst src]
    else if dst ≠ src then [.mov true dst src] else []
  else if is64 then [.movSext .rax insn.imm, .mov true dst .rax]
  else [.movImm32 .rax insn.imm, .mov true dst .rax]

/-- The branch for `BPF_MOV` with sign extension. -/
def emitMovsx (insn : BpfInsn) (is64 : Bool) : Option (List Insn) :=
  let load := if insn.useReg then loadBpf insn.srcReg.toNat .rax
    else [.movabs .rax (insn.imm.signExtend 64)]
  if insn.off ∈ (if is64 then [8, 16, 32] else [8, 16]) then
    some (load ++ [.movsx insn.off.toNat is64 .rax] ++ storeBpf insn.dstReg.toNat .rax)
  else none

/-- The swap of `BPF_END`. -/
def emitSwap (imm : U32) : Option (List Insn) :=
  if imm = 16 then some [.rol16 .rax 8, .movzx16 .rax]
  else if imm = 32 then some [.bswap false .rax]
  else if imm = 64 then some [.bswap true .rax]
  else none

/-- The branch for `BPF_END`. -/
def emitEnd (insn : BpfInsn) (is64 : Bool) : Option (List Insn) :=
  let around := fun code =>
    loadBpf insn.dstReg.toNat .rax ++ code ++ storeBpf insn.dstReg.toNat .rax
  if is64 then (emitSwap insn.imm).map around
  else if !insn.useReg ∧ insn.imm = 64 then some []
  else if insn.useReg then
    if insn.imm = 64 then none else (emitSwap insn.imm).map around
  else if insn.imm = 16 then some (around [.alu .and false .rax (.imm 0xffff)])
  else if insn.imm = 32 then some (around [.mov false .rax .rax])
  else none

/-- A positive immediate that is a power of two. -/
def isPowerOfTwo (imm : U32) : Bool := 0 < imm.toInt ∧ imm &&& (imm - 1) = 0

/-- The amount of a shift: `cl`, or the immediate under the mask of the width. -/
def shiftCount (insn : BpfInsn) (is64 : Bool) : Count :=
  if insn.useReg then .cl
  else .imm ((insn.imm &&& (if is64 then 0x3f else 0x1f)).truncate 8)

/-- The case of `BPF_DIV` behind the load of `dst`. -/
def emitDiv (insn : BpfInsn) (is64 : Bool) : List Insn :=
  if insn.useReg then emitInlineDiv is64 (insn.off == 0) false
  else if insn.imm = 0 then [clearRax is64]
  else if insn.off = 0 ∧ isPowerOfTwo insn.imm then
    [.shift .shr is64 .rax (.imm (insn.imm.ctz.truncate 8))]
  else .movSext .rcx insn.imm :: emitInlineDiv is64 (insn.off == 0) false

/-- The case of `BPF_MOD` behind the load of `dst`, for a divisor other than the constant 0. -/
def emitMod (insn : BpfInsn) (is64 : Bool) : List Insn :=
  if insn.useReg then emitInlineDiv is64 (insn.off == 0) true
  else if insn.off = 0 ∧ isPowerOfTwo insn.imm then
    [.alu .and is64 .rax (.imm (insn.imm - 1))]
  else .movSext .rcx insn.imm :: emitInlineDiv is64 (insn.off == 0) true

/-- Zero extension of a guest register in place. -/
def extendInPlace (insn : BpfInsn) (is64 : Bool) : List Insn :=
  if !is64 then [.mov false (bpfRegMap insn.dstReg.toNat) (bpfRegMap insn.dstReg.toNat)] else []

def srcOperand (insn : BpfInsn) : Operand := if insn.useReg then .reg .rcx else .imm insn.imm

/-- `dst` to `rax` and, with `BPF_X`, `src` to `rcx`. -/
def loadOperands (insn : BpfInsn) : List Insn :=
  loadBpf insn.dstReg.toNat .rax ++ if insn.useReg then loadBpf insn.srcReg.toNat .rcx else []

/-- The `switch`: from `dst` in `rax` and, with `BPF_X`, `src` in `rcx`. -/
def emitOp (insn : BpfInsn) (is64 : Bool) : Option (List Insn) :=
  match aluOp insn with
  | 0x00 => some [.alu .add is64 .rax (srcOperand insn)]
  | 0x10 => some [.alu .sub is64 .rax (srcOperand insn)]
  | 0x40 => some [.alu .or is64 .rax (srcOperand insn)]
  | 0x50 => some [.alu .and is64 .rax (srcOperand insn)]
  | 0xa0 => some [.alu .xor is64 .rax (srcOperand insn)]
  | 0x60 => some [.shift .shl is64 .rax (shiftCount insn is64)]
  | 0x70 => some [.shift .shr is64 .rax (shiftCount insn is64)]
  | 0xc0 => some [.shift .sar is64 .rax (shiftCount insn is64)]
  | 0x20 => some [.alu .imul is64 .rax (srcOperand insn)]
  | 0x30 => some (emitDiv insn is64)
  | 0x90 => some (emitMod insn is64)
  | _ => none

/-- `emit_alu`; nothing where it returns `false`. -/
def emitAlu (insn : BpfInsn) (is64 : Bool) : Option (List Insn) :=
  let dst := insn.dstReg.toNat
  if aluOp insn = 0xb0 ∧ insn.off = 0 then some (emitMov insn is64)
  else if aluOp insn = 0x80 then some (loadBpf dst .rax ++ [.neg is64 .rax] ++ storeBpf dst .rax)
  else if aluOp insn = 0xb0 then emitMovsx insn is64
  else if aluOp insn = 0xd0 then emitEnd insn is64
  else if !insn.useReg ∧ isNop (aluOp insn) insn.imm then some (extendInPlace insn is64)
  else if aluOp insn = 0x90 ∧ !insn.useReg ∧ insn.imm = 0 then
    some (loadOperands insn ++ extendInPlace insn is64)
  else (emitOp insn is64).map fun code => loadOperands insn ++ code ++ storeBpf dst .rax

/-! ## Agreement with the interpreter -/

/-- The code ends with the guest registers `r'` in place, and with the stack, `rbp` and the vm as
they were. -/
def Reaches (P : Platform) (code : List Insn) (s : State) (r' : Regs) : Prop :=
  ∃ s', Computes (sem P) code s s' ∧ Mirrors r' s' ∧
    s'.reg .rbp = s.reg .rbp ∧ s'.stack = s.stack ∧ s'.vm = s.vm

section
variable {P : Platform} {r : Regs} {s s₁ : State} {d : ℕ} {x : U64} {code : List Insn}
  {insn : BpfInsn} {is64 : Bool}

theorem reaches_write (h : Computes (sem P) code s (s₁.set (bpfRegMap d) x))
    (hc : Changes scratch s s₁) (hm : Mirrors r s) (hd : d ≤ 10) :
    Reaches P code s (update r d x) := by
  refine ⟨_, h, (hm.of_changes hc).write hd x, ?_, hc.stack, hc.vm⟩
  rw [reg_set_of_ne _ _ (bpfRegMap_ne_rbp d).symm]
  exact hc.reg .rbp (by decide)

theorem Yields.store (h : Yields P scratch code s x) (hm : Mirrors r s) (hd : d ≤ 10) :
    Reaches P (code ++ storeBpf d .rax) s (update r d x) := by
  obtain ⟨s', hcomp, rfl, hch⟩ := h
  exact reaches_write (hcomp.append (computes_storeBpf s' d .rax)) hch hm hd

theorem Reaches.after {c c' : List Insn} {r' : Regs} (h : Computes (sem P) c s s₁)
    (hc : Changes scratch s s₁) (h' : Reaches P c' s₁ r') : Reaches P (c ++ c') s r' := by
  obtain ⟨s', hcomp, hm, hrbp, hstack, hvm⟩ := h'
  exact ⟨s', h.append hcomp, hm, hrbp.trans (hc.reg _ (by decide)), hstack.trans hc.stack,
    hvm.trans hc.vm⟩

theorem reaches_nil (hm : Mirrors r s) (hx : x = r d) :
    Reaches P [] s (update r d x) := by
  rw [hx, update_eq_self]
  exact ⟨s, .nil, hm, rfl, rfl, rfl⟩

theorem reaches_extendInPlace (hm : Mirrors r s) (hd : insn.dstReg.toNat ≤ 10) :
    Reaches P (extendInPlace insn is64) s (update r insn.dstReg.toNat
      (atWidth is64 (fun _ a _ => a) (r insn.dstReg.toNat) x)) := by
  unfold extendInPlace
  cases is64 with
  | true => exact reaches_nil hm rfl
  | false =>
    rw [← hm _ hd]
    exact reaches_write (.single rfl) (.refl _ s) hm hd

theorem reaches_emitMov (hm : Mirrors r s) (hd : insn.dstReg.toNat ≤ 10)
    (hs : insn.srcReg.toNat ≤ 10) :
    Reaches P (emitMov insn is64) s (update r insn.dstReg.toNat
      (atWidth is64 (aluAt 0xb0 0) (r insn.dstReg.toNat) (srcValue insn r))) := by
  unfold emitMov srcValue
  by_cases hx : insn.useReg
  · simp only [hx, if_true]
    rw [← hm _ hs]
    cases is64 with
    | false => exact reaches_write (.single rfl) (.refl _ s) hm hd
    | true =>
      simp only [true_and, Bool.not_true, Bool.false_eq_true, if_false]
      split_ifs with he hne
      · exact reaches_nil hm (by rw [← he]; exact hm _ hd)
      · exact reaches_write (.single rfl) (.refl _ s) hm hd
      · exact reaches_nil hm (by rw [← not_not.mp hne]; exact hm _ hd)
  · simp only [hx, Bool.false_eq_true, if_false]
    cases is64 with
    | false =>
      have hval : atWidth false (aluAt 0xb0 0) (r insn.dstReg.toNat) (insn.imm.signExtend 64) =
          insn.imm.zeroExtend 64 := congrArg (BitVec.zeroExtend 64) (truncate_signExtend insn.imm)
      rw [hval]
      exact reaches_write (.cons rfl (.single rfl))
        (.set (q := .rax) (by decide) s (insn.imm.zeroExtend 64)) hm hd
    | true => exact reaches_write (.cons rfl (.single rfl)) (.set (by decide) s _) hm hd

/-- A piece between the load of `dst` and the store. -/
theorem reaches_around (hm : Mirrors r s) (hd : d ≤ 10)
    (h : Yields P scratch code (s.set .rax (r d)) x) :
    Reaches P (loadBpf d .rax ++ code ++ storeBpf d .rax) s (update r d x) := by
  have hload := computes_loadBpf (P := P) s d .rax
  rw [hm d hd] at hload
  exact (Yields.after hload (.set (by decide) s _) h).store hm hd

theorem reaches_neg (hm : Mirrors r s) (hd : d ≤ 10) (off : BitVec 16) :
    Reaches P (loadBpf d .rax ++ [.neg is64 .rax] ++ storeBpf d .rax) s
      (update r d (atWidth is64 (aluAt 0x80 off) (r d) x)) := by
  refine reaches_around hm hd ⟨_, .single rfl, ?_, .result (by decide) _ _⟩
  rw [reg_result_self, reg_set_self,
    atWidth_congr (lowAt_of fun n _ a b => aluAt_neg (n := n) (a := a) (b := b))]
  rfl

theorem reaches_emitMovsx (hm : Mirrors r s) (hd : insn.dstReg.toNat ≤ 10)
    (hs : insn.srcReg.toNat ≤ 10) (h0 : insn.off ≠ 0) (he : emitMovsx insn is64 = some code) :
    Reaches P code s (update r insn.dstReg.toNat
      (atWidth is64 (aluAt 0xb0 insn.off) (r insn.dstReg.toNat) (srcValue insn r))) := by
  unfold emitMovsx at he
  dsimp only at he
  rw [Option.ite_none_right_eq_some] at he
  obtain ⟨hoff, he⟩ := he
  obtain rfl := Option.some.inj he
  have hload : Computes (sem P) (if insn.useReg then loadBpf insn.srcReg.toNat .rax
      else [.movabs .rax (insn.imm.signExtend 64)]) s (s.set .rax (srcValue insn r)) := by
    unfold srcValue
    split_ifs with hx
    · rw [← hm _ hs]
      exact computes_loadBpf s _ _
    · exact .single rfl
  refine Yields.store (.after hload (.set (by decide) s _)
    ⟨_, .single rfl, ?_, .set (by decide) _ _⟩) hm hd
  rw [reg_set_self, reg_set_self]
  cases is64 with
  | true => exact (aluAt_movsx (n := 64) h0 hoff).symm
  | false => exact congrArg (BitVec.zeroExtend 64) (aluAt_movsx (n := 32) h0 hoff).symm

/-! ### Byte swaps -/

theorem yields_emitSwap (h : emitSwap imm = some code) :
    ∃ x, swapValue imm (s.reg .rax) = some x ∧ Yields P scratch code s x := by
  unfold emitSwap at h
  unfold swapValue
  split_ifs at h ⊢ <;> obtain rfl := Option.some.inj h
  · refine ⟨_, rfl, _, .cons rfl (.single rfl), ?_,
      .trans (.result (by decide) s _) (.set (by decide) _ _)⟩
    rw [reg_set_self, reg_result_self, ← rotateLeft_eight]
    simp
  · exact ⟨_, rfl, _, .single rfl, reg_set_self .., .set (by decide) s _⟩
  · exact ⟨_, rfl, _, .single rfl, reg_set_self .., .set (by decide) s _⟩

theorem reaches_swap (hm : Mirrors r s) (hd : d ≤ 10)
    (he : (emitSwap imm).map (fun code => loadBpf d .rax ++ code ++ storeBpf d .rax) = some code) :
    ∃ x, swapValue imm (r d) = some x ∧ Reaches P code s (update r d x) := by
  obtain ⟨swap, hswap, rfl⟩ := Option.map_eq_some_iff.mp he
  obtain ⟨x, hx, hy⟩ := yields_emitSwap (P := P) (s := s.set .rax (r d)) hswap
  rw [reg_set_self] at hx
  exact ⟨x, hx, reaches_around hm hd hy⟩

theorem and_ffff (x : U64) :
    atWidth false (fun n => AluOp.and.value n) x ((0xffff : U32).signExtend 64) =
      (x.truncate 16).zeroExtend 64 := by
  simp only [atWidth, Bool.false_eq_true, if_false, AluOp.value, truncate_signExtend]
  refine (congrArg (BitVec.zeroExtend 64) (and_low16 (by decide) _)).trans ?_
  simp

theorem reaches_emitEnd (hm : Mirrors r s) (hd : insn.dstReg.toNat ≤ 10)
    (he : emitEnd insn is64 = some code) :
    ∃ x, endAt is64 insn.useReg insn.imm (r insn.dstReg.toNat) = some x ∧
      Reaches P code s (update r insn.dstReg.toNat x) := by
  cases is64 with
  | true => exact reaches_swap hm hd he
  | false =>
    by_cases hx : insn.useReg
    · -- to big endian
      have h64 : insn.imm ≠ 64 := by
        intro h64
        simp [emitEnd, hx, h64] at he
      rw [show endAt false insn.useReg insn.imm (r insn.dstReg.toNat) =
        swapValue insn.imm (r insn.dstReg.toNat) by simp [endAt, endValue, hx]]
      simp only [emitEnd, Bool.false_eq_true, hx, Bool.not_true, false_and, if_false, if_true,
        h64] at he
      exact reaches_swap hm hd he
    · -- to little endian
      by_cases h64 : insn.imm = 64
      · obtain rfl : [] = code := by simpa [emitEnd, hx, h64] using he
        exact ⟨r insn.dstReg.toNat, by simp [endAt, endValue, hx, h64], reaches_nil hm rfl⟩
      · simp only [emitEnd, Bool.false_eq_true, hx, h64, and_false, if_false] at he
        simp only [endAt, endValue, Bool.false_eq_true, hx, h64, if_false]
        split_ifs at he ⊢
        · obtain rfl := Option.some.inj he
          refine ⟨_, rfl, reaches_around hm hd ⟨_, .single rfl, ?_, .result (by decide) _ _⟩⟩
          rw [reg_result_self, reg_set_self]
          exact and_ffff _
        · obtain rfl := Option.some.inj he
          exact ⟨_, rfl, reaches_around hm hd ⟨_, .single rfl, rfl, .set (by decide) _ _⟩⟩

/-! ### The operations of the `switch` -/

/-- `dst` in `rax` and the operand at hand. -/
structure Loaded (insn : BpfInsn) (r : Regs) (s : State) : Prop where
  dst : s.reg .rax = r insn.dstReg.toNat
  src : insn.useReg → s.reg .rcx = r insn.srcReg.toNat

theorem computes_load (hm : Mirrors r s) (hd : insn.dstReg.toNat ≤ 10)
    (hs : insn.srcReg.toNat ≤ 10) : ∃ s', Computes (sem P) (loadOperands insn) s s' ∧
      Loaded insn r s' ∧ Changes scratch s s' := by
  unfold loadOperands
  have hdst := computes_loadBpf (P := P) s insn.dstReg.toNat .rax
  rw [hm _ hd] at hdst
  have hch : Changes scratch s (s.set .rax (r insn.dstReg.toNat)) := .set (by decide) s _
  split_ifs with hx
  · have hsrc := computes_loadBpf (P := P) (s.set .rax (r insn.dstReg.toNat)) insn.srcReg.toNat .rcx
    rw [(hm.of_changes hch) _ hs] at hsrc
    refine ⟨_, hdst.append hsrc, ⟨?_, fun _ => reg_set_self ..⟩, hch.trans (.set (by decide) _ _)⟩
    rw [reg_set_of_ne _ _ (by decide), reg_set_self]
  · exact ⟨_, hdst.append .nil, ⟨reg_set_self .., fun h => absurd h hx⟩, hch⟩

theorem Loaded.operand (h : Loaded insn r s) :
    s.operand P (srcOperand insn) = some (srcValue insn r) := by
  unfold srcOperand srcValue
  split_ifs with hx
  · exact congrArg some (h.src hx)
  · rfl

theorem Loaded.yields_alu (h : Loaded insn r s) (op : AluOp) :
    Yields P scratch [.alu op is64 .rax (srcOperand insn)] s
      (atWidth is64 (fun n => op.value n) (r insn.dstReg.toNat) (srcValue insn r)) := by
  refine ⟨s.result .rax (atWidth is64 (fun n => op.value n) (s.reg .rax) (srcValue insn r)),
    .single ?_, ?_, .result (by decide) s _⟩
  · simp only [sem, h.operand]
  · rw [reg_result_self, h.dst]

/-- The amount of a shift, taken modulo the width. -/
theorem Loaded.shift_amount (h : Loaded insn r s) (is64 : Bool) :
    s.count (shiftCount insn is64) % (if is64 then 64 else 32) =
      (srcValue insn r).toNat % (if is64 then 64 else 32) := by
  unfold shiftCount srcValue
  split_ifs with hx h64 h64
  · rw [State.count, h.src hx]
  · rw [State.count, h.src hx]
  · have himm := toNat_signExtend_mod insn.imm
    have hmask : (insn.imm &&& 0x3f).toNat = insn.imm.toNat % 64 :=
      (toNat_and ..).trans (Nat.and_two_pow_sub_one_eq_mod _ 6)
    simp only [State.count, truncate_eq_setWidth, toNat_setWidth, hmask]
    omega
  · have himm := toNat_signExtend_mod insn.imm
    have hmask : (insn.imm &&& 0x1f).toNat = insn.imm.toNat % 32 :=
      (toNat_and ..).trans (Nat.and_two_pow_sub_one_eq_mod _ 5)
    simp only [State.count, truncate_eq_setWidth, toNat_setWidth, hmask]
    omega

theorem Loaded.yields_shift (h : Loaded insn r s) (op : ShiftOp) :
    Yields P scratch [.shift op is64 .rax (shiftCount insn is64)] s
      (atWidth is64 (fun n a b => op.value n (b &&& BitVec.ofNat n (n - 1)).toNat a)
        (r insn.dstReg.toNat) (srcValue insn r)) := by
  have hk := (h.shift_amount is64).trans (toNat_mask is64 0 (srcValue insn r)).symm
  refine ⟨_, .single rfl, ?_, .result (by decide) s _⟩
  rw [reg_result_self, h.dst, hk]
  cases is64 <;> rfl

/-! ### Powers of two -/

theorem exists_pow (h : isPowerOfTwo imm) :
    ∃ k < 31, imm.toNat = 2 ^ k ∧ (imm - 1).toNat = 2 ^ k - 1 ∧ imm.ctz.toNat = k := by
  simp only [isPowerOfTwo, decide_eq_true_eq] at h
  obtain ⟨hpos, hand⟩ := h
  have hlt := toInt_lt (x := imm)
  rw [toInt_eq_toNat_cond] at hpos hlt
  have hsmall : 0 < imm.toNat ∧ imm.toNat < 2 ^ 31 := by
    split_ifs at hpos hlt <;> omega
  have hsub : (imm - 1).toNat = imm.toNat - 1 := by
    have hone : (1 : U32).toNat = 1 := rfl
    rw [toNat_sub, hone]
    omega
  have hnat := congrArg BitVec.toNat hand
  rw [toNat_and, hsub] at hnat
  obtain ⟨k, hk⟩ := (Nat.and_sub_one_eq_zero_iff_isPowerOfTwo (by omega)).mp hnat
  have hk31 : k < 31 := (Nat.pow_lt_pow_iff_right (by decide : 1 < 2)).mp (hk ▸ hsmall.2)
  have hne : imm ≠ 0#32 := by
    intro h0
    rw [h0] at hsmall
    simp at hsmall
  have hbit := getLsbD_true_ctz_of_ne_zero hne
  rw [BitVec.getLsbD, hk, Nat.testBit_two_pow, decide_eq_true_eq] at hbit
  exact ⟨k, hk31, hk, hk ▸ hsub, hbit.symm⟩

section
variable {n k : ℕ} {a b : BitVec n}

theorem ne_zero_of_pow (hb : b.toNat = 2 ^ k) : b ≠ 0 := by
  have hpos := Nat.two_pow_pos k
  rintro rfl
  simp only [ofNat_eq_ofNat, toNat_zero] at hb
  omega

theorem divValue_pow (hb : b.toNat = 2 ^ k) : divValue false 0 n a b = a >>> k := by
  rw [divValue_unsigned (ne_zero_of_pow hb), hb]
  apply eq_of_toNat_eq
  rw [toNat_ushiftRight, Nat.shiftRight_eq_div_pow]
  exact (toNat_ofNat ..).trans
    (Nat.mod_eq_of_lt ((Nat.div_le_self ..).trans_lt a.isLt))

theorem modValue_pow {c : BitVec n} (hb : b.toNat = 2 ^ k) (hc : c.toNat = 2 ^ k - 1) :
    divValue true 0 n a b = a &&& c := by
  rw [divValue_unsigned (ne_zero_of_pow hb), hb]
  apply eq_of_toNat_eq
  rw [toNat_and, hc, Nat.and_two_pow_sub_one_eq_mod]
  exact (toNat_ofNat ..).trans (Nat.mod_eq_of_lt ((Nat.mod_le ..).trans_lt a.isLt))

end

theorem yields_shr_pow (h : isPowerOfTwo imm) :
    Yields P scratch [.shift .shr is64 .rax (.imm (imm.ctz.truncate 8))] s
      (atWidth is64 (divValue false 0) (s.reg .rax) (imm.signExtend 64)) := by
  obtain ⟨k, hk, himm, -, hctz⟩ := exists_pow h
  have hlow := toNat_signExtend_low is64 (s.reg .rax) (x := imm)
    (himm ▸ Nat.pow_lt_pow_right (by decide) hk)
  have hcount : s.count (.imm (imm.ctz.truncate 8)) % (if is64 then 64 else 32) = k := by
    simp only [State.count, truncate_eq_setWidth, toNat_setWidth, hctz]
    split_ifs <;> omega
  refine ⟨_, .single rfl, ?_, .result (by decide) s _⟩
  rw [reg_result_self, hcount,
    atWidth_congr (lowAt_imp (fun _ _ _ _ h => divValue_pow (h.trans himm)) hlow)]
  rfl

theorem yields_and_pow (h : isPowerOfTwo imm) :
    Yields P scratch [.alu .and is64 .rax (.imm (imm - 1))] s
      (atWidth is64 (divValue true 0) (s.reg .rax) (imm.signExtend 64)) := by
  obtain ⟨k, hk, himm, hsub, -⟩ := exists_pow h
  have hpow : 2 ^ k < 2 ^ 31 := Nat.pow_lt_pow_right (by decide) hk
  have hlow := toNat_signExtend_low is64 (s.reg .rax) (x := imm) (himm ▸ hpow)
  have hlow' := toNat_signExtend_low is64 (s.reg .rax) (x := imm - 1) (by omega)
  refine ⟨_, .single rfl, ?_, .result (by decide) s _⟩
  rw [reg_result_self]
  cases is64 with
  | true => exact (modValue_pow (hlow.trans himm) (hlow'.trans hsub)).symm
  | false =>
    exact congrArg (BitVec.zeroExtend 64) (modValue_pow (hlow.trans himm) (hlow'.trans hsub)).symm

/-! ### The whole of `emit_alu` -/

/-- The division by a constant in `rcx`. -/
theorem Loaded.yields_divImm (h : Loaded insn r s) (hx : ¬insn.useReg) (isMod : Bool) :
    Yields P scratch (.movSext .rcx insn.imm :: emitInlineDiv is64 (insn.off == 0) isMod) s
      (atWidth is64 (divValue isMod insn.off) (r insn.dstReg.toNat) (srcValue insn r)) := by
  have hy := yields_emitInlineDiv (P := P) (s.set .rcx (insn.imm.signExtend 64)) is64 isMod insn.off
  rw [reg_set_self, reg_set_of_ne _ _ (by decide), h.dst] at hy
  rw [srcValue, if_neg hx]
  exact .cons rfl (.set (by decide) s _) hy

theorem Loaded.yields_divReg (h : Loaded insn r s) (hx : insn.useReg) (isMod : Bool) :
    Yields P scratch (emitInlineDiv is64 (insn.off == 0) isMod) s
      (atWidth is64 (divValue isMod insn.off) (r insn.dstReg.toNat) (srcValue insn r)) := by
  rw [srcValue, if_pos hx, ← h.dst, ← h.src hx]
  exact yields_emitInlineDiv s is64 isMod insn.off

theorem Loaded.yields_emitDiv (h : Loaded insn r s) :
    Yields P scratch (emitDiv insn is64) s
      (atWidth is64 (aluAt 0x30 insn.off) (r insn.dstReg.toNat) (srcValue insn r)) := by
  unfold emitDiv
  split_ifs with hx h0 hp
  · exact h.yields_divReg hx false
  · have hzero := lowAt_srcValue_zero (r := r) hx h0 is64 (r insn.dstReg.toNat)
    change Yields _ _ _ _ (atWidth is64 (divValue false insn.off) _ _)
    rw [atWidth_congr (lowAt_imp (fun _ _ _ _ => divValue_zero) hzero)]
    exact atWidth_const_zero is64 _ _ ▸ yields_clearRax (by decide)
  · rw [hp.1, srcValue, if_neg hx, ← h.dst]
    exact yields_shr_pow hp.2
  · exact h.yields_divImm hx false

theorem Loaded.yields_emitMod (h : Loaded insn r s) :
    Yields P scratch (emitMod insn is64) s
      (atWidth is64 (aluAt 0x90 insn.off) (r insn.dstReg.toNat) (srcValue insn r)) := by
  unfold emitMod
  split_ifs with hx hp
  · exact h.yields_divReg hx true
  · rw [hp.1, srcValue, if_neg hx, ← h.dst]
    exact yields_and_pow hp.2
  · exact h.yields_divImm hx true

theorem Loaded.yields_emitOp (h : Loaded insn r s) (he : emitOp insn is64 = some code) :
    Yields P scratch code s (atWidth is64 (aluAt (aluOp insn) insn.off)
      (r insn.dstReg.toNat) (srcValue insn r)) := by
  unfold emitOp at he
  split at he <;> rename_i hop <;> cases he <;> rw [hop]
  · exact h.yields_alu .add
  · exact h.yields_alu .sub
  · exact h.yields_alu .or
  · exact h.yields_alu .and
  · exact h.yields_alu .xor
  · exact h.yields_shift .shl
  · exact h.yields_shift .shr
  · exact h.yields_shift .sar
  · exact h.yields_alu .imul
  · exact h.yields_emitDiv
  · exact h.yields_emitMod

/-- The code of `emit_alu` computes what the interpreter computes. -/
theorem reaches_emitAlu (hm : Mirrors r s) (hd : insn.dstReg.toNat < 10)
    (hs : insn.srcReg.toNat ≤ 10) (he : emitAlu insn is64 = some code) :
    ∃ r', aluOf is64 insn r = some r' ∧ Reaches P code s r' := by
  have hd' : insn.dstReg.toNat ≤ 10 := hd.le
  unfold emitAlu at he
  dsimp only at he
  split_ifs at he with hmov hneg hmovsx hend hnop hmod
  · obtain rfl := Option.some.inj he
    refine ⟨_, aluOf_eq hd (by omega), ?_⟩
    rw [hmov.1, hmov.2]
    exact reaches_emitMov hm hd' hs
  · obtain rfl := Option.some.inj he
    refine ⟨_, aluOf_eq hd (by omega), ?_⟩
    rw [hneg]
    exact reaches_neg hm hd' _
  · refine ⟨_, aluOf_eq hd (by omega), ?_⟩
    rw [hmovsx]
    exact reaches_emitMovsx hm hd' hs (fun h0 => hmov ⟨hmovsx, h0⟩) he
  · obtain ⟨x, hx, hreach⟩ := reaches_emitEnd (P := P) hm hd' he
    rw [aluOf_end hd hend, hx]
    exact ⟨_, rfl, hreach⟩
  · obtain rfl := Option.some.inj he
    refine ⟨_, aluOf_eq hd hend, ?_⟩
    have hx : ¬insn.useReg := by simpa using hnop.1
    rw [srcValue, if_neg hx, atWidth_congr (lowAt_nop hnop.2)]
    exact reaches_extendInPlace hm hd'
  · obtain rfl := Option.some.inj he
    refine ⟨_, aluOf_eq hd hend, ?_⟩
    have hx : ¬insn.useReg := by simpa using hmod.2.1
    have hzero := lowAt_srcValue_zero (r := r) hx hmod.2.2 is64 (r insn.dstReg.toNat)
    rw [hmod.1]
    change Reaches _ _ _ (update _ _ (atWidth is64 (divValue true insn.off) _ _))
    rw [atWidth_congr (lowAt_imp (fun _ _ _ _ => divValue_zero) hzero)]
    obtain ⟨s', hload, -, hch⟩ := computes_load (P := P) hm hd' hs
    exact .after hload hch (reaches_extendInPlace (hm.of_changes hch) hd')
  · refine ⟨_, aluOf_eq hd hend, ?_⟩
    obtain ⟨code, hcode, rfl⟩ := Option.map_eq_some_iff.mp he
    obtain ⟨s', hload, hl, hch⟩ := computes_load (P := P) hm hd' hs
    exact (Yields.after hload hch (hl.yields_emitOp hcode)).store hm hd'

end

end Bpfvm.Jit.X86
