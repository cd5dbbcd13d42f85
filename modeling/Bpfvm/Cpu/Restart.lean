import Bpfvm.Cpu.Native

/-!
# Restarting interrupted system calls

A monitor reads what a vm shows and refuses it when an interrupted system call is neither
repeated with its arguments nor reported to a handler as `-EINTR`, or when the vm goes back to
a system call that has not been interrupted.
-/
namespace Bpfvm.Cpu
open Memory Machine

/-- What is still owed to the guest. -/
inductive Phase where
  | idle
  /-- The system call at `p` was interrupted. -/
  | interrupted (p : U64) (args : List U64)
  /-- The vm has gone back to it. -/
  | again (p : U64) (args : List U64)
  /-- The guest was killed for want of stack. -/
  | dead
  deriving DecidableEq

open Phase

variable {ph : Phase} {m m' : Machine}

namespace Phase

/-- The phase behind an executed instruction. -/
def after (pc : U64) (args : List U64) : Outcome → Phase
  | .restart _ => interrupted pc args
  | _ => idle

def next : Phase → Event → Option Phase
  | _, .failed => some dead
  | idle, .exec pc args out => some (after pc args out)
  | idle, .handler .. => some idle
  | idle, .again .. => none
  | interrupted p args, .again pc args' =>
    if pc = p ∧ args' = args then some (again p args) else none
  | interrupted p args, .handler ret r0 args' =>
    if args' = args ∧ (ret = p ∨ ret = p + 8 ∧ r0 = -eintr) then some idle else none
  | interrupted .., .exec .. => none
  | again p args, .exec pc args' out =>
    if pc = p ∧ args' = args then some (after pc args' out) else none
  | again p args, .handler ret _ args' => if ret = p ∧ args' = args then some idle else none
  | again .., .again .. => none
  | dead, .exec .. => none
  | dead, _ => some dead

/-- The pending restart of the machine is what is owed. -/
def Fits (m : Machine) : Phase → Prop
  | idle => m.restartPc = 0
  | interrupted p args => p ≠ 0 ∧ m.restartPc = p ∧ m.args = args
  | again p args => m.restartPc = 0 ∧ m.pc = p ∧ m.args = args
  | dead => m.flags &&& sticky ≠ 0

/-- The machine may go on. -/
def Settled (m : Machine) : Phase → Prop
  | idle => m.restartPc = 0
  | again p args => m.restartPc = 0 ∧ m.pc = p ∧ m.args = args
  | _ => False

theorem Settled.fits (h : ph.Settled m) : ph.Fits m := by
  cases ph with
  | idle => exact h
  | interrupted p args => exact h.elim
  | again p args => exact h
  | dead => exact h.elim

theorem Settled.ne_dead (h : ph.Settled m) : ph ≠ dead := by
  rintro rfl
  exact h

theorem Settled.restartPc (h : ph.Settled m) : m.restartPc = 0 := by
  cases ph with
  | idle => exact h
  | interrupted p args => exact h.elim
  | again p args => exact h.1
  | dead => exact h.elim

/-- What the phases before the end depend on. -/
theorem Fits.congr (h : ph.Fits m) (hd : ph ≠ dead) (hr : m'.restartPc = m.restartPc)
    (hpc : m'.pc = m.pc) (ha : m'.args = m.args) : ph.Fits m' := by
  cases ph with
  | idle => exact hr.trans h
  | interrupted p args => exact ⟨h.1, hr.trans h.2.1, ha.trans h.2.2⟩
  | again p args => exact ⟨hr.trans h.1, hpc.trans h.2.1, ha.trans h.2.2⟩
  | dead => exact absurd rfl hd

theorem Settled.congr (h : ph.Settled m) (hr : m'.restartPc = m.restartPc) (hpc : m'.pc = m.pc)
    (ha : m'.args = m.args) : ph.Settled m' := by
  cases ph with
  | idle => exact hr.trans h
  | interrupted p args => exact h.elim
  | again p args => exact ⟨hr.trans h.1, hpc.trans h.2.1, ha.trans h.2.2⟩
  | dead => exact h.elim

end Phase

variable {entry : U64} {w : World} {n : ℕ}

section
variable {c : Setup}

/-! ## Delivery -/

theorem killed_sticky (f : U32) : (f ||| vmKilled) &&& sticky ≠ 0 := by
  intro hz
  have hbit := congrArg (BitVec.getLsbD · 2) hz
  simp [sticky, vmKilled, vmExited, vmBudgetExceeded] at hbit

theorem takeRestart_args (info : SigInfo) : (m.takeRestart info).2.args = m.args := by
  unfold takeRestart
  split_ifs <;> simp [args, setReg]

/-- The frame of a handler pays what is owed. -/
theorem next_handler (info : SigInfo) (h : ph.Fits m) (hd : ph ≠ .dead) :
    ph.next (.handler (m.takeRestart info).1 ((m.takeRestart info).2.reg 0)
      (m.takeRestart info).2.args) = some .idle := by
  rw [takeRestart_args]
  cases ph with
  | idle => rfl
  | interrupted p args =>
    obtain ⟨hp, hr, ha⟩ := h
    refine if_pos ⟨ha, ?_⟩
    rw [takeRestart, hr, if_neg hp]
    split_ifs
    · exact .inl rfl
    · exact .inr ⟨rfl, by simp [setReg]⟩
  | again p args =>
    obtain ⟨hr, hpc, ha⟩ := h
    refine if_pos ⟨?_, ha⟩
    rw [takeRestart, if_pos hr]
    exact hpc
  | dead => exact absurd rfl hd

/-- What one `deliver_signal` does to the debt. -/
theorem deliver_fits (x : Handled) (h : ph.Fits m) (hd : ph ≠ .dead) :
    ∃ ph', (m.deliverEvents c x).foldlM next ph = some ph' ∧
      ph'.Fits (m.deliverSignal c x).2 ∧
      ((m.deliverSignal c x).1 = true → ph'.Settled (m.deliverSignal c x).2) ∧
      (ph = .idle → ph' = .idle ∨ ph' = .dead) := by
  cases x with
  | fatal => exact ⟨ph, rfl, h, by simp [deliverSignal], .inl⟩
  | none =>
    cases ph with
    | idle =>
      refine ⟨.idle, by simp [deliverEvents, show m.restartPc = 0 from h], ?_⟩
      simp [deliverSignal, Phase.Fits, Phase.Settled, show m.restartPc = 0 from h]
    | interrupted p args =>
      obtain ⟨hp, hr, ha⟩ := h
      refine ⟨.again p args, ?_, ?_⟩
      · rw [deliverEvents, hr, if_neg hp, ha]
        simp [next]
      · rw [deliverSignal, hr, if_neg hp]
        exact ⟨⟨rfl, rfl, ha⟩, fun _ => ⟨rfl, rfl, ha⟩, by simp⟩
    | again p args =>
      refine ⟨.again p args, by simp [deliverEvents, h.1], ?_⟩
      simp only [deliverSignal, h.1, ↓reduceIte]
      exact ⟨h, fun _ => h, by simp⟩
    | dead => exact absurd rfl hd
  | handler info =>
    rcases deliverSignal_handler c m info with ⟨hnone, hout⟩ | ⟨⟨bs, hsome⟩, -, hcase⟩
    · rw [hout]
      exact ⟨ph, by simp [deliverEvents, hnone], h.congr hd rfl rfl rfl, by simp, .inl⟩
    · rcases hcase with ⟨hok, hr, -⟩ | ⟨hok, hk, -⟩
      · refine ⟨.idle, ?_, hr, fun _ => hr, fun _ => .inl rfl⟩
        simp [deliverEvents, hsome, hok, next_handler info h hd]
      · refine ⟨.dead, ?_, ?_, by simp [hok], fun _ => .inr rfl⟩
        · simp only [deliverEvents, hsome, hok]
          cases ph <;> rfl
        · rw [Phase.Fits, hk]
          exact killed_sticky m.flags

/-! ## Safepoints -/

/-- The delivery that `safepoint` makes when no handler is running. -/
theorem deliver_first_fits (x : Handled) (h : ph.Fits m) (hd : ph ≠ .dead) :
    ∃ ph', (if m.signalDepth = 0 then m.deliverEvents c x else []).foldlM next ph =
        some ph' ∧
      ph'.Fits (if m.signalDepth = 0 then m.deliverSignal c x else (true, m)).2 ∧
      ((if m.signalDepth = 0 then m.deliverSignal c x else (true, m)).1 = true →
        ph' ≠ .dead) ∧
      (ph = .idle → ph' = .idle ∨ ph' = .dead) := by
  split_ifs
  · obtain ⟨ph', he, hf, hs, hi⟩ := deliver_fits (c := c) x h hd
    exact ⟨ph', he, hf, fun ht => (hs ht).ne_dead, hi⟩
  · exact ⟨ph, rfl, h, fun _ => hd, .inl⟩

theorem safepoint_fits (w : SafepointWorld) (h : ph.Fits m) (hd : ph ≠ .dead) :
    ∃ ph', (m.safepointEvents c w).foldlM next ph = some ph' ∧
      ph'.Fits (m.safepoint c w).2 ∧
      ((m.safepoint c w).1 = true → ph'.Settled (m.safepoint c w).2) ∧
      (ph = .idle → ph' = .idle ∨ ph' = .dead) := by
  have h₀ : ph.Fits { m with flags := m.flags &&& ~~~vmJitAbort } := h.congr hd rfl rfl rfl
  obtain ⟨ph₁, he₁, hf₁, hd₁, hi₁⟩ := deliver_first_fits (c := c) w.first h₀ hd
  unfold safepointEvents safepoint
  dsimp only at he₁ hf₁ hd₁ ⊢
  generalize (if m.signalDepth = 0 then deliverSignal c _ w.first else _) = r at hf₁ hd₁ ⊢
  generalize (if m.signalDepth = 0 then deliverEvents c _ w.first else _) = es at he₁ ⊢
  obtain ⟨_ | _, m₁⟩ := r
  · exact ⟨ph₁, he₁, hf₁, by simp, hi₁⟩
  · have hd₁ : ph₁ ≠ .dead := hd₁ rfl
    have h₁ : ph₁.Fits { m₁ with flags := w.flags } := hf₁.congr hd₁ rfl rfl rfl
    dsimp only
    split_ifs with hstop hkill
    · refine ⟨ph₁, he₁, h₁.congr hd₁ rfl rfl ?_, by simp, hi₁⟩
      simp [args, setReg]
    · exact ⟨ph₁, he₁, h₁, by simp, hi₁⟩
    · obtain ⟨ph₂, he₂, hf₂, hs₂, hi₂⟩ := deliver_fits (c := c) w.second h₁ hd₁
      refine ⟨ph₂, ?_, hf₂, hs₂, fun hi => hi₂ ((hi₁ hi).resolve_right hd₁)⟩
      rw [List.foldlM_append, he₁]
      exact he₂

/-- A vm that is to end leaves every safepoint with `false`. -/
theorem safepoint_of_sticky {w : SafepointWorld} (h : m.flags &&& sticky ≠ 0)
    (hw : KeepsSticky m.flags w.flags) : (m.safepoint c w).1 = false := by
  unfold safepoint
  dsimp only
  split
  · rfl
  · have hstop : w.flags &&& (vmExited ||| vmKilled ||| vmBudgetExceeded) ≠ 0 := hw h
    rw [if_pos hstop]

theorem deliverEvents_dead (x : Handled) :
    (m.deliverEvents c x).foldlM next .dead = some .dead := by
  cases x with
  | fatal => rfl
  | none | handler info =>
    rw [deliverEvents]
    split_ifs <;> rfl

theorem safepointEvents_dead (w : SafepointWorld) :
    (m.safepointEvents c w).foldlM next .dead = some .dead := by
  have hfirst : (if m.signalDepth = 0 then
      ({ m with flags := m.flags &&& ~~~vmJitAbort } : Machine).deliverEvents c w.first
      else []).foldlM next .dead = some .dead := by
    split_ifs
    · exact deliverEvents_dead _
    · rfl
  unfold safepointEvents
  dsimp only
  generalize (if m.signalDepth = 0 then deliverEvents c _ w.first else _) = es at hfirst ⊢
  split
  · exact hfirst
  · split_ifs
    · exact hfirst
    · rw [List.foldlM_append, hfirst]
      exact deliverEvents_dead _

/-! ## Instructions -/

theorem next_exec (h : ph.Settled m) (out : Outcome) :
    ph.next (.exec m.pc m.args out) = some (.after m.pc m.args out) := by
  cases ph with
  | idle => rfl
  | interrupted p args => exact h.elim
  | again p args => exact if_pos h.2
  | dead => exact h.elim

/-- No `siglongjmp` looks like an interrupted call, and none at address 0 is interrupted. -/
def Event.Orderly : Event → Prop
  | .exec pc _ (.restart call) => pc ≠ 0 ∧ call ≠ callSiglongjmp
  | _ => True

theorem doSyscall_fits (hw : w.Restartable) {call : U32} (hr : m.restartPc = 0)
    {out : Outcome} (hout : out = if (w.syscall call m).1 = syscallRestart ∨
      (w.syscall call m).1 = syscallRestartNohand then .restart call else .done)
    (ho : (Event.exec m.pc m.args out).Orderly) :
    (after m.pc m.args out).Fits (m.doSyscall w call).2 := by
  unfold doSyscall
  dsimp only
  split_ifs at hout ⊢ with hret
  · subst hout
    obtain ⟨hkpc, hkreg⟩ := hw.kept call m ho.2 hret
    refine ⟨ho.1, hkpc, ?_⟩
    simp [args, hkreg]
  · subst hout
    have hkeep : (w.syscall call m).2.restartPc = m.restartPc :=
      congrArg Prod.fst (hw.syscall call m)
    exact hkeep.trans hr

theorem after_ne_dead (pc : U64) (args : List U64) (out : Outcome) :
    after pc args out ≠ .dead := by
  cases out <;> simp [after]

/-- The phases behind an instruction do not depend on `pc_`. -/
theorem after_fits_pc {pc : U64} {args : List U64} {out : Outcome}
    (h : (after pc args out).Fits m) (pc' : U64) :
    (after pc args out).Fits { m with pc := pc' } := by
  cases out <;> exact h

theorem fetch_fits (hw : w.Restartable) (h : ph.Settled m)
    (ho : ∀ e ∈ m.fetchEvents c w, e.Orderly) :
    ∃ ph', (m.fetchEvents c w).foldlM next ph = some ph' ∧
      ∀ m', m.fetch c w = (true, m') →
        ph' ≠ .dead ∧ ph'.Fits { m' with pc := m'.pc + 8 } := by
  unfold fetchEvents fetch at *
  generalize m.mem.mmu c.vm m.pc.toNat 8 = r at ho ⊢
  obtain ⟨_ | p, mem⟩ := r
  · exact ⟨ph, rfl, by simp⟩
  · dsimp only at ho ⊢
    split_ifs at ho ⊢ with hreg
    · exact ⟨ph, rfl, by simp⟩
    · generalize BpfInsn.ofBytes (mem.host.load p 8) = cur at ho ⊢
      set out := outcome w { m with mem := mem } cur with hout
      refine ⟨.after m.pc m.args out, by simp [next_exec h], ?_⟩
      intro m' hm'
      refine ⟨after_ne_dead _ _ _, after_fits_pc ?_ _⟩
      by_cases hsys : cur.IsSyscall
      · rw [execute_syscall hsys] at hm'
        rw [outcome, if_pos hsys] at hout
        have hfits := doSyscall_fits (m := { m with mem := mem }) hw h.restartPc hout
          (ho _ (List.mem_singleton_self _))
        rw [hm'] at hfits
        exact hfits
      · rw [outcome, if_neg hsys] at hout
        have hkeep := execute_restart (m := { m with mem := mem }) hw hsys hm'
        rw [hout]
        exact (congrArg Prod.fst hkeep).trans h.restartPc

theorem Phase.Fits.settled (h : ph.Fits m) (hd : ph ≠ .dead) (hr : m.restartPc = 0) :
    ph.Settled m := by
  cases ph with
  | idle => exact h
  | interrupted p args => exact absurd (h.2.1.symm.trans hr) h.1
  | again p args => exact h
  | dead => exact absurd rfl hd

theorem step_fits (hw : w.Restartable) (h : ph.Fits m) (hd : ph ≠ .dead)
    (hflags : m.restartPc ≠ 0 → m.flags ≠ 0)
    (ho : ∀ e ∈ m.stepEvents c w, e.Orderly) :
    ∃ ph', (m.stepEvents c w).foldlM next ph = some ph' ∧
      ∀ m', m.step c w = (true, m') →
        ph' ≠ .dead ∧ ph'.Fits { m' with pc := m'.pc + 8 } := by
  have h₀ : ph.Fits { m with insnCount := m.insnCount + 1 } := h.congr hd rfl rfl rfl
  unfold stepEvents step at *
  dsimp only at ho ⊢
  by_cases hlimit : c.insnLimit ≠ 0 ∧ c.insnLimit ≤ m.insnCount + 1
  · rw [if_pos hlimit, if_pos hlimit]
    exact ⟨ph, rfl, by simp⟩
  · rw [if_neg hlimit] at ho
    rw [if_neg hlimit, if_neg hlimit]
    by_cases hz : m.flags = 0
    · rw [if_neg (not_not.mpr hz)] at ho
      rw [if_neg (not_not.mpr hz), if_neg (not_not.mpr hz)]
      have hr : m.restartPc = 0 := by
        by_contra hne
        exact hflags hne hz
      exact fetch_fits hw (h₀.settled hd hr) ho
    · rw [if_pos hz] at ho
      rw [if_pos hz, if_pos hz]
      obtain ⟨ph₁, he₁, hf₁, hs₁, -⟩ := safepoint_fits (c := c) w.safepoint h₀ hd
      generalize safepoint c w.safepoint _ = r at ho hf₁ hs₁ ⊢
      obtain ⟨_ | _, m₁⟩ := r
      · exact ⟨ph₁, he₁, by simp⟩
      · obtain ⟨ph₂, he₂, hf₂⟩ := fetch_fits hw (hs₁ rfl) fun e he =>
          ho e (List.mem_append_right _ he)
        refine ⟨ph₂, ?_, hf₂⟩
        rw [List.foldlM_append, he₁]
        exact he₂

end

/-! ## Runs -/

/-- Here the vm tests its flags before it executes an instruction. -/
def Loc.Tests : Loc → Prop
  | .interp | .back _ | .exiting (_ + 1) _ => True
  | _ => False

/-- A step at which a pending restart is announced by the flags, and which interrupts neither a
`siglongjmp` nor a system call at address 0. -/
structure AttendedStep (c : Setup) (s : Conf) (es : List Event) (s' : Conf) : Prop where
  step : VmStep c s es s'
  flags : s.loc.Tests → s.m.restartPc ≠ 0 → s.m.flags ≠ 0
  calls : ∀ e ∈ es, e.Orderly

/-- What is owed at each place. -/
def Owes (s : Conf) (ph : Phase) : Prop :=
  match s.loc with
  | .loop | .interp => ph ≠ .dead ∧ ph.Fits s.m
  | .native n entry cur =>
    ph.Settled { s.m with pc := cur } ∧ (ph ≠ .idle → n = 0 ∧ entry = cur ∧ s.m.pc = cur)
  | .exiting n _ => ph.Fits s.m ∧ ((∃ p args, ph = .again p args) → n = 0)
  | .back _ => ph.Fits s.m
  | .stopped => True

section
variable {c : Setup}

theorem owes_exec {cur : U64} (h : Owes ⟨m, .native n entry cur⟩ ph)
    (hr : m'.restart = m.restart) :
    ph.next (.exec cur m.args .plain) = some .idle ∧ m'.restartPc = 0 :=
  ⟨next_exec (m := { m with pc := cur }) h.1 .plain,
    (congrArg Prod.fst hr).trans h.1.restartPc⟩

/-- The safepoint at the entry of compiled code and at the heads of its loops. -/
theorem owes_helperSafepoint {w : SafepointWorld} (h : ph.Fits m) (hd : ph ≠ .dead)
    (hn : ph ≠ .idle → n = 0 ∧ entry = m.pc) :
    ∃ ph', (m.safepointEvents c w).foldlM next ph = some ph' ∧
      Owes ⟨(m.helperSafepoint c w).2,
        if (m.helperSafepoint c w).1 then .exiting n entry else .native n entry m.pc⟩ ph' := by
  obtain ⟨ph', he, hf, hs, hi⟩ := safepoint_fits (c := c) w h hd
  refine ⟨ph', he, ?_⟩
  have hn' : ph' ≠ .idle → ph' ≠ .dead → n = 0 ∧ entry = m.pc := fun hne hnd =>
    hn fun hidle => (hi hidle).elim hne hnd
  have hexit (m' : Machine) (hf : ph'.Fits m') : Owes ⟨m', .exiting n entry⟩ ph' := by
    refine ⟨hf, ?_⟩
    rintro ⟨p, args, rfl⟩
    exact (hn' (by simp) (by simp)).1
  unfold helperSafepoint
  generalize m.safepoint c w = r at hf hs ⊢
  obtain ⟨_ | _, m'⟩ := r
  · exact hexit m' hf
  · dsimp only
    by_cases hpc : m'.pc = m.pc
    · simp only [hpc, bne_self_eq_false, Bool.false_eq_true, ↓reduceIte]
      refine ⟨(hs rfl).congr rfl hpc.symm rfl, fun hne => ?_⟩
      have hzero := hn' hne (hs rfl).ne_dead
      exact ⟨hzero.1, hzero.2, hpc⟩
    · have hne : (m'.pc != m.pc) = true := by simpa using hpc
      rw [if_pos hne]
      exact hexit m' hf

/-- `helper_do_syscall` adds to `do_syscall` a change of `pc_` and of the flags. -/
theorem helperDoSyscall_snd (call : U32) :
    ∃ pc flags, (m.helperDoSyscall w call).2 =
      { (m.doSyscall w call).2 with pc := pc, flags := flags } := by
  unfold helperDoSyscall
  generalize m.doSyscall w call = r
  obtain ⟨_ | _, m'⟩ := r
  · dsimp only
    split_ifs
    · exact ⟨_, _, rfl⟩
    · exact ⟨_, _, rfl⟩
  · dsimp only
    split_ifs <;> exact ⟨_, _, rfl⟩

/-- Compiled code goes on only behind a system call that is not to be restarted. -/
theorem helperDoSyscall_fst {call : U32} (h : (m.helperDoSyscall w call).1 = true) :
    (m.helperDoSyscall w call).2.restartPc = 0 := by
  unfold helperDoSyscall at h ⊢
  generalize m.doSyscall w call = r at h ⊢
  obtain ⟨_ | _, m'⟩ := r
  · simp at h
  · dsimp only at h ⊢
    split_ifs at h ⊢ with hpc hr hf
    exact not_not.mp hr

theorem owes_syscall {cur : U64} (hw : w.Restartable) (call : U32)
    (h : Owes ⟨m, .native n entry cur⟩ ph) {out : Outcome}
    (hout : out = if (w.syscall call { m with pc := cur }).1 = syscallRestart ∨
      (w.syscall call { m with pc := cur }).1 = syscallRestartNohand then .restart call else .done)
    (ho : (Event.exec cur m.args out).Orderly) :
    ph.next (.exec cur m.args out) = some (.after cur m.args out) ∧
      Owes ⟨(({ m with pc := cur } : Machine).helperDoSyscall w call).2,
        if (({ m with pc := cur } : Machine).helperDoSyscall w call).1
        then .native n entry (cur + 8) else .exiting n entry⟩ (.after cur m.args out) := by
  refine ⟨next_exec (m := { m with pc := cur }) h.1 out, ?_⟩
  have hfits : (after cur m.args out).Fits
      (({ m with pc := cur } : Machine).helperDoSyscall w call).2 := by
    obtain ⟨pc', flags', heq⟩ := helperDoSyscall_snd (m := { m with pc := cur }) (w := w) call
    rw [heq]
    have hsys := doSyscall_fits (m := { m with pc := cur }) hw h.1.restartPc hout ho
    exact Phase.Fits.congr (after_fits_pc hsys pc') (after_ne_dead _ _ _) rfl rfl rfl
  split_ifs with hgo
  · have hr := helperDoSyscall_fst hgo
    have hidle : after cur m.args out = .idle := by
      cases out with
      | plain => rfl
      | done => rfl
      | restart _ => exact absurd (hfits.2.1.symm.trans hr) hfits.1
    rw [hidle]
    exact ⟨hr, fun hne => absurd rfl hne⟩
  · refine ⟨hfits, ?_⟩
    rintro ⟨p, args, heq⟩
    cases out <;> simp [after] at heq

/-- One step of the vm pays, keeps or takes up a debt. -/
theorem owes_step {s s' : Conf} {es : List Event} (h : Owes s ph) (hs : AttendedStep c s es s') :
    ∃ ph', es.foldlM next ph = some ph' ∧ Owes s' ph' := by
  obtain ⟨hstep, hflags, ho⟩ := hs
  cases hstep with
  | @other m loc flags mem hf =>
    refine ⟨ph, rfl, ?_⟩
    by_cases hd : ph = .dead
    · subst hd
      cases loc with
      | loop | interp => exact absurd rfl h.1
      | native n entry cur => exact h.1.elim
      | exiting n entry => exact ⟨hf h.1, h.2⟩
      | back entry => exact hf h
      | stopped => trivial
    · cases loc with
      | loop | interp => exact ⟨hd, h.2.congr hd rfl rfl rfl⟩
      | native n entry cur => exact ⟨h.1.congr rfl rfl rfl, h.2⟩
      | exiting n entry => exact ⟨h.1.congr hd rfl rfl rfl, h.2⟩
      | back entry => exact Phase.Fits.congr h hd rfl rfl rfl
      | stopped => trivial
  | enter hf => exact owes_helperSafepoint h.2 h.1 fun _ => ⟨rfl, rfl⟩
  | interpret => exact ⟨ph, rfl, h⟩
  | @step m w hw hf =>
    obtain ⟨ph', he, hm⟩ := step_fits (c := c) hw h.2 h.1 (hflags trivial) ho
    refine ⟨ph', he, ?_⟩
    generalize m.step c w = r at hm ⊢
    obtain ⟨_ | _, m'⟩ := r
    · trivial
    · exact hm m' rfl
  | exec hr =>
    obtain ⟨hnext, hz⟩ := owes_exec h hr
    exact ⟨.idle, by simp [hnext], hz, fun hne => absurd rfl hne⟩
  | leave hr =>
    obtain ⟨hnext, hz⟩ := owes_exec h hr
    exact ⟨.idle, by simp [hnext], hz, by simp⟩
  | @abort m n entry cur reg hargs =>
    refine ⟨ph, rfl, ?_⟩
    have hargs' : ({ m with reg := reg } : Machine).args = m.args := by
      simp [args, hargs]
    cases ph with
    | idle => exact ⟨h.1, by simp⟩
    | interrupted p args => exact h.1.elim
    | again p args =>
      obtain ⟨hn, -, hcur⟩ := h.2 (by simp)
      exact ⟨⟨h.1.1, hcur.trans h.1.2.1, hargs'.trans h.1.2.2⟩, fun _ => hn⟩
    | dead => exact h.1.elim
  | poll hne hf =>
    exact owes_helperSafepoint h.1.fits h.1.ne_dead fun hi => ⟨(h.2 hi).1, (h.2 hi).2.1⟩
  | syscall call hw =>
    obtain ⟨hnext, hafter⟩ := owes_syscall hw call h rfl (ho _ (List.mem_singleton_self _))
    exact ⟨_, by simp [hnext], hafter⟩
  | @cont m n entry ret =>
    refine ⟨ph, rfl, ?_⟩
    have hback : m.flags ≠ 0 ∨ m.pc ≠ ret → Owes ⟨m, .exiting n entry⟩ ph :=
      fun _ => ⟨h.1, fun ha => absurd (h.2 ha) (Nat.succ_ne_zero n)⟩
    split_ifs with htest
    · exact hback htest
    · cases ph with
      | idle => exact ⟨h.1, fun hne => absurd rfl hne⟩
      | interrupted p args =>
        refine absurd (.inl (hflags trivial ?_)) htest
        rw [show m.restartPc = p from h.1.2.1]
        exact h.1.1
      | again p args => exact absurd (h.2 ⟨p, args, rfl⟩) (Nat.succ_ne_zero n)
      | dead =>
        refine absurd (.inl fun hz => ?_) htest
        exact h.1 (by rw [hz]; exact BitVec.zero_and)
  | ret => exact ⟨ph, rfl, h.1⟩
  | @quiet m entry hz =>
    have hd : ph ≠ .dead := by
      rintro rfl
      exact h (by rw [hz]; exact BitVec.zero_and)
    refine ⟨ph, rfl, ?_⟩
    split_ifs
    · exact ⟨hd, h⟩
    · exact ⟨hd, h⟩
  | @safepoint m w entry hne hf =>
    by_cases hd : ph = .dead
    · subst hd
      refine ⟨.dead, safepointEvents_dead w, ?_⟩
      have hstop := safepoint_of_sticky (c := c) h hf
      generalize m.safepoint c w = r at hstop ⊢
      obtain ⟨_ | _, m'⟩ := r
      · trivial
      · simp at hstop
    · obtain ⟨ph', he, hf', hs', -⟩ := safepoint_fits (c := c) w h hd
      refine ⟨ph', he, ?_⟩
      generalize m.safepoint c w = r at hf' hs' ⊢
      obtain ⟨_ | _, m'⟩ := r
      · trivial
      · dsimp only
        split_ifs
        · exact ⟨(hs' rfl).ne_dead, hf'⟩
        · exact ⟨(hs' rfl).ne_dead, hf'⟩

end

/-- The monitor refuses no event. -/
def Restarts (es : List Event) : Prop := (es.foldlM next .idle).isSome

/-- In every run whose pending restarts are announced by the flags, an interrupted system call
is repeated with its arguments or reported as `-EINTR` before anything else of the interrupted
code, and no other system call is gone back to. -/
theorem restarts_of_attended {c : Setup} {m : Machine} {s : Conf} {l : List (List Event)}
    (hidle : m.restartPc = 0) (hrun : Run (AttendedStep c) ⟨m, .loop⟩ l s) :
    Restarts l.flatten := by
  have hstart : Owes ⟨m, .loop⟩ .idle := ⟨by simp, hidle⟩
  obtain ⟨ph, hph, -⟩ := hrun.accepted hstart fun _ _ _ _ h hs => owes_step h hs
  rw [Restarts, hph]
  rfl

section Example

/-- A system call at `0x1000`, and `r0 = 0` behind it. -/
def callImage : List BootSeg :=
  [⟨0x1000, 0x1000, 5, fun k =>
    ([0x85, 0, 0, 0, 1, 0, 0, 0, 0xb7, 0, 0, 0, 0, 0, 0, 0] : List Byte).getD k 0⟩]

def caller : Machine := boot callImage (fun k => BitVec.ofNat 64 k) 0x1000

/-- The system call is interrupted, and the flags are `flags` when it returns. -/
def interrupting (flags : U32) : World :=
  { World.quiet with syscall := fun _ m => (syscallRestart, { m with flags := flags }) }

theorem restartable_interrupting (flags : U32) : (interrupting flags).Restartable :=
  ⟨fun _ _ => rfl, fun _ _ => rfl, fun _ _ _ _ => ⟨rfl, fun _ _ _ => rfl⟩⟩

theorem restartable_quiet : World.quiet.Restartable :=
  ⟨fun _ _ => rfl, fun _ _ => rfl, fun _ _ _ _ => ⟨rfl, fun _ _ _ => rfl⟩⟩

/-- Behind the interrupted call. -/
def called (flags : U32) : Machine :=
  let m := (caller.step Setup.plain (interrupting flags)).2
  { m with pc := m.pc + 8 }

theorem vmStep_caller (flags : U32) :
    VmStep Setup.plain ⟨caller, .interp⟩ [.exec 0x1000 [1, 2, 3, 4, 5] (.restart 1)]
      ⟨called flags, .loop⟩ := by
  have h := VmStep.step (c := Setup.plain) (m := caller) (restartable_interrupting flags)
    fun hz => absurd rfl hz
  exact h

/-- The trace of an interrupted call that is repeated. -/
def repeated : List (List Event) :=
  [[], [.exec 0x1000 [1, 2, 3, 4, 5] (.restart 1)], [],
    [.again 0x1000 [1, 2, 3, 4, 5], .exec 0x1000 [1, 2, 3, 4, 5] .done]]

theorem vmStep_again : ∃ s, VmStep Setup.plain ⟨called vmSignalPending, .interp⟩
    [.again 0x1000 [1, 2, 3, 4, 5], .exec 0x1000 [1, 2, 3, 4, 5] .done] s := by
  have h := VmStep.step (c := Setup.plain) (m := called vmSignalPending)
    restartable_quiet fun hz => absurd (by decide) hz
  exact ⟨_, h⟩

theorem restarts_repeated : Restarts repeated.flatten := by
  obtain ⟨s, hagain⟩ := vmStep_again
  exact restarts_of_attended (c := Setup.plain) (m := caller) rfl
    (.cons ⟨.interpret, by simp [Loc.Tests], by simp⟩
      (.cons ⟨vmStep_caller vmSignalPending, fun _ hne => absurd rfl hne,
        by simp [Event.Orderly, callSiglongjmp]⟩
        (.cons ⟨.interpret, by simp [Loc.Tests], by simp⟩
          (.single ⟨hagain, fun _ _ => by decide, by simp [Event.Orderly]⟩))))

/-- A call is interrupted, but no flag is set any more when the vm looks: the next instruction
is executed. -/
theorem runs_on_after_interruption : ∃ (c : Setup) (m : Machine) (s : Conf)
    (l : List (List Event)), m.restartPc = 0 ∧ Run (VmStep c) ⟨m, .loop⟩ l s ∧
      l.flatten = [.exec 0x1000 [1, 2, 3, 4, 5] (.restart 1), .exec 0x1008 [1, 2, 3, 4, 5] .plain] ∧
      ¬ Restarts l.flatten := by
  have hnext := VmStep.step (c := Setup.plain) (m := called 0) restartable_quiet
    fun hz => absurd rfl hz
  refine ⟨Setup.plain, caller, _, _, rfl, .cons .interpret (.cons (vmStep_caller 0)
    (.cons .interpret (.single hnext))), rfl, ?_⟩
  rw [Restarts]
  decide

end Example

end Bpfvm.Cpu
