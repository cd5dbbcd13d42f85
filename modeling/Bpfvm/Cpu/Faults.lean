import Bpfvm.Cpu.Compiled

/-!
# Faults in compiled code

A compiled access that fails leaves `pc_` where the last system call, return or jump out of
compiled code has put it. Where that is the address of the failing instruction, compiled
execution ends as interpretation does. Where it is not, the instructions since then are executed
once more.
-/
namespace Bpfvm.Cpu
open Memory Machine

section
variable {c : Setup} {w : World} {m m' : Machine} {cur : BpfInsn}

/-! ## Single instructions -/

theorem execute_flags {p : HostPtr} (hw : w.Undisturbed) (hsys : ¬ cur.IsSyscall)
    (h : m.execute c w cur p = (true, m')) : m'.flags = m.flags := by
  obtain hkeep | ⟨hcall, -⟩ | hfp | ⟨-, _, rfl⟩ := execute_cases h
  · exact flags_eq hkeep
  · exact absurd hcall hsys
  · have hkeep := hw.softfpFlags cur.imm m
    rwa [hfp] at hkeep
  · obtain ⟨_, _, _, hpop, -⟩ := popFrame_eq c m
    rw [hpop]

theorem fetch_execute (h : m.fetch c w = (true, m')) :
    ∃ i p, m.insn c = some i ∧ (m.afterFetch c).execute c w i p = (true, m') := by
  unfold fetch at h
  unfold insn afterFetch
  generalize m.mem.mmu c.vm m.pc.toNat 8 = r at h ⊢
  obtain ⟨_ | p, mem⟩ := r
  · simp at h
  · dsimp only at h
    split_ifs at h
    · simp at h
    · exact ⟨_, p, rfl, h⟩

theorem fetch_syscall {i : BpfInsn} (hi : m.insn c = some i) (hk : i.kind = .syscall)
    (hreg : i.dstReg.toNat ≤ 10) :
    m.fetch c w = (m.afterFetch c).doSyscall w i.imm := by
  have hsys := BpfInsn.kind_eq_syscall.mp hk
  unfold fetch
  unfold insn at hi
  unfold afterFetch
  generalize m.mem.mmu c.vm m.pc.toNat 8 = r at hi ⊢
  obtain ⟨_ | p, mem⟩ := r
  · simp at hi
  · obtain rfl := Option.some.inj hi
    dsimp only at hreg hsys ⊢
    rw [if_neg, execute_syscall hsys]
    rintro (hdst | hsrc)
    · omega
    · rw [hsys.2.2.2] at hsrc
      simp at hsrc

/-- An instruction other than a system call leaves the flags and the pending restart alone. -/
theorem fetch_keeps (hw : w.Undisturbed) {i : BpfInsn} (hi : m.insn c = some i)
    (hk : i.kind ≠ .syscall) (h : m.fetch c w = (true, m')) :
    m'.flags = m.flags ∧ m'.restartPc = m.restartPc := by
  obtain ⟨j, p, hj, hexec⟩ := fetch_execute h
  obtain rfl := Option.some.inj (hi.symm.trans hj)
  have hsys := mt BpfInsn.kind_eq_syscall.mpr hk
  have hflags := execute_flags hw hsys hexec
  have hrestart := execute_restart hw.toRestartable hsys hexec
  exact ⟨hflags, congrArg Prod.fst hrestart⟩

theorem doSyscall_eq (hw : w.Undisturbed) (call : U32) :
    m.doSyscall w call = (decide ((w.syscall call m).2.flags &&& (vmExited ||| vmKilled) = 0),
      (w.syscall call m).2.setReg 0 (w.syscall call m).1) := by
  rw [doSyscall]
  exact if_neg (hw.finished call m)

theorem doSyscall_restartPc (hw : w.Undisturbed) (call : U32) :
    (m.doSyscall w call).2.restartPc = m.restartPc := by
  rw [doSyscall_eq hw]
  exact congrArg Prod.fst (hw.toRestartable.syscall call m)

theorem fetch_restartPc (hw : w.Undisturbed) (h : m.fetch c w = (true, m')) :
    m'.restartPc = m.restartPc := by
  obtain ⟨i, p, hi, hexec⟩ := fetch_execute h
  by_cases hk : i.kind = .syscall
  · rw [execute_syscall (BpfInsn.kind_eq_syscall.mp hk)] at hexec
    have hkeep := doSyscall_restartPc (m := m.afterFetch c) hw i.imm
    rw [hexec] at hkeep
    exact hkeep
  · exact (fetch_keeps hw hi hk h).2

theorem fetch_softfp_pc (hw : w.Undisturbed) {i : BpfInsn} (hi : m.insn c = some i)
    (hk : i.kind = .softfp) (h : m.fetch c w = (true, m')) : m'.pc = m.pc := by
  obtain ⟨j, p, hj, hexec⟩ := fetch_execute h
  obtain rfl := Option.some.inj (hi.symm.trans hj)
  obtain ⟨hclass, hop, hreg, hsrc⟩ := BpfInsn.kind_eq_softfp hk
  have hfp : (m.afterFetch c).execute c w i p = w.softfp i.imm (m.afterFetch c) := by
    rw [execute, hclass]
    change (m.afterFetch c).jmp c w i = _
    rw [jmp, hop, hreg, hsrc]
    rfl
  have hkeep := hw.softfpPc i.imm (m.afterFetch c)
  rw [← hfp, hexec] at hkeep
  exact hkeep

/-- What `helper_do_syscall` adds to a system call of a vm without flags. -/
theorem helperDoSyscall_cases (hw : w.Undisturbed) (call : U32) (hf : m.flags = 0)
    (hr : m.restartPc = 0) :
    (∃ m', m.doSyscall w call = (false, m') ∧ (m.helperDoSyscall w call).1 = false ∧
      (m.helperDoSyscall w call).2.flags &&& sticky ≠ 0) ∨
    (∃ m', m.doSyscall w call = (true, m') ∧ m'.restartPc = 0 ∧
      ((∃ f, m.helperDoSyscall w call = (false, { m' with flags := f, pc := m'.pc + 8 }) ∧
          (f = m'.flags ∨ f = m'.flags ||| vmJitAbort)) ∨
        m.helperDoSyscall w call = (true, m') ∧ m'.pc = m.pc ∧ m'.flags = 0)) := by
  have hret := doSyscall_restartPc (m := m) hw call
  have hdo := doSyscall_eq (m := m) hw call
  unfold helperDoSyscall
  generalize hd : m.doSyscall w call = r at hret hdo ⊢
  obtain ⟨_ | _, m'⟩ := r
  · obtain ⟨hend, rfl⟩ := Prod.mk.inj hdo
    have hsticky : (w.syscall call m).2.flags &&& sticky ≠ 0 := by
      intro hz
      refine absurd ?_ (of_decide_eq_false hend.symm)
      rw [show vmExited ||| vmKilled = sticky &&& (vmExited ||| vmKilled) by decide,
        ← BitVec.and_assoc, hz]
      exact BitVec.zero_and
    refine .inl ⟨_, rfl, rfl, ?_⟩
    dsimp only
    split_ifs
    · exact hsticky
    · exact hsticky
  · have hr' : m'.restartPc = 0 := hret.trans hr
    refine .inr ⟨m', rfl, hr', ?_⟩
    dsimp only
    by_cases hpc : m'.pc = m.pc
    · rw [if_neg (not_not.mpr hpc), if_neg (not_not.mpr hr')]
      split_ifs with hflags
      · exact .inl ⟨_, rfl, .inl rfl⟩
      · refine .inr ⟨rfl, hpc, ?_⟩
        obtain ⟨-, rfl⟩ := Prod.mk.inj hdo
        exact hw.syscallFlags call m hf (not_not.mp hflags)
    · rw [if_pos hpc]
      exact .inl ⟨_, rfl, .inr rfl⟩

/-! ## Safepoints without signals -/

theorem calm_of_clear (hr : m.restartPc = 0) (hs : m.flags &&& sticky = 0) :
    m.calm c = (true, { m with flags := 0 }) := by
  unfold calm safepoint
  simp [deliverSignal, hr, hs]

theorem calm_of_sticky (hs : m.flags &&& sticky ≠ 0) :
    (m.calm c).1 = false ∧ (m.calm c).2.flags &&& sticky ≠ 0 := by
  have hself : m.flags &&& sticky &&& (vmExited ||| vmKilled ||| vmBudgetExceeded) ≠ 0 := by
    change m.flags &&& sticky &&& sticky ≠ 0
    rwa [BitVec.and_assoc, BitVec.and_self]
  unfold calm safepoint
  dsimp only
  split
  · next heq =>
    split_ifs at heq <;> simp [deliverSignal] at heq
  · rw [if_pos hself]
    refine ⟨rfl, ?_⟩
    dsimp only
    split_ifs
    · exact hself
    · exact hself

theorem helperCalm_of_clear (hr : m.restartPc = 0) (hs : m.flags &&& sticky = 0) :
    m.helperCalm c = (false, { m with flags := 0 }) := by
  have h := calm_of_clear (c := c) hr hs
  unfold calm at h
  unfold helperCalm helperSafepoint
  rw [h]
  simp

theorem helperCalm_of_zero (hf : m.flags = 0) (hr : m.restartPc = 0) :
    m.helperCalm c = (false, m) := by
  have hzero : ({ m with flags := 0 } : Machine) = m := by rw [← hf]
  rw [helperCalm_of_clear hr (by rw [hf]; exact BitVec.zero_and), hzero]

theorem helperCalm_of_sticky (hs : m.flags &&& sticky ≠ 0) :
    (m.helperCalm c).1 = true ∧ (m.helperCalm c).2.flags &&& sticky ≠ 0 := by
  have h := calm_of_sticky (c := c) hs
  unfold calm at h
  unfold helperCalm helperSafepoint
  generalize m.safepoint c _ = r at h ⊢
  obtain ⟨_ | _, m'⟩ := r
  · exact ⟨rfl, h.2⟩
  · simp at h

end

/-! ## The condition -/

/-- The steps that do not lose the place. A compiled access fails only where `pc_` is the address
of its instruction and no compiled caller waits for that address; a compiled caller finds `r6` ..
`r9` as it left them. -/
def Act.Sharp : Act → Prop
  | .abort cur pc rets => pc = cur ∧ cur ∉ rets
  | .resumed saved reg => ∀ k, 6 ≤ k → k ≤ 9 → saved k = reg k
  | .lost _ => False
  | _ => True

/-- What pure interpretation records as well. -/
def Act.shown : Act → Bool
  | .other _ | .exec _ _ | .stop _ _ => true
  | _ => false

structure SharpStep (c : Setup) (s : Mixed) (es : List Act) (s' : Mixed) : Prop where
  step : JitStep c s es s'
  sharp : ∀ e ∈ es, e.Sharp

/-- Compiled code is being left. The interpreter is where `pc_` is, with the same flags but for
`VM_JIT_ABORT`, or both have ended. -/
def Leaving (m : Machine) (t : Machine × Bool) : Prop :=
  (∃ f, t = ({ m with flags := f }, true) ∧ (m.flags = f ∨ m.flags = f ||| vmJitAbort) ∧
    m.restartPc = 0) ∨
  (m.flags &&& sticky ≠ 0 ∧ t.2 = false)

/-- The state of the interpreter that belongs to one of compiled execution. -/
def Agree (s : Mixed) (t : Machine × Bool) : Prop :=
  match s.place with
  | .loop | .interp => t = (s.m, true) ∧ s.m.restartPc = 0
  | .native _ _ cur => t = (s.m.goto cur, true) ∧ s.m.flags = 0 ∧ s.m.restartPc = 0
  | .exiting _ _ | .back _ => Leaving s.m t
  | .halted => t = (s.m, false)
  | .ended => t.2 = false

/-- The interpreter answers `es` and is then where `s` is. -/
def Answers (c : Setup) (t : Machine × Bool) (es : List Act) (s : Mixed) : Prop :=
  ∃ l t', Run (InterpStep c) t l t' ∧ l.flatten = es.filter Act.shown ∧ Agree s t'

section
variable {c : Setup} {m : Machine} {t : Machine × Bool} {s : Mixed} {es : List Act}

theorem Answers.stay (hes : es.filter Act.shown = []) (h : Agree s t) : Answers c t es s :=
  ⟨[], t, .nil t, hes.symm, h⟩

theorem Answers.one {t' : Machine × Bool} {es' : List Act} (hstep : InterpStep c t es' t')
    (hes : es' = es.filter Act.shown) (h : Agree s t') : Answers c t es s :=
  ⟨[es'], t', .single hstep, by simpa using hes, h⟩

/-- The interpreter's own safepoint, where it has flags. -/
theorem answers_calm (hr : m.restartPc = 0)
    (hclear : m.flags &&& sticky = 0 → Agree s ({ m with flags := 0 }, true))
    (hsticky : m.flags &&& sticky ≠ 0 → Agree s ((m.calm c).2, false)) :
    Answers c (m, true) [] s := by
  by_cases hf : m.flags = 0
  · refine .stay rfl ?_
    have hm : ({ m with flags := 0 } : Machine) = m := by rw [← hf]
    rw [hm] at hclear
    exact hclear (by rw [hf]; exact BitVec.zero_and)
  · refine .one (.safepoint hf) rfl ?_
    by_cases hs : m.flags &&& sticky = 0
    · rw [calm_of_clear hr hs]
      exact hclear hs
    · rw [(calm_of_sticky hs).1]
      exact hsticky hs

theorem Leaving.eq_of_flags (h : Leaving m t) (hf : m.flags = 0) :
    t = (m, true) ∧ m.restartPc = 0 := by
  obtain ⟨f, rfl, hflags, hr⟩ | ⟨hs, -⟩ := h
  · have hzero : f = 0 := by
      obtain h | h := hflags
      · exact h.symm.trans hf
      · have hbit := congrArg (BitVec.getLsbD · 8) (h.symm.trans hf)
        simp [vmJitAbort] at hbit
    exact ⟨by rw [hzero, ← hf], hr⟩
  · exact absurd (by rw [hf]; exact BitVec.zero_and) hs

theorem Leaving.sticky_iff {f : U32} (h : m.flags = f ∨ m.flags = f ||| vmJitAbort) :
    m.flags &&& sticky = f &&& sticky := by
  obtain h | h := h
  · rw [h]
  · rw [h, BitVec.and_or_distrib_right, show vmJitAbort &&& sticky = 0 by decide]
    exact BitVec.or_zero

end

/-! ## One step -/

section
variable {c : Setup} {w : World} {m m' : Machine} {calls : List CompiledCall}
  {entry cur : U64} {t : Machine × Bool} {i : BpfInsn}

theorem other_agree {place : Place} (mem : State) (h : Agree ⟨m, place⟩ t) :
    Agree ⟨{ m with mem := mem }, place⟩ ({ t.1 with mem := mem }, t.2) := by
  have hleaving (h : Leaving m t) :
      Leaving { m with mem := mem } ({ t.1 with mem := mem }, t.2) := by
    obtain ⟨f, rfl, hflags, hr⟩ | ⟨hs, ht⟩ := h
    · exact .inl ⟨f, rfl, hflags, hr⟩
    · exact .inr ⟨hs, ht⟩
  cases place with
  | loop | interp =>
    obtain ⟨rfl, hr⟩ := h
    exact ⟨rfl, hr⟩
  | native calls entry cur =>
    obtain ⟨rfl, hf, hr⟩ := h
    exact ⟨rfl, hf, hr⟩
  | exiting calls entry => exact hleaving h
  | back entry => exact hleaving h
  | halted =>
    cases (show t = (m, false) from h)
    rfl
  | ended => exact h

/-- A compiled instruction after which compiled code goes on. -/
theorem answers_native {calls' : List CompiledCall} (hi : (m.goto cur).insn c = some i)
    (hk : i.kind ≠ .syscall) (hw : w.Undisturbed)
    (h : (m.goto cur).fetch c w = (true, m')) (hf : m.flags = 0) (hr : m.restartPc = 0)
    {pc next : U64} (hnext : next = m'.pc + 8) :
    Answers c (m.goto cur, true) [.exec cur w]
      ⟨{ m' with pc := pc }, .native calls' entry next⟩ := by
  obtain ⟨hflags, hrestart⟩ := fetch_keeps hw hi hk h
  refine .one (.exec hw hf h) rfl ⟨?_, hflags.trans hf, hrestart.trans hr⟩
  rw [hnext]
  rfl

/-- A compiled instruction that sets `pc_` and leaves compiled code. -/
theorem answers_leave (hw : w.Undisturbed) (h : (m.goto cur).fetch c w = (true, m'))
    (hf : m.flags = 0) (hr : m.restartPc = 0) :
    Answers c (m.goto cur, true) [.exec cur w]
      ⟨{ m' with pc := m'.pc + 8 }, .exiting calls entry⟩ :=
  .one (.exec hw hf h) rfl (.inl ⟨_, rfl, .inl rfl, (fetch_restartPc hw h).trans hr⟩)

theorem answers_syscall (hi : (m.goto cur).insn c = some i) (hk : i.kind = .syscall)
    (hreg : i.dstReg.toNat ≤ 10) (hw : w.Undisturbed) (hf : m.flags = 0)
    (hr : m.restartPc = 0) :
    Answers c (m.goto cur, true)
      [if (((m.goto cur).afterFetch c).doSyscall w i.imm).1 then .exec cur w else .stop cur w]
      ⟨(((m.goto cur).afterFetch c).helperDoSyscall w i.imm).2,
        if (((m.goto cur).afterFetch c).helperDoSyscall w i.imm).1
        then .native calls entry (cur + 8) else .exiting calls entry⟩ := by
  have hfetch := fetch_syscall (w := w) hi hk hreg
  obtain ⟨m', hdo, hfst, hs⟩ | ⟨m', hdo, hr', ⟨f, hhelp, hflags⟩ | ⟨hhelp, hpc, hf'⟩⟩ :=
    helperDoSyscall_cases (m := (m.goto cur).afterFetch c) hw i.imm hf hr
  · rw [hdo] at hfetch
    rw [hdo, hfst]
    exact .one (.stop hw hf hfetch) rfl (.inr ⟨hs, rfl⟩)
  · rw [hdo] at hfetch
    rw [hdo, hhelp]
    exact .one (.exec hw hf hfetch) rfl (.inl ⟨m'.flags, rfl, hflags, hr'⟩)
  · rw [hdo] at hfetch
    rw [hdo, hhelp]
    refine .one (.exec hw hf hfetch) rfl ⟨?_, hf', hr'⟩
    rw [hpc]
    rfl

theorem step_answers {s s' : Mixed} {es : List Act} (h : Agree s t) (hs : SharpStep c s es s') :
    Answers c t es s' := by
  obtain ⟨hstep, hsharp⟩ := hs
  cases hstep with
  | other mem => exact .one (.other mem) rfl (other_agree mem h)
  | @enter m =>
    obtain ⟨rfl, hr⟩ := h
    refine answers_calm hr (fun hclear => ?_) fun hsticky => ?_
    · rw [helperCalm_of_clear hr hclear]
      exact ⟨rfl, rfl, hr⟩
    · obtain ⟨hfst, hflags⟩ := helperCalm_of_sticky (c := c) hsticky
      rw [hfst]
      exact .inr ⟨hflags, rfl⟩
  | interpret | contOut | ret => exact .stay rfl h
  | @interpSafepoint m hf =>
    obtain ⟨rfl, hr⟩ := h
    refine answers_calm hr (fun hclear => ?_) fun hsticky => ?_
    · rw [calm_of_clear hr hclear]
      exact ⟨rfl, hr⟩
    · rw [(calm_of_sticky hsticky).1]
      exact rfl
  | interpExec hw hf hfetch =>
    obtain ⟨rfl, hr⟩ := h
    exact .one (.exec hw hf hfetch) rfl ⟨rfl, (fetch_restartPc hw hfetch).trans hr⟩
  | interpStop hw hf hfetch =>
    obtain ⟨rfl, hr⟩ := h
    exact .one (.stop hw hf hfetch) rfl rfl
  | exec hi hk hw hfetch | call hi hk hf hw ha hfetch =>
    obtain ⟨rfl, hf, hr⟩ := h
    refine answers_native hi ?_ hw hfetch hf hr rfl
    rintro hsys
    simp [hsys] at hk
  | deopt hi hk hw hfetch | callOut hi hk hw hfetch | exit hi hk hw hfetch =>
    obtain ⟨rfl, hf, hr⟩ := h
    exact answers_leave hw hfetch hf hr
  | softfp hi hk hw hfetch =>
    obtain ⟨rfl, hf, hr⟩ := h
    refine answers_native hi (by simp [hk]) hw hfetch hf hr ?_
    rw [fetch_softfp_pc hw hi hk hfetch]
    rfl
  | softfpFails | overflow | callFails | callUnmapped | exitAnyway =>
    exact (hsharp _ (List.mem_singleton_self _)).elim
  | abort hi ha =>
    obtain ⟨rfl, hf, hr⟩ := h
    obtain ⟨rfl, -⟩ := hsharp _ (List.mem_singleton_self _)
    exact .stay rfl (.inl ⟨_, rfl, .inl rfl, hr⟩)
  | @bottom m w calls entry cur i frame hi hk hw hframe hret =>
    obtain ⟨rfl, hf, hr⟩ := h
    generalize hfetch : (m.goto cur).fetch c w = r at hsharp ⊢
    obtain ⟨_ | _, m'⟩ := r
    · refine .one (.stop hw hf hfetch) rfl (.inr ⟨?_, rfl⟩)
      change (m.flags ||| vmExited) &&& sticky ≠ 0
      rw [hf]
      decide
    · exact (hsharp _ (List.mem_singleton_self _)).elim
  | syscall hi hk hreg hw =>
    obtain ⟨rfl, hf, hr⟩ := h
    exact answers_syscall hi hk hreg hw hf hr
  | poll hne => exact absurd h.2.1 hne
  | @cont m a calls entry hf hpc =>
    obtain ⟨rfl, hr⟩ := Leaving.eq_of_flags h hf
    have hsaved := hsharp _ (List.mem_singleton_self _)
    have hm : m.resume a.saved = m := by
      unfold resume
      congr 1
      funext k
      split_ifs with hk
      · exact hsaved k hk.1 hk.2
      · rfl
    refine .stay rfl ?_
    rw [hm, ← hpc]
    exact ⟨rfl, hf, hr⟩
  | @quiet m entry hf =>
    obtain ⟨rfl, hr⟩ := Leaving.eq_of_flags h hf
    refine .stay rfl ?_
    split_ifs
    · exact ⟨rfl, hr⟩
    · exact ⟨rfl, hr⟩
  | @safepoint m entry hne =>
    obtain ⟨f, rfl, hflags, hr⟩ | ⟨hs, ht⟩ := h
    · have hiff := Leaving.sticky_iff hflags
      refine answers_calm hr (fun hclear => ?_) fun hsticky => ?_
      · rw [calm_of_clear hr (hiff.trans hclear), if_pos rfl]
        split_ifs
        · exact ⟨rfl, hr⟩
        · exact ⟨rfl, hr⟩
      · rw [(calm_of_sticky (hiff.trans_ne hsticky)).1]
        exact rfl
    · refine .stay rfl ?_
      rw [(calm_of_sticky hs).1]
      exact ht

end

/-! ## The way to the stop -/

/-- The instruction at `pc_` faults: an access fails, in compiled code as in the interpreter. -/
def Machine.Faults (c : Setup) (m : Machine) : Prop :=
  ∃ i, m.insn c = some i ∧ m.accessFails c i = true ∧
    ∀ w : World, w.Undisturbed → (m.fetch c w).1 = false

/-- A sharp step of this vm alone. -/
structure AloneStep (c : Setup) (s : Mixed) (es : List Act) (s' : Mixed) : Prop
    extends SharpStep c s es s' where
  alone : ∀ mem, .other mem ∉ es

/-- Nothing but the stop at `pc_` is left to do for `m`. -/
def Stuck (m : Machine) : Mixed → Prop
  | ⟨n, .loop⟩ | ⟨n, .interp⟩ | ⟨n, .back _⟩ => n = m
  | ⟨n, .native calls _ cur⟩ => n = m ∧ cur = m.pc ∧ m.pc ∉ calls.map CompiledCall.ret
  | ⟨n, .exiting calls _⟩ => n = m ∧ m.pc ∉ calls.map CompiledCall.ret
  | ⟨_, .halted⟩ => True
  | ⟨_, .ended⟩ => False

/-- How many steps there can be to the stop. -/
def rank (m : Machine) (s : Mixed) : ℕ :=
  match s.place with
  | .loop => 5
  | .interp => 1
  | .native calls entry _ => calls.length + 2 + (if entry = m.pc then 2 else 6)
  | .exiting calls entry => calls.length + 1 + (if entry = m.pc then 2 else 6)
  | .back entry => if entry = m.pc then 2 else 6
  | .halted | .ended => 0

section
variable {c : Setup} {m : Machine} {i : BpfInsn}

theorem accessFails_of_kind (hk : i.kind ≠ .plain) :
    m.accessFails c i = match i.kind with
      | .call | .callIndirect =>
        (m.load c (m.reg 10) 8).1.isNone || (stackBase.toNat ≤ (m.callBase c).toNat &&
          (m.mem.mmuW c.env c.vm (m.callBase c).toNat normalFrameSize).1.isNone)
      | .exit => (m.load c (m.reg 10) 56).1.isNone
      | _ => false := by
  have hclass : (i.code &&& 0x07).toNat = 5 := by
    by_contra hne
    exact hk (if_neg hne)
  rw [accessFails, hclass]
  rfl

theorem stuck_step {s s' : Mixed} {es : List Act} (hf : m.flags = 0) (hr : m.restartPc = 0)
    (hm : m.Faults c) (h : Stuck m s) (hs : AloneStep c s es s') :
    Stuck m s' ∧ rank m s' < rank m s := by
  obtain ⟨i₀, hi₀, hfails, hstop⟩ := hm
  have hinsn {i : BpfInsn} (hi : m.insn c = some i) : i = i₀ :=
    Option.some.inj (hi.symm.trans hi₀)
  have hno {w : World} (hw : w.Undisturbed) {m' : Machine} : m.fetch c w ≠ (true, m') := by
    intro hfetch
    have hfalse := hstop w hw
    rw [hfetch] at hfalse
    cases hfalse
  obtain ⟨⟨hstep, hsharp⟩, halone⟩ := hs
  cases hstep with
  | other mem => exact absurd (List.mem_singleton_self _) (halone mem)
  | @enter n =>
    obtain rfl : n = m := h
    rw [helperCalm_of_zero hf hr]
    exact ⟨⟨rfl, rfl, List.not_mem_nil⟩, by simp [rank]⟩
  | interpret => exact ⟨h, by simp [rank]⟩
  | interpSafepoint hne | safepoint hne =>
    cases h
    exact absurd hf hne
  | interpExec hw _ hfetch =>
    cases h
    exact absurd hfetch (hno hw)
  | interpStop => exact ⟨trivial, by simp [rank]⟩
  | exec _ _ hw hfetch | deopt _ _ hw hfetch | softfp _ _ hw hfetch | call _ _ _ hw _ hfetch
  | callOut _ _ hw hfetch | exit _ _ hw hfetch =>
    obtain ⟨rfl, rfl, -⟩ := h
    exact absurd hfetch (hno hw)
  | softfpFails | overflow | callFails | callUnmapped | exitAnyway =>
    exact (hsharp _ (List.mem_singleton_self _)).elim
  | abort =>
    obtain ⟨rfl, rfl, hret⟩ := h
    exact ⟨⟨rfl, hret⟩, by simp [rank]⟩
  | bottom hi hk _ hframe _ =>
    obtain ⟨rfl, rfl, -⟩ := h
    obtain rfl := hinsn hi
    rw [accessFails_of_kind (by simp [hk]), hk] at hfails
    simp [hframe] at hfails
  | syscall hi hk =>
    obtain ⟨rfl, rfl, -⟩ := h
    obtain rfl := hinsn hi
    rw [accessFails_of_kind (by simp [hk]), hk] at hfails
    cases hfails
  | poll hne =>
    obtain ⟨rfl, -⟩ := h
    exact absurd hf hne
  | cont _ hpc =>
    obtain ⟨rfl, hret⟩ := h
    exact absurd (by simp [hpc]) hret
  | contOut =>
    obtain ⟨rfl, hret⟩ := h
    exact ⟨⟨rfl, fun hmem => hret (List.mem_cons_of_mem _ hmem)⟩, by simp [rank]⟩
  | ret =>
    obtain ⟨rfl, -⟩ := h
    exact ⟨rfl, by simp [rank]⟩
  | @quiet m entry _ =>
    cases h
    by_cases he : m.pc = entry
    · rw [if_neg (not_not.mpr he)]
      exact ⟨rfl, by simp [rank, he]⟩
    · rw [if_pos he]
      exact ⟨rfl, by simp [rank, Ne.symm he]⟩

theorem undisturbed_quiet : World.quiet.Undisturbed where
  syscall := fun _ _ => rfl
  softfp := fun _ _ => rfl
  kept := fun _ _ _ _ => ⟨rfl, fun _ _ _ => rfl⟩
  finished := fun _ _ => by
    change ¬ ((0 : U64) = syscallRestart ∨ (0 : U64) = syscallRestartNohand)
    decide
  syscallFlags := fun _ _ hf _ => hf
  softfpPc := fun _ _ => rfl
  softfpFlags := fun _ _ => rfl

theorem stuck_progress {s : Mixed} (hf : m.flags = 0) (hm : m.Faults c) (h : Stuck m s) :
    s.place = .halted ∨ ∃ es s', AloneStep c s es s' := by
  obtain ⟨i, hi, hfails, hstop⟩ := hm
  obtain ⟨n, place⟩ := s
  cases place with
  | loop => exact .inr ⟨_, _, ⟨.interpret, by simp⟩, by simp⟩
  | interp =>
    cases h
    refine .inr ⟨_, _, ⟨.interpStop undisturbed_quiet hf (Prod.ext (hstop _ undisturbed_quiet) rfl),
      ?_⟩, by simp⟩
    simp [Act.Sharp]
  | native calls entry cur =>
    obtain ⟨rfl, rfl, hret⟩ := h
    refine .inr ⟨_, _, ⟨.abort hi hfails, ?_⟩, by simp⟩
    simpa [Act.Sharp] using hret
  | exiting calls entry =>
    obtain ⟨rfl, hret⟩ := h
    cases calls with
    | nil => exact .inr ⟨_, _, ⟨.ret, by simp⟩, by simp⟩
    | cons a calls =>
      refine .inr ⟨_, _, ⟨.contOut (.inr fun hpc => hret ?_), by simp⟩, by simp⟩
      exact List.mem_cons.mpr (.inl hpc)
  | back entry =>
    cases h
    exact .inr ⟨_, _, ⟨.quiet hf, by simp⟩, by simp⟩
  | halted => exact .inl rfl
  | ended => exact h.elim

end

/-! ## Runs -/

/-- A run without a fault that loses its place executes the instructions that pure
interpretation executes. If compiled code faults, then the vm stops a few steps later, in the
state in which the interpreter stops. -/
theorem compiled_faults_precise {c : Setup} {m₀ : Machine} {l : List (List Act)} {s : Mixed}
    (hr : m₀.restartPc = 0) (h : Run (SharpStep c) ⟨m₀, .loop⟩ l s) :
    (∃ l' t, Run (InterpStep c) (m₀, true) l' t ∧
      l'.flatten = l.flatten.filter Act.shown ∧ Agree s t) ∧
    ∀ calls entry cur, s.place = .native calls entry cur → (s.m.goto cur).Faults c →
      s.m.pc = cur → cur ∉ calls.map CompiledCall.ret →
      ∀ l₂ s₂, Run (AloneStep c) s l₂ s₂ → l₂.length ≤ calls.length + 8 ∧
        (s₂.place = .halted ∨ ∃ es s₃, AloneStep c s₂ es s₃) := by
  have hstart : Agree ⟨m₀, .loop⟩ (m₀, true) := ⟨rfl, hr⟩
  have hsim (s : Mixed) (es : List Act) (s' : Mixed) (t : Machine × Bool) (hR : Agree s t)
      (hs : SharpStep c s es s') : ∃ l₂ t', Run (InterpStep c) t l₂ t' ∧
        l₂.flatten = es.filter Act.shown ∧ Agree s' t' := step_answers hR hs
  obtain ⟨l', t, hrun, hl, hagree⟩ := h.forward hstart hsim
  refine ⟨⟨l', t, hrun, ?_, hagree⟩, ?_⟩
  · rw [hl, List.filter_flatten]
    rfl
  · intro calls entry cur hplace hfault hpc hret l₂ s₂ hrun₂
    obtain ⟨m, place⟩ := s
    obtain rfl : place = .native calls entry cur := hplace
    obtain rfl : m.pc = cur := hpc
    obtain ⟨-, hf, hr'⟩ := hagree
    have hstuck : Stuck m ⟨m, .native calls entry m.pc⟩ := ⟨rfl, rfl, hret⟩
    have hfall (s : Mixed) (es : List Act) (s' : Mixed) (hP : Stuck m s)
        (hs : AloneStep c s es s') : Stuck m s' ∧ rank m s' < rank m s :=
      stuck_step hf hr' hfault hP hs
    obtain ⟨hstuck₂, hlen⟩ := hrun₂.length_le_rank hstuck hfall
    refine ⟨?_, stuck_progress hf hfault hstuck₂⟩
    have hrank : rank m ⟨m, .native calls entry m.pc⟩ ≤ calls.length + 8 := by
      unfold rank
      dsimp only
      split_ifs <;> omega
    omega

section Example

/-- `r6 += 1` and a load from the address in `r1`, at `0x1000`. -/
def faultImage : List BootSeg :=
  [⟨0x1000, 0x1000, 5, fun k => ((⟨0x07, 6, 0, 0, 1⟩ : BpfInsn).bytes ++
    (⟨0x79, 0, 1, 0, 0⟩ : BpfInsn).bytes).getD k 0⟩]

/-- At `pc`, with nothing mapped at the address in `r1`. -/
def faulty (pc : U64) : Machine := boot faultImage (fun _ => 0) pc

theorem enter_clear {c : Setup} {m : Machine} (hf : m.flags = 0) (hr : m.restartPc = 0) :
    JitStep c ⟨m, .loop⟩ [] ⟨m, .native [] m.pc m.pc⟩ := by
  have henter := JitStep.enter (c := c) (m := m)
  rw [helperCalm_of_zero hf hr] at henter
  exact henter

theorem faults_faulty : (faulty 0x1008).Faults Setup.plain :=
  ⟨⟨0x79, 0, 1, 0, 0⟩, by decide, by decide, fun _ _ => rfl⟩

theorem compiled_faults_precise_load : ∃ l s,
    Run (SharpStep Setup.plain) ⟨faulty 0x1008, .loop⟩ l s ∧
    s.place = .native [] 0x1008 0x1008 ∧
    ∀ l₂ s₂, Run (AloneStep Setup.plain) s l₂ s₂ → l₂.length ≤ 8 ∧
      (s₂.place = .halted ∨ ∃ es s₃, AloneStep Setup.plain s₂ es s₃) := by
  have hrun : Run (SharpStep Setup.plain) ⟨faulty 0x1008, .loop⟩ [[]]
      ⟨faulty 0x1008, .native [] 0x1008 0x1008⟩ := .single ⟨enter_clear rfl rfl, by simp⟩
  refine ⟨_, _, hrun, rfl, ?_⟩
  exact (compiled_faults_precise rfl hrun).2 [] 0x1008 0x1008 rfl faults_faulty rfl (by simp)

/-- The addresses of the executed instructions. -/
def executed (l : List (List Act)) : List U64 :=
  l.flatten.filterMap fun
    | .exec pc _ => some pc
    | _ => none

/-- `r6 += 1` has been executed, and `pc_` is not moved. -/
def added : Machine := { ((faulty 0x1000).fetch Setup.plain World.quiet).2 with pc := 0x1000 }

/-- It has been executed again. -/
def addedTwice : Machine := { (added.fetch Setup.plain World.quiet).2 with pc := 0x1008 }

theorem fetch_faulty : (faulty 0x1000).fetch Setup.plain World.quiet = (true, added) :=
  Prod.ext (by decide) rfl

theorem fetch_added : added.fetch Setup.plain World.quiet =
    (true, { addedTwice with pc := 0x1000 }) := Prod.ext (by decide) rfl

/-- The load faults in compiled code that was entered one instruction before: that instruction is
executed again. -/
theorem instruction_executed_twice : ∃ c m₀ l s l' m,
    Run (JitStep c) ⟨m₀, .loop⟩ l s ∧ s.place = .halted ∧
    Run (InterpStep c) (m₀, true) l' (m, false) ∧
    executed l' = [0x1000] ∧ m.reg 6 = 1 ∧ executed l = [0x1000, 0x1000] ∧ s.m.reg 6 = 2 := by
  have habort : JitStep Setup.plain ⟨added, .native [] 0x1000 0x1008⟩ [.abort 0x1008 0x1000 []]
      ⟨added, .exiting [] 0x1000⟩ :=
    .abort (i := ⟨0x79, 0, 1, 0, 0⟩) (by decide) (by decide)
  have hjit : Run (JitStep Setup.plain) ⟨faulty 0x1000, .loop⟩
      [[], [.exec 0x1000 World.quiet], [.abort 0x1008 0x1000 []], [], [],
        [.exec 0x1000 World.quiet], [], [.stop 0x1008 World.quiet]]
      ⟨(addedTwice.fetch Setup.plain World.quiet).2, .halted⟩ := by
    refine .cons (enter_clear rfl rfl) ?_
    refine .cons (.exec (i := ⟨0x07, 6, 0, 0, 1⟩) (by decide) (.inl (by decide))
      undisturbed_quiet fetch_faulty) ?_
    refine .cons habort ?_
    refine .cons .ret ?_
    refine .cons (.quiet (by decide)) ?_
    refine .cons (.interpExec undisturbed_quiet (by decide) fetch_added) ?_
    refine .cons .interpret ?_
    exact .single (.interpStop (m := addedTwice) undisturbed_quiet (by decide)
      (Prod.ext (by decide) rfl))
  have hinterp : Run (InterpStep Setup.plain) (faulty 0x1000, true)
      [[.exec 0x1000 World.quiet], [.stop 0x1008 World.quiet]]
      (((added.goto 0x1008).fetch Setup.plain World.quiet).2, false) := by
    refine .cons (.exec undisturbed_quiet rfl fetch_faulty) ?_
    exact .single (.stop (m := added.goto 0x1008) undisturbed_quiet (by decide)
      (Prod.ext (by decide) rfl))
  exact ⟨_, _, _, _, _, _, hjit, rfl, hinterp, rfl, by decide, rfl, by decide⟩

end Example

end Bpfvm.Cpu
