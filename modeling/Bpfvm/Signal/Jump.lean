import Bpfvm.Cpu.Restart
import Bpfvm.Signal.Calls

/-!
# `siglongjmp` out of compiled code

`helper_do_syscall` leaves the compiled code whose `pc_` a system call has moved, with
`VM_JIT_ABORT` set so that the compiled callers leave as well. The way from there to the next guest
instruction, and what that instruction finds.
-/
namespace Bpfvm.Signal
open Cpu Memory Machine List

/-- What `siglongjmp` leaves in `r0`. -/
def jumpValue (m : Machine) : U64 :=
  if (m.reg 2).truncate 32 = (0 : U32) then 1
  else ((m.reg 2).truncate 32 : U32).signExtend 64

/-- `savemask`, as `sigsetjmp` gets it. -/
def savesMask (m : Machine) : Bool := (m.reg 2).truncate 32 != (0 : U32)

/-- The vm after a return to the `sigsetjmp` that was called in `m₀`. -/
structure Landing (m₀ : Machine) (mask val : U64) (m : Machine) : Prop where
  pc : m.pc = m₀.pc + 8
  reg : ∀ k, 6 ≤ k → k ≤ 10 → m.reg k = m₀.reg k
  result : m.reg 0 = val
  depth : m.signalDepth = m₀.signalDepth
  mask : m.sigmask = mask
  restart : m.restartPc = 0

/-! ## The buffer -/

section
variable {c : Setup} {m m₀ m₁ : Machine} {env : List Byte}

theorem length_jmpBuf (m : Machine) (savemask : Bool) :
    ((jmpBuf m savemask).flatMap wordBytes).length ≤ 80 := by
  rw [length_flatMap_wordBytes, jmpBuf]
  cases savemask <;> simp

/-- `env` holds what `sigsetjmp` has stored in it. -/
def Holds (m₀ : Machine) (env : List Byte) : Prop :=
  ∃ rest, env = (jmpBuf m₀ (savesMask m₀)).flatMap wordBytes ++ rest

theorem Holds.word (h : Holds m₀ env) {i : ℕ} {x : U64}
    (hx : (jmpBuf m₀ (savesMask m₀))[i]? = some x) : word env (8 * i) = x := by
  obtain ⟨rest, rfl⟩ := h
  exact word_flatMap _ _ hx

/-- A `sigsetjmp` that succeeds leaves a buffer that can be read back. -/
theorem doSigsetjmp_load (hs : Sound m₀.mem c.vm) (h : doSigsetjmp c m₀ = (0, m₁)) :
    ∃ env, (m₁.load c (m₀.reg 1) 80).1 = some env ∧ Holds m₀ env := by
  unfold doSigsetjmp at h
  generalize hw : m₀.mem.mmuW c.env c.vm (m₀.reg 1).toNat 80 = r at h
  obtain ⟨_ | p, mem⟩ := r
  · exact absurd (Prod.mk.inj h).1 (by decide)
  · obtain ⟨seg, rfl, hown, hst⟩ := owned_of_mmuW hs (BitVec.isLt _) (by decide) (by decide) hw
    have hlen := length_jmpBuf m₀ (savesMask m₀)
    have hst' := Owned.store ((jmpBuf m₀ (savesMask m₀)).flatMap wordBytes) hst.sound
      (hown.sub le_rfl (by omega))
    obtain ⟨env, mem', hload, hread, -⟩ := load_of_mapped (c := c)
      (m := { m₀ with mem := mem.setHost (mem.host.store (seg.ptr (m₀.reg 1).toNat)
        ((jmpBuf m₀ (savesMask m₀)).flatMap wordBytes)) })
      hst'.sound (hst'.mapped hown.mapped) (by decide)
    obtain rfl := (Prod.mk.inj h).2
    refine ⟨env, congrArg Prod.fst hload, ?_⟩
    dsimp only at hread
    rw [hst'.view] at hread
    exact FlatMemory.read_append hread (FlatMemory.read_write_self _ _ _) hlen

/-- What `siglongjmp` restores. -/
theorem doSiglongjmp_of_holds (queued : Bool) (h : (m.load c (m.reg 1) 80).1 = some env)
    (henv : Holds m₀ env) :
    ∃ m', doSiglongjmp c queued m = (jumpValue m, m') ∧ m'.pc = m₀.pc ∧
      (∀ k, 6 ≤ k → k ≤ 10 → m'.reg k = m₀.reg k) ∧ m'.signalDepth = m₀.signalDepth ∧
      m'.sigmask = (if savesMask m₀ then m₀.sigmask else m.sigmask) ∧
      m'.restartPc = m.restartPc := by
  have hload : m.load c (m.reg 1) 80 = (some env, (m.load c (m.reg 1) 80).2) := Prod.ext h rfl
  have hreg : ∀ k, 6 ≤ k → k ≤ 10 → word env (8 * (k - 6)) = m₀.reg k := by
    intro k h6 h10
    apply henv.word
    interval_cases k <;> rfl
  have hpc : word env 40 = m₀.pc := henv.word (i := 5) rfl
  have hdepth : word env 48 = m₀.signalDepth := henv.word (i := 6) rfl
  have hflag : word env 64 = if savesMask m₀ then 1 else 0 := henv.word (i := 8) rfl
  have hmask : savesMask m₀ = true → word env 72 = m₀.sigmask := by
    intro hsave
    refine henv.word (i := 9) ?_
    rw [hsave]
    rfl
  unfold doSiglongjmp
  rw [hload]
  refine ⟨_, rfl, ?_⟩
  rw [hflag]
  cases hsave : savesMask m₀ with
  | false => exact ⟨hpc, fun k h6 h10 => (if_pos ⟨h6, h10⟩).trans (hreg k h6 h10), hdepth, rfl, rfl⟩
  | true =>
    exact ⟨hpc, fun k h6 h10 => (if_pos ⟨h6, h10⟩).trans (hreg k h6 h10), hdepth, hmask hsave, rfl⟩

end

/-! ## Safepoints without a handler -/

/-- No handler was entered. -/
def NoHandler (es : List Event) : Prop := ∀ ret r0 args, Event.handler ret r0 args ∉ es

/-- What became of `m`: flags and memory have changed, or the vm is to end. -/
def Passes (m : Machine) (r : Bool × Machine) : Prop :=
  (∃ flags mem, r.2 = { m with flags := flags, mem := mem }) ∨
    r.1 = false ∧ r.2.flags &&& sticky ≠ 0

section
variable {c : Setup} {m : Machine}

theorem deliverSignal_quiet {x : Handled} (hr : m.restartPc = 0)
    (hno : NoHandler (m.deliverEvents c x)) : Passes m (m.deliverSignal c x) := by
  cases x with
  | fatal => exact .inl ⟨m.flags, m.mem, rfl⟩
  | none =>
    refine .inl ⟨m.flags, m.mem, ?_⟩
    rw [deliverSignal, if_pos hr]
  | handler info =>
    rcases deliverSignal_handler c m info with ⟨-, hout⟩ | ⟨⟨bs, hsome⟩, -, hcase⟩
    · exact .inl ⟨m.flags, (m.load c info.handler 8).2.mem, congrArg Prod.snd hout⟩
    · rcases hcase with ⟨hok, -⟩ | ⟨hok, hk, -⟩
      · rw [deliverEvents, hsome, if_neg (by simp), if_pos hok] at hno
        exact absurd mem_cons_self (hno _ _ _)
      · exact .inr ⟨hok, hk ▸ killed_sticky m.flags⟩

/-- The delivery that `safepoint` makes when no handler is running. -/
theorem deliver_first_quiet {x : Handled} (hr : m.restartPc = 0)
    (hno : NoHandler (if m.signalDepth = 0 then m.deliverEvents c x else [])) :
    Passes m (if m.signalDepth = 0 then m.deliverSignal c x else (true, m)) := by
  split_ifs at hno ⊢
  · exact deliverSignal_quiet hr hno
  · exact .inl ⟨m.flags, m.mem, rfl⟩

theorem safepoint_quiet {w : SafepointWorld} (hr : m.restartPc = 0)
    (hno : NoHandler (m.safepointEvents c w)) : Passes m (m.safepoint c w) := by
  unfold safepointEvents at hno
  unfold safepoint
  have hfirst := deliver_first_quiet (c := c) (x := w.first)
    (m := { m with flags := m.flags &&& ~~~vmJitAbort }) hr
  dsimp only at hno hfirst ⊢
  generalize (if m.signalDepth = 0 then deliverSignal c _ w.first else _) = r
    at hno hfirst ⊢
  generalize (if m.signalDepth = 0 then deliverEvents c _ w.first else _) = es
    at hno hfirst
  obtain ⟨_ | _, m₁⟩ := r
  · exact hfirst hno
  · dsimp only at hno ⊢
    split_ifs at hno ⊢ with hstop hkill
    · exact .inr ⟨rfl, hstop⟩
    · exact .inr ⟨rfl, hstop⟩
    · rcases hfirst fun ret r0 args h => hno ret r0 args (mem_append_left _ h) with
        ⟨flags, mem, rfl⟩ | h
      · exact deliverSignal_quiet (m := { m with flags := w.flags, mem := mem }) hr
          fun ret r0 args h => hno ret r0 args (mem_append_right _ h)
      · exact absurd h.1 (by simp)

end

/-! ## The way out of compiled code -/

/-- A step on the way: no instruction is executed and no handler entered. `VM_JIT_ABORT` is not set
or cleared by other threads, and a compiled instruction whose access fails leaves the registers. -/
structure UnwindStep (c : Setup) (s : Conf) (es : List Event) (s' : Conf) : Prop where
  step : VmStep c s es s'
  noExec : ∀ pc args out, Event.exec pc args out ∉ es
  noHandler : NoHandler es
  own : ∀ n entry, s.loc = .exiting n entry →
    s'.m.flags &&& vmJitAbort = s.m.flags &&& vmJitAbort
  kept : ∀ n entry cur, s.loc = .native n entry cur → s'.loc = .exiting n entry →
    s'.m.reg = s.m.reg ∨ s'.m.flags &&& sticky ≠ 0

/-- Where the thread may be between the jump and the next instruction. Compiled code that runs was
entered at the target; the callers of the code that was left are still kept from going on. -/
def Unwinding (m₀ : Machine) (mask val : U64) (s : Conf) : Prop :=
  match s.loc with
  | .loop | .interp => Landing m₀ mask val s.m
  | .native n entry cur =>
    Landing m₀ mask val s.m ∧ n = 0 ∧ entry = m₀.pc + 8 ∧ cur = m₀.pc + 8
  | .exiting n _ =>
    Landing m₀ mask val s.m ∧ (n = 0 ∨ s.m.flags &&& vmJitAbort ≠ 0) ∨ s.m.flags &&& sticky ≠ 0
  | .back _ => Landing m₀ mask val s.m ∨ s.m.flags &&& sticky ≠ 0
  | .stopped => True

section
variable {c : Setup} {m m₀ : Machine} {mask val : U64} {s s' : Conf} {es : List Event}

theorem Landing.change (h : Landing m₀ mask val m) (flags : U32) (mem : Memory.State) :
    Landing m₀ mask val { m with flags := flags, mem := mem } :=
  ⟨h.pc, h.reg, h.result, h.depth, h.mask, h.restart⟩

theorem Landing.passes (h : Landing m₀ mask val m) {r : Bool × Machine} (hp : Passes m r) :
    Landing m₀ mask val r.2 ∨ r.1 = false ∧ r.2.flags &&& sticky ≠ 0 := by
  rcases hp with ⟨flags, mem, he⟩ | hp
  · rw [he]
    exact .inl (h.change flags mem)
  · exact .inr hp

/-- `helper_safepoint` at the target. -/
theorem unwinding_helperSafepoint {w : SafepointWorld} (h : Landing m₀ mask val m)
    (hno : NoHandler (m.safepointEvents c w)) :
    Unwinding m₀ mask val ⟨(m.helperSafepoint c w).2,
      if (m.helperSafepoint c w).1 then .exiting 0 (m₀.pc + 8)
      else .native 0 (m₀.pc + 8) (m₀.pc + 8)⟩ := by
  have hp := h.passes (safepoint_quiet h.restart hno)
  unfold helperSafepoint
  generalize m.safepoint c w = r at hp ⊢
  obtain ⟨_ | _, m'⟩ := r
  · rcases hp with hp | hp
    · exact .inl ⟨hp, .inl rfl⟩
    · exact .inr hp.2
  · have hl := hp.resolve_right (by simp)
    have hpc : ¬ (m'.pc != m.pc) = true := by
      rw [show m'.pc = m.pc from hl.pc.trans h.pc.symm]
      simp
    dsimp only
    rw [if_neg hpc]
    exact ⟨hl, rfl, rfl, rfl⟩

/-- An interpreted step that executes nothing ends the vm. -/
theorem step_noExec {w : World} (hno : ∀ pc args out, Event.exec pc args out ∉ m.stepEvents c w) :
    (m.step c w).1 = false := by
  have hfetch : ∀ m' : Machine, (∀ pc args out, Event.exec pc args out ∉ m'.fetchEvents c w) →
      (m'.fetch c w).1 = false := by
    intro m' hno'
    unfold fetchEvents at hno'
    unfold fetch
    generalize m'.mem.mmu c.vm m'.pc.toNat 8 = r at hno' ⊢
    obtain ⟨_ | p, mem⟩ := r
    · rfl
    · dsimp only at hno' ⊢
      split_ifs at hno' ⊢
      · rfl
      · exact absurd mem_cons_self (hno' _ _ _)
  unfold stepEvents at hno
  unfold step
  dsimp only at hno ⊢
  split_ifs at hno ⊢
  · rfl
  · generalize safepoint c w.safepoint _ = r at hno ⊢
    obtain ⟨_ | _, m'⟩ := r
    · rfl
    · exact hfetch m' fun pc args out h => hno pc args out (mem_append_right _ h)
  · exact hfetch _ hno

theorem Unwinding.step (h : Unwinding m₀ mask val s) (hs : UnwindStep c s es s') :
    Unwinding m₀ mask val s' := by
  obtain ⟨hstep, hexec, hhand, hown, hkept⟩ := hs
  cases hstep with
  | @other m loc flags mem hf =>
    cases loc with
    | loop | interp => exact h.change flags mem
    | native n entry cur => exact ⟨h.1.change flags mem, h.2⟩
    | exiting n entry =>
      refine h.imp (fun h => ⟨h.1.change flags mem, h.2.imp_right fun ha => ?_⟩) hf
      have hsame := hown n entry rfl
      dsimp only at hsame ⊢
      rwa [hsame]
    | back entry => exact h.imp (fun h => h.change flags mem) hf
    | stopped => trivial
  | @enter m w hf =>
    have hl : Landing m₀ mask val m := h
    rw [hl.pc]
    exact unwinding_helperSafepoint hl hhand
  | interpret => exact h
  | @step m w hw hf =>
    have hfalse := step_noExec hexec
    generalize m.step c w = r at hfalse ⊢
    obtain ⟨_ | _, m'⟩ := r
    · trivial
    · exact absurd hfalse (by simp)
  | exec hr | leave hr | syscall call hw => exact absurd mem_cons_self (hexec _ _ _)
  | @abort m n entry cur reg hargs =>
    obtain ⟨hl, rfl, -, -⟩ := h
    rcases hkept 0 entry cur rfl rfl with hreg | hend
    · dsimp only at hreg
      subst hreg
      exact .inl ⟨hl, .inl rfl⟩
    · exact .inr hend
  | @poll m w n entry cur hne hf =>
    obtain ⟨hl, rfl, rfl, rfl⟩ := h
    dsimp only at hl hhand
    have hat : ({ m with pc := m₀.pc + 8 } : Machine) = m := by
      rw [← hl.pc]
    rw [hat] at hhand ⊢
    exact unwinding_helperSafepoint hl hhand
  | @cont m n entry ret =>
    rcases h with ⟨hl, hn | ha⟩ | hend
    · exact absurd hn (by simp)
    · have hne : m.flags ≠ 0 := by
        rintro h0
        exact ha (by simp [h0])
      rw [if_pos (.inl hne)]
      exact .inl ⟨hl, .inr ha⟩
    · have hne : m.flags ≠ 0 := by
        rintro h0
        exact hend (by simp [h0])
      rw [if_pos (.inl hne)]
      exact .inr hend
  | @ret m entry => exact h.imp_left And.left
  | @quiet m entry h0 =>
    rcases h with hl | hend
    · dsimp only [Unwinding]
      split_ifs <;> exact hl
    · exact absurd (by simp [h0]) hend
  | @safepoint m w entry hne hf =>
    rcases h with hl | hend
    · have hp := hl.passes (safepoint_quiet hl.restart hhand)
      generalize m.safepoint c w = r at hp ⊢
      obtain ⟨_ | _, m'⟩ := r
      · trivial
      · have hl' := hp.resolve_right (by simp)
        dsimp only [Unwinding]
        split_ifs <;> exact hl'
    · have hfalse := safepoint_of_sticky (c := c) hend hf
      generalize m.safepoint c w = r at hfalse ⊢
      obtain ⟨_ | _, m'⟩ := r
      · trivial
      · exact absurd hfalse (by simp)

end

/-! ## The jump and the next instruction -/

/-- The system call `call` is made in `m`, by compiled code with `n` compiled callers or by the
interpreter. -/
inductive Jumped (c : Setup) (w : World) (call : U32) (m : Machine) : Conf → Prop
  | compiled (n : ℕ) (entry : U64) : Jumped c w call m ⟨(m.helperDoSyscall w call).2,
      if (m.helperDoSyscall w call).1 then .native n entry (m.pc + 8) else .exiting n entry⟩
  | interpreted {m' : Machine} {cur : BpfInsn} {p : HostPtr} (hsys : cur.IsSyscall)
      (himm : cur.imm = call) (h : m.execute c w cur p = (true, m')) :
      Jumped c w call m ⟨{ m' with pc := m'.pc + 8 }, .loop⟩
  | ended {m' : Machine} {cur : BpfInsn} {p : HostPtr} (hsys : cur.IsSyscall)
      (himm : cur.imm = call) (h : m.execute c w cur p = (false, m')) :
      Jumped c w call m ⟨m', .stopped⟩

/-- A step from `s` that shows `es` executes an instruction in `m`, before any handler. -/
inductive Executes (c : Setup) : Conf → List Event → Machine → Prop
  | native {m : Machine} {n : ℕ} {entry cur : U64} (out : Outcome) :
      Executes c ⟨m, .native n entry cur⟩ [.exec cur m.args out] { m with pc := cur }
  | interp {m m' : Machine} {w : World} (hno : NoHandler (m.stepEvents c w))
      (hgo : (if m.flags ≠ 0 then
          ({ m with insnCount := m.insnCount + 1 } : Machine).safepoint c w.safepoint
          else (true, { m with insnCount := m.insnCount + 1 })) = (true, m'))
      (hexec : m.stepEvents c w = (if m.flags ≠ 0 then
          ({ m with insnCount := m.insnCount + 1 } : Machine).safepointEvents c w.safepoint
          else []) ++ m'.fetchEvents c w) :
      Executes c ⟨m, .interp⟩ (m.stepEvents c w) m'

section
variable {c : Setup} {w : World} {m m₀ : Machine} {mask val : U64} {s s' : Conf}
  {es : List Event} {call : U32}

theorem noExec_deliverEvents (x : Handled) (pc : U64) (args : List U64)
    (out : Outcome) : Event.exec pc args out ∉ m.deliverEvents c x := by
  cases x with
  | fatal => simp [deliverEvents]
  | none | handler info =>
    rw [deliverEvents]
    split_ifs <;> simp

/-- Everything that a safepoint shows comes from one of its two deliveries. -/
theorem forall_safepointEvents {P : Event → Prop} {w : SafepointWorld}
    (h : ∀ m' : Machine, ∀ x, x = w.first ∨ x = w.second → ∀ e ∈ m'.deliverEvents c x, P e) :
    ∀ e ∈ m.safepointEvents c w, P e := by
  have hfirst : ∀ e ∈ (if m.signalDepth = 0 then
      ({ m with flags := m.flags &&& ~~~vmJitAbort } : Machine).deliverEvents c w.first
      else []), P e := by
    split_ifs
    · exact h _ _ (.inl rfl)
    · simp
  unfold safepointEvents
  dsimp only
  generalize (if m.signalDepth = 0 then deliverEvents c _ w.first else _) = es at hfirst ⊢
  split
  · exact hfirst
  · split_ifs
    · exact hfirst
    · intro e he
      rcases mem_append.mp he with he | he
      · exact hfirst e he
      · exact h _ _ (.inr rfl) e he

theorem noExec_safepointEvents (w : SafepointWorld) (pc : U64) (args : List U64)
    (out : Outcome) : Event.exec pc args out ∉ m.safepointEvents c w := fun h =>
  forall_safepointEvents (P := (· ≠ .exec pc args out))
    (fun _ x _ _ he heq => noExec_deliverEvents x pc args out (heq ▸ he)) _ h rfl

theorem fetchEvents_pc {pc : U64} {args : List U64} {out : Outcome}
    (h : Event.exec pc args out ∈ m.fetchEvents c w) : pc = m.pc ∧ args = m.args := by
  unfold fetchEvents at h
  generalize m.mem.mmu c.vm m.pc.toNat 8 = r at h
  obtain ⟨_ | p, mem⟩ := r
  · simp at h
  · dsimp only at h
    split_ifs at h
    · simp at h
    · obtain ⟨rfl, rfl, -⟩ := Event.exec.inj (mem_singleton.mp h)
      exact ⟨rfl, rfl⟩

/-- Where the instructions that a step shows are executed. -/
theorem executes_of_step {pc : U64} {args : List U64} {out : Outcome}
    (hs : VmStep c s es s') (hno : NoHandler es) (h : Event.exec pc args out ∈ es) :
    ∃ m, Executes c s es m ∧ pc = m.pc ∧ args = m.args := by
  cases hs with
  | other flags mem hf | interpret | abort reg hargs | cont ret | ret | quiet h0 => simp at h
  | enter hf | poll hne hf | safepoint hne hf => exact absurd h (noExec_safepointEvents _ _ _ _)
  | @step m w hw hf =>
    unfold stepEvents at h
    dsimp only at h
    split_ifs at h with hlimit hflags
    · simp at h
    · generalize hr : safepoint c w.safepoint _ = r at h
      obtain ⟨_ | _, m'⟩ := r
      · exact absurd h (noExec_safepointEvents _ _ _ _)
      · rcases mem_append.mp h with h | h
        · exact absurd h (noExec_safepointEvents _ _ _ _)
        · refine ⟨m', .interp hno ?_ ?_, fetchEvents_pc h⟩
          · rw [if_pos hflags, hr]
          · unfold stepEvents
            dsimp only
            rw [if_neg hlimit, if_pos hflags, hr]
            rw [if_pos hflags]
    · refine ⟨_, .interp hno (if_neg hflags) ?_, fetchEvents_pc h⟩
      unfold stepEvents
      dsimp only
      rw [if_neg hlimit, if_neg hflags, if_neg hflags, nil_append]
  | exec hr | leave hr | syscall call hw =>
    obtain ⟨rfl, rfl, rfl⟩ := Event.exec.inj (mem_singleton.mp h)
    exact ⟨_, .native _, rfl, rfl⟩

/-- The next instruction is executed where the jump goes. -/
theorem Unwinding.executes (h : Unwinding m₀ mask val s) (hx : Executes c s es m) :
    Landing m₀ mask val m := by
  cases hx with
  | @native m n entry cur out =>
    obtain ⟨hl, -, -, rfl⟩ := h
    exact ⟨rfl, hl.reg, hl.result, hl.depth, hl.mask, hl.restart⟩
  | @interp m₁ m₂ w hno hgo hexec =>
    have hl : Landing m₀ mask val m₁ := h
    have hl' : Landing m₀ mask val { m₁ with insnCount := m₁.insnCount + 1 } :=
      ⟨hl.pc, hl.reg, hl.result, hl.depth, hl.mask, hl.restart⟩
    split_ifs at hgo with hflags
    · rw [hexec, if_pos hflags] at hno
      have hp := hl'.passes (safepoint_quiet hl'.restart fun ret r0 args hm =>
        hno ret r0 args (mem_append_left _ hm))
      rw [hgo] at hp
      exact hp.resolve_right (by simp)
    · rw [← (Prod.mk.inj hgo).2]
      exact hl'

/-- `do_syscall` with a `siglongjmp` that does not look like an interrupted call. -/
theorem doSyscall_landing {m' : Machine} {val : U64} (hsys : w.syscall call m = (val, m'))
    (hval : ¬ (val = syscallRestart ∨ val = syscallRestartNohand)) :
    m.doSyscall w call = (decide (m'.flags &&& (vmExited ||| vmKilled) = 0), m'.setReg 0 val) := by
  rw [doSyscall, hsys]
  dsimp only
  rw [if_neg hval]
  rfl

theorem sticky_of_ended {flags : U32} (h : flags &&& (vmExited ||| vmKilled) ≠ 0) :
    flags &&& sticky ≠ 0 := by
  intro h0
  have hsub : vmExited ||| vmKilled = sticky &&& (vmExited ||| vmKilled) := by decide
  rw [hsub, ← BitVec.and_assoc, h0] at h
  exact h BitVec.zero_and

/-- Behind a `siglongjmp` that has moved `pc_`. -/
theorem unwinding_jumped {m' : Machine} (hsys : w.syscall call m = (val, m'))
    (hval : ¬ (val = syscallRestart ∨ val = syscallRestartNohand)) (hpc : m.pc ≠ m₀.pc)
    (hl : Landing m₀ mask val { m'.setReg 0 val with pc := m'.pc + 8 })
    (hj : Jumped c w call m s) : Unwinding m₀ mask val s := by
  have hdo := doSyscall_landing hsys hval
  have hpc' : m'.pc = m₀.pc := by simpa using hl.pc
  have hmoved : ¬ (m'.setReg 0 val).pc = m.pc := fun h => hpc (h.symm.trans hpc')
  cases hj with
  | compiled n entry =>
    by_cases hend : m'.flags &&& (vmExited ||| vmKilled) = 0
    · have hhelp : m.helperDoSyscall w call = (false, { m'.setReg 0 val with
          flags := m'.flags ||| vmJitAbort, pc := m'.pc + 8 }) := by
        rw [helperDoSyscall, hdo, decide_eq_true hend]
        exact if_pos hmoved
      rw [hhelp]
      exact .inl ⟨⟨hl.pc, hl.reg, hl.result, hl.depth, hl.mask, hl.restart⟩,
        .inr (or_vmJitAbort _)⟩
    · have hhelp : m.helperDoSyscall w call = (false, m'.setReg 0 val) := by
        rw [helperDoSyscall, hdo, decide_eq_false hend]
        exact congrArg (Prod.mk false) (if_neg hmoved)
      rw [hhelp]
      exact .inr (sticky_of_ended hend)
  | interpreted hcur himm h =>
    rw [execute_syscall hcur, himm, hdo] at h
    obtain rfl := (Prod.mk.inj h).2
    exact hl
  | ended hcur himm h => trivial

end

/-- After a `siglongjmp` with a buffer as `sigsetjmp` has left it the vm leaves all compiled code,
and the next instruction, unless a handler comes first, is the one behind the `sigsetjmp`. The value
must not be one by which a system call asks to be restarted, and no restart may be pending. -/
theorem siglongjmp_lands {c : Setup} {w : World} {call : U32} {queued : Bool}
    {m₀ m₁ m : Machine} {s s' : Conf} {l : List (List Event)} (hs : Sound m₀.mem c.vm)
    (hset : doSigsetjmp c m₀ = (0, m₁))
    (hsame : (m.load c (m.reg 1) 80).1 = (m₁.load c (m₀.reg 1) 80).1)
    (hsys : w.syscall call m = doSiglongjmp c queued m)
    (hval : ¬ (jumpValue m = syscallRestart ∨ jumpValue m = syscallRestartNohand))
    (hpc : m.pc ≠ m₀.pc) (hrestart : m.restartPc = 0) (hj : Jumped c w call m s)
    (hrun : Run (UnwindStep c) s l s') :
    (∀ es m₂, Executes c s' es m₂ →
      Landing m₀ (if savesMask m₀ then m₀.sigmask else m.sigmask) (jumpValue m) m₂) ∧
    (∀ n entry cur, s'.loc = .native n entry cur →
      n = 0 ∧ entry = m₀.pc + 8 ∧ cur = m₀.pc + 8) ∧
    ∀ es s'' pc args out, VmStep c s' es s'' → NoHandler es → Event.exec pc args out ∈ es →
      pc = m₀.pc + 8 := by
  obtain ⟨env, hload, henv⟩ := doSigsetjmp_load hs hset
  obtain ⟨m', hjump, hpc', hreg, hdepth, hmask, hr⟩ :=
    doSiglongjmp_of_holds queued (hsame.trans hload) henv
  have hl : Landing m₀ (if savesMask m₀ then m₀.sigmask else m.sigmask) (jumpValue m)
      { m'.setReg 0 (jumpValue m) with pc := m'.pc + 8 } := by
    refine ⟨congrArg (· + 8) hpc', ?_, ?_, hdepth, hmask, hr.trans hrestart⟩
    · intro k h6 h10
      exact (Function.update_of_ne (by omega) _ _).trans (hreg k h6 h10)
    · simp [setReg]
  have hu : Unwinding m₀ (if savesMask m₀ then m₀.sigmask else m.sigmask) (jumpValue m) s' :=
    hrun.invariant (P := Unwinding m₀ _ (jumpValue m))
      (unwinding_jumped (hsys.trans hjump) hval hpc hl hj) fun _ _ _ h hstep => h.step hstep
  refine ⟨fun es m₂ hx => hu.executes hx, ?_, ?_⟩
  · intro n entry cur hloc
    unfold Unwinding at hu
    rw [hloc] at hu
    exact hu.2
  · intro es s'' pc args out hstep hno hexec
    obtain ⟨m₂, hx, hpc₂, -⟩ := executes_of_step hstep hno hexec
    exact hpc₂.trans (hu.executes hx).pc

section Example

/-- The way back to the interpreter, for a vm that nothing else keeps busy. -/
theorem run_unwind {c : Setup} {m : Machine} {entry : U64} (hne : m.flags ≠ 0)
    (hf : m.flags &&& sticky = 0) (hok : (m.safepoint c ⟨.none, 0, .none⟩).1 = true)
    (hpc : (m.safepoint c ⟨.none, 0, .none⟩).2.pc ≠ entry) :
    Run (UnwindStep c) ⟨m, .exiting 1 entry⟩
      [[], [], m.safepointEvents c ⟨.none, 0, .none⟩, []]
      ⟨(m.safepoint c ⟨.none, 0, .none⟩).2, .interp⟩ := by
  have hcont : VmStep c ⟨m, .exiting 1 entry⟩ [] ⟨m, .exiting 0 entry⟩ := by
    have h := @VmStep.cont c m 0 entry 0
    rwa [if_pos (.inl hne)] at h
  have hsafe : VmStep c ⟨m, .back entry⟩ (m.safepointEvents c ⟨.none, 0, .none⟩)
      ⟨(m.safepoint c ⟨.none, 0, .none⟩).2, .loop⟩ := by
    have h := @VmStep.safepoint c m ⟨.none, 0, .none⟩ entry hne
      fun hsticky => absurd hf hsticky
    generalize m.safepoint c ⟨.none, 0, .none⟩ = r at h hok hpc ⊢
    obtain ⟨_ | _, m'⟩ := r
    · exact absurd hok (by simp)
    · dsimp only at h hpc
      rwa [if_pos hpc] at h
  have hno : NoHandler (m.safepointEvents c ⟨.none, 0, .none⟩) := by
    refine fun ret r0 args hmem => forall_safepointEvents (P := (· ≠ .handler ret r0 args))
      (fun m' x hx e he => ?_) _ hmem rfl
    rw [show x = .none from hx.elim id id, deliverEvents] at he
    split_ifs at he
    · simp at he
    · rw [mem_singleton.mp he]
      simp
  exact .cons ⟨hcont, by simp, by simp [NoHandler], fun _ _ _ => rfl, by simp⟩
    (.cons ⟨.ret, by simp, by simp [NoHandler], fun _ _ _ => rfl, by simp⟩
      (.cons ⟨hsafe, noExec_safepointEvents _, hno, by simp, by simp⟩
        (.single ⟨.interpret, by simp, by simp [NoHandler], by simp, by simp⟩)))

/-- The code is at `0x1000`, the buffer at `0x2000`. -/
def jumpImage : List BootSeg := [⟨0x1000, 0x1000, 5, fun _ => 0⟩, ⟨0x2000, 0x1000, 6, fun _ => 0⟩]

/-- `sigsetjmp(env, 1)` is called in it. -/
def setter : Machine :=
  boot jumpImage (fun k => if k = 1 then 0x2000 else BitVec.ofNat 64 (k - 1)) 0x1000

/-- And `siglongjmp(env, x)` in this one. -/
def jumper (x : U64) : Machine :=
  { (doSigsetjmp Setup.plain setter).2 with
    pc := 0x1100
    reg := fun k => if k = 1 then 0x2000 else if k = 2 then x else 77 }

def jumpWorld : World := { World.quiet with syscall := fun _ m => doSiglongjmp Setup.plain false m }

/-- Behind the system call in compiled code. -/
def jumped (x : U64) : Machine := ((jumper x).helperDoSyscall jumpWorld 0).2

theorem jumped_compiled {x : U64}
    (h : ((jumper x).helperDoSyscall jumpWorld 0).1 = false) :
    Jumped Setup.plain jumpWorld 0 (jumper x) ⟨jumped x, .exiting 1 0x1080⟩ := by
  have hj : Jumped Setup.plain jumpWorld 0 (jumper x) _ := .compiled 1 0x1080
  rwa [if_neg (ne_true_of_eq_false h)] at hj

/-- Back in `step`, with nothing to deliver. -/
def returned (x : U64) : Machine := ((jumped x).safepoint Setup.plain ⟨.none, 0, .none⟩).2

theorem returned_stepEvents : (returned 5).stepEvents Setup.plain World.quiet =
    [.exec 0x1008 [0x2000, 5, 77, 77, 77] .plain] := by decide +kernel

theorem sound_setter : Sound setter.mem Setup.plain.vm := by
  have hok : BootOk jumpImage := by
    refine ⟨?_, ?_, ?_⟩ <;> simp [jumpImage, BootSeg.stop]
  exact sound_boot hok

theorem siglongjmp_lands_returned :
    Landing setter 0 5 { returned 5 with insnCount := (returned 5).insnCount + 1 } := by
  have hrun : Run (UnwindStep Setup.plain) ⟨jumped 5, .exiting 1 0x1080⟩ [[], [], [], []]
      ⟨returned 5, .interp⟩ :=
    run_unwind (by decide +kernel) (by decide +kernel) (by decide +kernel) (by decide +kernel)
  have hset : doSigsetjmp Setup.plain setter = (0, (doSigsetjmp Setup.plain setter).2) :=
    Prod.ext (by decide +kernel) rfl
  have hland := siglongjmp_lands (w := jumpWorld) (m := jumper 5) sound_setter hset rfl rfl
    (by decide +kernel) (by decide +kernel) (by decide +kernel)
    (jumped_compiled (by decide +kernel)) hrun
  have hno : NoHandler ((returned 5).stepEvents Setup.plain World.quiet) := by
    rw [returned_stepEvents]
    simp [NoHandler]
  exact hland.1 _ _ (.interp hno (if_neg (by decide +kernel)) (by decide +kernel))

/-- The value -512 is taken for the answer of an interrupted system call. The vm goes back to the
`sigsetjmp` itself, and `r0` is not the value. -/
theorem siglongjmp_repeats_sigsetjmp :
    (doSigsetjmp Setup.plain setter).1 = 0 ∧
    ((jumper (-512)).load Setup.plain ((jumper (-512)).reg 1) 80).1 =
      ((doSigsetjmp Setup.plain setter).2.load Setup.plain (setter.reg 1) 80).1 ∧
    (jumper (-512)).pc ≠ setter.pc ∧ (jumper (-512)).restartPc = 0 ∧
    Jumped Setup.plain jumpWorld 0 (jumper (-512)) ⟨jumped (-512), .exiting 1 0x1080⟩ ∧
    Run (UnwindStep Setup.plain) ⟨jumped (-512), .exiting 1 0x1080⟩
      [[], [], [.again 0x1000 [0x2000, -512, 77, 77, 77]], []] ⟨returned (-512), .interp⟩ ∧
    (returned (-512)).pc = setter.pc ∧ (returned (-512)).reg 0 = 77 ∧
    jumpValue (jumper (-512)) = -512 := by
  refine ⟨by decide +kernel, rfl, by decide +kernel, by decide +kernel,
    jumped_compiled (by decide +kernel), ?_, by decide +kernel, by decide +kernel,
    by decide +kernel⟩
  have hevents : (jumped (-512)).safepointEvents Setup.plain ⟨.none, 0, .none⟩ =
      [.again 0x1000 [0x2000, -512, 77, 77, 77]] := by decide +kernel
  rw [← hevents]
  exact run_unwind (by decide +kernel) (by decide +kernel) (by decide +kernel) (by decide +kernel)

end Example
end Bpfvm.Signal
