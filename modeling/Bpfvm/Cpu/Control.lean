import Bpfvm.Cpu.Interp

/-!
# What instructions leave alone

An instruction changes `signal_depth` only when it is an `EXIT` from the frame of a signal, and
the pending restart only when it is a system call.
-/
namespace Bpfvm.Cpu
open Memory Machine

/-- The signal depth and the pending restart. -/
def Machine.control (m : Machine) : U64 × U64 × Bool :=
  (m.signalDepth, m.restartPc, m.restartNohand)

/-- The flags as well. -/
def Machine.status (m : Machine) : U32 × U64 × U64 × Bool :=
  (m.flags, m.control)

/-- And `pc_`. -/
def Machine.place (m : Machine) : U64 × U32 × U64 × U64 × Bool :=
  (m.pc, m.status)

def Machine.restart (m : Machine) : U64 × Bool := (m.restartPc, m.restartNohand)

variable {m' m : Machine} {p : HostPtr}

theorem Machine.flags_eq (h : m'.status = m.status) : m'.flags = m.flags :=
  congrArg Prod.fst h

theorem Machine.signalDepth_eq (h : m'.status = m.status) :
    m'.signalDepth = m.signalDepth := congrArg (fun x => x.2.1) h

theorem Machine.restart_eq (h : m'.status = m.status) :
    m'.restart = m.restart := congrArg (fun x => x.2.2) h

section
variable {c : Setup} {w : World} {cur : BpfInsn}

theorem backtrace_eq (c : Setup) (fuel : ℕ) (sp : U64) (m : Machine) :
    m.backtrace c fuel sp = { m with mem := (m.backtrace c fuel sp).mem } := by
  induction fuel generalizing sp m with
  | zero => rfl
  | succ fuel ih =>
    unfold backtrace
    split_ifs
    · rfl
    · have hload : (m.load c sp 128).2 = { m with mem := (m.load c sp 128).2.mem } := rfl
      generalize m.load c sp 128 = r at hload ⊢
      obtain ⟨_ | frame, m₁⟩ := r
      · exact hload
      · obtain ⟨mem, rfl⟩ : ∃ mem, m₁ = { m with mem := mem } := ⟨_, hload⟩
        dsimp only
        split_ifs
        · rfl
        · exact ih _ _

theorem frameSizeOf_snd (c : Setup) (m : Machine) (entry : U64) :
    (m.frameSizeOf c entry).2 = { m with mem := (m.frameSizeOf c entry).2.mem } := by
  unfold frameSizeOf
  split_ifs
  · rfl
  · dsimp only
    have hload : (m.load c (entry - 8) 8).2 =
      { m with mem := (m.load c (entry - 8) 8).2.mem } := rfl
    generalize m.load c (entry - 8) 8 = r at hload ⊢
    obtain ⟨_ | bs, m'⟩ := r
    · exact hload
    · dsimp only
      split_ifs <;> exact hload

theorem logMemViolation_eq (c : Setup) (m : Machine) : ∃ mem, m.logMemViolation c =
    { m with
      reg := Function.update m.reg 0 (128 + 9), flags := m.flags ||| vmKilled, mem := mem } := by
  rw [logMemViolation, backtrace_eq]
  exact ⟨_, rfl⟩

/-- What `push_frame` changes, whether or not there is room. -/
theorem pushFrame_eq {ret entry : U64} {isSignal saSiginfo ok : Bool}
    (h : m.pushFrame c ret entry isSignal saSiginfo = (ok, m')) : ∃ r mem,
    m' = { m with
      reg := r
      flags := if ok then m.flags else m.flags ||| vmKilled
      signalDepth := if ok && isSignal then m.signalDepth + 1 else m.signalDepth
      mem := mem } := by
  rw [pushFrame] at h
  dsimp only at h
  split at h
  · cases h
    obtain ⟨mem, heq⟩ := logMemViolation_eq c (m.load c (m.reg 10) 8).2
    exact ⟨_, mem, heq⟩
  · split at h
    · next mem₁ _ =>
      cases h
      obtain ⟨mem, heq⟩ := logMemViolation_eq c { (m.load c (m.reg 10) 8).2 with mem := mem₁ }
      exact ⟨_, mem, heq⟩
    · cases h
      rw [frameSizeOf_snd]
      exact ⟨_, _, rfl⟩

theorem ld_place (h : m.ld c cur p = (true, m')) : m'.place = (m.pc + 8, m.status) := by
  unfold ld at h
  dsimp only at h
  split_ifs at h
  · simp at h
  · simp at h
  · obtain rfl := (Prod.mk.inj h).2
    rfl

theorem ldx_place (h : m.ldx c cur = (true, m')) : m'.place = m.place := by
  unfold ldx at h
  dsimp only at h
  by_cases hd : 10 ≤ cur.dstReg.toNat
  · rw [if_pos hd] at h
    simp at h
  · rw [if_neg hd] at h
    have hload : (m.load c (m.reg cur.srcReg.toNat + cur.off.signExtend 64)
      (accessSize cur.code)).2.place = m.place := rfl
    generalize m.load c _ _ = r at h hload
    obtain ⟨_ | bs, m₁⟩ := r
    · simp at h
    · dsimp only at h hload
      split at h
      · obtain rfl := (Prod.mk.inj h).2
        exact hload
      · split_ifs at h
        · simp at h
        · obtain rfl := (Prod.mk.inj h).2
          exact hload
      · simp at h

theorem storeValue_place {x : U64} (h : m.storeValue c cur x = (true, m')) :
    m'.place = m.place := by
  unfold storeValue at h
  have hstore (a : U64) (bs : List Byte) : (m.store c a bs).2.place = m.place := rfl
  dsimp only at h
  split at h
  · simp at h
  · next m₁ heq =>
    obtain rfl := (Prod.mk.inj h).2
    exact (congrArg (fun r => r.2.place) heq).symm.trans (hstore _ _)

theorem atomic_place {n : ℕ} (h : m.atomic c cur n = (true, m')) : m'.place = m.place := by
  unfold atomic at h
  dsimp only at h
  split at h
  · simp at h
  · split at h
    · simp at h
    all_goals
      obtain rfl := (Prod.mk.inj h).2
      rfl

theorem stx_place (h : m.stx c cur = (true, m')) : m'.place = m.place := by
  unfold stx at h
  split_ifs at h
  · exact atomic_place h
  · exact atomic_place h
  · simp at h
  · exact storeValue_place h

theorem withRegs_place {o : Option Regs} (h : m.withRegs o = (true, m')) :
    m'.place = m.place := by
  cases o with
  | none => simp [withRegs] at h
  | some r =>
    obtain rfl := (Prod.mk.inj h).2
    rfl

theorem jmp32_status (h : m.jmp32 cur = (true, m')) : m'.status = m.status := by
  unfold jmp32 at h
  dsimp only at h
  split at h
  · obtain rfl := (Prod.mk.inj h).2
    rfl
  · simp at h
  · simp at h
  · obtain rfl := (Prod.mk.inj h).2
    split_ifs <;> rfl

/-! ## System calls and returns -/

/-- The system calls and the floating-point helpers of `w` leave `signal_depth` alone: none of
them is a `longjmp` to another depth or an `execve`. -/
structure World.KeepsDepth (w : World) : Prop where
  syscall : ∀ call m, (w.syscall call m).2.signalDepth = m.signalDepth
  softfp : ∀ op m, (w.softfp op m).2.signalDepth = m.signalDepth

theorem doSyscall_signalDepth (hw : w.KeepsDepth) (call : U32) :
    (m.doSyscall w call).2.signalDepth = m.signalDepth := by
  have h := hw.syscall call m
  unfold doSyscall
  generalize w.syscall call m = r at h ⊢
  obtain ⟨ret, m₁⟩ := r
  dsimp only
  split_ifs <;> exact h

/-- Whether `pop_frame` would find the frame of a signal. -/
def Machine.onSignalFrame (c : Setup) (m : Machine) : Bool :=
  match (m.load c (m.reg 10) 104).1 with
  | none => false
  | some frame => frameIsSignal (word frame 0)

/-- A return changes the depth only from the frame of a signal, and a mask it restores has no
`SIGKILL` and no `SIGSTOP`. -/
theorem popFrame_eq (c : Setup) (m : Machine) : ∃ r mask mem, (m.popFrame c).2 =
    { m with
      reg := r
      sigmask := mask
      signalDepth := if m.onSignalFrame c then m.signalDepth - 1 else m.signalDepth
      mem := mem } ∧
    (mask = m.sigmask ∨ ∃ bits, mask = bits &&& ~~~(sigkillBit ||| sigstopBit)) := by
  unfold popFrame onSignalFrame
  have hload : (m.load c (m.reg 10) 104).2 = { m with mem := (m.load c (m.reg 10) 104).2.mem } :=
    rfl
  dsimp only
  generalize m.load c (m.reg 10) 104 = r at hload ⊢
  obtain ⟨_ | frame, m₁⟩ := r
  · exact ⟨_, _, _, hload, .inl rfl⟩
  · obtain ⟨mem, rfl⟩ : ∃ mem, m₁ = { m with mem := mem } := ⟨_, hload⟩
    dsimp only
    split
    · unfold sigreturn
      split
      · next heq =>
        obtain rfl := congrArg Prod.snd heq
        exact ⟨_, _, _, rfl, .inl rfl⟩
      · next heq =>
        obtain rfl := congrArg Prod.snd heq
        exact ⟨_, _, _, rfl, .inr ⟨_, rfl⟩⟩
    · exact ⟨_, _, _, rfl, .inl rfl⟩

/-! ## Delivery -/

theorem takeRestart_snd (m : Machine) (info : SigInfo) : ∃ r b, (m.takeRestart info).2 =
    { m with reg := r, restartPc := 0, restartNohand := b } := by
  unfold takeRestart
  split_ifs with h
  · exact ⟨m.reg, m.restartNohand, by rw [← h]⟩
  · exact ⟨_, _, rfl⟩
  · exact ⟨_, _, rfl⟩

theorem buildSiginfo_eq {base pc sp : U64} {info : SigInfo}
    (h : (if info.wantsSiginfo then m.buildSiginfo c base info pc sp else m) = m') :
    ∃ mem, m' = { m with mem := mem } := by
  rw [← h]
  unfold buildSiginfo
  dsimp only
  split
  · split
    · exact ⟨_, rfl⟩
    · split <;> exact ⟨_, rfl⟩
  · exact ⟨_, rfl⟩

theorem enterHandler_eq (m : Machine) (info : SigInfo) :
    ∃ r, m.enterHandler info = { m with reg := r, pc := info.handler } := by
  unfold enterHandler
  split_ifs <;> exact ⟨_, rfl⟩

/-- A handler that is mapped runs, or there is no room for its frame. -/
theorem deliverSignal_handler (c : Setup) (m : Machine) (info : SigInfo) :
    ((m.load c info.handler 8).1 = none ∧
      m.deliverSignal c (.handler info) = (false, (m.load c info.handler 8).2)) ∨
    (∃ bs, (m.load c info.handler 8).1 = some bs) ∧
      (m.deliverSignal c (.handler info)).2.sigmask = m.sigmask ∧
      ((m.deliverSignal c (.handler info)).1 = true ∧
        (m.deliverSignal c (.handler info)).2.restartPc = 0 ∧
        (m.deliverSignal c (.handler info)).2.signalDepth = m.signalDepth + 1 ∨
      (m.deliverSignal c (.handler info)).1 = false ∧
        (m.deliverSignal c (.handler info)).2.flags = m.flags ||| vmKilled ∧
        (m.deliverSignal c (.handler info)).2.signalDepth = m.signalDepth) := by
  unfold deliverSignal
  have hload : (m.load c info.handler 8).2 = { m with mem := (m.load c info.handler 8).2.mem } :=
    rfl
  dsimp only
  generalize m.load c info.handler 8 = r at hload ⊢
  obtain ⟨_ | bs, m₁⟩ := r
  · exact .inl ⟨rfl, rfl⟩
  obtain ⟨mem, rfl⟩ : ∃ mem, m₁ = { m with mem := mem } := ⟨_, hload⟩
  refine .inr ⟨⟨bs, rfl⟩, ?_⟩
  obtain ⟨r, b, htake⟩ := takeRestart_snd { m with mem := mem } info
  dsimp only
  generalize hpush : pushFrame c _ _ _ true _ = q
  obtain ⟨ok, m₂⟩ := q
  obtain ⟨r₂, mem₂, rfl⟩ := pushFrame_eq hpush
  rw [htake]
  cases ok with
  | false => exact ⟨rfl, .inr ⟨rfl, rfl, rfl⟩⟩
  | true =>
    dsimp only
    generalize hbuild : (if info.wantsSiginfo then buildSiginfo c _ _ _ _ _ else _) = m₃
    obtain ⟨mem₃, rfl⟩ := buildSiginfo_eq hbuild
    obtain ⟨r₃, henter⟩ := enterHandler_eq _ info
    rw [henter]
    exact ⟨rfl, .inl ⟨rfl, rfl, rfl⟩⟩

/-! ## Jumps -/

/-- What `vm::jmp` can have done. -/
theorem jmp_cases (h : m.jmp c w cur = (true, m')) :
    (∃ pc, m' = { m with pc := pc }) ∨
    (∃ ret entry m₁ pc, m.pushFrame c ret entry false false = (true, m₁) ∧
      m' = { m₁ with pc := pc }) ∨
    ((cur.code &&& 0xf0).toNat = 0x80 ∧ cur.useReg = false ∧ cur.srcReg = 0 ∧
      m.doSyscall w cur.imm = (true, m')) ∨
    w.softfp cur.imm m = (true, m') ∨
    ((cur.code &&& 0xf0).toNat = 0x90 ∧ ∃ pc, m' = { (m.popFrame c).2 with pc := pc }) := by
  unfold jmp at h
  dsimp only at h
  split at h
  · exact .inl ⟨_, (Prod.mk.inj h).2.symm⟩
  · next hop =>
    split_ifs at h with hreg h0 h1 h2
    · split at h
      · simp at h
      · next hpush => exact .inr (.inl ⟨_, _, _, _, hpush, (Prod.mk.inj h).2.symm⟩)
    · exact .inr (.inr (.inl ⟨hop, by simpa using hreg, h0, h⟩))
    · split at h
      · simp at h
      · next hpush => exact .inr (.inl ⟨_, _, _, _, hpush, (Prod.mk.inj h).2.symm⟩)
    · exact .inr (.inr (.inr (.inl h)))
    · exact .inl ⟨m.pc, (Prod.mk.inj h).2.symm⟩
  · next hop =>
    refine .inr (.inr (.inr (.inr ⟨hop, ?_⟩)))
    split_ifs at h
    · simp at h
    · exact ⟨_, (Prod.mk.inj h).2.symm⟩
  · left
    rw [← (Prod.mk.inj h).2]
    generalize taken _ _ _ = t
    by_cases ht : t = some true
    · exact ⟨_, if_pos ht⟩
    · exact ⟨m.pc, if_neg ht⟩

/-- `EXIT`, as `vm::step` and `vm::jmp` recognise it. -/
def BpfInsn.IsExit (cur : BpfInsn) : Prop :=
  (cur.code &&& 0x07).toNat = 5 ∧ (cur.code &&& 0xf0).toNat = 0x90

instance (cur : BpfInsn) : Decidable cur.IsExit :=
  inferInstanceAs (Decidable ((cur.code &&& 0x07).toNat = 5 ∧ (cur.code &&& 0xf0).toNat = 0x90))

/-- A call instruction that `vm::jmp` hands to `do_syscall`. -/
def BpfInsn.IsSyscall (cur : BpfInsn) : Prop :=
  (cur.code &&& 0x07).toNat = 5 ∧ (cur.code &&& 0xf0).toNat = 0x80 ∧ cur.useReg = false ∧
    cur.srcReg = 0

instance (cur : BpfInsn) : Decidable cur.IsSyscall :=
  inferInstanceAs (Decidable ((cur.code &&& 0x07).toNat = 5 ∧
    (cur.code &&& 0xf0).toNat = 0x80 ∧ cur.useReg = false ∧ cur.srcReg = 0))

/-- What an instruction can have done. -/
theorem execute_cases (h : m.execute c w cur p = (true, m')) :
    m'.status = m.status ∨ (cur.IsSyscall ∧ m.doSyscall w cur.imm = (true, m')) ∨
    w.softfp cur.imm m = (true, m') ∨
    (cur.IsExit ∧ ∃ pc, m' = { (m.popFrame c).2 with pc := pc }) := by
  unfold execute at h
  split at h
  · exact .inl (congrArg Prod.snd (ld_place h))
  · exact .inl (congrArg Prod.snd (ldx_place h))
  · exact .inl (congrArg Prod.snd (storeValue_place h))
  · exact .inl (congrArg Prod.snd (stx_place h))
  · exact .inl (congrArg Prod.snd (withRegs_place h))
  · next hclass =>
    obtain ⟨_, rfl⟩ | ⟨_, _, _, _, hpush, rfl⟩ | ⟨hop, hreg, hsrc, hcall⟩ | hfp | ⟨hop, hpop⟩ :=
      jmp_cases h
    · exact .inl rfl
    · obtain ⟨_, _, rfl⟩ := pushFrame_eq hpush
      exact .inl rfl
    · exact .inr (.inl ⟨⟨hclass, hop, hreg, hsrc⟩, hcall⟩)
    · exact .inr (.inr (.inl hfp))
    · exact .inr (.inr (.inr ⟨⟨hclass, hop⟩, hpop⟩))
  · exact .inl (jmp32_status h)
  · exact .inl (congrArg Prod.snd (withRegs_place h))

theorem execute_signalDepth (hw : w.KeepsDepth) (hexit : cur.IsExit → m.onSignalFrame c = false)
    (h : m.execute c w cur p = (true, m')) : m'.signalDepth = m.signalDepth := by
  obtain hkeep | ⟨-, hcall⟩ | hfp | ⟨hx, _, rfl⟩ := execute_cases h
  · exact signalDepth_eq hkeep
  · have hkeep := doSyscall_signalDepth (m := m) hw cur.imm
    rwa [hcall] at hkeep
  · have hkeep := hw.softfp cur.imm m
    rwa [hfp] at hkeep
  · obtain ⟨_, _, _, hpop, -⟩ := popFrame_eq c m
    rw [hpop, hexit hx]
    rfl

/-! ## The pending restart -/

/-- `BPF_CALL_SIGLONGJMP`. -/
def callSiglongjmp : U32 := 0x10024

/-- The helpers do not touch the pending restart, and a system call other than `siglongjmp` that
is to be restarted leaves `pc_` and `r1` .. `r5` alone. -/
structure World.Restartable (w : World) : Prop where
  syscall : ∀ call m, (w.syscall call m).2.restart = m.restart
  softfp : ∀ op m, (w.softfp op m).2.restart = m.restart
  kept : ∀ call m, call ≠ callSiglongjmp → (w.syscall call m).1 = syscallRestart ∨
    (w.syscall call m).1 = syscallRestartNohand → (w.syscall call m).2.pc = m.pc ∧
      ∀ k, 1 ≤ k → k ≤ 5 → (w.syscall call m).2.reg k = m.reg k

theorem execute_restart (hw : w.Restartable) (hsys : ¬ cur.IsSyscall)
    (h : m.execute c w cur p = (true, m')) : m'.restart = m.restart := by
  obtain hkeep | ⟨hcall, -⟩ | hfp | ⟨-, _, rfl⟩ := execute_cases h
  · exact restart_eq hkeep
  · exact absurd hcall hsys
  · have hkeep := hw.softfp cur.imm m
    rwa [hfp] at hkeep
  · obtain ⟨_, _, _, hpop, -⟩ := popFrame_eq c m
    rw [hpop]
    rfl

theorem execute_syscall (hsys : cur.IsSyscall) : m.execute c w cur p = m.doSyscall w cur.imm := by
  obtain ⟨hclass, hop, hreg, hsrc⟩ := hsys
  calc m.execute c w cur p
    _ = m.jmp c w cur := by
      rw [execute, hclass]
      rfl
    _ = _ := by
      rw [jmp, hop, hreg]
      exact if_pos hsrc

/-! ## One instruction -/

namespace Machine

/-- The instruction at `pc_`, as `step` fetches it. -/
def insn (c : Setup) (m : Machine) : Option BpfInsn :=
  (m.mem.mmu c.vm m.pc.toNat 8).1.map fun p =>
    BpfInsn.ofBytes ((m.mem.mmu c.vm m.pc.toNat 8).2.host.load p 8)

/-- The machine when the instruction has been fetched. -/
def afterFetch (c : Setup) (m : Machine) : Machine :=
  { m with mem := (m.mem.mmu c.vm m.pc.toNat 8).2 }

/-- One instruction of the guest, with the `pc_ += 8` of `run`. -/
def advance (c : Setup) (w : World) (m : Machine) : Option Machine :=
  match m.fetch c w with
  | (false, _) => none
  | (true, m) => some { m with pc := m.pc + 8 }

/-- The next instruction is an `EXIT` from the frame of a signal. -/
def LeavesSignal (c : Setup) (m : Machine) : Prop :=
  ∃ cur, m.insn c = some cur ∧ cur.IsExit ∧ (m.afterFetch c).onSignalFrame c = true

end Machine

theorem advance_signalDepth (hw : w.KeepsDepth) (hexit : ¬ m.LeavesSignal c)
    (h : m.advance c w = some m') : m'.signalDepth = m.signalDepth := by
  unfold advance at h
  generalize hf : m.fetch c w = r at h
  obtain ⟨_ | _, m₁⟩ := r
  · simp at h
  · rw [← Option.some.inj h]
    change m₁.signalDepth = m.signalDepth
    unfold Machine.LeavesSignal insn afterFetch at hexit
    unfold fetch at hf
    generalize m.mem.mmu c.vm m.pc.toNat 8 = r at hexit hf
    obtain ⟨_ | p, mem⟩ := r
    · simp at hf
    · dsimp only at hf hexit
      split_ifs at hf
      · simp at hf
      · refine execute_signalDepth (m := { m with mem := mem }) hw ?_ hf
        intro hx
        by_contra hne
        exact hexit ⟨_, rfl, hx, by simpa using hne⟩

end

end Bpfvm.Cpu
