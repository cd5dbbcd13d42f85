import Bpfvm.Process.Exec

/-!
# All or nothing

Every negative answer of `exec_common` but the request to be restarted comes before its first
effect on the process. When it answers 0, the process has the new image; that the new image also
runs takes room for its first frame, that compiled code notices the change of `pc_`, and that the
safepoint before the first instruction lets the vm go on there.
-/
namespace Bpfvm.Exec
open Memory Cpu BitVec Machine

/-! ## Fresh address spaces -/

/-- No segment of vm 0 is copied on write. -/
def Plain (s : State) : Prop := ∀ m ∈ s.maps 0, m.cowData = none

variable {w : ExecWorld} {envp : Env}

section
variable {s : State} {a n : ℕ}

theorem mmuW_maps (env : HostEnv) (h : Plain s) (a n : ℕ) :
    (s.mmuW env 0 a n).2.maps 0 = s.maps 0 := by
  refine mmuW_keeps (P := (·.maps 0 = s.maps 0)) rfl (fun m hm _ => ?_)
    fun _ _ _ hs => (State.setTlb_maps ..).trans hs
  rw [State.resolveCow, h m (findMap_mem hm)]

theorem plain_of_maps {s' : State} (h : Plain s) (hm : s'.maps 0 = s.maps 0) : Plain s' := by
  intro m hmem
  rw [hm] at hmem
  exact h m hmem

theorem bootMap_maps (s : State) (b : BootSeg) : (s.bootMap b).maps 0 =
    Segments.insertBefore Memmap.paddr (s.maps 0) (b.segment ⟨s.host.next, 0⟩) := by
  simp [State.bootMap, State.addmem, Host.mmap]

theorem plain_bootMap (h : Plain s) (b : BootSeg) : Plain (s.bootMap b) := by
  intro m hmem
  rw [bootMap_maps, Segments.mem_insertBefore] at hmem
  obtain rfl | hmem := hmem
  · rfl
  · exact h m hmem

theorem plain_boot (segs : List BootSeg) : Plain (State.boot segs) := by
  suffices key : ∀ s, Plain s → Plain (segs.foldl State.bootMap s) from
    key _ fun m hm => absurd hm List.not_mem_nil
  induction segs with
  | nil => exact fun _ h => h
  | cons b segs ih => exact fun s h => ih _ (plain_bootMap h b)

theorem plain_stackFoot {foot : HostPtr} {s₁ : State} (h : Plain s)
    (hfoot : stackFoot w s = some (foot, s₁)) : Plain s₁ := by
  unfold stackFoot at hfoot
  have hmaps := mmu_maps s 0 stackBase.toNat 1 0
  generalize s.mmu 0 stackBase.toNat 1 = r at hfoot hmaps
  obtain ⟨_ | q, s'⟩ := r
  · dsimp only at hfoot
    split_ifs at hfoot
    obtain ⟨-, rfl⟩ := Prod.mk.inj (Option.some.inj hfoot)
    exact plain_bootMap (plain_of_maps h hmaps) stackSeg
  · obtain ⟨-, rfl⟩ := Prod.mk.inj (Option.some.inj hfoot)
    exact plain_of_maps h hmaps

theorem load_store_self (h : Host) (p : HostPtr) (bs : List Byte) :
    (h.store p bs).load p bs.length = bs := by
  refine List.ext_getElem (by simp [Host.load]) fun k hk hk' => ?_
  simp [Host.load, Host.store, Host.byte, hk']

end

variable {p : Proc}

/-- What `setup_stack` has done when it succeeds. -/
theorem setupStack_cases {s mem : State} {argv : List Str} {info : ElfLoad} {r1 : U64}
    (hp : Plain s) (h : setupStack w p s argv envp info = some (mem, r1)) :
    ∃ foot s₁, stackFoot w s = some (foot, s₁) ∧ mem.maps 0 = s₁.maps 0 ∧ Plain mem ∧
      (p.rawStack = true ∧ r1 = 0 ∨ p.rawStack = false ∧ r1 = stackBase ∧
        ∃ random, mem.host.load foot (argumentBlock argv envp info random).length =
          argumentBlock argv envp info random) := by
  unfold setupStack at h
  generalize hfoot : stackFoot w s = r at h
  obtain _ | ⟨foot, s₁⟩ := r
  · cases h
  · have hplain := plain_stackFoot hp hfoot
    have hmaps := mmuW_maps w.env hplain stackTop.toNat 8
    dsimp only at h
    generalize s₁.mmuW w.env 0 stackTop.toNat 8 = r at h hmaps
    obtain ⟨_ | sentinel, s₂⟩ := r
    · cases h
    · dsimp only at h hmaps
      refine ⟨foot, s₁, rfl, ?_⟩
      split_ifs at h with hraw hlen
      · obtain ⟨rfl, rfl⟩ := Prod.mk.inj (Option.some.inj h)
        exact ⟨hmaps, plain_of_maps hplain hmaps, .inl ⟨hraw, rfl⟩⟩
      · set s₃ := s₂.setHost (s₂.host.store sentinel
          (wordBytes (frameFlagsMake false p.stackLimit 0)))
        have hmaps' := mmu_maps s₃ 0 stackBase.toNat (totalBytes argv envp) 0
        generalize s₃.mmu 0 stackBase.toNat (totalBytes argv envp) = r at h hmaps'
        obtain ⟨_ | q, s₄⟩ := r
        · cases h
        · obtain ⟨random, -, heq⟩ := Option.map_eq_some_iff.mp h
          obtain ⟨rfl, rfl⟩ := Prod.mk.inj heq
          have hall : s₄.maps 0 = s₁.maps 0 := hmaps'.trans hmaps
          exact ⟨hall, plain_of_maps hplain hall, .inr ⟨by simpa using hraw, rfl, random,
            load_store_self s₄.host foot _⟩⟩

/-! ## The first frame -/

/-- What `push_frame` leaves alone, whether it succeeds or not. -/
structure Spared (m m' : Machine) : Prop where
  r1 : m'.reg 1 = m.reg 1
  maps : m'.mem.maps 0 = m.mem.maps 0

section
variable {c : Setup} {m m₁ m₂ : Machine}

theorem Spared.trans (h : Spared m m₁) (h' : Spared m₁ m₂) : Spared m m₂ :=
  ⟨h'.r1.trans h.r1, h'.maps.trans h.maps⟩

theorem spared_load (hc : c.vm = 0) (m : Machine) (a : U64) (n : ℕ) :
    Spared m (m.load c a n).2 := by
  refine ⟨rfl, ?_⟩
  have hmaps := mmu_maps m.mem 0 a.toNat n 0
  unfold load State.loadBytes
  rw [hc]
  generalize m.mem.mmu 0 a.toNat n = r at hmaps ⊢
  obtain ⟨_ | p, mem⟩ := r
  · exact hmaps
  · exact hmaps

theorem spared_backtrace (hc : c.vm = 0) (fuel : ℕ) (sp : U64) (m : Machine) :
    Spared m (m.backtrace c fuel sp) := by
  induction fuel generalizing sp m with
  | zero => exact ⟨rfl, rfl⟩
  | succ fuel ih =>
    unfold backtrace
    split_ifs
    · exact ⟨rfl, rfl⟩
    · have hload := spared_load hc m sp 128
      generalize m.load c sp 128 = r at hload ⊢
      obtain ⟨_ | frame, m₁⟩ := r
      · exact hload
      · dsimp only
        split_ifs
        · exact hload
        · exact hload.trans (ih _ m₁)

theorem spared_logMemViolation (hc : c.vm = 0) (m : Machine) : Spared m (m.logMemViolation c) := by
  obtain ⟨hr1, hmaps⟩ := spared_backtrace hc 64 (m.reg 10) m
  exact ⟨by simpa [logMemViolation, setReg] using hr1, hmaps⟩

theorem spared_frameSizeOf (hc : c.vm = 0) (m : Machine) (entry : U64) :
    Spared m (m.frameSizeOf c entry).2 := by
  unfold frameSizeOf
  split_ifs
  · exact ⟨rfl, rfl⟩
  · dsimp only
    have hload := spared_load hc m (entry - 8) 8
    generalize m.load c (entry - 8) 8 = r at hload ⊢
    obtain ⟨_ | bs, m₁⟩ := r
    · exact hload
    · dsimp only
      split_ifs <;> exact hload

theorem spared_pushFrame (hc : c.vm = 0) (hp : Plain m.mem) (ret entry : U64) :
    Spared m (m.pushFrame c ret entry false false).2 := by
  have hload := spared_load hc m (m.reg 10) 8
  unfold pushFrame
  dsimp only
  generalize m.load c (m.reg 10) 8 = r at hload ⊢
  obtain ⟨header, m₁⟩ := r
  dsimp only at hload ⊢
  split
  · exact hload.trans (spared_logMemViolation hc m₁)
  · have hplain := plain_of_maps hp hload.maps
    have hmaps := mmuW_maps c.env hplain
      (m₁.reg 10 - headerLen header - BitVec.ofNat 64 (frameSize false false)).toNat
      (frameSize false false)
    rw [hc]
    generalize m₁.mem.mmuW c.env 0 _ (frameSize false false) = r at hmaps ⊢
    obtain ⟨_ | q, mem⟩ := r
    · have hmem : Spared m₁ { m₁ with mem := mem } := ⟨rfl, hmaps⟩
      exact (hload.trans hmem).trans (spared_logMemViolation hc _)
    · have hmem : Spared m₁ { m₁ with mem := mem } := ⟨rfl, hmaps⟩
      obtain ⟨hr1, hmaps'⟩ :=
        (hload.trans hmem).trans (spared_frameSizeOf hc { m₁ with mem := mem } entry)
      exact ⟨hr1, hmaps'⟩

end

/-! ## What runs next -/

inductive Next where
  /-- The vm has ended. -/
  | ended
  /-- The compiled code of the old image, at `pc`. -/
  | compiled (pc : U64)
  /-- The instruction at `pc`. -/
  | at (pc : U64)
  deriving DecidableEq

/-- The system call whose answer is `ret` and that leaves the machine as `m`. -/
def answering (ret : U64) (m : Machine) : World :=
  { World.quiet with syscall := fun _ _ => (ret, m) }

/-- What arrives around the safepoint behind an `execveat`, which has left no handler: whether the
signals of the two deliveries are fatal, and the flags that are raised in between. -/
structure Arrivals where
  first : Bool
  flags : U32
  second : Bool

def handled (fatal : Bool) : Handled := if fatal then .fatal else .none

def Arrivals.world (a : Arrivals) (m : Machine) : SafepointWorld :=
  ⟨handled a.first, m.flags &&& sticky ||| a.flags, handled a.second⟩

/-- Nothing that arrives ends the vm. -/
def Arrivals.Clear (a : Arrivals) : Prop :=
  a.first = false ∧ a.flags &&& sticky = 0 ∧ a.second = false

/-- A vm with flags goes through a safepoint before its next instruction. -/
def settle (c : Setup) (a : Arrivals) (m : Machine) : Next :=
  if m.flags = 0 then .at m.pc
  else match m.safepoint c (a.world m) with
    | (false, _) => .ended
    | (true, m) => .at m.pc

variable {c : Setup} {a : Arrivals} {entry : U64} {fr : Fresh}

theorem or_sticky (f g : U32) :
    (f &&& sticky ||| g) &&& sticky = 0 ↔ f &&& sticky = 0 ∧ g &&& sticky = 0 := by
  rw [and_or_distrib_right, BitVec.and_assoc, BitVec.and_self]
  exact or_eq_zero_iff

theorem deliverSignal_handled (m : Machine) (fatal : Bool) : m.deliverSignal c (handled fatal) =
    (!fatal, if fatal ∨ m.restartPc = 0 then m
      else { m with pc := m.restartPc, restartPc := 0, restartNohand := false }) := by
  cases fatal <;> simp [handled, deliverSignal]

/-- A pending restart has the vm go on at the call that it is of. -/
theorem settle_eq_at {m : Machine} (hd : m.signalDepth = 0) :
    settle c a m = .at entry ↔ m.flags &&& sticky = 0 ∧ (m.flags ≠ 0 → a.Clear) ∧
      (m.flags = 0 ∨ m.restartPc = 0 → m.pc = entry) ∧
      (m.flags ≠ 0 → m.restartPc ≠ 0 → m.restartPc = entry) := by
  unfold settle
  by_cases hf : m.flags = 0
  · simp [hf]
  obtain ⟨first, raised, second⟩ := a
  have hor := or_sticky m.flags raised
  rw [if_neg hf]
  unfold safepoint Arrivals.world Arrivals.Clear
  dsimp only
  rw [if_pos hd, ← sticky, deliverSignal_handled]
  cases first with
  | true => exact iff_of_false (by simp) fun h => absurd (h.2.1 hf).1 (by simp)
  | false =>
    rw [Bool.not_false]
    dsimp only
    by_cases hs : m.flags &&& sticky = 0 ∧ raised &&& sticky = 0
    · rw [if_neg (not_not.mpr (hor.mpr hs)), deliverSignal_handled]
      cases second with
      | true => exact iff_of_false (by simp) fun h => absurd (h.2.1 hf).2.2 (by simp)
      | false =>
        by_cases hr : m.restartPc = 0
        · simp [hs, hr]
        · rw [if_neg (show ¬ (false = true ∨ m.restartPc = 0) by simpa using hr)]
          simp only [hs, Bool.false_eq_true, false_or, if_true, Bool.not_false, Next.at.injEq]
          tauto
    · rw [if_pos (mt hor.mp hs)]
      exact iff_of_false (by simp) fun h => hs ⟨h.1, (h.2.1 hf).2.1⟩

/-- What is executed behind an `execveat` that has answered 0, by the interpreter or by compiled
code. -/
def next (c : Setup) (a : Arrivals) (native : Bool) (p p' : Proc) : Next :=
  let w := answering 0 p'.m
  if native then
    match p.m.helperDoSyscall w 0 with
    | (true, m) => .compiled (m.pc + 8)
    | (false, m) => settle c a m
  else
    match p.m.doSyscall w 0 with
    | (false, _) => .ended
    | (true, m) => settle c a { m with pc := m.pc + 8 }

/-- The flags that `helper_do_syscall` leaves compiled code for. -/
def leaving : U32 := vmExited ||| vmKilled ||| vmStopped ||| vmSignalPending

theorem doSyscall_answering (m m' : Machine) :
    m.doSyscall (answering 0 m') 0 =
      (decide (m'.flags &&& (vmExited ||| vmKilled) = 0), m'.setReg 0 0) := by
  have hret : ¬ ((0 : U64) = syscallRestart ∨ (0 : U64) = syscallRestartNohand) := by
    decide
  unfold doSyscall
  dsimp only [answering]
  rw [if_neg hret]
  rfl

theorem and_end_of_sticky {f : U32} (h : f &&& sticky = 0) :
    f &&& (vmExited ||| vmKilled) = 0 := by
  rw [show vmExited ||| vmKilled = sticky &&& (vmExited ||| vmKilled) by decide,
    ← BitVec.and_assoc, h]
  exact zero_and

theorem or_jitAbort_sticky (f : U32) : (f ||| vmJitAbort) &&& sticky = f &&& sticky := by
  rw [and_or_distrib_right, show vmJitAbort &&& sticky = 0 by decide]
  exact or_zero

theorem or_jitAbort_ne_zero (f : U32) : f ||| vmJitAbort ≠ 0 := by
  intro h
  exact absurd (or_eq_zero_iff.mp h).2 (by decide)

/-- A vm with the flags and the pending restart of `m` gets from the call at `old` to `entry`: it is
not to end, a safepoint finds nothing else to do, and compiled code is left because `pc_` has
changed or because of a flag. -/
def Goes (a : Arrivals) (native : Bool) (old entry : U64) (m : Machine) : Prop :=
  m.flags &&& sticky = 0 ∧
  (native = true ∨ m.flags ≠ 0 → a.Clear ∧ (m.restartPc = 0 ∨ m.restartPc = entry)) ∧
  (native = true → entry = old + 8 →
    m.flags ≠ 0 ∧ (m.restartPc = 0 → m.flags &&& leaving ≠ 0))

variable {p' : Proc}

theorem next_interp (hpc : p'.m.pc = entry - 8) (hd : p'.m.signalDepth = 0) :
    next c a false p p' = .at entry ↔ Goes a false p.m.pc entry p'.m := by
  unfold next
  rw [if_neg Bool.false_ne_true, doSyscall_answering]
  by_cases hend : p'.m.flags &&& (vmExited ||| vmKilled) = 0
  · have hnext : p'.m.pc + 8 = entry := by rw [hpc, sub_add_cancel]
    rw [decide_eq_true hend]
    refine (settle_eq_at (by exact hd)).trans (and_congr_right fun _ => ?_)
    dsimp only [setReg]
    tauto
  · rw [decide_eq_false hend]
    exact iff_of_false (by simp) fun h => hend (and_end_of_sticky h.1)

/-- Compiled code goes on where `pc_` has not changed. -/
theorem next_native (hpc : p'.m.pc = entry - 8) (hd : p'.m.signalDepth = 0) :
    next c a true p p' = .at entry ↔ Goes a true p.m.pc entry p'.m := by
  have hnext : p'.m.pc + 8 = entry := by rw [hpc, sub_add_cancel]
  have hsame : p'.m.pc = p.m.pc ↔ entry = p.m.pc + 8 := by
    rw [← hnext]
    exact (add_left_inj 8).symm
  have hback : p'.m.pc ≠ entry := fun h => by
    rw [← h] at hnext
    simp at hnext
  unfold next helperDoSyscall Goes
  rw [if_pos rfl, doSyscall_answering]
  by_cases hend : p'.m.flags &&& (vmExited ||| vmKilled) = 0
  · rw [decide_eq_true hend]
    dsimp only [setReg]
    by_cases hpc' : p'.m.pc = p.m.pc
    · rw [if_neg (not_not.mpr hpc')]
      have hentry := hsame.mp hpc'
      by_cases hr : p'.m.restartPc = 0
      · rw [if_neg (not_not.mpr hr), ← leaving]
        by_cases hl : p'.m.flags &&& leaving = 0
        · rw [if_neg (not_not.mpr hl)]
          exact iff_of_false (by simp) fun h => (h.2.2 rfl hentry).2 hr hl
        · rw [if_pos hl]
          refine (settle_eq_at (by exact hd)).trans (and_congr_right fun _ => ?_)
          have hf : p'.m.flags ≠ 0 := fun hf => hl (by rw [hf]; exact zero_and)
          tauto
      · rw [if_pos hr]
        refine (settle_eq_at (by exact hd)).trans (and_congr_right fun _ => ?_)
        dsimp only
        tauto
    · rw [if_pos hpc']
      refine (settle_eq_at (by exact hd)).trans ?_
      have hne := mt hsame.mpr hpc'
      have hf := or_jitAbort_ne_zero p'.m.flags
      dsimp only
      rw [or_jitAbort_sticky]
      tauto
  · rw [decide_eq_false hend]
    refine iff_of_false (fun h => ?_) fun h => hend (and_end_of_sticky h.1)
    dsimp only [setReg] at h
    split_ifs at h <;> exact hend (and_end_of_sticky ((settle_eq_at (by exact hd)).mp h).1)

theorem next_iff {native : Bool} (hpc : p'.m.pc = entry - 8) (hd : p'.m.signalDepth = 0) :
    next c a native p p' = .at entry ↔ Goes a native p.m.pc entry p'.m := by
  cases native
  · exact next_interp hpc hd
  · exact next_native hpc hd

/-! ## The answers of `exec_common` -/

/-- `fr` is the fresh vm that `execveat` makes: the image of the program at the end of the chain is
loaded, its stack is set up with the arguments and its entry is mapped. -/
structure Freshly (w : ExecWorld) (p : Proc) (x : ExecArgs) (fr : Fresh) : Prop where
  env : fr.envp = x.envp
  loaded : ∃ file, x.target w p = .ok ((file, fr.guestAbs), fr.argv) ∧
    file.load fr.hostPath x.envp = fr.info
  path : fr.hostPath = p.hostPath w fr.guestAbs
  stack : setupStack w p (State.boot fr.info.segs) fr.argv x.envp fr.info = some (fr.mem, fr.r1)
  entry : (fr.mem.mmu 0 fr.entry.toNat 8).1.isSome = true

section
variable {x : ExecArgs} {ret : ℤ}

/-- The answer is an `errno` without an effect, or the restart code, or 0 with the commit of a
fresh vm. -/
def Settled (w : ExecWorld) (p : Proc) (x : ExecArgs) (ret : ℤ) (p' : Proc) : Prop :=
  (ret < 0 ∧ p' = p) ∨ ret = restartCode ∨
    (ret = 0 ∧ ∃ fr, Freshly w p x fr ∧ p' = p.commit w fr)

theorem settled_errno {e : ℕ} (he : e ≠ 0) (h : (-(e : ℤ), p) = (ret, p')) :
    Settled w p x ret p' := by
  obtain ⟨rfl, rfl⟩ := Prod.mk.inj h
  exact .inl ⟨by omega, rfl⟩

theorem execImage_settled {file : HostFile} {guestAbs : Str} {argv : List Str}
    (ht : x.target w p = .ok ((file, guestAbs), argv))
    (h : execImage w p file guestAbs argv x.envp = (ret, p')) : Settled w p x ret p' := by
  unfold execImage at h
  dsimp only at h
  split at h
  · refine settled_errno ?_ h
    split_ifs with herr
    · exact herr
    · decide
  · split at h
    · exact settled_errno (by decide) h
    · next mem r1 hstack =>
      split_ifs at h with hentry hsib
      · exact settled_errno (by decide) h
      · obtain ⟨rfl, rfl⟩ := Prod.mk.inj h
        refine .inr (.inr ⟨rfl, _, ?_, rfl⟩)
        have hsome :
            (mem.mmu 0 (file.load (p.hostPath w guestAbs) x.envp).entry.toNat 8).1.isSome := by
          simpa [Option.isSome_iff_ne_none] using hentry
        exact ⟨rfl, ⟨file, ht, rfl⟩, rfl, hstack, hsome⟩
      · exact .inr (.inl (Prod.mk.inj h).1.symm)

theorem execCommon_settled (h : execCommon w p x = (ret, p')) : Settled w p x ret p' := by
  unfold execCommon at h
  split at h
  · next e _ => exact settled_errno e.code_ne_zero h
  · next ht => exact execImage_settled ht h

end

/-! ## The new image -/

/-- The process `p` runs the image of `fr` in the state `p'`. -/
structure Replaced (w : ExecWorld) (p : Proc) (fr : Fresh) (a : Arrivals) (native : Bool)
    (p' : Proc) : Prop where
  fds : p'.fds = p.fds.filter fun e => !e.2.cloexec
  ignored : ∀ k, (p.actions k).handler = sigIgn → (p'.actions k).handler = sigIgn
  reset : ∀ k, (p.actions k).handler ≠ sigIgn → (p'.actions k).handler = sigDfl
  next : next (p.setup w) a native p p' = .at fr.entry
  r1 : p'.m.reg 1 = stackBase
  /-- The maps are those of the image with its stack, and the block is at the foot of the stack. -/
  maps : ∃ foot s random, stackFoot w (State.boot fr.info.segs) = some (foot, s) ∧
    p'.m.mem.maps 0 = s.maps 0 ∧
    fr.mem.host.load foot (argumentBlock fr.argv fr.envp fr.info random).length =
      argumentBlock fr.argv fr.envp fr.info random

/-- The first frame of the new image. -/
def Proc.firstFrame (w : ExecWorld) (p : Proc) (fr : Fresh) : Bool × Machine :=
  (p.enter fr).pushFrame (p.setup w) 0 fr.entry false false

theorem commit_m (w : ExecWorld) (p : Proc) (fr : Fresh) :
    (p.commit w fr).m = { (p.firstFrame w fr).2 with pc := (p.firstFrame w fr).2.pc - 8 } := by
  simp only [Proc.commit, Proc.firstFrame]

variable {x : ExecArgs}

theorem spared_firstFrame (h : Freshly w p x fr) :
    Spared (p.enter fr) (p.firstFrame w fr).2 := by
  obtain ⟨_, _, -, -, hplain, -⟩ := setupStack_cases (plain_boot _) h.stack
  have hp : Plain (p.enter fr).mem := hplain
  rw [Proc.firstFrame]
  exact spared_pushFrame rfl hp 0 fr.entry

theorem enter_r1 (p : Proc) (fr : Fresh) : (p.enter fr).reg 1 = fr.r1 := by
  simp only [Proc.enter]
  rw [Function.update_of_ne (by decide), Function.update_self]

theorem enter_back {m m' : Machine} (h : Spared (p.enter fr) m)
    (hm : m' = { m with pc := m.pc - 8 }) :
    m'.reg 1 = fr.r1 ∧ m'.mem.maps 0 = fr.mem.maps 0 := by
  subst hm
  exact ⟨h.r1.trans (enter_r1 p fr), h.maps⟩

theorem commit_spec (h : Freshly w p x fr) :
    (p.commit w fr).m.reg 1 = fr.r1 ∧ (p.commit w fr).m.mem.maps 0 = fr.mem.maps 0 :=
  enter_back (spared_firstFrame h) (commit_m w p fr)

/-- The flags say whether there was room for the first frame. -/
theorem commit_eq (w : ExecWorld) (p : Proc) (fr : Fresh) : ∃ r mem, (p.commit w fr).m =
    { p.enter fr with
      pc := fr.entry - 8
      reg := r
      flags := if (p.firstFrame w fr).1 then (p.enter fr).flags
        else (p.enter fr).flags ||| vmKilled
      mem := mem } := by
  rw [commit_m]
  generalize hpush : p.firstFrame w fr = r
  obtain ⟨ok, m⟩ := r
  obtain ⟨r, mem, rfl⟩ := pushFrame_eq hpush
  exact ⟨r, mem, by simp [Proc.enter]⟩

/-- There is room for the first frame of the new image, and the vm gets to its entry. -/
def Runs (w : ExecWorld) (p : Proc) (fr : Fresh) (a : Arrivals) (native : Bool) : Prop :=
  (p.firstFrame w fr).1 = true ∧ Goes a native p.m.pc fr.entry (p.enter fr)

theorem runs_iff {native : Bool} : next (p.setup w) a native p (p.commit w fr) = .at fr.entry ↔
    Runs w p fr a native := by
  obtain ⟨r, mem, heq⟩ := commit_eq w p fr
  rw [next_iff (by rw [heq]) (by rw [heq]; rfl), heq, Runs]
  cases (p.firstFrame w fr).1 with
  | true => exact (and_iff_right rfl).symm
  | false => exact iff_of_false (fun h => killed_sticky _ h.1) fun h => Bool.false_ne_true h.1

/-- An image of one page at `0x1000` that is entered at its second instruction. -/
def pageImage : ElfLoad := ⟨[⟨0x1000, 0x1000, pfR, fun _ => 0⟩], 0x1008, 0, 0, 0, 0, 0, 0⟩

def willing : ExecWorld where
  env := ⟨none, fun _ _ _ => none⟩
  openAt := fun _ _ => .host ⟨[], fun _ _ => pageImage⟩ []
  dupErr := none
  lexicallyNormal := id
  stackMapped := true
  random := some (List.replicate 16 0)
  gathered := true

/-- A process whose thread is at the system call at `pc`. -/
def caller (pc : U64) : Proc where
  m := boot pageImage.segs (fun _ => 0) pc
  stackLimit := 0x100000
  rawStack := false
  root := []
  fds := []
  actions := fun _ => ⟨0, 0, 0⟩
  image := ⟨0x1008, []⟩
  argv := []
  envp := []
  exePath := []
  comm := []
  jit := [pc]
  siblings := []

/-- The call of `execve` with an empty path and no arguments. -/
def bare : ExecArgs := ⟨4, Posix.AT_FDCWD, [], [], [], 0⟩

/-- The process behind its `execveat`. -/
def launched (pc : U64) : Proc := (execCommon willing (caller pc) bare).2

theorem execCommon_caller {pc : U64} (h : (execCommon willing (caller pc) bare).1 = 0) :
    execCommon willing (caller pc) bare = (0, launched pc) := by
  rw [launched, ← h]

def still : Arrivals := ⟨false, 0, false⟩

end Bpfvm.Exec
