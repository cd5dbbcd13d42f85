import Bpfvm.Signal.Calls

/-!
# `SIGKILL` and `SIGSTOP` in the masks

The masks of all threads, with every operation that sets one. The registers and the memory with
which a call is made are arbitrary. `do_sigprocmask` and `sigreturn` take the two signals out;
`do_siglongjmp` and `do_sigsuspend` store what they find.
-/
namespace Bpfvm.Signal
open Cpu Function

/-- Neither `SIGKILL` nor `SIGSTOP` is in the mask. -/
def Unmasked (mask : U64) : Prop :=
  mask.getLsbD (sigkill - 1) = false ∧ mask.getLsbD (sigstop - 1) = false

instance (mask : U64) : Decidable (Unmasked mask) :=
  inferInstanceAs (Decidable (_ ∧ _))

theorem unmasked_maskable (bits : U64) : Unmasked (maskable bits) := by
  constructor
  · rw [maskable, BitVec.getLsbD_and, BitVec.getLsbD_not]
    simp [Machine.sigkillBit, Machine.sigstopBit, sigkill]
  · rw [maskable, BitVec.getLsbD_and, BitVec.getLsbD_not]
    simp [Machine.sigkillBit, Machine.sigstopBit, sigstop]

theorem Unmasked.or {x y : U64} (hx : Unmasked x) (hy : Unmasked y) : Unmasked (x ||| y) :=
  ⟨by rw [BitVec.getLsbD_or, hx.1, hy.1]; rfl, by rw [BitVec.getLsbD_or, hx.2, hy.2]; rfl⟩

theorem Unmasked.and {x : U64} (hx : Unmasked x) (y : U64) : Unmasked (x &&& y) :=
  ⟨by rw [BitVec.getLsbD_and, hx.1]; rfl, by rw [BitVec.getLsbD_and, hx.2]; rfl⟩

theorem unmasked_sigprocmask {old : U64} (h : Unmasked old) (how : How) (bits : U64) :
    Unmasked (sigprocmask how old bits) := by
  cases how with
  | block => exact h.or (unmasked_maskable bits)
  | unblock => exact h.and _
  | setmask => exact unmasked_maskable bits

/-! ## What a thread does to its mask -/

/-- What is done, with what the host adds to it. -/
inductive MaskOp where
  | sigprocmask (queued : Bool)
  | sigsetjmp
  | siglongjmp (queued : Bool)
  | sigsuspend (flags : U32)
  /-- `deliver_signal` -/
  | deliver (h : Handled)
  /-- `pop_frame`, with `sigreturn` -/
  | ret

def MaskOp.run (c : Setup) (m : Machine) : MaskOp → Machine
  | .sigprocmask queued => (doSigprocmask c queued m).2
  | .sigsetjmp => (doSigsetjmp c m).2
  | .siglongjmp queued => (doSiglongjmp c queued m).2
  | .sigsuspend flags => (doSigsuspend c flags m).2
  | .deliver h => (m.deliverSignal c h).2
  | .ret => (m.popFrame c).2

/-- The buffer of `siglongjmp` and the set of `sigsuspend` have neither signal. -/
def MaskOp.Clean (c : Setup) (m : Machine) : MaskOp → Prop
  | .siglongjmp _ => ∀ env, (m.load c (m.reg 1) 80).1 = some env → word env 64 ≠ 0 →
      Unmasked (word env 72)
  | .sigsuspend _ => ∀ mask, (parseGuestSigset c m (m.reg 1)).1 = some mask → Unmasked mask
  | _ => True

section
variable {c : Setup} {m : Machine}

theorem parseGuestSigset_sigmask (set : U64) :
    (parseGuestSigset c m set).2.sigmask = m.sigmask := by
  unfold parseGuestSigset
  split
  · rfl
  · have hload : (m.load c set 8).2.sigmask = m.sigmask := rfl
    generalize m.load c set 8 = r at hload ⊢
    obtain ⟨_ | bs, m₁⟩ := r <;> exact hload

theorem storeOld_sigmask (old : U64) : (storeOld c m old).2.sigmask = m.sigmask := by
  unfold storeOld
  split <;> rfl

theorem unmasked_doSigprocmask (queued : Bool) (h : Unmasked m.sigmask) :
    Unmasked (doSigprocmask c queued m).2.sigmask := by
  unfold doSigprocmask
  split
  · exact h
  · have hset := parseGuestSigset_sigmask (c := c) (m := m) (m.reg 2)
    generalize parseGuestSigset c m (m.reg 2) = r at hset ⊢
    obtain ⟨_ | bits, m₁⟩ := r
    · dsimp only at hset ⊢
      rwa [hset]
    · dsimp only at hset ⊢
      have hold := storeOld_sigmask (c := c) (m := m₁) (m₁.reg 3)
      generalize storeOld c m₁ (m₁.reg 3) = r at hold ⊢
      obtain ⟨_ | _, m₂⟩ := r
      · dsimp only at hold ⊢
        rwa [hold, hset]
      · dsimp only at hold ⊢
        have hm₂ : Unmasked m₂.sigmask := by rwa [hold, hset]
        split
        · exact hm₂
        · exact unmasked_sigprocmask hm₂ _ _

theorem doSigsetjmp_sigmask : (doSigsetjmp c m).2.sigmask = m.sigmask := by
  unfold doSigsetjmp
  split <;> rfl

theorem unmasked_doSiglongjmp (queued : Bool) (h : Unmasked m.sigmask)
    (hc : (MaskOp.siglongjmp queued).Clean c m) : Unmasked (doSiglongjmp c queued m).2.sigmask := by
  have hload : (m.load c (m.reg 1) 80).2.sigmask = m.sigmask := rfl
  simp only [MaskOp.Clean] at hc
  unfold doSiglongjmp
  generalize m.load c (m.reg 1) 80 = r at hc hload ⊢
  obtain ⟨_ | env, m₁⟩ := r
  · dsimp only at hload ⊢
    rwa [hload]
  · dsimp only at hload hc ⊢
    split
    · exact hc env rfl ‹_›
    · change Unmasked m₁.sigmask
      rwa [hload]

theorem unmasked_doSigsuspend (flags : U32) (h : Unmasked m.sigmask)
    (hc : (MaskOp.sigsuspend flags).Clean c m) : Unmasked (doSigsuspend c flags m).2.sigmask := by
  have hset := parseGuestSigset_sigmask (c := c) (m := m) (m.reg 1)
  simp only [MaskOp.Clean] at hc
  unfold doSigsuspend
  generalize parseGuestSigset c m (m.reg 1) = r at hc hset ⊢
  obtain ⟨_ | mask, m₁⟩ := r
  · dsimp only at hset ⊢
    rwa [hset]
  · exact hc mask rfl

theorem unmasked_run {op : MaskOp} (h : Unmasked m.sigmask) (hc : op.Clean c m) :
    Unmasked (op.run c m).sigmask := by
  cases op with
  | sigprocmask queued => exact unmasked_doSigprocmask queued h
  | sigsetjmp =>
    simp only [MaskOp.run]
    rwa [doSigsetjmp_sigmask]
  | siglongjmp queued => exact unmasked_doSiglongjmp queued h hc
  | sigsuspend flags => exact unmasked_doSigsuspend flags h hc
  | deliver handled =>
    simp only [MaskOp.run]
    rwa [(deliverSignal_sig c m handled).1]
  | ret =>
    simp only [MaskOp.run]
    obtain ⟨_, mask, _, hpop, rfl | ⟨bits, rfl⟩⟩ := popFrame_eq c m
    · rwa [hpop]
    · rw [hpop]
      exact unmasked_maskable bits

end

/-! ## All threads -/

/-- The masks of the threads that exist. -/
abbrev Masks := ℕ → Option U64

/-- One operation of a thread, under a condition on it. -/
inductive MaskStep (C : Setup → Machine → MaskOp → Prop) : Masks → ℕ → Masks → Prop
  /-- with any registers and any memory -/
  | op {s : Masks} {t : ℕ} (c : Setup) (m : Machine) (op : MaskOp) (ht : s t = some m.sigmask)
      (hc : C c m op) : MaskStep C s t (update s t (some (op.run c m).sigmask))
  /-- `do_clone`: a thread or a process -/
  | clone {s : Masks} {t : ℕ} (t' : ℕ) (ht : (s t).isSome) (ht' : s t' = none) :
      MaskStep C s t (update s t' (s t))
  | exit {s : Masks} {t : ℕ} : MaskStep C s t (update s t none)

/-- The first thread. -/
def Masks.init : Masks := update (fun _ => none) 0 (some 0)

def Masks.Unmasked (s : Masks) : Prop := ∀ t mask, s t = some mask → Signal.Unmasked mask

theorem Masks.Unmasked.update {s : Masks} (h : s.Unmasked) (t : ℕ) {x : Option U64}
    (hx : ∀ mask, x = some mask → Signal.Unmasked mask) :
    Masks.Unmasked (update s t x) := by
  intro t' mask ht'
  by_cases heq : t' = t
  · subst heq
    exact hx mask (by rwa [update_self] at ht')
  · rw [update_of_ne heq] at ht'
    exact h t' mask ht'

theorem unmasked_of_step {s s' : Masks} {t : ℕ}
    (h : MaskStep (fun c m op => op.Clean c m) s t s') (hs : s.Unmasked) : s'.Unmasked := by
  cases h with
  | op c m op ht hc =>
    refine hs.update t fun mask hmask => ?_
    cases hmask
    exact unmasked_run (hs t _ ht) hc
  | clone t' ht ht' => exact hs.update t' fun mask hmask => hs t mask hmask
  | exit => exact hs.update t fun mask hmask => by cases hmask

/-- While `siglongjmp` and `sigsuspend` are given masks without `SIGKILL` and `SIGSTOP`, no thread
masks one of them. -/
theorem unmasked_of_run {l : List ℕ} {s : Masks}
    (h : Run (MaskStep fun c m op => op.Clean c m) .init l s) : s.Unmasked := by
  refine h.invariant ?_ fun _ _ _ hs hstep => unmasked_of_step hstep hs
  refine Masks.Unmasked.update (fun _ _ hnone => by cases hnone) 0 fun mask hmask => ?_
  cases hmask
  decide

/-! ## A set and a buffer with all bits -/

/-- A page of ones. -/
def onesImage : List Memory.BootSeg := [⟨0x1000, 0x1000, 6, fun _ => 0xff⟩]

/-- A call with `r1` at the page. -/
def onesCall : Machine := Machine.boot onesImage (fun k => if k = 1 then 0x1000 else 0) 0

/-- `sigprocmask` is asked to block everything, and does not block the two signals. -/
def blockAll : Machine :=
  Machine.boot onesImage (fun k => if k = 1 then 2 else if k = 2 then 0x1000 else 0) 0

theorem unmasked_of_run_blockAll : ∃ s, Run (MaskStep fun c m op => op.Clean c m) .init [0] s ∧
    s 0 = some (maskable (-1)) ∧ s.Unmasked := by
  have hrun : Run (MaskStep fun c m op => op.Clean c m) .init [0] _ :=
    .single (.op Setup.plain blockAll (.sigprocmask false) rfl trivial)
  exact ⟨_, hrun, by decide +kernel, unmasked_of_run hrun⟩

theorem not_unmasked {s : Masks} (h : s 0 = some (-1)) : ¬ s.Unmasked := by
  intro hs
  exact absurd (hs 0 _ h) (by decide)

/-- `sigsuspend` blocks all signals, and so does `siglongjmp`. -/
theorem kill_masked :
    (∃ s, Run (MaskStep fun _ _ op => op = .sigsuspend 0) .init [0] s ∧ ¬ s.Unmasked) ∧
    ∃ s, Run (MaskStep fun _ _ op => op = .siglongjmp false) .init [0] s ∧ ¬ s.Unmasked := by
  have hsuspend : Run (MaskStep fun _ _ op => op = .sigsuspend 0) .init [0] _ :=
    .single (.op Setup.plain onesCall (.sigsuspend 0) rfl rfl)
  have hjump : Run (MaskStep fun _ _ op => op = .siglongjmp false) .init [0] _ :=
    .single (.op Setup.plain onesCall (.siglongjmp false) rfl rfl)
  exact ⟨⟨_, hsuspend, not_unmasked (by decide +kernel)⟩,
    ⟨_, hjump, not_unmasked (by decide +kernel)⟩⟩

end Bpfvm.Signal
