import Bpfvm.Signal.Calls

/-!
# Nested handlers

`safepoint` looks at `signal_depth` before its first delivery, not before the second one, behind the
stop. The operations here are all that change `signal_depth`; interpreted and compiled code come to
them alike, the latter through helpers.
-/
namespace Bpfvm.Signal
open Cpu

/-- The depth at which a delivery enters a handler, if it does. -/
def enters (c : Setup) (m : Machine) : Handled → List U64
  | .handler info => if (m.deliverSignal c (.handler info)).1 then [m.signalDepth] else []
  | _ => []

/-- The first delivery of `safepoint`. -/
def firstDelivery (c : Setup) (w : SafepointWorld) (m : Machine) : Bool × Machine :=
  let m := { m with flags := m.flags &&& ~~~vmJitAbort }
  if m.signalDepth = 0 then m.deliverSignal c w.first else (true, m)

/-- The depths at which `safepoint` enters handlers. -/
def safepointEnters (c : Setup) (w : SafepointWorld) (m : Machine) : List U64 :=
  let first :=
    if m.signalDepth = 0 then enters c { m with flags := m.flags &&& ~~~vmJitAbort } w.first else []
  match firstDelivery c w m with
  | (false, _) => first
  | (true, m) =>
    if w.flags &&& (vmExited ||| vmKilled ||| vmBudgetExceeded) ≠ 0 then first
    else first ++ enters c { m with flags := w.flags } w.second

inductive DepthOp where
  | safepoint (w : SafepointWorld)
  /-- `pop_frame` -/
  | ret
  | siglongjmp (queued : Bool)
  | execve

def DepthOp.run (c : Setup) (m : Machine) : DepthOp → Machine
  | .safepoint w => (m.safepoint c w).2
  | .ret => (m.popFrame c).2
  | .siglongjmp queued => (doSiglongjmp c queued m).2
  | .execve => { m with signalDepth := 0 }

def DepthOp.enters (c : Setup) (m : Machine) : DepthOp → List U64
  | .safepoint w => safepointEnters c w m
  | _ => []

/-- The second delivery of `safepoint` finds no handler to enter inside a handler, the frames of
signals that are left have been made by `push_frame`, and so have the depths in the buffers of
`siglongjmp`. -/
def DepthOp.Orderly (c : Setup) (m : Machine) : DepthOp → Prop
  | .safepoint w => ∀ m₁, firstDelivery c w m = (true, m₁) → m₁.signalDepth ≠ 0 →
      ∀ info, w.second ≠ .handler info
  | .ret => m.onSignalFrame c = true → m.signalDepth ≠ 0
  | .siglongjmp _ => ∀ env, (m.load c (m.reg 1) 80).1 = some env → (word env 48).toNat ≤ 1
  | .execve => True

/-- One step of a thread, under a condition on the operation, with the depths at which it enters
handlers. -/
inductive DepthStep (c : Setup) (C : Machine → DepthOp → Prop) :
    Machine → List U64 → Machine → Prop
  | op {m : Machine} (op : DepthOp) (hc : C m op) : DepthStep c C m (op.enters c m) (op.run c m)
  | other {m m' : Machine} (h : m'.signalDepth = m.signalDepth) : DepthStep c C m [] m'

section
variable {c : Setup} {m m' : Machine}

theorem eq_of_mem_enters {h : Handled} {d : U64} (hd : d ∈ enters c m h) :
    d = m.signalDepth ∧ ∃ info, h = .handler info := by
  cases h with
  | fatal | none => simp [enters] at hd
  | handler info =>
    simp only [enters] at hd
    split at hd
    · exact ⟨List.mem_singleton.mp hd, info, rfl⟩
    · simp at hd

/-- A delivery that may enter a handler at depth 0 only. -/
theorem deliver_le_one {h : Handled} (hm : m.signalDepth.toNat ≤ 1)
    (hh : m.signalDepth ≠ 0 → ∀ info, h ≠ .handler info) :
    (m.deliverSignal c h).2.signalDepth.toNat ≤ 1 ∧ ∀ d ∈ enters c m h, d = 0 := by
  have hzero : (∃ info, h = .handler info) → m.signalDepth = 0 := by
    rintro ⟨info, rfl⟩
    by_contra hne
    exact hh hne info rfl
  constructor
  · obtain hkeep | ⟨hinfo, -, hdepth⟩ := (deliverSignal_sig c m h).2
    · rwa [hkeep]
    · rw [hdepth, hzero hinfo]
      decide
  · intro d hd
    obtain ⟨rfl, hinfo⟩ := eq_of_mem_enters hd
    exact hzero hinfo

theorem firstDelivery_le_one (w : SafepointWorld) (hm : m.signalDepth.toNat ≤ 1) :
    (firstDelivery c w m).2.signalDepth.toNat ≤ 1 ∧
      ∀ d ∈ (if m.signalDepth = 0
        then enters c { m with flags := m.flags &&& ~~~vmJitAbort } w.first
        else []), d = 0 := by
  unfold firstDelivery
  dsimp only
  split
  · next hz =>
    exact deliver_le_one (m := { m with flags := m.flags &&& ~~~vmJitAbort }) hm
      fun hne => absurd hz hne
  · exact ⟨hm, by simp⟩

theorem safepoint_le_one {w : SafepointWorld} (hm : m.signalDepth.toNat ≤ 1)
    (ho : (DepthOp.safepoint w).Orderly c m) :
    (m.safepoint c w).2.signalDepth.toNat ≤ 1 ∧ ∀ d ∈ safepointEnters c w m, d = 0 := by
  obtain ⟨hdepth, henters⟩ := firstDelivery_le_one (c := c) w hm
  have heq : m.safepoint c w = match firstDelivery c w m with
    | (false, m) => (false, m)
    | (true, m) =>
      let m := { m with flags := w.flags }
      if m.flags &&& (vmExited ||| vmKilled ||| vmBudgetExceeded) ≠ 0 then
        (false, if m.flags &&& vmKilled ≠ 0 then m.setReg 0 (128 + 9) else m)
      else m.deliverSignal c w.second := rfl
  rw [heq]
  unfold safepointEnters
  simp only [DepthOp.Orderly] at ho
  generalize firstDelivery c w m = r at ho hdepth ⊢
  obtain ⟨_ | _, m₁⟩ := r
  · exact ⟨hdepth, henters⟩
  · dsimp only at hdepth ⊢
    split
    · refine ⟨?_, henters⟩
      dsimp only
      split <;> exact hdepth
    · obtain ⟨hdepth', henters'⟩ := deliver_le_one (c := c) (m := { m₁ with flags := w.flags })
        hdepth (ho m₁ rfl)
      refine ⟨hdepth', fun d hd => ?_⟩
      exact (List.mem_append.mp hd).elim (henters d) (henters' d)

theorem popFrame_le_one (hm : m.signalDepth.toNat ≤ 1) (ho : DepthOp.ret.Orderly c m) :
    (m.popFrame c).2.signalDepth.toNat ≤ 1 := by
  obtain ⟨_, _, _, hpop, -⟩ := popFrame_eq c m
  rw [hpop]
  dsimp only
  split
  · next hframe =>
    have hne : m.signalDepth.toNat ≠ 0 := fun h => ho hframe (BitVec.eq_of_toNat_eq h)
    have hone : m.signalDepth = 1 := BitVec.eq_of_toNat_eq (by change _ = 1; omega)
    rw [hone]
    decide
  · exact hm

theorem doSiglongjmp_le_one {queued : Bool} (hm : m.signalDepth.toNat ≤ 1)
    (ho : (DepthOp.siglongjmp queued).Orderly c m) :
    (doSiglongjmp c queued m).2.signalDepth.toNat ≤ 1 := by
  have hload : (m.load c (m.reg 1) 80).2.signalDepth = m.signalDepth := rfl
  simp only [DepthOp.Orderly] at ho
  unfold doSiglongjmp
  generalize m.load c (m.reg 1) 80 = r at ho hload ⊢
  obtain ⟨_ | env, m₁⟩ := r
  · dsimp only at hload ⊢
    rwa [hload]
  · have henv := ho env rfl
    dsimp only
    split <;> exact henv

theorem le_one_of_step {es : List U64}
    (h : DepthStep c (fun m op => op.Orderly c m) m es m') (hm : m.signalDepth.toNat ≤ 1) :
    m'.signalDepth.toNat ≤ 1 ∧ ∀ d ∈ es, d = 0 := by
  cases h with
  | op op hc =>
    cases op with
    | safepoint w => exact safepoint_le_one hm hc
    | ret => exact ⟨popFrame_le_one hm hc, by simp [DepthOp.enters]⟩
    | siglongjmp queued => exact ⟨doSiglongjmp_le_one hm hc, by simp [DepthOp.enters]⟩
    | execve => exact ⟨by simp [DepthOp.run], by simp [DepthOp.enters]⟩
  | other h =>
    rw [h]
    exact ⟨hm, by simp⟩

/-- While the operations are orderly, no handler is entered inside another. -/
theorem depth_le_one_of_run {l : List (List U64)}
    (h : Run (DepthStep c fun m op => op.Orderly c m) m l m') (hm : m.signalDepth.toNat ≤ 1) :
    m'.signalDepth.toNat ≤ 1 ∧ ∀ d ∈ l.flatten, d = 0 := by
  induction h with
  | nil => exact ⟨hm, by simp⟩
  | snoc hrun hstep ih =>
    obtain ⟨hle, hzero⟩ := ih
    obtain ⟨hle', hzero'⟩ := le_one_of_step hstep hle
    rw [List.flatten_append, List.flatten_singleton]
    exact ⟨hle', fun d hd => (List.mem_append.mp hd).elim (hzero d) (hzero' d)⟩

end

/-! ## Two signals -/

/-- A handler that runs at `0x1000`. -/
def caught (sig : U32) : Handled := .handler ⟨sig, 0x1000, 0, 1, 0, 0, 0⟩

/-- A signal, and nothing behind the stop. -/
def single : DepthOp := .safepoint ⟨caught 10, 0, .none⟩

/-- A signal that is found behind the stop. -/
def late : DepthOp := .safepoint ⟨.none, 0, caught 12⟩

theorem depth_le_one_of_run_single :
    ∃ l m, Run (DepthStep Setup.plain fun m op => op.Orderly Setup.plain m)
      (interrupted 0x1000 0x1008) l m ∧ l = [[0]] ∧ m.signalDepth = 1 ∧
      (m.signalDepth.toNat ≤ 1 ∧ ∀ d ∈ l.flatten, d = 0) := by
  have ho : single.Orderly Setup.plain (interrupted 0x1000 0x1008) :=
    fun _ _ _ _ h => by cases h
  have hrun : Run (DepthStep Setup.plain fun m op => op.Orderly Setup.plain m)
      (interrupted 0x1000 0x1008) _ _ := .single (.op single ho)
  exact ⟨_, _, hrun, by decide +kernel, by decide +kernel, depth_le_one_of_run hrun (by decide)⟩

/-- A second signal arrives while the handler of the first one runs, and its handler is entered. -/
theorem nested_handlers : ∃ l m, Run (DepthStep Setup.plain fun _ _ => True)
    (interrupted 0x1000 0x1008) l m ∧ l = [[0], [1]] ∧ m.signalDepth = 2 := by
  have hrun : Run (DepthStep Setup.plain fun _ _ => True) (interrupted 0x1000 0x1008) _ _ :=
    (Run.single (.op single trivial)).snoc (.op late trivial)
  exact ⟨_, _, hrun, by decide +kernel, by decide +kernel⟩

end Bpfvm.Signal
