import Bpfvm.Lib.Runs
import Mathlib.Data.Fintype.Basic
import Mathlib.Logic.Function.Basic

/-!
# Stopping and continuing a thread group

A stop or a SIGCONT sets `tg->stopped` and then the flag `VM_STOPPED` of the threads one by one;
`do_clone` gives the new thread the flag, enters it in the group and takes the flag away again.
Only the loop of SIGCONT runs under `tg->mtx`; a stop copies the list of the threads under it and
sets their flags afterwards.

Any number of host threads run such operations, one at a time each. A step is one store, one
section under the mutex or one round of a loop over the threads.
-/
namespace Bpfvm.Process
open Function

/-- Where a host thread is in the operation it runs. -/
inductive StopOp where
  | idle
  /-- `stop_process`, with `tg->stopped` set and the threads still to be copied -/
  | stopCopy
  | stopSet (toWake : List ℕ)
  /-- SIGCONT, with `tg->stopped` cleared and the mutex still to be taken -/
  | contLock
  /-- SIGCONT in its loop, under the mutex -/
  | contClear (rest : List ℕ)
  /-- `do_clone`, with the flag of the child set -/
  | clonePush (child : ℕ)
  | cloneClear (child : ℕ)
  deriving DecidableEq, Repr

/-- What a host thread does next: begin an operation, go on with its own, fail to create the host
thread of a child, or see a thread of the group end. -/
inductive StopMove where
  | stop
  | cont
  | clone
  | run
  | fail
  | exit (t : ℕ)
  deriving DecidableEq, Repr

/-- The group: `tg->stopped`, its live threads and their `VM_STOPPED`. -/
structure StopGroup (n : ℕ) where
  stopped : Bool
  threads : List ℕ
  flag : ℕ → Bool
  nextPid : ℕ
  op : Fin n → StopOp

namespace StopOp

/-- The host thread holds `tg->mtx` between its steps. -/
def holds : StopOp → Bool
  | contClear _ => true
  | _ => false

/-- A stop is in progress. -/
def stopping : StopOp → Bool
  | stopCopy | stopSet _ => true
  | _ => false

/-- A SIGCONT or a clone is in progress. -/
def releasing : StopOp → Bool
  | contLock | contClear _ | clonePush _ | cloneClear _ => true
  | _ => false

/-- The operation is still to set the flag of the thread. -/
def ToSet (t : ℕ) : StopOp → Prop
  | stopCopy => True
  | stopSet toWake => t ∈ toWake
  | _ => False

/-- The operation is still to clear the flag of the thread. -/
def ToClear (t : ℕ) : StopOp → Prop
  | contLock => True
  | contClear rest => t ∈ rest
  | cloneClear child => t = child
  | _ => False

end StopOp

namespace StopGroup

variable {n : ℕ}

def goto (g : StopGroup n) (i : Fin n) (op : StopOp) : StopGroup n :=
  { g with op := update g.op i op }

def setFlag (g : StopGroup n) (t : ℕ) (b : Bool) : StopGroup n :=
  { g with flag := update g.flag t b }

/-- `tg->mtx` is held. -/
def Locked (g : StopGroup n) : Prop := ∃ i, (g.op i).holds

instance (g : StopGroup n) : Decidable g.Locked :=
  inferInstanceAs (Decidable (∃ i, (g.op i).holds))

/-- The steps of the operations. The end of the last thread would be the end of the group. -/
def step (g : StopGroup n) (i : Fin n) (mv : StopMove) : Option (StopGroup n) :=
  match g.op i, mv with
  | .idle, .stop => some { g.goto i .stopCopy with stopped := true }
  | .stopCopy, .run => if g.Locked then none else some (g.goto i (.stopSet g.threads))
  | .stopSet (t :: toWake), .run => some ((g.goto i (.stopSet toWake)).setFlag t true)
  | .stopSet [], .run => some (g.goto i .idle)
  | .idle, .cont => some { g.goto i .contLock with stopped := false }
  | .contLock, .run => if g.Locked then none else some (g.goto i (.contClear g.threads))
  | .contClear (t :: rest), .run => some ((g.goto i (.contClear rest)).setFlag t false)
  | .contClear [], .run => some (g.goto i .idle)
  | .idle, .clone =>
    some { (g.goto i (.clonePush g.nextPid)).setFlag g.nextPid true with nextPid := g.nextPid + 1 }
  | .clonePush _, .fail => some (g.goto i .idle)
  | .clonePush child, .run =>
    if g.Locked then none
    else some { g.goto i (.cloneClear child) with threads := g.threads ++ [child] }
  | .cloneClear child, .run => some ((g.goto i .idle).setFlag child false)
  | .idle, .exit t =>
    if g.threads.filter (· ≠ t) = [] then none
    else some { g with threads := g.threads.filter (· ≠ t) }
  | _, _ => none

/-- No stop, continue or clone is in progress. -/
def Quiescent (g : StopGroup n) : Prop := ∀ i, g.op i = .idle

/-- Every live thread, of which there is one, has `VM_STOPPED` set iff `tg->stopped` is. -/
def Coherent (g : StopGroup n) : Prop := g.threads ≠ [] ∧ ∀ t ∈ g.threads, g.flag t = g.stopped

/-- Nothing is in progress and the flags of the threads are as `tg->stopped` says. -/
structure Settled (g : StopGroup n) : Prop where
  quiescent : g.Quiescent
  live : g.threads ≠ []
  fresh : ∀ t ∈ g.threads, t < g.nextPid
  flags : ∀ t ∈ g.threads, g.flag t = g.stopped

/-- The condition on a step: a stop begins only while no SIGCONT or clone is in progress, a
SIGCONT only while no stop is, and a clone only in a group that is not stopped. -/
def Apart (g : StopGroup n) : StopMove → Prop
  | .stop => ∀ i, (g.op i).releasing = false
  | .cont => ∀ i, (g.op i).stopping = false
  | .clone => g.stopped = false
  | _ => True

instance (g : StopGroup n) : (mv : StopMove) → Decidable (g.Apart mv)
  | .stop => inferInstanceAs (Decidable (∀ i, (g.op i).releasing = false))
  | .cont => inferInstanceAs (Decidable (∀ i, (g.op i).stopping = false))
  | .clone => inferInstanceAs (Decidable (g.stopped = false))
  | .run | .fail | .exit _ => inferInstanceAs (Decidable True)

/-- The flags are as `tg->stopped` says, but for those that an operation in progress is still to
change. -/
structure Tending (g : StopGroup n) : Prop where
  live : g.threads ≠ []
  fresh : ∀ t ∈ g.threads, t < g.nextPid
  child : ∀ i c, g.op i = .clonePush c → c < g.nextPid
  stopped : g.stopped = true → ∀ i, (g.op i).releasing = false
  running : g.stopped = false → ∀ i, (g.op i).stopping = false
  set : g.stopped = true → ∀ t ∈ g.threads, g.flag t = true ∨ ∃ i, (g.op i).ToSet t
  clear : g.stopped = false → ∀ t ∈ g.threads, g.flag t = true → ∃ i, (g.op i).ToClear t

variable {g g' : StopGroup n} {i : Fin n} {mv : StopMove}

theorem Settled.tending (h : g.Settled) : g.Tending := by
  refine ⟨h.live, h.fresh, fun i c hc => ?_, fun _ i => ?_, fun _ i => ?_, fun hs t ht => ?_,
    fun hs t ht hf => ?_⟩
  · rw [h.quiescent i] at hc
    cases hc
  · rw [h.quiescent i]
    rfl
  · rw [h.quiescent i]
    rfl
  · exact .inl ((h.flags t ht).trans hs)
  · rw [h.flags t ht, hs] at hf
    cases hf

theorem Tending.coherent (h : g.Tending) (hq : g.Quiescent) : g.Coherent := by
  refine ⟨h.live, fun t ht => ?_⟩
  cases hs : g.stopped with
  | true =>
    rcases h.set hs t ht with hf | ⟨i, hi⟩
    · exact hf
    · rw [hq i] at hi
      cases hi
  | false =>
    rw [Bool.eq_false_iff]
    intro hf
    obtain ⟨i, hi⟩ := h.clear hs t ht hf
    rw [hq i] at hi
    cases hi

@[simp] theorem goto_op_self (op : StopOp) : (g.goto i op).op i = op := update_self ..

theorem forall_goto (P : StopOp → Prop) {op : StopOp} (h : ∀ j, P (g.op j)) (hop : P op)
    (j : Fin n) : P ((g.goto i op).op j) := by
  by_cases hj : j = i
  · subst hj
    rwa [goto_op_self]
  · rw [show (g.goto i op).op j = g.op j from update_of_ne hj ..]
    exact h j

/-- What some operation is still to do, the one that moves was to do or another one is. -/
theorem exists_goto (P : StopOp → Prop) (op : StopOp) (h : ∃ j, P (g.op j)) :
    P (g.op i) ∨ ∃ j, P ((g.goto i op).op j) := by
  obtain ⟨j, hj⟩ := h
  by_cases hji : j = i
  · exact .inl (hji ▸ hj)
  · exact .inr ⟨j, by rwa [show (g.goto i op).op j = g.op j from update_of_ne hji ..]⟩

/-- A stop goes on: what it no longer has to set is set. -/
theorem Tending.stop_goto (h : g.Tending) (hop : (g.op i).stopping = true) {op : StopOp}
    {flag : ℕ → Bool} (hrel : op.releasing = false)
    (hset : ∀ t ∈ g.threads, (g.op i).ToSet t → flag t = true ∨ op.ToSet t)
    (hflag : ∀ t, g.flag t = true → flag t = true) :
    Tending { g.goto i op with flag := flag } := by
  have hs : g.stopped = true := by
    by_contra hs
    rw [h.running (Bool.eq_false_iff.mpr hs) i] at hop
    cases hop
  have hnot : ∀ {P : Prop}, g.stopped = false → P := fun hs' => by
    rw [hs] at hs'
    cases hs'
  have hrel' : ∀ j, ((g.goto i op).op j).releasing = false :=
    forall_goto (fun o => o.releasing = false) (h.stopped hs) hrel
  refine ⟨h.live, h.fresh, fun j c hc => ?_, fun _ => hrel', hnot, fun _ t ht => ?_, hnot⟩
  · have hj := hrel' j
    rw [show (g.goto i op).op j = .clonePush c from hc] at hj
    cases hj
  · rcases h.set hs t ht with hf | hj
    · exact .inl (hflag t hf)
    · rcases exists_goto (StopOp.ToSet t) op hj with hi | hj
      · exact (hset t ht hi).imp_right fun hop' => ⟨i, by rwa [goto_op_self]⟩
      · exact .inr hj

/-- A SIGCONT or a clone goes on: what it no longer has to clear is clear. -/
theorem Tending.release_goto (h : g.Tending) (hs : g.stopped = false) {op : StopOp}
    {flag : ℕ → Bool} {nextPid : ℕ} (hle : g.nextPid ≤ nextPid) (hstop : op.stopping = false)
    (hchild : ∀ c, op = .clonePush c → c < nextPid)
    (hclear : ∀ t ∈ g.threads, flag t = true →
      g.flag t = true ∧ ((g.op i).ToClear t → op.ToClear t)) :
    Tending { g.goto i op with flag := flag, nextPid := nextPid } := by
  have hnot : ∀ {P : Prop}, g.stopped = true → P := fun hs' => by
    rw [hs] at hs'
    cases hs'
  refine ⟨h.live, fun t ht => (h.fresh t ht).trans_le hle, ?_, hnot, fun _ => ?_, hnot,
    fun _ t ht hf => ?_⟩
  · exact forall_goto (fun o => ∀ c, o = .clonePush c → c < nextPid)
      (fun j c hc => (h.child j c hc).trans_le hle) hchild
  · exact forall_goto (fun o => o.stopping = false) (h.running hs) hstop
  · obtain ⟨hf', hop⟩ := hclear t ht hf
    rcases exists_goto (StopOp.ToClear t) op (h.clear hs t ht hf') with hi | hj
    · exact ⟨i, by rw [show (g.goto i op).op i = op from goto_op_self op]; exact hop hi⟩
    · exact hj

theorem not_stopped_of_releasing (h : g.Tending) (hop : (g.op i).releasing = true) :
    g.stopped = false := by
  by_contra hs
  rw [h.stopped (Bool.not_eq_false _ ▸ hs) i] at hop
  cases hop

theorem tending_step (h : g.Tending) (hmeets : g.Apart mv) (hs : g.step i mv = some g') :
    g'.Tending := by
  unfold step at hs
  split at hs
  case h_1 =>
    cases hs
    refine ⟨h.live, h.fresh, ?_, fun _ => ?_, nofun, fun _ t _ => .inr ⟨i, ?_⟩, nofun⟩
    · exact forall_goto (fun o => ∀ c, o = .clonePush c → c < g.nextPid) h.child nofun
    · exact forall_goto (fun o => o.releasing = false) hmeets rfl
    · rw [show _ = StopOp.stopCopy from goto_op_self _]
      trivial
  case h_2 hop =>
    rw [Option.ite_none_left_eq_some] at hs
    cases hs.2
    exact h.stop_goto (by rw [hop]; rfl) rfl (fun t ht _ => .inr ht) fun _ => id
  case h_3 t toWake hop =>
    cases hs
    refine h.stop_goto (by rw [hop]; rfl) rfl (fun x _ hx => ?_) fun x hx => ?_
    · rw [hop] at hx
      rcases List.mem_cons.mp hx with rfl | hx
      · exact .inl (update_self ..)
      · exact .inr hx
    · by_cases hxt : x = t
      · exact hxt ▸ update_self ..
      · exact (update_of_ne hxt ..).trans hx
  case h_4 hop =>
    cases hs
    refine h.stop_goto (by rw [hop]; rfl) rfl (fun x _ hx => ?_) fun _ => id
    rw [hop] at hx
    cases hx
  case h_5 =>
    cases hs
    refine ⟨h.live, h.fresh, ?_, nofun, fun _ => ?_, nofun, fun _ t _ _ => ⟨i, ?_⟩⟩
    · exact forall_goto (fun o => ∀ c, o = .clonePush c → c < g.nextPid) h.child nofun
    · exact forall_goto (fun o => o.stopping = false) hmeets rfl
    · rw [show _ = StopOp.contLock from goto_op_self _]
      trivial
  case h_6 hop =>
    rw [Option.ite_none_left_eq_some] at hs
    cases hs.2
    have hrun := not_stopped_of_releasing h (by rw [hop]; rfl)
    exact h.release_goto hrun le_rfl rfl nofun fun t ht hf => ⟨hf, fun _ => ht⟩
  case h_7 t rest hop =>
    cases hs
    have hrun := not_stopped_of_releasing h (by rw [hop]; rfl)
    refine h.release_goto hrun le_rfl rfl nofun fun x _ hf => ?_
    by_cases hxt : x = t
    · rw [hxt] at hf
      cases (update_self ..).symm.trans hf
    · refine ⟨(update_of_ne hxt ..).symm.trans hf, fun hx => ?_⟩
      rw [hop] at hx
      exact (List.mem_cons.mp hx).resolve_left hxt
  case h_8 hop =>
    cases hs
    have hrun := not_stopped_of_releasing h (by rw [hop]; rfl)
    refine h.release_goto hrun le_rfl rfl nofun fun x _ hf => ⟨hf, fun hx => ?_⟩
    rw [hop] at hx
    cases hx
  case h_9 hop =>
    cases hs
    refine h.release_goto hmeets (Nat.le_succ _) rfl (fun c hc => ?_) fun x hx hf => ?_
    · cases hc
      exact Nat.lt_succ_self _
    · have hne := Nat.ne_of_lt (h.fresh x hx)
      refine ⟨(update_of_ne hne ..).symm.trans hf, fun hx => ?_⟩
      rw [hop] at hx
      cases hx
  case h_10 hop =>
    cases hs
    have hrun := not_stopped_of_releasing h (by rw [hop]; rfl)
    refine h.release_goto hrun le_rfl rfl nofun fun x _ hf => ⟨hf, fun hx => ?_⟩
    rw [hop] at hx
    cases hx
  case h_11 child hop =>
    rw [Option.ite_none_left_eq_some] at hs
    cases hs.2
    have hrun := not_stopped_of_releasing h (by rw [hop]; rfl)
    have hgoto : (g.goto i (.cloneClear child)).Tending := by
      refine h.release_goto hrun le_rfl rfl nofun fun x _ hf => ⟨hf, fun hx => ?_⟩
      rw [hop] at hx
      cases hx
    refine ⟨by simp, fun t ht => ?_, hgoto.child, hgoto.stopped, hgoto.running, fun hst => ?_,
      fun hst t ht hf => ?_⟩
    · rcases List.mem_append.mp ht with ht | ht
      · exact h.fresh t ht
      · exact List.mem_singleton.mp ht ▸ h.child i child hop
    · rw [show g.stopped = true from hst] at hrun
      cases hrun
    · rcases List.mem_append.mp ht with ht | ht
      · exact hgoto.clear hst t ht hf
      · refine ⟨i, ?_⟩
        rw [show _ = StopOp.cloneClear child from goto_op_self _]
        exact List.mem_singleton.mp ht
  case h_12 child hop =>
    cases hs
    have hrun := not_stopped_of_releasing h (by rw [hop]; rfl)
    refine h.release_goto hrun le_rfl rfl nofun fun x _ hf => ?_
    by_cases hxc : x = child
    · rw [hxc] at hf
      cases (update_self ..).symm.trans hf
    · refine ⟨(update_of_ne hxc ..).symm.trans hf, fun hx => ?_⟩
      rw [hop] at hx
      exact hxc hx
  case h_13 t hop =>
    rw [Option.ite_none_left_eq_some] at hs
    obtain ⟨hlive, hs⟩ := hs
    cases hs
    refine ⟨hlive, fun x hx => h.fresh x (List.mem_of_mem_filter hx), h.child, h.stopped,
      h.running, fun hst x hx => h.set hst x (List.mem_of_mem_filter hx),
      fun hst x hx => h.clear hst x (List.mem_of_mem_filter hx)⟩
  case h_14 => cases hs

/-- A step of some host thread. -/
def Step (g : StopGroup n) (a : Fin n × StopMove) (g' : StopGroup n) : Prop :=
  g.step a.1 a.2 = some g'

/-- In every run in which no stop overlaps a SIGCONT or a clone and no clone is begun in a stopped
group, a state with nothing in progress is coherent. -/
theorem stopped_iff_flags {l : List (Fin n × StopMove)} (hstart : g.Settled)
    (hrun : Run (fun g a g' => Step g a g' ∧ g.Apart a.2) g l g') (hq : g'.Quiescent) :
    g'.Coherent := by
  have htending : g'.Tending := hrun.invariant hstart.tending
    fun g a g' h hs => tending_step h hs.2 hs.1
  exact htending.coherent hq

/-- A group of two threads that runs, and two host threads. -/
def pair : StopGroup 2 := ⟨false, [1, 2], fun _ => false, 3, fun _ => .idle⟩

theorem settled_pair : pair.Settled := ⟨fun _ => rfl, nofun, by decide, fun _ _ => rfl⟩

instance (g : StopGroup n) : Decidable g.Quiescent :=
  inferInstanceAs (Decidable (∀ i, g.op i = .idle))

/-- The run that a list of moves makes, to a state that can be seen to have a property. -/
theorem run_of_moves (C : StopGroup n → StopMove → Prop) [∀ g mv, Decidable (C g mv)]
    (P : StopGroup n → Prop) [DecidablePred P] (moves : List (Fin n × StopMove))
    (h : (moves.foldlM (fun g a => if C g a.2 then g.step a.1 a.2 else none) g).map
      (fun g' => decide (P g')) = some true) :
    ∃ g', Run (fun g a g' => Step g a g' ∧ C g a.2) g moves g' ∧ P g' := by
  obtain ⟨g', hg', hobs⟩ := Option.map_eq_some_iff.mp h
  exact ⟨g', Run.of_foldlM_if hg', of_decide_eq_true hobs⟩

/-- The group is stopped by two signals, continued, and gets a thread meanwhile. -/
theorem stopped_iff_flags_pair :
    ∃ l g', Run (fun g a g' => Step g a g' ∧ g.Apart a.2) pair l g' ∧ g'.threads = [1, 2, 3] ∧
      g'.Coherent := by
  obtain ⟨g', hrun, hthreads, hq⟩ := run_of_moves (g := pair) Apart
    (fun g => g.threads = [1, 2, 3] ∧ g.Quiescent)
    [(0, .stop), (0, .run), (1, .stop), (0, .run), (1, .run), (0, .run), (0, .run), (1, .run),
      (1, .run), (1, .run), (0, .cont), (0, .run), (0, .run), (1, .clone), (0, .run), (0, .run),
      (1, .run), (1, .run)] (by decide +kernel)
  exact ⟨_, g', hrun, hthreads, stopped_iff_flags settled_pair hrun hq⟩

/-- A SIGCONT between the two parts of a stop leaves the threads of a running group stopped; a
clone that ends after a stop leaves the new thread of a stopped group running. -/
theorem stop_overlapped :
    pair.Settled ∧
    (∃ l g', Run Step pair l g' ∧ g'.Quiescent ∧ g'.stopped = false ∧
      ∀ t ∈ g'.threads, g'.flag t = true) ∧
    ∃ l g', Run Step pair l g' ∧ g'.Quiescent ∧ g'.stopped = true ∧
      ∃ t ∈ g'.threads, g'.flag t = false := by
  obtain ⟨g₁, hrun₁, hg₁⟩ := run_of_moves (g := pair) (fun _ _ => True)
    (fun g => g.Quiescent ∧ g.stopped = false ∧ ∀ t ∈ g.threads, g.flag t = true)
    [(0, .stop), (0, .run), (1, .cont), (1, .run), (1, .run), (1, .run), (1, .run), (0, .run),
      (0, .run), (0, .run)] (by decide +kernel)
  obtain ⟨g₂, hrun₂, hg₂⟩ := run_of_moves (g := pair) (fun _ _ => True)
    (fun g => g.Quiescent ∧ g.stopped = true ∧ ∃ t ∈ g.threads, g.flag t = false)
    [(1, .clone), (1, .run), (0, .stop), (0, .run), (0, .run), (0, .run), (0, .run), (0, .run),
      (1, .run)] (by decide +kernel)
  exact ⟨settled_pair, ⟨_, g₁, hrun₁.mono fun _ _ _ h => h.1, hg₁⟩,
    ⟨_, g₂, hrun₂.mono fun _ _ _ h => h.1, hg₂⟩⟩

end StopGroup
end Bpfvm.Process
