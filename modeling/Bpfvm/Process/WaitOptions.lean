import Bpfvm.Process.Tasks

/-!
# The options of `wait4` and `waitid`

`claim_one` takes the first event of a matching child, whichever options the call was made with. So
a call does what its options say exactly when the first event it meets is one that it asked for.
-/
namespace Bpfvm.Process

/-- A call with its registers. -/
inductive WaitCall where
  | wait4 (r1 r3 : U64)
  | waitid (r1 r2 r4 : U64)
  deriving DecidableEq, Repr

namespace WaitCall

def options : WaitCall → U32
  | .wait4 _ r3 => argS32 r3
  | .waitid _ _ r4 => argS32 r4

/-- The options that `do_wait_common` is given. -/
def commonOptions : WaitCall → U32
  | .wait4 _ r3 => argS32 r3
  | .waitid _ _ r4 =>
    argS32 r4 &&& wnohang ||| (if argS32 r4 &&& wuntraced ≠ 0 then wuntraced else 0) |||
      argS32 r4 &&& wnowait

/-- The id selector of a call of thread `t`, unless the arguments are refused with `-EINVAL`. -/
def selector (s : Procs) (t : ℕ) : WaitCall → Option (ℕ × U64)
  | .wait4 r1 r3 =>
    let target := (argS32 r1).toInt
    if argS32 r3 &&& ~~~(wnohang ||| wuntraced) ≠ 0 then none
    else if target = t then none
    else if 0 < target then some (1, BitVec.ofInt 64 target)
    else if target = -1 then some (0, 0)
    else if target = 0 then some (2, BitVec.ofNat 64 (s.task t).pgid)
    else some (2, BitVec.ofInt 64 (-target))
  | .waitid r1 r2 r4 =>
    let idtype := (argS32 r1).toInt
    if idtype < 0 ∨ 2 < idtype then none
    else if argS32 r4 &&& ~~~(wnohang ||| wuntraced ||| wexited ||| wnowait) ≠ 0 ∨
        argS32 r4 &&& (wexited ||| wuntraced) = 0 then none
    else if idtype ≠ 0 ∧ r2.toInt < 0 then none
    else some (idtype.toNat, if idtype = 2 ∧ r2 = 0 then BitVec.ofNat 64 (s.task t).pgid else r2)

/-! ## What a call asks for -/

def nohang (call : WaitCall) : Bool := call.commonOptions &&& wnohang != 0

/-- `wait4` always asks for exits. -/
def wantsExited : WaitCall → Bool
  | .wait4 .. => true
  | .waitid _ _ r4 => argS32 r4 &&& wexited != 0

/-- `WUNTRACED`, which is `WSTOPPED`. -/
def wantsStopped (call : WaitCall) : Bool := call.options &&& wuntraced != 0

end WaitCall

namespace Procs

/-- `child_has_event`. -/
def hasEvent (s : Procs) (p : ℕ) : Bool :=
  (s.group (s.tgid p)).exited || (s.group (s.tgid p)).stopped && (s.group (s.tgid p)).stopReported

/-- The child has an event that the call asks for. -/
def requested (s : Procs) (call : WaitCall) (p : ℕ) : Bool :=
  s.hasEvent p && if (s.group (s.tgid p)).exited then call.wantsExited else call.wantsStopped

/-- The event that `claim_one` reports for a child. -/
def eventOf (s : Procs) (p : ℕ) : WaitEvent :=
  let g := s.group (s.tgid p)
  if g.exited then ⟨p, true, 0, g.exitCode.signExtend 64⟩ else ⟨p, false, g.stopSig, 0⟩

/-- What is left when it has been reported. -/
def consume (s : Procs) (options : U32) (p : ℕ) : Procs :=
  if options &&& wnowait = 0 then
    if (s.group (s.tgid p)).exited then { s with pidMap := s.pidMap.erase p }
    else s.setGroup (s.tgid p) fun k => { k with stopReported := false }
  else s

variable {s : Procs} {me idtype : ℕ} {id : U64} {options : U32}

theorem claimLoop_eq (order : List ℕ) (any : Bool) :
    s.claimLoop me idtype id options order any =
      match order.find? fun p => s.matchChild me idtype id p && s.hasEvent p with
      | some p => (.event (s.eventOf p), s.consume options p)
      | none => (if any || order.any (s.matchChild me idtype id) then .noEvent
          else .error .echild, s) := by
  induction order generalizing any with
  | nil => simp [claimLoop]
  | cons p rest ih =>
    unfold claimLoop
    dsimp only
    by_cases hm : s.matchChild me idtype id p = true
    · by_cases he : (s.group (s.tgid p)).exited = true
      · simp [hm, he, hasEvent, eventOf, consume]
      · by_cases hs : ((s.group (s.tgid p)).stopped && (s.group (s.tgid p)).stopReported) = true
        · simp [hm, he, hs, hasEvent, eventOf, consume]
        · have hno : s.hasEvent p = false := by simp [hasEvent, he, hs]
          simp [hm, he, hs, hno, ih]
    · simp [hm, ih]

/-- The first event of a matching child decides. -/
theorem claimOne_eq (order : List ℕ) :
    s.claimOne me idtype id options order =
      match order.find? fun p => s.matchChild me idtype id p && s.hasEvent p with
      | some p => (.event (s.eventOf p), s.consume options p)
      | none => (if order.any (s.matchChild me idtype id) then .noEvent else .error .echild,
        s) := by
  rw [claimOne, claimLoop_eq]
  rfl

end Procs

/-- What a call with these options is to do in the state `s`, for the children in `sel`. -/
structure Filters (call : WaitCall) (sel : ℕ → Bool) (s : Procs) (r : WaitOutcome × Procs) :
    Prop where
  reported : ∀ ev, r.1 = .event ev → sel ev.child = true ∧
    if ev.exited then call.wantsExited = true else call.wantsStopped = true
  kept : ∀ p ∈ s.pidMap, p = s.tgid p → (sel p && s.requested call p) = false →
    p ∈ r.2.pidMap ∧ r.2.group p = s.group p
  echild : r.1 = .error .echild ↔ ∀ p ∈ s.pidMap, sel p = false
  noEvent : r.1 = .noEvent ↔ (∃ p ∈ s.pidMap, sel p = true) ∧
    ∀ p ∈ s.pidMap, sel p = true → s.requested call p = false

/-- The first event of a matching child, in the order of the walk, is one that the call asks for. -/
def FirstRequested (call : WaitCall) (sel : ℕ → Bool) (s : Procs) (order : List ℕ) : Prop :=
  ∀ p, order.find? (fun p => sel p && s.hasEvent p) = some p → s.requested call p = true

variable {p : ℕ} {options : U32}

section
variable {call : WaitCall} {s : Procs} {me idtype : ℕ} {id : U64} {order : List ℕ}

theorem tgid_of_matchChild (h : s.matchChild me idtype id p = true) : p = s.tgid p := by
  unfold Procs.matchChild at h
  simp only [Bool.and_eq_true, decide_eq_true_eq] at h
  exact h.1.2

/-- Consuming the event of one child leaves the others. -/
theorem kept_of_consume {q : ℕ} (hp : p = s.tgid p) (hne : q ≠ p) (hq : q ∈ s.pidMap) :
    q ∈ (s.consume options p).pidMap ∧ (s.consume options p).group q = s.group q := by
  unfold Procs.consume
  split_ifs
  · exact ⟨(List.mem_erase_of_ne hne).mpr hq, rfl⟩
  · refine ⟨hq, Function.update_of_ne ?_ _ _⟩
    rwa [← hp]
  · exact ⟨hq, rfl⟩

theorem eventOf_child (p : ℕ) : (s.eventOf p).child = p := by
  unfold Procs.eventOf
  dsimp only
  split <;> rfl

theorem eventOf_exited (p : ℕ) : (s.eventOf p).exited = (s.group (s.tgid p)).exited := by
  unfold Procs.eventOf
  dsimp only
  split
  · next h => exact h.symm
  · next h => exact (Bool.not_eq_true _ ▸ h).symm

/-- The event of a child that is not asked for must not be reported. -/
theorem requested_of_filters {s' : Procs} {sel : ℕ → Bool}
    (h : Filters call sel s (.event (s.eventOf p), s')) (he : s.hasEvent p = true) :
    s.requested call p = true := by
  obtain ⟨-, hwants⟩ := h.reported _ rfl
  rw [eventOf_exited] at hwants
  rw [Procs.requested, he, Bool.true_and]
  split <;> simp_all

theorem filters_of_requested (hp : p ∈ s.pidMap) (hm : s.matchChild me idtype id p = true)
    (hr : s.requested call p = true) :
    Filters call (s.matchChild me idtype id) s (.event (s.eventOf p), s.consume options p) := by
  refine ⟨?_, ?_, ?_, ?_⟩
  · rintro ev ⟨⟩
    rw [eventOf_child, eventOf_exited]
    refine ⟨hm, ?_⟩
    simp only [Procs.requested, Bool.and_eq_true] at hr
    split
    · next hx => simpa [hx] using hr.2
    · next hx => simpa [hx] using hr.2
  · intro q hq _ hno
    have hne : q ≠ p := by
      rintro rfl
      rw [hm, hr] at hno
      cases hno
    exact kept_of_consume (tgid_of_matchChild hm) hne hq
  · refine iff_of_false nofun fun h => ?_
    rw [h p hp] at hm
    cases hm
  · refine iff_of_false nofun fun h => ?_
    rw [h.2 p hp hm] at hr
    cases hr

theorem filters_of_no_event {sel : ℕ → Bool} (hno : ∀ p ∈ s.pidMap, sel p = true →
    s.requested call p = false) (horder : order.Perm s.pidMap) :
    Filters call sel s (if order.any sel then .noEvent else .error .echild, s) := by
  refine ⟨?_, fun _ hp _ _ => ⟨hp, rfl⟩, ?_, ?_⟩
  · intro ev h
    dsimp only at h
    split at h <;> cases h
  · rw [ite_eq_right_iff]
    simp only [reduceCtorEq, imp_false, Bool.not_eq_true, List.any_eq_false, horder.mem_iff]
  · rw [ite_eq_left_iff]
    simp only [reduceCtorEq, imp_false, not_not, List.any_eq_true, horder.mem_iff]
    exact (and_iff_left hno).symm

/-- One `claim_one` does what the options say exactly when its first event is asked for. -/
theorem filters_claimOne_iff (horder : order.Perm s.pidMap) :
    Filters call (s.matchChild me idtype id) s (s.claimOne me idtype id options order) ↔
      FirstRequested call (s.matchChild me idtype id) s order := by
  rw [Procs.claimOne_eq]
  unfold FirstRequested
  cases hfind : order.find? fun p => s.matchChild me idtype id p && s.hasEvent p with
  | none =>
    simp only [reduceCtorEq, false_implies, implies_true, iff_true]
    refine filters_of_no_event (fun p hp hm => ?_) horder
    have hno := List.find?_eq_none.mp hfind p (horder.mem_iff.mpr hp)
    rw [hm, Bool.true_and, Bool.not_eq_true] at hno
    rw [Procs.requested, hno, Bool.false_and]
  | some p =>
    have hfound := List.find?_some hfind
    obtain ⟨hm, he⟩ := Bool.and_eq_true_iff.mp hfound
    have hp : p ∈ s.pidMap := horder.mem_iff.mp (List.mem_of_find?_eq_some hfind)
    constructor
    · rintro h q ⟨⟩
      exact requested_of_filters h he
    · intro h
      exact filters_of_requested hp hm (h p rfl)

end

/-! ## Whole calls -/

namespace WaitCall

/-- `do_wait_common`. Each pass finds a state and an order of its own; the result comes with those
of the pass that ends the call. -/
def waitCommon (call : WaitCall) (me idtype : ℕ) (id : U64) :
    List (Procs × List ℕ) → Option (Procs × List ℕ × WaitOutcome × Procs)
  | [] => none
  | (s, order) :: rest =>
    let r := s.claimOne me idtype id call.commonOptions order
    if r.1 = .noEvent ∧ call.nohang = false then call.waitCommon me idtype id rest
    else some (s, order, r)

/-- The call of thread `t`. -/
def run (call : WaitCall) (t : ℕ) :
    List (Procs × List ℕ) → Option (Procs × List ℕ × WaitOutcome × Procs)
  | [] => none
  | (s, order) :: rest =>
    match call.selector s t with
    | none => some (s, order, .error .einval, s)
    | some (idtype, id) => call.waitCommon (s.tgid t) idtype id ((s, order) :: rest)

end WaitCall

section
variable {call : WaitCall} {t : ℕ} {s₀ s : Procs} {o₀ order : List ℕ} {r : WaitOutcome × Procs}
  {me idtype : ℕ} {id : U64} {found : List (Procs × List ℕ)}

theorem waitCommon_eq_some (h : call.waitCommon me idtype id found = some (s, order, r)) :
    (s, order) ∈ found ∧ r = s.claimOne me idtype id call.commonOptions order := by
  induction found with
  | nil => cases h
  | cons x rest ih =>
    obtain ⟨s', order'⟩ := x
    simp only [WaitCall.waitCommon] at h
    split at h
    · obtain ⟨hmem, hr⟩ := ih h
      exact ⟨List.mem_cons_of_mem _ hmem, hr⟩
    · cases h
      exact ⟨List.mem_cons_self, rfl⟩

/-- A call with `WNOHANG` ends with its first pass. Every call that ends does what its options say
exactly when the first event met by its last pass is one it asked for. -/
theorem wait_filters_iff (hsel : call.selector s₀ t = some (idtype, id))
    (hfound : ∀ x ∈ (s₀, o₀) :: found, x.2.Perm x.1.pidMap) :
    (call.nohang = true → ∃ r, call.run t ((s₀, o₀) :: found) = some (s₀, o₀, r)) ∧
    ∀ s order r, call.run t ((s₀, o₀) :: found) = some (s, order, r) →
      (Filters call (s.matchChild (s₀.tgid t) idtype id) s r ↔
        FirstRequested call (s.matchChild (s₀.tgid t) idtype id) s order) := by
  simp only [WaitCall.run, hsel]
  constructor
  · intro hno
    refine ⟨_, if_neg fun h => ?_⟩
    rw [hno] at h
    cases h.2
  · intro s order r h
    obtain ⟨hmem, rfl⟩ := waitCommon_eq_some h
    exact filters_claimOne_iff (hfound _ hmem)

end

/-! ## A stopped child and one that has exited -/

/-- Pid 2 is a stopped child of pid 1. -/
def stoppedChild : Procs := (Procs.init.doClone 1 false).stopProcess 2 19

/-- Pid 2 is a child of pid 1 that has exited. -/
def exitedChild : Procs := (((Procs.init.doClone 1 false).doExit 2 7).finiSub 2).finiLast 2

theorem run_stoppedChild : Run Step .init [.clone 1 false, .stop 2 19] stoppedChild :=
  Run.of_foldlM (f := Procs.step) rfl

theorem run_exitedChild :
    Run Step .init [.clone 1 false, .exit 2 7, .finiSub 2, .finiLast 2] exitedChild :=
  Run.of_foldlM (f := Procs.step) rfl

/-- `waitpid(-1, …, WUNTRACED)` finds the stopped child. -/
theorem wait_filters_iff_stopped : ∃ s order r,
    (WaitCall.wait4 (-1) 2).run 1 [(stoppedChild, [1, 2])] = some (s, order, r) ∧
      Filters (.wait4 (-1) 2) (s.matchChild 1 0 0) s r := by
  have hsel : (WaitCall.wait4 (-1) 2).selector stoppedChild 1 = some (0, 0) := rfl
  have hfound : ∀ x ∈ [(stoppedChild, [1, 2])], x.2.Perm x.1.pidMap := by
    intro x hx
    rw [List.mem_singleton.mp hx]
    exact .refl _
  refine ⟨_, _, _, rfl, ((wait_filters_iff hsel hfound).2 _ _ _ rfl).mpr ?_⟩
  rintro p ⟨⟩
  rfl

/-- `waitpid(-1, …, 0)` reports a stopped child, and `waitid(P_ALL, …, WSTOPPED)` reports and reaps
one that has exited. -/
theorem unrequested_event_claimed :
    (∃ r, Run Step .init [.clone 1 false, .stop 2 19] stoppedChild ∧
      (WaitCall.wait4 (-1) 0).run 1 [(stoppedChild, [1, 2])] = some (stoppedChild, [1, 2], r) ∧
      r.1 = .event ⟨2, false, 19, 0⟩ ∧
      ¬ Filters (.wait4 (-1) 0) (stoppedChild.matchChild 1 0 0) stoppedChild r) ∧
    ∃ r, Run Step .init [.clone 1 false, .exit 2 7, .finiSub 2, .finiLast 2] exitedChild ∧
      (WaitCall.waitid 0 0 2).run 1 [(exitedChild, [1, 2])] = some (exitedChild, [1, 2], r) ∧
      r.1 = .event ⟨2, true, 0, 7⟩ ∧ r.2.pidMap = [1] ∧
      ¬ Filters (.waitid 0 0 2) (exitedChild.matchChild 1 0 0) exitedChild r := by
  refine ⟨⟨_, run_stoppedChild, rfl, rfl, fun h => ?_⟩, ⟨_, run_exitedChild, rfl, rfl, rfl, ?_⟩⟩
  · exact absurd (h.reported _ rfl).2 (by decide)
  · intro h
    exact absurd (h.reported _ rfl).2 (by decide)

end Bpfvm.Process
