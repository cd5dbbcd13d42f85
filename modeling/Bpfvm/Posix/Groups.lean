import Mathlib.Algebra.Order.Ring.Int
import Mathlib.Logic.Function.Basic
import Bpfvm.Posix.Basic
import Bpfvm.Lib.Runs

/-!
# Process groups and sessions

A process refers to a process group and to a session, both objects that a child shares with its
parent. `setpgid` and `setsid` replace the references by new objects; a group is found again
only by its number, the `pid` of the process it was made for. The processes are those of
`pid_map`, where one that has exited stays until it is waited for.
-/
namespace Bpfvm.Posix
open Function

/-- `Session`: an object, and the `sid` it has. -/
structure Session where
  ref : ℕ
  sid : ℕ
  deriving DecidableEq, Repr

/-- `ProcessGroup`. -/
structure ProcessGroup where
  pgid : ℕ
  session : Session
  deriving DecidableEq, Repr

/-- What a `PosixSyscall` in `pid_map` says of its process. -/
structure Task where
  pid : ℕ
  tgid : ℕ
  ppid : ℕ
  pgrp : ProcessGroup
  session : Session
  exited : Bool
  deriving DecidableEq, Repr

/-- `pid_map`, with the next `pid` and the next object to be made. -/
structure Procs where
  pidMap : ℕ → Option Task
  nextPid : ℕ
  nextRef : ℕ

/-- `static_cast<uint64_t>` of a `pid_t`. -/
def toU64 (n : ℤ) : ℕ := (n % 2 ^ 64).toNat

namespace Procs

/-- The state in which the first process runs: it leads its session and its group. -/
def init : Procs where
  pidMap := fun pid => if pid = 1 then some ⟨1, 1, 0, ⟨1, ⟨0, 1⟩⟩, ⟨0, 1⟩, false⟩ else none
  nextPid := 2
  nextRef := 1

def findTask (s : Procs) (pid : ℕ) : Option Task := s.pidMap pid

def put (s : Procs) (t : Task) : Procs := { s with pidMap := update s.pidMap t.pid t }

/-- The target of `setpgid`: the caller itself or a child. -/
def setpgidTarget (s : Procs) (me : Task) (pidArg : ℤ) : Except Errno Task :=
  if pidArg = 0 then .ok me
  else
    match s.findTask (toU64 pidArg) with
    | none => .error .ESRCH
    | some target =>
      if toU64 pidArg ≠ me.tgid ∧ target.ppid ≠ me.tgid then .error .ESRCH else .ok target

/-- A process that the group can be named after, in the caller's session. -/
def groupLeader (s : Procs) (me : Task) (pgid : ℕ) : Bool :=
  (s.findTask pgid).any fun leader => leader.session = me.session

/-- `do_setpgid` once its target is known. -/
def joinGroup (s : Procs) (me target : Task) (pgrpArg : ℤ) : Except Errno Procs :=
  let newPgid := if pgrpArg = 0 then target.pid else toU64 pgrpArg
  if target.session ≠ me.session then .error .EPERM
  else if target.session.sid = target.pid then .error .EPERM
  else if target.pgrp.pgid = toU64 pgrpArg ∧ pgrpArg ≠ 0 then .ok s
  else if newPgid ≠ target.pid ∧ s.groupLeader me newPgid = false then .error .EPERM
  else .ok (s.put { target with pgrp := ⟨newPgid, target.session⟩ })

/-- `PosixSyscall::do_setpgid`. -/
def doSetpgid (s : Procs) (me : Task) (pidArg pgrpArg : ℤ) : Except Errno Procs :=
  if pgrpArg < 0 then .error .EINVAL
  else
    match s.setpgidTarget me pidArg with
    | .error e => .error e
    | .ok target => s.joinGroup me target pgrpArg

/-- `PosixSyscall::do_setsid`. -/
def doSetsid (s : Procs) (me : Task) : Except Errno (ℕ × Procs) :=
  if me.pgrp.pgid = me.pid then .error .EPERM
  else
    let session : Session := ⟨s.nextRef, me.pid⟩
    .ok (me.pid, { s.put { me with pgrp := ⟨me.pid, session⟩, session := session } with
      nextRef := s.nextRef + 1 })

/-- The part of `do_clone` that makes a process: it shares the group and the session. -/
def fork (s : Procs) (me : Task) : Procs :=
  { s.put ⟨s.nextPid, s.nextPid, me.tgid, me.pgrp, me.session, false⟩ with
    nextPid := s.nextPid + 1 }

/-- `fini` of the last thread: the process stays until it is waited for and its children become
those of the first process, which itself goes at once. -/
def exit (s : Procs) (me : Task) : Procs :=
  if me.pid = 1 then { s with pidMap := update s.pidMap 1 none }
  else
    let gone := s.put { me with exited := true }
    { gone with pidMap := fun pid =>
        (gone.pidMap pid).map fun t => if t.ppid = me.tgid then { t with ppid := 1 } else t }

/-- The end of a wait that reports an exited child. -/
def reap (s : Procs) (me : Task) (pid : ℕ) : Procs :=
  match s.findTask pid with
  | none => s
  | some t =>
    if t.exited ∧ t.ppid = me.tgid then { s with pidMap := update s.pidMap pid none }
    else s

end Procs

/-- The calls that a process makes. -/
inductive GroupCall where
  | fork
  | setpgid (pid pgrp : ℤ)
  | setsid
  | exit
  | reap (pid : ℕ)
  deriving DecidableEq, Repr

namespace Procs

/-- A process that has not exited makes a call; one that fails changes nothing. -/
def step (s : Procs) (c : ℕ × GroupCall) : Option Procs :=
  match s.findTask c.1 with
  | none => none
  | some me =>
    if me.exited then none
    else
      match c.2 with
      | .fork => some (s.fork me)
      | .setpgid pid pgrp =>
        match s.doSetpgid me pid pgrp with
        | .error _ => some s
        | .ok s' => some s'
      | .setsid =>
        match s.doSetsid me with
        | .error _ => some s
        | .ok (_, s') => some s'
      | .exit => some (s.exit me)
      | .reap pid => some (s.reap me pid)

end Procs

/-! ## The tasks of a state -/

namespace Procs

variable {s s' : Procs} {t x y me : Task}

instance : Membership Task Procs := ⟨fun s t => s.pidMap t.pid = some t⟩

theorem eq_of_mem (hx : x ∈ s) (hy : y ∈ s) (h : x.pid = y.pid) : x = y := by
  have hx' : s.pidMap x.pid = some x := hx
  have hy' : s.pidMap y.pid = some y := hy
  rw [h, hy'] at hx'
  exact (Option.some.inj hx').symm

theorem mem_put : x ∈ s.put t ↔ x = t ∨ x ∈ s ∧ x.pid ≠ t.pid := by
  show update s.pidMap t.pid (some t) x.pid = some x ↔ _
  rw [update_apply]
  split_ifs with h
  · constructor
    · intro hx
      exact Or.inl (Option.some.inj hx).symm
    · rintro (rfl | ⟨-, hne⟩)
      · rfl
      · exact absurd h hne
  · constructor
    · intro hx
      exact Or.inr ⟨hx, h⟩
    · rintro (rfl | ⟨hx, -⟩)
      · exact absurd rfl h
      · exact hx

/-- Every task is found under its own number. -/
def Keyed (s : Procs) : Prop := ∀ i t, s.pidMap i = some t → t.pid = i

theorem Keyed.mem {i : ℕ} (h : s.Keyed) (hi : s.findTask i = some t) : t ∈ s := by
  have hkey := h i t hi
  subst hkey
  exact hi

theorem Keyed.put (h : s.Keyed) (t : Task) : (s.put t).Keyed := by
  intro i x hx
  have hx' : update s.pidMap t.pid (some t) i = some x := hx
  rw [update_apply] at hx'
  split_ifs at hx' with hi
  · cases hx'
    exact hi.symm
  · exact h i x hx'

/-! ## The invariant -/

/-- What holds of groups and sessions. A group that has lost the process it is named after is
still within one session (`same`); one that has not is in the session of that process
(`led`), also if it has exited and can be found only by its number. -/
structure Ok (s : Procs) : Prop where
  keyed : s.Keyed
  pid_lt : ∀ x ∈ s, x.pid < s.nextPid
  pgid_lt : ∀ x ∈ s, x.pgrp.pgid < s.nextPid
  sid_lt : ∀ x ∈ s, x.session.sid < s.nextPid
  ref_lt : ∀ x ∈ s, x.session.ref < s.nextRef
  recorded : ∀ x ∈ s, x.pgrp.session = x.session
  same : ∀ x ∈ s, ∀ y ∈ s, x.exited = false → y.exited = false →
    x.pgrp.pgid = y.pgrp.pgid → x.session = y.session
  led : ∀ x ∈ s, ∀ y ∈ s, y.exited = false → y.pgrp.pgid = x.pid → y.session = x.session
  leads : ∀ x ∈ s, ∀ y ∈ s, y.session.sid = x.pid →
    y.session = x.session ∧ x.pgrp.pgid = x.pid

theorem ok_init : init.Ok := by
  have hmem : ∀ x, x ∈ init → x = ⟨1, 1, 0, ⟨1, ⟨0, 1⟩⟩, ⟨0, 1⟩, false⟩ := by
    intro x hx
    have hx' : (if x.pid = 1 then some _ else none) = some x := hx
    split_ifs at hx'
    exact (Option.some.inj hx').symm
  constructor
  case keyed =>
    intro i t ht
    have ht' : (if i = 1 then some _ else none) = some t := ht
    split_ifs at ht' with hi
    rw [← Option.some.inj ht', hi]
  all_goals
    intro x hx
    rw [hmem x hx]
  case same =>
    intro y hy
    rw [hmem y hy]
    simp
  case led =>
    intro y hy
    rw [hmem y hy]
    simp
  case leads =>
    intro y hy
    rw [hmem y hy]
    simp
  all_goals decide

/-- Tasks that go, exit or get another parent. -/
structure Thins (s s' : Procs) : Prop where
  keyed : s.Keyed → s'.Keyed
  nextPid : s'.nextPid = s.nextPid
  nextRef : s'.nextRef = s.nextRef
  mem : ∀ x ∈ s', ∃ y ∈ s, y.pid = x.pid ∧ y.pgrp = x.pgrp ∧ y.session = x.session ∧
    (x.exited = false → y.exited = false)

theorem Ok.thins (h : s.Ok) (ht : Thins s s') : s'.Ok := by
  constructor
  case keyed => exact ht.keyed h.keyed
  all_goals
    intro x hx
    obtain ⟨x₀, hx₀, hpid, hpgrp, hsession, hlive⟩ := ht.mem x hx
  case pid_lt =>
    rw [← hpid, ht.nextPid]
    exact h.pid_lt x₀ hx₀
  case pgid_lt =>
    rw [← hpgrp, ht.nextPid]
    exact h.pgid_lt x₀ hx₀
  case sid_lt =>
    rw [← hsession, ht.nextPid]
    exact h.sid_lt x₀ hx₀
  case ref_lt =>
    rw [← hsession, ht.nextRef]
    exact h.ref_lt x₀ hx₀
  case recorded =>
    rw [← hsession, ← hpgrp]
    exact h.recorded x₀ hx₀
  all_goals
    intro y hy
    obtain ⟨y₀, hy₀, hpid', hpgrp', hsession', hlive'⟩ := ht.mem y hy
    rw [← hsession, ← hsession']
  case same =>
    intro hxe hye heq
    rw [← hpgrp, ← hpgrp'] at heq
    exact h.same x₀ hx₀ y₀ hy₀ (hlive hxe) (hlive' hye) heq
  case led =>
    intro hye heq
    rw [← hpgrp', ← hpid] at heq
    exact h.led x₀ hx₀ y₀ hy₀ (hlive' hye) heq
  case leads =>
    intro heq
    rw [← hpid] at heq
    rw [← hpgrp, ← hpid]
    exact h.leads x₀ hx₀ y₀ hy₀ heq

theorem thins_refl (s : Procs) : Thins s s :=
  ⟨id, rfl, rfl, fun x hx => ⟨x, hx, rfl, rfl, rfl, id⟩⟩

theorem thins_erase (s : Procs) (pid : ℕ) :
    Thins s { s with pidMap := update s.pidMap pid none } := by
  refine ⟨fun hkey i t ht => ?_, rfl, rfl, fun x hx => ⟨x, ?_, rfl, rfl, rfl, id⟩⟩
  · have ht' : update s.pidMap pid none i = some t := ht
    rw [update_apply] at ht'
    split_ifs at ht'
    exact hkey i t ht'
  · have hx' : update s.pidMap pid none x.pid = some x := hx
    rw [update_apply] at hx'
    split_ifs at hx'
    exact hx'

theorem thins_reap (s : Procs) (me : Task) (pid : ℕ) : Thins s (s.reap me pid) := by
  rw [reap]
  split
  · exact thins_refl s
  · split_ifs
    · exact thins_erase s pid
    · exact thins_refl s

theorem thins_exit (hme : me ∈ s) : Thins s (s.exit me) := by
  rw [exit]
  split_ifs with h1
  · exact thins_erase s 1
  · refine ⟨fun hkey i t ht => ?_, rfl, rfl, fun x hx => ?_⟩
    · obtain ⟨t₀, ht₀, rfl⟩ := Option.map_eq_some_iff.mp ht
      have hpid := hkey.put _ i t₀ ht₀
      split_ifs <;> exact hpid
    · obtain ⟨t₀, ht₀, hx₀⟩ := Option.map_eq_some_iff.mp hx
      have hpid : t₀.pid = x.pid := by
        rw [← hx₀]
        split_ifs <;> rfl
      have hmem : t₀ ∈ s.put { me with exited := true } := by
        show _ = _
        rw [hpid]
        exact ht₀
      have hkeep : t₀.pgrp = x.pgrp ∧ t₀.session = x.session ∧ t₀.exited = x.exited := by
        rw [← hx₀]
        split_ifs <;> exact ⟨rfl, rfl, rfl⟩
      obtain ⟨hpgrp, hsession, hexited⟩ := hkeep
      rcases mem_put.mp hmem with rfl | ⟨hold, -⟩
      · refine ⟨me, hme, hpid, hpgrp, hsession, fun hx => ?_⟩
        rw [← hexited] at hx
        cases hx
      · exact ⟨t₀, hold, hpid, hpgrp, hsession, fun hx => hexited.trans hx⟩

/-- A task is written; what the invariant says of it and each of the others is given. -/
theorem Ok.put (h : s.Ok) {nextPid nextRef : ℕ} (hp : s.nextPid ≤ nextPid)
    (hr : s.nextRef ≤ nextRef) (hpid : t.pid < nextPid) (hpgid : t.pgrp.pgid < nextPid)
    (hsid : t.session.sid < nextPid) (href : t.session.ref < nextRef)
    (hrec : t.pgrp.session = t.session) (hself : t.session.sid = t.pid → t.pgrp.pgid = t.pid)
    (hother : ∀ y ∈ s, y.pid ≠ t.pid →
      (t.exited = false → y.exited = false → y.pgrp.pgid = t.pgrp.pgid → y.session = t.session) ∧
      (y.exited = false → y.pgrp.pgid = t.pid → y.session = t.session) ∧
      (t.exited = false → t.pgrp.pgid = y.pid → t.session = y.session) ∧
      (y.session.sid = t.pid → y.session = t.session ∧ t.pgrp.pgid = t.pid) ∧
      (t.session.sid = y.pid → t.session = y.session ∧ y.pgrp.pgid = y.pid)) :
    Ok { s.put t with nextPid := nextPid, nextRef := nextRef } := by
  have hmem : ∀ x, x ∈ ({ s.put t with nextPid := nextPid, nextRef := nextRef } : Procs) →
      x = t ∨ x ∈ s ∧ x.pid ≠ t.pid := fun x hx => mem_put.mp hx
  constructor
  case keyed => exact h.keyed.put _
  all_goals
    intro x hx
    rcases hmem x hx with rfl | ⟨hx', hxne⟩
  case pid_lt.inl => exact hpid
  case pid_lt.inr => exact (h.pid_lt x hx').trans_le hp
  case pgid_lt.inl => exact hpgid
  case pgid_lt.inr => exact (h.pgid_lt x hx').trans_le hp
  case sid_lt.inl => exact hsid
  case sid_lt.inr => exact (h.sid_lt x hx').trans_le hp
  case ref_lt.inl => exact href
  case ref_lt.inr => exact (h.ref_lt x hx').trans_le hr
  case recorded.inl => exact hrec
  case recorded.inr => exact h.recorded x hx'
  all_goals
    intro y hy
    rcases hmem y hy with rfl | ⟨hy', hyne⟩
  case same.inl.inl => exact fun _ _ _ => rfl
  case same.inl.inr => exact fun hxe hye he => ((hother y hy' hyne).1 hxe hye he.symm).symm
  case same.inr.inl => exact fun hxe hye he => (hother x hx' hxne).1 hye hxe he
  case same.inr.inr => exact h.same x hx' y hy'
  case led.inl.inl => exact fun _ _ => rfl
  case led.inl.inr => exact (hother y hy' hyne).2.1
  case led.inr.inl => exact (hother x hx' hxne).2.2.1
  case led.inr.inr => exact h.led x hx' y hy'
  case leads.inl.inl => exact fun he => ⟨rfl, hself he⟩
  case leads.inl.inr => exact (hother y hy' hyne).2.2.2.1
  case leads.inr.inl => exact (hother x hx' hxne).2.2.2.2
  case leads.inr.inr => exact h.leads x hx' y hy'

/-- What the child has it has from its parent. -/
theorem Ok.fork (h : s.Ok) (hme : me ∈ s) (hlive : me.exited = false) : (s.fork me).Ok :=
  h.put (Nat.le_succ _) le_rfl (Nat.lt_succ_self _) (Nat.lt_succ_of_lt (h.pgid_lt me hme))
    (Nat.lt_succ_of_lt (h.sid_lt me hme)) (h.ref_lt me hme) (h.recorded me hme)
    (fun he => absurd he (h.sid_lt me hme).ne) fun y hy _ =>
      ⟨fun _ hye => h.same y hy me hme hye hlive, fun _ he => absurd he (h.pgid_lt y hy).ne,
        fun _ => h.led y hy me hme hlive, fun he => absurd he (h.sid_lt y hy).ne,
        h.leads y hy me hme⟩

theorem setpgidTarget_mem {pid : ℤ} (hkey : s.Keyed) (hme : me ∈ s)
    (h : s.setpgidTarget me pid = .ok t) : t ∈ s := by
  rw [setpgidTarget] at h
  split_ifs at h
  · cases h
    exact hme
  · split at h
    · cases h
    · split_ifs at h
      cases h
      exact hkey.mem ‹_›

/-- What `setpgid` does when it succeeds: nothing, or it puts a task that leads no session into a
group named after the task itself or after another one of the same session. -/
theorem doSetpgid_cases {pid pgrp : ℤ} (hkey : s.Keyed) (hme : me ∈ s)
    (h : s.doSetpgid me pid pgrp = .ok s') :
    s' = s ∨ ∃ t ∈ s, ∃ g, t.session.sid ≠ t.pid ∧
      (g = t.pid ∨ ∃ leader ∈ s, leader.pid = g ∧ leader.session = t.session) ∧
      s' = s.put { t with pgrp := ⟨g, t.session⟩ } := by
  rw [doSetpgid] at h
  split_ifs at h
  split at h
  · cases h
  rename_i t htarget
  have ht := setpgidTarget_mem hkey hme htarget
  rw [joinGroup] at h
  generalize (if pgrp = 0 then t.pid else toU64 pgrp) = g at h
  split_ifs at h with hsession hsid hnoop hleader
  · cases h
    exact Or.inl rfl
  · cases h
    refine Or.inr ⟨t, ht, g, hsid, ?_, rfl⟩
    by_cases hg : g = t.pid
    · exact Or.inl hg
    · right
      have hany : s.groupLeader me g = true := by simpa [hg] using hleader
      obtain ⟨leader, hfind, hsame⟩ := (Option.any_eq_true _ _).mp hany
      refine ⟨leader, hkey.mem hfind, hkey g leader hfind, ?_⟩
      rw [of_decide_eq_true hsame]
      exact (not_not.mp hsession).symm

theorem Ok.setpgid {g : ℕ} (h : s.Ok) (ht : t ∈ s) (hsid : t.session.sid ≠ t.pid)
    (hg : g = t.pid ∨ ∃ leader ∈ s, leader.pid = g ∧ leader.session = t.session) :
    (s.put { t with pgrp := ⟨g, t.session⟩ }).Ok := by
  -- the task the group is named after, and that it is in this session
  obtain ⟨leader, hl, hlpid, hlsession⟩ :
      ∃ leader ∈ s, leader.pid = g ∧ leader.session = t.session := by
    rcases hg with rfl | hg
    · exact ⟨t, ht, rfl, rfl⟩
    · exact hg
  have hgroup : ∀ y ∈ s, y.exited = false → y.pgrp.pgid = g → y.session = t.session := by
    intro y hy hye heq
    rw [← hlsession]
    exact h.led leader hl y hy hye (heq.trans hlpid.symm)
  refine h.put le_rfl le_rfl (h.pid_lt t ht) (hlpid ▸ h.pid_lt leader hl) (h.sid_lt t ht)
    (h.ref_lt t ht) rfl (fun he => absurd he hsid) fun y hy hne =>
      ⟨fun _ => hgroup y hy, h.led t ht y hy, fun _ he => ?_, fun he => ?_, h.leads y hy t ht⟩
  · rw [← eq_of_mem hl hy (hlpid.trans he)]
    exact hlsession.symm
  · have hlead := h.leads t ht y hy he
    rw [hlead.1] at he
    exact absurd he hsid

/-- No other process that has not exited is in a group with the number of `me`. -/
def Alone (s : Procs) (me : Task) : Prop :=
  ∀ y ∈ s, y.exited = false → y.pgrp.pgid = me.pid → y = me

theorem doSetsid_ok {n : ℕ} (h : s.doSetsid me = .ok (n, s')) :
    me.pgrp.pgid ≠ me.pid ∧ n = me.pid ∧
      s' = { s.put { me with
        pgrp := ⟨me.pid, ⟨s.nextRef, me.pid⟩⟩, session := ⟨s.nextRef, me.pid⟩ } with
        nextRef := s.nextRef + 1 } := by
  rw [doSetsid] at h
  split_ifs at h with hleader
  cases h
  exact ⟨hleader, rfl, rfl⟩

theorem mem_of_doSetsid {n : ℕ} (hs : s.doSetsid me = .ok (n, s')) (hx : x ∈ s') :
    x = { me with pgrp := ⟨me.pid, ⟨s.nextRef, me.pid⟩⟩, session := ⟨s.nextRef, me.pid⟩ } ∨
      x ∈ s ∧ x.pid ≠ me.pid := by
  obtain ⟨-, -, rfl⟩ := doSetsid_ok hs
  exact mem_put.mp hx

theorem Ok.setsid {n : ℕ} (h : s.Ok) (hme : me ∈ s) (halone : s.Alone me)
    (hs : s.doSetsid me = .ok (n, s')) : s'.Ok := by
  obtain ⟨hleader, -, rfl⟩ := doSetsid_ok hs
  have hnot : ∀ y ∈ s, y.pid ≠ me.pid → y.exited = false → y.pgrp.pgid ≠ me.pid :=
    fun y hy hne hye he => hne (congrArg Task.pid (halone y hy hye he))
  exact h.put le_rfl (Nat.le_succ _) (h.pid_lt me hme) (h.pid_lt me hme) (h.pid_lt me hme)
    (Nat.lt_succ_self _) rfl (fun _ => rfl) fun y hy hne =>
      ⟨fun _ hye he => absurd he (hnot y hy hne hye), fun hye he => absurd he (hnot y hy hne hye),
        fun _ he => absurd he.symm hne, fun he => absurd (h.leads me hme y hy he).2 hleader,
        fun he => absurd he.symm hne⟩

/-! ## Every sequence of calls -/

/-- The condition under which the groups stay within sessions: a process makes a session only
where it is alone in the group with its number. -/
def Meets (s : Procs) (c : ℕ × GroupCall) : Prop :=
  c.2 = .setsid → ∀ me ∈ s, me.pid = c.1 → me.pgrp.pgid ≠ me.pid → s.Alone me

theorem Ok.step {c : ℕ × GroupCall} (h : s.Ok) (hs : s.step c = some s') (hc : s.Meets c) :
    s'.Ok := by
  obtain ⟨pid, call⟩ := c
  rw [Procs.step] at hs
  split at hs
  · cases hs
  rename_i me hfind
  have hme : me ∈ s := h.keyed.mem hfind
  split_ifs at hs with hexited
  rw [Bool.not_eq_true] at hexited
  cases call with
  | fork =>
    cases hs
    exact h.fork hme hexited
  | setpgid pidArg pgrpArg =>
    dsimp only at hs
    split at hs
    · cases hs
      exact h
    · rename_i s₁ hok
      cases hs
      rcases doSetpgid_cases h.keyed hme hok with rfl | ⟨t, ht, g, hsid, hg, rfl⟩
      · exact h
      · exact h.setpgid ht hsid hg
  | setsid =>
    dsimp only at hs
    split at hs
    · cases hs
      exact h
    · rename_i n s₁ hok
      cases hs
      exact h.setsid hme (hc rfl me hme (h.keyed pid me hfind) (doSetsid_ok hok).1) hok
  | exit =>
    cases hs
    exact h.thins (thins_exit hme)
  | reap q =>
    cases hs
    exact h.thins (thins_reap s me q)

theorem ok_of_run {cs : List (ℕ × GroupCall)}
    (hrun : Run (fun s c s' => s.step c = some s' ∧ s.Meets c) init cs s) : s.Ok :=
  hrun.invariant ok_init fun _ _ _ h hs => h.step hs.1 hs.2

/-- Groups lie within sessions: processes with one group number are in one session, and the
group of each records it. -/
def Within (s : Procs) : Prop :=
  (∀ x ∈ s, ∀ y ∈ s, x.exited = false → y.exited = false → x.pgrp.pgid = y.pgrp.pgid →
    x.session = y.session) ∧ ∀ x ∈ s, x.pgrp.session = x.session

/-- The group and the session that `me` has made contain no other process. -/
def OnlyCaller (s : Procs) (me : Task) : Prop :=
  ∀ y ∈ s, y.exited = false → y.pgrp.pgid = me.pid ∨ y.session.sid = me.pid → y.pid = me.pid

theorem Ok.onlyCaller {n : ℕ} (h : s.Ok) (hme : me ∈ s) (halone : s.Alone me)
    (hs : s.doSetsid me = .ok (n, s')) : s'.OnlyCaller me := by
  intro y hy hye hor
  rcases mem_of_doSetsid hs hy with rfl | ⟨hy, hne⟩
  · rfl
  · rcases hor with hpgid | hsid
    · exact congrArg Task.pid (halone y hy hye hpgid)
    · exact absurd (h.leads me hme y hy hsid).2 (doSetsid_ok hs).1

end Procs

/-- Along every sequence of calls in which a process makes a session only where it is alone in
the group with its number, groups lie within sessions, and a session that is made contains only
its maker. -/
theorem groups_within_sessions {s : Procs} {cs : List (ℕ × GroupCall)}
    (hrun : Run (fun s c s' => s.step c = some s' ∧ s.Meets c) Procs.init cs s) :
    s.Within ∧ ∀ me ∈ s, s.Alone me → ∀ n s', s.doSetsid me = .ok (n, s') →
      s'.Within ∧ s'.OnlyCaller me := by
  have h := Procs.ok_of_run hrun
  refine ⟨⟨h.same, h.recorded⟩, fun me hme halone n s' hs => ?_⟩
  have h' := h.setsid hme halone hs
  exact ⟨⟨h'.same, h'.recorded⟩, h.onlyCaller hme halone hs⟩

/-- Process 2 makes a group and fails to make a session, its child leaves the group and ends, and
then 2 leaves it too and makes a session. -/
theorem groups_within_sessions_child :
    ∃ s, Run (fun s c s' => Procs.step s c = some s' ∧ s.Meets c) Procs.init
      ([(1, .fork), (2, .setpgid 0 0), (2, .setsid), (2, .fork), (3, .setpgid 0 0), (3, .exit),
        (2, .reap 3), (2, .setpgid 0 1)] ++ [(2, .setsid)]) s ∧ s.Within := by
  obtain ⟨s, s', hrun, hall, hlast⟩ : ∃ s s', Run (fun s c s' => Procs.step s c = some s' ∧
      s.Meets c) Procs.init [(1, .fork), (2, .setpgid 0 0), (2, .setsid), (2, .fork),
        (3, .setpgid 0 0), (3, .exit), (2, .reap 3), (2, .setpgid 0 1)] s ∧
      (∀ i < s.nextPid, (s.findTask i).all (·.pgrp.pgid = 1)) ∧
      s.step (2, .setsid) = some s' := by
    refine ⟨_, _, .cons ⟨rfl, nofun⟩ (.cons ⟨rfl, nofun⟩ (.cons ⟨rfl, fun _ me hm hpid h => ?_⟩
      (.cons ⟨rfl, nofun⟩ (.cons ⟨rfl, nofun⟩ (.cons ⟨rfl, nofun⟩ (.cons ⟨rfl, nofun⟩
      (.single ⟨rfl, nofun⟩))))))), by decide, rfl⟩
    have hme : Procs.pidMap _ me.pid = some me := hm
    rw [hpid] at hme
    cases hme
    exact absurd rfl h
  have hmeets : s.Meets (2, .setsid) := by
    intro _ me _ hpid _ y hy _ hpgid
    have hone := hall y.pid ((Procs.ok_of_run hrun).pid_lt y hy)
    rw [Procs.findTask, hy, Option.all_some, hpgid, hpid] at hone
    cases hone
  have hrun' := hrun.append (.single ⟨hlast, hmeets⟩)
  exact ⟨s', hrun', (groups_within_sessions hrun').1⟩

/-- Process 2 makes a group, its child 3 stays in it when 2 leaves for the group of 1, and then
2 makes a session: 2 and 3 have the group number 2, in different sessions. -/
theorem setsid_splits_group :
    ∃ s x y, Run (fun s c s' => Procs.step s c = some s') Procs.init
        [(1, .fork), (2, .setpgid 0 0), (2, .fork), (2, .setpgid 0 1), (2, .setsid)] s ∧
      x ∈ s ∧ y ∈ s ∧ x.exited = false ∧ y.exited = false ∧
      x.pgrp.pgid = y.pgrp.pgid ∧ x.session ≠ y.session := by
  obtain ⟨s, hs, htasks⟩ := Option.map_eq_some_iff.mp
    (show (List.foldlM Procs.step Procs.init [(1, .fork), (2, .setpgid 0 0), (2, .fork),
      (2, .setpgid 0 1), (2, .setsid)]).map (fun s => (s.findTask 2, s.findTask 3))
      = some (some ⟨2, 2, 1, ⟨2, ⟨1, 2⟩⟩, ⟨1, 2⟩, false⟩,
        some ⟨3, 3, 2, ⟨2, ⟨0, 1⟩⟩, ⟨0, 1⟩, false⟩) by decide +kernel)
  obtain ⟨hx, hy⟩ := Prod.mk.inj htasks
  exact ⟨s, ⟨2, 2, 1, ⟨2, ⟨1, 2⟩⟩, ⟨1, 2⟩, false⟩, ⟨3, 3, 2, ⟨2, ⟨0, 1⟩⟩, ⟨0, 1⟩, false⟩,
    Run.of_foldlM hs, hx, hy, rfl, rfl, rfl, by decide⟩

end Bpfvm.Posix
