import Mathlib.Data.List.Nodup
import Bpfvm.Posix.Ctty

/-!
# Signals to process groups

`kill` with an argument that is not positive and the signals of a terminal go to every process
of a group. The table they scan has an entry for each thread, and one for each process that has
exited and was not waited for.
-/
namespace Bpfvm.Posix
open List

/-- `pid_map` as it is iterated over: the keys are different. -/
structure PidMap where
  tasks : List Task
  nodup : (tasks.map Task.pid).Nodup

def SIGKILL : ℤ := 9

/-- One signal to a process: the tasks that `queue_signal` is called for, and its arguments. -/
structure Event where
  tgid : ℕ
  tasks : List ℕ
  sig : ℤ
  sender : ℕ
  code : ℤ
  value : ℕ
  deriving DecidableEq, Repr

namespace PidMap

variable (m : PidMap)

/-- The tasks of a thread group. -/
def threads (tgid : ℕ) : List ℕ := (m.tasks.filter fun t => t.tgid = tgid).map Task.pid

/-- Whether a task is a target of `kill`, by the first argument. -/
def picks (me : Task) (target : ℤ) (t : Task) : Bool :=
  if 0 < target then t.pid = toU64 target
  else if target = 0 then t.pgrp.pgid = me.pgrp.pgid
  else if target = -1 then t.pid ≠ 1 && t.pid ≠ me.pid
  else t.pgrp.pgid = toU64 (-target)

/-- `SIGKILL` goes to all threads of the group, every other signal to the task itself. -/
def event (me : Task) (sig code : ℤ) (value : ℕ) (t : Task) : Event :=
  ⟨t.tgid, if sig = SIGKILL then m.threads t.tgid else [t.pid], sig, me.pid, code, value⟩

/-- `PosixSyscall::send_sig_info`: the signals it sends. -/
def sendSigInfo (me : Task) (target sig code : ℤ) (value : ℕ) : Except Errno (List Event) :=
  let targets := m.tasks.filter (picks me target)
  if targets = [] then .error .ESRCH
  else if sig = 0 then .ok []
  else .ok (targets.map (m.event me sig code value))

/-- Whether a task is a target of a signal of the terminal `tty`, or of one from the host where
the session has none. -/
def ttyPicks (x : Terminals) (me : Task) (tty : Option ℕ) (t : Task) : Bool :=
  match tty with
  | some tty => t.pgrp.pgid = x.fgPgrp tty && x.ctty t.session.ref = some tty
  | none => t.pgrp.pgid = me.pgrp.pgid && t.session = me.session

def SI_KERNEL : ℤ := 128

def ttyEvent (sig : ℤ) (t : Task) : Event := ⟨t.tgid, [t.pid], sig, 0, SI_KERNEL, 0⟩

/-- `PosixSyscall::deliver_to_ctty_fg`: the signals it sends. -/
def deliverToCttyFg (x : Terminals) (me : Task) (tty : Option ℕ) (sig : ℤ) : List Event :=
  if sig ≤ 0 then []
  else if tty.any fun tty => (x.owner tty).isNone then []
  else
    let targets := m.tasks.filter (ttyPicks x me tty)
    if targets = [] then
      match tty with
      | some _ => []
      | none => [ttyEvent sig me]
    else targets.map (ttyEvent sig)

end PidMap

/-! ## Members -/

/-- The first thread of a process that has not exited; it says which group the process is in. -/
def Task.Leads (t : Task) : Prop := t.pid = t.tgid ∧ t.exited = false

instance (t : Task) : Decidable t.Leads := inferInstanceAs (Decidable (_ ∧ _))

variable {u me : Task} {sig : ℤ}

namespace PidMap

/-- Whether a process that `t` leads is meant by `kill`: for `-1` all but the first one and that
of the caller. -/
def means (me : Task) (target : ℤ) (t : Task) : Bool :=
  if target = -1 then t.tgid ≠ 1 && t.tgid ≠ me.tgid else picks me target t

/-- The process `tgid` is a member. -/
def Member (m : PidMap) (q : Task → Bool) (tgid : ℕ) : Prop :=
  ∃ t ∈ m.tasks, t.Leads ∧ t.tgid = tgid ∧ q t = true

instance (m : PidMap) (q : Task → Bool) (tgid : ℕ) : Decidable (m.Member q tgid) :=
  inferInstanceAs (Decidable (∃ t ∈ m.tasks, _))

/-- One signal to each member and none to any other process. -/
def Once (m : PidMap) (q : Task → Bool) (evs : List Event) : Prop :=
  ∀ tgid, evs.countP (fun e => e.tgid = tgid) = if m.Member q tgid then 1 else 0

variable {m : PidMap} {p q : Task → Bool} {f : Task → Event}

theorem eq_of_pid {t : Task} (ht : t ∈ m.tasks) (hu : u ∈ m.tasks) (h : t.pid = u.pid) : t = u :=
  inj_on_of_nodup_map m.nodup ht hu h

theorem countP_events (hf : ∀ t, (f t).tgid = t.tgid) (tgid : ℕ) :
    ((m.tasks.filter p).map f).countP (fun e => e.tgid = tgid)
      = (m.tasks.filter fun t => decide (t.tgid = tgid) && p t).length := by
  rw [countP_map, countP_eq_length_filter, filter_filter]
  congr 1
  simp only [Function.comp_def, hf]

/-- Two tasks that are picked for one process, when it gets one signal. -/
theorem eq_of_length_eq_one {l : List Task} {t : Task} (h : l.length = 1) (ht : t ∈ l)
    (hu : u ∈ l) : t = u := by
  obtain ⟨c, rfl⟩ := length_eq_one_iff.mp h
  rw [mem_singleton.mp ht, mem_singleton.mp hu]

theorem length_eq_one {l : List Task} (hnodup : l.Nodup) (hu : u ∈ l) (h : ∀ t ∈ l, t = u) :
    l.length = 1 := by
  cases l with
  | nil => cases hu
  | cons a l =>
    cases l with
    | nil => rfl
    | cons b l =>
      have hab : a = b := by
        rw [h a (by simp), h b (by simp)]
      exact absurd hnodup (by simp [hab])

/-- Each member gets one signal and no other process any, exactly if every task that is picked
is the first thread of a member. -/
theorem once_iff (hf : ∀ t, (f t).tgid = t.tgid)
    (hqp : ∀ t ∈ m.tasks, t.Leads → q t = true → p t = true) :
    m.Once q ((m.tasks.filter p).map f) ↔
      ∀ t ∈ m.tasks, p t = true → t.Leads ∧ q t = true := by
  have hmem : ∀ tgid t, t ∈ m.tasks.filter (fun t => decide (t.tgid = tgid) && p t) ↔
      t ∈ m.tasks ∧ t.tgid = tgid ∧ p t = true := by
    intro tgid t
    rw [mem_filter, Bool.and_eq_true, decide_eq_true_iff]
  constructor
  · intro h t ht hp
    have hcount := h t.tgid
    rw [countP_events hf] at hcount
    have hpos := length_pos_of_mem ((hmem t.tgid t).mpr ⟨ht, rfl, hp⟩)
    split_ifs at hcount with hmember
    · obtain ⟨u, hu, hleads, htgid, hq⟩ := hmember
      have heq : t = u := eq_of_length_eq_one hcount ((hmem t.tgid t).mpr ⟨ht, rfl, hp⟩)
        ((hmem t.tgid u).mpr ⟨hu, htgid, hqp u hu hleads hq⟩)
      rw [heq]
      exact ⟨hleads, hq⟩
    · omega
  · intro h tgid
    rw [countP_events hf]
    split_ifs with hmember
    · obtain ⟨u, hu, hleads, htgid, hq⟩ := hmember
      apply length_eq_one ((List.Nodup.of_map _ m.nodup).filter _)
        ((hmem tgid u).mpr ⟨hu, htgid, hqp u hu hleads hq⟩)
      intro t ht
      obtain ⟨ht, htgid', hp⟩ := (hmem tgid t).mp ht
      apply eq_of_pid ht hu
      rw [(h t ht hp).1.1, hleads.1, htgid, htgid']
    · rw [length_eq_zero_iff, eq_nil_iff_forall_not_mem]
      intro t ht
      obtain ⟨ht, htgid, hp⟩ := (hmem tgid t).mp ht
      obtain ⟨hleads, hq⟩ := h t ht hp
      exact hmember ⟨t, ht, hleads, htgid, hq⟩

/-! ## `kill` -/

/-- What `kill` is to do with a signal to a group: one to each member and none to any other
process, and an error exactly if there is no member. -/
structure Kills (m : PidMap) (q : Task → Bool) (res : Except Errno (List Event)) : Prop where
  once : ∀ evs, res = .ok evs → m.Once q evs
  esrch : res = .error .ESRCH ↔ ∀ tgid, ¬ m.Member q tgid

theorem picks_of_means {target : ℤ} (hme : me ∈ m.tasks) (t : Task) (ht : t ∈ m.tasks)
    (hleads : t.Leads) (h : means me target t = true) : picks me target t = true := by
  rw [means] at h
  split_ifs at h with htarget
  · subst htarget
    simp only [Bool.and_eq_true, decide_eq_true_iff] at h
    simp only [picks, Int.reduceNeg, Int.reduceLT, if_false, Int.reduceEq, if_true,
      Bool.and_eq_true, decide_eq_true_iff]
    refine ⟨hleads.1 ▸ h.1, fun hpid => h.2 ?_⟩
    rw [eq_of_pid ht hme hpid]
  · exact h

theorem kills_iff {target code : ℤ} {value : ℕ} (hme : me ∈ m.tasks) (hsig : sig ≠ 0) :
    m.Kills (means me target) (m.sendSigInfo me target sig code value) ↔
      ∀ t ∈ m.tasks, picks me target t = true → t.Leads ∧ means me target t = true := by
  have honce := @once_iff m (picks me target) (means me target) (m.event me sig code value)
    (fun _ => rfl) (picks_of_means hme)
  rw [sendSigInfo]
  constructor
  · intro h t ht hp
    have hne : m.tasks.filter (picks me target) ≠ [] :=
      ne_nil_of_mem (mem_filter.mpr ⟨ht, hp⟩)
    rw [if_neg hne, if_neg hsig] at h
    exact honce.mp (h.once _ rfl) t ht hp
  · intro h
    split_ifs with hnil
    · refine ⟨fun evs hok => (nomatch hok), ⟨fun _ tgid hmember => ?_, fun _ => rfl⟩⟩
      obtain ⟨t, ht, hleads, -, hq⟩ := hmember
      have hmem := mem_filter.mpr ⟨ht, picks_of_means hme t ht hleads hq⟩
      rw [hnil] at hmem
      cases hmem
    · refine ⟨fun evs hok => ?_, ⟨fun herr => (nomatch herr), fun hnone => ?_⟩⟩
      · cases hok
        exact honce.mpr h
      · exfalso
        obtain ⟨t, ht⟩ := exists_mem_of_ne_nil _ hnil
        obtain ⟨ht, hp⟩ := mem_filter.mp ht
        exact hnone t.tgid ⟨t, ht, (h t ht hp).1, rfl, (h t ht hp).2⟩

/-! ## Signals of a terminal -/

/-- No session is the owner of the terminal. -/
def unowned (x : Terminals) (tty : Option ℕ) : Bool := tty.any fun tty => (x.owner tty).isNone

theorem deliverToCttyFg_eq {x : Terminals} {tty : Option ℕ} (hme : me ∈ m.tasks) (hsig : 0 < sig) :
    m.deliverToCttyFg x me tty sig
      = if unowned x tty then [] else (m.tasks.filter (ttyPicks x me tty)).map (ttyEvent sig) := by
  rw [deliverToCttyFg.eq_def, if_neg (by omega), ← unowned]
  by_cases howner : unowned x tty = true
  · rw [if_pos howner, if_pos howner]
  rw [if_neg howner, if_neg howner]
  dsimp only
  by_cases hnil : m.tasks.filter (ttyPicks x me tty) = []
  · rw [if_pos hnil, hnil]
    cases tty with
    | some tty => rfl
    | none =>
      have hself : me ∈ m.tasks.filter (ttyPicks x me none) :=
        mem_filter.mpr ⟨hme, by simp [ttyPicks]⟩
      rw [hnil] at hself
      cases hself
  · rw [if_neg hnil]

theorem delivers_iff {x : Terminals} {tty : Option ℕ} (hme : me ∈ m.tasks) (hsig : 0 < sig) :
    m.Once (ttyPicks x me tty) (m.deliverToCttyFg x me tty sig) ↔
      ∀ t ∈ m.tasks, ttyPicks x me tty t = true →
        if unowned x tty then ¬ t.Leads else t.Leads := by
  rw [deliverToCttyFg_eq hme hsig]
  split_ifs with howner
  · constructor
    · intro h t ht hp hleads
      have hcount := h t.tgid
      rw [if_pos ⟨t, ht, hleads, rfl, hp⟩] at hcount
      cases hcount
    · intro h tgid
      rw [if_neg]
      · rfl
      · rintro ⟨t, ht, hleads, -, hp⟩
        exact h t ht hp hleads
  · rw [once_iff (fun _ => rfl) fun _ _ _ hq => hq]
    constructor
    · exact fun h t ht hp => (h t ht hp).1
    · exact fun h t ht hp => ⟨h t ht hp, hp⟩

end PidMap

/-- A signal to a group reaches each member process once, no other process, and `kill` fails
exactly where there is no member, if and only if every entry that the scan picks is the first
thread of a live process, for `kill(-1)` one other than the caller's. For a terminal that no
session owns nothing is sent, which is right if and only if no live process is picked. -/
theorem group_signal_once_iff (m : PidMap) (me : Task) (hme : me ∈ m.tasks) :
    (∀ target sig code value, target ≤ 0 → sig ≠ 0 →
      (m.Kills (PidMap.means me target) (m.sendSigInfo me target sig code value) ↔
        ∀ t ∈ m.tasks, PidMap.picks me target t = true →
          t.Leads ∧ (target = -1 → t.tgid ≠ me.tgid))) ∧
    ∀ (x : Terminals) tty sig, 0 < sig →
      (m.Once (PidMap.ttyPicks x me tty) (m.deliverToCttyFg x me tty sig) ↔
        ∀ t ∈ m.tasks, PidMap.ttyPicks x me tty t = true →
          if PidMap.unowned x tty then ¬ t.Leads else t.Leads) := by
  refine ⟨fun target sig code value htarget hsig => ?_, fun x tty sig hsig => ?_⟩
  · rw [PidMap.kills_iff hme hsig]
    refine forall₃_congr fun t ht hp => and_congr_right fun hleads => ?_
    rw [PidMap.means]
    split_ifs with hall
    · subst hall
      have hne : t.tgid ≠ 1 := by
        rw [← hleads.1]
        simp only [PidMap.picks, Int.reduceNeg, Int.reduceLT, if_false, Int.reduceEq, if_true,
          Bool.and_eq_true, decide_eq_true_iff] at hp
        exact hp.1
      simp [hne]
    · simp [hp, hall]
  · exact PidMap.delivers_iff hme hsig

/-- The first process, and a task of the first session in the group 2. -/
def initTask : Task := ⟨1, 1, 0, ⟨1, ⟨0, 1⟩⟩, ⟨0, 1⟩, false⟩

def groupTask (pid tgid : ℕ) (exited : Bool) : Task :=
  ⟨pid, tgid, 1, ⟨2, ⟨0, 1⟩⟩, ⟨0, 1⟩, exited⟩

theorem group_signal_once_iff_two :
    PidMap.Kills ⟨[initTask, groupTask 2 2 false, groupTask 3 3 false], by decide⟩
      (PidMap.means initTask (-2)) (PidMap.sendSigInfo
        ⟨[initTask, groupTask 2 2 false, groupTask 3 3 false], by decide⟩ initTask (-2) 15 0 0) :=
  ((group_signal_once_iff ⟨[initTask, groupTask 2 2 false, groupTask 3 3 false], by decide⟩
    initTask (by decide)).1 (-2) 15 0 0 (by decide) (by decide)).mpr (by decide)

/-- A process of two threads gets two signals, from `kill` and from its terminal, and a process
that has exited is a target. -/
theorem group_signal_twice :
    (PidMap.sendSigInfo ⟨[initTask, groupTask 2 2 false, groupTask 3 2 false], by decide⟩
        initTask (-2) 15 0 0
      = .ok [⟨2, [2], 15, 1, 0, 0⟩, ⟨2, [3], 15, 1, 0, 0⟩]) ∧
    PidMap.deliverToCttyFg ⟨[initTask, groupTask 2 2 false, groupTask 3 2 false], by decide⟩
        { Terminals.start (some 5) with fgPgrp := fun _ => 2 } initTask (some 0) 2
      = [⟨2, [2], 2, 0, 128, 0⟩, ⟨2, [3], 2, 0, 128, 0⟩] ∧
    PidMap.sendSigInfo ⟨[initTask, groupTask 2 2 true], by decide⟩ initTask (-2) 15 0 0
      = .ok [⟨2, [2], 15, 1, 0, 0⟩] := by
  refine ⟨?_, by decide, ?_⟩
  · rfl
  · rfl

end Bpfvm.Posix
