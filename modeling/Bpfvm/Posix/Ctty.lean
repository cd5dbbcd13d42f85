import Bpfvm.Posix.Groups

/-!
# Controlling terminals

A session holds its controlling terminal by a shared pointer and a terminal its session by a
plain one, so the relation is kept twice. The state adds to the processes their descriptors of
terminals, the registry behind `/dev/pts` and the two maps. A session exists as long as a
process refers to it; a terminal as long as a descriptor, the registry or a session does.
-/
namespace Bpfvm.Posix
open Function Nat

/-- `DevFd`: the terminal, and whether the descriptor is one of a master; those of one terminal
share its `PtySide`. -/
structure DevFd where
  tty : ℕ
  master : Bool
  deriving DecidableEq, Repr

structure Terminals where
  procs : Procs
  /-- By process, the descriptors that are terminals. -/
  fds : ℕ → List (ℕ × DevFd)
  /-- `ptmx_registry`. -/
  registry : ℕ → Option ℕ
  /-- `GuestTty::ptn`, `fg_pgrp` and `owner_`, by terminal. -/
  ptn : ℕ → ℕ
  fgPgrp : ℕ → ℕ
  owner : ℕ → Option ℕ
  /-- `Session::ctty`, by session. -/
  ctty : ℕ → Option ℕ
  nextTty : ℕ

namespace Terminals

/-- The state after `init`: with a `Pty` of that number the first session has it as its
controlling terminal and the first process has it open three times. -/
def start : Option ℕ → Terminals
  | none => ⟨Procs.init, fun _ => [], fun _ => none, fun _ => 0, fun _ => 0, fun _ => none,
      fun _ => none, 0⟩
  | some ptn =>
    { procs := Procs.init
      fds := fun pid => if pid = 1 then [(0, ⟨0, false⟩), (1, ⟨0, false⟩), (2, ⟨0, false⟩)] else []
      registry := fun n => if n = ptn then some 0 else none
      ptn := fun _ => ptn
      fgPgrp := fun _ => 1
      owner := fun t => if t = 0 then some 0 else none
      ctty := fun r => if r = 0 then some 0 else none
      nextTty := 1 }

variable (s : Terminals)

/-- The terminal behind a descriptor. -/
def guestTty (me : Task) (fd : ℕ) : Option ℕ := ((s.fds me.pid).lookup fd).map DevFd.tty

/-- `use_count` of the `PtySide` of a terminal: the descriptors of its master. -/
def useCount (t : ℕ) : ℕ :=
  ((List.range s.procs.nextPid).map fun pid =>
    (s.fds pid).countP fun e => e.2.tty = t && e.2.master).sum

/-- `DevFd::on_close`, but for the signal it sends. -/
def onClose (e : DevFd) (registry : ℕ → Option ℕ) : ℕ → Option ℕ :=
  if e.master ∧ s.useCount e.tty = 1 then update registry (s.ptn e.tty) none else registry

/-- `TIOCSCTTY` on the terminal `t`. -/
def bind (me : Task) (t : ℕ) : Terminals :=
  { s with
    ctty := update s.ctty me.session.ref (some t)
    owner := update s.owner t (some me.session.ref)
    fgPgrp := update s.fgPgrp t me.pgrp.pgid }

def tiocsctty (me : Task) (fd : ℕ) (force : ℤ) : Except Errno Terminals :=
  match s.guestTty me fd with
  | none => .error .ENOTTY
  | some t =>
    if me.session.sid ≠ me.pid then .error .EPERM
    else if s.ctty me.session.ref = some t then .ok s
    else
      match s.owner t with
      | none => .ok (s.bind me t)
      | some r =>
        if r = me.session.ref then .ok (s.bind me t)
        else if force = 0 then .error .EPERM
        else .ok ({ s with ctty := update s.ctty r none }.bind me t)

/-- A new descriptor of the process. -/
def addFd (me : Task) (fd : ℕ) (e : DevFd) : Terminals :=
  { s with fds := update s.fds me.pid ((fd, e) :: s.fds me.pid) }

/-- `open("/dev/ptmx")`, for which the host chooses the number. -/
def openPtmx (me : Task) (fd ptn : ℕ) : Terminals :=
  { s.addFd me fd ⟨s.nextTty, true⟩ with
    registry := update s.registry ptn (some s.nextTty)
    ptn := update s.ptn s.nextTty ptn
    fgPgrp := update s.fgPgrp s.nextTty 0
    owner := update s.owner s.nextTty none
    nextTty := s.nextTty + 1 }

/-- `open("/dev/pts/N")`. -/
def openPts (me : Task) (fd ptn : ℕ) : Option Terminals :=
  (s.registry ptn).map fun t => s.addFd me fd ⟨t, false⟩

/-- `open("/dev/tty")`: a copy of a descriptor of the controlling terminal. -/
def openTty (me : Task) (fd : ℕ) : Option Terminals :=
  (s.ctty me.session.ref).bind fun t =>
    if (s.fds me.pid).any fun e => e.2.tty = t then some (s.addFd me fd ⟨t, false⟩) else none

/-- `close`. -/
def close (me : Task) (fd : ℕ) : Terminals :=
  match (s.fds me.pid).lookup fd with
  | none => s
  | some e =>
    { s with
      registry := s.onClose e s.registry
      fds := update s.fds me.pid ((s.fds me.pid).filter fun e => e.1 ≠ fd) }

/-- A child has copies of all descriptors. -/
def fork (me : Task) : Terminals :=
  { s with
    procs := s.procs.fork me
    fds := update s.fds s.procs.nextPid (s.fds me.pid) }

/-- The process exits: `on_close` for each descriptor, then the table goes. -/
def exit (me : Task) : Terminals :=
  { s with
    procs := s.procs.exit me
    registry := (s.fds me.pid).foldl (fun registry e => s.onClose e.2 registry) s.registry
    fds := update s.fds me.pid [] }

end Terminals

inductive TtyCall where
  | fork
  | setpgid (pid pgrp : ℤ)
  | setsid
  | exit
  | reap (pid : ℕ)
  | openPtmx (fd ptn : ℕ)
  | openPts (fd ptn : ℕ)
  | openTty (fd : ℕ)
  | close (fd : ℕ)
  | tiocsctty (fd : ℕ) (force : ℤ)
  /-- Passed to the host, which knows nothing of the guest's sessions. -/
  | tiocnotty (fd : ℕ)
  deriving DecidableEq, Repr

namespace Terminals

/-- A process makes a call; one that fails changes nothing. -/
def call (s : Terminals) (me : Task) : TtyCall → Terminals
  | .fork => s.fork me
  | .setpgid pid pgrp =>
    match s.procs.doSetpgid me pid pgrp with
    | .error _ => s
    | .ok procs => { s with procs := procs }
  | .setsid =>
    match s.procs.doSetsid me with
    | .error _ => s
    | .ok (_, procs) =>
      { s with procs := procs, ctty := update s.ctty s.procs.nextRef none }
  | .exit => s.exit me
  | .reap pid => { s with procs := s.procs.reap me pid }
  | .openPtmx fd ptn => s.openPtmx me fd ptn
  | .openPts fd ptn => (s.openPts me fd ptn).getD s
  | .openTty fd => (s.openTty me fd).getD s
  | .close fd => s.close me fd
  | .tiocsctty fd force =>
    match s.tiocsctty me fd force with
    | .error _ => s
    | .ok s' => s'
  | .tiocnotty _ => s

def step (s : Terminals) (c : ℕ × TtyCall) : Option Terminals :=
  match s.procs.findTask c.1 with
  | none => none
  | some me => if me.exited then none else some (s.call me c.2)

end Terminals

/-! ## The invariant -/

variable {procs : Procs} {x : Task} {n fd : ℕ} {pty : Option ℕ}

namespace Terminals

variable {s s' : Terminals} {me : Task}

/-- The session object exists: a process or a process group refers to it. -/
def SessionLive (s : Terminals) (r : ℕ) : Prop :=
  ∃ x ∈ s.procs, x.session.ref = r ∨ x.pgrp.session.ref = r

/-- The terminal object exists. -/
def TtyLive (s : Terminals) (t : ℕ) : Prop :=
  (∃ n, s.registry n = some t) ∨ (∃ pid, ∃ e ∈ s.fds pid, e.2.tty = t) ∨
    ∃ r, s.SessionLive r ∧ s.ctty r = some t

/-- Both sides of the relation agree, and no terminal names a session that is gone. -/
def Agree (s : Terminals) : Prop :=
  ∀ t, s.TtyLive t → (∀ r, s.owner t = some r → s.SessionLive r) ∧
    ∀ r, s.SessionLive r → (s.owner t = some r ↔ s.ctty r = some t)

/-- Objects are older than those to come. -/
structure Based (s : Terminals) : Prop where
  keyed : s.procs.Keyed
  session_lt : ∀ r, s.SessionLive r → r < s.procs.nextRef
  tty_lt : ∀ t, s.TtyLive t → t < s.nextTty
  owner_lt : ∀ t r, s.owner t = some r → r < s.procs.nextRef

/-- What every call but `TIOCSCTTY` does to the two maps: nothing, except for the session or the
terminal that it makes, which starts without the other. -/
structure Keeps (s s' : Terminals) : Prop where
  keyed : s'.procs.Keyed
  nextRef : s.procs.nextRef ≤ s'.procs.nextRef
  nextTty : s.nextTty ≤ s'.nextTty
  session : ∀ r, s'.SessionLive r → s.SessionLive r ∨
    r = s.procs.nextRef ∧ r < s'.procs.nextRef ∧ s'.ctty r = none
  tty : ∀ t, s'.TtyLive t → s.TtyLive t ∨ t = s.nextTty ∧ t < s'.nextTty ∧ s'.owner t = none
  owner : ∀ t, s'.owner t = s.owner t ∨ t = s.nextTty ∧ s'.owner t = none
  ctty : ∀ r, s'.ctty r = s.ctty r ∨ r = s.procs.nextRef ∧ s'.ctty r = none

theorem Based.keeps (h : s.Based) (hk : Keeps s s') : s'.Based where
  keyed := hk.keyed
  session_lt r hr := by
    rcases hk.session r hr with hr | ⟨-, hlt, -⟩
    · exact lt_of_lt_of_le (h.session_lt r hr) hk.nextRef
    · exact hlt
  tty_lt t ht := by
    rcases hk.tty t ht with ht | ⟨-, hlt, -⟩
    · exact lt_of_lt_of_le (h.tty_lt t ht) hk.nextTty
    · exact hlt
  owner_lt t r hr := by
    rcases hk.owner t with heq | ⟨-, hnone⟩
    · exact lt_of_lt_of_le (h.owner_lt t r (heq ▸ hr)) hk.nextRef
    · rw [hnone] at hr
      cases hr

/-- A session that is named by a terminal that stays has not ended between the two states. -/
def Outlived (s s' : Terminals) : Prop :=
  ∀ t r, s'.TtyLive t → s'.owner t = some r → s.SessionLive r → s'.SessionLive r

theorem Agree.keeps (hb : s.Based) (h : s.Agree) (hk : Keeps s s') (ho : Outlived s s') :
    s'.Agree := by
  intro t ht
  rcases hk.tty t ht with hold | ⟨rfl, -, hnone⟩
  · have howner : s'.owner t = s.owner t := by
      rcases hk.owner t with heq | ⟨rfl, -⟩
      · exact heq
      · exact absurd (hb.tty_lt _ hold) (lt_irrefl _)
    refine ⟨fun r hr => ?_, fun r hr => ?_⟩
    · exact ho t r ht hr ((h t hold).1 r (howner ▸ hr))
    · rcases hk.session r hr with hlive | ⟨rfl, -, hcnone⟩
      · have hctty : s'.ctty r = s.ctty r := by
          rcases hk.ctty r with heq | ⟨rfl, -⟩
          · exact heq
          · exact absurd (hb.session_lt _ hlive) (lt_irrefl _)
        rw [howner, hctty]
        exact (h t hold).2 r hlive
      · rw [howner, hcnone]
        exact iff_of_false (fun hr' => absurd (hb.owner_lt t _ hr') (lt_irrefl _)) nofun
  · refine ⟨fun r hr => ?_, fun r hr => ?_⟩
    · rw [hnone] at hr
      cases hr
    · rw [hnone]
      refine iff_of_false nofun fun hr' => ?_
      rcases hk.session r hr with hlive | ⟨-, -, hcnone⟩
      · rcases hk.ctty r with heq | ⟨rfl, -⟩
        · exact absurd (hb.tty_lt _ (.inr (.inr ⟨r, hlive, heq ▸ hr'⟩))) (lt_irrefl _)
        · exact absurd (hb.session_lt _ hlive) (lt_irrefl _)
      · rw [hcnone] at hr'
        cases hr'

/-! ## The calls that make no object -/

/-- Calls that neither make an object nor write the two maps. -/
structure Quiet (s s' : Terminals) : Prop where
  keyed : s'.procs.Keyed
  nextRef : s'.procs.nextRef = s.procs.nextRef
  nextTty : s'.nextTty = s.nextTty
  session : ∀ r, s'.SessionLive r → s.SessionLive r
  fds : ∀ pid, ∀ e ∈ s'.fds pid, s.TtyLive e.2.tty
  registry : ∀ n t, s'.registry n = some t → s.registry n = some t
  owner : s'.owner = s.owner
  ctty : s'.ctty = s.ctty

theorem Quiet.keeps (h : Quiet s s') : Keeps s s' where
  keyed := h.keyed
  nextRef := le_of_eq h.nextRef.symm
  nextTty := le_of_eq h.nextTty.symm
  session r hr := .inl (h.session r hr)
  tty t ht := by
    rcases ht with ⟨n, hn⟩ | ⟨pid, e, he, rfl⟩ | ⟨r, hr, hctty⟩
    · exact .inl (.inl ⟨n, h.registry n t hn⟩)
    · exact .inl (h.fds pid e he)
    · exact .inl (.inr (.inr ⟨r, h.session r hr, h.ctty ▸ hctty⟩))
  owner t := .inl (congrFun h.owner t)
  ctty r := .inl (congrFun h.ctty r)

theorem ttyLive_of_mem {pid : ℕ} {e : ℕ × DevFd} (he : e ∈ s.fds pid) : s.TtyLive e.2.tty :=
  .inr (.inl ⟨pid, e, he, rfl⟩)

/-- Replacing the table of one process by descriptors of terminals that exist. -/
theorem fds_update {pid : ℕ} {l : List (ℕ × DevFd)} (hl : ∀ e ∈ l, s.TtyLive e.2.tty) (q : ℕ)
    (e : ℕ × DevFd) (he : e ∈ update s.fds pid l q) : s.TtyLive e.2.tty := by
  rw [update_apply] at he
  split_ifs at he
  · exact hl e he
  · exact ttyLive_of_mem he

theorem quiet_procs (hkey : procs.Keyed) (href : procs.nextRef = s.procs.nextRef)
    (hmem : ∀ x ∈ procs, s.SessionLive x.session.ref ∧ s.SessionLive x.pgrp.session.ref) :
    Quiet s { s with procs := procs } where
  keyed := hkey
  nextRef := href
  nextTty := rfl
  session r hr := by
    obtain ⟨x, hx, rfl | rfl⟩ := hr
    · exact (hmem x hx).1
    · exact (hmem x hx).2
  fds pid e he := ttyLive_of_mem he
  registry n t h := h
  owner := rfl
  ctty := rfl

theorem sessionLive_of_mem (hx : x ∈ s.procs) :
    s.SessionLive x.session.ref ∧ s.SessionLive x.pgrp.session.ref :=
  ⟨⟨x, hx, .inl rfl⟩, ⟨x, hx, .inr rfl⟩⟩

theorem sessionLive_of_thins (h : Procs.Thins s.procs procs) (hx : x ∈ procs) :
    s.SessionLive x.session.ref ∧ s.SessionLive x.pgrp.session.ref := by
  obtain ⟨y, hy, -, hpgrp, hsession, -⟩ := h.mem x hx
  rw [← hpgrp, ← hsession]
  exact sessionLive_of_mem hy

theorem sessionLive_of_fork (hme : me ∈ s.procs) (hx : x ∈ s.procs.fork me) :
    s.SessionLive x.session.ref ∧ s.SessionLive x.pgrp.session.ref := by
  rcases Procs.mem_put.mp hx with rfl | ⟨hx, -⟩
  · exact ⟨⟨me, hme, .inl rfl⟩, ⟨me, hme, .inr rfl⟩⟩
  · exact sessionLive_of_mem hx

theorem quiet_fork (hkey : s.procs.Keyed) (hme : me ∈ s.procs) : Quiet s (s.fork me) := by
  have h := quiet_procs (hkey.put _) rfl fun x hx => sessionLive_of_fork hme hx
  exact { h with fds := fds_update fun e he => ttyLive_of_mem he }

theorem quiet_setpgid {pid pgrp : ℤ} (hkey : s.procs.Keyed) (hme : me ∈ s.procs)
    (h : s.procs.doSetpgid me pid pgrp = .ok procs) : Quiet s { s with procs := procs } := by
  rcases Procs.doSetpgid_cases hkey hme h with rfl | ⟨t, ht, g, -, -, rfl⟩
  · exact quiet_procs hkey rfl fun x hx => sessionLive_of_mem hx
  · refine quiet_procs (hkey.put _) rfl fun x hx => ?_
    rcases Procs.mem_put.mp hx with rfl | ⟨hx, -⟩
    · exact ⟨(sessionLive_of_mem ht).1, (sessionLive_of_mem ht).1⟩
    · exact sessionLive_of_mem hx

theorem quiet_reap (hkey : s.procs.Keyed) (me : Task) (pid : ℕ) :
    Quiet s { s with procs := s.procs.reap me pid } := by
  have hthins := Procs.thins_reap s.procs me pid
  exact quiet_procs (hthins.keyed hkey) hthins.nextRef fun x hx => sessionLive_of_thins hthins hx

theorem onClose_some {e : DevFd} {registry : ℕ → Option ℕ} {t : ℕ}
    (h : s.onClose e registry n = some t) : registry n = some t := by
  rw [onClose] at h
  split_ifs at h
  · rw [update_apply] at h
    split_ifs at h
    exact h
  · exact h

theorem foldl_onClose_some {l : List (ℕ × DevFd)} {registry : ℕ → Option ℕ} {t : ℕ}
    (h : l.foldl (fun registry e => s.onClose e.2 registry) registry n = some t) :
    registry n = some t := by
  induction l generalizing registry with
  | nil => exact h
  | cons e l ih => exact onClose_some (ih h)

theorem quiet_exit (hkey : s.procs.Keyed) (hme : me ∈ s.procs) : Quiet s (s.exit me) := by
  have hthins := Procs.thins_exit hme
  have h := quiet_procs (hthins.keyed hkey) hthins.nextRef
    fun x hx => sessionLive_of_thins hthins hx
  exact { h with
    fds := fds_update fun e he => absurd he List.not_mem_nil
    registry := fun n t => foldl_onClose_some }

theorem quiet_close (hkey : s.procs.Keyed) (me : Task) (fd : ℕ) : Quiet s (s.close me fd) := by
  have h := quiet_procs hkey rfl fun x hx => sessionLive_of_mem hx
  rw [close]
  split
  · exact h
  · exact { h with
      fds := fds_update fun e he => ttyLive_of_mem (List.mem_filter.mp he).1
      registry := fun n t => onClose_some }

theorem quiet_addFd {t : ℕ} (hkey : s.procs.Keyed) (ht : s.TtyLive t) (me : Task) :
    Quiet s (s.addFd me fd ⟨t, false⟩) := by
  have h := quiet_procs hkey rfl fun x hx => sessionLive_of_mem hx
  refine { h with fds := fds_update fun e he => ?_ }
  rcases List.mem_cons.mp he with rfl | he
  · exact ht
  · exact ttyLive_of_mem he

theorem quiet_openPts (hkey : s.procs.Keyed) (me : Task) (fd ptn : ℕ) :
    Quiet s ((s.openPts me fd ptn).getD s) := by
  rw [openPts]
  cases hreg : s.registry ptn with
  | none => exact quiet_procs hkey rfl fun x hx => sessionLive_of_mem hx
  | some t => exact quiet_addFd hkey (.inl ⟨ptn, hreg⟩) me

theorem quiet_openTty (hkey : s.procs.Keyed) (hme : me ∈ s.procs) (fd : ℕ) :
    Quiet s ((s.openTty me fd).getD s) := by
  have hrefl : Quiet s s := quiet_procs hkey rfl fun x hx => sessionLive_of_mem hx
  rw [openTty]
  cases hctty : s.ctty me.session.ref with
  | none => exact hrefl
  | some t =>
    rw [Option.bind_some]
    split_ifs
    · exact quiet_addFd hkey (.inr (.inr ⟨_, (sessionLive_of_mem hme).1, hctty⟩)) me
    · exact hrefl

/-! ## The calls that make an object -/

theorem keeps_setsid (hkey : s.procs.Keyed) (h : s.procs.doSetsid me = .ok (n, procs)) :
    Keeps s { s with
      procs := procs, ctty := update s.ctty s.procs.nextRef none } := by
  obtain ⟨-, -, rfl⟩ := Procs.doSetsid_ok h
  have hctty : ∀ r, update s.ctty s.procs.nextRef none r = s.ctty r ∨
      r = s.procs.nextRef ∧ update s.ctty s.procs.nextRef none r = none := by
    intro r
    rw [update_apply]
    split_ifs with hr
    · exact .inr ⟨hr, rfl⟩
    · exact .inl rfl
  have hsession : ∀ r, SessionLive { s with
      procs := { s.procs.put { me with pgrp := ⟨me.pid, ⟨s.procs.nextRef, me.pid⟩⟩
                                       session := ⟨s.procs.nextRef, me.pid⟩ } with
        nextRef := s.procs.nextRef + 1 }
      ctty := update s.ctty s.procs.nextRef none } r →
      s.SessionLive r ∨ r = s.procs.nextRef := by
    rintro r ⟨x, hx, hr⟩
    rcases Procs.mem_put.mp hx with rfl | ⟨hx, -⟩
    · right
      rcases hr with hr | hr <;> exact hr.symm
    · exact .inl ⟨x, hx, hr⟩
  constructor
  case keyed => exact hkey.put _
  case nextRef => exact le_succ _
  case nextTty => exact le_refl _
  case session =>
    intro r hr
    rcases hsession r hr with hr | rfl
    · exact .inl hr
    · exact .inr ⟨rfl, lt_succ_self _, update_self ..⟩
  case tty =>
    rintro t (⟨n, hn⟩ | ⟨pid, e, he, rfl⟩ | ⟨r, hr, hc⟩)
    · exact .inl (.inl ⟨n, hn⟩)
    · exact .inl (ttyLive_of_mem he)
    · rcases hctty r with heq | ⟨-, hnone⟩
      · have hc' : s.ctty r = some t := heq ▸ hc
        rcases hsession r hr with hr | rfl
        · exact .inl (.inr (.inr ⟨r, hr, hc'⟩))
        · have hc'' : update s.ctty s.procs.nextRef none s.procs.nextRef = some t := hc
          rw [update_self] at hc''
          cases hc''
      · cases hnone.symm.trans hc
  case owner => exact fun t => .inl rfl
  case ctty => exact hctty

theorem keeps_openPtmx (hkey : s.procs.Keyed) (me : Task) (fd ptn : ℕ) :
    Keeps s (s.openPtmx me fd ptn) := by
  have hnew : s.nextTty < (s.openPtmx me fd ptn).nextTty ∧
      (s.openPtmx me fd ptn).owner s.nextTty = none :=
    ⟨lt_succ_self _, update_self ..⟩
  constructor
  case keyed => exact hkey
  case nextRef => exact le_refl _
  case nextTty => exact le_succ _
  case session => exact fun r hr => .inl hr
  case tty =>
    rintro t (⟨n, hn⟩ | ⟨pid, e, he, rfl⟩ | ⟨r, hr, hc⟩)
    · have hn' : update s.registry ptn (some s.nextTty) n = some t := hn
      rw [update_apply] at hn'
      split_ifs at hn'
      · cases hn'
        exact .inr ⟨rfl, hnew⟩
      · exact .inl (.inl ⟨n, hn'⟩)
    · have he' : e ∈ update s.fds me.pid ((fd, ⟨s.nextTty, true⟩) :: s.fds me.pid) pid :=
        he
      rw [update_apply] at he'
      split_ifs at he'
      · rcases List.mem_cons.mp he' with rfl | he'
        · exact .inr ⟨rfl, hnew⟩
        · exact .inl (ttyLive_of_mem he')
      · exact .inl (ttyLive_of_mem he')
    · exact .inl (.inr (.inr ⟨r, hr, hc⟩))
  case owner =>
    intro t
    show update s.owner s.nextTty none t = s.owner t ∨ _
    rw [update_apply]
    split_ifs with ht
    · exact .inr ⟨ht, ht ▸ hnew.2⟩
    · exact .inl rfl
  case ctty => exact fun r => .inl rfl

/-! ## Binding a terminal -/

section Bind

/- Binding `t` after the session that had it, if there was one, has been made to lose it. -/
variable {t : ℕ} {ctty : ℕ → Option ℕ} (hlose : ∀ r u, r ≠ me.session.ref → s.SessionLive r →
  (ctty r = some u ↔ s.ctty r = some u ∧ u ≠ t)) (ht : s.TtyLive t)
include hlose ht

theorem bind_ttyLive {u : ℕ} (hu : ({ s with ctty := ctty }.bind me t).TtyLive u) :
    s.TtyLive u := by
  rcases hu with hu | hu | ⟨r, hr, hc⟩
  · exact .inl hu
  · exact .inr (.inl hu)
  · have hc' : update ctty me.session.ref (some t) r = some u := hc
    rw [update_apply] at hc'
    split_ifs at hc' with hme
    · cases hc'
      exact ht
    · exact .inr (.inr ⟨r, hr, ((hlose r u hme hr).mp hc').1⟩)

theorem Based.bind (h : s.Based) (hme : me ∈ s.procs) :
    ({ s with ctty := ctty }.bind me t).Based where
  keyed := h.keyed
  session_lt := h.session_lt
  tty_lt u hu := h.tty_lt u (bind_ttyLive hlose ht hu)
  owner_lt u r hr := by
    have hr' : update s.owner t (some me.session.ref) u = some r := hr
    rw [update_apply] at hr'
    split_ifs at hr'
    · cases hr'
      exact h.session_lt _ (sessionLive_of_mem hme).1
    · exact h.owner_lt u r hr'

theorem Agree.bind (h : s.Agree) (hme : me ∈ s.procs) (hnone : s.ctty me.session.ref = none) :
    ({ s with ctty := ctty }.bind me t).Agree := by
  intro u hu
  have hold := bind_ttyLive hlose ht hu
  have hlive := (sessionLive_of_mem hme).1
  show (∀ r, update s.owner t (some me.session.ref) u = some r → s.SessionLive r) ∧
    ∀ r, s.SessionLive r → (update s.owner t (some me.session.ref) u = some r ↔
      update ctty me.session.ref (some t) r = some u)
  simp only [update_apply]
  by_cases hut : u = t
  · subst hut
    simp only [if_true]
    refine ⟨fun r hr => Option.some.inj hr ▸ hlive, fun r hr => ?_⟩
    split_ifs with hrme
    · simp [hrme]
    · constructor
      · intro heq
        exact absurd (Option.some.inj heq).symm hrme
      · intro hc
        exact absurd rfl ((hlose r u hrme hr).mp hc).2
  · simp only [if_neg hut]
    refine ⟨(h u hold).1, fun r hr => ?_⟩
    rw [(h u hold).2 r hr]
    split_ifs with hrme
    · rw [hrme, hnone]
      simp [Ne.symm hut]
    · rw [hlose r u hrme hr]
      simp [hut]

end Bind

/-- What `TIOCSCTTY` does when it succeeds. -/
theorem tiocsctty_cases {force : ℤ} (h : s.tiocsctty me fd force = .ok s') :
    ∃ t, s.guestTty me fd = some t ∧ (s' = s ∧ s.ctty me.session.ref = some t ∨
      s.ctty me.session.ref ≠ some t ∧ ∃ ctty, s' = { s with ctty := ctty }.bind me t ∧
        (ctty = s.ctty ∧ (s.owner t = none ∨ s.owner t = some me.session.ref) ∨
          ∃ r, s.owner t = some r ∧ r ≠ me.session.ref ∧
            ctty = update s.ctty r none)) := by
  rw [tiocsctty] at h
  split at h
  · cases h
  rename_i t ht
  refine ⟨t, ht, ?_⟩
  by_cases hsid : me.session.sid ≠ me.pid
  · rw [if_pos hsid] at h
    cases h
  rw [if_neg hsid] at h
  by_cases hsame : s.ctty me.session.ref = some t
  · rw [if_pos hsame] at h
    cases h
    exact .inl ⟨rfl, hsame⟩
  rw [if_neg hsame] at h
  refine .inr ⟨hsame, ?_⟩
  cases howner : s.owner t with
  | none =>
    simp only [howner] at h
    cases h
    exact ⟨s.ctty, rfl, .inl ⟨rfl, .inl rfl⟩⟩
  | some r =>
    simp only [howner] at h
    split_ifs at h with hr
    · cases h
      exact ⟨s.ctty, rfl, .inl ⟨rfl, .inr (hr ▸ rfl)⟩⟩
    · cases h
      exact ⟨_, rfl, .inr ⟨r, rfl, hr, rfl⟩⟩

theorem ttyLive_of_guestTty {t : ℕ} (h : s.guestTty me fd = some t) : s.TtyLive t := by
  obtain ⟨e, he, rfl⟩ := Option.map_eq_some_iff.mp h
  obtain ⟨l, r, heq, -⟩ := List.lookup_eq_some_iff.mp he
  exact @ttyLive_of_mem s me.pid (fd, e) (by rw [heq]; simp)

/-- The maps that are written have no other session with the terminal. -/
theorem Agree.lose {t : ℕ} {ctty : ℕ → Option ℕ} (h : s.Agree) (ht : s.TtyLive t)
    (hc : ctty = s.ctty ∧ (s.owner t = none ∨ s.owner t = some me.session.ref) ∨
      ∃ r, s.owner t = some r ∧ r ≠ me.session.ref ∧ ctty = update s.ctty r none)
    (r u : ℕ) (hr : r ≠ me.session.ref) (hlive : s.SessionLive r) :
    ctty r = some u ↔ s.ctty r = some u ∧ u ≠ t := by
  have hiff := (h t ht).2 r hlive
  have hkeep (hnot : s.ctty r ≠ some t) : s.ctty r = some u ↔ s.ctty r = some u ∧ u ≠ t := by
    refine ⟨fun hold => ⟨hold, ?_⟩, fun hold => hold.1⟩
    rintro rfl
    exact hnot hold
  rcases hc with ⟨rfl, howner⟩ | ⟨r₀, howner, hr₀, rfl⟩
  · refine hkeep fun hc => ?_
    rcases howner with hnone | hme
    · cases hnone.symm.trans (hiff.mpr hc)
    · exact hr (Option.some.inj (hme.symm.trans (hiff.mpr hc))).symm
  · rw [update_apply]
    split_ifs with hrr
    · subst hrr
      have hc := hiff.mp howner
      rw [hc]
      simp [eq_comm]
    · exact hkeep fun hc => hrr (Option.some.inj (howner.symm.trans (hiff.mpr hc))).symm

/-! ## Every sequence of calls -/

/-- The condition under which the relation holds: a session asks for a terminal only if it has
none, or that one, and no session ends while a terminal that stays names it. -/
structure Meets (s : Terminals) (c : ℕ × TtyCall) : Prop where
  unbound : ∀ me ∈ s.procs, me.pid = c.1 → ∀ fd force t, c.2 = .tiocsctty fd force →
    s.guestTty me fd = some t →
      s.ctty me.session.ref = none ∨ s.ctty me.session.ref = some t
  outlived : ∀ s', s.step c = some s' → Outlived s s'

theorem keeps_refl (hkey : s.procs.Keyed) : Keeps s s :=
  (quiet_procs hkey rfl fun _ hx => sessionLive_of_mem hx).keeps

/-- Every call but `TIOCSCTTY`. -/
theorem keeps_call {c : TtyCall} (hkey : s.procs.Keyed) (hme : me ∈ s.procs)
    (hc : ∀ fd force, c ≠ .tiocsctty fd force) : Keeps s (s.call me c) := by
  cases c with
  | fork => exact (quiet_fork hkey hme).keeps
  | setpgid pid pgrp =>
    rw [call]
    split
    · exact keeps_refl hkey
    · exact (quiet_setpgid hkey hme ‹_›).keeps
  | setsid =>
    rw [call]
    split
    · exact keeps_refl hkey
    · exact keeps_setsid hkey ‹_›
  | exit => exact (quiet_exit hkey hme).keeps
  | reap pid => exact (quiet_reap hkey me pid).keeps
  | openPtmx fd ptn => exact keeps_openPtmx hkey me fd ptn
  | openPts fd ptn => exact (quiet_openPts hkey me fd ptn).keeps
  | openTty fd => exact (quiet_openTty hkey hme fd).keeps
  | close fd => exact (quiet_close hkey me fd).keeps
  | tiocsctty fd force => exact absurd rfl (hc fd force)
  | tiocnotty fd => exact keeps_refl hkey

theorem Agree.step {c : ℕ × TtyCall} (hb : s.Based) (h : s.Agree) (hs : s.step c = some s')
    (hc : s.Meets c) : s'.Based ∧ s'.Agree := by
  have houtlived := hc.outlived s' hs
  rw [Terminals.step] at hs
  split at hs
  · cases hs
  rename_i me hfind
  have hme : me ∈ s.procs := hb.keyed.mem hfind
  have hpid : me.pid = c.1 := hb.keyed c.1 me hfind
  split_ifs at hs
  cases hs
  by_cases hbind : ∃ fd force, c.2 = .tiocsctty fd force
  · obtain ⟨fd, force, hcall⟩ := hbind
    rw [hcall, call]
    split
    · exact ⟨hb, h⟩
    rename_i s₁ hok
    obtain ⟨t, ht, ⟨rfl, -⟩ | ⟨hne, ctty, rfl, hlose⟩⟩ := tiocsctty_cases hok
    · exact ⟨hb, h⟩
    · have hlive := ttyLive_of_guestTty ht
      have hnone : s.ctty me.session.ref = none := by
        rcases hc.unbound me hme hpid fd force t hcall ht with hnone | hsame
        · exact hnone
        · exact absurd hsame hne
      have hlost := h.lose hlive hlose
      exact ⟨hb.bind hlost hlive hme, h.bind hlost hlive hme hnone⟩
  · have hk := keeps_call hb.keyed hme fun fd force heq => hbind ⟨fd, force, heq⟩
    exact ⟨hb.keeps hk, h.keeps hb hk houtlived⟩

theorem sessionLive_start {r : ℕ} (h : (start pty).SessionLive r) : r = 0 := by
  have hprocs : (start pty).procs = Procs.init := by
    cases pty <;> rfl
  obtain ⟨x, hx, hr⟩ := h
  have hx' : (start pty).procs.pidMap x.pid = some x := hx
  rw [hprocs, Procs.init] at hx'
  dsimp only at hx'
  split_ifs at hx'
  rw [← Option.some.inj hx'] at hr
  rcases hr with hr | hr <;> exact hr.symm

/-- At the start only the terminal of the first session, if there is one. -/
theorem ttyLive_start {t : ℕ} (h : (start pty).TtyLive t) :
    t = 0 ∧ (start pty).nextTty = 1 ∧ (start pty).owner 0 = some 0 ∧
      (start pty).ctty 0 = some 0 := by
  cases pty with
  | none => rcases h with ⟨n, hn⟩ | ⟨pid, e, he, -⟩ | ⟨r, -, hr⟩ <;> contradiction
  | some ptn =>
    refine ⟨?_, rfl, rfl, rfl⟩
    rcases h with ⟨n, hn⟩ | ⟨pid, e, he, rfl⟩ | ⟨r, -, hr⟩
    · simp only [start] at hn
      split_ifs at hn
      exact (Option.some.inj hn).symm
    · simp only [start] at he
      split_ifs at he
      · simp only [List.mem_cons, List.not_mem_nil, or_false] at he
        rcases he with rfl | rfl | rfl <;> rfl
      · cases he
    · simp only [start] at hr
      split_ifs at hr
      exact (Option.some.inj hr).symm

theorem based_start (pty : Option ℕ) : (start pty).Based := by
  have hprocs : (start pty).procs = Procs.init := by
    cases pty <;> rfl
  constructor
  · rw [hprocs]
    exact Procs.ok_init.keyed
  · intro r hr
    rw [sessionLive_start hr, hprocs]
    decide
  · intro t ht
    obtain ⟨rfl, hnext, -⟩ := ttyLive_start ht
    rw [hnext]
    decide
  · intro t r hr
    have hr0 : r = 0 := by
      cases pty with
      | none => cases hr
      | some ptn =>
        simp only [start] at hr
        split_ifs at hr
        exact (Option.some.inj hr).symm
    rw [hr0, hprocs]
    decide

theorem agree_start (pty : Option ℕ) : (start pty).Agree := by
  intro t ht
  obtain ⟨rfl, -, howner, hctty⟩ := ttyLive_start ht
  refine ⟨fun r hr => ?_, fun r hr => ?_⟩
  · rw [howner] at hr
    cases hr
    refine ⟨⟨1, 1, 0, ⟨1, ⟨0, 1⟩⟩, ⟨0, 1⟩, false⟩, ?_, .inl rfl⟩
    cases pty <;> rfl
  · rw [sessionLive_start hr, howner, hctty]

theorem agree_of_run {cs : List (ℕ × TtyCall)}
    (hrun : Run (fun s c s' => s.step c = some s' ∧ s.Meets c) (start pty) cs s) :
    s.Based ∧ s.Agree :=
  hrun.invariant (P := fun s => s.Based ∧ s.Agree) ⟨based_start pty, agree_start pty⟩
    fun _ _ _ h hs => h.2.step h.1 hs.1 hs.2

end Terminals

/-- Along every sequence of calls in which a session asks for a terminal only if it has none and
no session ends while a terminal that stays names it: a terminal names a session exactly if that
session has it, no terminal names a session that is gone, and two sessions never have the same
terminal. -/
theorem ctty_owner_agree {pty : Option ℕ} {cs : List (ℕ × TtyCall)} {s : Terminals}
    (hrun : Run (fun s c s' => s.step c = some s' ∧ s.Meets c) (Terminals.start pty) cs s) :
    s.Agree ∧ ∀ t r r', s.SessionLive r → s.SessionLive r' → s.ctty r = some t →
      s.ctty r' = some t → r = r' := by
  have h := (Terminals.agree_of_run hrun).2
  refine ⟨h, fun t r r' hr hr' hc hc' => ?_⟩
  have ht : s.TtyLive t := .inr (.inr ⟨r, hr, hc⟩)
  have howner := ((h t ht).2 r hr).mpr hc
  have howner' := ((h t ht).2 r' hr').mpr hc'
  exact Option.some.inj (howner.symm.trans howner')

/-- The first process opens a terminal, makes it that of its session, opens it again as `/dev/tty`,
closes the master and asks for it once more. -/
theorem ctty_owner_agree_bound :
    ∃ s, Run (fun s c s' => Terminals.step s c = some s' ∧ s.Meets c) (Terminals.start none)
      [(1, .openPtmx 3 6), (1, .tiocsctty 3 0), (1, .openTty 4), (1, .close 3),
        (1, .tiocsctty 4 0)] s ∧ s.Agree ∧ s.owner 0 = some 0 := by
  have hstay {s s' : Terminals} {c : ℕ × TtyCall} (hs : s.step c = some s')
      (hprocs : s'.procs = s.procs) : ∀ s'', s.step c = some s'' → Terminals.Outlived s s'' := by
    intro s'' hs'' t r _ _ hr
    cases hs.symm.trans hs''
    rw [Terminals.SessionLive, hprocs]
    exact hr
  obtain ⟨s, hrun, howner⟩ : ∃ s, Run (fun s c s' => Terminals.step s c = some s' ∧ s.Meets c)
      (Terminals.start none) [(1, .openPtmx 3 6), (1, .tiocsctty 3 0), (1, .openTty 4),
        (1, .close 3), (1, .tiocsctty 4 0)] s ∧ s.owner 0 = some 0 := by
    refine ⟨_, .cons ⟨rfl, nofun, hstay rfl rfl⟩ (.cons ⟨rfl, fun _ _ _ _ _ _ _ _ => .inl rfl,
      hstay rfl rfl⟩ (.cons ⟨rfl, nofun, hstay rfl rfl⟩ (.cons ⟨rfl, nofun, hstay rfl rfl⟩
      (.single ⟨rfl, fun me hm hpid fd force t hc ht => ?_, hstay rfl rfl⟩)))), rfl⟩
    have hme : Procs.init.pidMap me.pid = some me := hm
    rw [hpid] at hme
    cases hme
    cases hc
    cases ht
    exact .inr rfl
  exact ⟨s, hrun, (ctty_owner_agree hrun).1, howner⟩

/-- A session that has a terminal takes another one: the first still names it. And a session
whose only process is gone is still named by a terminal that another process has open. -/
theorem ctty_owner_stale :
    (∃ s, Run (fun s c s' => Terminals.step s c = some s') (Terminals.start (some 5))
        [(1, .openPtmx 3 6), (1, .tiocsctty 3 0)] s ∧
      s.TtyLive 0 ∧ s.SessionLive 0 ∧ s.owner 0 = some 0 ∧ s.ctty 0 = some 1) ∧
    ∃ s, Run (fun s c s' => Terminals.step s c = some s') (Terminals.start none)
        [(1, .openPtmx 3 6), (1, .fork), (2, .setsid), (2, .openPts 4 6), (2, .tiocsctty 4 0),
          (2, .exit), (1, .reap 2)] s ∧
      s.TtyLive 0 ∧ s.owner 0 = some 1 ∧ ¬ s.SessionLive 1 := by
  refine ⟨⟨_, Run.of_foldlM rfl, .inl ⟨5, rfl⟩,
    ⟨⟨1, 1, 0, ⟨1, ⟨0, 1⟩⟩, ⟨0, 1⟩, false⟩, rfl, .inl rfl⟩, rfl, rfl⟩, ?_⟩
  refine ⟨_, Run.of_foldlM rfl, .inl ⟨6, rfl⟩, rfl, ?_⟩
  rintro ⟨x, hx, hr⟩
  have hx' : Procs.pidMap _ x.pid = some x := hx
  generalize x.pid = p at hx'
  match p with
  | 0 => cases hx'
  | 1 =>
    cases hx'
    rcases hr with hr | hr <;> cases hr
  | 2 => cases hx'
  | n + 3 => cases hx'

end Bpfvm.Posix
