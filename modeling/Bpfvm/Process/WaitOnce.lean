import Bpfvm.Process.WaitFrame

/-!
# Every event of a child is handed out once

A ledger follows the events of the children: which stops are reported and not yet taken,
with which signal each group was stopped last, which groups have ended with which code,
whose end has been taken, and what each caller has taken and not yet returned. It refuses
an event taken twice, an event returned by a caller that did not take it, one taken by a
caller with `WNOWAIT`, and one that does not show the child as it is.
-/
namespace Bpfvm.Process
open Function Waiting

@[ext]
structure Ledger where
  outstanding : ℕ → Bool
  sig : ℕ → U32
  ended : ℕ → Option U32
  taken : ℕ → Bool
  /-- the child whose event a caller has taken, and whether it is its end -/
  holds : ℕ → Option (ℕ × Bool)

namespace Ledger

/-- The event shows its child: the code it ended with, or the signal it was stopped with. -/
def shows (L : Ledger) (ev : WaitEvent) : Bool :=
  if ev.exited then (L.ended ev.child).map (BitVec.signExtend 64) = some ev.exitCode
  else ev.stopSig = L.sig ev.child

def next (L : Ledger) : Note → Option Ledger
  | .reported g =>
    if L.outstanding g then none
    else some { L with outstanding := update L.outstanding g true }
  | .stopSig g sig => some { L with sig := update L.sig g sig }
  | .published g code =>
    if L.ended g = none then some { L with ended := update L.ended g (some code) }
    else if L.ended g = some code then some L else none
  | .tookStop t p =>
    if L.outstanding p ∧ L.holds t = none then
      some { L with
        outstanding := update L.outstanding p false
        holds := update L.holds t (some (p, false)) }
    else none
  | .tookExit t p =>
    if L.ended p ≠ none ∧ L.taken p = false ∧ L.holds t = none then
      some { L with
        taken := update L.taken p true
        holds := update L.holds t (some (p, true)) }
    else none
  | .event t nowait ev =>
    if L.shows ev ∧ L.holds t = (if nowait then none else some (ev.child, ev.exited)) then
      some { L with holds := update L.holds t none }
    else none

def init : Ledger := ⟨fun _ => false, fun _ => -1, fun _ => none, fun _ => false, fun _ => none⟩

end Ledger

/-- The event a thread has taken and not yet returned. -/
def Pc.holding : Pc → Option (ℕ × Bool)
  | .look .code w _ p _ => if w.nowait then none else some (p, true)
  | .look .sig w _ p _ => if w.nowait then none else some (p, false)
  | _ => none

/-- Inside `claim_one`, under `pid_map_mutex`. -/
def Pc.inClaim : Pc → Bool
  | .scan .. => true
  | .look .. => true
  | _ => false

/-- The ledger of a state. -/
def Waiting.ledger (s : Waiting) : Ledger where
  outstanding g := (s.procs.group g).stopReported
  sig g := (s.procs.group g).stopSig
  ended g := if (s.procs.group g).exited then some (s.procs.group g).exitCode else none
  taken p := s.procs.reaped p
  holds t := (s.pc t).holding

/-- What a thread knows at the place where it is. -/
def Pc.Knows (s : Procs) : Pc → Prop
  | .storeStopped g _ => g < s.nextPid
  | .storeSig g _ => g < s.nextPid
  | .report g => g < s.nextPid
  | .storeExited g => g < s.nextPid ∧ g ≠ 0 ∧ (s.group g).exitCode ≠ -1
  | .notify g fini => fini → g ≠ 0
  | .wake g fini _ => fini → g ≠ 0
  | .reparent g => g ≠ 0
  | .claim w _ => w.me ≠ 0
  | .scan w _ _ rest => w.me ≠ 0 ∧ ∀ q ∈ rest, q ∈ s.pidMap
  | .look .code _ _ p _ => (s.group p).exited
  | .look stage w _ p rest => w.me ≠ 0 ∧ p < s.nextPid ∧ (∀ q ∈ rest, q ∈ s.pidMap) ∧
      (stage = .exited → 1 < p ∧ s.tgid p = p ∧ p ∈ s.pidMap) ∧ (stage = .take → w.nowait = false)
  | .head w => w.me ≠ 0
  | .snapshot w => w.me ≠ 0
  | .block w _ => w.me ≠ 0
  | .register w _ _ _ => w.me ≠ 0
  | .check _ w _ _ _ _ => w.me ≠ 0
  | .asleep w _ => w.me ≠ 0
  | .unblock w _ => w.me ≠ 0
  | .remove w _ => w.me ≠ 0
  | .run => True

/-- The states of a run. -/
structure Sound (s : Waiting) : Prop where
  wf : s.procs.Wf
  held : ∀ t, (s.pc t).inClaim → s.lock = some t
  knows : ∀ t, (s.pc t).Knows s.procs

variable {s s' : Waiting} {t : ℕ}

variable {pc : Pc} {g p : ℕ} {rest : List ℕ} {first : Bool} {w : WaitArgs}

theorem Pc.Knows.keep {p p' : Procs} (h : pc.Knows p) (hg : p.Grows p')
    (hm : pc.inClaim → p'.pidMap = p.pidMap) : pc.Knows p' := by
  have hn := hg.nextPid
  cases pc
  case storeExited g =>
    obtain ⟨h1, h2, h3⟩ := h
    exact ⟨by omega, h2, by rw [hg.exitCode g h3]; exact h3⟩
  case scan w first any rest =>
    refine ⟨h.1, ?_⟩
    rw [hm rfl]
    exact h.2
  case look stage w first q rest =>
    have hm' := hm rfl
    cases stage
    case code => exact hg.exited q h
    all_goals
      obtain ⟨h1, h2, h3, h4, h5⟩ := h
      refine ⟨h1, by omega, hm' ▸ h3, fun he => ?_, h5⟩
    case exited => exact ⟨(h4 he).1, (hg.tgid q h2).trans (h4 he).2.1, hm' ▸ (h4 he).2.2⟩
    all_goals cases he
  case storeStopped g sig => exact lt_of_lt_of_le h hn
  case storeSig g sig => exact lt_of_lt_of_le h hn
  case report g => exact lt_of_lt_of_le h hn
  all_goals exact h

/-- A step of `t` from the point of view of the others. -/
theorem Sound.step (h : Sound s) (t : ℕ) (hw : s'.procs.Wf) (hg : s.procs.Grows s'.procs)
    (hpc : ∀ u, u ≠ t → s'.pc u = s.pc u)
    (hlock : ∀ u, u ≠ t → s.lock = some u → s'.lock = some u ∧ s'.procs.pidMap = s.procs.pidMap)
    (hheld : (s'.pc t).inClaim → s'.lock = some t) (hself : (s'.pc t).Knows s'.procs) :
    Sound s' := by
  refine ⟨hw, fun u hu => ?_, fun u => ?_⟩
  · by_cases hut : u = t
    · exact hut ▸ hheld (hut ▸ hu)
    · rw [hpc u hut] at hu
      exact (hlock u hut (h.held u hu)).1
  · by_cases hut : u = t
    · exact hut ▸ hself
    · rw [hpc u hut]
      exact (h.knows u).keep hg fun hc => (hlock u hut (h.held u hc)).2

/-- A step keeps the states of a run sound, the ledger follows what it shows, and no other thread
than `o` is moved. -/
def Counted (o : Option ℕ) (s : Waiting) (es : List Note) (s' : Waiting) : Prop :=
  Sound s' ∧ es.foldlM Ledger.next s.ledger = some s'.ledger ∧ ∀ u, o ≠ some u → s'.pc u = s.pc u

theorem pc_unmoved {f : ℕ → Pc} (u : ℕ) (hu : some t ≠ some u) : update f t pc u = f u :=
  update_of_ne (fun he => hu (congrArg some he.symm)) ..

/-- The ledger does not see a quiet step in which nothing is taken or returned. -/
theorem ledger_quiet (hw : s.procs.Wf) (hq : s.procs.Quiet s'.procs)
    (hpc : ∀ u, (s'.pc u).holding = (s.pc u).holding) : s'.ledger = s.ledger := by
  have hend : ∀ g, (if (s'.procs.group g).exited then some (s'.procs.group g).exitCode else none) =
      if (s.procs.group g).exited then some (s.procs.group g).exitCode else none := by
    intro g
    rw [hq.exited_eq g]
    split
    · rename_i hx
      rw [hq.exitCode g (hw.code g hx)]
    · rfl
  simp only [ledger, hq.stopReported, hq.stopSig, hend, hq.reaped, hpc]

/-- A quiet step of `t` in which it takes and returns nothing. -/
theorem counted_quiet (h : Sound s) (t : ℕ) (hw : s'.procs.Wf) (hq : s.procs.Quiet s'.procs)
    (hpc : ∀ u, u ≠ t → s'.pc u = s.pc u)
    (hlock : ∀ u, u ≠ t → s.lock = some u → s'.lock = some u ∧ s'.procs.pidMap = s.procs.pidMap)
    (hheld : (s'.pc t).inClaim → s'.lock = some t) (hself : (s'.pc t).Knows s'.procs)
    (hh : (s'.pc t).holding = (s.pc t).holding) : Counted (some t) s [] s' := by
  refine ⟨h.step t hw hq.toGrows hpc hlock hheld hself, congrArg some (Eq.symm ?_),
    fun u hu => hpc u fun he => hu (he ▸ rfl)⟩
  refine ledger_quiet h.wf hq fun u => ?_
  by_cases hu : u = t
  · exact hu ▸ hh
  · rw [hpc u hu]

/-- A step that leaves the processes and moves `t` by the rules of the lock. -/
theorem counted_move (h : Sound s) {l : Option ℕ} {m : ℕ → Option ℕ} {ws : ℕ → List ℕ}
    {b f : ℕ → Bool} (hl : l = s.lock ∨ s.lock = none ∨ s.lock = some t)
    (hheld : pc.inClaim → l = some t) (hself : pc.Knows s.procs)
    (hh : pc.holding = (s.pc t).holding) :
    Counted (some t) s [] ⟨s.procs, l, m, ws, b, f, update s.pc t pc⟩ := by
  refine counted_quiet h t h.wf (.refl _) (fun u hu => update_of_ne hu ..)
    (fun u hu hlu => ⟨?_, rfl⟩) (by simpa using hheld) (by simpa using hself) (by simpa using hh)
  rcases hl with rfl | hl | hl
  · exact hlu
  · simp [hl] at hlu
  · rw [hl, Option.some.injEq] at hlu
    exact absurd hlu.symm hu

/-- A step that no thread inside one of the functions takes. -/
theorem Sound.still (h : Sound s) (hw : s'.procs.Wf) (hg : s.procs.Grows s'.procs)
    (hpc : s'.pc = s.pc)
    (hlock : ∀ u, s.lock = some u → s'.lock = some u ∧ s'.procs.pidMap = s.procs.pidMap) :
    Sound s' := by
  refine h.step 0 hw hg (fun u _ => congrFun hpc u) (fun u _ => hlock u) (fun hc => ?_) ?_
  · rw [hpc] at hc
    exact (hlock 0 (h.held 0 hc)).1
  · rw [hpc]
    exact (h.knows 0).keep hg fun hc => (hlock 0 (h.held 0 hc)).2

/-- A thread that goes on without the lock, or keeping it. -/
theorem counted_goto (h : Sound s) (hheld : pc.inClaim → (s.pc t).inClaim)
    (hself : pc.Knows s.procs) (hh : pc.holding = (s.pc t).holding) :
    Counted (some t) s [] (s.goto t pc) :=
  counted_move h (.inl rfl) (fun hc => h.held t (hheld hc)) hself hh

/-- A thread that goes on outside `claim_one`. -/
theorem counted_pass (h : Sound s) {pc₀ : Pc} {m : ℕ → Option ℕ} {ws : ℕ → List ℕ} {b f : ℕ → Bool}
    (hpc : s.pc t = pc₀) (h₀ : pc₀.holding = none) (hc : pc.inClaim = false)
    (hh : pc.holding = none) (hself : pc.Knows s.procs) :
    Counted (some t) s [] ⟨s.procs, s.lock, m, ws, b, f, update s.pc t pc⟩ :=
  counted_move h (.inl rfl) (by simp [hc]) hself (by rw [hpc, h₀, hh])

theorem Sound.store (h : Sound s) (hg : g < s.procs.nextPid) {f : ThreadGroup → ThreadGroup}
    (hp : (f (s.procs.group g)).ppid = (s.procs.group g).ppid)
    (he : (s.procs.group g).exited → (f (s.procs.group g)).exited)
    (hc : (f (s.procs.group g)).exitCode = (s.procs.group g).exitCode)
    (hx : (f (s.procs.group g)).exited → (s.procs.group g).exitCode ≠ -1)
    (hheld : pc.inClaim → s.lock = some t) (hself : pc.Knows (s.procs.setGroup g f)) :
    Sound ((s.setGroup g f).goto t pc) := by
  refine h.step t (wf_setGroup h.wf hg hp fun h => hc ▸ hx h) (grows_setGroup he fun _ => hc)
    (fun u hu => update_of_ne hu ..) (fun u _ hlu => ⟨hlu, rfl⟩) ?_ ?_
  · simpa [goto, setGroup] using hheld
  · simpa [goto, setGroup] using hself

theorem ledger_store (s : Waiting) (t g : ℕ) (f : ThreadGroup → ThreadGroup) (pc : Pc) :
    ((s.setGroup g f).goto t pc).ledger =
      { outstanding := update s.ledger.outstanding g (f (s.procs.group g)).stopReported
        sig := update s.ledger.sig g (f (s.procs.group g)).stopSig
        ended := update s.ledger.ended g (if (f (s.procs.group g)).exited then
          some (f (s.procs.group g)).exitCode else none)
        taken := s.ledger.taken
        holds := update s.ledger.holds t pc.holding } := by
  simp only [ledger, goto, setGroup, setGroup_group, Ledger.mk.injEq]
  refine ⟨?_, ?_, ?_, rfl, ?_⟩ <;> funext k <;> rw [update_apply] <;> split <;>
    simp_all

/-! ## The stores of `stop_process` and `fini` -/

theorem counted_storeStopped (h : Sound s) {sig : U32} (hpc : s.pc t = .storeStopped g sig) :
    Counted (some t) s []
      ((s.setGroup g fun k => { k with stopped := true }).goto t (.storeSig g sig)) := by
  have hg : g < s.procs.nextPid := by simpa [hpc, Pc.Knows] using h.knows t
  refine ⟨h.store hg rfl id rfl (h.wf.code g) (by simp [Pc.inClaim]) hg, ?_, pc_unmoved⟩
  rw [ledger_store]
  simp [ledger, Pc.holding, hpc]

theorem counted_storeSig (h : Sound s) {sig : U32} (hpc : s.pc t = .storeSig g sig) :
    Counted (some t) s [.stopSig g sig]
      ((s.setGroup g fun k => { k with stopSig := sig }).goto t (.report g)) := by
  have hg : g < s.procs.nextPid := by simpa [hpc, Pc.Knows] using h.knows t
  refine ⟨h.store hg rfl id rfl (h.wf.code g) (by simp [Pc.inClaim]) hg, ?_, pc_unmoved⟩
  rw [ledger_store]
  simp [Ledger.next, ledger, Pc.holding, hpc]

theorem counted_report (h : Sound s) (hpc : s.pc t = .report g)
    (hr : (s.procs.group g).stopReported = false) :
    Counted (some t) s [.reported g]
      ((s.setGroup g fun k => { k with stopReported := true }).goto t (.notify g false)) := by
  have hg : g < s.procs.nextPid := by simpa [hpc, Pc.Knows] using h.knows t
  refine ⟨h.store hg rfl id rfl (h.wf.code g) (by simp [Pc.inClaim]) (by simp [Pc.Knows]), ?_,
    pc_unmoved⟩
  rw [ledger_store]
  simp [Ledger.next, ledger, Pc.holding, hpc, hr]

theorem counted_storeExited (h : Sound s) (hpc : s.pc t = .storeExited g) :
    Counted (some t) s [.published g (s.procs.group g).exitCode]
      ((s.setGroup g fun k => { k with exited := true }).goto t (.notify g true)) := by
  obtain ⟨hg, h0, hc⟩ : g < s.procs.nextPid ∧ g ≠ 0 ∧ (s.procs.group g).exitCode ≠ -1 := by
    simpa [hpc, Pc.Knows] using h.knows t
  refine ⟨h.store hg rfl (fun _ => rfl) rfl (fun _ => hc) (by simp [Pc.inClaim])
    (by simpa [Pc.Knows] using h0), ?_, pc_unmoved⟩
  rw [ledger_store]
  simp only [List.foldlM_cons, List.foldlM_nil, Ledger.next]
  by_cases hx : (s.procs.group g).exited = true <;> simp [ledger, Pc.holding, hpc, hx]

theorem wf_reparent {p : Procs} (h : p.Wf) (hg : g ≠ 0) (t : ℕ) :
    ((p.reparent g).setPhase t .gone).Wf ∧ p.Quiet ((p.reparent g).setPhase t .gone) := by
  have hgrp : ∀ k, (p.reparent g).group k = p.group k ∨
      (p.group k).ppid = g ∧ k < p.nextPid ∧
      (p.reparent g).group k = { p.group k with ppid := 1 } := by
    intro k
    by_cases hk : (p.pidMap.any fun q => p.tgid q = k) ∧ (p.group k).ppid = g
    · obtain ⟨q, -, hq⟩ := List.any_eq_true.mp hk.1
      refine Or.inr ⟨hk.2, ?_, ?_⟩
      · rw [← of_decide_eq_true hq]
        exact h.tgid_lt q
      · simp only [Procs.reparent, if_pos hk]
    · exact Or.inl (by simp only [Procs.reparent, if_neg hk])
  have hw : (p.reparent g).Wf := by
    refine ⟨h.tgid_pos, h.tgid_lt, fun k hk => ?_, h.nodup, h.pid_lt, ?_, fun k hx => ?_⟩
    · rcases hgrp k with he | ⟨-, hlt, -⟩
      · exact he.trans (h.unused k hk)
      · exact absurd hlt (not_lt.mpr hk)
    · rcases hgrp 1 with he | ⟨hp, -, -⟩
      · rw [he]
        exact h.root
      · exact absurd (hp.symm.trans h.root) hg
    · rcases hgrp k with he | ⟨-, -, he⟩ <;> rw [he] at hx ⊢ <;> exact h.code k hx
  have hq : p.Quiet (p.reparent g) := by
    refine ⟨⟨le_rfl, fun _ _ => rfl, fun k hx => ?_, fun k _ => ?_⟩, fun k => ?_, fun k => ?_,
      fun k => ?_, fun k => ?_, fun _ => Iff.rfl⟩ <;>
    rcases hgrp k with he | ⟨-, -, he⟩ <;> rw [he]
    all_goals exact hx
  exact ⟨(wf_setPhase hw t .gone).1, hq.trans (wf_setPhase hw t .gone).2⟩

/-! ## `claim_one` -/

theorem counted_take (h : Sound s) (hpc : s.pc t = .look .take w first p rest)
    (hr : (s.procs.group p).stopReported = true) :
    Counted (some t) s [.tookStop t p]
      ((s.setGroup p fun k => { k with stopReported := false }).goto t
      (.look .sig w first p rest)) := by
  have hk := h.knows t
  rw [hpc] at hk
  obtain ⟨hme, hp, hrest, -, hnw⟩ := hk
  have hl := h.held t (by rw [hpc]; rfl)
  refine ⟨h.store hp rfl id rfl (h.wf.code p) (fun _ => hl) ⟨hme, hp, hrest, by simp, by simp⟩, ?_,
    pc_unmoved⟩
  rw [ledger_store]
  simp [Ledger.next, ledger, Pc.holding, hpc, hr, hnw rfl]

theorem wf_reap {p : Procs} (h : p.Wf) (q : ℕ) :
    ({ p with pidMap := p.pidMap.erase q } : Procs).Wf :=
  ⟨h.tgid_pos, h.tgid_lt, h.unused, h.nodup.erase q,
    fun k hk => h.pid_lt k (List.mem_of_mem_erase hk), h.root, h.code⟩

theorem reaped_erase {p : Procs} (h : p.Wf) {q : ℕ} (h1 : 1 < q) (hq : p.tgid q = q)
    (hm : q ∈ p.pidMap) (k : ℕ) :
    ({ p with pidMap := p.pidMap.erase q } : Procs).reaped k ↔ k = q ∨ p.reaped k := by
  have htg : ({ p with pidMap := p.pidMap.erase q } : Procs).tgid k = p.tgid k := rfl
  simp only [Procs.reaped, htg, h.nodup.mem_erase_iff]
  constructor
  · rintro ⟨hk, hlt, hkk, hne⟩
    by_cases he : k = q
    · exact Or.inl he
    · exact Or.inr ⟨hk, hlt, hkk, fun hmem => hne ⟨he, hmem⟩⟩
  · rintro (rfl | ⟨hk, hlt, hkk, hne⟩)
    · exact ⟨h1, h.pid_lt k hm, hq, fun hx => hx.1 rfl⟩
    · exact ⟨hk, hlt, hkk, fun hx => hne hx.2⟩

theorem counted_reap (h : Sound s) (hpc : s.pc t = .look .exited w first p rest)
    (hx : (s.procs.group p).exited = true) (hnw : w.nowait = false) :
    Counted (some t) s [.tookExit t p]
      ({ s with procs := { s.procs with pidMap := s.procs.pidMap.erase p } }.goto t
        (.look .code w first p rest)) := by
  have hk := h.knows t
  rw [hpc] at hk
  obtain ⟨-, -, -, hp, -⟩ := hk
  obtain ⟨h1, htg, hmem⟩ := hp rfl
  have hl := h.held t (by rw [hpc]; rfl)
  refine ⟨?_, ?_, pc_unmoved⟩
  · refine h.step t (wf_reap h.wf p) ⟨le_rfl, fun _ _ => rfl, fun _ h => h, fun _ _ => rfl⟩
      (fun u hu => update_of_ne hu ..) (fun u hu hlu => ?_) (fun _ => hl) ?_
    · rw [hl, Option.some.injEq] at hlu
      exact absurd hlu.symm hu
    · simpa [goto, Pc.Knows] using hx
  · have hnot : ¬ s.procs.reaped p := fun hr => hr.2.2.2 hmem
    simp only [List.foldlM_cons, List.foldlM_nil, Ledger.next]
    rw [if_pos (by simp [ledger, hx, hnot, hpc, Pc.holding])]
    refine congrArg some (Ledger.ext rfl rfl rfl (funext fun k => ?_) (funext fun k => ?_))
    · simp only [ledger, goto, reaped_erase h.wf h1 htg hmem,
        update_apply]
      split <;> simp_all
    · simp only [ledger, goto, update_apply]
      split <;> simp_all [Pc.holding]

/-- The end of `claim_one` with an event. -/
theorem counted_event (h : Sound s) {ev : WaitEvent} {b : Bool}
    (hc : (s.pc t).inClaim = true) (hs : s.ledger.shows ev = true)
    (hh : (s.pc t).holding = if b then none else some (ev.child, ev.exited)) :
    Counted (some t) s [.event t b ev] ({ s with lock := none }.goto t .run) := by
  have hl := h.held t hc
  refine ⟨?_, ?_, pc_unmoved⟩
  · refine h.step t h.wf (.refl _) (fun u hu => update_of_ne hu ..) (fun u hu hlu => ?_)
      (by simp [goto, Pc.inClaim]) (by simp [goto, Pc.Knows])
    rw [hl, Option.some.injEq] at hlu
    exact absurd hlu.symm hu
  · have hh' : s.ledger.holds t = if b then none else some (ev.child, ev.exited) := hh
    simp only [List.foldlM_cons, List.foldlM_nil, Ledger.next]
    rw [if_pos ⟨hs, hh'⟩]
    refine congrArg some (Ledger.ext rfl rfl rfl rfl (funext fun k => ?_))
    simp only [ledger, goto, update_apply]
    split <;> simp_all [Pc.holding]

theorem counted_lookAt (h : Sound s) {stage : Look} (hpc : s.pc t = .look stage w first p rest) :
    Counted (some t) s (s.lookAt t w first p rest stage).1 (s.lookAt t w first p rest stage).2 := by
  have hk := h.knows t
  have hc : (s.pc t).inClaim := by rw [hpc]; rfl
  rw [hpc] at hk
  cases stage with
  | exited =>
    obtain ⟨hme, hp, hrest, -, -⟩ := hk
    simp only [lookAt]
    split_ifs with hx hnw
    · exact counted_goto h (fun _ => hc) hx (by simp [hpc, Pc.holding, hnw])
    · exact counted_reap h hpc hx (by simpa using hnw)
    · exact counted_goto h (fun _ => hc) ⟨hme, hp, hrest, by simp, by simp⟩
        (by simp [hpc, Pc.holding])
  | code =>
    have hx : (s.procs.group p).exited = true := hk
    refine counted_event h hc ?_ (by simp [hpc, Pc.holding])
    simp [Ledger.shows, ledger, hx]
  | stopped =>
    obtain ⟨hme, hp, hrest, -, -⟩ := hk
    simp only [lookAt]
    split_ifs
    · exact counted_goto h (fun _ => hc) ⟨hme, hp, hrest, by simp, by simp⟩
        (by simp [hpc, Pc.holding])
    · exact counted_goto h (fun _ => hc) ⟨hme, hrest⟩ (by simp [hpc, Pc.holding])
  | reported =>
    obtain ⟨hme, hp, hrest, -, -⟩ := hk
    simp only [lookAt]
    split_ifs with hr hnw
    · exact counted_goto h (fun _ => hc) ⟨hme, hp, hrest, by simp, by simp⟩
        (by simp [hpc, Pc.holding, hnw])
    · exact counted_goto h (fun _ => hc) ⟨hme, hp, hrest, by simp, by simpa using hnw⟩
        (by simp [hpc, Pc.holding])
    · exact counted_goto h (fun _ => hc) ⟨hme, hrest⟩ (by simp [hpc, Pc.holding])
  | take =>
    obtain ⟨hme, hp, hrest, -, -⟩ := hk
    simp only [lookAt]
    split_ifs with hr
    · exact counted_take h hpc hr
    · exact counted_goto h (fun _ => hc) ⟨hme, hrest⟩ (by simp [hpc, Pc.holding])
  | sig =>
    refine counted_event h hc ?_ (by simp [hpc, Pc.holding])
    simp [Ledger.shows, ledger]

/-- The registration of a waiter moves it only. -/
theorem counted_checkAt (h : Sound s) {stage : Check} {kids : List ℕ} {ev : Bool}
    (hpc : s.pc t = .check stage w kids p rest ev) :
    Counted (some t) s [] (s.checkAt t w kids p rest ev stage) := by
  have hme : w.me ≠ 0 := by simpa [hpc, Pc.Knows] using h.knows t
  have hreg : ∀ ev' ws m, Counted (some t) s [] ⟨s.procs, s.lock, m, ws, s.blocked, s.flagged,
      update s.pc t (.register w kids rest ev')⟩ := fun ev' ws m =>
    counted_pass h hpc rfl rfl rfl hme
  have hstay : ∀ stage', Counted (some t) s [] (s.goto t (.check stage' w kids p rest ev)) :=
    fun stage' =>
    counted_pass h hpc rfl rfl rfl hme
  cases stage <;> simp only [checkAt]
  case exited =>
    split_ifs
    · exact hreg true s.waiters _
    · exact hstay .stopped
  case stopped => exact hstay _
  case reported =>
    split_ifs
    · exact hreg true s.waiters _
    · exact hstay .push
  case push => exact hreg ev _ _

/-- `p` matches: it is a child of the caller, and the leader of its group. -/
theorem isMatch_spec (h : s.isMatch w p = true) :
    (s.procs.group p).ppid = w.me ∧ s.procs.tgid p = p := by
  simp only [isMatch, Procs.matchChild, Bool.and_eq_true, decide_eq_true_eq] at h
  obtain ⟨⟨hp, htg⟩, -⟩ := h
  rw [← htg] at hp
  exact ⟨hp, htg.symm⟩

theorem counted_go (h : Sound s) {order : List ℕ} {es : List Note}
    (hs : s.go t order = some (es, s')) : Counted (some t) s es s' := by
  have hk := h.knows t
  have hl : (s.pc t).inClaim → s.lock = some t := h.held t
  cases hpc : s.pc t <;> rw [hpc] at hk hl <;> simp only [go, hpc] at hs
  case run => cases hs
  case storeStopped g sig =>
    cases hs
    exact counted_storeStopped h hpc
  case storeSig g sig =>
    cases hs
    exact counted_storeSig h hpc
  case report g =>
    split_ifs at hs with hr <;> cases hs
    · exact counted_pass h hpc rfl rfl rfl trivial
    · exact counted_report h hpc (by simpa using hr)
  case storeExited g =>
    cases hs
    exact counted_storeExited h hpc
  case notify g fini =>
    split_ifs at hs
    cases hs
    exact counted_pass h hpc rfl rfl rfl hk
  case wake g fini ws =>
    cases ws <;> cases hs
    · split_ifs with hf
      · exact counted_pass h hpc rfl rfl rfl (hk hf)
      · exact counted_pass h hpc rfl rfl rfl trivial
    · exact counted_pass h hpc rfl rfl rfl hk
  case reparent g =>
    split_ifs at hs
    cases hs
    obtain ⟨hw, hq⟩ := wf_reparent h.wf hk t
    exact counted_quiet h t hw hq (fun u hu => update_of_ne hu ..)
      (fun u _ hlu => ⟨hlu, rfl⟩) (by simp [goto, Pc.inClaim])
      (by simp [goto, Pc.Knows]) (by simp [goto, hpc, Pc.holding])
  case claim w first =>
    split_ifs at hs with hc
    cases hs
    exact counted_move h (.inr (.inl hc.1)) (fun _ => rfl) ⟨hk, fun q hq => hc.2.mem_iff.mp hq⟩
      (by simp [hpc, Pc.holding])
  case scan w first any rest =>
    cases rest <;> cases hs
    · refine counted_move h (.inr (.inr (hl rfl))) ?_ ?_ ?_ <;> split_ifs <;>
        simp [hpc, Pc.inClaim, Pc.holding, Pc.Knows, hk.1]
    · rename_i p rest
      have hrest : ∀ q ∈ rest, q ∈ s.procs.pidMap := fun q hq => hk.2 q (by simp [hq])
      have hp : p ∈ s.procs.pidMap := hk.2 p (by simp)
      split_ifs with hm
      · obtain ⟨hpp, htg⟩ := isMatch_spec hm
        have hpos := htg ▸ h.wf.tgid_pos p
        have h1 : p ≠ 1 := by
          rintro rfl
          exact hk.1 (hpp.symm.trans h.wf.root)
        exact counted_goto h (fun _ => by rw [hpc]; rfl)
          ⟨hk.1, h.wf.pid_lt p hp, hrest, fun _ => ⟨by omega, htg, hp⟩, by simp⟩
          (by simp [hpc, Pc.holding])
      · exact counted_goto h (fun _ => by rw [hpc]; rfl) ⟨hk.1, hrest⟩ (by simp [hpc, Pc.holding])
  case look stage w first p rest =>
    have := counted_lookAt h hpc
    rwa [Option.some.inj hs] at this
  case head w =>
    cases hs
    refine counted_goto h ?_ ?_ ?_ <;> split_ifs <;>
      simp [hpc, Pc.inClaim, Pc.holding, Pc.Knows, show w.me ≠ 0 from hk]
  case snapshot w =>
    split_ifs at hs
    cases hs
    exact counted_pass h hpc rfl rfl rfl hk
  case block w kids =>
    cases hs
    exact counted_pass h hpc rfl rfl rfl hk
  case register w kids rest ev =>
    cases rest <;> simp only at hs
    · cases hs
      refine counted_goto h ?_ ?_ ?_ <;> split_ifs <;>
        simp [hpc, Pc.inClaim, Pc.holding, Pc.Knows, show w.me ≠ 0 from hk]
    · split_ifs at hs
      cases hs
      exact counted_pass h hpc rfl rfl rfl hk
  case check stage w kids p rest ev =>
    cases hs
    exact counted_checkAt h hpc
  case asleep w kids =>
    split_ifs at hs
    cases hs
    exact counted_pass h hpc rfl rfl rfl hk
  case unblock w kids =>
    cases hs
    exact counted_pass h hpc rfl rfl rfl hk
  case remove w rest =>
    cases rest <;> simp only at hs
    · cases hs
      exact counted_pass h hpc rfl rfl rfl hk
    · split_ifs at hs
      cases hs
      exact counted_pass h hpc rfl rfl rfl hk

/-! ## Runs -/

/-- The thread that an action moves. -/
def WaitAct.thread : WaitAct → Option ℕ
  | .go t _ => some t
  | .stop t _ _ => some t
  | .fini t => some t
  | .wakeSiblings t => some t
  | .wait t _ _ _ => some t
  | _ => none

theorem counted_step (h : Sound s) {a : WaitAct} {es : List Note}
    (hs : s.step a = some (es, s')) : Counted a.thread s es s' := by
  cases a <;> simp only [step] at hs
  case go t order => exact counted_go h hs
  case stop t g sig =>
    split_ifs at hs with hc
    cases hs
    exact counted_pass h hc.1 rfl rfl rfl hc.2
  case cont g =>
    split_ifs at hs with hg
    cases hs
    have hw := wf_setGroup h.wf hg (f := fun k => { k with stopped := false }) rfl (h.wf.code g)
    have hgrows := grows_setGroup (s := s.procs) (g := g)
      (f := fun k => { k with stopped := false }) id fun _ => rfl
    refine ⟨h.still hw hgrows rfl fun u hlu => ⟨hlu, rfl⟩, congrArg some (Eq.symm ?_),
      fun _ _ => rfl⟩
    have hl := ledger_store s 0 g (fun k => { k with stopped := false }) (s.pc 0)
    simp only [goto, setGroup, update_eq_self] at hl
    exact hl.trans (by simp [ledger])
  case fini t =>
    split_ifs at hs with hc
    cases hs
    obtain ⟨hw, hq⟩ := wf_recordExit h.wf t (128 + 9)
    refine counted_quiet h t hw hq (fun u hu => update_of_ne hu ..)
      (fun u _ hlu => ⟨hlu, rfl⟩) (by simp [goto, Pc.inClaim]) ?_
      (by simp [goto, hc.1, Pc.holding])
    simp only [goto, update_self, Pc.Knows]
    refine ⟨h.wf.tgid_lt t, (h.wf.tgid_pos t).ne', ?_⟩
    rw [recordExit_group, if_pos rfl]
    unfold cas
    split_ifs with hm
    · show (128 + 9 : U32) ≠ -1
      decide
    · exact hm
  case wakeSiblings t =>
    split_ifs at hs with hc
    cases hs
    exact counted_pass h hc.1 rfl rfl rfl (by simp [Pc.Knows])
  case wait t idtype id options =>
    split_ifs at hs with hc
    cases hs
    exact counted_pass h hc.1 rfl rfl rfl (h.wf.tgid_pos t).ne'
  case flag t b =>
    cases hs
    exact ⟨h.still h.wf (.refl _) rfl fun u hlu => ⟨hlu, rfl⟩, rfl, fun _ _ => rfl⟩
  case task a =>
    split_ifs at hs with hc
    obtain ⟨p, hp, he⟩ := Option.map_eq_some_iff.mp hs
    cases he
    obtain ⟨hw, hq, hm⟩ := quiet_step h.wf hc.1 hp
    refine ⟨h.still hw hq.toGrows rfl fun u hlu => ⟨hlu, ?_⟩, congrArg some (Eq.symm ?_),
      fun _ _ => rfl⟩
    swap
    · exact ledger_quiet h.wf hq fun u => rfl
    apply hm
    by_contra hlk
    have := hc.2.2 (by simpa using hlk)
    rw [hlu] at this
    cases this

theorem sound_init : Sound init := by
  refine ⟨⟨fun _ => Nat.one_pos, fun _ => Nat.one_lt_two, fun g hg => ?_, by decide, by decide, rfl,
    fun g => ?_⟩, by simp [init, Pc.inClaim], by simp [init, Pc.Knows]⟩
  · have : g ≠ 1 := by
      rintro rfl
      exact absurd hg (by decide)
    simp [init, Procs.init, this]
  · simp only [init, Procs.init]
    split <;> simp [ThreadGroup.fresh, ThreadGroup.unused]

theorem ledger_init : init.ledger = Ledger.init := by
  refine Ledger.ext (funext fun g => ?_) (funext fun g => ?_) (funext fun g => ?_)
    (funext fun p => ?_) rfl <;> simp only [ledger, Ledger.init, init, Procs.init]
  · split <;> rfl
  · split <;> rfl
  · split <;> rfl
  · refine decide_eq_false fun h => ?_
    obtain ⟨h1, h2, -⟩ := h
    change p < 2 at h2
    omega

/-- **Wait events are handed out once.** The ledger accepts every run, a child has left
`pid_map` only if its end was taken, and no caller that has returned keeps what it took. -/
theorem events_handed_out_once {l : List (List Note)} (h : Run WaitStep init l s) :
    ∃ L, l.flatten.foldlM Ledger.next Ledger.init = some L ∧
      (∀ p, L.taken p = true ↔ s.procs.reaped p) ∧ ∀ t, s.pc t = .run → L.holds t = none := by
  have hstep : ∀ s es s' L, (Sound s ∧ L = s.ledger) → WaitStep s es s' →
      ∃ L', es.foldlM Ledger.next L = some L' ∧ Sound s' ∧ L' = s'.ledger := by
    rintro s es s' L ⟨hs, rfl⟩ ⟨a, hstep⟩
    obtain ⟨hs', hl, -⟩ := counted_step hs hstep
    exact ⟨_, hl, hs', rfl⟩
  obtain ⟨L, hL, -, rfl⟩ := h.accepted ⟨sound_init, rfl⟩ hstep
  rw [ledger_init] at hL
  refine ⟨_, hL, fun p => by simp [ledger], fun t ht => ?_⟩
  simp [ledger, ht, Pc.holding]

/-- Pid 1 with threads 1 and 2 has a child 3, which stops and later exits with 7. Thread 1 waits for
the stop with `WNOWAIT`, thread 2 takes it, and both wait for the end. -/
def reapRun : List WaitAct :=
  [.task (.clone 1 true), .task (.clone 1 false), .stop 3 3 19] ++ List.replicate 5 (.go 3 []) ++
    .wait 1 0 0 wnowait :: List.replicate 6 (.go 1 [3, 1, 2]) ++
    .wait 2 0 0 0 :: List.replicate 7 (.go 2 [3, 1, 2]) ++
    [.cont 3, .task (.exit 3 7), .task (.finiSub 3), .fini 3, .go 3 [], .wait 1 0 0 0,
      .wait 2 0 0 0] ++ List.replicate 4 (.go 1 [3, 1, 2]) ++ List.replicate 4 (.go 2 [1, 2])

def reapNotes : List Note :=
  [.stopSig 3 19, .reported 3, .event 1 true ⟨3, false, 19, 0⟩, .tookStop 2 3,
    .event 2 false ⟨3, false, 19, 0⟩, .published 3 7, .tookExit 1 3, .event 1 false ⟨3, true, 0, 7⟩]

theorem events_handed_out_once_reapRun : ∃ s l, Run WaitStep init l s ∧ l.flatten = reapNotes ∧
    ∃ L, l.flatten.foldlM Ledger.next Ledger.init = some L ∧
      (∀ p, L.taken p = true ↔ s.procs.reaped p) ∧ ∀ t, s.pc t = .run → L.holds t = none := by
  have hp : (init.play reapRun).map (fun x => x.1.flatten) = some reapNotes := by decide +kernel
  obtain ⟨⟨l, s⟩, hx, hl⟩ := Option.map_eq_some_iff.mp hp
  exact ⟨s, l, run_play hx, hl, events_handed_out_once (run_play hx)⟩

end Bpfvm.Process
