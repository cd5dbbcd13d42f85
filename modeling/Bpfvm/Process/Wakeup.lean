import Bpfvm.Process.WaitOnce

/-!
# Sleeping in `do_wait_common`

A waiter registers with each of its children under the `mtx` of the child, having found no
event there, and sleeps. Whoever makes an event claimable afterwards has to take the list of
waiters. That is so for an end, and for a stop whose compare-and-swap on `stop_reported`
succeeds; it is not so for a stop that finds the flag still up from an earlier one, nor for
a child that comes to match after the waiter has looked for its children.
-/
namespace Bpfvm.Process
open Function Waiting

/-- `child_has_event`. -/
def ThreadGroup.claimable (k : ThreadGroup) : Bool := k.exited || k.stopped && k.stopReported

/-- The children a thread is going to sleep on, from its look at `pid_map` on. -/
def Pc.window : Pc → Option (WaitArgs × List ℕ)
  | .block w kids => some (w, kids)
  | .register w kids _ _ => some (w, kids)
  | .check _ w kids _ _ _ => some (w, kids)
  | .asleep w kids => some (w, kids)
  | _ => none

/-- The children a thread has to be registered with before it sleeps, and those it has not
come to yet. -/
def Pc.todo : Pc → Option (List ℕ × List ℕ)
  | .register _ kids rest false => some (kids, rest)
  | .check _ _ kids p rest false => some (kids, p :: rest)
  | .asleep _ kids => some (kids, [])
  | _ => none

/-- Neither about to take waiters nor to wake one. -/
def Pc.idle : Pc → Bool
  | .notify _ _ => false
  | .wake _ _ (_ :: _) => false
  | _ => true

namespace Waiting

/-- Some thread is about to take the waiters of `p`. -/
def Notifying (s : Waiting) (p : ℕ) : Prop := ∃ t fini, s.pc t = .notify p fini

/-- Some thread has taken the waiters of `p`, and is about to wake `v` among them. -/
def Waking (s : Waiting) (p v : ℕ) : Prop := ∃ t fini ws, s.pc t = .wake p fini ws ∧ v ∈ ws

/-- No child that matches a sleeping waiter has an event to claim, unless a thread is on its
way to wake the waiter. -/
def NoLostWakeup (s : Waiting) : Prop :=
  ∀ v w kids, s.pc v = .asleep w kids → s.blocked v = true → s.flagged v = false →
    ∀ p ∈ s.procs.pidMap, s.isMatch w p = true → (s.procs.group p).claimable = true →
      s.Notifying p ∨ s.Waking p v

/-- A stop finds `stop_reported` down, unless the group is stopped already. -/
def freshStop (s : Waiting) : WaitAct → Bool
  | .go t _ =>
    match s.pc t with
    | .storeStopped g _ => (s.procs.group g).stopped || !(s.procs.group g).stopReported
    | _ => true
  | _ => true

/-- No child comes to match a waiter that has looked for its children. -/
def Steady (s s' : Waiting) : Prop :=
  ∀ v w kids, (s.pc v).window = some (w, kids) → ∀ p ∈ s'.procs.pidMap, s'.isMatch w p = true →
    p ∈ s.procs.pidMap ∧ s.isMatch w p = true

end Waiting

/-- A step in which a stop is fresh and the children of the waiters are steady. -/
def SteadyStep (s : Waiting) (es : List Note) (s' : Waiting) : Prop :=
  ∃ a, s.step a = some (es, s') ∧ s.freshStop a = true ∧ s.Steady s'

namespace Waiting

/-- `v` may come to sleep on `p` without having seen its end. -/
def OpenExit (s : Waiting) (p v : ℕ) : Prop :=
  v ∈ s.waiters p ∨
    ∃ stage w kids rest ev, s.pc v = .check stage w kids p rest ev ∧ stage ≠ .exited

/-- `v` may come to sleep on `p` without having seen it stopped. -/
def OpenStop (s : Waiting) (p v : ℕ) : Prop :=
  v ∈ s.waiters p ∨ ∃ w kids rest ev, s.pc v = .check .push w kids p rest ev

/-- `v` is registered with `p`, or does not need to be any more. -/
def Enlisted (s : Waiting) (p v : ℕ) : Prop :=
  v ∈ s.waiters p ∨ s.blocked v = false ∨ s.Waking p v

end Waiting

/-- The states of a run of such steps. -/
structure Attended (s : Waiting) : Prop where
  covered : ∀ v w kids, (s.pc v).window = some (w, kids) → ∀ p ∈ s.procs.pidMap,
    s.isMatch w p = true → p ∈ kids
  locked : ∀ v stage w kids p rest ev, s.pc v = .check stage w kids p rest ev → s.mtx p = some v
  ended : ∀ p v, (s.procs.group p).exited = true → s.OpenExit p v → s.Notifying p
  stopped : ∀ p v, (s.procs.group p).stopped = true → (s.procs.group p).stopReported = true →
    s.OpenStop p v → s.Notifying p
  enlisted : ∀ v kids rest, (s.pc v).todo = some (kids, rest) → ∀ p ∈ kids,
    p ∈ rest ∨ s.Enlisted p v

/-- A step to `s'` keeps this if the children of the waiters are steady. -/
def Waiting.Attends (s s' : Waiting) : Prop := s.Steady s' → Attended s'

variable {s s' : Waiting} {t : ℕ}

theorem Attended.noLostWakeup (h : Attended s) : s.NoLostWakeup := by
  intro v w kids hpc hb _ p hp hm hc
  have hk : p ∈ kids := h.covered v w kids (by rw [hpc]; rfl) p hp hm
  rcases h.enlisted v kids [] (by rw [hpc]; rfl) p hk with hr | hw | hf | hw
  · cases hr
  · simp only [ThreadGroup.claimable, Bool.or_eq_true, Bool.and_eq_true] at hc
    rcases hc with hx | ⟨hs, hr⟩
    · exact .inl (h.ended p v hx (.inl hw))
    · exact .inl (h.stopped p v hs hr (.inl hw))
  · rw [hb] at hf
    cases hf
  · exact .inr hw

variable {pc : Pc} {kids rest : List ℕ} {stage : Check} {p v g u : ℕ} {w : WaitArgs} {ev : Bool}
  {es : List Note}

theorem Pc.todo_of_window (h : pc.window = none) : pc.todo = none := by
  cases pc <;> simp_all [Pc.window, Pc.todo]

theorem Pc.ne_check_of_window (h : pc.window = none) : pc ≠ .check stage w kids p rest ev := by
  rintro rfl
  cases h

theorem Waiting.OpenStop.openExit (h : s.OpenStop p v) : s.OpenExit p v := by
  rcases h with hv | ⟨w, kids, rest, ev, hv⟩
  · exact .inl hv
  · exact .inr ⟨.push, w, kids, rest, ev, hv, by simp⟩

section Others
variable (hpc : s'.pc = update s.pc t pc)
include hpc

theorem pc_self : s'.pc t = pc := by rw [hpc, update_self]

theorem pc_other (hu : u ≠ t) : s'.pc u = s.pc u := by rw [hpc, update_of_ne hu]

/-- A step of `t` to `pc`, from what it means for the waiters. -/
theorem Attended.step (h : Attended s)
    (hcov : pc.window = (s.pc t).window ∨ ∀ w kids, pc.window = some (w, kids) →
      ∀ p ∈ s'.procs.pidMap, s'.isMatch w p = true → p ∈ kids)
    (hmtx : ∀ p u, u ≠ t → s.mtx p = some u → s'.mtx p = some u)
    (hmtx' : ∀ stage w kids p rest ev, pc = .check stage w kids p rest ev → s'.mtx p = some t)
    (hnot : ∀ p, s.Notifying p → s'.Notifying p ∨ ∀ v, ¬ s'.OpenExit p v)
    (hexit : ∀ p v, (s'.procs.group p).exited = true → s'.OpenExit p v →
      s'.Notifying p ∨ (s.procs.group p).exited = true ∧ s.OpenExit p v)
    (hstop : ∀ p v, (s'.procs.group p).stopped = true → (s'.procs.group p).stopReported = true →
      s'.OpenStop p v → s'.Notifying p ∨ ((s.procs.group p).stopped = true ∧
        (s.procs.group p).stopReported = true) ∧ s.OpenStop p v)
    (hen : ∀ p u, u ≠ t → s.Enlisted p u → s'.Enlisted p u)
    (hen' : ∀ kids rest, pc.todo = some (kids, rest) → ∀ p ∈ kids, p ∈ rest ∨ s'.Enlisted p t) :
    s.Attends s' := by
  intro hst
  refine ⟨fun v w kids hv p hp hm => ?_, fun v stage w kids p rest ev hv => ?_,
    fun p v hx ho => ?_, fun p v hs hr ho => ?_, fun v kids rest hv p hp => ?_⟩
  · have hold (hw : (s.pc v).window = some (w, kids)) : p ∈ kids := by
      obtain ⟨hp', hm'⟩ := hst v w kids hw p hp hm
      exact h.covered v w kids hw p hp' hm'
    by_cases hvt : v = t
    · subst hvt
      rw [pc_self hpc] at hv
      rcases hcov with hw | hc
      · exact hold (hw ▸ hv)
      · exact hc w kids hv p hp hm
    · exact hold (by rwa [pc_other hpc hvt] at hv)
  · by_cases hvt : v = t
    · subst hvt
      exact hmtx' stage w kids p rest ev ((pc_self hpc).symm.trans hv)
    · rw [pc_other hpc hvt] at hv
      exact hmtx p v hvt (h.locked v stage w kids p rest ev hv)
  · rcases hexit p v hx ho with hn | ⟨hx', ho'⟩
    · exact hn
    · exact (hnot p (h.ended p v hx' ho')).resolve_right fun hno => hno v ho
  · rcases hstop p v hs hr ho with hn | ⟨⟨hs', hr'⟩, ho'⟩
    · exact hn
    · exact (hnot p (h.stopped p v hs' hr' ho')).resolve_right fun hno => hno v ho.openExit
  · by_cases hvt : v = t
    · subst hvt
      rw [pc_self hpc] at hv
      exact hen' kids rest hv p hp
    · rw [pc_other hpc hvt] at hv
      exact (h.enlisted v kids rest hv p hp).imp id (hen p v hvt)

/-- Threads about to take the waiters go on being about to, `t` apart. -/
theorem Waiting.Notifying.keep (h : s.Notifying p)
    (ht : ∀ f, s.pc t = .notify p f → pc = .notify p f) : s'.Notifying p := by
  obtain ⟨u, f, hu⟩ := h
  refine ⟨u, f, ?_⟩
  by_cases hut : u = t
  · subst hut
    exact (pc_self hpc).trans (ht f hu)
  · rwa [pc_other hpc hut]

theorem Waiting.Waking.keep (h : s.Waking p v)
    (ht : ∀ f ws, s.pc t = .wake p f ws → v ∈ ws → s'.Waking p v) : s'.Waking p v := by
  obtain ⟨u, f, ws, hu, hv⟩ := h
  by_cases hut : u = t
  · subst hut
    exact ht f ws hu hv
  · exact ⟨u, f, ws, by rwa [pc_other hpc hut], hv⟩

theorem Waiting.Notifying.keep_idle (h : s.Notifying p) (hi : (s.pc t).idle = true) :
    s'.Notifying p := by
  refine h.keep hpc fun f hf => ?_
  rw [hf] at hi
  cases hi

theorem Waiting.Waking.keep_idle (h : s.Waking p v) (hi : (s.pc t).idle = true) :
    s'.Waking p v := by
  refine h.keep hpc fun f ws hf hm => ?_
  obtain ⟨u, ws, rfl⟩ := List.exists_cons_of_ne_nil (List.ne_nil_of_mem hm)
  rw [hf] at hi
  cases hi

/-- A step of `t` that leaves the waiters opens nothing for the others. -/
theorem Waiting.OpenExit.back (h : s'.OpenExit p v) (hw : v ∈ s'.waiters p → s.OpenExit p v)
    (ht : ∀ stage w kids rest ev, pc = .check stage w kids p rest ev → stage ≠ .exited →
      s.OpenExit p t) : s.OpenExit p v := by
  rcases h with hv | ⟨stage, w, kids, rest, ev, hv, hne⟩
  · exact hw hv
  · by_cases hvt : v = t
    · subst hvt
      exact ht stage w kids rest ev ((pc_self hpc).symm.trans hv) hne
    · exact .inr ⟨stage, w, kids, rest, ev, by rwa [pc_other hpc hvt] at hv, hne⟩

theorem Waiting.OpenStop.back (h : s'.OpenStop p v) (hw : v ∈ s'.waiters p → s.OpenStop p v)
    (ht : ∀ w kids rest ev, pc = .check .push w kids p rest ev → s.OpenStop p t) :
    s.OpenStop p v := by
  rcases h with hv | ⟨w, kids, rest, ev, hv⟩
  · exact hw hv
  · by_cases hvt : v = t
    · subst hvt
      exact ht w kids rest ev ((pc_self hpc).symm.trans hv)
    · exact .inr ⟨w, kids, rest, ev, by rwa [pc_other hpc hvt] at hv⟩

/-- A step of a thread that is not about to sleep and wakes nobody, or of none of the
threads inside these functions. -/
theorem Attended.outside (h : Attended s)
    (hself : pc = s.pc t ∨ pc.window = none ∧ (s.pc t).idle = true)
    (hwait : s'.waiters = s.waiters) (hblk : s'.blocked = s.blocked) (hmtx : s'.mtx = s.mtx)
    (hexit : ∀ p, (s'.procs.group p).exited = true →
      s'.Notifying p ∨ (s.procs.group p).exited = true)
    (hstop : ∀ p, (s'.procs.group p).stopped = true → (s'.procs.group p).stopReported = true →
      s'.Notifying p ∨ (s.procs.group p).stopped = true ∧ (s.procs.group p).stopReported = true) :
    s.Attends s' := by
  have hcheck : ∀ stage w kids p rest ev, pc = .check stage w kids p rest ev →
      s.pc t = .check stage w kids p rest ev := by
    intro stage w kids p rest ev hv
    rcases hself with he | ⟨hw, -⟩
    · exact he.symm.trans hv
    · exact absurd hv (Pc.ne_check_of_window hw)
  have hnot : ∀ p, s.Notifying p → s'.Notifying p := by
    intro p hp
    rcases hself with he | ⟨-, hi⟩
    · exact hp.keep hpc fun f hf => he.trans hf
    · exact hp.keep_idle hpc hi
  have hwake : ∀ p v, s.Waking p v → s'.Waking p v := by
    intro p v hv
    rcases hself with he | ⟨-, hi⟩
    · exact hv.keep hpc fun f ws hf hm => ⟨t, f, ws, (pc_self hpc).trans (he.trans hf), hm⟩
    · exact hv.keep_idle hpc hi
  have hen : ∀ p u, s.Enlisted p u → s'.Enlisted p u := by
    rintro p u (hu | hu | hu)
    · exact .inl (by rwa [hwait])
    · exact .inr (.inl (by rwa [hblk]))
    · exact .inr (.inr (hwake p u hu))
  refine h.step hpc ?_ (fun p u _ hu => by rwa [hmtx]) ?_ (fun p hp => .inl (hnot p hp))
    (fun p v hx ho => (hexit p hx).imp id fun hx => ⟨hx, ?_⟩)
    (fun p v hs hr ho => (hstop p hs hr).imp id fun hs => ⟨hs, ?_⟩) (fun p u _ => hen p u) ?_
  · rcases hself with he | ⟨hn, -⟩
    · exact .inl (congrArg _ he)
    · exact .inr (by simp [hn])
  · intro stage w kids p rest ev hv
    rw [hmtx]
    exact h.locked t stage w kids p rest ev (hcheck stage w kids p rest ev hv)
  · refine ho.back hpc (fun hv => .inl (hwait ▸ hv)) fun stage w kids rest ev hv hne => ?_
    exact .inr ⟨stage, w, kids, rest, ev, hcheck stage w kids p rest ev hv, hne⟩
  · refine ho.back hpc (fun hv => .inl (hwait ▸ hv)) fun w kids rest ev hv => ?_
    exact .inr ⟨w, kids, rest, ev, hcheck .push w kids p rest ev hv⟩
  · intro kids rest ht p hp
    rcases hself with he | ⟨hn, -⟩
    · rw [he] at ht
      exact (h.enlisted t kids rest ht p hp).imp id (hen p t)
    · rw [Pc.todo_of_window hn] at ht
      cases ht

end Others

/-- The same with the flags of the children as they were. -/
theorem Attended.goto (h : Attended s) {pr : Procs} {l : Option ℕ} {f : ℕ → Bool}
    (hq : ∀ p, (pr.group p).exited = (s.procs.group p).exited ∧
      (pr.group p).stopped = (s.procs.group p).stopped ∧
      (pr.group p).stopReported = (s.procs.group p).stopReported)
    (hw : pc.window = none) (hi : (s.pc t).idle = true) :
    s.Attends ⟨pr, l, s.mtx, s.waiters, s.blocked, f, update s.pc t pc⟩ := by
  refine h.outside (by rfl) (.inr ⟨hw, hi⟩) rfl rfl rfl (fun p hx => .inr ?_)
    (fun p hs hr => .inr ⟨?_, ?_⟩)
  · rwa [← (hq p).1]
  · rwa [← (hq p).2.1]
  · rwa [← (hq p).2.2]

/-! ## Waking -/

theorem Attended.notify (h : Attended s) {fini : Bool} (hpc : s.pc t = .notify g fini)
    (hm : s.mtx g = none) :
    s.Attends ({ s with waiters := update s.waiters g [] }.goto t
      (.wake g fini (s.waiters g))) := by
  have hsub : ∀ p v, v ∈ update s.waiters g [] p → p ≠ g ∧ v ∈ s.waiters p := by
    intro p v hv
    rw [update_apply] at hv
    split at hv
    · cases hv
    · exact ⟨by assumption, hv⟩
  refine h.step (by rfl) (.inr (by simp [Pc.window])) (fun _ _ _ hu => hu) (by simp)
    (fun p hp => ?_)
    (fun p v hx ho => .inr ⟨hx, ?_⟩) (fun p v hs hr ho => .inr ⟨⟨hs, hr⟩, ?_⟩) ?_
    (by simp [Pc.todo])
  · by_cases hp' : p = g
    · subst hp'
      refine .inr fun v => ?_
      rintro (hv | ⟨stage, w, kids, rest, ev, hv, -⟩)
      · exact (hsub p v hv).1 rfl
      · have hvt : v ≠ t := by
          rintro rfl
          cases (update_self ..).symm.trans hv
        rw [h.locked v stage w kids p rest ev ((update_of_ne hvt ..).symm.trans hv)] at hm
        cases hm
    · refine .inl (hp.keep (by rfl) fun f hf => ?_)
      rw [hpc, Pc.notify.injEq] at hf
      exact absurd hf.1.symm hp'
  · exact ho.back (by rfl) (fun hv => .inl (hsub p v hv).2) (by simp)
  · exact ho.back (by rfl) (fun hv => .inl (hsub p v hv).2) (by simp)
  · rintro p u - (hu | hu | hu)
    · by_cases hp : p = g
      · subst hp
        exact .inr (.inr ⟨t, fini, _, update_self .., hu⟩)
      · exact .inl (by rwa [← update_of_ne hp [] s.waiters] at hu)
    · exact .inr (.inl hu)
    · exact .inr (.inr (hu.keep (by rfl) (by simp [hpc])))

theorem Attended.wake (h : Attended s) {w : ℕ} {fini : Bool} {ws : List ℕ}
    (hpc : s.pc t = .wake g fini (w :: ws)) :
    s.Attends ({ s with blocked := update s.blocked w false }.goto t (.wake g fini ws)) := by
  have hblk : ∀ u, s.blocked u = false ∨ u = w → update s.blocked w false u = false := by
    intro u hu
    rw [update_apply]
    split
    · rfl
    · exact hu.resolve_right (by assumption)
  refine h.step (by rfl) (.inr (by simp [Pc.window])) (fun _ _ _ hu => hu) (by simp)
    (fun p hp => .inl (hp.keep (by rfl) (by simp [hpc]))) (fun p v hx ho => .inr ⟨hx, ?_⟩)
    (fun p v hs hr ho => .inr ⟨⟨hs, hr⟩, ?_⟩) ?_ (by simp [Pc.todo])
  · exact ho.back (by rfl) .inl (by simp)
  · exact ho.back (by rfl) .inl (by simp)
  · rintro p u - (hu | hu | hu)
    · exact .inl hu
    · exact .inr (.inl (hblk u (.inl hu)))
    · by_cases huw : u = w
      · exact .inr (.inl (hblk u (.inr huw)))
      · refine .inr (.inr (hu.keep (by rfl) fun f ws' hf hm => ?_))
        rw [hpc, Pc.wake.injEq] at hf
        obtain ⟨rfl, -, rfl⟩ := hf
        exact ⟨t, fini, ws, update_self .., (List.mem_cons.mp hm).resolve_left huw⟩

/-! ## Going to sleep and waking up -/

/-- A step of a waiter, which is about itself only. -/
theorem Attended.inside (h : Attended s) {l : Option ℕ} {m : ℕ → Option ℕ} {ws : ℕ → List ℕ}
    {b f : ℕ → Bool} (hi : (s.pc t).idle = true)
    (hcov : pc.window = (s.pc t).window ∨ ∀ w kids, pc.window = some (w, kids) →
      ∀ p ∈ s.procs.pidMap, s.isMatch w p = true → p ∈ kids)
    (hmtx : ∀ p u, u ≠ t → s.mtx p = some u → m p = some u)
    (hcheck : ∀ stage w kids p rest ev, pc = .check stage w kids p rest ev → m p = some t ∧
      ((s.procs.group p).exited = true → stage ≠ .exited → s.OpenExit p t) ∧
      ((s.procs.group p).stopped = true → (s.procs.group p).stopReported = true → stage = .push →
        s.OpenStop p t))
    (hwait : ∀ p u, u ≠ t → (u ∈ ws p ↔ u ∈ s.waiters p))
    (hself : ∀ p, t ∈ ws p → s.OpenStop p t) (hblk : ∀ u, u ≠ t → b u = s.blocked u)
    (hen : ∀ kids rest, pc.todo = some (kids, rest) → ∀ p ∈ kids,
      p ∈ rest ∨ t ∈ ws p ∨ b t = false ∨ s.Waking p t) :
    s.Attends ⟨s.procs, l, m, ws, b, f, update s.pc t pc⟩ := by
  have hwake : ∀ p v, s.Waking p v →
      Waiting.Waking ⟨s.procs, l, m, ws, b, f, update s.pc t pc⟩ p v := fun p v hv =>
    hv.keep_idle (by rfl) hi
  have hopen : ∀ p v, v ∈ ws p → s.OpenStop p v := by
    intro p v hv
    by_cases hvt : v = t
    · exact hvt ▸ hself p (hvt ▸ hv)
    · exact .inl ((hwait p v hvt).mp hv)
  refine h.step (by rfl) hcov hmtx (fun stage w kids p rest ev hc =>
      (hcheck stage w kids p rest ev hc).1) (fun p hp => .inl (hp.keep_idle (by rfl) hi))
    (fun p v hx ho => .inr ⟨hx, ?_⟩) (fun p v hs hr ho => .inr ⟨⟨hs, hr⟩, ?_⟩) ?_ ?_
  · refine ho.back (by rfl) (fun hv => (hopen p v hv).openExit)
      fun stage w kids rest ev hc hne => ?_
    exact (hcheck stage w kids p rest ev hc).2.1 hx hne
  · refine ho.back (by rfl) (hopen p v) fun w kids rest ev hc => ?_
    exact (hcheck .push w kids p rest ev hc).2.2 hs hr rfl
  · rintro p u hu (hm | hm | hm)
    · exact .inl ((hwait p u hu).mpr hm)
    · exact .inr (.inl ((hblk u hu).trans hm))
    · exact .inr (.inr (hwake p u hm))
  · intro kids rest htodo p hp
    exact (hen kids rest htodo p hp).imp_right (Or.imp_right (Or.imp_right (hwake p t)))

/-- A waiter that goes on without a lock of a child and without registering. -/
theorem Attended.walk (h : Attended s) {b : ℕ → Bool}
    (hi : (s.pc t).idle = true)
    (hcov : pc.window = (s.pc t).window ∨ ∀ w kids, pc.window = some (w, kids) →
      ∀ p ∈ s.procs.pidMap, s.isMatch w p = true → p ∈ kids)
    (hcheck : ∀ stage w kids p rest ev, pc ≠ .check stage w kids p rest ev)
    (hblk : ∀ u, u ≠ t → b u = s.blocked u)
    (hen : ∀ kids rest, pc.todo = some (kids, rest) → ∀ p ∈ kids,
      p ∈ rest ∨ t ∈ s.waiters p ∨ b t = false ∨ s.Waking p t) :
    s.Attends ⟨s.procs, s.lock, s.mtx, s.waiters, b, s.flagged, update s.pc t pc⟩ :=
  h.inside hi hcov (fun _ _ _ hu => hu)
    (fun stage w kids p rest ev hc => absurd hc (hcheck stage w kids p rest ev))
    (fun _ _ _ => Iff.rfl) (fun _ => .inl) hblk hen

theorem Attended.block (h : Attended s) (hpc : s.pc t = .block w kids) :
    s.Attends ({ s with blocked := update s.blocked t true }.goto t
      (.register w kids kids false)) := by
  refine h.walk (by rw [hpc]; rfl) (.inl (by rw [hpc]; rfl)) (by simp)
    (fun u hu => update_of_ne hu ..) fun kids' rest ht p hp => ?_
  cases ht
  exact .inl hp

theorem Attended.asleep (h : Attended s) (hpc : s.pc t = .register w kids [] false) :
    s.Attends (s.goto t (.asleep w kids)) := by
  refine h.walk (by rw [hpc]; rfl) (.inl (by rw [hpc]; rfl)) (by simp) (fun _ _ => rfl)
    fun kids' rest ht => h.enlisted t kids' rest ?_
  rw [hpc]
  exact ht

/-- A waiter enters the `mtx` of a child. -/
theorem Attended.register (h : Attended s) (hpc : s.pc t = .register w kids (p :: rest) ev)
    (hm : s.mtx p = none) :
    s.Attends ({ s with mtx := update s.mtx p (some t) }.goto t
      (.check .exited w kids p rest ev)) := by
  refine h.inside (by rw [hpc]; rfl) (.inl (by rw [hpc]; rfl)) ?_ ?_
    (fun p u _ => Iff.rfl) (fun p => .inl) (fun _ _ => rfl)
    fun kids' rest' ht => h.enlisted t kids' rest' ?_
  · intro q u hu hq
    refine (update_of_ne ?_ ..).trans hq
    rintro rfl
    rw [hm] at hq
    cases hq
  · intro stage w' kids' q rest' ev' hc
    cases hc
    exact ⟨update_self .., fun _ hne => absurd rfl hne, by simp⟩
  · rw [hpc]
    cases ev <;> exact ht

/-- A waiter goes on with its checks under the `mtx`, having seen what the stage says. -/
theorem Attended.recheck (h : Attended s) {stage' : Check}
    (hpc : s.pc t = .check stage w kids p rest ev)
    (hexit : (s.procs.group p).exited = true → stage ≠ .exited)
    (hstop : stage' = .push → (s.procs.group p).stopped = true →
      (s.procs.group p).stopReported = false) :
    s.Attends (s.goto t (.check stage' w kids p rest ev)) := by
  refine h.inside (by rw [hpc]; rfl) (.inl (by rw [hpc]; rfl)) (fun p u _ hu => hu) ?_
    (fun p u _ => Iff.rfl) (fun p => .inl) (fun _ _ => rfl)
    fun kids' rest' ht => h.enlisted t kids' rest' ?_
  · intro _ _ _ q _ _ hc
    cases hc
    refine ⟨h.locked t stage w kids p rest ev hpc, fun hx _ => ?_, fun hs hr hp => ?_⟩
    · exact .inr ⟨stage, w, kids, rest, ev, hpc, hexit hx⟩
    · rw [hstop hp hs] at hr
      cases hr
  · rw [hpc]
    cases ev <;> exact ht

/-- A waiter leaves the `mtx`, having found an event or registered. -/
theorem Attended.checked (h : Attended s) {ev' : Bool} {ws : ℕ → List ℕ}
    (hpc : s.pc t = .check stage w kids p rest ev)
    (hws : ∀ q u, u ∈ ws q ↔ u ∈ s.waiters q ∨ stage = .push ∧ q = p ∧ u = t)
    (hev : ev' = true ∨ ev' = ev ∧ stage = .push) :
    s.Attends ({ s with waiters := ws }.checked t w kids p rest ev') := by
  refine h.inside (by rw [hpc]; rfl) (.inl (by rw [hpc]; rfl)) ?_ (by simp) ?_ ?_
    (fun _ _ => rfl) ?_
  · intro q u hu hq
    refine (update_of_ne ?_ ..).trans hq
    rintro rfl
    rw [h.locked t stage w kids q rest ev hpc, Option.some.injEq] at hq
    exact hu hq.symm
  · intro q u hu
    rw [hws]
    exact or_iff_left fun hx => hu hx.2.2
  · intro q hw
    rcases (hws q t).mp hw with hw | ⟨rfl, rfl, -⟩
    · exact .inl hw
    · exact .inr ⟨w, kids, rest, ev, hpc⟩
  · intro kids' rest' ht q hq
    rcases hev with rfl | ⟨rfl, hpush⟩
    · cases ht
    · cases ev' with
      | true => cases ht
      | false =>
        cases ht
        rcases h.enlisted t kids (p :: rest) (by rw [hpc]; rfl) q hq with hr | hw | hb | hw
        · rcases List.mem_cons.mp hr with rfl | hr
          · exact .inr (.inl ((hws q t).mpr (.inr ⟨hpush, rfl, rfl⟩)))
          · exact .inl hr
        · exact .inr (.inl ((hws q t).mpr (.inl hw)))
        · exact .inr (.inr (.inl hb))
        · exact .inr (.inr (.inr hw))

theorem attended_checkAt (h : Attended s) (hpc : s.pc t = .check stage w kids p rest ev) :
    s.Attends (s.checkAt t w kids p rest ev stage) := by
  cases stage <;> simp only [checkAt]
  case exited =>
    split_ifs with hx
    · exact h.checked hpc (by simp) (.inl rfl)
    · exact h.recheck hpc (fun he => absurd he hx) (by simp)
  case stopped =>
    refine h.recheck hpc (by simp) fun hp hs => ?_
    rw [if_pos hs] at hp
    cases hp
  case reported =>
    split_ifs with hr
    · exact h.checked hpc (by simp) (.inl rfl)
    · exact h.recheck hpc (by simp) fun _ _ => by simpa using hr
  case push =>
    refine h.checked hpc (fun q u => ?_) (.inr ⟨rfl, rfl⟩)
    rw [update_apply]
    by_cases hq : q = p
    · subst hq
      simp
    · simp [hq]

/-- A store to the flags of one group, after which the thread is still outside. -/
theorem Attended.store (h : Attended s) {f : ThreadGroup → ThreadGroup} (hw : pc.window = none)
    (hi : (s.pc t).idle = true)
    (hexit : (f (s.procs.group g)).exited = true →
      (∃ fini, pc = .notify g fini) ∨ (s.procs.group g).exited = true)
    (hstop : (f (s.procs.group g)).stopped = true → (f (s.procs.group g)).stopReported = true →
      (∃ fini, pc = .notify g fini) ∨
        (s.procs.group g).stopped = true ∧ (s.procs.group g).stopReported = true) :
    s.Attends ((s.setGroup g f).goto t pc) := by
  have hgrp : ∀ p, ((s.setGroup g f).goto t pc).procs.group p =
      if p = g then f (s.procs.group g) else s.procs.group p := fun p =>
    setGroup_group s.procs g p f
  have hnot : (∃ fini, pc = .notify g fini) → ((s.setGroup g f).goto t pc).Notifying g := by
    rintro ⟨fini, hp⟩
    exact ⟨t, fini, (update_self ..).trans hp⟩
  refine h.outside (by rfl) (.inr ⟨hw, hi⟩) rfl rfl rfl (fun p hx => ?_) (fun p hs hr => ?_)
  · rw [hgrp] at hx
    split at hx
    · subst p
      exact (hexit hx).imp hnot id
    · exact .inr hx
  · rw [hgrp] at hs hr
    split at hs
    · subst p
      rw [if_pos rfl] at hr
      exact (hstop hs hr).imp hnot id
    · rw [if_neg (by assumption)] at hr
      exact .inr ⟨hs, hr⟩

theorem attended_lookAt (h : Attended s) {stage : Look} {first : Bool}
    (hpc : s.pc t = .look stage w first p rest) :
    s.Attends (s.lookAt t w first p rest stage).2 := by
  have hi : (s.pc t).idle = true := by rw [hpc]; rfl
  cases stage <;> simp only [lookAt]
  case exited =>
    split_ifs
    · exact h.goto (by simp) rfl hi
    · exact h.goto (by simp) rfl hi
    · exact h.goto (by simp) rfl hi
  case code => exact h.goto (by simp) rfl hi
  case stopped =>
    split_ifs <;> exact h.goto (by simp) rfl hi
  case reported =>
    split_ifs <;> exact h.goto (by simp) rfl hi
  case take =>
    split_ifs
    · exact h.store rfl hi .inr (by simp)
    · exact h.goto (by simp) rfl hi
  case sig => exact h.goto (by simp) rfl hi

theorem attended_go (h : Attended s) (hsound : Sound s) {order : List ℕ}
    (hs : s.go t order = some (es, s')) (hfresh : s.freshStop (.go t order) = true) :
    s.Attends s' := by
  cases hpc : s.pc t <;> simp only [go, hpc] at hs
  case run => cases hs
  case notify g fini =>
    split_ifs at hs with hm
    cases hs
    exact h.notify hpc hm
  case wake g fini ws =>
    cases ws <;> simp only at hs <;> cases hs
    · refine h.goto (by simp) ?_ (by rw [hpc]; rfl)
      split_ifs <;> rfl
    · exact h.wake hpc
  case block w kids =>
    cases hs
    exact h.block hpc
  case register w kids rest ev =>
    cases rest <;> simp only at hs
    · cases hs
      cases ev
      · exact h.asleep hpc
      · exact h.goto (by simp) rfl (by rw [hpc]; rfl)
    · split_ifs at hs with hm
      cases hs
      exact h.register hpc hm
  case check stage w kids p rest ev =>
    cases hs
    exact attended_checkAt h hpc
  case snapshot w =>
    split_ifs at hs with hc
    cases hs
    refine h.walk (by rw [hpc]; rfl) (.inr fun w' kids hw p hp hm => ?_) (by simp)
      (fun _ _ => rfl) (by simp [Pc.todo])
    cases hw
    rw [List.mem_filter]
    exact ⟨hc.2.mem_iff.mpr hp, hm⟩
  case unblock w kids =>
    cases hs
    exact h.walk (by rw [hpc]; rfl) (.inr (by simp [Pc.window])) (by simp)
      (fun u hu => update_of_ne hu ..) (by simp [Pc.todo])
  case remove w rest =>
    cases rest <;> simp only at hs
    · cases hs
      exact h.goto (by simp) rfl (by rw [hpc]; rfl)
    · split_ifs at hs with hm
      cases hs
      rename_i p rest
      have hws : ∀ q u, u ∈ update s.waiters p ((s.waiters p).filter (· ≠ t)) q ↔
          u ∈ s.waiters q ∧ (q = p → u ≠ t) := by
        intro q u
        rw [update_apply]
        by_cases hq : q = p
        · subst hq
          simp
        · simp [hq]
      refine h.inside (by rw [hpc]; rfl) (.inr (by simp [Pc.window])) (fun p u _ hu => hu)
        (by simp) (fun q u hu => ?_) (fun q hq => .inl ((hws q t).mp hq).1) (fun _ _ => rfl)
        (by simp [Pc.todo])
      rw [hws]
      exact and_iff_left fun _ => hu
  case storeStopped g sig =>
    cases hs
    refine h.store rfl (by rw [hpc]; rfl) .inr fun _ hr => .inr ?_
    simp only [freshStop, hpc, Bool.or_eq_true, Bool.not_eq_true'] at hfresh
    rcases hfresh with hs | hr'
    · exact ⟨hs, hr⟩
    · rw [hr'] at hr
      cases hr
  case storeSig g sig =>
    cases hs
    exact h.store rfl (by rw [hpc]; rfl) .inr fun hs hr => .inr ⟨hs, hr⟩
  case report g =>
    split_ifs at hs <;> cases hs
    · exact h.goto (by simp) rfl (by rw [hpc]; rfl)
    · exact h.store rfl (by rw [hpc]; rfl) .inr fun _ _ => .inl ⟨_, rfl⟩
  case storeExited g =>
    cases hs
    exact h.store rfl (by rw [hpc]; rfl) (fun _ => .inl ⟨_, rfl⟩)
      fun hs hr => .inr ⟨hs, hr⟩
  case reparent g =>
    split_ifs at hs
    cases hs
    have hk := hsound.knows t
    rw [hpc] at hk
    obtain ⟨-, hq⟩ := wf_reparent hsound.wf hk t
    exact h.goto (fun p => ⟨hq.exited_eq p, hq.stopped p, hq.stopReported p⟩) rfl (by rw [hpc]; rfl)
  case look stage w first p rest =>
    rw [Option.some.injEq] at hs
    have := attended_lookAt h hpc
    rwa [hs] at this
  case claim w first =>
    split_ifs at hs
    cases hs
    exact h.goto (by simp) rfl (by rw [hpc]; rfl)
  case scan w first any rest =>
    cases rest <;> simp only at hs <;> cases hs <;>
      refine h.goto (by simp) ?_ (by rw [hpc]; rfl) <;> split_ifs <;> rfl
  case head w =>
    cases hs
    refine h.goto (by simp) ?_ (by rw [hpc]; rfl)
    split_ifs <;> rfl
  case asleep w kids =>
    split_ifs at hs
    cases hs
    exact h.goto (by simp) rfl (by rw [hpc]; rfl)

/-! ## Runs -/

theorem attended_step (h : Attended s) (hsound : Sound s) (hs : SteadyStep s es s') :
    Attended s' := by
  obtain ⟨a, hs, hfresh, hst⟩ := hs
  refine (show s.Attends s' from ?_) hst
  cases a <;> simp only [step] at hs
  case go t order => exact attended_go h hsound hs hfresh
  case stop t g sig =>
    split_ifs at hs with hc
    cases hs
    exact h.goto (by simp) rfl (by rw [hc.1]; rfl)
  case cont g =>
    split_ifs at hs
    cases hs
    have hgrp := fun p => setGroup_group s.procs g p fun k => { k with stopped := false }
    refine h.outside (update_eq_self 0 s.pc).symm (.inl rfl) rfl rfl rfl (fun p hx => .inr ?_)
      (fun p hs hr => .inr ?_)
    · simp only [setGroup, hgrp] at hx
      split at hx
      · subst p
        exact hx
      · exact hx
    · simp only [setGroup, hgrp] at hs hr
      split at hs
      · cases hs
      · rw [if_neg (by assumption)] at hr
        exact ⟨hs, hr⟩
  case fini t =>
    split_ifs at hs with hc
    cases hs
    obtain ⟨-, hq⟩ := wf_recordExit hsound.wf t (128 + 9)
    exact h.goto (fun p => ⟨hq.exited_eq p, hq.stopped p, hq.stopReported p⟩) rfl
      (by rw [hc.1]; rfl)
  case wakeSiblings t =>
    split_ifs at hs with hc
    cases hs
    exact h.goto (by simp) rfl (by rw [hc.1]; rfl)
  case wait t idtype id options =>
    split_ifs at hs with hc
    cases hs
    exact h.goto (by simp) rfl (by rw [hc.1]; rfl)
  case flag t b =>
    cases hs
    exact h.outside (update_eq_self 0 s.pc).symm (.inl rfl) rfl rfl rfl (fun _ => .inr)
      fun _ hs hr => .inr ⟨hs, hr⟩
  case task a =>
    split_ifs at hs with hc
    obtain ⟨p, hp, he⟩ := Option.map_eq_some_iff.mp hs
    cases he
    obtain ⟨-, hq, -⟩ := quiet_step hsound.wf hc.1 hp
    refine h.outside (update_eq_self 0 s.pc).symm (.inl rfl) rfl rfl rfl (fun g hx => .inr ?_)
      (fun g hs hr => .inr ⟨?_, ?_⟩)
    · exact (hq.exited_eq g).symm.trans hx
    · exact (hq.stopped g).symm.trans hs
    · exact (hq.stopReported g).symm.trans hr

theorem attended_init : Attended init := by
  refine ⟨?_, ?_, ?_, ?_, ?_⟩
  · simp [init, Pc.window]
  · simp [init]
  · simp [init, Waiting.OpenExit]
  · simp [init, Waiting.OpenStop]
  · simp [init, Pc.todo]

/-- **No lost wakeup**, along every run in which each stop finds `stop_reported` down and no
child comes to match a waiter that has looked for its children. -/
theorem noLostWakeup_of_steady {l : List (List Note)} (h : Run SteadyStep init l s) :
    s.NoLostWakeup := by
  have hboth : Sound s ∧ Attended s := by
    refine h.invariant (P := fun s => Sound s ∧ Attended s) ⟨sound_init, attended_init⟩ ?_
    rintro s es s' ⟨hs, ha⟩ hstep
    obtain ⟨a, hstep', -⟩ := id hstep
    exact ⟨(counted_step hs hstep').1, attended_step ha hs hstep⟩
  exact hboth.2.noLostWakeup

namespace Waiting

/-- Every entry of `pid_map` was there before, with the same parent and the same groups. -/
def sameKin (s s' : Waiting) : Bool :=
  s'.procs.pidMap.all fun p => decide (p ∈ s.procs.pidMap ∧ s'.procs.tgid p = s.procs.tgid p ∧
    (s'.procs.group (s.procs.tgid p)).ppid = (s.procs.group (s.procs.tgid p)).ppid ∧
    (s'.procs.task p).pgid = (s.procs.task p).pgid)

/-- The steps of a list, as long as they are fresh and keep the kin. -/
def steadyPlay (s : Waiting) : List WaitAct → Option (List (List Note) × Waiting)
  | [] => some ([], s)
  | a :: l =>
    (s.step a).bind fun x =>
      if s.freshStop a && s.sameKin x.2 then (x.2.steadyPlay l).map fun y => (x.1 :: y.1, y.2)
      else none

end Waiting

theorem steady_of_sameKin (h : s.sameKin s' = true) : s.Steady s' := by
  intro v w kids _ p hp hm
  obtain ⟨hmem, htg, hpp, hpg⟩ := of_decide_eq_true (List.all_eq_true.mp h p hp)
  refine ⟨hmem, ?_⟩
  simp only [isMatch, Procs.matchChild] at hm ⊢
  rwa [htg, hpp, hpg] at hm

theorem run_steadyPlay {as : List WaitAct} {l : List (List Note)}
    (h : s.steadyPlay as = some (l, s')) : Run SteadyStep s l s' := by
  induction as generalizing s l with
  | nil =>
    cases h
    exact .nil _
  | cons a as ih =>
    obtain ⟨x, hx, hy⟩ := Option.bind_eq_some_iff.mp h
    split_ifs at hy with hc
    obtain ⟨y, hplay, he⟩ := Option.map_eq_some_iff.mp hy
    cases he
    rw [Bool.and_eq_true] at hc
    exact .cons ⟨a, hx, hc.1, steady_of_sameKin hc.2⟩ (ih hplay)

/-- Pid 1 with a child, pid 2. -/
def forked : Waiting := { init with procs := Procs.init.doClone 1 false }

theorem steadyStep_forked : SteadyStep init [] forked :=
  ⟨.task (.clone 1 false), rfl, rfl, fun v w kids hw => by cases hw⟩

/-- Pid 1 waits for any child and, there being no event, goes to sleep. -/
def sleepRun : List WaitAct := .wait 1 0 0 0 :: List.replicate 20 (.go 1 [1, 2])

/-- Pid 2 ends, and has stored `exited` and not yet taken its waiters. -/
def endRun : List WaitAct := [.task (.exit 2 7), .task (.finiSub 2), .fini 2, .go 2 []]

/-- The parent sleeps, the end of its child is there to claim, and the child is about to
wake it. -/
theorem noLostWakeup_endRun : ∃ l s, Run SteadyStep init l s ∧
    s.pc 1 = .asleep ⟨1, 0, 0, 0⟩ [2] ∧ (s.procs.group 2).claimable = true ∧
    s.pc 2 = .notify 2 true ∧ s.NoLostWakeup := by
  have hp : (forked.steadyPlay (sleepRun ++ endRun)).map (fun x =>
      (x.2.pc 1, (x.2.procs.group 2).claimable, x.2.pc 2)) =
      some (.asleep ⟨1, 0, 0, 0⟩ [2], true, .notify 2 true) := by decide
  obtain ⟨⟨l, s⟩, hx, he⟩ := Option.map_eq_some_iff.mp hp
  have hrun := Run.cons steadyStep_forked (run_steadyPlay hx)
  simp only [Prod.mk.injEq] at he
  exact ⟨_, s, hrun, he.1, he.2.1, he.2.2, noLostWakeup_of_steady hrun⟩

/-! ## A stop that wakes nobody -/

theorem play_pc {as : List WaitAct} {l : List (List Note)} (hs : Sound s)
    (h : s.play as = some (l, s')) (hu : ∀ a ∈ as, a.thread ≠ some u) : s'.pc u = s.pc u := by
  induction as generalizing s l with
  | nil =>
    cases h
    rfl
  | cons a as ih =>
    obtain ⟨x, hx, hy⟩ := Option.bind_eq_some_iff.mp h
    obtain ⟨y, hplay, he⟩ := Option.map_eq_some_iff.mp hy
    cases he
    obtain ⟨hs', -, hpc⟩ := counted_step hs hx
    rw [ih hs' hplay fun b hb => hu b (List.mem_cons_of_mem a hb)]
    exact hpc u (hu a List.mem_cons_self)

/-- Pid 1 stops its child and continues it without having waited for it; it waits and goes
to sleep; then the child stops itself. -/
def staleStopRun : List WaitAct :=
  [.task (.clone 1 false), .stop 1 2 19] ++ List.replicate 5 (.go 1 []) ++ [.cont 2] ++ sleepRun ++
    [.stop 2 2 20] ++ List.replicate 3 (.go 2 [])

/-- The second stop leaves its parent asleep with the event there to claim: it finds
`stop_reported` up, and nobody is going to wake the parent. -/
theorem lost_wakeup : ∃ l s, Run WaitStep init l s ∧ s.pc 1 = .asleep ⟨1, 0, 0, 0⟩ [2] ∧
    (∀ t, t ≠ 1 → s.pc t = .run) ∧ ¬ s.NoLostWakeup := by
  have hp : (init.play staleStopRun).map (fun x =>
      ((x.2.pc 1, x.2.pc 2), (x.2.blocked 1, x.2.flagged 1),
        x.2.procs.pidMap, x.2.isMatch ⟨1, 0, 0, 0⟩ 2, (x.2.procs.group 2).claimable)) =
      some ((.asleep ⟨1, 0, 0, 0⟩ [2], .run), (true, false), [1, 2], true, true) := by decide
  obtain ⟨⟨l, s⟩, hx, he⟩ := Option.map_eq_some_iff.mp hp
  simp only [Prod.mk.injEq] at he
  obtain ⟨⟨h1, h2⟩, ⟨hb, hf⟩, hmap, hmatch, hclaim⟩ := he
  have hrest : ∀ t, t ≠ 1 → s.pc t = .run := by
    intro t ht
    by_cases ht2 : t = 2
    · exact ht2 ▸ h2
    · refine play_pc sound_init hx fun a ha => ?_
      have hall : ∀ a ∈ staleStopRun, a.thread = none ∨ a.thread = some 1 ∨ a.thread = some 2 := by
        decide
      rcases hall a ha with h | h | h <;> rw [h] <;> simp [Ne.symm ht, Ne.symm ht2]
  refine ⟨l, s, run_play hx, h1, hrest, fun hno => ?_⟩
  have hidle : ∀ t, s.pc t = .asleep ⟨1, 0, 0, 0⟩ [2] ∨ s.pc t = .run := by
    intro t
    by_cases ht : t = 1
    · exact .inl (ht ▸ h1)
    · exact .inr (hrest t ht)
  rcases hno 1 _ _ h1 hb hf 2 (by rw [hmap]; decide) hmatch hclaim with
    ⟨t, f, ht⟩ | ⟨t, f, ws, ht, -⟩
  · rcases hidle t with h | h <;> rw [h] at ht <;> cases ht
  · rcases hidle t with h | h <;> rw [h] at ht <;> cases ht

end Bpfvm.Process
