import Bpfvm.Signal.Steps

/-!
# Blocked signals and the waiting calls

`wait_for` and `do_wait_common` look at `VM_SIGNAL_PENDING`, which is set whether or not the event
is blocked. So a blocked event interrupts them, and they sleep through a segment in which they find
the flag clear.
-/
namespace Bpfvm.Signal
open Process.Futex (Rc)

namespace State

/-- All queued events are blocked, and the thread is not to stop or to end. -/
def Calm (s : State) : Prop :=
  (∀ e ∈ s.queue, e.memOf s.sigmask = true) ∧ s.flags.halting = false

/-- The flag is clear where `wait_for` or `do_wait_common` looks at it. -/
def Unnoticed (s : State) : Prop :=
  match s.pc with
  | .waitHead | .waitFor _ _ => s.flags.pending = false
  | _ => True

instance (s : State) : Decidable s.Calm := by
  unfold State.Calm
  infer_instance

instance (s : State) : Decidable s.Unnoticed :=
  decidable_of_iff ((match s.pc with
    | .waitHead | .waitFor _ _ => !s.flags.pending
    | _ => true) = true) (by
  unfold State.Unnoticed
  cases s.pc <;> simp)

end State

/-- A step of a segment in which all queued events are blocked. -/
def CalmStep (s : State) (es : List Note) (s' : State) : Prop :=
  ∃ a, s.step a = some (es, s') ∧ s.Calm

/-- The same, with the flag clear where it is looked at. -/
def QuietStep (s : State) (es : List Note) (s' : State) : Prop :=
  ∃ a, s.step a = some (es, s') ∧ s.Calm ∧ s.Unnoticed

/-- How `wait_for` is left when nothing interrupts it; `woken` tells whether there has been a
wakeup. -/
def Left (woken : Prop) (w : Waiter) (rc : Rc) : Prop :=
  woken ∧ rc = .ok ∨ w = .futex true ∧ rc = .timedOut

structure Smooth (woken : Prop) (s : State) : Prop where
  rc : ∀ w mask rc, s.pc = .unblock w mask rc → Left woken w rc
  blocked : ∀ w mask, s.pc = .waitFor w mask → woken ∨ s.flags.blocked = true

/-- What a step of such a segment shows. -/
def Note.Smooth (woken : Prop) : Note → Prop
  | .waited w rc => Left woken w rc
  | .returned (.futex t) rc => Left woken (.futex t) rc
  | .returned w rc => w ≠ .suspend → rc = .ok
  | .woken => woken
  | _ => True

theorem not_left_interrupted {woken : Prop} {w : Waiter} : ¬ Left woken w .interrupted := by
  simp [Left]

section
variable {s s' : State} {es : List Note} {b : Bool} {order : List ℕ} {a : Act} {f : Flags} {pc : Pc}
  {woken : Prop}

theorem left_of_waitFor {w : Waiter} {mask : U64} {rc : Rc} (hpc : s.pc = .waitFor w mask)
    (hc : s.Calm) (hu : s.Unnoticed) (hs : Smooth woken s) (h : s.waitFor w b = some rc) :
    Left woken w rc := by
  have hp : s.flags.pending = false := by simpa only [State.Unnoticed, hpc] using hu
  unfold State.waitFor at h
  rw [hp, hc.2] at h
  split_ifs at h with hb hf ht
  · cases h
    refine .inl ⟨(hs.blocked w mask hpc).resolve_right fun hbl => ?_, rfl⟩
    rw [hbl] at hb
    cases hb
  · cases hf
  · cases h
    exact .inr ⟨ht.1, rfl⟩

/-- The owner is not in `wait_for`. -/
def Pc.waits : Pc → Bool
  | .waitFor _ _ | .unblock _ _ _ => true
  | _ => false

theorem smooth_of_not_waits (h : s.pc.waits = false) : Smooth woken s := by
  constructor
  · intro w mask rc hpc
    rw [hpc] at h
    cases h
  · intro w mask hpc
    rw [hpc] at h
    cases h

/-- A step after which the owner is where it was, with `VM_BLOCKED` as it was. -/
theorem Smooth.congr (h : Smooth woken s) (hpc : s'.pc = s.pc)
    (hb : s'.flags.blocked = s.flags.blocked) : Smooth woken s' := by
  constructor
  · rw [hpc]
    exact h.rc
  · rw [hpc, hb]
    exact h.blocked

theorem smooth_of_advances (h : Advances s b es f pc) (hc : s.Calm) (hu : s.Unnoticed)
    (hs : Smooth woken s) :
    Smooth woken { s with flags := f, pc := pc } ∧ ∀ n ∈ es, n.Smooth woken := by
  cases h with
  | rearmed | rearm | raise | suspend | undeliverable | waitSleep | execSleep =>
    exact ⟨smooth_of_not_waits rfl, by simp⟩
  | halted | deliverable | waitDone | execDone =>
    exact ⟨smooth_of_not_waits rfl, by simp [Note.Smooth]⟩
  | waitInterrupted hpc hf =>
    have hp : s.flags.pending = false := by simpa only [State.Unnoticed, hpc] using hu
    rw [hp, hc.2] at hf
    cases hf
  | block hpc => exact ⟨⟨by simp, fun _ _ _ => .inr rfl⟩, by simp⟩
  | waitFor hpc hw =>
    have hleft := left_of_waitFor hpc hc hu hs hw
    refine ⟨⟨?_, by simp⟩, by simpa [Note.Smooth] using hleft⟩
    intro w mask rc he
    cases he
    exact hleft
  | @unblock w mask rc hpc =>
    have hleft := hs.rc w mask rc hpc
    cases w with
    | suspend | wait => exact ⟨smooth_of_not_waits rfl, by simp [State.afterWait]⟩
    | futex t =>
      exact ⟨smooth_of_not_waits rfl, by simpa [State.afterWait, Note.Smooth] using hleft⟩
    | exec =>
      -- only a futex wait has a timeout
      obtain ⟨-, rfl⟩ | ⟨hw, -⟩ := hleft
      · exact ⟨smooth_of_not_waits rfl, by simp [State.afterWait]⟩
      · cases hw

theorem smooth_of_scanOne {blocked : U64} {left : ℕ} {fds : Option (List ℕ)}
    {deferred rest : List SigEvent} {e : SigEvent}
    (h : s.scanOne blocked left fds deferred b order e rest = some (es, s')) :
    Smooth woken s' ∧ ∀ n ∈ es, n.Smooth woken := by
  unfold State.scanOne at h
  split at h
  · split at h
    · obtain ⟨-, he⟩ := Option.ite_none_right_eq_some.mp h
      cases he
      exact ⟨smooth_of_not_waits rfl, by simp⟩
    · dsimp only at h
      split at h
      · rename_i hd
        unfold State.deliver at hd
        obtain ⟨id, -, he⟩ := Option.map_eq_some_iff.mp hd
        cases h
        refine ⟨smooth_of_not_waits rfl, ?_⟩
        split at he <;> cases he <;> simp [Note.Smooth]
      · cases h
        exact ⟨smooth_of_not_waits rfl, by simp⟩
  · cases h
    exact ⟨smooth_of_not_waits rfl, by simp⟩

theorem smooth_of_goes (h : Goes s b order es s') (hc : s.Calm) (hu : s.Unnoticed)
    (hs : Smooth woken s) : Smooth woken s' ∧ ∀ n ∈ es, n.Smooth woken := by
  cases h with
  | enter | stop => exact ⟨smooth_of_not_waits rfl, by simp⟩
  | one hpc hq h => exact smooth_of_scanOne h
  | @back chosen deferred hpc =>
    refine ⟨smooth_of_not_waits ?_, by simp⟩
    unfold State.putBack
    cases chosen <;> rfl
  | @act e a hpc =>
    refine ⟨smooth_of_not_waits ?_, by simp [Note.Smooth]⟩
    unfold State.actOn
    split <;> rfl
  | advance h => exact smooth_of_advances h hc hu hs

theorem Begins.not_waits {mask : U64} (h : Begins s a mask pc) : pc.waits = false := by
  cases h <;> rfl

theorem smooth_of_step (h : s.step a = some (es, s')) (hc : s.Calm) (hu : s.Unnoticed)
    (hw : .woken ∈ es → woken) (hs : Smooth woken s) :
    Smooth woken s' ∧ ∀ n ∈ es, n.Smooth woken := by
  cases steps_of_step h with
  | go h => exact smooth_of_goes h hc hu hs
  | start hpc hb => exact ⟨smooth_of_not_waits hb.not_waits, by simp⟩
  | publish => exact ⟨hs.congr rfl rfl, by simp⟩
  | push | fromOther | read => exact ⟨hs.congr rfl rfl, by simp [Note.Smooth]⟩
  | aside h => exact ⟨hs.congr h.pc h.blocked, by simp⟩
  | woken =>
    have hwoken := hw (List.mem_singleton.mpr rfl)
    exact ⟨⟨hs.rc, fun _ _ _ => .inl hwoken⟩, by simpa [Note.Smooth] using hwoken⟩

theorem smooth_of_run {l : List (List Note)} (h : Run QuietStep s l s')
    (hw : .woken ∈ l.flatten → woken) (hs : Smooth woken s) :
    Smooth woken s' ∧ ∀ n ∈ l.flatten, n.Smooth woken := by
  induction h with
  | nil => exact ⟨hs, by simp⟩
  | snoc hrun hstep ih =>
    rw [List.flatten_append, List.flatten_singleton] at hw ⊢
    obtain ⟨a, ha, hc, hu⟩ := hstep
    obtain ⟨hsmooth, hes⟩ := ih fun h => hw (List.mem_append_left _ h)
    have hw' : Note.woken ∈ _ → woken := fun h => hw (List.mem_append_right _ h)
    obtain ⟨hsmooth', hes'⟩ := smooth_of_step ha hc hu hw' hsmooth
    exact ⟨hsmooth', fun n hn => (List.mem_append.mp hn).elim (hes n) (hes' n)⟩

/-- With its time up, a call that nobody wakes returns `-ETIMEDOUT`. -/
theorem run_timedOut {mask : U64} (hpc : s.pc = .waitFor (.futex true) mask)
    (hb : s.flags.blocked = true) (hc : s.Calm) (hu : s.Unnoticed) :
    ∃ l s', Run Step s l s' ∧ s'.pc = .guest ∧
      l.flatten = [.waited (.futex true) .timedOut, .returned (.futex true) .timedOut] := by
  have hp : s.flags.pending = false := by simpa only [State.Unnoticed, hpc] using hu
  have hw : s.waitFor (.futex true) true = some .timedOut := by
    simp [State.waitFor, hb, hp, hc.2]
  have h₁ : s.step (.go true []) = some ([.waited (.futex true) .timedOut],
      { s with pc := .unblock (.futex true) mask .timedOut }) := by
    simp [State.step, State.go, State.advance, hpc, hw]
  have hrun : Run Step s _ _ := (Run.single ⟨_, h₁⟩).snoc ⟨.go true [], rfl⟩
  exact ⟨_, _, hrun, rfl, rfl⟩

/-- In a segment in which all queued events are blocked and the flag is clear where it is looked at,
`wait_for` is not interrupted, and none of the calls is restarted. A futex wait that nobody wakes is
left for its timeout only, and with its time up it is left. -/
theorem uninterrupted_of_run {l : List (List Note)} (h : Run QuietStep s l s')
    (hs : ∀ w mask rc, s.pc = .unblock w mask rc → Left True w rc) :
    (∀ w, .waited w .interrupted ∉ l.flatten) ∧
    (∀ w, w ≠ .suspend → .returned w .interrupted ∉ l.flatten) ∧
    (s.pc = .guest → .woken ∉ l.flatten →
      (∀ t rc, .returned (.futex t) rc ∈ l.flatten → t = true ∧ rc = .timedOut) ∧
      ∀ mask, s'.pc = .waitFor (.futex true) mask → s'.Calm → s'.Unnoticed →
        ∃ l₂ s₂, Run Step s' l₂ s₂ ∧ s₂.pc = .guest ∧
          l₂.flatten = [.waited (.futex true) .timedOut, .returned (.futex true) .timedOut]) := by
  obtain ⟨-, hnotes⟩ := smooth_of_run h (fun _ => trivial) ⟨hs, fun _ _ _ => .inl trivial⟩
  refine ⟨fun w hn => ?_, fun w hw hn => ?_, fun hpc hw => ?_⟩
  · exact not_left_interrupted (hnotes _ hn)
  · have hsmooth := hnotes _ hn
    cases w with
    | futex t => exact not_left_interrupted hsmooth
    | suspend | wait | exec => cases hsmooth hw
  · have hcalm : Smooth False s := smooth_of_not_waits (by rw [hpc]; rfl)
    obtain ⟨hend, hnotes⟩ := smooth_of_run h hw hcalm
    constructor
    · intro t rc hn
      obtain ⟨hf, -⟩ | ⟨ht, hrc⟩ := hnotes _ hn
      · exact hf.elim
      · cases ht
        exact ⟨rfl, hrc⟩
    · intro mask hpc' hc hu
      exact run_timedOut hpc' ((hend.blocked _ _ hpc').resolve_left id) hc hu

end

/-! ## A blocked event in the queue -/

def Note.waited? : Note → Option (Waiter × Rc)
  | .waited w rc => some (w, rc)
  | _ => none

def Note.returned? : Note → Option (Waiter × Rc)
  | .returned w rc => some (w, rc)
  | _ => none

/-- A blocked event arrives during a futex wait, and is not published before the time is up. -/
theorem uninterrupted_of_run_timedOut : ∃ l s, Run QuietStep (catching 0x200) l s ∧
    s.queue = [usr1 0] ∧ l.flatten.filterMap Note.returned? = [(.futex true, .timedOut)] ∧
    ∀ w, .waited w .interrupted ∉ l.flatten := by
  obtain ⟨l, s, hrun, hx⟩ := Run.exists_of_play (f := State.step)
    (C := fun s _ => s.Calm ∧ s.Unnoticed) (s := catching 0x200)
    [.futexWait true, .go false [], .send 1 (usr1 0), .push 1, .go true [], .go true []]
    (fun x => (x.2.queue, x.1.flatten.filterMap Note.returned?))
    (x := ([usr1 0], [(.futex true, .timedOut)])) (by decide +kernel)
  obtain ⟨hq, hr⟩ := Prod.mk.injEq .. ▸ hx
  exact ⟨l, s, hrun, hq, hr, (uninterrupted_of_run hrun fun _ _ _ h => by cases h).1⟩

/-- A blocked event is queued, with its flag set. `FUTEX_WAIT` is interrupted at once, and so is
`wait4`. -/
theorem blocked_signal_interrupts : ∃ l s, Run CalmStep (catching 0x200) l s ∧
    l.flatten.filterMap Note.waited? = [(.futex true, .interrupted)] ∧
    l.flatten.filterMap Note.returned? = [(.futex true, .interrupted), (.wait, .interrupted)] := by
  obtain ⟨l, s, hrun, hx⟩ := Run.exists_of_play (f := State.step) (C := fun s _ => s.Calm)
    (s := catching 0x200) (sending (usr1 0) ++ handling 5 true [] ++
      [.futexWait true, .go false [], .go false [], .go false [], .wait, .go false []])
    (fun x => (x.1.flatten.filterMap Note.waited?, x.1.flatten.filterMap Note.returned?))
    (x := ([(.futex true, .interrupted)], [(.futex true, .interrupted), (.wait, .interrupted)]))
    (by decide +kernel)
  obtain ⟨hw, hr⟩ := Prod.mk.injEq .. ▸ hx
  exact ⟨l, s, hrun, hw, hr⟩

end Bpfvm.Signal
