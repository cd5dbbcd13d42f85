import Bpfvm.Lib.Runs
import Mathlib.Logic.Function.Basic

/-!
# Condition variables

Every thread owns a word of flags, a mutex and a condition variable on which it alone sleeps. The
flags are atomic: any thread may change those of any other at any time, without the mutex. A sleeper
takes its mutex, tests its flags and, while the test fails, waits; the wait gives the mutex up, and
is ended by a broadcast or for no reason. A wakeup takes the mutex of a thread, may change its flags
once more, and broadcasts.

If every change that can make a test succeed is followed by a wakeup from the same thread, then no
sleeper whose test would succeed is left alone: some thread has changed its flags and has not yet
broadcast.
-/
namespace Bpfvm.CondVar
open Function

variable {ι F K : Type*}

/-- What a thread does: change the flags of `v`, wake `v` up, or sleep until a test succeeds. -/
inductive Op (ι F K : Type*) where
  | change (v : ι) (g : F → F)
  | wakeup (v : ι) (g : F → F)
  | sleep (k : K)

/-- Where a thread is in its next operation. -/
inductive Loc (K : Type*) where
  | ready
  /-- in a wakeup, with the mutex -/
  | locked
  | changed
  | announced
  /-- in a sleep, with the mutex -/
  | testing (k : K)
  /-- the test has failed -/
  | tested (k : K)
  | asleep (k : K)
  /-- out of the wait, without the mutex -/
  | waking (k : K)
  | leaving

/-- A thread, with what it has still to do and the threads whose flags it has changed since it last
broadcast to them. -/
structure Thread (ι F K : Type*) where
  todo : List (Op ι F K)
  loc : Loc K
  unannounced : List ι

structure State (ι F K : Type*) where
  flags : ι → F
  mutex : ι → Option ι
  thread : ι → Thread ι F K

/-! ## Routines -/

/-- A change that makes no test succeed. -/
def Quiet (exit : K → F → Bool) (g : F → F) : Prop :=
  ∀ k f, exit k (g f) = true → exit k f = true

/-- Every change of another thread's flags is quiet, or followed by a wakeup. -/
def Sound (exit : K → F → Bool) (t : ι) : List (Op ι F K) → Prop
  | [] => True
  | .change v g :: rest =>
    (v = t ∨ Quiet exit g ∨ ∃ g', .wakeup v g' ∈ rest) ∧ Sound exit t rest
  | .wakeup _ _ :: rest => Sound exit t rest
  | .sleep _ :: rest => Sound exit t rest

variable {exit : K → F → Bool} {t : ι}

theorem Sound.append {a b : List (Op ι F K)} (ha : Sound exit t a) (hb : Sound exit t b) :
    Sound exit t (a ++ b) := by
  induction a with
  | nil => exact hb
  | cons op a ih =>
    cases op with
    | change v g =>
      refine ⟨ha.1.imp_right (Or.imp_right ?_), ih ha.2⟩
      rintro ⟨g', hg⟩
      exact ⟨g', List.mem_append_left _ hg⟩
    | wakeup v g => exact ih ha
    | sleep k => exact ih ha

theorem Sound.flatMap {α : Type*} {l : List α} {f : α → List (Op ι F K)}
    (h : ∀ x ∈ l, Sound exit t (f x)) : Sound exit t (l.flatMap f) := by
  induction l with
  | nil => trivial
  | cons x l ih =>
    rw [List.flatMap_cons]
    exact (h x List.mem_cons_self).append (ih fun y hy => h y (List.mem_cons_of_mem _ hy))

variable {rest : List (Op ι F K)} {mutex : ι → Option ι}

theorem Sound.tail {op : Op ι F K} (h : Sound exit t (op :: rest)) : Sound exit t rest := by
  cases op with
  | change v g => exact h.2
  | wakeup v g => exact h
  | sleep k => exact h

/-! ## The invariant -/

/-- The mutex that a thread holds at its place. -/
def Thread.holds (t : ι) (x : Thread ι F K) : Option ι :=
  match x.loc, x.todo with
  | .locked, .wakeup v _ :: _ => some v
  | .changed, .wakeup v _ :: _ => some v
  | .announced, .wakeup v _ :: _ => some v
  | .testing _, _ => some t
  | .tested _, _ => some t
  | .leaving, _ => some t
  | _, _ => none

/-- The test of `v` has failed, and no broadcast has come since. -/
def State.Dozing (s : State ι F K) (v : ι) (k : K) : Prop :=
  (s.thread v).loc = .tested k ∨ (s.thread v).loc = .asleep k

/-- `u` has changed the flags of `v` and has still to broadcast to it. -/
def State.Owes (s : State ι F K) (u v : ι) : Prop :=
  v ∈ (s.thread u).unannounced ∧ ∃ g, .wakeup v g ∈ (s.thread u).todo

structure Inv (exit : K → F → Bool) (s : State ι F K) : Prop where
  mutex : ∀ t v, (s.thread t).holds t = some v → s.mutex v = some t
  sound : ∀ t, Sound exit t (s.thread t).todo
  announced : ∀ t v g rest, (s.thread t).loc = .announced →
    (s.thread t).todo = .wakeup v g :: rest → v ∉ (s.thread t).unannounced
  awake : ∀ v k, s.Dozing v k → exit k (s.flags v) = true → ∃ u, u ≠ v ∧ s.Owes u v

/-- Nobody is doing anything. -/
def State.idle (flags : ι → F) : State ι F K := ⟨flags, fun _ => none, fun _ => ⟨[], .ready, []⟩⟩

theorem Inv.idle (exit : K → F → Bool) (flags : ι → F) :
    Inv exit (State.idle flags : State ι F K) := by
  refine ⟨nofun, fun _ => trivial, nofun, fun v k hd => ?_⟩
  obtain hk | hk := hd <;> cases hk

/-! ## Steps -/

variable [DecidableEq ι]

namespace State

def setFlags (s : State ι F K) (v : ι) (g : F → F) : State ι F K :=
  { s with flags := Function.update s.flags v (g (s.flags v)) }

def setMutex (s : State ι F K) (v : ι) (u : Option ι) : State ι F K :=
  { s with mutex := Function.update s.mutex v u }

def setThread (s : State ι F K) (t : ι) (x : Thread ι F K) : State ι F K :=
  { s with thread := Function.update s.thread t x }

def goto (s : State ι F K) (t : ι) (loc : Loc K) : State ι F K :=
  s.setThread t { s.thread t with loc := loc }

/-- The operation is done. -/
def next (s : State ι F K) (t : ι) (rest : List (Op ι F K)) : State ι F K :=
  s.setThread t { s.thread t with todo := rest, loc := .ready }

/-- The flags of `v` are changed by `t`. -/
def changeBy (s : State ι F K) (t v : ι) (g : F → F) : State ι F K :=
  (s.setFlags v g).setThread t
    { s.thread t with unannounced := v :: (s.thread t).unannounced }

/-- The thread stops waiting. -/
def rouse (s : State ι F K) (v : ι) : State ι F K :=
  match (s.thread v).loc with
  | .asleep k => s.goto v (.waking k)
  | _ => s

/-- A broadcast of `t` to `v`. -/
def announce (s : State ι F K) (t v : ι) : State ι F K :=
  let s := s.rouse v
  s.setThread t
    { s.thread t with loc := .announced, unannounced := (s.thread t).unannounced.filter (· ≠ v) }

end State

/-- One step of a thread; `exit` is the test and `routine` tells what a thread may set out to do. -/
inductive Step (exit : K → F → Bool) (routine : ι → List (Op ι F K) → Prop) :
    State ι F K → ι → State ι F K → Prop
  | start {s : State ι F K} {t : ι} {ops : List (Op ι F K)} (hl : (s.thread t).loc = .ready)
      (ht : (s.thread t).todo = []) (hr : routine t ops) : Step exit routine s t (s.next t ops)
  | change {s : State ι F K} {t v : ι} {g : F → F} {rest : List (Op ι F K)}
      (hl : (s.thread t).loc = .ready) (ht : (s.thread t).todo = .change v g :: rest) :
      Step exit routine s t ((s.changeBy t v g).next t rest)
  | lock {s : State ι F K} {t v : ι} {g : F → F} {rest : List (Op ι F K)}
      (hl : (s.thread t).loc = .ready) (ht : (s.thread t).todo = .wakeup v g :: rest)
      (hm : s.mutex v = none) : Step exit routine s t ((s.setMutex v (some t)).goto t .locked)
  | changeLocked {s : State ι F K} {t v : ι} {g : F → F} {rest : List (Op ι F K)}
      (hl : (s.thread t).loc = .locked) (ht : (s.thread t).todo = .wakeup v g :: rest) :
      Step exit routine s t ((s.changeBy t v g).goto t .changed)
  | broadcast {s : State ι F K} {t v : ι} {g : F → F} {rest : List (Op ι F K)}
      (hl : (s.thread t).loc = .changed) (ht : (s.thread t).todo = .wakeup v g :: rest) :
      Step exit routine s t (s.announce t v)
  | unlock {s : State ι F K} {t v : ι} {g : F → F} {rest : List (Op ι F K)}
      (hl : (s.thread t).loc = .announced) (ht : (s.thread t).todo = .wakeup v g :: rest) :
      Step exit routine s t ((s.setMutex v none).next t rest)
  | sleep {s : State ι F K} {t : ι} {k : K} {rest : List (Op ι F K)}
      (hl : (s.thread t).loc = .ready) (ht : (s.thread t).todo = .sleep k :: rest)
      (hm : s.mutex t = none) : Step exit routine s t ((s.setMutex t (some t)).goto t (.testing k))
  /-- the test succeeds, or the time is up -/
  | leave {s : State ι F K} {t : ι} {k : K} (hl : (s.thread t).loc = .testing k) :
      Step exit routine s t (s.goto t .leaving)
  | test {s : State ι F K} {t : ι} {k : K} (hl : (s.thread t).loc = .testing k)
      (he : exit k (s.flags t) = false) : Step exit routine s t (s.goto t (.tested k))
  | wait {s : State ι F K} {t : ι} {k : K} (hl : (s.thread t).loc = .tested k) :
      Step exit routine s t ((s.setMutex t none).goto t (.asleep k))
  /-- the wait ends for no reason, or in time -/
  | spurious {s : State ι F K} {t : ι} {k : K} (hl : (s.thread t).loc = .asleep k) :
      Step exit routine s t (s.goto t (.waking k))
  | relock {s : State ι F K} {t : ι} {k : K} (hl : (s.thread t).loc = .waking k)
      (hm : s.mutex t = none) : Step exit routine s t ((s.setMutex t (some t)).goto t (.testing k))
  | left {s : State ι F K} {t : ι} {k : K} {rest : List (Op ι F K)}
      (hl : (s.thread t).loc = .leaving) (ht : (s.thread t).todo = .sleep k :: rest) :
      Step exit routine s t ((s.setMutex t none).next t rest)

/-! ## No lost wakeup -/

section
variable {routine : ι → List (Op ι F K) → Prop} {s s' : State ι F K} {v : ι}

/-- A step that changes one thread, to `x`, and perhaps flags and mutexes. -/
theorem Inv.update (h : Inv exit s) {x : Thread ι F K} {flags : ι → F}
    (hmutex : ∀ v, x.holds t = some v → mutex v = some t)
    (hothers : ∀ u v, u ≠ t → s.mutex v = some u → mutex v = some u)
    (hsound : Sound exit t x.todo)
    (hannounced : ∀ v g rest, x.loc = .announced → x.todo = .wakeup v g :: rest →
      v ∉ x.unannounced)
    (hself : ∀ k, x.loc = .tested k ∨ x.loc = .asleep k → exit k (flags t) = true →
      s.Dozing t k ∧ exit k (s.flags t) = true)
    (hflags : ∀ v k, v ≠ t → exit k (flags v) = true → exit k (s.flags v) = true ∨
      v ∈ x.unannounced ∧ ∃ g, .wakeup v g ∈ x.todo)
    (howes : ∀ v k, v ≠ t → s.Dozing v k → s.Owes t v →
      v ∈ x.unannounced ∧ ∃ g, .wakeup v g ∈ x.todo) :
    Inv exit ⟨flags, mutex, Function.update s.thread t x⟩ := by
  have hne {u : ι} (hu : u ≠ t) : Function.update s.thread t x u = s.thread u :=
    update_of_ne hu x s.thread
  have ht : Function.update s.thread t x t = x := update_self t x s.thread
  refine ⟨fun u v hu => ?_, fun u => ?_, fun u v g rest hloc htodo => ?_, fun v k hdoze hexit => ?_⟩
  · dsimp only at hu ⊢
    by_cases hut : u = t
    · subst hut
      rw [ht] at hu
      exact hmutex v hu
    · rw [hne hut] at hu
      exact hothers u v hut (h.mutex u v hu)
  · dsimp only
    by_cases hut : u = t
    · subst hut
      rw [ht]
      exact hsound
    · rw [hne hut]
      exact h.sound u
  · dsimp only at hloc htodo ⊢
    by_cases hut : u = t
    · subst hut
      rw [ht] at hloc htodo ⊢
      exact hannounced v g rest hloc htodo
    · rw [hne hut] at hloc htodo ⊢
      exact h.announced u v g rest hloc htodo
  · unfold State.Dozing at hdoze
    dsimp only at hdoze hexit
    by_cases hvt : v = t
    · subst hvt
      rw [ht] at hdoze
      obtain ⟨hold, hexit'⟩ := hself k hdoze hexit
      obtain ⟨u, hu, howe⟩ := h.awake v k hold hexit'
      refine ⟨u, hu, ?_⟩
      unfold State.Owes
      dsimp only
      rw [hne hu]
      exact howe
    · rw [hne hvt] at hdoze
      obtain hexit' | howe := hflags v k hvt hexit
      · obtain ⟨u, hu, howe⟩ := h.awake v k hdoze hexit'
        refine ⟨u, hu, ?_⟩
        unfold State.Owes
        dsimp only
        by_cases hut : u = t
        · subst hut
          rw [ht]
          exact howes v k hvt hdoze howe
        · rw [hne hut]
          exact howe
      · refine ⟨t, Ne.symm hvt, ?_⟩
        unfold State.Owes
        dsimp only
        rw [ht]
        exact howe

theorem mutex_of_acquire (hm : s.mutex v = none) (u w : ι) (hw : s.mutex w = some u) :
    update s.mutex v (some t) w = some u := by
  have hne : w ≠ v := by
    rintro rfl
    rw [hm] at hw
    cases hw
  rwa [update_of_ne hne]

theorem mutex_of_release (hm : s.mutex v = some t) (u w : ι) (hu : u ≠ t)
    (hw : s.mutex w = some u) : update s.mutex v none w = some u := by
  have hne : w ≠ v := by
    rintro rfl
    rw [hm] at hw
    exact hu (Option.some.inj hw).symm
  rwa [update_of_ne hne]

/-- The thread only moves. -/
theorem Inv.goto (h : Inv exit s) {loc : Loc K}
    (hmutex : ∀ v, ({ s.thread t with loc := loc } : Thread ι F K).holds t = some v →
      mutex v = some t) (hothers : ∀ u v, u ≠ t → s.mutex v = some u → mutex v = some u)
    (hloc : loc ≠ .announced)
    (hself : ∀ k, loc = .tested k ∨ loc = .asleep k → exit k (s.flags t) = true → s.Dozing t k) :
    Inv exit ⟨s.flags, mutex, Function.update s.thread t { s.thread t with loc := loc }⟩ :=
  h.update hmutex hothers (h.sound t) (fun _ _ _ ha => absurd ha hloc)
    (fun k hd he => ⟨hself k hd he, he⟩) (fun _ _ _ he => .inl he) fun _ _ _ _ ho => ho

/-- The thread is done with an operation at the end of which it is not to wake up any sleeper. -/
theorem Inv.next (h : Inv exit s) {op : Op ι F K} (ht : (s.thread t).todo = op :: rest)
    (hop : ∀ v g, op = .wakeup v g → v ∉ (s.thread t).unannounced)
    (hothers : ∀ u v, u ≠ t → s.mutex v = some u → mutex v = some u) :
    Inv exit ⟨s.flags, mutex,
      Function.update s.thread t { s.thread t with todo := rest, loc := .ready }⟩ := by
  have hsound := h.sound t
  rw [ht] at hsound
  refine h.update (fun _ hx => by cases hx) hothers hsound.tail (fun _ _ _ ha => by cases ha)
    (fun _ hd => by simp at hd) (fun _ _ _ he => .inl he) fun v k hv hd ho => ?_
  obtain ⟨hun, g, hg⟩ := ho
  rw [ht] at hg
  refine ⟨hun, g, ?_⟩
  obtain heq | hmem := List.mem_cons.mp hg
  · exact absurd hun (hop v g heq.symm)
  · exact hmem

/-- A change of flags by a thread that does not sleep. -/
theorem Inv.changeBy (h : Inv exit s) {g : F → F} {todo : List (Op ι F K)} {loc : Loc K}
    (hmutex : ∀ w, (⟨todo, loc, v :: (s.thread t).unannounced⟩ : Thread ι F K).holds t = some w →
      s.mutex w = some t)
    (hsound : Sound exit t todo) (hloc : loc ≠ .announced)
    (hself : ∀ k, loc ≠ .tested k ∧ loc ≠ .asleep k)
    (hahead : v = t ∨ Quiet exit g ∨ ∃ g', .wakeup v g' ∈ todo)
    (hkeep : ∀ w g, .wakeup w g ∈ (s.thread t).todo → .wakeup w g ∈ todo) :
    Inv exit ⟨Function.update s.flags v (g (s.flags v)), s.mutex,
      Function.update s.thread t ⟨todo, loc, v :: (s.thread t).unannounced⟩⟩ := by
  refine h.update hmutex (fun _ _ _ hm => hm) hsound (fun _ _ _ ha => absurd ha hloc)
    (fun k hd _ => (hd.elim (hself k).1 (hself k).2).elim) (fun w k hw he => ?_)
    fun w k hw hd ho => ⟨List.mem_cons_of_mem _ ho.1, ho.2.imp fun g hg => hkeep w g hg⟩
  by_cases hwv : w = v
  · subst hwv
    rw [update_self] at he
    obtain rfl | hquiet | hwake := hahead
    · exact absurd rfl hw
    · exact .inl (hquiet k _ he)
    · exact .inr ⟨List.mem_cons_self, hwake⟩
  · rw [update_of_ne hwv] at he
    exact .inl he

/-! A broadcast rouses the sleeper first. -/

theorem Inv.waking (h : Inv exit s) (t : ι) (k : K) : Inv exit (s.goto t (.waking k)) :=
  h.goto (fun _ hx => by cases hx) (fun _ _ _ hm => hm) nofun fun _ hd => by simp at hd

theorem Inv.rouse (h : Inv exit s) (v : ι) : Inv exit (s.rouse v) := by
  unfold State.rouse
  split
  · exact h.waking v _
  · exact h

theorem rouse_mutex (s : State ι F K) (v : ι) : (s.rouse v).mutex = s.mutex := by
  unfold State.rouse
  split <;> rfl

theorem rouse_thread (hl : ∀ k, (s.thread t).loc ≠ .asleep k) (v : ι) :
    (s.rouse v).thread t = s.thread t := by
  unfold State.rouse
  split
  · next k hk =>
    refine update_of_ne ?_ _ _
    rintro rfl
    exact hl k hk
  · rfl

theorem not_dozing_rouse (hl : ∀ k, (s.thread v).loc ≠ .tested k) (k : K) :
    ¬ (s.rouse v).Dozing v k := by
  unfold State.rouse
  split
  · simp [State.Dozing, State.goto, State.setThread]
  · next hasleep =>
    rintro (htested | hk)
    · exact hl k htested
    · exact hasleep k hk

theorem Inv.announce (h : Inv exit s) {g : F → F} (hl : (s.thread t).loc = .changed)
    (ht : (s.thread t).todo = .wakeup v g :: rest) : Inv exit (s.announce t v) := by
  have hmutex : s.mutex v = some t := h.mutex t v (by simp only [Thread.holds, hl, ht])
  -- whoever has tested its flags holds the mutex that this thread holds
  have htested (k : K) : (s.thread v).loc ≠ .tested k := by
    intro hk
    have hself : s.mutex v = some v := h.mutex v v (by simp only [Thread.holds, hk])
    rw [hmutex] at hself
    cases hself
    rw [hl] at hk
    cases hk
  have hthread : (s.rouse v).thread t = s.thread t := rouse_thread (fun k => by rw [hl]; nofun) v
  have hsound := h.sound t
  unfold State.announce
  dsimp only
  refine (h.rouse v).update ?_ (fun _ _ _ hm => hm) ?_ ?_ ?_ ?_ ?_
  · intro w hw
    simp only [Thread.holds, hthread, ht, Option.some.injEq] at hw
    rw [rouse_mutex, ← hw]
    exact hmutex
  · rwa [hthread]
  · intro w g' rest' _ hw
    rw [hthread, ht] at hw
    cases hw
    simp
  · intro k hd
    simp at hd
  · exact fun _ _ _ he => .inl he
  · intro w k hw hd ho
    obtain ⟨hun, hwake⟩ := ho
    refine ⟨List.mem_filter.mpr ⟨hun, ?_⟩, hwake⟩
    simp only [decide_not, Bool.not_eq_eq_eq_not, Bool.not_true, decide_eq_false_iff_not]
    rintro rfl
    exact not_dozing_rouse htested k hd

theorem Inv.step (hr : ∀ t ops, routine t ops → Sound exit t ops) (h : Inv exit s)
    (hs : Step exit routine s t s') : Inv exit s' := by
  cases hs with
  | start hl ht hops =>
    refine h.update (fun _ hx => by cases hx) (fun _ _ _ hm => hm) (hr t _ hops)
      (fun _ _ _ ha => by cases ha) (fun _ hd => by simp at hd) (fun _ _ _ he => .inl he)
      fun _ _ _ _ ho => ?_
    obtain ⟨-, g, hg⟩ := ho
    rw [ht] at hg
    cases hg
  | @change v g rest hl ht =>
    have hsound := h.sound t
    rw [ht] at hsound
    have heq : (s.changeBy t v g).next t rest =
        ⟨Function.update s.flags v (g (s.flags v)), s.mutex,
          Function.update s.thread t ⟨rest, .ready, v :: (s.thread t).unannounced⟩⟩ := by
      simp [State.changeBy, State.next, State.setThread, State.setFlags]
    rw [heq]
    refine h.changeBy (fun w hw => by cases hw) hsound.2 nofun (fun _ => ⟨nofun, nofun⟩) hsound.1
      fun w g' hw => ?_
    rw [ht] at hw
    exact (List.mem_cons.mp hw).resolve_left nofun
  | @lock v g rest hl ht hm =>
    refine h.goto (fun w hw => ?_) (fun u w _ => mutex_of_acquire hm u w) nofun
      fun _ hd => by simp at hd
    simp only [Thread.holds, ht, Option.some.injEq] at hw
    rw [hw]
    exact update_self w _ _
  | @changeLocked v g rest hl ht =>
    have heq : (s.changeBy t v g).goto t .changed =
        ⟨Function.update s.flags v (g (s.flags v)), s.mutex, Function.update s.thread t
          ⟨(s.thread t).todo, .changed, v :: (s.thread t).unannounced⟩⟩ := by
      simp [State.changeBy, State.goto, State.setThread, State.setFlags]
    rw [heq]
    refine h.changeBy (fun w hw => h.mutex t w ?_) (h.sound t) nofun (fun _ => ⟨nofun, nofun⟩)
      (.inr (.inr ⟨g, ?_⟩)) fun _ _ hw => hw
    · simpa only [Thread.holds, hl, ht] using hw
    · rw [ht]
      exact List.mem_cons_self
  | broadcast hl ht => exact h.announce hl ht
  | @unlock v g rest hl ht =>
    have hm : s.mutex v = some t := h.mutex t v (by simp only [Thread.holds, hl, ht])
    refine h.next ht ?_ fun u w hu => mutex_of_release hm u w hu
    rintro w g' ⟨⟩
    exact h.announced t v g rest hl ht
  | sleep hl ht hm | relock hl hm =>
    refine h.goto (fun w hw => ?_) (fun u w _ => mutex_of_acquire hm u w) nofun
      fun _ hd => by simp at hd
    simp only [Thread.holds, Option.some.injEq] at hw
    rw [hw]
    exact update_self w _ _
  | leave hl =>
    refine h.goto (fun w hw => h.mutex t w ?_) (fun _ _ _ hm => hm) nofun fun _ hd => by simp at hd
    simpa only [Thread.holds, hl] using hw
  | @test k hl he =>
    refine h.goto (fun w hw => h.mutex t w ?_) (fun _ _ _ hm => hm) nofun fun k' hd hexit => ?_
    · simpa only [Thread.holds, hl] using hw
    · obtain hk | hk := hd
      · cases hk
        rw [he] at hexit
        cases hexit
      · cases hk
  | @wait k hl =>
    have hm : s.mutex t = some t := h.mutex t t (by simp only [Thread.holds, hl])
    refine h.goto (fun w hw => by cases hw) (fun u w hu => mutex_of_release hm u w hu) nofun
      fun k' hd _ => ?_
    obtain hk | hk := hd
    · cases hk
    · cases hk
      exact .inl hl
  | spurious hl => exact h.waking t _
  | @left k rest hl ht =>
    have hm : s.mutex t = some t := h.mutex t t (by simp only [Thread.holds, hl])
    exact h.next ht nofun fun u w hu => mutex_of_release hm u w hu

/-- No lost wakeup: if a thread is asleep while its test would succeed, then another thread has
changed its flags and has still to broadcast to it. -/
theorem owes_of_run (hr : ∀ t ops, routine t ops → Sound exit t ops) {flags : ι → F} {l : List ι}
    (h : Run (Step exit routine) (.idle flags) l s) {k : K} (hl : (s.thread v).loc = .asleep k)
    (he : exit k (s.flags v) = true) : ∃ u, u ≠ v ∧ s.Owes u v :=
  (h.invariant (Inv.idle exit flags) fun _ _ _ hi hs => hi.step hr hs).awake v k (.inr hl) he

end

end Bpfvm.CondVar
