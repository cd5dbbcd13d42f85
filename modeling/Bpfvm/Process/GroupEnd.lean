import Bpfvm.Lib.Runs
import Mathlib.Data.List.Basic
import Mathlib.Logic.Function.Basic

/-!
# Ending a thread group while it grows

`do_exit_group` and `exec_common` kill the threads they find in `tg->threads`, under
`tg->mtx`. `do_clone` starts the new thread, counts it in `live_threads` and enters it in
`tg->threads` one after the other, holding the lock only for the last. Here these are
separate steps of one group.
-/
namespace Bpfvm.Process
open Function List

/-- What `do_clone` does next. -/
inductive CloneStage where
  /-- `pthread_create` -/
  | create
  /-- `live_threads.fetch_add` -/
  | count
  /-- `threads.push_back` -/
  | register
  /-- the new thread's `VM_STOPPED` is cleared -/
  | release
  deriving DecidableEq, Repr

/-- Where a thread is. -/
inductive Place where
  | absent
  /-- started, at its first safepoint -/
  | fresh
  | run
  | cloning (child : ℕ) (stage : CloneStage)
  /-- in the kill loop of `do_exit_group`, or of `exec_common` -/
  | killing (exec : Bool) (rest : List ℕ)
  /-- `exec_common` waits for the other threads -/
  | gathering
  | leaving
  | gone
  deriving DecidableEq, Repr

/-- One thread group. `finished` lists the threads that have gone through their kill loop
and whose `do_exit_group` or `exec_common` stands. -/
structure Crew where
  threads : List ℕ
  liveThreads : ℕ
  mtx : Option ℕ
  killed : ℕ → Bool
  exited : ℕ → Bool
  stopped : ℕ → Bool
  place : ℕ → Place
  nextPid : ℕ
  finished : List ℕ

inductive CrewAct where
  /-- the next step of a thread inside one of the functions -/
  | go (t : ℕ)
  /-- `do_clone` with `CLONE_THREAD`, as far as the new thread's `VM_STOPPED` -/
  | clone (t : ℕ)
  | exitGroup (t : ℕ)
  | exec (t : ℕ)
  /-- `wait_for` in `exec_common` is interrupted -/
  | interrupt (t : ℕ)
  | exit (t : ℕ)
  /-- `VM_KILLED` from elsewhere -/
  | kill (t : ℕ)
  /-- `VM_STOPPED` for the whole group, by `stop_process` or `SIGCONT` -/
  | stop (b : Bool)
  | safepoint (t : ℕ)
  /-- the thread returns from its bottom frame -/
  | ret (t : ℕ)
  | fini (t : ℕ)
  deriving DecidableEq, Repr

namespace Crew

def move (s : Crew) (t : ℕ) (p : Place) : Crew :=
  { s with place := update s.place t p }

/-- The flags let a thread go past a safepoint. -/
def passes (s : Crew) (t : ℕ) : Bool := !s.killed t && !s.exited t && !s.stopped t

def go (s : Crew) (t : ℕ) : Option Crew :=
  match s.place t with
  | .cloning c .create => some ((s.move c .fresh).move t (.cloning c .count))
  | .cloning c .count =>
    some ({ s with liveThreads := s.liveThreads + 1 }.move t (.cloning c .register))
  | .cloning c .register =>
    if s.mtx = none then
      some ({ s with threads := s.threads ++ [c] }.move t (.cloning c .release))
    else none
  | .cloning c .release =>
    some ({ s with stopped := update s.stopped c false }.move t .run)
  | .killing exec (u :: rest) =>
    some ({ s with killed := if u = t then s.killed else update s.killed u true }.move t
      (.killing exec rest))
  | .killing true [] => some ({ s with mtx := none, finished := t :: s.finished }.move t .gathering)
  | .killing false [] =>
    some ({ s with
      mtx := none
      finished := t :: s.finished
      exited := update s.exited t true }.move t .run)
  | .gathering =>
    if s.mtx = none ∧ s.liveThreads ≤ 1 then
      some ({ s with finished := s.finished.filter (· ≠ t) }.move t .run)
    else none
  | _ => none

def step (s : Crew) : CrewAct → Option Crew
  | .go t => s.go t
  | .clone t =>
    if s.place t = .run then
      some ({ s with
        nextPid := s.nextPid + 1
        stopped := update s.stopped s.nextPid true }.move t (.cloning s.nextPid .create))
    else none
  | .exitGroup t =>
    if s.place t = .run ∧ s.mtx = none then
      some ({ s with mtx := some t }.move t (.killing false s.threads))
    else none
  | .exec t =>
    if s.place t = .run ∧ s.mtx = none then
      some ({ s with mtx := some t }.move t (.killing true s.threads))
    else none
  | .interrupt t =>
    if s.place t = .gathering then
      some ({ s with finished := s.finished.filter (· ≠ t) }.move t .run)
    else none
  | .exit t =>
    if s.place t = .run then some { s with exited := update s.exited t true } else none
  | .kill t => some { s with killed := update s.killed t true }
  | .stop b => some { s with stopped := fun t => if t ∈ s.threads then b else s.stopped t }
  | .safepoint t =>
    if s.place t = .run ∨ s.place t = .fresh then
      if s.killed t || s.exited t then some (s.move t .leaving)
      else if s.stopped t then none
      else some (s.move t .run)
    else none
  | .ret t => if s.place t = .run then some (s.move t .leaving) else none
  | .fini t =>
    if s.place t = .leaving then
      some ({ s with liveThreads := s.liveThreads - 1 }.move t .gone)
    else none

/-- A group of one thread. -/
def init : Crew where
  threads := [1]
  liveThreads := 1
  mtx := none
  killed := fun _ => false
  exited := fun _ => false
  stopped := fun _ => false
  place := fun t => if t = 1 then .run else .absent
  nextPid := 2
  finished := []

end Crew

def CrewStep (s : Crew) (a : CrewAct) (s' : Crew) : Prop := s.step a = some s'

namespace Crew

/-- Once a thread is through its kill loop no other registered thread gets past a safepoint,
and while `exec_common` waits every thread that it waits for has been told to end. -/
def Complete (s : Crew) : Prop :=
  (∀ e ∈ s.finished, ∀ t ∈ s.threads, t ≠ e → s.place t = .run ∨ s.place t = .fresh →
    s.passes t = false) ∧
  ∀ e, s.place e = .gathering → ∀ t, t ≠ e → s.place t ≠ .absent → s.place t ≠ .gone →
    s.place t = .leaving ∨ s.killed t = true ∨ s.exited t = true

/-- No thread of the group is being cloned from the start of a kill loop on. -/
def Apart (s : Crew) : Prop :=
  ∀ t c stage, s.place t = .cloning c stage →
    s.finished = [] ∧ ∀ e exec rest, s.place e ≠ .killing exec rest

end Crew

/-- A step after which clones and kill loops are apart. -/
def ApartStep (s : Crew) (a : CrewAct) (s' : Crew) : Prop := s.step a = some s' ∧ s'.Apart

/-- Told to end, or ended. -/
def Crew.told (s : Crew) (t : ℕ) : Prop :=
  s.killed t = true ∨ s.exited t = true ∨ s.place t = .leaving ∨ s.place t = .gone

/-! ## Who is in the group -/

/-- Every thread that exists is registered or in the hands of the one that clones it. -/
structure Roster (s : Crew) : Prop where
  known : ∀ t, s.place t ≠ .absent → t ∈ s.threads ∨ ∃ u stage, s.place u = .cloning t stage
  unborn : ∀ t c, s.place t = .cloning c .create → s.place c = .absent
  born : ∀ t c, s.place t = .cloning c .release → c ∈ s.threads
  child : ∀ t c stage, s.place t = .cloning c stage → c < s.nextPid
  sole : ∀ t u c stage stage', s.place t = .cloning c stage → s.place u = .cloning c stage' → t = u
  alloc : ∀ t, s.nextPid ≤ t → s.place t = .absent

variable {s s' : Crew} {t : ℕ}

/-- A step that clones nothing. -/
theorem Roster.keep (h : Roster s) (hth : s'.threads = s.threads) (hn : s'.nextPid = s.nextPid)
    (hc : ∀ u c stage, s'.place u = .cloning c stage ↔ s.place u = .cloning c stage)
    (ha : ∀ u, s'.place u = .absent ↔ s.place u = .absent) : Roster s' := by
  refine ⟨fun u hu => ?_, fun u c hu => ?_, fun u c hu => ?_, fun u c stage hu => ?_,
    fun u v c stage stage' hu hv => ?_, fun u hu => ?_⟩
  · rcases h.known u (mt (ha u).mpr hu) with hm | ⟨v, stage, hv⟩
    · exact .inl (hth ▸ hm)
    · exact .inr ⟨v, stage, (hc v u stage).mpr hv⟩
  · exact (ha c).mpr (h.unborn u c ((hc u c _).mp hu))
  · rw [hth]
    exact h.born u c ((hc u c _).mp hu)
  · rw [hn]
    exact h.child u c stage ((hc u c stage).mp hu)
  · exact h.sole u v c stage stage' ((hc u c stage).mp hu) ((hc v c stage').mp hv)
  · exact (ha u).mpr (h.alloc u (hn ▸ hu))

variable {p q : Place} {c e : ℕ}

/-- In the group, and not in `do_clone`. -/
def Place.Settled (p : Place) : Prop := p ≠ .absent ∧ ∀ c stage, p ≠ .cloning c stage

/-- A thread that goes from one place to another, neither of them in `do_clone`. -/
theorem Roster.move (h : Roster s) (hs : s'.place = update s.place t p)
    (hth : s'.threads = s.threads) (hn : s'.nextPid = s.nextPid) (hfrom : (s.place t).Settled)
    (hto : p.Settled) : Roster s' := by
  refine h.keep hth hn (fun u c stage => ?_) (fun u => ?_) <;> rw [hs, update_apply] <;>
    split
  · subst u
    exact iff_of_false (hto.2 c stage) (hfrom.2 c stage)
  · rfl
  · subst u
    exact iff_of_false hto.1 hfrom.1
  · rfl

theorem roster_clone (h : Roster s) (ht : s.place t = .run) (f : ℕ → Bool) :
    Roster ({ s with nextPid := s.nextPid + 1, stopped := f }.move t
    (.cloning s.nextPid .create)) := by
  obtain ⟨h1, h2, h3, h4, h5, h6⟩ := h
  constructor <;> simp only [Crew.move, update_apply] <;> grind

theorem roster_create (h : Roster s) (ht : s.place t = .cloning c .create) :
    Roster ((s.move c .fresh).move t (.cloning c .count)) := by
  obtain ⟨h1, h2, h3, h4, h5, h6⟩ := h
  constructor <;> simp only [Crew.move, update_apply] <;> grind

theorem roster_count (h : Roster s) (ht : s.place t = .cloning c .count) (n : ℕ) :
    Roster ({ s with liveThreads := n }.move t (.cloning c .register)) := by
  obtain ⟨h1, h2, h3, h4, h5, h6⟩ := h
  constructor <;> simp only [Crew.move, update_apply] <;> grind

theorem roster_register (h : Roster s) (ht : s.place t = .cloning c .register) :
    Roster ({ s with threads := s.threads ++ [c] }.move t (.cloning c .release)) := by
  obtain ⟨h1, h2, h3, h4, h5, h6⟩ := h
  constructor <;> simp only [Crew.move, update_apply] <;> grind

theorem roster_release (h : Roster s) (ht : s.place t = .cloning c .release) (f : ℕ → Bool) :
    Roster ({ s with stopped := f }.move t .run) := by
  obtain ⟨h1, h2, h3, h4, h5, h6⟩ := h
  constructor <;> simp only [Crew.move, update_apply] <;> grind

theorem roster_step {a : CrewAct} (h : Roster s) (hs : s.step a = some s') : Roster s' := by
  cases a <;> simp only [Crew.step] at hs
  case go t =>
    cases hp : s.place t <;> simp only [Crew.go, hp] at hs
    case cloning c stage =>
      cases stage <;> simp only at hs
      case create =>
        cases hs
        exact roster_create h hp
      case count =>
        cases hs
        exact roster_count h hp _
      case register =>
        split_ifs at hs
        cases hs
        exact roster_register h hp
      case release =>
        cases hs
        exact roster_release h hp _
    case killing exec rest =>
      cases rest <;> cases exec <;> cases hs <;>
        exact h.move rfl rfl rfl (by simp [hp, Place.Settled]) (by simp [Place.Settled])
    case gathering =>
      split_ifs at hs
      cases hs
      exact h.move rfl rfl rfl (by simp [hp, Place.Settled]) (by simp [Place.Settled])
    all_goals cases hs
  case clone t =>
    split_ifs at hs with hp
    cases hs
    exact roster_clone h hp _
  case exitGroup t =>
    split_ifs at hs with hp
    cases hs
    exact h.move rfl rfl rfl (by simp [hp.1, Place.Settled]) (by simp [Place.Settled])
  case exec t =>
    split_ifs at hs with hp
    cases hs
    exact h.move rfl rfl rfl (by simp [hp.1, Place.Settled]) (by simp [Place.Settled])
  case safepoint t =>
    split_ifs at hs with hp <;> cases hs <;>
      exact h.move rfl rfl rfl (by rcases hp with hp | hp <;> simp [hp, Place.Settled])
        (by simp [Place.Settled])
  case interrupt t =>
    split_ifs at hs with hp
    cases hs
    exact h.move rfl rfl rfl (by simp [hp, Place.Settled]) (by simp [Place.Settled])
  case ret t =>
    split_ifs at hs with hp
    cases hs
    exact h.move rfl rfl rfl (by simp [hp, Place.Settled]) (by simp [Place.Settled])
  case fini t =>
    split_ifs at hs with hp
    cases hs
    exact h.move rfl rfl rfl (by simp [hp, Place.Settled]) (by simp [Place.Settled])
  case exit t =>
    split_ifs at hs
    cases hs
    exact h.keep rfl rfl (fun _ _ _ => Iff.rfl) fun _ => Iff.rfl
  case kill t =>
    cases hs
    exact h.keep rfl rfl (fun _ _ _ => Iff.rfl) fun _ => Iff.rfl
  case stop b =>
    cases hs
    exact h.keep rfl rfl (fun _ _ _ => Iff.rfl) fun _ => Iff.rfl

/-! ## Who has been told to end -/

/-- The states of a run in which clones and kill loops are apart. -/
structure Ended (s : Crew) : Prop where
  locked : ∀ e exec rest, s.place e = .killing exec rest → s.mtx = some e
  /-- a kill loop has told all but `rest` -/
  looped : ∀ e exec rest, s.place e = .killing exec rest → ∀ t ∈ s.threads, t ≠ e →
    t ∈ rest ∨ s.told t
  done : ∀ e ∈ s.finished, ∀ t ∈ s.threads, t ≠ e → s.told t
  gathering : ∀ e, s.place e = .gathering → e ∈ s.finished

theorem Ended.complete (h : Ended s) (hr : Roster s) (ha : s.Apart) : s.Complete := by
  constructor
  · intro e he t ht hne hp
    rcases h.done e he t ht hne with hk | hx | hl | hg
    · simp [Crew.passes, hk]
    · simp [Crew.passes, hx]
    · simp [hl] at hp
    · simp [hg] at hp
  · intro e he t hne hab hgone
    have hover := h.gathering e he
    have hmem : t ∈ s.threads := by
      rcases hr.known t hab with hm | ⟨u, stage, hu⟩
      · exact hm
      · rw [(ha u t stage hu).1] at hover
        cases hover
    rcases h.done e hover t hmem hne with hk | hx | hl | hg
    · exact .inr (.inl hk)
    · exact .inr (.inr hx)
    · exact .inl hl
    · exact absurd hg hgone

/-- A step that registers nobody and is not part of a kill loop. -/
theorem Ended.keep (h : Ended s) (hth : s'.threads = s.threads)
    (htold : ∀ u, s.told u → s'.told u)
    (hkill : ∀ e exec rest, s'.place e = .killing exec rest → s.place e = .killing exec rest)
    (hmtx : s'.mtx = s.mtx) (hover : ∀ e ∈ s'.finished, e ∈ s.finished)
    (hgath : ∀ e, s'.place e = .gathering → s.place e = .gathering ∧
    (e ∈ s.finished → e ∈ s'.finished)) :
    Ended s' := by
  refine ⟨fun e exec rest he => ?_, fun e exec rest he u hu hne => ?_, fun e he u hu hne => ?_,
    fun e he => ?_⟩
  · rw [hmtx]
    exact h.locked e exec rest (hkill e exec rest he)
  · exact (h.looped e exec rest (hkill e exec rest he) u (hth ▸ hu) hne).imp id (htold u)
  · exact htold u (h.done e (hover e he) u (hth ▸ hu) hne)
  · exact (hgath e he).2 (h.gathering e (hgath e he).1)

/-- Where a thread is after one has moved. -/
theorem place_cases (hs : s'.place = update s.place t p) (he : s'.place e = q) :
    e = t ∧ p = q ∨ e ≠ t ∧ s.place e = q := by
  rw [hs, update_apply] at he
  split at he
  · exact .inl ⟨‹_›, he⟩
  · exact .inr ⟨‹_›, he⟩

/-- Flags that only go up, and a thread that moves on from a place it is not told to leave. -/
theorem Crew.told.move {u : ℕ} (h : s.told u) (hs : s'.place = update s.place t p)
    (hk : ∀ u, s.killed u = true → s'.killed u = true)
    (hx : ∀ u, s.exited u = true → s'.exited u = true)
    (ht : s.place t = .leaving ∨ s.place t = .gone → p = .leaving ∨ p = .gone) : s'.told u := by
  rcases h with h | h | h
  · exact .inl (hk u h)
  · exact .inr (.inl (hx u h))
  · refine .inr (.inr ?_)
    rw [hs, update_apply]
    split
    · subst u
      exact ht h
    · exact h

/-- A step of `t` outside the kill loops that registers nobody. -/
theorem Ended.walk (h : Ended s) (hs : s'.place = update s.place t p)
    (hth : s'.threads = s.threads) (hmtx : s'.mtx = s.mtx) (hk : s'.killed = s.killed)
    (hx : s'.exited = s.exited)
    (hover : s'.finished = s.finished ∨ s'.finished = s.finished.filter (· ≠ t))
    (hleave : s.place t = .leaving ∨ s.place t = .gone → p = .leaving ∨ p = .gone)
    (hto : p ≠ .gathering ∧ ∀ exec rest, p ≠ .killing exec rest) : Ended s' := by
  refine h.keep hth (fun u hu => hu.move hs (by simp [hk]) (by simp [hx]) hleave)
    (fun e exec rest he => ?_) hmtx (fun e he => ?_) (fun e he => ?_)
  · rcases place_cases hs he with ⟨-, hp⟩ | ⟨-, he⟩
    · exact absurd hp (hto.2 exec rest)
    · exact he
  · rcases hover with ho | ho <;> rw [ho] at he
    · exact he
    · exact (mem_filter.mp he).1
  · rcases place_cases hs he with ⟨-, hp⟩ | ⟨hne, he⟩
    · exact absurd hp hto.1
    · refine ⟨he, fun hm => ?_⟩
      rcases hover with ho | ho <;> rw [ho]
      · exact hm
      · exact mem_filter.mpr ⟨hm, by simpa using hne⟩

/-- A thread outside all of the functions goes on or ends. -/
theorem Ended.shift (h : Ended s) {n : ℕ}
    (hfrom : s.place t = .run ∨ s.place t = .fresh ∨ s.place t = .leaving)
    (hto : p = .run ∧ s.place t ≠ .leaving ∨ p = .leaving ∨ p = .gone) :
    Ended ({ s with liveThreads := n }.move t p) := by
  refine h.walk rfl rfl rfl rfl rfl (.inl rfl) ?_ ?_ <;>
    rcases hfrom with hp | hp | hp <;> rcases hto with ⟨rfl, hne⟩ | rfl | rfl <;> simp_all

/-- A flag goes up, or `VM_STOPPED` changes. -/
theorem Ended.flags (h : Ended s) {k x f : ℕ → Bool} (hk : ∀ u, s.killed u = true → k u = true)
    (hx : ∀ u, s.exited u = true → x u = true) :
    Ended { s with killed := k, exited := x, stopped := f } := by
  refine h.keep rfl (fun u hu => ?_)
    (fun _ _ _ he => he) rfl (fun _ he => he) fun _ he => ⟨he, id⟩
  exact hu.imp (hk u) (Or.imp_left (hx u))

/-- A kill loop starts, under the lock. -/
theorem Ended.start (h : Ended s) (ht : s.place t = .run) (hm : s.mtx = none) (exec : Bool) :
    Ended ({ s with mtx := some t }.move t (.killing exec s.threads)) := by
  have hold : ∀ e exec rest, s.place e ≠ .killing exec rest := by
    intro e exec rest he
    rw [h.locked e exec rest he] at hm
    cases hm
  refine ⟨fun e exec' rest he => ?_, fun e exec' rest he u hu hne => ?_, fun e he u hu hne => ?_,
    fun e he => ?_⟩
  · rcases place_cases (s := s) rfl he with ⟨rfl, -⟩ | ⟨-, he⟩
    · rfl
    · exact absurd he (hold e exec' rest)
  · rcases place_cases (s := s) rfl he with ⟨-, hp⟩ | ⟨-, he⟩
    · rw [Place.killing.injEq] at hp
      exact .inl (hp.2 ▸ hu)
    · exact absurd he (hold e exec' rest)
  · exact (h.done e he u hu hne).move rfl (fun _ h => h) (fun _ h => h) (by simp [ht])
  · rcases place_cases (s := s) rfl he with ⟨-, hp⟩ | ⟨-, he⟩
    · cases hp
    · exact h.gathering e he

/-- A kill loop goes on. -/
theorem Ended.loop (h : Ended s) {exec : Bool} {u : ℕ} {rest : List ℕ} {k : ℕ → Bool}
    (ht : s.place t = .killing exec (u :: rest)) (hkeep : ∀ v, s.killed v = true → k v = true)
    (hnew : u ≠ t → k u = true) : Ended ({ s with killed := k }.move t (.killing exec rest)) := by
  have htold {v : ℕ} (hv : s.told v) :
      ({ s with killed := k }.move t (.killing exec rest)).told v :=
    hv.move rfl hkeep (fun _ h => h) (by simp [ht])
  refine ⟨fun e exec' rest' he => ?_, fun e exec' rest' he v hv hne => ?_,
    fun e he v hv hne => htold (h.done e he v hv hne), fun e he => ?_⟩
  · rcases place_cases (s := s) rfl he with ⟨rfl, -⟩ | ⟨-, he⟩
    · exact h.locked e exec _ ht
    · exact h.locked e exec' rest' he
  · rcases place_cases (s := s) rfl he with ⟨rfl, hp⟩ | ⟨-, he⟩
    · rw [Place.killing.injEq] at hp
      obtain ⟨-, rfl⟩ := hp
      rcases h.looped e exec _ ht v hv hne with hm | hm
      · rcases mem_cons.mp hm with rfl | hm
        · exact .inr (.inl (hnew hne))
        · exact .inl hm
      · exact .inr (htold hm)
    · exact (h.looped e exec' rest' he v hv hne).imp id htold
  · rcases place_cases (s := s) rfl he with ⟨-, hp⟩ | ⟨-, he⟩
    · cases hp
    · exact h.gathering e he

theorem Ended.finish (h : Ended s) {exec : Bool} {f : ℕ → Bool}
    (ht : s.place t = .killing exec []) (hp : p = .gathering ∨ p = .run)
    (hf : ∀ u, s.exited u = true → f u = true) :
    Ended ({ s with mtx := none, finished := t :: s.finished, exited := f }.move t p) := by
  have htold {u : ℕ} (hu : s.told u) :
      ({ s with mtx := none, finished := t :: s.finished, exited := f }.move t p).told u :=
    hu.move rfl (fun _ h => h) hf (by simp [ht])
  -- the lock was held, so no other loop was under way
  have hold {e : ℕ} {exec' : Bool} {rest : List ℕ}
      (he : ({ s with mtx := none, finished := t :: s.finished, exited := f }.move t p).place e =
        .killing exec' rest) : False := by
    rcases place_cases (s := s) rfl he with ⟨-, hq⟩ | ⟨hne, he⟩
    · rcases hp with rfl | rfl <;> cases hq
    · have := (h.locked e exec' rest he).symm.trans (h.locked t exec [] ht)
      exact hne (Option.some.inj this)
  refine ⟨fun e exec' rest he => (hold he).elim, fun e exec' rest he => (hold he).elim,
    fun e he u hu hne => ?_, fun e he => ?_⟩
  · rcases mem_cons.mp he with rfl | he
    · rcases h.looped e exec [] ht u hu hne with hm | hm
      · cases hm
      · exact htold hm
    · exact htold (h.done e he u hu hne)
  · rcases place_cases (s := s) rfl he with ⟨rfl, -⟩ | ⟨-, he⟩
    · exact mem_cons_self
    · exact mem_cons_of_mem t (h.gathering e he)

/-- A thread is started; nobody had told it to end. -/
theorem Ended.create (h : Ended s) (hr : Roster s) (ht : s.place t = .cloning c .create) :
    Ended ((s.move c .fresh).move t (.cloning c .count)) := by
  have hc := hr.unborn t c ht
  have hplace : ∀ e, ((s.move c .fresh).move t (.cloning c .count)).place e = s.place e ∨
      e = t ∧ ((s.move c .fresh).move t (.cloning c .count)).place e = .cloning c .count ∨
      e = c ∧ ((s.move c .fresh).move t (.cloning c .count)).place e = .fresh := by
    intro e
    simp only [Crew.move, update_apply]
    split_ifs <;> simp_all
  refine h.keep rfl (fun u hu => ?_) (fun e exec rest he => ?_) rfl
    (fun e he => he) (fun e he => ⟨?_, id⟩)
  · rcases hu with hk | hx | hl
    · exact .inl hk
    · exact .inr (.inl hx)
    · rcases hplace u with hp | ⟨rfl, -⟩ | ⟨rfl, -⟩
      · exact .inr (.inr (hp.symm ▸ hl))
      · simp [ht] at hl
      · simp [hc] at hl
  · rcases hplace e with hp | ⟨-, hp⟩ | ⟨-, hp⟩ <;> rw [hp] at he
    · exact he
    · cases he
    · cases he
  · rcases hplace e with hp | ⟨-, hp⟩ | ⟨-, hp⟩ <;> rw [hp] at he
    · exact he
    · cases he
    · cases he

/-- A thread is registered while nobody has been through a kill loop. -/
theorem Ended.register (h : Ended s)
    (ha : ({ s with threads := s.threads ++ [c] }.move t (.cloning c .release)).Apart) :
    Ended ({ s with threads := s.threads ++ [c] }.move t (.cloning c .release)) := by
  obtain ⟨hover, hkill⟩ := ha t c .release (update_self ..)
  refine ⟨fun e exec rest he => absurd he (hkill e exec rest),
    fun e exec rest he => absurd he (hkill e exec rest), fun e he => ?_, fun e he => ?_⟩
  · rw [hover] at he
    cases he
  · rcases place_cases (s := s) rfl he with ⟨-, hp⟩ | ⟨-, he⟩
    · cases hp
    · exact h.gathering e he

/-! ## Runs -/

theorem ended_go (h : Ended s) (hr : Roster s) (hs : s.go t = some s') (ha : s'.Apart) :
    Ended s' := by
  cases hp : s.place t <;> simp only [Crew.go, hp] at hs
  case cloning c stage =>
    cases stage <;> simp only at hs
    case create =>
      cases hs
      exact h.create hr hp
    case count =>
      cases hs
      exact h.walk rfl rfl rfl rfl rfl (.inl rfl) (by simp [hp]) (by simp)
    case register =>
      split_ifs at hs
      cases hs
      exact h.register ha
    case release =>
      cases hs
      exact h.walk rfl rfl rfl rfl rfl (.inl rfl) (by simp [hp]) (by simp)
  case killing exec rest =>
    cases rest with
    | nil =>
      cases exec <;> simp only at hs <;> cases hs
      · exact h.finish hp (.inr rfl) fun u hu => by simp [update_apply, hu]
      · exact h.finish hp (.inl rfl) fun u hu => hu
    | cons u rest =>
      simp only at hs
      cases hs
      refine h.loop hp (fun v hv => ?_) (fun hne => ?_)
      · split
        · exact hv
        · simp [update_apply, hv]
      · simp [hne]
  case gathering =>
    split_ifs at hs
    cases hs
    exact h.walk rfl rfl rfl rfl rfl (.inr rfl) (by simp [hp]) (by simp)
  all_goals cases hs

theorem ended_step {a : CrewAct} (h : Ended s) (hr : Roster s) (hs : s.step a = some s')
    (ha : s'.Apart) :
    Ended s' := by
  cases a <;> simp only [Crew.step] at hs
  case go t => exact ended_go h hr hs ha
  case clone t =>
    split_ifs at hs with hp
    cases hs
    exact h.walk rfl rfl rfl rfl rfl (.inl rfl) (by simp [hp]) (by simp)
  case exitGroup t =>
    split_ifs at hs with hp
    cases hs
    exact h.start hp.1 hp.2 false
  case exec t =>
    split_ifs at hs with hp
    cases hs
    exact h.start hp.1 hp.2 true
  case interrupt t =>
    split_ifs at hs with hp
    cases hs
    exact h.walk rfl rfl rfl rfl rfl (.inr rfl) (by simp [hp]) (by simp)
  case exit t =>
    split_ifs at hs
    cases hs
    exact h.flags (fun _ h => h) fun u hu => by simp [update_apply, hu]
  case kill t =>
    cases hs
    exact h.flags (fun u hu => by simp [update_apply, hu]) fun _ h => h
  case stop b =>
    cases hs
    exact h.flags (fun _ h => h) fun _ h => h
  case safepoint t =>
    split_ifs at hs with hp <;> cases hs
    · exact h.shift (hp.imp id .inl) (.inr (.inl rfl))
    · exact h.shift (hp.imp id .inl) (.inl ⟨rfl, by rcases hp with hp | hp <;> simp [hp]⟩)
  case ret t =>
    split_ifs at hs with hp
    cases hs
    exact h.shift (.inl hp) (.inr (.inl rfl))
  case fini t =>
    split_ifs at hs with hp
    cases hs
    exact h.shift (.inr (.inr hp)) (.inr (.inr rfl))

/-- At the start nobody is in one of the functions. -/
theorem init_place (h : Crew.init.place t = p) : p = .run ∧ t = 1 ∨ p = .absent ∧ t ≠ 1 := by
  by_cases ht : t = 1
  · exact .inl ⟨h.symm.trans (if_pos ht), ht⟩
  · exact .inr ⟨h.symm.trans (if_neg ht), ht⟩

theorem roster_init : Roster Crew.init := by
  refine ⟨fun t ht => ?_, fun t c ht => ?_, fun t c ht => ?_, fun t c stage ht => ?_,
    fun t u c stage stage' ht => ?_, fun t ht => ?_⟩
  · rcases init_place (t := t) rfl with ⟨-, rfl⟩ | ⟨hp, -⟩
    · exact .inl mem_cons_self
    · exact absurd hp ht
  · rcases init_place ht with ⟨hp, -⟩ | ⟨hp, -⟩ <;> cases hp
  · rcases init_place ht with ⟨hp, -⟩ | ⟨hp, -⟩ <;> cases hp
  · rcases init_place ht with ⟨hp, -⟩ | ⟨hp, -⟩ <;> cases hp
  · rcases init_place ht with ⟨hp, -⟩ | ⟨hp, -⟩ <;> cases hp
  · refine if_neg fun h1 => ?_
    subst h1
    exact absurd ht (by decide)

theorem ended_init : Ended Crew.init := by
  refine ⟨fun e exec rest he => ?_, fun e exec rest he => ?_,
    fun e he => absurd he not_mem_nil, fun e he => ?_⟩
  · rcases init_place he with ⟨hp, -⟩ | ⟨hp, -⟩ <;> cases hp
  · rcases init_place he with ⟨hp, -⟩ | ⟨hp, -⟩ <;> cases hp
  · rcases init_place he with ⟨hp, -⟩ | ⟨hp, -⟩ <;> cases hp

theorem apart_init : Crew.init.Apart := by
  intro t c stage ht
  rcases init_place ht with ⟨hp, -⟩ | ⟨hp, -⟩ <;> cases hp

/-- **Group termination is complete** along every run in which no thread of the group is
being cloned from the start of a kill loop on. -/
theorem complete_of_apart {l : List CrewAct} (h : Run ApartStep Crew.init l s) : s.Complete := by
  have hall : s.Apart ∧ Roster s ∧ Ended s := by
    refine h.invariant (P := fun s => s.Apart ∧ Roster s ∧ Ended s)
      ⟨apart_init, roster_init, ended_init⟩ ?_
    rintro s a s' ⟨-, hr, he⟩ ⟨hstep, ha⟩
    exact ⟨ha, roster_step hr hstep, ended_step he hr hstep ha⟩
  exact hall.2.2.complete hall.2.1 hall.1

namespace Place

def isCloning : Place → Bool
  | .cloning .. => true
  | _ => false

def isKilling : Place → Bool
  | .killing .. => true
  | _ => false

end Place

namespace Crew

/-- Clones and kill loops are apart among the threads given out so far. -/
def apart (s : Crew) : Bool :=
  (range s.nextPid).all (fun t => !(s.place t).isCloning) ||
    s.finished = [] && (range s.nextPid).all (fun t => !(s.place t).isKilling)

/-- The steps of a list, as long as clones and kill loops stay apart. -/
def apartPlay (s : Crew) : List CrewAct → Option Crew
  | [] => some s
  | a :: l => (s.step a).bind fun s' => if s'.apart then s'.apartPlay l else none

end Crew

theorem apart_of_roster (h : Roster s) (hs : s.apart = true) : s.Apart := by
  have hlt : ∀ t, s.place t ≠ .absent → t ∈ range s.nextPid := by
    intro t ht
    by_contra hm
    exact ht (h.alloc t (by simpa using hm))
  intro t c stage ht
  have hin := hlt t (by simp [ht])
  simp only [Crew.apart, Bool.or_eq_true, Bool.and_eq_true, decide_eq_true_eq] at hs
  rcases hs with hs | ⟨ho, hk⟩
  · have := all_eq_true.mp hs t hin
    simp [ht, Place.isCloning] at this
  · refine ⟨ho, fun e exec rest he => ?_⟩
    have := all_eq_true.mp hk e (hlt e (by simp [he]))
    simp [he, Place.isKilling] at this

theorem run_apartPlay {l : List CrewAct} (hr : Roster s) (h : s.apartPlay l = some s') :
    Run ApartStep s l s' := by
  induction l generalizing s with
  | nil =>
    cases h
    exact .nil _
  | cons a l ih =>
    obtain ⟨s₁, hs, hl⟩ := Option.bind_eq_some_iff.mp h
    split_ifs at hl with hc
    have hr' := roster_step hr hs
    exact .cons ⟨hs, apart_of_roster hr' hc⟩ (ih hr' hl)

/-- Thread 1 clones thread 2 and then calls `exec`, which waits for it. -/
def execRun : List CrewAct :=
  [.clone 1, .go 1, .go 1, .go 1, .go 1, .safepoint 2, .exec 1, .go 1, .go 1, .go 1]

theorem complete_execRun : ∃ s, Run ApartStep Crew.init execRun s ∧ s.place 1 = .gathering ∧
    s.place 2 = .run ∧ s.killed 2 = true ∧ s.Complete := by
  have hp : (Crew.init.apartPlay execRun).map (fun s => (s.place 1, s.place 2, s.killed 2)) =
      some (.gathering, .run, true) := by decide
  obtain ⟨s, hs, he⟩ := Option.map_eq_some_iff.mp hp
  simp only [Prod.mk.injEq] at he
  have hrun := run_apartPlay roster_init hs
  exact ⟨s, hrun, he.1, he.2.1, he.2.2, complete_of_apart hrun⟩

/-- Thread 2 is cloning thread 3, and has counted it, when thread 1 runs its kill loop; then
thread 3 is registered and released. -/
def survivorRun (a : CrewAct) : List CrewAct :=
  [.clone 1, .go 1, .go 1, .go 1, .go 1, .safepoint 2, .clone 2, .go 2, .go 2, a, .go 1, .go 1,
  .go 1,
    .go 2, .go 2]

/-- In every interleaving every thread that exists is registered or is being cloned by one thread
only, and pids are handed out once. -/
theorem roster_of_run {l : List CrewAct} (h : Run CrewStep Crew.init l s) : Roster s :=
  h.invariant roster_init fun _ _ _ hr hs => roster_step hr hs

theorem roster_of_run_clone : ∃ s, Run CrewStep Crew.init (survivorRun (.exitGroup 1)) s ∧
    s.threads = [1, 2, 3] ∧ Roster s := by
  have hp : ((survivorRun (.exitGroup 1)).foldlM Crew.step Crew.init).map Crew.threads =
      some [1, 2, 3] := by decide
  obtain ⟨s, hs, ht⟩ := Option.map_eq_some_iff.mp hp
  exact ⟨s, Run.of_foldlM hs, ht, roster_of_run (Run.of_foldlM hs)⟩

/-- The new thread gets past its safepoint after `do_exit_group`, and `exec_common` waits
for it without having told it to end. -/
theorem clone_survives :
    (∃ s, Run CrewStep Crew.init (survivorRun (.exitGroup 1)) s ∧ 1 ∈ s.finished ∧ 3 ∈ s.threads ∧
      s.place 3 = .fresh ∧ s.passes 3 = true ∧ ¬ s.Complete) ∧
    ∃ s, Run CrewStep Crew.init (survivorRun (.exec 1)) s ∧ s.place 1 = .gathering ∧
      s.place 3 = .fresh ∧ s.liveThreads = 3 ∧ s.killed 3 = false ∧ s.exited 3 = false ∧
      ¬ s.Complete := by
  constructor
  · have hp : ((survivorRun (.exitGroup 1)).foldlM Crew.step Crew.init).map (fun s =>
        (s.finished, s.threads, s.place 3, s.passes 3)) = some ([1], [1, 2, 3], .fresh, true) := by
      decide
    obtain ⟨s, hs, he⟩ := Option.map_eq_some_iff.mp hp
    simp only [Prod.mk.injEq] at he
    obtain ⟨ho, ht, h3, hpass⟩ := he
    refine ⟨s, Run.of_foldlM hs, by simp [ho], by simp [ht], h3, hpass, fun hc => ?_⟩
    have := hc.1 1 (by simp [ho]) 3 (by simp [ht]) (by decide) (.inr h3)
    rw [hpass] at this
    cases this
  · have hp : ((survivorRun (.exec 1)).foldlM Crew.step Crew.init).map (fun s =>
        (s.place 1, s.place 3, s.liveThreads, s.killed 3, s.exited 3)) =
        some (.gathering, .fresh, 3, false, false) := by decide
    obtain ⟨s, hs, he⟩ := Option.map_eq_some_iff.mp hp
    simp only [Prod.mk.injEq] at he
    obtain ⟨h1, h3, hl, hk, hx⟩ := he
    refine ⟨s, Run.of_foldlM hs, h1, h3, hl, hk, hx, fun hc => ?_⟩
    rcases hc.2 1 h1 3 (by decide) (by simp [h3]) (by simp [h3]) with h | h | h
    · simp [h3] at h
    · simp [hk] at h
    · simp [hx] at h

end Bpfvm.Process
