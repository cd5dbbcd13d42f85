import Bpfvm.Process.Tasks

/-!
# The life of a thread group

Along every run `live_threads` is the number of threads that `fini` has not counted out,
`exit_code` is the fold of the compare-and-swaps over the ends asked for so far, and a group
is published as exited only when none of its threads can record another.
-/
namespace Bpfvm.Process

/-- How a thread asked its group or itself to end. -/
inductive End where
  | exit (c : U32)
  | exitGroup (c : U32)
  | signal (sig : ℕ)
  deriving DecidableEq, Repr

/-- The code an end tries to record. -/
def End.code : End → U32
  | .exit c => c
  | .exitGroup c => c
  | .signal sig => argS32 (128 + BitVec.ofNat 64 sig)

/-- One compare-and-swap on `exit_code`. -/
def cas (old new : U32) : U32 := if old = -1 then new else old

/-- A phase before the thread is counted out in `fini`. -/
def Phase.counted : Phase → Bool
  | .running => true
  | .exiting => true
  | .leaving => true
  | .last => false
  | .gone => false

namespace Procs

/-- The end an action asks for, and the group it is for. -/
def ending (s : Procs) : Act → Option (ℕ × End)
  | .exit t r1 => some (s.tgid t, .exit (argS32 r1))
  | .exitGroup t r1 => some (s.tgid t, .exitGroup (argS32 r1))
  | .fatalSignal t sig => some (s.tgid t, .signal sig)
  | _ => none

/-- Extend a state and the log of ends by one action. -/
def logged (x : Procs × List (ℕ × End)) (a : Act) : Procs × List (ℕ × End) :=
  ((x.1.step a).getD x.1, x.2 ++ (x.1.ending a).toList)

/-- The ends asked for along a run from `init`, in order. -/
def endings (l : List Act) : List (ℕ × End) := (l.foldl logged (init, [])).2

def liveCount (s : Procs) (g : ℕ) : ℕ :=
  ((Finset.range s.nextPid).filter fun t => s.tgid t = g ∧ (s.task t).phase.counted).card

end Procs

/-- The ends of one group. -/
def endsOf (log : List (ℕ × End)) (g : ℕ) : List End :=
  (log.filter fun x => x.1 = g).map Prod.snd

/-- What the compare-and-swaps of the ends leave in `exit_code`. -/
def recorded (es : List End) : U32 := es.foldl (fun c e => cas c e.code) (-1)

/-- What is published for the group, `fini` having filled in 128 + 9 when nothing was
recorded. -/
def published (es : List End) : U32 := cas (recorded es) (128 + 9)

/-- The states of a run with the ends logged on the way. -/
structure Good (s : Procs) (log : List (ℕ × End)) : Prop where
  alloc : ∀ t, (s.task t).phase ≠ .gone → t < s.nextPid
  tgid_lt : ∀ t, s.tgid t < s.nextPid
  log_lt : ∀ x ∈ log, x.1 < s.nextPid
  live : ∀ g, (s.group g).liveThreads = s.liveCount g
  last : ∀ t, (s.task t).phase = .last → (s.group (s.tgid t)).liveThreads = 0
  exited : ∀ g, (s.group g).exited → (s.group g).liveThreads = 0
  code : ∀ g, (s.group g).exitCode =
    if (s.group g).exited then published (endsOf log g) else recorded (endsOf log g)

/-! ## Small facts about the updates -/

section Updates
variable (s : Procs) (t t' g g' : ℕ)

@[simp] theorem setTask_task (f : Task → Task) :
    (s.setTask t f).task t' = if t' = t then f (s.task t) else s.task t' := by
  simp [Procs.setTask, Function.update_apply]

@[simp] theorem setGroup_group (f : ThreadGroup → ThreadGroup) :
    (s.setGroup g f).group g' = if g' = g then f (s.group g) else s.group g' := by
  simp [Procs.setGroup, Function.update_apply]

@[simp] theorem setGroup_task (f : ThreadGroup → ThreadGroup) :
    (s.setGroup g f).task = s.task := rfl
@[simp] theorem setGroup_nextPid (f : ThreadGroup → ThreadGroup) :
    (s.setGroup g f).nextPid = s.nextPid := rfl

@[simp] theorem setPhase_task (p : Phase) :
    (s.setPhase t p).task t' = if t' = t then { s.task t with phase := p } else s.task t' := by
  simp [Procs.setPhase]

@[simp] theorem setPhase_group (p : Phase) : (s.setPhase t p).group = s.group := rfl
@[simp] theorem setPhase_nextPid (p : Phase) : (s.setPhase t p).nextPid = s.nextPid := rfl

@[simp] theorem setPhase_tgid (p : Phase) : (s.setPhase t p).tgid t' = s.tgid t' := by
  by_cases h : t' = t <;> simp [Procs.tgid, h]

theorem recordExit_group (c : U32) : (s.recordExit g c).group g' =
    if g' = g then { s.group g with exitCode := cas (s.group g).exitCode c } else s.group g' := by
  rw [Procs.recordExit, setGroup_group]
  split
  · unfold cas
    split <;> rfl
  · rfl

end Updates

theorem endsOf_append (log log' : List (ℕ × End)) (g : ℕ) :
    endsOf (log ++ log') g = endsOf log g ++ endsOf log' g := by
  simp [endsOf]

theorem recorded_append_singleton (es : List End) (e : End) :
    recorded (es ++ [e]) = cas (recorded es) e.code := by
  simp [recorded]

variable {p : Phase} {t g : ℕ} {a : Act}

theorem Phase.eq_last (hc : p.counted = false) (hg : p ≠ .gone) : p = .last := by
  cases p <;> simp_all [Phase.counted]

variable {s s' : Procs} {log : List (ℕ × End)}

/-! ## Steps that count no thread in or out -/

/-- The two states agree on who is counted and on what is published. -/
structure Same (s s' : Procs) : Prop where
  nextPid : s'.nextPid = s.nextPid
  tgid : ∀ t, s'.tgid t = s.tgid t
  counted : ∀ t, (s'.task t).phase.counted = (s.task t).phase.counted
  gone : ∀ t, (s'.task t).phase = .gone ↔ (s.task t).phase = .gone
  liveThreads : ∀ g, (s'.group g).liveThreads = (s.group g).liveThreads
  exited : ∀ g, (s'.group g).exited = (s.group g).exited

theorem Same.liveCount (h : Same s s') (g : ℕ) : s'.liveCount g = s.liveCount g := by
  unfold Procs.liveCount
  rw [h.nextPid]
  simp only [h.tgid, h.counted]

theorem Same.last (h : Same s s') (ht : (s'.task t).phase = .last) : (s.task t).phase = .last := by
  apply Phase.eq_last
  · rw [← h.counted, ht]
    rfl
  · rw [Ne, ← h.gone, ht]
    exact Phase.noConfusion

/-- A step that counts no thread in or out keeps the invariant if it keeps what is said
about the codes. -/
theorem Good.same (hg : Good s log) (h : Same s s') {new : List (ℕ × End)}
    (hnew : ∀ x ∈ new, x.1 < s.nextPid)
    (hcode : ∀ g, (s'.group g).exitCode = if (s.group g).exited
      then published (endsOf (log ++ new) g) else recorded (endsOf (log ++ new) g)) :
    Good s' (log ++ new) where
  alloc t ht := by
    rw [h.nextPid]
    exact hg.alloc t fun hgone => ht ((h.gone t).mpr hgone)
  tgid_lt t := by
    rw [h.tgid, h.nextPid]
    exact hg.tgid_lt t
  log_lt x hx := by
    rw [h.nextPid]
    rcases List.mem_append.mp hx with hx | hx
    · exact hg.log_lt x hx
    · exact hnew x hx
  live g := by rw [h.liveThreads, hg.live, h.liveCount]
  last t ht := by
    rw [h.liveThreads, h.tgid]
    exact hg.last t (h.last ht)
  exited g he := by
    rw [h.exited] at he
    rw [h.liveThreads]
    exact hg.exited g he
  code g := by rw [h.exited, hcode]

/-- The case without a new end. -/
theorem Good.quiet (hg : Good s log) (h : Same s s')
    (hcode : ∀ g, (s'.group g).exitCode = (s.group g).exitCode) : Good s' log := by
  have := hg.same h (List.forall_mem_nil _) fun g => by
    rw [hcode, hg.code, List.append_nil]
  rwa [List.append_nil] at this

theorem Good.live_pos (hg : Good s log) (ht : (s.task t).phase.counted = true) :
    0 < (s.group (s.tgid t)).liveThreads := by
  have hmem : t ∈ (Finset.range s.nextPid).filter
      fun k => s.tgid k = s.tgid t ∧ (s.task k).phase.counted := by
    rw [Finset.mem_filter, Finset.mem_range]
    refine ⟨hg.alloc t ?_, rfl, ht⟩
    intro hgone
    simp [hgone, Phase.counted] at ht
  rw [hg.live]
  exact Finset.card_pos.mpr ⟨t, hmem⟩

/-- A thread that is counted keeps its group from being published. -/
theorem Good.not_exited (hg : Good s log) (ht : (s.task t).phase.counted = true) :
    (s.group (s.tgid t)).exited = false := by
  have hpos := hg.live_pos ht
  rw [← Bool.not_eq_true]
  intro he
  have := hg.exited _ he
  omega

/-- A counted thread that moves to another counted phase. -/
theorem same_setPhase (ht : (s.task t).phase.counted = true) (hp : p.counted = true) :
    Same s (s.setPhase t p) := by
  refine ⟨rfl, fun k => setPhase_tgid s t k p, ?_, ?_, fun _ => rfl, fun _ => rfl⟩
  · intro k
    by_cases hk : k = t <;> simp [hk, hp, ht]
  · intro k
    by_cases hk : k = t
    · subst hk
      simp only [setPhase_task, if_true]
      constructor
      · rintro rfl
        simp [Phase.counted] at hp
      · intro hgone
        simp [hgone, Phase.counted] at ht
    · simp [hk]

theorem same_kill (ts : List ℕ) : Same s (s.kill ts) := by
  refine ⟨rfl, ?_, ?_, ?_, fun _ => rfl, fun _ => rfl⟩ <;>
  · intro k
    by_cases hk : k ∈ ts <;> simp [Procs.kill, Procs.tgid, hk]

theorem Same.refl (s : Procs) : Same s s :=
  ⟨rfl, fun _ => rfl, fun _ => rfl, fun _ => Iff.rfl, fun _ => rfl, fun _ => rfl⟩

theorem same_pidMap (m : List ℕ) : Same s { s with pidMap := m } :=
  ⟨rfl, fun _ => rfl, fun _ => rfl, fun _ => Iff.rfl, fun _ => rfl, fun _ => rfl⟩

theorem Same.trans {s'' : Procs} (h : Same s s') (h' : Same s' s'') : Same s s'' where
  nextPid := h'.nextPid.trans h.nextPid
  tgid t := (h'.tgid t).trans (h.tgid t)
  counted t := (h'.counted t).trans (h.counted t)
  gone t := (h'.gone t).trans (h.gone t)
  liveThreads g := (h'.liveThreads g).trans (h.liveThreads g)
  exited g := (h'.exited g).trans (h.exited g)

/-- An update of a group that leaves its count, its publication and its code alone. -/
theorem same_setGroup (g : ℕ) {f : ThreadGroup → ThreadGroup}
    (hl : (f (s.group g)).liveThreads = (s.group g).liveThreads)
    (he : (f (s.group g)).exited = (s.group g).exited) : Same s (s.setGroup g f) := by
  refine ⟨rfl, fun _ => rfl, fun _ => rfl, fun _ => Iff.rfl, ?_, ?_⟩
  · intro k
    by_cases hk : k = g <;> simp [hk, hl]
  · intro k
    by_cases hk : k = g <;> simp [hk, he]

/-- A running thread moves on and tries to record the code of an end. -/
theorem Good.record (hg : Good s log) (ht : (s.task t).phase = .running) (e : End)
    (hp : p.counted = true) :
    Good ((s.recordExit (s.tgid t) e.code).setPhase t p) (log ++ [(s.tgid t, e)]) := by
  have hrec : Same s (s.recordExit (s.tgid t) e.code) := by
    apply same_setGroup <;> split_ifs <;> rfl
  have hcounted : (s.task t).phase.counted = true := by rw [ht]; rfl
  refine hg.same (hrec.trans (same_setPhase hcounted hp)) ?_ ?_
  · intro x hx
    rw [List.mem_singleton.mp hx]
    exact hg.tgid_lt t
  · intro g
    rw [setPhase_group, recordExit_group, endsOf_append]
    by_cases h : g = s.tgid t
    · subst h
      have hne : (s.group (s.tgid t)).exited = false := hg.not_exited hcounted
      have hone : endsOf [(s.tgid t, e)] (s.tgid t) = [e] := by simp [endsOf]
      rw [if_pos rfl, hne, hone, recorded_append_singleton, hg.code, hne]
      rfl
    · have hnil : endsOf [(s.tgid t, e)] g = [] := by simp [endsOf, Ne.symm h]
      rw [if_neg h, hnil, List.append_nil, hg.code]

/-! ## Waiting -/

/-- What a pass over the children may do: change nothing that counts, and report an exit
only of a published group, with its code. -/
structure Waited (s : Procs) (r : WaitOutcome × Procs) : Prop where
  same : Same s r.2
  code : ∀ g, (r.2.group g).exitCode = (s.group g).exitCode
  event : ∀ ev, r.1 = .event ev → ev.exited = true →
    (s.group (s.tgid ev.child)).exited = true ∧
      ev.exitCode = (s.group (s.tgid ev.child)).exitCode.signExtend 64

theorem waited_error (e : Errno) : Waited s (.error e, s) :=
  ⟨Same.refl s, fun _ => rfl, fun _ h => WaitOutcome.noConfusion h⟩

theorem claimLoop_spec (me idtype : ℕ) (id : U64) (options : U32)
    (order : List ℕ) (any : Bool) :
    Waited s (s.claimLoop me idtype id options order any) := by
  induction order generalizing any with
  | nil =>
    unfold Procs.claimLoop
    refine ⟨Same.refl s, fun _ => rfl, ?_⟩
    intro ev hev
    split_ifs at hev
  | cons p rest ih =>
    unfold Procs.claimLoop
    dsimp only
    split_ifs with _ he _ hs
    · exact ih any
    · refine ⟨same_pidMap _, fun _ => rfl, ?_⟩
      rintro ev ⟨⟩ _
      exact ⟨he, rfl⟩
    · refine ⟨Same.refl s, fun _ => rfl, ?_⟩
      rintro ev ⟨⟩ _
      exact ⟨he, rfl⟩
    · refine ⟨?_, ?_, ?_⟩
      · dsimp only
        apply same_setGroup <;> rfl
      · intro g
        by_cases h : g = s.tgid p <;> simp [h]
      · rintro ev ⟨⟩ h
        exact absurd h Bool.false_ne_true
    · refine ⟨Same.refl s, fun _ => rfl, ?_⟩
      rintro ev ⟨⟩ h
      exact absurd h Bool.false_ne_true
    · exact ih true

theorem doWait4_spec (t : ℕ) (r1 r3 : U64) (order : List ℕ) :
    Waited s (s.doWait4 t r1 r3 order) := by
  unfold Procs.doWait4
  dsimp only
  split_ifs
  · exact waited_error _
  · exact waited_error _
  all_goals exact claimLoop_spec ..

theorem doWaitid_spec (t : ℕ) (r1 r2 r4 : U64) (order : List ℕ) :
    Waited s (s.doWaitid t r1 r2 r4 order) := by
  unfold Procs.doWaitid
  dsimp only
  split_ifs
  · exact waited_error _
  · exact waited_error _
  · exact waited_error _
  all_goals exact claimLoop_spec ..

/-! ## Steps that count a thread in or out -/

theorem liveCount_sub (hn : s'.nextPid = s.nextPid) (htg : ∀ k, s'.tgid k = s.tgid k)
    (hlt : t < s.nextPid) (ht : (s.task t).phase.counted = true)
    (ht' : (s'.task t).phase.counted = false)
    (hother : ∀ k, k ≠ t → (s'.task k).phase = (s.task k).phase) (g : ℕ) :
    s.liveCount g = s'.liveCount g + if g = s.tgid t then 1 else 0 := by
  unfold Procs.liveCount
  rw [hn]
  simp only [htg]
  have hset : (Finset.range s.nextPid).filter
      (fun k => s.tgid k = g ∧ (s'.task k).phase.counted = true) =
      ((Finset.range s.nextPid).filter
        fun k => s.tgid k = g ∧ (s.task k).phase.counted = true).erase t := by
    ext k
    simp only [Finset.mem_filter, Finset.mem_erase]
    by_cases hk : k = t
    · simp [hk, ht']
    · simp [hk, hother k hk]
  rw [hset]
  split_ifs with h
  · rw [Finset.card_erase_add_one]
    simp [hlt, h, ht]
  · rw [Finset.erase_eq_of_notMem, Nat.add_zero]
    simp [Ne.symm h]

theorem Good.finiSub (hg : Good s log) (ht : (s.task t).phase = .leaving) :
    Good (s.finiSub t) log := by
  have hcounted : (s.task t).phase.counted = true := by rw [ht]; rfl
  have hlt : t < s.nextPid := hg.alloc t (by simp [ht])
  have htg : ∀ k, (s.finiSub t).tgid k = s.tgid k := fun k => setPhase_tgid _ t k _
  have hself : ((s.finiSub t).task t).phase =
      if (s.group (s.tgid t)).liveThreads = 1 then .last else .gone := by
    simp [Procs.finiSub]
  have hother : ∀ k, k ≠ t → (s.finiSub t).task k = s.task k := by
    intro k hk
    simp [Procs.finiSub, hk]
  have hgroup : ∀ g, (s.finiSub t).group g = if g = s.tgid t then
      { s.group g with liveThreads := (s.group g).liveThreads - 1 } else s.group g := by
    intro g
    simp only [Procs.finiSub, setPhase_group, setGroup_group]
    split_ifs with h
    · rw [h]
    · rfl
  have hnext : (s.finiSub t).nextPid = s.nextPid := rfl
  have hcount := liveCount_sub hnext htg hlt hcounted
    (by rw [hself]; split_ifs <;> rfl) fun k hk => by rw [hother k hk]
  refine ⟨?_, ?_, hg.log_lt, ?_, ?_, ?_, ?_⟩
  · intro k hk
    by_cases h : k = t
    · exact h ▸ hlt
    · rw [hother k h] at hk
      exact hg.alloc k hk
  · intro k
    rw [htg]
    exact hg.tgid_lt k
  · intro g
    have := hcount g
    rw [← hg.live] at this
    rw [hgroup]
    split_ifs at this ⊢
    · exact Nat.sub_eq_of_eq_add this
    · exact this
  · intro k hk
    rw [htg, hgroup]
    by_cases h : k = t
    · subst h
      rw [hself] at hk
      split_ifs at hk with hone
      rw [if_pos rfl]
      exact Nat.sub_eq_zero_of_le hone.le
    · rw [hother k h] at hk
      have := hg.last k hk
      split_ifs
      · exact Nat.sub_eq_zero_of_le (by omega)
      · exact this
  · intro g he
    rw [hgroup] at he ⊢
    split_ifs at he ⊢
    · exact Nat.sub_eq_zero_of_le (by have := hg.exited g he; omega)
    · exact hg.exited g he
  · intro g
    rw [hgroup]
    by_cases h : g = s.tgid t
    · simp only [if_pos h]
      exact hg.code g
    · simp only [if_neg h]
      exact hg.code g

theorem cas_published (es : List End) : cas (published es) (128 + 9) = published es := by
  unfold published cas
  split_ifs with h <;> simp_all

/-- A thread that no count includes is gone at last. -/
theorem Good.setPhase_gone (hg : Good s log) (ht : (s.task t).phase = .last) :
    Good (s.setPhase t .gone) log := by
  have hcounted : ∀ k, ((s.setPhase t .gone).task k).phase.counted =
      (s.task k).phase.counted := by
    intro k
    by_cases hk : k = t <;> simp [hk, ht, Phase.counted]
  have hphase : ∀ k p, p ≠ .gone → ((s.setPhase t .gone).task k).phase = p →
      (s.task k).phase = p := by
    intro k p hp hk
    by_cases h : k = t
    · rw [h] at hk
      simp only [setPhase_task, if_true] at hk
      exact absurd hk.symm hp
    · simpa [h] using hk
  refine ⟨?_, ?_, hg.log_lt, ?_, ?_, hg.exited, hg.code⟩
  · intro k hk
    apply hg.alloc k
    rw [hphase k _ hk rfl]
    exact hk
  · intro k
    rw [setPhase_tgid]
    exact hg.tgid_lt k
  · intro g
    rw [setPhase_group, hg.live]
    unfold Procs.liveCount
    simp only [setPhase_tgid, hcounted, setPhase_nextPid]
  · intro k hk
    rw [setPhase_tgid, setPhase_group]
    exact hg.last k (hphase k _ Phase.noConfusion hk)

/-- Publishing a group whose threads are all counted out. -/
theorem Good.publish (hg : Good s log) (hz : (s.group g).liveThreads = 0) :
    Good ((s.recordExit g (128 + 9)).setGroup g fun k => { k with exited := true }) log := by
  have hgroup : ∀ k, ((s.recordExit g (128 + 9)).setGroup g
      fun k => { k with exited := true }).group k = if k = g then
        { s.group g with exitCode := cas (s.group g).exitCode (128 + 9), exited := true }
      else s.group k := by
    intro k
    rw [setGroup_group, recordExit_group, recordExit_group, if_pos rfl]
    by_cases h : k = g <;> simp only [h, if_true, if_false]
  have hlive : ∀ k, (((s.recordExit g (128 + 9)).setGroup g
      fun k => { k with exited := true }).group k).liveThreads = (s.group k).liveThreads := by
    intro k
    rw [hgroup]
    split_ifs with h
    · rw [h]
    · rfl
  refine ⟨hg.alloc, hg.tgid_lt, hg.log_lt, ?_, ?_, ?_, ?_⟩
  · intro k
    rw [hlive]
    exact hg.live k
  · intro k hk
    rw [hlive]
    exact hg.last k hk
  · intro k hk
    rw [hlive]
    by_cases h : k = g
    · rw [h, hz]
    · rw [hgroup, if_neg h] at hk
      exact hg.exited k hk
  · intro k
    rw [hgroup]
    by_cases h : k = g
    · subst h
      rw [if_pos rfl]
      show cas (s.group k).exitCode (128 + 9) = published (endsOf log k)
      rw [hg.code]
      split_ifs
      · exact cas_published _
      · rfl
    · rw [if_neg h]
      exact hg.code k

theorem same_reparent (g : ℕ) : Same s (s.reparent g) := by
  refine ⟨rfl, fun _ => rfl, fun _ => rfl, fun _ => Iff.rfl, ?_, ?_⟩ <;>
  · intro k
    unfold Procs.reparent
    dsimp only
    split_ifs <;> rfl

theorem Good.finiLast (hg : Good s log) (ht : (s.task t).phase = .last) :
    Good (s.finiLast t) log := by
  unfold Procs.finiLast
  dsimp only
  split_ifs
  · exact (hg.setPhase_gone ht).quiet (same_pidMap _) fun _ => rfl
  · have hpub := hg.publish (hg.last t ht)
    have hrep := hpub.quiet (same_reparent (s.tgid t)) fun k => by
      unfold Procs.reparent
      dsimp only
      split_ifs <;> rfl
    exact hrep.setPhase_gone ht

theorem liveCount_add (hn : s'.nextPid = s.nextPid + 1)
    (htask : ∀ k, k ≠ s.nextPid → s'.task k = s.task k)
    (hnew : (s'.task s.nextPid).phase.counted = true) (g : ℕ) :
    s'.liveCount g = s.liveCount g + if g = s'.tgid s.nextPid then 1 else 0 := by
  unfold Procs.liveCount
  rw [hn, Finset.range_add_one, Finset.filter_insert]
  have hold : (Finset.range s.nextPid).filter
      (fun k => s'.tgid k = g ∧ (s'.task k).phase.counted = true) =
      (Finset.range s.nextPid).filter
        fun k => s.tgid k = g ∧ (s.task k).phase.counted = true := by
    apply Finset.filter_congr
    intro k hk
    have hne : k ≠ s.nextPid := (Finset.mem_range.mp hk).ne
    rw [Procs.tgid, Procs.tgid, htask k hne]
  rw [hold]
  by_cases h : g = s'.tgid s.nextPid
  · rw [if_pos ⟨h.symm, hnew⟩, if_pos h, Finset.card_insert_of_notMem]
    simp
  · rw [if_neg fun h' => h h'.1.symm, if_neg h, Nat.add_zero]

/-- What every clone does to the tasks. -/
structure ClonedTask (s s' : Procs) (g : ℕ) : Prop where
  nextPid : s'.nextPid = s.nextPid + 1
  task : ∀ k, k ≠ s.nextPid → s'.task k = s.task k
  phase : (s'.task s.nextPid).phase = .running
  tgid : s'.tgid s.nextPid = g
  tgid_lt : g < s.nextPid + 1

theorem ClonedTask.liveCount (h : ClonedTask s s' g) (k : ℕ) :
    s'.liveCount k = s.liveCount k + if k = g then 1 else 0 := by
  rw [liveCount_add h.nextPid h.task (by rw [h.phase]; rfl), h.tgid]

theorem ClonedTask.tgid_old {k : ℕ} (h : ClonedTask s s' g) (hk : k ≠ s.nextPid) :
    s'.tgid k = s.tgid k := by
  rw [Procs.tgid, h.task k hk]
  rfl

/-- A new thread keeps the invariant if its group counts it, is not published and keeps its
code. -/
theorem Good.clone (hg : Good s log) (h : ClonedTask s s' g)
    (hother : ∀ k, k ≠ g → s'.group k = s.group k)
    (hlive : (s'.group g).liveThreads = s.liveCount g + 1) (hexited : (s'.group g).exited = false)
    (hcode : (s'.group g).exitCode = recorded (endsOf log g))
    (hlast : ∀ t, (s.task t).phase = .last → s.tgid t ≠ g) : Good s' log := by
  refine ⟨?_, ?_, ?_, ?_, ?_, ?_, ?_⟩
  · intro k hk
    rw [h.nextPid]
    by_cases hnew : k = s.nextPid
    · omega
    · rw [h.task k hnew] at hk
      exact Nat.lt_succ_of_lt (hg.alloc k hk)
  · intro k
    rw [h.nextPid]
    by_cases hnew : k = s.nextPid
    · rw [hnew, h.tgid]
      exact h.tgid_lt
    · rw [h.tgid_old hnew]
      exact Nat.lt_succ_of_lt (hg.tgid_lt k)
  · intro x hx
    rw [h.nextPid]
    exact Nat.lt_succ_of_lt (hg.log_lt x hx)
  · intro k
    rw [h.liveCount]
    by_cases hk : k = g
    · rw [if_pos hk, hk, hlive]
    · rw [if_neg hk, hother k hk, hg.live, Nat.add_zero]
  · intro k hk
    have hold : k ≠ s.nextPid := by
      rintro rfl
      rw [h.phase] at hk
      exact Phase.noConfusion hk
    rw [h.task k hold] at hk
    rw [h.tgid_old hold, hother _ (hlast k hk)]
    exact hg.last k hk
  · intro k hk
    by_cases hkg : k = g
    · rw [hkg, hexited] at hk
      exact absurd hk Bool.false_ne_true
    · rw [hother k hkg] at hk ⊢
      exact hg.exited k hk
  · intro k
    by_cases hkg : k = g
    · rw [hkg, hexited, hcode]
      rfl
    · rw [hother k hkg]
      exact hg.code k

theorem Good.doClone_thread (hg : Good s log) (ht : (s.task t).phase = .running) :
    Good (s.doClone t true) log := by
  have hcounted : (s.task t).phase.counted = true := by rw [ht]; rfl
  have hne : (s.group (s.tgid t)).exited = false := hg.not_exited hcounted
  have htask : ClonedTask s (s.doClone t true) (s.tgid t) :=
    ⟨rfl, fun k hk => by simp [Procs.doClone, hk], by simp [Procs.doClone],
      by simp [Procs.doClone, Procs.tgid], Nat.lt_succ_of_lt (hg.tgid_lt t)⟩
  have hgroup : (s.doClone t true).group (s.tgid t) =
      { s.group (s.tgid t) with
        liveThreads := (s.group (s.tgid t)).liveThreads + 1
        threads := (s.group (s.tgid t)).threads ++ [s.nextPid] } := by
    simp [Procs.doClone]
  apply hg.clone htask
  · intro k hk
    simp [Procs.doClone, hk]
  · rw [hgroup, ← hg.live]
  · rw [hgroup]
    exact hne
  · rw [hgroup]
    simpa [hne] using hg.code (s.tgid t)
  · intro k hk heq
    have hz := hg.last k hk
    rw [heq] at hz
    exact absurd hz (hg.live_pos hcounted).ne'

theorem Good.doClone_fork (hg : Good s log) (t : ℕ) : Good (s.doClone t false) log := by
  have htask : ClonedTask s (s.doClone t false) s.nextPid :=
    ⟨rfl, fun k hk => by simp [Procs.doClone, hk], by simp [Procs.doClone],
      by simp [Procs.doClone, Procs.tgid], Nat.lt_succ_self _⟩
  have hgroup : (s.doClone t false).group s.nextPid =
      ThreadGroup.fresh s.nextPid (s.tgid t) := by
    simp [Procs.doClone]
  have hempty : s.liveCount s.nextPid = 0 := by
    rw [Procs.liveCount, Finset.card_eq_zero, Finset.filter_eq_empty_iff]
    intro k _ hk
    exact absurd hk.1 (hg.tgid_lt k).ne
  have hnone : endsOf log s.nextPid = [] := by
    rw [endsOf, List.map_eq_nil_iff, List.filter_eq_nil_iff]
    intro x hx
    simpa using (hg.log_lt x hx).ne
  apply hg.clone htask
  · intro k hk
    simp [Procs.doClone, hk]
  · rw [hgroup, hempty]
    rfl
  · rw [hgroup]
    rfl
  · rw [hgroup, hnone]
    rfl
  · intro k _
    exact (hg.tgid_lt k).ne

/-! ## Steps and runs -/

theorem good_init : Good Procs.init [] := by
  have htask : ∀ t, t ≠ 1 → (Procs.init.task t).phase = .gone := by
    intro t ht
    simp [Procs.init, ht]
  have hexited : ∀ g, (Procs.init.group g).exited = false := by
    intro g
    simp only [Procs.init]
    split_ifs <;> rfl
  refine ⟨?_, ?_, ?_, ?_, ?_, ?_, ?_⟩
  · intro t ht
    by_contra hlt
    refine ht (htask t ?_)
    rintro rfl
    exact hlt (by decide)
  · intro t
    exact Nat.one_lt_two
  · intro x hx
    exact absurd hx List.not_mem_nil
  · intro g
    by_cases hg : g = 1
    · subst hg
      decide
    · have hgroup : (Procs.init.group g).liveThreads = 0 := by
        simp [Procs.init, hg, ThreadGroup.unused]
      rw [hgroup, eq_comm, Procs.liveCount, Finset.card_eq_zero, Finset.filter_eq_empty_iff]
      intro k _ hk
      exact hg hk.1.symm
  · intro t ht
    simp only [Procs.init] at ht
    split_ifs at ht
  · intro g hg
    rw [hexited] at hg
    exact absurd hg Bool.false_ne_true
  · intro g
    rw [hexited, if_neg Bool.false_ne_true]
    simp only [Procs.init]
    split_ifs <;> rfl

/-- No end is added to the log. -/
theorem Good.silent (hg : Good s log) : Good s (log ++ []) := by
  rwa [List.append_nil]

/-- Every step keeps the invariant, with its end added to the log. -/
theorem good_step (hg : Good s log) (h : Step s a s') : Good s' (log ++ (s.ending a).toList) := by
  cases a <;> simp only [Step, Procs.step, Option.ite_none_right_eq_some, Option.some.injEq] at h
  case exit t r1 =>
    obtain ⟨ht, rfl⟩ := h
    exact hg.record ht (.exit (argS32 r1)) rfl
  case exitGroup t r1 =>
    obtain ⟨ht, rfl⟩ := h
    exact hg.record ht (.exitGroup (argS32 r1)) rfl
  case fatalSignal t sig =>
    obtain ⟨⟨ht, _⟩, rfl⟩ := h
    exact hg.record ht (.signal sig) rfl
  -- the other steps add no end
  all_goals apply Good.silent
  case killOthers t =>
    obtain ⟨ht, rfl⟩ := h
    have hkill := same_kill (s := s) ((s.group (s.tgid t)).threads.filter (· ≠ t))
    refine hg.quiet (hkill.trans (same_setPhase ?_ rfl)) fun _ => rfl
    rw [hkill.counted, ht]
    rfl
  case tkill t =>
    subst h
    exact hg.quiet (same_kill _) fun _ => rfl
  case kill g =>
    subst h
    exact hg.quiet (same_kill _) fun _ => rfl
  case die t =>
    obtain ⟨⟨ht, _⟩, rfl⟩ := h
    exact hg.quiet (same_setPhase (by rw [ht]; rfl) rfl) fun _ => rfl
  case ret t =>
    obtain ⟨ht, rfl⟩ := h
    exact hg.quiet (same_setPhase (by rw [ht]; rfl) rfl) fun _ => rfl
  case finiSub t =>
    obtain ⟨ht, rfl⟩ := h
    exact hg.finiSub ht
  case finiLast t =>
    obtain ⟨ht, rfl⟩ := h
    exact hg.finiLast ht
  case clone t isThread =>
    obtain ⟨ht, rfl⟩ := h
    cases isThread with
    | true => exact hg.doClone_thread ht
    | false => exact hg.doClone_fork t
  case setpgid t pgid =>
    subst h
    refine hg.quiet ⟨rfl, ?_, ?_, ?_, fun _ => rfl, fun _ => rfl⟩ fun _ => rfl <;>
    · intro k
      by_cases hk : k = t <;> simp [Procs.tgid, hk]
  case stop g sig =>
    subst h
    refine hg.quiet (same_setGroup g rfl rfl) fun k => ?_
    by_cases hk : k = g <;> simp [Procs.stopProcess, hk]
  case cont g =>
    subst h
    refine hg.quiet (same_setGroup g rfl rfl) fun k => ?_
    by_cases hk : k = g <;> simp [Procs.sigcont, hk]
  case wait4 t r1 r3 order =>
    obtain ⟨_, rfl⟩ := h
    have hw := doWait4_spec (s := s) t r1 r3 order
    exact hg.quiet hw.same hw.code
  case waitid t r1 r2 r4 order =>
    obtain ⟨_, rfl⟩ := h
    have hw := doWaitid_spec (s := s) t r1 r2 r4 order
    exact hg.quiet hw.same hw.code

/-- The signals of ends are those whose default action terminates. -/
def End.Fatal : End → Prop
  | .signal sig => isDefaultTerm sig = true
  | _ => True

theorem ending_fatal (h : Step s a s') : ∀ x ∈ (s.ending a).toList, x.2.Fatal := by
  intro x hx
  rw [Option.mem_toList] at hx
  cases a with
  | exit t r1 | exitGroup t r1 =>
    cases hx
    trivial
  | fatalSignal t sig =>
    simp only [Step, Procs.step, Option.ite_none_right_eq_some] at h
    cases hx
    exact h.1.2
  | _ => cases hx

/-- The second component logs the ends of a run that leads to `s`. -/
structure Logs (s : Procs) (x : Procs × List (ℕ × End)) : Prop where
  state : x.1 = s
  good : Good s x.2
  fatal : ∀ y ∈ x.2, y.2.Fatal

theorem logs_step {x : Procs × List (ℕ × End)} (hx : Logs s x) (h : Step s a s') :
    Logs s' (Procs.logged x a) := by
  obtain ⟨_, log⟩ := x
  obtain ⟨rfl, hg, hf⟩ := hx
  refine ⟨?_, good_step hg h, ?_⟩
  · show (Procs.step _ a).getD _ = s'
    rw [h]
    rfl
  · intro y hy
    rcases List.mem_append.mp hy with hy | hy
    · exact hf y hy
    · exact ending_fatal h y hy

/-- In every state of every run the codes are those of the ends so far. -/
theorem logs_run {l : List Act} (h : Run Step Procs.init l s) :
    Logs s (l.foldl Procs.logged (Procs.init, [])) :=
  h.simulation ⟨rfl, good_init, List.forall_mem_nil _⟩ fun _ _ _ _ => logs_step

/-- In every state of every run `live_threads` counts the threads of a group that have not left
it, and there are none once one of them ends the group or the group has exited. -/
theorem liveThreads_exact {l : List Act} (h : Run Step Procs.init l s) (g : ℕ) :
    (s.group g).liveThreads = s.liveCount g ∧
      ((s.group g).exited = true ∨ (∃ t, s.tgid t = g ∧ (s.task t).phase = .last) →
        s.liveCount g = 0) := by
  have hg := (logs_run h).good
  refine ⟨hg.live g, fun hend => ?_⟩
  rw [← hg.live g]
  rcases hend with he | ⟨t, rfl, ht⟩
  · exact hg.exited g he
  · exact hg.last t ht

/-- Pid 2 gets a thread, which ends the group. -/
theorem liveThreads_exact_clone : ∃ s, Run Step Procs.init [.clone 1 false, .clone 2 true,
      .exitGroup 3 7, .killOthers 3, .finiSub 3, .die 2, .finiSub 2] s ∧
    (s.task 2).phase = .last ∧ s.liveCount 2 = 0 ∧ (s.group 1).liveThreads = s.liveCount 1 := by
  obtain ⟨s, hrun, htgid, hphase⟩ : ∃ s, Run Step Procs.init [.clone 1 false, .clone 2 true,
      .exitGroup 3 7, .killOthers 3, .finiSub 3, .die 2, .finiSub 2] s ∧
      s.tgid 2 = 2 ∧ (s.task 2).phase = .last := ⟨_, Run.of_foldlM rfl, by decide, by decide⟩
  exact ⟨s, hrun, hphase, (liveThreads_exact hrun 2).2 (.inr ⟨2, htgid, hphase⟩),
    (liveThreads_exact hrun 1).1⟩

end Bpfvm.Process
