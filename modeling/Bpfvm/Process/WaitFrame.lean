import Bpfvm.Process.Wait

/-!
# What the steps leave alone

The parts of the state that waiting reads, and how the steps that are not about waiting
treat them: pids are given out once, a group keeps its leader, and the life of the threads
touches neither the flags of a stop nor a published exit.
-/
namespace Bpfvm.Process

/-- The shape of the process table along a run. -/
structure Procs.Wf (s : Procs) : Prop where
  tgid_pos : ∀ t, 0 < s.tgid t
  tgid_lt : ∀ t, s.tgid t < s.nextPid
  unused : ∀ g, s.nextPid ≤ g → s.group g = ThreadGroup.unused
  nodup : s.pidMap.Nodup
  pid_lt : ∀ p ∈ s.pidMap, p < s.nextPid
  root : (s.group 1).ppid = 0
  code : ∀ g, (s.group g).exited → (s.group g).exitCode ≠ -1

/-- The child `p` has been removed from `pid_map`. -/
def Procs.reaped (s : Procs) (p : ℕ) : Prop :=
  1 < p ∧ p < s.nextPid ∧ s.tgid p = p ∧ p ∉ s.pidMap

instance (s : Procs) (p : ℕ) : Decidable (s.reaped p) :=
  inferInstanceAs (Decidable (_ ∧ _ ∧ _ ∧ _))

/-- What no step ever undoes. -/
structure Procs.Grows (s s' : Procs) : Prop where
  nextPid : s.nextPid ≤ s'.nextPid
  tgid : ∀ p, p < s.nextPid → s'.tgid p = s.tgid p
  exited : ∀ g, (s.group g).exited → (s'.group g).exited
  exitCode : ∀ g, (s.group g).exitCode ≠ -1 → (s'.group g).exitCode = (s.group g).exitCode

/-- The flags a waiter reads, and the children it may still find, are the same. -/
structure Procs.Quiet (s s' : Procs) : Prop extends s.Grows s' where
  exited_eq : ∀ g, (s'.group g).exited = (s.group g).exited
  stopped : ∀ g, (s'.group g).stopped = (s.group g).stopped
  stopSig : ∀ g, (s'.group g).stopSig = (s.group g).stopSig
  stopReported : ∀ g, (s'.group g).stopReported = (s.group g).stopReported
  reaped : ∀ p, s'.reaped p ↔ s.reaped p

variable {s s' : Procs}

theorem Procs.Grows.refl (s : Procs) : s.Grows s :=
  ⟨le_rfl, fun _ _ => rfl, fun _ h => h, fun _ _ => rfl⟩

theorem Procs.Quiet.refl (s : Procs) : s.Quiet s :=
  ⟨.refl s, fun _ => rfl, fun _ => rfl, fun _ => rfl, fun _ => rfl, fun _ => Iff.rfl⟩

/-! ## The kinds of updates -/

/-- An update of the tasks that keeps their groups. -/
theorem wf_tasks (h : s.Wf) {f : ℕ → Task} (hf : ∀ u, (f u).tg = s.tgid u) :
    Procs.Wf { s with task := f } ∧ s.Quiet { s with task := f } := by
  have htg : ∀ u, Procs.tgid { s with task := f } u = s.tgid u := hf
  refine ⟨⟨fun u => ?_, fun u => ?_, h.unused, h.nodup, h.pid_lt, h.root, h.code⟩,
    ⟨⟨le_rfl, fun u _ => hf u, fun _ h => h, fun _ _ => rfl⟩, fun _ => rfl, fun _ => rfl,
      fun _ => rfl, fun _ => rfl, fun p => ?_⟩⟩
  · exact (htg u).symm ▸ h.tgid_pos u
  · exact (htg u).symm ▸ h.tgid_lt u
  · rw [Procs.reaped, htg]
    rfl

theorem wf_setTask (h : s.Wf) {t : ℕ} {f : Task → Task} (hf : (f (s.task t)).tg = s.tgid t) :
    (s.setTask t f).Wf ∧ s.Quiet (s.setTask t f) := by
  refine wf_tasks h fun u => ?_
  change ((s.setTask t f).task u).tg = _
  rw [setTask_task]
  split
  · subst u
    exact hf
  · rfl

theorem wf_kill (h : s.Wf) (ts : List ℕ) : (s.kill ts).Wf ∧ s.Quiet (s.kill ts) :=
  wf_tasks h fun u => by split <;> rfl

variable {g : ℕ} {f : ThreadGroup → ThreadGroup}

theorem wf_setGroup (h : s.Wf) (hg : g < s.nextPid) (hp : (f (s.group g)).ppid = (s.group g).ppid)
    (hc : (f (s.group g)).exited → (f (s.group g)).exitCode ≠ -1) : (s.setGroup g f).Wf := by
  refine ⟨h.tgid_pos, h.tgid_lt, fun k hk => ?_, h.nodup, h.pid_lt, ?_, fun k => ?_⟩
  · rw [setGroup_group, if_neg (by rw [setGroup_nextPid] at hk; omega)]
    exact h.unused k hk
  · rw [setGroup_group]
    split
    · subst g
      rw [hp]
      exact h.root
    · exact h.root
  · rw [setGroup_group]
    split
    · exact hc
    · exact h.code k

theorem grows_setGroup (he : (s.group g).exited → (f (s.group g)).exited)
    (hc : (s.group g).exitCode ≠ -1 → (f (s.group g)).exitCode = (s.group g).exitCode) :
    s.Grows (s.setGroup g f) := by
  refine ⟨le_rfl, fun _ _ => rfl, fun k => ?_, fun k => ?_⟩ <;> rw [setGroup_group] <;> split
  · subst k
    exact he
  · exact id
  · subst k
    exact hc
  · exact fun _ => rfl

/-- An update of a group in use that is not about its events. -/
theorem quiet_setGroup (h : s.Wf) (hg : g < s.nextPid)
    (hp : (f (s.group g)).ppid = (s.group g).ppid)
    (he : (f (s.group g)).exited = (s.group g).exited)
    (hc : (s.group g).exitCode ≠ -1 → (f (s.group g)).exitCode = (s.group g).exitCode)
    (hst : (f (s.group g)).stopped = (s.group g).stopped)
    (hsig : (f (s.group g)).stopSig = (s.group g).stopSig)
    (hrep : (f (s.group g)).stopReported = (s.group g).stopReported) :
    (s.setGroup g f).Wf ∧ s.Quiet (s.setGroup g f) := by
  refine ⟨wf_setGroup h hg hp fun hx => ?_, grows_setGroup (fun hx => he.trans hx) hc, ?_, ?_, ?_,
    ?_, fun _ => Iff.rfl⟩
  · rw [he] at hx
    rw [hc (h.code g hx)]
    exact h.code g hx
  all_goals
    intro k
    rw [setGroup_group]
    split
    · subst k
      assumption
    · rfl

theorem Procs.Quiet.trans {s'' : Procs} (h : s.Quiet s') (h' : s'.Quiet s'') : s.Quiet s'' where
  nextPid := h.nextPid.trans h'.nextPid
  tgid p hp := (h'.tgid p (hp.trans_le h.nextPid)).trans (h.tgid p hp)
  exited g hx := h'.exited g (h.exited g hx)
  exitCode g hc := by
    have hc' := h.exitCode g hc
    exact (h'.exitCode g (hc' ▸ hc)).trans hc'
  exited_eq g := (h'.exited_eq g).trans (h.exited_eq g)
  stopped g := (h'.stopped g).trans (h.stopped g)
  stopSig g := (h'.stopSig g).trans (h.stopSig g)
  stopReported g := (h'.stopReported g).trans (h.stopReported g)
  reaped p := (h'.reaped p).trans (h.reaped p)

theorem wf_recordExit (h : s.Wf) (t : ℕ) (c : U32) :
    (s.recordExit (s.tgid t) c).Wf ∧ s.Quiet (s.recordExit (s.tgid t) c) := by
  refine quiet_setGroup h (h.tgid_lt t) ?_ ?_ (fun hc => ?_) ?_ ?_ ?_
  · split <;> rfl
  · split <;> rfl
  · rw [if_neg hc]
  all_goals split <;> rfl

/-- The removal of an entry of `pid_map` that is not a child waited for. -/
theorem wf_erase (h : s.Wf) {p : ℕ} (hp : p = 1 ∨ p ≠ s.tgid p) :
    ({ s with pidMap := s.pidMap.erase p } : Procs).Wf ∧
      s.Quiet { s with pidMap := s.pidMap.erase p } := by
  refine ⟨⟨h.tgid_pos, h.tgid_lt, h.unused, h.nodup.erase p,
    fun q hq => h.pid_lt q (List.mem_of_mem_erase hq), h.root, h.code⟩,
    ⟨⟨le_rfl, fun _ _ => rfl, fun _ h => h, fun _ _ => rfl⟩, fun _ => rfl, fun _ => rfl,
      fun _ => rfl, fun _ => rfl, fun q => ?_⟩⟩
  simp only [Procs.reaped]
  refine and_congr_right fun h1 => and_congr_right fun _ => and_congr_right fun htg => ?_
  rw [List.mem_erase_of_ne]
  rintro rfl
  rcases hp with rfl | hp
  · omega
  · exact hp htg.symm

/-- A new group shows a waiter what the unused one did, a new thread changes nothing of it. -/
theorem doClone_group (h : s.Wf) (t : ℕ) (isThread : Bool) (g : ℕ) :
    ((s.doClone t isThread).group g).exited = (s.group g).exited ∧
    ((s.doClone t isThread).group g).exitCode = (s.group g).exitCode ∧
    ((s.doClone t isThread).group g).stopped = (s.group g).stopped ∧
    ((s.doClone t isThread).group g).stopSig = (s.group g).stopSig ∧
    ((s.doClone t isThread).group g).stopReported = (s.group g).stopReported ∧
    (g < s.nextPid → ((s.doClone t isThread).group g).ppid = (s.group g).ppid) := by
  have hun := h.unused s.nextPid le_rfl
  cases isThread with
  | true =>
    by_cases hg : g = s.tgid t
    · subst hg
      simp [Procs.doClone]
    · simp [Procs.doClone, hg]
  | false =>
    by_cases hg : g = s.nextPid
    · subst hg
      simp [Procs.doClone, hun, ThreadGroup.fresh, ThreadGroup.unused]
    · simp [Procs.doClone, hg]

theorem doClone_tgid (t : ℕ) (isThread : Bool) (p : ℕ) :
    (s.doClone t isThread).tgid p =
      if p = s.nextPid then (if isThread then s.tgid t else s.nextPid) else s.tgid p := by
  by_cases hp : p = s.nextPid
  · subst hp
    simp [Procs.tgid, Procs.doClone]
  · simp [Procs.tgid, Procs.doClone, hp]

theorem doClone_unused (h : s.Wf) (t : ℕ) (isThread : Bool) (hg : s.nextPid < g) :
    (s.doClone t isThread).group g = ThreadGroup.unused := by
  have hlt := h.tgid_lt t
  rw [← h.unused g hg.le]
  cases isThread with
  | true => simp [Procs.doClone, show g ≠ s.tgid t by omega]
  | false => simp [Procs.doClone, show g ≠ s.nextPid by omega]

theorem wf_doClone (h : s.Wf) (t : ℕ) (isThread : Bool) : (s.doClone t isThread).Wf := by
  have hlt := h.tgid_lt t
  have hpos := h.tgid_pos t
  refine ⟨fun p => ?_, fun p => ?_, fun g hg => doClone_unused h t isThread hg, ?_, fun p hp => ?_,
    ?_, fun g hx => ?_⟩
  · rw [doClone_tgid]
    have := h.tgid_pos p
    split_ifs <;> omega
  · rw [doClone_tgid]
    have := h.tgid_lt p
    change _ < s.nextPid + 1
    split_ifs <;> omega
  · refine List.nodup_append'.mpr ⟨h.nodup, by simp, fun p hp hp' => ?_⟩
    have hp1 := h.pid_lt p hp
    simp only [List.mem_singleton] at hp'
    omega
  · change p < s.nextPid + 1
    rcases List.mem_append.mp hp with hp | hp
    · exact Nat.lt_succ_of_lt (h.pid_lt p hp)
    · simp only [List.mem_singleton] at hp
      omega
  · rw [(doClone_group h t isThread 1).2.2.2.2.2 (by omega)]
    exact h.root
  · obtain ⟨he, hc, -⟩ := doClone_group h t isThread g
    rw [hc]
    exact h.code g (he ▸ hx)

theorem quiet_doClone (h : s.Wf) (t : ℕ) (isThread : Bool) : s.Quiet (s.doClone t isThread) := by
  have hlt := h.tgid_lt t
  refine ⟨⟨Nat.le_succ _, fun p hp => ?_, fun g hx => ?_, fun g _ => ?_⟩, fun g => ?_, fun g => ?_,
    fun g => ?_, fun g => ?_, fun p => ?_⟩
  · rw [doClone_tgid, if_neg hp.ne]
  · rw [(doClone_group h t isThread g).1]
    exact hx
  · exact (doClone_group h t isThread g).2.1
  · exact (doClone_group h t isThread g).1
  · exact (doClone_group h t isThread g).2.2.1
  · exact (doClone_group h t isThread g).2.2.2.1
  · exact (doClone_group h t isThread g).2.2.2.2.1
  · -- the new pid is in the map, and was not given out before
    have hmem : p ∈ (s.doClone t isThread).pidMap ↔ p ∈ s.pidMap ∨ p = s.nextPid := by
      simp [Procs.doClone]
    have hn : (s.doClone t isThread).nextPid = s.nextPid + 1 := rfl
    simp only [Procs.reaped, doClone_tgid, hmem, hn]
    by_cases hp : p = s.nextPid
    · simp [hp]
    · simp only [hp, if_false, or_false]
      refine and_congr_right fun _ => and_congr_left fun _ => ?_
      omega

theorem wf_setPhase (h : s.Wf) (t : ℕ) (p : Phase) :
    (s.setPhase t p).Wf ∧ s.Quiet (s.setPhase t p) := wf_setTask h rfl

theorem quiet_finiSub (h : s.Wf) (t : ℕ) : (s.finiSub t).Wf ∧ s.Quiet (s.finiSub t) ∧
    (t = s.tgid t → (s.finiSub t).pidMap = s.pidMap) := by
  obtain ⟨hw, hq⟩ := quiet_setGroup h (h.tgid_lt t)
    (f := fun k => { k with liveThreads := k.liveThreads - 1 }) rfl rfl (fun _ => rfl) rfl rfl rfl
  obtain ⟨hw', hq'⟩ := wf_setPhase hw t
    (if (s.group (s.tgid t)).liveThreads = 1 then .last else .gone)
  have hfini : s.finiSub t = { (s.setGroup (s.tgid t) fun k =>
      { k with liveThreads := k.liveThreads - 1 }).setPhase t
        (if (s.group (s.tgid t)).liveThreads = 1 then .last else .gone) with
      pidMap := if t = s.tgid t then s.pidMap else s.pidMap.erase t } := rfl
  by_cases ht : t = s.tgid t
  · rw [if_pos ht] at hfini
    rw [hfini]
    exact ⟨hw', hq.trans hq', fun _ => rfl⟩
  · have htg : t ≠ ((s.setGroup (s.tgid t) fun k =>
        { k with liveThreads := k.liveThreads - 1 }).setPhase t
          (if (s.group (s.tgid t)).liveThreads = 1 then .last else .gone)).tgid t := by
      simpa [Procs.tgid] using ht
    obtain ⟨hw'', hq''⟩ := wf_erase hw' (Or.inr htg)
    rw [if_neg ht] at hfini
    rw [hfini]
    exact ⟨hw'', (hq.trans hq').trans hq'', fun h => absurd h ht⟩

/-! ## The steps of the tasks -/

/-- A step of the tasks that stands here as it is keeps the shape of the table and is quiet,
and without the lock leaves the map. -/
theorem quiet_step (h : s.Wf) {a : Act} (ha : a.plain = true) (hs : s.step a = some s') :
    s'.Wf ∧ s.Quiet s' ∧ (a.locks s = false → s'.pidMap = s.pidMap) := by
  have hrecord : ∀ t c p, ((s.recordExit (s.tgid t) c).setPhase t p).Wf ∧
      s.Quiet ((s.recordExit (s.tgid t) c).setPhase t p) := by
    intro t c p
    obtain ⟨hw, hq⟩ := wf_recordExit h t c
    exact ⟨(wf_setPhase hw t p).1, hq.trans (wf_setPhase hw t p).2⟩
  cases a <;> simp only [Procs.step, Option.ite_none_right_eq_some, Option.some.injEq] at hs
  case exit t r1 =>
    obtain ⟨-, rfl⟩ := hs
    exact ⟨(hrecord ..).1, (hrecord ..).2, fun _ => rfl⟩
  case exitGroup t r1 =>
    obtain ⟨-, rfl⟩ := hs
    exact ⟨(hrecord ..).1, (hrecord ..).2, fun _ => rfl⟩
  case fatalSignal t sig =>
    obtain ⟨-, rfl⟩ := hs
    exact ⟨(hrecord ..).1, (hrecord ..).2, fun _ => rfl⟩
  case killOthers t =>
    obtain ⟨-, rfl⟩ := hs
    obtain ⟨hw, hq⟩ := wf_kill h ((s.group (s.tgid t)).threads.filter (· ≠ t))
    exact ⟨(wf_setPhase hw t _).1, hq.trans (wf_setPhase hw t _).2, fun _ => rfl⟩
  case tkill t =>
    subst hs
    exact ⟨(wf_kill h _).1, (wf_kill h _).2, fun _ => rfl⟩
  case kill g =>
    subst hs
    exact ⟨(wf_kill h _).1, (wf_kill h _).2, fun _ => rfl⟩
  case die t =>
    obtain ⟨-, rfl⟩ := hs
    exact ⟨(wf_setPhase h ..).1, (wf_setPhase h ..).2, fun _ => rfl⟩
  case ret t =>
    obtain ⟨-, rfl⟩ := hs
    exact ⟨(wf_setPhase h ..).1, (wf_setPhase h ..).2, fun _ => rfl⟩
  case finiSub t =>
    obtain ⟨-, rfl⟩ := hs
    obtain ⟨hw, hq, hm⟩ := quiet_finiSub h t
    exact ⟨hw, hq, fun hl => hm (by simpa [Act.locks] using hl)⟩
  case finiLast t =>
    obtain ⟨-, rfl⟩ := hs
    obtain rfl : t = 1 := by simpa [Act.plain] using ha
    obtain ⟨hw, hq⟩ := wf_setPhase h 1 .gone
    obtain ⟨hw', hq'⟩ := wf_erase hw (Or.inl rfl)
    exact ⟨hw', hq.trans hq', fun hl => absurd hl (by simp [Act.locks])⟩
  case clone t isThread =>
    obtain ⟨-, rfl⟩ := hs
    exact ⟨wf_doClone h t isThread, quiet_doClone h t isThread,
      fun hl => absurd hl (by simp [Act.locks])⟩
  case setpgid t pgid =>
    subst hs
    exact ⟨(wf_setTask h rfl).1, (wf_setTask h rfl).2, fun _ => rfl⟩
  all_goals simp [Act.plain] at ha

end Bpfvm.Process
