import Bpfvm.Process.Lifecycle

/-!
# The exit status a parent is told

The first of `do_exit`, `do_exit_group` and the default action of a fatal signal to run in a
group decides what `wait4` and `waitid` report.
-/
namespace Bpfvm.Process
open Procs

variable {s : Procs}

/-- What a parent reads out of a status. -/
inductive Report where
  | exited (code : ℕ)
  | signaled (sig : ℕ)
  | other
  deriving DecidableEq, Repr

/-- `WIFEXITED`, `WEXITSTATUS`, `WIFSIGNALED` and `WTERMSIG` on the word of `wait4`. -/
def decodeStatus (w : U32) : Report :=
  if w &&& 0x7f = 0 then .exited ((w &&& 0xff00) >>> 8).toNat
  else if ((w &&& 0xffff) - 1).toNat < 0xff then .signaled (w &&& 0x7f).toNat
  else .other

/-- `CLD_EXITED` and `CLD_KILLED` with the status of `waitid`. -/
def decodeSiginfo : ℕ × U32 → Report
  | (1, status) => .exited status.toNat
  | (2, status) => .signaled status.toNat
  | _ => .other

/-- An end that has a report of its own: an exit code below 128, or a signal. -/
def End.report : End → Option Report
  | .exit c => if c.toNat < 128 then some (.exited c.toNat) else none
  | .exitGroup c => if c.toNat < 128 then some (.exited c.toNat) else none
  | .signal sig => some (.signaled sig)

/-- The first end decides; without one, the threads were killed or just returned. -/
def firstReport (es : List End) : Option Report :=
  match es.head? with
  | none => some (.signaled sigkill)
  | some e => e.report

theorem foldl_cas {c : U32} (hc : c ≠ -1) (es : List End) :
    es.foldl (fun c e => cas c e.code) c = c := by
  induction es with
  | nil => rfl
  | cons e es ih =>
    rw [List.foldl_cons, cas, if_neg hc]
    exact ih

theorem published_cons {e : End} (he : e.code ≠ -1) (es : List End) :
    published (e :: es) = e.code := by
  have hrec : recorded (e :: es) = e.code := foldl_cas he es
  rw [published, hrec, cas, if_neg he]

/-- A word that both calls decode to `r`. -/
def Reads (code : U32) (r : Report) : Prop :=
  code ≠ -1 ∧ decodeStatus (wait4ExitStatus (code.signExtend 64)) = r ∧
    decodeSiginfo (WaitEvent.siginfo ⟨0, true, 0, code.signExtend 64⟩) = r

instance (code : U32) (r : Report) : Decidable (Reads code r) :=
  inferInstanceAs (Decidable (_ ∧ _ ∧ _))

theorem reads_exited {c : U32} (hc : c.toNat < 128) : Reads c (.exited c.toNat) := by
  have hall : ∀ n : Fin 128, Reads (BitVec.ofNat 32 n) (.exited n) := by decide
  simpa using hall ⟨c.toNat, hc⟩

theorem reads_signaled {sig : ℕ} (h : isDefaultTerm sig = true) :
    Reads (End.signal sig).code (.signaled sig) := by
  have hall : ∀ k ∈ [1, 2, 3, 4, 5, 6, 7, 8, 10, 11, 12, 13, 14, 15, 16, 24, 25, 26, 27],
      Reads (End.signal k).code (.signaled k) := by decide
  exact hall sig (by simpa [isDefaultTerm] using h)

theorem reads_published {es : List End} (hf : ∀ e ∈ es, e.Fatal) {r : Report}
    (hr : firstReport es = some r) : Reads (published es) r := by
  cases es with
  | nil =>
    cases hr
    decide
  | cons e es =>
    have hread : Reads e.code r := by
      have he : e.report = some r := hr
      cases e with
      | exit c | exitGroup c =>
        simp only [End.report, Option.ite_none_right_eq_some, Option.some.injEq] at he
        exact he.2 ▸ reads_exited he.1
      | signal sig =>
        cases he
        exact reads_signaled (hf _ List.mem_cons_self)
    rwa [published_cons hread.1]

theorem fatal_endsOf {l : List Act} (h : Run Step init l s) (g : ℕ) :
    ∀ e ∈ endsOf (endings l) g, e.Fatal := by
  intro e he
  obtain ⟨x, hx, rfl⟩ := List.mem_map.mp he
  exact (logs_run h).fatal x (List.mem_of_mem_filter hx)

/-- An exit a pass over the children reports in a state of a run. -/
theorem reads_event {l : List Act} (h : Run Step init l s) {r : WaitOutcome × Procs}
    (hw : Waited s r) {ev : WaitEvent} (hev : r.1 = .event ev) (he : ev.exited = true)
    {rep : Report} (hrep : firstReport (endsOf (endings l) (s.tgid ev.child)) = some rep) :
    decodeStatus ev.status = rep ∧ decodeSiginfo ev.siginfo = rep := by
  obtain ⟨hexited, hcode⟩ := hw.event ev hev he
  rw [(logs_run h).good.code, if_pos hexited] at hcode
  obtain ⟨-, hstatus, hinfo⟩ := reads_published (fatal_endsOf h _) hrep
  rw [WaitEvent.status, WaitEvent.siginfo, he, hcode]
  exact ⟨hstatus, hinfo⟩

/-- Whatever the interleaving, a parent is told of the first end of the group: of the exit
code if it is below 128, of the signal if it was fatal, and of `SIGKILL` if there was none. -/
theorem wait_reports_first_end {l : List Act} (h : Run Step init l s) (t : ℕ)
    (order : List ℕ) (ev : WaitEvent) (he : ev.exited = true) (rep : Report)
    (hrep : firstReport (endsOf (endings l) (s.tgid ev.child)) = some rep) :
    (∀ r1 r3, (s.doWait4 t r1 r3 order).1 = .event ev → decodeStatus ev.status = rep) ∧
    ∀ r1 r2 r4, (s.doWaitid t r1 r2 r4 order).1 = .event ev →
      decodeSiginfo ev.siginfo = rep := by
  constructor
  · intro r1 r3 hev
    exact (reads_event h (doWait4_spec t r1 r3 order) hev he hrep).1
  · intro r1 r2 r4 hev
    exact (reads_event h (doWaitid_spec t r1 r2 r4 order) hev he hrep).2

/-- The actions from `init`, one after the other. -/
def Procs.exec (l : List Act) : Option Procs := l.foldlM step init

def Procs.after (l : List Act) : Procs := (exec l).getD init

theorem run_after {l : List Act} (h : (exec l).isSome) :
    Run Step init l (after l) := by
  obtain ⟨s, hs⟩ := Option.isSome_iff_exists.mp h
  have hafter : after l = s := by rw [after, hs, Option.getD_some]
  rw [hafter]
  exact Run.of_foldlM hs

/-- Pid 2 has a second thread, which ends the group with code 7. -/
def groupExitRun : List Act :=
  [.clone 1 false, .clone 2 true, .exitGroup 3 7, .killOthers 3, .die 2, .finiSub 3, .finiSub 2,
    .finiLast 2]

theorem wait_reports_first_end_groupExitRun : ∃ s, Run Step init groupExitRun s ∧
    (s.doWait4 1 (-1) 0 [1, 2]).1 = .event ⟨2, true, 0, 7⟩ ∧
    decodeStatus (WaitEvent.status ⟨2, true, 0, 7⟩) = .exited 7 := by
  have hrun : Run Step init groupExitRun (after groupExitRun) :=
    run_after (by decide)
  have hev : ((after groupExitRun).doWait4 1 (-1) 0 [1, 2]).1 =
      .event ⟨2, true, 0, 7⟩ := by decide
  refine ⟨_, hrun, hev, ?_⟩
  exact (wait_reports_first_end hrun 1 [1, 2] ⟨2, true, 0, 7⟩ rfl (.exited 7) (by decide)).1
    (-1) 0 hev

/-- The rule that `exit_group` and fatal signals come before the exits of single threads,
that of these the last one counts, and that codes are taken modulo 256. -/
def lastExitReport (es : List End) : Option Report :=
  match es.find? (fun e => match e with | .exit _ => false | _ => true) with
  | some (.exitGroup c) => some (.exited (c.toNat % 256))
  | some (.signal sig) => some (.signaled sig)
  | _ =>
    match es.getLast? with
    | some (.exit c) => some (.exited (c.toNat % 256))
    | _ => none

/-- Both threads of pid 2 leave by `exit`, with 1 and then with 2. -/
def twoExitsRun : List Act :=
  [.clone 1 false, .clone 2 true, .exit 3 1, .finiSub 3, .exit 2 2, .finiSub 2, .finiLast 2]

/-- A thread of pid 2 leaves by `exit` with 1 before the other calls `exit_group` with 2. -/
def exitFirstRun : List Act :=
  [.clone 1 false, .clone 2 true, .exit 3 1, .finiSub 3, .exitGroup 2 2, .killOthers 2, .finiSub 2,
    .finiLast 2]

/-- Pid 2 ends with code 200. -/
def largeCodeRun : List Act :=
  [.clone 1 false, .exitGroup 2 200, .killOthers 2, .finiSub 2, .finiLast 2]

/-- The parent is told of the first exit and not of the last or of `exit_group`, and of signal 72
where the exit code was 200. -/
theorem lastExitReport_fails :
    (∀ l ∈ [twoExitsRun, exitFirstRun], ∃ s ev, Run Step init l s ∧
      (s.doWait4 1 (-1) 0 [1, 2]).1 = .event ev ∧ ev.exited = true ∧
      lastExitReport (endsOf (endings l) (s.tgid ev.child)) = some (.exited 2) ∧
      decodeStatus ev.status = .exited 1) ∧
    ∃ s ev, Run Step init largeCodeRun s ∧
      (s.doWait4 1 (-1) 0 [1, 2]).1 = .event ev ∧ ev.exited = true ∧
      lastExitReport (endsOf (endings largeCodeRun) (s.tgid ev.child)) =
        some (.exited 200) ∧
      decodeStatus ev.status = .signaled 72 := by
  constructor
  · intro l hl
    simp only [List.mem_cons, List.not_mem_nil, or_false] at hl
    rcases hl with rfl | rfl
    · exact ⟨after twoExitsRun, ⟨2, true, 0, 1⟩, run_after (by decide), by decide, rfl,
        by decide, by decide⟩
    · exact ⟨after exitFirstRun, ⟨2, true, 0, 1⟩, run_after (by decide), by decide, rfl,
        by decide, by decide⟩
  · exact ⟨after largeCodeRun, ⟨2, true, 0, 200⟩, run_after (by decide), by decide, rfl,
      by decide, by decide⟩

end Bpfvm.Process
