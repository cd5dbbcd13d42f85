import Bpfvm.Lib.Runs
import Mathlib.Data.Finset.Insert
import Mathlib.Data.UInt

/-!
# Breakpoints under the debug server

`GdbServer` runs beside the vms it debugs. A vm asks the `breakpoint` hook before every
instruction and parks while `VM_DEBUG_STOP` is set; the server clears the flag to let it go. To
get past a breakpoint the server first lets the vm take one hidden step. The threads are
interleaved here at every access to the flags and to the task table.

An attached vm runs no compiled code, so `step()` is all there is. `wakeup` is left out: a
condition wait may return on its own, so a parked vm can look at the flags at any time.
-/
namespace Bpfvm.Debug
open Function List

/-- Where the thread of a vm is in `step()`. -/
inductive Phase where
  /-- at the safepoint -/
  | fetch
  /-- the `breakpoint` hook reads `VM_DEBUG_STOP` -/
  | hook
  /-- the hook looks into the task table -/
  | lookup
  /-- `step()` reads `VM_DEBUG_STOP` -/
  | check
  /-- in `debug_park` -/
  | parked
  | exec
  /-- `VM_EXITED` -/
  | ended
  deriving DecidableEq, Repr

/-- A vm with its `TaskEntry`. `resumed` says that the vm was parked at its present instruction
when the debugger last resumed it. -/
structure Vm where
  pc : UInt64
  /-- `VM_DEBUG_STOP` -/
  stop : Bool
  /-- `VM_STOPPED` -/
  held : Bool
  /-- `VM_KILLED` -/
  killed : Bool
  phase : Phase
  stepping : Bool
  breakpoints : Finset UInt64
  resumed : Bool

/-- What an instruction does to the thread that executes it. -/
inductive Outcome where
  | next (pc : UInt64)
  /-- a syscall that is caught, or a fork that is reported -/
  | caught (pc : UInt64)
  /-- an exec that is reported; the breakpoints of the old image go -/
  | replaced (pc : UInt64)
  | exit
  deriving DecidableEq, Repr

namespace Vm

def exited (m : Vm) : Bool := m.killed || m.phase == .ended

def run (m : Vm) : Outcome → Vm
  | .next pc => { m with pc := pc, phase := .fetch, resumed := false }
  | .caught pc => { m with pc := pc, phase := .fetch, resumed := false, stop := true }
  | .replaced pc =>
    { m with pc := pc, phase := .fetch, resumed := false, stop := true, breakpoints := ∅ }
  | .exit => { m with phase := .ended }

/-- The next step of the vm's thread; `known` says whether the vm is in the task table. -/
def go (m : Vm) (known : Bool) (o : Outcome) : Option Vm :=
  match m.phase with
  | .fetch =>
    if m.killed then some { m with phase := .ended }
    else if m.held then none
    else some { m with phase := .hook }
  | .hook => some { m with phase := if m.stop then .check else .lookup }
  | .lookup =>
    if known && m.stepping then some { m with stepping := false, stop := true, phase := .check }
    else if known && decide (m.pc ∈ m.breakpoints) then
      some { m with stop := true, phase := .check }
    else some { m with phase := .check }
  | .check => some { m with phase := if m.stop then .parked else .exec }
  | .parked => if m.stop && !m.killed then none else some { m with phase := .exec }
  | .exec => some (m.run o)
  | .ended => none

/-- Ready for `wait_any_stopped` to return. -/
def settled (m : Vm) : Bool := m.stop || m.held || m.exited || m.stepping

/-- The debugger resumes the vm. -/
def mark (m : Vm) : Vm := { m with resumed := m.phase == .parked }

/-- `clear_flags(VM_DEBUG_STOP)` -/
def clearStop (m : Vm) : Vm := { m with stop := false }

def setStop (m : Vm) : Vm := { m with stop := true }

def setStepping (m : Vm) (b : Bool) : Vm := { m with stepping := b }

/-- What `stop_all_vms` does to one vm. -/
def stopOne (m : Vm) : Vm := if m.stop || m.held || m.exited then m else m.setStop

end Vm

/-- The actions of `vCont`. -/
inductive Action where
  | cont
  | step
  | stay
  deriving DecidableEq, Repr

/-- Which vms a `vCont` packet resumes. -/
def resumes (acts : ℕ → Option Action) (v : ℕ) : Bool :=
  acts v == some .cont || acts v == some .step

/-- What follows a hidden or asked-for step. -/
inductive After where
  /-- `resume_continue` -/
  | cont
  /-- `resume` with `single_step` -/
  | step
  /-- the second phase of `handle_vcont` -/
  | stepOver (rest : List ℕ) (acts : ℕ → Option Action) (pref : Option ℕ)

/-- Where the server thread is. -/
inductive Server where
  | idle
  /-- `has_breakpoint` in `resume_continue` -/
  | test (v : ℕ)
  | clear (v : ℕ) (k : After)
  /-- `mark_stepping` -/
  | mark (v : ℕ) (k : After)
  /-- `wait_stopped` -/
  | await (v : ℕ) (k : After)
  | release (v : ℕ)
  | continueAll (rest : List ℕ) (pref : ℕ)
  /-- `handle_vcont` collects the vms that stand at a breakpoint -/
  | pick (rest need : List ℕ) (acts : ℕ → Option Action) (pref : Option ℕ)
  | stepOver (need : List ℕ) (acts : ℕ → Option Action) (pref : Option ℕ)
  | letGo (rest : List ℕ) (acts : ℕ → Option Action) (watch : List ℕ) (pref : Option ℕ)
  | markStep (v : ℕ) (rest : List ℕ) (acts : ℕ → Option Action) (watch : List ℕ)
      (pref : Option ℕ)
  | waitAny (watch : List ℕ) (pref : Option ℕ) (propagated : Bool)
  | stopAll (rest watch : List ℕ) (pref : Option ℕ)

/-- The packet that the server carries out has still to clear the stop flag of `u`. -/
def Server.pending (tasks : List ℕ) (u : ℕ) : Server → Prop
  | .test v | .release v | .clear v .cont | .mark v .cont | .await v .cont => u = v ∨ u ∈ tasks
  | .clear v .step => u = v
  | .clear v (.stepOver rest acts _) => u = v ∨ u ∈ rest ∨ resumes acts u = true
  | .mark _ (.stepOver rest acts _) | .await _ (.stepOver rest acts _) =>
    u ∈ rest ∨ resumes acts u = true
  | .continueAll rest _ => u ∈ rest
  | .pick _ need acts _ | .stepOver need acts _ => u ∈ need ∨ resumes acts u = true
  | .letGo rest _ _ _ | .markStep _ rest _ _ _ => u ∈ rest
  | _ => False

instance (tasks : List ℕ) (u : ℕ) (p : Server) : Decidable (p.pending tasks u) := by
  unfold Server.pending
  split <;> infer_instance

structure Session where
  vms : ℕ → Vm
  tasks : List ℕ
  server : Server

/-- The packets that start something. -/
inductive Packet where
  /-- `c` -/
  | cont (v : ℕ)
  /-- `s` -/
  | step (v : ℕ)
  /-- `vCont`, with the action it settles on for each vm -/
  | vCont (acts : ℕ → Option Action) (pref : Option ℕ)
  /-- `Z0` -/
  | insert (v : ℕ) (addr : UInt64)
  /-- `z0` -/
  | remove (v : ℕ) (addr : UInt64)

inductive Act where
  /-- the next step of the thread of a vm -/
  | vm (v : ℕ) (o : Outcome)
  /-- the next step of the server -/
  | serve
  | packet (p : Packet)
  /-- an asynchronous Ctrl-C -/
  | interrupt
  /-- `VM_KILLED`, from the debugger or from the guest -/
  | kill (v : ℕ)
  /-- `VM_STOPPED`, by a guest signal -/
  | hold (v : ℕ) (b : Bool)

namespace Session

def setVm (s : Session) (v : ℕ) (m : Vm) : Session :=
  { s with vms := update s.vms v m }

def goto (s : Session) (p : Server) : Session := { s with server := p }

/-- The vm that `wait_any_stopped` reports. -/
def hitVm (s : Session) (watch : List ℕ) (pref : Option ℕ) : Option ℕ :=
  let seen := s.tasks.filter (· ∈ watch)
  (seen.find? fun v => pref == some v && ((s.vms v).stop || (s.vms v).exited)).or
    ((seen.find? fun v => (s.vms v).stop).or (seen.find? fun v => (s.vms v).exited))

/-- `send_exit_reply` takes the vm out of the table. -/
def report (s : Session) (v : ℕ) : Session :=
  if (s.vms v).exited then { s with tasks := s.tasks.filter (· ≠ v) } else s

def after (s : Session) (v : ℕ) : After → Session
  | .cont =>
    s.goto (if (s.vms v).exited then .continueAll s.tasks v else .release v)
  | .step => s.goto (.waitAny s.tasks (some v) false)
  | .stepOver rest acts pref =>
    s.goto (.stepOver rest (if (s.vms v).exited then update acts v none else acts) pref)

/-- The next step of the server thread. -/
def serve (s : Session) : Option Session :=
  match s.server with
  | .idle => none
  | .test v =>
    some (s.goto (if (s.vms v).pc ∈ (s.vms v).breakpoints then .clear v .cont else .release v))
  | .clear v k => some ((s.setVm v (s.vms v).clearStop).goto (.mark v k))
  | .mark v k => some ((s.setVm v ((s.vms v).setStepping true)).goto (.await v k))
  | .await v k => if (s.vms v).stop || (s.vms v).exited then some (s.after v k) else none
  | .release v => some ((s.setVm v (s.vms v).clearStop).goto (.continueAll s.tasks v))
  | .continueAll (v :: rest) pref =>
    some ((s.setVm v ((s.vms v).setStepping false).clearStop).goto (.continueAll rest pref))
  | .continueAll [] pref => some (s.goto (.waitAny s.tasks (some pref) false))
  | .pick (v :: rest) need acts pref =>
    let stands := !(s.vms v).exited && acts v == some .cont
      && decide ((s.vms v).pc ∈ (s.vms v).breakpoints)
    some (s.goto (.pick rest (if stands then need ++ [v] else need) acts pref))
  | .pick [] need acts pref => some (s.goto (.stepOver need acts pref))
  | .stepOver (v :: need) acts pref => some (s.goto (.clear v (.stepOver need acts pref)))
  | .stepOver [] acts pref =>
    let released := s.tasks.filter fun v => !(s.vms v).exited && resumes acts v
    some (s.goto (.letGo released acts released pref))
  | .letGo (v :: rest) acts watch pref =>
    some ((s.setVm v (s.vms v).clearStop).goto
      (if acts v = some .step then .markStep v rest acts watch pref
        else .letGo rest acts watch pref))
  | .letGo [] _ watch pref => some (s.goto (.waitAny watch pref false))
  | .markStep v rest acts watch pref =>
    some ((s.setVm v ((s.vms v).setStepping true)).goto (.letGo rest acts watch pref))
  | .waitAny watch pref propagated =>
    match s.hitVm watch pref with
    | none => none
    | some v =>
      if !propagated then some (s.goto (.stopAll s.tasks watch pref))
      else if s.tasks.all fun u => (s.vms u).settled then some ((s.report v).goto .idle)
      else none
  | .stopAll (v :: rest) watch pref =>
    some ((s.setVm v (s.vms v).stopOne).goto (.stopAll rest watch pref))
  | .stopAll [] watch pref => some (s.goto (.waitAny watch pref true))

/-- The debugger resumes the vms with `c`. -/
def markAll (s : Session) (c : ℕ → Bool) : Session :=
  { s with vms := fun v => if c v then (s.vms v).mark else s.vms v }

/-- A packet reaches the idle server. -/
def receive (s : Session) : Packet → Session
  | .cont v =>
    if (s.vms v).exited then s.report v
    else (s.markAll fun u => decide (u ∈ s.tasks)).goto (.test v)
  | .step v =>
    if (s.vms v).exited then s.report v
    else (s.setVm v (s.vms v).mark).goto (.clear v .step)
  | .vCont acts pref =>
    (s.markAll (resumes acts)).goto (.pick s.tasks [] acts pref)
  | .insert v addr =>
    s.setVm v { s.vms v with breakpoints := insert addr (s.vms v).breakpoints }
  | .remove v addr =>
    s.setVm v { s.vms v with breakpoints := (s.vms v).breakpoints.erase addr }

def step (s : Session) : Act → Option Session
  | .vm v o => ((s.vms v).go (decide (v ∈ s.tasks)) o).map (s.setVm v)
  | .serve => s.serve
  | .packet p =>
    match s.server with
    | .idle => some (s.receive p)
    | _ => none
  | .interrupt =>
    match s.server with
    | .await v _ => some (s.setVm v (s.vms v).setStop)
    | .waitAny watch pref _ => some (s.goto (.stopAll s.tasks watch pref))
    | _ => none
  | .kill v => some (s.setVm v { s.vms v with killed := true })
  | .hold v b => some (s.setVm v { s.vms v with held := b })

/-- The debugger has attached to the vms of `tasks` and asked each to stop. -/
def start (tasks : List ℕ) (pc : ℕ → UInt64) : Session where
  vms := fun v => ⟨pc v, true, false, false, .fetch, false, ∅, false⟩
  tasks := tasks
  server := .idle

/-- The vm executes an instruction with a breakpoint only if it was parked there when it was
resumed. -/
def Obeys (s : Session) (v : ℕ) : Prop :=
  (s.vms v).phase = .exec → (s.vms v).pc ∈ (s.vms v).breakpoints → (s.vms v).resumed = true

def pending (s : Session) (u : ℕ) : Prop := s.server.pending s.tasks u

instance (s : Session) (u : ℕ) : Decidable (s.pending u) :=
  inferInstanceAs (Decidable (s.server.pending s.tasks u))

/-- What has to be kept from the vm: no packet comes before it is parked or gone, it reaches no
breakpoint while a packet has still to clear its stop flag, and it is not killed. -/
def Calm (s : Session) (v : ℕ) : Act → Prop
  | .vm u _ => u = v → (s.vms v).phase = .hook ∨ (s.vms v).phase = .lookup →
      (s.vms v).pc ∈ (s.vms v).breakpoints → ¬ s.pending v
  | .packet _ => (s.vms v).phase = .parked ∧ (s.vms v).stop = true ∨ (s.vms v).phase = .ended
  | .kill u => u ≠ v
  | _ => True

instance (s : Session) (v : ℕ) (a : Act) : Decidable (s.Calm v a) := by
  unfold Session.Calm
  split <;> infer_instance

end Session

/-- A step of the session that is calm for `v`. -/
def CalmStep (v : ℕ) (s : Session) (a : Act) (s' : Session) : Prop :=
  s.step a = some s' ∧ s.Calm v a

/-! ## The stop flag of a hit -/

/-- A vm that has come upon a breakpoint has its stop flag set, and no packet is about to clear
it, unless the debugger has seen the vm parked there. -/
structure Guarded (s : Session) (v : ℕ) : Prop where
  known : v ∈ s.tasks ∨ (s.vms v).phase = .ended
  live : (s.vms v).killed = false
  stops : (s.vms v).phase = .check ∨ (s.vms v).phase = .parked →
    (s.vms v).pc ∈ (s.vms v).breakpoints →
    (s.vms v).resumed = true ∨ (s.vms v).stop = true ∧ ¬ s.pending v
  obeys : s.Obeys v

/-- The vms differ at most in flags that others set. -/
structure Vm.Alike (m m' : Vm) : Prop where
  pc : m'.pc = m.pc
  phase : m'.phase = m.phase
  killed : m'.killed = m.killed
  breakpoints : m'.breakpoints = m.breakpoints
  resumed : m'.resumed = m.resumed

theorem Vm.Alike.refl (m : Vm) : Vm.Alike m m := ⟨rfl, rfl, rfl, rfl, rfl⟩

variable {s s' : Session} {v : ℕ} {a : Act}

theorem Guarded.exited_iff (h : Guarded s v) :
    (s.vms v).exited = true ↔ (s.vms v).phase = .ended := by
  simp [Vm.exited, h.live]

/-- A step of another thread that clears the stop flag only where a packet says so. -/
theorem Guarded.alike (h : Guarded s v) (hm : Vm.Alike (s.vms v) (s'.vms v))
    (ht : v ∈ s.tasks → v ∈ s'.tasks ∨ (s.vms v).phase = .ended)
    (hs : (s.vms v).stop = true → ¬ s.pending v → (s'.vms v).stop = true)
    (hp : s'.pending v → s.pending v) : Guarded s' v := by
  obtain ⟨hpc, hph, hk, hb, hr⟩ := hm
  refine ⟨?_, hk.trans h.live, ?_, ?_⟩
  · rw [hph]
    exact h.known.elim ht .inr
  · rw [hph, hpc, hb, hr]
    intro hwait hmem
    rcases h.stops hwait hmem with hres | ⟨hstop, hno⟩
    · exact .inl hres
    · exact .inr ⟨hs hstop hno, mt hp hno⟩
  · unfold Session.Obeys
    rw [hph, hpc, hb, hr]
    exact h.obeys

/-- The server or another vm has done something to the vms other than `v`. -/
theorem Guarded.aside (h : Guarded s v) (hm : s'.vms v = s.vms v) (ht : s'.tasks = s.tasks)
    (hp : s'.pending v → s.pending v) : Guarded s' v :=
  h.alike (hm ▸ .refl _) (fun hv => .inl (ht ▸ hv)) (fun hs _ => hm ▸ hs) hp

@[simp] theorem Session.setVm_vms_self (m : Vm) : (s.setVm v m).vms v = m :=
  update_self ..

variable {u : ℕ} {m : Vm}

theorem Session.setVm_vms_of_ne (m : Vm) (hu : v ≠ u) : (s.setVm u m).vms v = s.vms v :=
  update_of_ne hu ..

theorem Guarded.setVm (hk : v ∈ s.tasks ∨ m.phase = .ended) (hl : m.killed = false)
    (hs : m.phase = .check ∨ m.phase = .parked → m.pc ∈ m.breakpoints →
      m.resumed = true ∨ m.stop = true ∧ ¬ s.pending v)
    (ho : m.phase = .exec → m.pc ∈ m.breakpoints → m.resumed = true) : Guarded (s.setVm v m) v := by
  refine ⟨?_, ?_, ?_, ?_⟩
  · rw [Session.setVm_vms_self]
    exact hk
  · rw [Session.setVm_vms_self]
    exact hl
  · rw [Session.setVm_vms_self]
    exact hs
  · unfold Session.Obeys
    rw [Session.setVm_vms_self]
    exact ho

/-- The thread of the vm itself, phase by phase. -/
theorem Guarded.vm {o : Outcome} (h : Guarded s v) (hc : s.Calm v (.vm v o))
    (hg : (s.vms v).go (decide (v ∈ s.tasks)) o = some m) : Guarded (s.setVm v m) v := by
  have hlive := h.live
  have htask (hne : (s.vms v).phase ≠ .ended) : v ∈ s.tasks := h.known.resolve_right hne
  have hno (hin : (s.vms v).phase = .hook ∨ (s.vms v).phase = .lookup)
      (hmem : (s.vms v).pc ∈ (s.vms v).breakpoints) : ¬ s.pending v := hc rfl hin hmem
  cases hph : (s.vms v).phase with
  | fetch =>
    simp only [Vm.go, hph] at hg
    split_ifs at hg with hk hheld
    · simp [hlive] at hk
    · cases hg
      exact .setVm (.inl (htask (by simp [hph]))) hlive (by simp) (by simp)
  | hook =>
    simp only [Vm.go, hph] at hg
    cases hg
    refine .setVm (.inl (htask (by simp [hph]))) hlive (fun hin hmem => ?_) ?_
    · cases hstop : (s.vms v).stop with
      | false => simp [hstop] at hin
      | true => exact .inr ⟨rfl, hno (.inl hph) hmem⟩
    · cases (s.vms v).stop <;> simp
  | lookup =>
    have hv := htask (by simp [hph])
    simp only [Vm.go, hph, hv, decide_true, Bool.true_and] at hg
    split_ifs at hg with hstep hbp
    · cases hg
      exact .setVm (.inl hv) hlive (fun _ hmem => .inr ⟨rfl, hno (.inr hph) hmem⟩) (by simp)
    · cases hg
      exact .setVm (.inl hv) hlive (fun _ hmem => .inr ⟨rfl, hno (.inr hph) hmem⟩) (by simp)
    · cases hg
      exact .setVm (.inl hv) hlive (fun _ hmem => absurd (decide_eq_true hmem) hbp) (by simp)
  | check =>
    have hv := htask (by simp [hph])
    have hst := h.stops (.inl hph)
    simp only [Vm.go, hph] at hg
    cases hg
    refine .setVm (.inl hv) hlive (fun _ => hst) (fun hex hmem => ?_)
    cases hstop : (s.vms v).stop with
    | true => simp [hstop] at hex
    | false => simpa [hstop] using hst hmem
  | parked =>
    have hv := htask (by simp [hph])
    have hst := h.stops (.inr hph)
    simp only [Vm.go, hph] at hg
    split_ifs at hg with hstop
    simp only [hlive, Bool.not_false, Bool.and_true] at hstop
    cases hg
    exact .setVm (.inl hv) hlive (by simp) (fun _ hmem => by simpa [hstop] using hst hmem)
  | exec =>
    have hv := htask (by simp [hph])
    simp only [Vm.go, hph] at hg
    cases hg
    cases o <;> exact .setVm (.inl hv) hlive (by simp [Vm.run]) (by simp [Vm.run])
  | ended => simp [Vm.go, hph] at hg

theorem Guarded.goto {p : Server} (h : Guarded s v) (hp : p.pending s.tasks v → s.pending v) :
    Guarded (s.goto p) v := h.aside rfl rfl hp

/-- The server does something to one vm and goes on. -/
theorem Guarded.touch {p : Server} (h : Guarded s v) (hm : Vm.Alike (s.vms u) m)
    (hs : u = v → (s.vms u).stop = true → ¬ s.pending v → m.stop = true)
    (hp : p.pending s.tasks v → s.pending v) : Guarded ((s.setVm u m).goto p) v := by
  by_cases hu : v = u
  · subst hu
    have hself : ((s.setVm v m).goto p).vms v = m := update_self ..
    refine h.alike ?_ .inl ?_ hp
    · rw [hself]
      exact hm
    · rw [hself]
      exact hs rfl
  · exact h.aside (Session.setVm_vms_of_ne m hu) rfl hp

theorem Vm.alike_clearStop (m : Vm) : m.Alike m.clearStop := ⟨rfl, rfl, rfl, rfl, rfl⟩

theorem Vm.alike_setStepping (m : Vm) (b : Bool) : m.Alike (m.setStepping b) :=
  ⟨rfl, rfl, rfl, rfl, rfl⟩

theorem Vm.alike_setStop (m : Vm) : m.Alike m.setStop := ⟨rfl, rfl, rfl, rfl, rfl⟩

theorem Vm.alike_stopOne (m : Vm) : m.Alike m.stopOne := by
  unfold Vm.stopOne
  split_ifs
  · exact .refl m
  · exact m.alike_setStop

theorem Vm.stopOne_stop (h : m.stop = true) : m.stopOne.stop = true := by
  simp [Vm.stopOne, h]

theorem Guarded.after {k : After} (h : Guarded s v) (hsrv : s.server = .await u k) :
    Guarded (s.after u k) v := by
  cases k with
  | cont =>
    refine h.goto fun hp => ?_
    rw [Session.pending, hsrv]
    split_ifs at hp
    · exact .inr hp
    · exact hp
  | step => exact h.goto False.elim
  | stepOver rest acts pref =>
    refine h.goto fun hp => ?_
    rw [Session.pending, hsrv]
    refine hp.imp_right fun hr => ?_
    split_ifs at hr
    · by_cases hu : v = u
      · simp [resumes, hu] at hr
      · simpa [resumes, hu] using hr
    · exact hr

theorem Guarded.report (h : Guarded s v) : Guarded ((s.report u).goto .idle) v := by
  unfold Session.report
  split_ifs with hex
  · refine h.alike (.refl _) (fun hv => ?_) (fun hstop _ => hstop) False.elim
    by_cases hu : v = u
    · subst hu
      exact .inr (h.exited_iff.mp hex)
    · exact .inl (mem_filter.mpr ⟨hv, by simpa using hu⟩)
  · exact h.goto False.elim

/-- The server, stage by stage: it clears only flags that are pending. -/
theorem Guarded.serve (h : Guarded s v) (hs : s.serve = some s') : Guarded s' v := by
  have hpend : s.pending v = s.server.pending s.tasks v := rfl
  unfold Session.serve at hs
  cases hsrv : s.server with rw [hsrv] at hpend hs
  | idle => cases hs
  | test u =>
    cases hs
    refine h.goto fun hp => ?_
    rw [hpend]
    split_ifs at hp <;> exact hp
  | clear u k =>
    cases hs
    cases k with
    | cont =>
      exact h.touch (Vm.alike_clearStop _) (fun hu _ hno => absurd (hpend ▸ .inl hu.symm) hno)
        (fun hp => hpend ▸ hp)
    | step =>
      exact h.touch (Vm.alike_clearStop _) (fun hu _ hno => absurd (hpend ▸ hu.symm) hno)
        False.elim
    | stepOver rest acts pref =>
      exact h.touch (Vm.alike_clearStop _) (fun hu _ hno => absurd (hpend ▸ .inl hu.symm) hno)
        (fun hp => hpend ▸ .inr hp)
  | mark u k =>
    cases hs
    refine h.touch (Vm.alike_setStepping _ _) (fun _ hstop _ => hstop) fun hp => ?_
    rw [hpend]
    cases k <;> exact hp
  | await u k =>
    dsimp only at hs
    split_ifs at hs
    cases hs
    exact h.after hsrv
  | release u =>
    cases hs
    exact h.touch (Vm.alike_clearStop _) (fun hu _ hno => absurd (hpend ▸ .inl hu.symm) hno)
      (fun hp => hpend ▸ .inr hp)
  | continueAll rest pref =>
    cases rest with
    | nil =>
      cases hs
      exact h.goto False.elim
    | cons u rest =>
      cases hs
      refine h.touch ?_ (fun hu _ hno => ?_) (fun hp => hpend ▸ mem_cons_of_mem u hp)
      · exact ⟨rfl, rfl, rfl, rfl, rfl⟩
      · exact absurd (hpend ▸ hu ▸ mem_cons_self) hno
  | pick rest need acts pref =>
    cases rest with
    | nil =>
      cases hs
      exact h.goto fun hp => hpend ▸ hp
    | cons u rest =>
      cases hs
      refine h.goto fun hp => ?_
      rw [hpend]
      rcases hp with hp | hp
      · split_ifs at hp with hst
        · rcases mem_append.mp hp with hp | hp
          · exact .inl hp
          · have hu : v = u := mem_singleton.mp hp
            simp only [Bool.and_eq_true] at hst
            exact .inr (by simp [resumes, hu, hst.1.2])
        · exact .inl hp
      · exact .inr hp
  | stepOver need acts pref =>
    cases need with
    | nil =>
      cases hs
      refine h.goto fun hp => hpend ▸ .inr ?_
      have hv := (mem_filter.mp hp).2
      simp only [Bool.and_eq_true] at hv
      exact hv.2
    | cons u need =>
      cases hs
      refine h.goto fun hp => ?_
      rw [hpend]
      exact (or_assoc.mpr hp).imp_left mem_cons.mpr
  | letGo rest acts watch pref =>
    cases rest with
    | nil =>
      cases hs
      exact h.goto False.elim
    | cons u rest =>
      cases hs
      refine h.touch (Vm.alike_clearStop _) (fun hu _ hno => ?_) (fun hp => ?_)
      · exact absurd (hpend ▸ hu ▸ mem_cons_self) hno
      · rw [hpend]
        split_ifs at hp <;> exact mem_cons_of_mem u hp
  | markStep u rest acts watch pref =>
    cases hs
    exact h.touch (Vm.alike_setStepping _ _) (fun _ hstop _ => hstop) (fun hp => hpend ▸ hp)
  | waitAny watch pref propagated =>
    dsimp only at hs
    split at hs
    · cases hs
    · split_ifs at hs
      · cases hs
        exact h.goto False.elim
      · cases hs
        exact h.report
  | stopAll rest watch pref =>
    cases rest with
    | nil =>
      cases hs
      exact h.goto False.elim
    | cons u rest =>
      cases hs
      exact h.touch (Vm.alike_stopOne _) (fun _ hstop _ => Vm.stopOne_stop hstop) False.elim

/-- A packet finds the vm parked: either it resumes the vm there, or it leaves the flag alone. -/
theorem Guarded.accept (h : Guarded s v) (hm : s'.vms v = m)
    (hc : (s.vms v).phase = .parked ∧ (s.vms v).stop = true ∨ (s.vms v).phase = .ended)
    (ht : s'.tasks = s.tasks) (hph : m.phase = (s.vms v).phase) (hk : m.killed = (s.vms v).killed)
    (hs : m.stop = (s.vms v).stop)
    (hp : s'.pending v → (s.vms v).phase = .parked → m.resumed = true) : Guarded s' v := by
  subst hm
  refine ⟨?_, hk.trans h.live, fun hwait _ => ?_, fun hex => ?_⟩
  · rw [ht, hph]
    exact h.known
  · rw [hph] at hwait
    rw [hs]
    rcases hc with ⟨hpark, hstop⟩ | hend
    · by_cases hpend : s'.pending v
      · exact .inl (hp hpend hpark)
      · exact .inr ⟨hstop, hpend⟩
    · simp [hend] at hwait
  · rw [hph] at hex
    rcases hc with ⟨hpark, -⟩ | hend
    · simp [hpark] at hex
    · simp [hend] at hex

theorem Vm.mark_resumed (h : m.phase = .parked) : m.mark.resumed = true := by
  simp [Vm.mark, h]

/-- A packet that resumes the vms with `c`. -/
theorem Guarded.acceptAll {c : ℕ → Bool} {q : Server} (h : Guarded s v)
    (hc : (s.vms v).phase = .parked ∧ (s.vms v).stop = true ∨ (s.vms v).phase = .ended)
    (hp : q.pending s.tasks v → (s.vms v).phase = .parked → c v = true) :
    Guarded ((s.markAll c).goto q) v := by
  cases hv : c v with
  | true =>
    exact h.accept (if_pos hv) hc rfl rfl rfl rfl (fun _ hpark => Vm.mark_resumed hpark)
  | false =>
    refine h.accept (if_neg (by simp [hv])) hc rfl rfl rfl rfl (fun hpend hpark => ?_)
    simp [hp hpend hpark] at hv

/-- A packet that changes the breakpoints of one vm. -/
theorem Guarded.acceptBreakpoints {b : Finset UInt64} (h : Guarded s v)
    (hc : (s.vms v).phase = .parked ∧ (s.vms v).stop = true ∨ (s.vms v).phase = .ended)
    (hsrv : s.server = .idle) : Guarded (s.setVm u { s.vms u with breakpoints := b }) v := by
  have hp : ¬ s.pending v := by simp [Session.pending, hsrv, Server.pending]
  by_cases hu : v = u
  · subst hu
    exact h.accept (Session.setVm_vms_self _) hc rfl rfl rfl rfl (fun hpend => absurd hpend hp)
  · exact h.aside (Session.setVm_vms_of_ne _ hu) rfl id

theorem Session.report_goto_idle (hsrv : s.server = .idle) :
    (s.report u).goto .idle = s.report u := by
  unfold Session.report
  split_ifs
  · exact congrArg (Session.mk _ _) hsrv.symm
  · exact congrArg (Session.mk _ _) hsrv.symm

theorem Guarded.receive (p : Packet) (h : Guarded s v) (hsrv : s.server = .idle)
    (hc : s.Calm v (.packet p)) : Guarded (s.receive p) v := by
  cases p with
  | cont u =>
    rw [Session.receive]
    split_ifs with hex
    · exact Session.report_goto_idle hsrv ▸ h.report
    · refine h.acceptAll hc fun _ hpark => ?_
      exact decide_eq_true (h.known.resolve_right (by simp [hpark]))
  | step u =>
    rw [Session.receive]
    split_ifs with hex
    · exact Session.report_goto_idle hsrv ▸ h.report
    · by_cases hu : v = u
      · subst hu
        exact h.accept (Session.setVm_vms_self _) hc rfl rfl rfl rfl
          (fun _ hpark => Vm.mark_resumed hpark)
      · exact h.accept (Session.setVm_vms_of_ne _ hu) hc rfl rfl rfl rfl
          (fun hpend => absurd hpend hu)
  | vCont acts pref =>
    refine h.acceptAll hc fun hp _ => ?_
    exact hp.resolve_left not_mem_nil
  | insert u addr | remove u addr => exact h.acceptBreakpoints hc hsrv

theorem Guarded.step (h : Guarded s v) (hs : CalmStep v s a s') : Guarded s' v := by
  obtain ⟨hs, hc⟩ := hs
  cases a with
  | vm u o =>
    obtain ⟨m, hg, rfl⟩ := Option.map_eq_some_iff.mp hs
    by_cases hu : v = u
    · subst hu
      exact h.vm hc hg
    · exact h.aside (Session.setVm_vms_of_ne m hu) rfl id
  | serve => exact h.serve hs
  | packet p =>
    simp only [Session.step] at hs
    split at hs
    next hsrv =>
      cases hs
      exact h.receive p hsrv hc
    next => cases hs
  | interrupt =>
    simp only [Session.step] at hs
    split at hs
    next u k hsrv =>
      cases hs
      exact h.touch (p := s.server) (Vm.alike_setStop _) (fun _ _ _ => rfl) id
    next watch pref b hsrv =>
      cases hs
      exact h.goto False.elim
    next => cases hs
  | kill u =>
    cases hs
    exact h.aside (Session.setVm_vms_of_ne _ (Ne.symm hc)) rfl id
  | hold u b =>
    cases hs
    exact h.touch (p := s.server) ⟨rfl, rfl, rfl, rfl, rfl⟩ (fun _ hstop _ => hstop) id

theorem guarded_start {tasks : List ℕ} (pc : ℕ → UInt64) (hv : v ∈ tasks) :
    Guarded (Session.start tasks pc) v :=
  ⟨.inl hv, rfl, by simp [Session.start], by simp [Session.Obeys, Session.start]⟩

/-- After any run that is calm for a debugged vm, the vm executes an instruction with a
breakpoint only if it was parked at it when it was resumed. -/
theorem breakpoints_hit_of_calm {tasks : List ℕ} {pc : ℕ → UInt64} {l : List Act}
    (hv : v ∈ tasks) (h : Run (CalmStep v) (Session.start tasks pc) l s) : s.Obeys v :=
  (h.invariant (P := (Guarded · v)) (guarded_start pc hv) fun _ _ _ hg hs => hg.step hs).obeys

/-- The thread of vm 1 takes `n` steps, and no instruction among them does more than go on at
address 8. -/
def steps (n : ℕ) : List Act := replicate n (.vm 1 (.next 8))

/-- The vm parks at address 0, is continued with a breakpoint at 8, parks there and is
continued again. -/
def hitRun : List Act :=
  steps 3 ++ [.packet (.insert 1 8), .packet (.cont 1)] ++ replicate 4 .serve ++ steps 6 ++
    replicate 4 .serve ++ [.packet (.cont 1), .serve, .serve] ++ steps 1

theorem breakpoints_hit_of_calm_hitRun : ∃ s, Run (CalmStep 1) (.start [1] fun _ => 0) hitRun s ∧
    (s.vms 1).phase = .exec ∧ (s.vms 1).pc ∈ (s.vms 1).breakpoints ∧
    (s.vms 1).resumed = true := by
  have hp : (hitRun.foldlM (fun (s : Session) a => if s.Calm 1 a then s.step a else none)
      (Session.start [1] fun _ => 0)).map (fun s => ((s.vms 1).phase,
        decide ((s.vms 1).pc ∈ (s.vms 1).breakpoints))) = some (Phase.exec, true) := by
    decide
  obtain ⟨s, hs, he⟩ := Option.map_eq_some_iff.mp hp
  simp only [Prod.mk.injEq, decide_eq_true_eq] at he
  have hrun : Run (CalmStep 1) _ hitRun s := Run.of_foldlM_if hs
  exact ⟨s, hrun, he.1, he.2, breakpoints_hit_of_calm (by decide) hrun he.1 he.2⟩

/-- Breakpoints at 0 and 8, and the vm is continued from 0: the hidden step stops it at 8, and
the server then clears its stop flag. -/
def overrun : List Act :=
  steps 3 ++ [.packet (.insert 1 0), .packet (.insert 1 8), .packet (.cont 1)] ++
    replicate 3 .serve ++ steps 6 ++ replicate 2 .serve ++ steps 1

/-- The step over one breakpoint swallows the next. -/
theorem breakpoint_skipped : ∃ s, Run (fun s a s' => Session.step s a = some s')
    (.start [1] fun _ => 0) overrun s ∧ (s.vms 1).killed = false ∧ ¬ s.Obeys 1 := by
  have hp : (overrun.foldlM Session.step (Session.start [1] fun _ => 0)).map (fun s =>
      ((s.vms 1).phase, decide ((s.vms 1).pc ∈ (s.vms 1).breakpoints), (s.vms 1).resumed,
        (s.vms 1).killed)) = some (Phase.exec, true, false, false) := by
    decide
  obtain ⟨s, hs, he⟩ := Option.map_eq_some_iff.mp hp
  simp only [Prod.mk.injEq, decide_eq_true_eq] at he
  refine ⟨s, Run.of_foldlM hs, he.2.2.2, fun ho => ?_⟩
  have := ho he.1 he.2.1
  rw [he.2.2.1] at this
  cases this

end Bpfvm.Debug
