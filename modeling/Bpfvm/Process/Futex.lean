import Bpfvm.Lib.LittleEndian
import Bpfvm.Lib.Runs
import Mathlib.Data.List.Nodup
import Mathlib.Data.List.TakeDrop
import Mathlib.Logic.Function.Basic
import Mathlib.Tactic.Common

/-!
# Futexes

`futex_wait` enters a vm in the bucket of its thread group and address and sleeps in
`wait_for` until its `VM_BLOCKED` is cleared, a flag interrupts it or its time is up; then it
takes itself out of the bucket. `futex_wake` takes vms out of the bucket under
`g_futex_mutex` and clears their `VM_BLOCKED` one by one after it has released it.

`tg` gives the thread group of a vm and `space` the address space of a group: the threads of
a group share one, and several groups may (`CLONE_VM`).
-/
namespace Bpfvm.Process.Futex
open Function List

/-- How `wait_for` returns. `SYSCALL_RESTART` is the `EINTR`. -/
inductive Rc where
  | ok
  | timedOut
  | interrupted
  deriving DecidableEq, Repr

/-- Where a vm is. -/
inductive Pc where
  | idle
  /-- in `wait_for`, with or without a deadline -/
  | waiting (addr : ℕ) (timeout : Bool)
  /-- out of `wait_for`, about to detach -/
  | leaving (addr : ℕ) (rc : Rc)
  /-- `futex_wake` has taken `woken` vms out, and has to wake `ws` -/
  | waking (addr : ℕ) (val : U32) (woken : ℕ) (ws : List ℕ)
  /-- the same for `futex_child_tid_clear`, which keeps the lock -/
  | clearing (addr : ℕ) (woken : ℕ) (ws : List ℕ)
  deriving DecidableEq, Repr

/-- What a step shows of the calls. -/
inductive Note where
  /-- a wait on an address of an address space has been entered -/
  | began (v : ℕ) (key : ℕ × ℕ)
  /-- a wake by `w` on the address selects `v` -/
  | chose (w v : ℕ) (key : ℕ × ℕ)
  | woke (w : ℕ) (val : U32) (k : ℕ)
  | ended (v : ℕ) (rc : Rc)
  deriving DecidableEq, Repr

structure State where
  table : ℕ × ℕ → List ℕ
  /-- the holder of `g_futex_mutex` over several steps -/
  lock : Option ℕ
  blocked : ℕ → Bool
  flagged : ℕ → Bool
  pc : ℕ → Pc

inductive Act where
  /-- `futex_wait`, the word being `val`, as far as `wait_for` -/
  | wait (v addr : ℕ) (timeout : Bool)
  /-- `futex_wake` as far as its lock -/
  | wake (w addr : ℕ) (val : U32)
  /-- `FUTEX_REQUEUE`, which wakes all -/
  | requeue (w addr : ℕ)
  /-- `futex_child_tid_clear` at the exit of `w` -/
  | tidClear (w addr : ℕ)
  /-- the next `wakeup` of a waker, or its return -/
  | go (w : ℕ)
  /-- `wait_for` returns -/
  | leave (v : ℕ) (rc : Rc)
  /-- the end of `futex_wait` -/
  | detach (v : ℕ)
  /-- a flag other than `VM_BLOCKED` -/
  | flag (v : ℕ) (b : Bool)
  /-- a `wakeup(true)` by `wake_waiters`, which had `v` in a list -/
  | stray (v : ℕ)
  deriving DecidableEq, Repr

/-- The vms taken from the back of a bucket, and those that stay. -/
def popBack (n : ℕ) (l : List ℕ) : List ℕ × List ℕ := (l.reverse.take n, (l.reverse.drop n).reverse)

namespace State

def goto (s : State) (v : ℕ) (pc : Pc) : State := { s with pc := update s.pc v pc }

def setBlocked (s : State) (v : ℕ) (b : Bool) : State :=
  { s with blocked := update s.blocked v b }

def setTable (s : State) (k : ℕ × ℕ) (l : List ℕ) : State :=
  { s with table := update s.table k l }

/-- No vm is in a futex call. -/
def init : State where
  table := fun _ => []
  lock := none
  blocked := fun _ => false
  flagged := fun _ => false
  pc := fun _ => .idle

section Steps
variable (tg space : ℕ → ℕ) (s : State)

/-- What another vm sees of the address: the same number in the same address space. -/
def key (v addr : ℕ) : ℕ × ℕ := (space (tg v), addr)

/-- The part of a wake under the lock. -/
def take (w addr n : ℕ) : List Note × List ℕ × State :=
  let (ws, rest) := popBack n (s.table (tg w, addr))
  (ws.map fun v => .chose w v (key tg space w addr), ws, s.setTable (tg w, addr) rest)

def futexWake (w addr : ℕ) (val : U32) : Option (List Note × State) :=
  if s.pc w ≠ .idle then none
  else if val.toInt ≤ 0 then some ([.woke w val 0], s)
  else if s.lock = none then
    let (es, ws, s') := s.take tg space w addr val.toNat
    some (es, s'.goto w (.waking addr val ws.length ws))
  else none

def futexChildTidClear (w addr : ℕ) : Option (List Note × State) :=
  if s.pc w = .idle ∧ s.lock = none then
    let (es, ws, s') := s.take tg space w addr 1
    some (es, { s' with lock := some w }.goto w (.clearing addr ws.length ws))
  else none

/-- `wait_for` returns: the flags are tested in this order. -/
def waitFor (v : ℕ) (timeout : Bool) : Rc → Bool
  | .ok => !s.blocked v
  | .interrupted => s.blocked v && s.flagged v
  | .timedOut => s.blocked v && !s.flagged v && timeout

def step : Act → Option (List Note × State)
  | .wait v addr timeout =>
    if s.pc v = .idle ∧ s.lock = none then
      some ([.began v (key tg space v addr)],
        ((s.setTable (tg v, addr) (s.table (tg v, addr) ++ [v])).setBlocked v true).goto v
          (.waiting addr timeout))
    else none
  | .wake w addr val => s.futexWake tg space w addr val
  | .requeue w addr => s.futexWake tg space w addr 0x10000
  | .tidClear w addr => s.futexChildTidClear tg space w addr
  | .go w =>
    match s.pc w with
    | .waking addr val k (v :: ws) =>
      some ([], (s.setBlocked v false).goto w (.waking addr val k ws))
    | .waking _ val k [] => some ([.woke w val k], s.goto w .idle)
    | .clearing addr k (v :: ws) =>
      some ([], (s.setBlocked v false).goto w (.clearing addr k ws))
    | .clearing _ k [] => some ([.woke w 1 k], { s with lock := none }.goto w .idle)
    | _ => none
  | .leave v rc =>
    match s.pc v with
    | .waiting addr timeout =>
      if s.waitFor v timeout rc then some ([], s.goto v (.leaving addr rc)) else none
    | _ => none
  | .detach v =>
    match s.pc v with
    | .leaving addr rc =>
      if s.lock = none then
        some ([.ended v rc], ((s.setTable (tg v, addr)
          ((s.table (tg v, addr)).filter (· ≠ v))).setBlocked v false).goto v .idle)
      else none
    | _ => none
  | .flag v b => some ([], { s with flagged := update s.flagged v b })
  | .stray v => some ([], s.setBlocked v false)

end Steps
end State

/-! ## The sequential reading -/

/-- Which waits are under way and not selected, which are selected, and how many a wake that
has not returned has selected. -/
@[ext]
structure Ledger where
  waiting : ℕ → Option (ℕ × ℕ)
  chosen : ℕ → Bool
  count : ℕ → ℕ

namespace Ledger

/-- A wake selects waits on its own address that nobody has selected, and returns their
number, at most what it asked for. A wait that returns 0 is selected, one that does not is
not. -/
def next (L : Ledger) : Note → Option Ledger
  | .began v key =>
    if L.waiting v = none ∧ L.chosen v = false then
      some { L with waiting := update L.waiting v (some key) }
    else none
  | .chose w v key =>
    if L.waiting v = some key then
      some {
        waiting := update L.waiting v none
        chosen := update L.chosen v true
        count := update L.count w (L.count w + 1) }
    else none
  | .woke w val k =>
    if L.count w = k ∧ k ≤ val.toNat then
      some { L with count := update L.count w 0 }
    else none
  | .ended v rc =>
    if rc = .ok then
      if L.chosen v then some { L with chosen := update L.chosen v false } else none
    else if L.waiting v = none then none
    else some { L with waiting := update L.waiting v none }

def init : Ledger := ⟨fun _ => none, fun _ => false, fun _ => 0⟩

end Ledger

/-! ## Taking vms out of a bucket -/

theorem popBack_mem {n : ℕ} {l : List ℕ} {v : ℕ} :
    v ∈ l ↔ v ∈ (popBack n l).1 ∨ v ∈ (popBack n l).2 := by
  rw [popBack, mem_reverse, ← mem_append, take_append_drop, mem_reverse]

theorem popBack_nodup {n : ℕ} {l : List ℕ} (h : l.Nodup) :
    (popBack n l).1.Nodup ∧ (popBack n l).2.Nodup ∧
      ∀ v ∈ (popBack n l).1, v ∉ (popBack n l).2 := by
  have hr : (l.reverse.take n ++ l.reverse.drop n).Nodup := by
    rw [take_append_drop]
    exact nodup_reverse.mpr h
  obtain ⟨h1, h2, hd⟩ := nodup_append'.mp hr
  exact ⟨h1, nodup_reverse.mpr h2, fun v hv hv' => hd hv (mem_reverse.mp hv')⟩

theorem popBack_length (n : ℕ) (l : List ℕ) : (popBack n l).1.length ≤ n := by
  rw [popBack, length_take]
  exact Nat.min_le_left ..

/-! ## Runs in which nobody leaves after having been selected -/

/-- The vms a waker has taken out and not yet woken. -/
def Pc.targets : Pc → List ℕ
  | .waking _ _ _ ws => ws
  | .clearing _ _ ws => ws
  | _ => []

/-- The number a wake under way is going to return. -/
def Pc.woken : Pc → ℕ
  | .waking _ _ k _ => k
  | .clearing _ k _ => k
  | _ => 0

def Pc.isWaiting : Pc → Bool
  | .waiting .. => true
  | _ => false

/-- The address a vm waits on, until it has detached. -/
def Pc.addr : Pc → Option ℕ
  | .waiting addr _ => some addr
  | .leaving addr _ => some addr
  | _ => none

/-- A wake under way has taken out at most as many as it asked for. -/
def Pc.Bounded : Pc → Prop
  | .waking _ val k _ => k ≤ val.toNat
  | .clearing _ k _ => k ≤ 1
  | _ => True

theorem Pc.isWaiting_of_addr {pc : Pc} (h : pc.addr = none) : pc.isWaiting = false := by
  cases pc <;> simp_all [Pc.addr, Pc.isWaiting]

variable {ws : List ℕ} {val : U32} {es : List Note}

section Runs
variable (tg space : ℕ → ℕ)

namespace State

/-- The vm is in the bucket it has entered. -/
def queued (s : State) (v : ℕ) : Bool :=
  match (s.pc v).addr with
  | some addr => v ∈ s.table (tg v, addr)
  | none => false

/-- A wait ends by time or by a signal only while it is in its bucket, a wake selects only
waits that have not ended so, and nobody else clears the `VM_BLOCKED` of a wait. -/
def prompt (s : State) : Act → Bool
  | .leave v rc => rc = .ok || s.queued tg v
  | .wake w addr val => (popBack val.toNat (s.table (tg w, addr))).1.all fun v => (s.pc v).isWaiting
  | .requeue w addr => (popBack 0x10000 (s.table (tg w, addr))).1.all fun v => (s.pc v).isWaiting
  | .tidClear w addr => (popBack 1 (s.table (tg w, addr))).1.all fun v => (s.pc v).isWaiting
  | .stray v => !(s.pc v).isWaiting
  | _ => true

/-- The ledger of a state. -/
def ledger (s : State) : Ledger where
  waiting v := if s.queued tg v then (s.pc v).addr.map (key tg space v) else none
  chosen v := (s.pc v).addr.isSome && !s.queued tg v
  count w := (s.pc w).woken

end State

/-- A step in which nobody leaves a wait after having been selected. -/
def PromptStep (s : State) (es : List Note) (s' : State) : Prop :=
  ∃ a, s.step tg space a = some (es, s') ∧ s.prompt tg a = true

/-- The buckets hold vms that have entered them, each once. -/
structure Filed (s : State) : Prop where
  addr : ∀ v k, v ∈ s.table k → ∃ addr, (s.pc v).addr = some addr ∧ k = (tg v, addr)
  nodup : ∀ k, (s.table k).Nodup

/-- Who is selected sleeps until it is woken, by the one waker that has it in its list. -/
structure Selected (s : State) : Prop where
  listed : ∀ w v, v ∈ (s.pc w).targets →
    s.blocked v = true ∧ (s.pc v).isWaiting = true ∧ s.queued tg v = false
  targets : ∀ w, (s.pc w).targets.Nodup
  once : ∀ w w' v, v ∈ (s.pc w).targets → v ∈ (s.pc w').targets → w = w'
  awake : ∀ v, (s.pc v).isWaiting = true → s.blocked v = false → s.queued tg v = false
  left : ∀ v addr rc, s.pc v = .leaving addr rc → (s.queued tg v = true ↔ rc ≠ .ok)
  bound : ∀ w addr val k ws, s.pc w = .waking addr val k ws → k ≤ val.toNat
  bound' : ∀ w addr k ws, s.pc w = .clearing addr k ws → k ≤ 1

variable {tg} {s s' : State}

/-! ## Entering and leaving a bucket -/

theorem Filed.queued (h : Filed tg s) {v : ℕ} {k : ℕ × ℕ} (hv : v ∈ s.table k) :
    s.queued tg v = true := by
  obtain ⟨addr, ha, rfl⟩ := h.addr v k hv
  simpa [State.queued, ha] using hv

/-- A vm that is not in a wait is in no bucket. -/
theorem Filed.not_mem (h : Filed tg s) {v : ℕ} (hv : (s.pc v).addr = none) (k : ℕ × ℕ) :
    v ∉ s.table k := by
  intro hk
  obtain ⟨addr, ha, -⟩ := h.addr v k hk
  rw [hv] at ha
  cases ha

theorem queued_congr {u : ℕ} (hp : (s'.pc u).addr = (s.pc u).addr)
    (ht : ∀ k, u ∈ s'.table k ↔ u ∈ s.table k) : s'.queued tg u = s.queued tg u := by
  rw [State.queued, State.queued, hp]
  split
  · rw [decide_eq_decide]
    exact ht _
  · rfl

section Wait
variable {v addr : ℕ} {d : Bool}

/-- The state after `futex_wait` has entered its bucket. -/
def State.entered (tg : ℕ → ℕ) (s : State) (v addr : ℕ) (d : Bool) : State :=
  ((s.setTable (tg v, addr) (s.table (tg v, addr) ++ [v])).setBlocked v true).goto v
    (.waiting addr d)

theorem entered_pc (u : ℕ) : (s.entered tg v addr d).pc u =
    if u = v then .waiting addr d else s.pc u := update_apply ..

theorem entered_mem (u : ℕ) (k : ℕ × ℕ) : u ∈ (s.entered tg v addr d).table k ↔
    u ∈ s.table k ∨ u = v ∧ k = (tg v, addr) := by
  simp only [State.entered, State.goto, State.setBlocked, State.setTable, update_apply]
  split
  · rename_i hk
    rw [mem_append, mem_singleton, hk]
    simp
  · rename_i hk
    simp [hk]

theorem filed_entered (h : Filed tg s) (hpc : s.pc v = .idle) :
    Filed tg (s.entered tg v addr d) := by
  have hout := h.not_mem (v := v) (by rw [hpc]; rfl)
  constructor
  · intro u k hu
    rw [entered_pc]
    rcases (entered_mem u k).mp hu with hu | ⟨rfl, rfl⟩
    · have hne : u ≠ v := fun he => hout k (he ▸ hu)
      rw [if_neg hne]
      exact h.addr u k hu
    · exact ⟨addr, by rw [if_pos rfl]; rfl, rfl⟩
  · intro k
    simp only [State.entered, State.goto, State.setBlocked, State.setTable, update_apply]
    split
    · refine nodup_append'.mpr ⟨h.nodup _, by simp, fun u hu hu' => ?_⟩
      rw [mem_singleton.mp hu'] at hu
      exact hout _ hu
    · exact h.nodup k

theorem entered_queued (u : ℕ) : (s.entered tg v addr d).queued tg u =
    if u = v then true else s.queued tg u := by
  by_cases hu : u = v
  · subst hu
    simp [State.queued, entered_pc, Pc.addr, entered_mem]
  · rw [if_neg hu]
    refine queued_congr ?_ fun k => ?_
    · rw [entered_pc, if_neg hu]
    · simp [entered_mem, hu]

theorem selected_entered (h : Selected tg s) (hpc : s.pc v = .idle) :
    Selected tg (s.entered tg v addr d) := by
  have hb : ∀ u, (s.entered tg v addr d).blocked u = if u = v then true else s.blocked u :=
    fun u => update_apply ..
  obtain ⟨h1, h2, h3, h4, h5, h6, h7⟩ := h
  constructor <;> simp only [entered_pc, entered_queued, hb] <;> grind [Pc.targets, Pc.isWaiting]

/-- The ledger sees a wait begin. -/
theorem ledger_entered (hpc : s.pc v = .idle) :
    (s.ledger tg space).next (.began v (State.key tg space v addr)) =
      some ((s.entered tg v addr d).ledger tg space) := by
  have hw : (s.ledger tg space).waiting v = none := by simp [State.ledger, hpc, Pc.addr]
  have hc : (s.ledger tg space).chosen v = false := by simp [State.ledger, hpc, Pc.addr]
  rw [Ledger.next, if_pos ⟨hw, hc⟩]
  refine congrArg some (Ledger.ext (funext fun u => ?_) (funext fun u => ?_) (funext fun u => ?_))
  · simp only [State.ledger, update_apply, entered_pc, entered_queued]
    split <;> simp_all [Pc.addr]
  · simp only [State.ledger, entered_pc, entered_queued]
    split
    · subst u
      simp [hpc, Pc.addr]
    · rfl
  · simp only [State.ledger, entered_pc]
    split
    · subst u
      simp [hpc, Pc.woken]
    · rfl

end Wait

section Take
variable {w addr n : ℕ} {l : Option ℕ} {pc : Pc}

/-- The vms a wake takes out of the bucket. -/
def State.picks (tg : ℕ → ℕ) (s : State) (w addr n : ℕ) : List ℕ :=
  (popBack n (s.table (tg w, addr))).1

/-- The state after a wake has been through the bucket. -/
def State.popped (tg : ℕ → ℕ) (s : State) (w addr n : ℕ) (l : Option ℕ) (pc : Pc) : State :=
  { s.setTable (tg w, addr) (popBack n (s.table (tg w, addr))).2 with lock := l }.goto w pc

theorem popped_pc (u : ℕ) : (s.popped tg w addr n l pc).pc u = if u = w then pc else s.pc u :=
  update_apply ..

theorem picks_addr (hf : Filed tg s) {u : ℕ} (hu : u ∈ s.picks tg w addr n) :
    (s.pc u).addr = some addr ∧ tg u = tg w := by
  obtain ⟨a, ha, he⟩ := hf.addr u _ (popBack_mem.mpr (Or.inl hu))
  rw [Prod.mk.injEq] at he
  exact ⟨by rw [ha, he.2], he.1.symm⟩

theorem popped_mem (hf : Filed tg s) (u : ℕ) (k : ℕ × ℕ) :
    u ∈ (s.popped tg w addr n l pc).table k ↔ u ∈ s.table k ∧ u ∉ s.picks tg w addr n := by
  obtain ⟨-, -, hdis⟩ := popBack_nodup (n := n) (hf.nodup (tg w, addr))
  simp only [State.popped, State.goto, State.setTable, update_apply]
  split
  · rename_i hk
    rw [hk, popBack_mem (n := n) (l := s.table (tg w, addr))]
    exact ⟨fun hu => ⟨Or.inr hu, fun hp => hdis u hp hu⟩, fun hu => hu.1.resolve_left hu.2⟩
  · rename_i hk
    refine ⟨fun hu => ⟨hu, fun hp => hk ?_⟩, fun hu => hu.1⟩
    obtain ⟨a, ha, rfl⟩ := hf.addr u k hu
    obtain ⟨ha', htg⟩ := picks_addr hf hp
    rw [ha, Option.some.injEq] at ha'
    rw [ha', htg]

theorem filed_popped (hf : Filed tg s) (hw : s.pc w = .idle) :
    Filed tg (s.popped tg w addr n l pc) := by
  have hout := hf.not_mem (v := w) (by rw [hw]; rfl)
  constructor
  · intro u k hu
    have hu' := ((popped_mem hf u k).mp hu).1
    have hne : u ≠ w := fun he => hout k (he ▸ hu')
    rw [popped_pc, if_neg hne]
    exact hf.addr u k hu'
  · intro k
    simp only [State.popped, State.goto, State.setTable, update_apply]
    split
    · exact (popBack_nodup (hf.nodup _)).2.1
    · exact hf.nodup k

theorem popped_queued (hf : Filed tg s) (hw : s.pc w = .idle) (hpc : pc.addr = none) (u : ℕ) :
    (s.popped tg w addr n l pc).queued tg u =
      (s.queued tg u && decide (u ∉ s.picks tg w addr n)) := by
  by_cases hu : u = w
  · subst hu
    have hidle : (s.pc u).addr = none := by rw [hw]; rfl
    simp [State.queued, popped_pc, hpc, hidle]
  · simp only [State.queued, popped_pc, if_neg hu]
    split
    · simp [popped_mem hf]
    · rfl

theorem selected_popped (hf : Filed tg s) (h : Selected tg s) (hw : s.pc w = .idle)
    (hp : ∀ v ∈ s.picks tg w addr n, (s.pc v).isWaiting = true) (hpc : pc.addr = none)
    (ht : pc.targets = s.picks tg w addr n)
    (hb : pc.Bounded) :
    Selected tg (s.popped tg w addr n l pc) := by
  have hq : ∀ u ∈ s.picks tg w addr n, s.queued tg u = true :=
    fun u hu => hf.queued (popBack_mem.mpr (Or.inl hu))
  have hnd : (s.picks tg w addr n).Nodup := (popBack_nodup (hf.nodup _)).1
  have hblk : (s.popped tg w addr n l pc).blocked = s.blocked := rfl
  have hnw : pc.isWaiting = false := Pc.isWaiting_of_addr hpc
  obtain ⟨h1, h2, h3, h4, h5, h6, h7⟩ := h
  constructor <;> simp only [popped_pc, popped_queued hf hw hpc, hblk] <;>
    grind [Pc.targets, Pc.isWaiting, Pc.addr, Pc.Bounded]

/-- The ledger sees the vms selected, one after the other. -/
theorem foldlM_chose {k : ℕ × ℕ} {L : Ledger} (hnd : ws.Nodup)
    (hw : ∀ v ∈ ws, L.waiting v = some k) :
    (ws.map fun v => Note.chose w v k).foldlM Ledger.next L = some
      { waiting := fun v => if v ∈ ws then none else L.waiting v
        chosen := fun v => if v ∈ ws then true else L.chosen v
        count := update L.count w (L.count w + ws.length) } := by
  induction ws generalizing L with
  | nil => simp
  | cons v ws ih =>
    obtain ⟨hv, hnd⟩ := nodup_cons.mp hnd
    rw [map_cons, foldlM_cons, Ledger.next, if_pos (hw v mem_cons_self)]
    refine (ih hnd fun u hu => ?_).trans ?_
    · have hne : u ≠ v := fun he => hv (he ▸ hu)
      exact (update_of_ne hne ..).trans (hw u (mem_cons_of_mem v hu))
    · refine congrArg some (Ledger.ext (funext fun u => ?_) (funext fun u => ?_) ?_)
      · by_cases hu : u = v <;> simp [hu]
      · by_cases hu : u = v <;> simp [hu]
      · simp [Nat.add_comm, Nat.add_assoc]

theorem ledger_popped (hf : Filed tg s) (hw : s.pc w = .idle) (hpc : pc.addr = none)
    (hk : pc.woken = (s.picks tg w addr n).length) :
    ((s.picks tg w addr n).map fun v => Note.chose w v (State.key tg space w addr)).foldlM
      Ledger.next (s.ledger tg space) = some ((s.popped tg w addr n l pc).ledger tg space) := by
  have hq : ∀ u ∈ s.picks tg w addr n, s.queued tg u = true :=
    fun u hu => hf.queued (popBack_mem.mpr (Or.inl hu))
  have hidle : (s.pc w).addr = none := by rw [hw]; rfl
  have hnd : (s.picks tg w addr n).Nodup := (popBack_nodup (hf.nodup _)).1
  rw [foldlM_chose hnd]
  · refine congrArg some (Ledger.ext (funext fun u => ?_) (funext fun u => ?_) (funext fun u => ?_))
    · simp only [State.ledger, popped_queued hf hw hpc, popped_pc]
      by_cases hu : u = w
      · subst hu
        simp [hidle, hpc]
      · by_cases hp : u ∈ s.picks tg w addr n <;> simp [hp, hu]
    · simp only [State.ledger, popped_queued hf hw hpc, popped_pc]
      by_cases hp : u ∈ s.picks tg w addr n
      · have ha := (picks_addr hf hp).1
        have hu : u ≠ w := by
          rintro rfl
          rw [hidle] at ha
          cases ha
        simp [hp, hu, ha]
      · by_cases hu : u = w
        · subst hu
          simp [hp, hidle, hpc]
        · simp [hp, hu]
    · simp only [State.ledger, popped_pc, update_apply]
      split
      · rw [hk, hw]
        simp [Pc.woken]
      · rfl
  · intro u hu
    obtain ⟨ha, htg⟩ := picks_addr hf hu
    simp [State.ledger, hq u hu, ha, State.key, htg]

end Take

section Move
variable {w : ℕ} {pc : Pc} {l : Option ℕ} {b : ℕ → Bool}

/-- A step of `w` that leaves the buckets. -/
def State.moved (s : State) (l : Option ℕ) (b : ℕ → Bool) (w : ℕ) (pc : Pc) : State :=
  { s with lock := l, blocked := b, pc := update s.pc w pc }

theorem moved_pc (u : ℕ) : (s.moved l b w pc).pc u = if u = w then pc else s.pc u :=
  update_apply ..

section
variable (ha : pc.addr = (s.pc w).addr)
include ha

theorem moved_addr (u : ℕ) : ((s.moved l b w pc).pc u).addr = (s.pc u).addr := by
  rw [moved_pc]
  split
  · subst u
    exact ha
  · rfl

theorem moved_queued (u : ℕ) : (s.moved l b w pc).queued tg u = s.queued tg u :=
  queued_congr (moved_addr ha u) fun _ => Iff.rfl

theorem filed_moved (h : Filed tg s) : Filed tg (s.moved l b w pc) := by
  refine ⟨fun u k hu => ?_, h.nodup⟩
  rw [moved_addr ha]
  exact h.addr u k hu

theorem ledger_moved (hk : pc.woken = (s.pc w).woken) :
    (s.moved l b w pc).ledger tg space = s.ledger tg space := by
  have hwoken : ∀ u, ((s.moved l b w pc).pc u).woken = (s.pc u).woken := by
    intro u
    rw [moved_pc]
    split
    · subst u
      exact hk
    · rfl
  simp only [State.ledger, moved_queued ha, moved_addr ha, hwoken]

end

/-- A waker clears the `VM_BLOCKED` of the first vm of its list. -/
theorem selected_wakeup (h : Selected tg s) {v : ℕ} (hws : (s.pc w).targets = v :: ws)
    (ha : (s.pc w).addr = none) (ha' : pc.addr = none) (ht : pc.targets = ws) (hb : pc.Bounded) :
    Selected tg (s.moved s.lock (update s.blocked v false) w pc) := by
  have hblk : ∀ u, (s.moved s.lock (update s.blocked v false) w pc).blocked u =
      if u = v then false else s.blocked u := fun u => update_apply ..
  have hnw := Pc.isWaiting_of_addr ha
  have hnw' := Pc.isWaiting_of_addr ha'
  obtain ⟨h1, h2, h3, h4, h5, h6, h7⟩ := h
  constructor <;> simp only [moved_queued (ha'.trans ha.symm), hblk, moved_pc] <;>
    grind [Pc.targets, Pc.isWaiting, Pc.addr, Pc.Bounded]

theorem selected_return (h : Selected tg s) (ha : (s.pc w).addr = none) :
    Selected tg (s.moved l s.blocked w .idle) := by
  have hq : ∀ u, (s.moved l s.blocked w .idle).queued tg u = s.queued tg u := moved_queued ha.symm
  have hnw : (s.pc w).isWaiting = false := Pc.isWaiting_of_addr ha
  have hblk : (s.moved l s.blocked w .idle).blocked = s.blocked := rfl
  obtain ⟨h1, h2, h3, h4, h5, h6, h7⟩ := h
  constructor <;> simp only [hq, moved_pc, hblk] <;> grind [Pc.targets, Pc.isWaiting, Pc.addr]

theorem ledger_return (ha : (s.pc w).addr = none) {k : ℕ} (hk : (s.pc w).woken = k)
    (hle : k ≤ val.toNat) :
    (s.ledger tg space).next (.woke w val k) =
      some ((s.moved l s.blocked w .idle).ledger tg space) := by
  have ha' : Pc.idle.addr = (s.pc w).addr := ha.symm
  have hc : (s.ledger tg space).count w = k := hk
  rw [Ledger.next, if_pos ⟨hc, hle⟩]
  refine congrArg some (Ledger.ext (funext fun u => ?_) (funext fun u => ?_) (funext fun u => ?_))
  · simp only [State.ledger, moved_queued ha', moved_addr ha']
  · simp only [State.ledger, moved_queued ha', moved_addr ha']
  · simp only [State.ledger, update_apply, moved_pc]
    split <;> simp [Pc.woken]

theorem selected_leave (h : Selected tg s) {v addr : ℕ} {d : Bool} {rc : Rc}
    (hpc : s.pc v = .waiting addr d) (hr : s.waitFor v d rc = true)
    (hp : rc = .ok ∨ s.queued tg v = true) :
    Selected tg (s.moved s.lock s.blocked v (.leaving addr rc)) := by
  have ha : (Pc.leaving addr rc).addr = (s.pc v).addr := by rw [hpc]; rfl
  have hblk : (s.moved s.lock s.blocked v (.leaving addr rc)).blocked = s.blocked := rfl
  have hok : rc = .ok → s.blocked v = false := by
    rintro rfl
    simpa [State.waitFor] using hr
  obtain ⟨h1, h2, h3, h4, h5, h6, h7⟩ := h
  have hnot : rc = .ok → s.queued tg v = false := fun he =>
    h4 v (by rw [hpc]; rfl) (hok he)
  have hlist : ∀ w, v ∉ (s.pc w).targets := by
    intro w hw
    obtain ⟨hb, -, hnq⟩ := h1 w v hw
    rcases hp with rfl | hp
    · rw [hok rfl] at hb
      cases hb
    · rw [hp] at hnq
      cases hnq
  constructor <;> simp only [moved_queued ha, hblk, moved_pc] <;> grind [Pc.targets, Pc.isWaiting]

end Move

section Detach
variable {v addr : ℕ} {rc : Rc}

/-- The state after `futex_wait` has detached. -/
def State.detached (tg : ℕ → ℕ) (s : State) (v addr : ℕ) : State :=
  ((s.setTable (tg v, addr) ((s.table (tg v, addr)).filter (· ≠ v))).setBlocked v
    false).goto v .idle

theorem detached_pc (u : ℕ) : (s.detached tg v addr).pc u = if u = v then .idle else s.pc u :=
  update_apply ..

theorem detached_mem (hf : Filed tg s) (hpc : s.pc v = .leaving addr rc) (u : ℕ) (k : ℕ × ℕ) :
    u ∈ (s.detached tg v addr).table k ↔ u ∈ s.table k ∧ u ≠ v := by
  simp only [State.detached, State.goto, State.setBlocked, State.setTable, update_apply]
  split
  · rename_i hk
    simp [hk]
  · rename_i hk
    refine ⟨fun hu => ⟨hu, ?_⟩, fun hu => hu.1⟩
    rintro rfl
    obtain ⟨a, ha, rfl⟩ := hf.addr u k hu
    rw [hpc] at ha
    cases ha
    exact hk rfl

theorem filed_detached (hf : Filed tg s) (hpc : s.pc v = .leaving addr rc) :
    Filed tg (s.detached tg v addr) := by
  constructor
  · intro u k hu
    obtain ⟨hu, hne⟩ := (detached_mem hf hpc u k).mp hu
    rw [detached_pc, if_neg hne]
    exact hf.addr u k hu
  · intro k
    simp only [State.detached, State.goto, State.setBlocked, State.setTable, update_apply]
    split
    · exact (hf.nodup _).filter _
    · exact hf.nodup k

theorem detached_queued (hf : Filed tg s) (hpc : s.pc v = .leaving addr rc) (u : ℕ) :
    (s.detached tg v addr).queued tg u = if u = v then false else s.queued tg u := by
  by_cases hu : u = v
  · subst hu
    simp [State.queued, detached_pc, Pc.addr]
  · rw [if_neg hu]
    refine queued_congr ?_ fun k => ?_
    · rw [detached_pc, if_neg hu]
    · simp [detached_mem hf hpc, hu]

theorem selected_detached (hf : Filed tg s) (h : Selected tg s) (hpc : s.pc v = .leaving addr rc) :
    Selected tg (s.detached tg v addr) := by
  have hb : ∀ u, (s.detached tg v addr).blocked u = if u = v then false else s.blocked u :=
    fun u => update_apply ..
  obtain ⟨h1, h2, h3, h4, h5, h6, h7⟩ := h
  have hlist : ∀ w, v ∉ (s.pc w).targets := by
    intro w hw
    obtain ⟨-, hp, -⟩ := h1 w v hw
    rw [hpc] at hp
    cases hp
  constructor <;> simp only [detached_pc, detached_queued hf hpc, hb] <;>
    grind [Pc.targets, Pc.isWaiting]

theorem ledger_detached (hf : Filed tg s) (h : Selected tg s) (hpc : s.pc v = .leaving addr rc) :
    (s.ledger tg space).next (.ended v rc) = some ((s.detached tg v addr).ledger tg space) := by
  have hleft := h.left v addr rc hpc
  have haddr : (s.pc v).addr = some addr := by rw [hpc]; rfl
  have hwoken : (s.pc v).woken = 0 := by rw [hpc]; rfl
  have hcount : ((s.detached tg v addr).ledger tg space).count = (s.ledger tg space).count := by
    funext u
    simp only [State.ledger, detached_pc]
    split
    · subst u
      rw [hwoken]
      rfl
    · rfl
  by_cases hrc : rc = .ok
  · have hq : s.queued tg v = false := by
      rw [← Bool.not_eq_true, hleft]
      exact not_not.mpr hrc
    have hc : (s.ledger tg space).chosen v = true := by simp [State.ledger, haddr, hq]
    rw [Ledger.next, if_pos hrc, if_pos hc]
    refine congrArg some (Ledger.ext (funext fun u => ?_) (funext fun u => ?_) hcount.symm)
    · simp only [State.ledger, detached_pc, detached_queued hf hpc]
      by_cases hu : u = v
      · simp [hu, hq]
      · simp [hu]
    · simp only [State.ledger, update_apply, detached_pc, detached_queued hf hpc]
      split <;> simp [Pc.addr]
  · have hq : s.queued tg v = true := hleft.mpr hrc
    have hw : (s.ledger tg space).waiting v ≠ none := by simp [State.ledger, haddr, hq]
    rw [Ledger.next, if_neg hrc, if_neg hw]
    refine congrArg some (Ledger.ext (funext fun u => ?_) (funext fun u => ?_) hcount.symm)
    · simp only [State.ledger, update_apply, detached_pc, detached_queued hf hpc]
      split <;> simp
    · simp only [State.ledger, detached_pc, detached_queued hf hpc]
      by_cases hu : u = v
      · simp [hu, hq, Pc.addr]
      · simp [hu]

end Detach

/-! ## Runs -/

/-- A step keeps the states of such a run, and the ledger follows what it shows. -/
def Followed (tg space : ℕ → ℕ) (s : State) (es : List Note) (s' : State) : Prop :=
  (Filed tg s' ∧ Selected tg s') ∧ es.foldlM Ledger.next (s.ledger tg space) =
    some (s'.ledger tg space)

theorem followed_wake (hf : Filed tg s) (h : Selected tg s) {w addr : ℕ}
    (hs : s.futexWake tg space w addr val = some (es, s'))
    (hp : (s.picks tg w addr val.toNat).all (fun v => (s.pc v).isWaiting) = true) :
    Followed tg space s es s' := by
  unfold State.futexWake at hs
  split_ifs at hs with hidle hval hl
  · cases hs
    have hidle : s.pc w = .idle := by simpa using hidle
    refine ⟨⟨hf, h⟩, ?_⟩
    have hcount : (s.ledger tg space).count w = 0 := by simp [State.ledger, hidle, Pc.woken]
    have hself := update_eq_self w (s.ledger tg space).count
    rw [hcount] at hself
    simp [Ledger.next, hcount, hself]
  · cases hs
    have hidle : s.pc w = .idle := by simpa using hidle
    refine ⟨⟨?_, ?_⟩, ?_⟩
    · exact filed_popped (l := s.lock) hf hidle
    · exact selected_popped (l := s.lock) hf h hidle (all_eq_true.mp hp) rfl rfl
        (popBack_length val.toNat (s.table (tg w, addr)))
    · exact ledger_popped (l := s.lock) space hf hidle rfl rfl

theorem followed_tidClear (hf : Filed tg s) (h : Selected tg s) {w addr : ℕ}
    (hs : s.futexChildTidClear tg space w addr = some (es, s'))
    (hp : (s.picks tg w addr 1).all (fun v => (s.pc v).isWaiting) = true) :
    Followed tg space s es s' := by
  unfold State.futexChildTidClear at hs
  split_ifs at hs with hc
  cases hs
  refine ⟨⟨?_, ?_⟩, ?_⟩
  · exact filed_popped (l := some w) hf hc.1
  · exact selected_popped (l := some w) hf h hc.1 (all_eq_true.mp hp) rfl rfl
      (popBack_length 1 (s.table (tg w, addr)))
  · exact ledger_popped (l := some w) space hf hc.1 rfl rfl

/-- A waker wakes the next vm of its list. -/
theorem followed_wakeup (hf : Filed tg s) (h : Selected tg s) {w v : ℕ} {pc : Pc}
    (hws : (s.pc w).targets = v :: ws) (ha : (s.pc w).addr = none) (ha' : pc.addr = none)
    (ht : pc.targets = ws) (hk : pc.woken = (s.pc w).woken) (hb : pc.Bounded) :
    Followed tg space s [] (s.moved s.lock (update s.blocked v false) w pc) :=
  ⟨⟨filed_moved (ha'.trans ha.symm) hf, selected_wakeup h hws ha ha' ht hb⟩,
    congrArg some (ledger_moved space (ha'.trans ha.symm) hk).symm⟩

theorem followed_return (hf : Filed tg s) (h : Selected tg s) {w k : ℕ} {l : Option ℕ}
    (ha : (s.pc w).addr = none) (hk : (s.pc w).woken = k) (hle : k ≤ val.toNat) :
    Followed tg space s [.woke w val k] (s.moved l s.blocked w .idle) := by
  refine ⟨⟨filed_moved ha.symm hf, selected_return h ha⟩, ?_⟩
  rw [foldlM_cons, ledger_return (l := l) space ha hk hle]
  rfl

theorem followed_go (hf : Filed tg s) (h : Selected tg s) {w : ℕ}
    (hs : s.step tg space (.go w) = some (es, s')) : Followed tg space s es s' := by
  cases hpc : s.pc w <;> simp only [State.step, hpc] at hs
  case waking addr val k ws =>
    have hb := h.bound w addr val k ws hpc
    have ha : (s.pc w).addr = none := by rw [hpc]; rfl
    cases ws <;> cases hs
    · exact followed_return space hf h ha (by rw [hpc]; rfl) hb
    · exact followed_wakeup space hf h (by rw [hpc]; rfl) ha rfl rfl (by rw [hpc]; rfl) hb
  case clearing addr k ws =>
    have hb := h.bound' w addr k ws hpc
    have ha : (s.pc w).addr = none := by rw [hpc]; rfl
    cases ws <;> cases hs
    · exact followed_return space hf h ha (by rw [hpc]; rfl) hb
    · exact followed_wakeup space hf h (by rw [hpc]; rfl) ha rfl rfl (by rw [hpc]; rfl) hb
  all_goals cases hs

theorem followed_step (hf : Filed tg s) (h : Selected tg s) (hs : PromptStep tg space s es s') :
    Followed tg space s es s' := by
  obtain ⟨a, hs, hp⟩ := hs
  cases a
  case go w => exact followed_go space hf h hs
  case wake w addr val => exact followed_wake space hf h hs hp
  case requeue w addr => exact followed_wake space hf h hs hp
  case tidClear w addr => exact followed_tidClear space hf h hs hp
  case wait v addr d =>
    simp only [State.step] at hs
    split_ifs at hs with hc
    cases hs
    refine ⟨⟨filed_entered hf hc.1, selected_entered h hc.1⟩, ?_⟩
    rw [foldlM_cons, ledger_entered space hc.1]
    rfl
  case leave v rc =>
    cases hpc : s.pc v <;> simp only [State.step, hpc] at hs
    case waiting addr d =>
      split_ifs at hs with hr
      cases hs
      have ha : (Pc.leaving addr rc).addr = (s.pc v).addr := by rw [hpc]; rfl
      refine ⟨⟨filed_moved ha hf, selected_leave h hpc hr ?_⟩,
        congrArg some (ledger_moved space ha (by rw [hpc]; rfl)).symm⟩
      simpa [State.prompt] using hp
    all_goals cases hs
  case detach v =>
    cases hpc : s.pc v <;> simp only [State.step, hpc] at hs
    case leaving addr rc =>
      split_ifs at hs
      cases hs
      refine ⟨⟨filed_detached hf hpc, selected_detached hf h hpc⟩, ?_⟩
      rw [foldlM_cons, ledger_detached space hf h hpc]
      rfl
    all_goals cases hs
  case flag v b =>
    cases hs
    exact ⟨⟨⟨hf.addr, hf.nodup⟩, ⟨h.listed, h.targets, h.once, h.awake, h.left, h.bound, h.bound'⟩⟩,
      rfl⟩
  case stray v =>
    cases hs
    have hnw : (s.pc v).isWaiting = false := by simpa [State.prompt] using hp
    have hblk : ∀ u, (s.setBlocked v false).blocked u = if u = v then false else s.blocked u :=
      fun u => update_apply ..
    refine ⟨⟨⟨hf.addr, hf.nodup⟩, ⟨fun w u hu => ?_, h.targets, h.once, fun u hu hb => ?_, h.left,
      h.bound, h.bound'⟩⟩, rfl⟩
    · obtain ⟨hb, hw, hq⟩ := h.listed w u hu
      refine ⟨?_, hw, hq⟩
      rw [hblk, if_neg]
      · exact hb
      · rintro rfl
        rw [hnw] at hw
        cases hw
    · refine h.awake u hu ?_
      rw [hblk, if_neg] at hb
      · exact hb
      · rintro rfl
        rw [show (s.setBlocked u false).pc = s.pc from rfl, hnw] at hu
        cases hu

theorem filed_init : Filed tg State.init :=
  ⟨fun _ _ hv => absurd hv not_mem_nil, fun _ => nodup_nil⟩

theorem filed_step {a : Act} (hf : Filed tg s) (hs : s.step tg space a = some (es, s')) :
    Filed tg s' := by
  have hwake {w addr : ℕ} {val : U32} (hs : s.futexWake tg space w addr val = some (es, s')) :
      Filed tg s' := by
    unfold State.futexWake at hs
    split_ifs at hs with hidle hval hl
    · cases hs
      exact hf
    · cases hs
      exact filed_popped (l := s.lock) hf (by simpa using hidle)
  have hmove {l : Option ℕ} {b : ℕ → Bool} {w : ℕ} {pc : Pc} (h : pc.addr = (s.pc w).addr) :
      Filed tg (s.moved l b w pc) := filed_moved h hf
  cases a with
  | wake w addr val => exact hwake hs
  | requeue w addr => exact hwake hs
  | tidClear w addr =>
    simp only [State.step, State.futexChildTidClear] at hs
    split_ifs at hs with hc
    cases hs
    exact filed_popped (l := some w) hf hc.1
  | wait v addr d =>
    simp only [State.step] at hs
    split_ifs at hs with hc
    cases hs
    exact filed_entered hf hc.1
  | go w =>
    simp only [State.step] at hs
    split at hs <;> cases hs
    all_goals exact hmove (by rw [‹s.pc w = _›]; rfl)
  | leave v rc =>
    simp only [State.step] at hs
    split at hs
    · split_ifs at hs
      cases hs
      exact hmove (by rw [‹s.pc v = _›]; rfl)
    · cases hs
  | detach v =>
    simp only [State.step] at hs
    split at hs
    · split_ifs at hs
      cases hs
      exact filed_detached hf ‹_›
    · cases hs
  | flag v b | stray v =>
    cases hs
    exact ⟨hf.addr, hf.nodup⟩

theorem selected_init : Selected tg State.init := by
  refine ⟨fun w v hv => absurd hv not_mem_nil, fun w => nodup_nil,
    fun w w' v hv => absurd hv not_mem_nil, fun v hv => ?_, fun v addr rc hv => ?_,
    fun w addr val k ws hw => ?_, fun w addr k ws hw => ?_⟩
  · cases hv
  · cases hv
  · cases hw
  · cases hw

/-- **Futex calls linearize** along every run in which nobody leaves a wait by time or by a
signal once a wake has selected it, nobody is selected having left it so, and nobody else
clears the `VM_BLOCKED` of a wait: the ledger accepts the calls. -/
theorem futex_linearizes {l : List (List Note)}
    (h : Run (PromptStep tg space) State.init l s) :
    ∃ L, l.flatten.foldlM Ledger.next Ledger.init = some L := by
  have hstep : ∀ s es s' L, ((Filed tg s ∧ Selected tg s) ∧ L = s.ledger tg space) →
      PromptStep tg space s es s' → ∃ L', es.foldlM Ledger.next L = some L' ∧
        (Filed tg s' ∧ Selected tg s') ∧ L' = s'.ledger tg space := by
    rintro s es s' L ⟨⟨hf, hs⟩, rfl⟩ hstep
    obtain ⟨hs', hl⟩ := followed_step space hf hs hstep
    exact ⟨_, hl, hs', rfl⟩
  obtain ⟨L, hL, -⟩ := h.accepted ⟨⟨filed_init, selected_init⟩, rfl⟩ hstep
  exact ⟨L, hL⟩

/-- In every interleaving, late wakes and stray ones included, a bucket holds a vm at most once,
and only while the vm is in a wait on the address of the bucket. -/
theorem filed_of_run {l : List (List Note)}
    (h : Run (fun s es s' => ∃ a, s.step tg space a = some (es, s')) State.init l s) :
    Filed tg s :=
  h.invariant filed_init fun _ _ _ hf ⟨_, hs⟩ => filed_step space hf hs

end Runs

/-- Vm 2 is woken after its time was up, while vm 1 waits on. -/
theorem filed_of_run_wait : ∃ s : State, s.table (1, 0x2000) = [1] ∧ Filed (fun _ => 1) s :=
  ⟨_, by decide, filed_of_run (fun _ => 7) (.cons ⟨.wait 1 0x2000 true, rfl⟩
    (.cons ⟨.wait 2 0x2000 true, rfl⟩ (.cons ⟨.wake 3 0x2000 1, rfl⟩
      (.cons ⟨.leave 2 .timedOut, rfl⟩ (.single ⟨.go 3, rfl⟩)))))⟩

/-! ## A wake that comes too late -/

/-- Two vms of a group wait on one address, and a third wakes one of them; the other one's
time is up. -/
def wakeRun : List Act :=
  [.wait 1 0x2000 true, .wait 2 0x2000 true, .wake 3 0x2000 1, .go 3, .leave 2 .ok, .go 3,
    .leave 1 .timedOut, .detach 1, .detach 2]

theorem futex_linearizes_wakeRun : ∃ l s,
    Run (PromptStep (fun _ => 1) (fun _ => 7)) State.init l s ∧
    l.flatten = [.began 1 (7, 0x2000), .began 2 (7, 0x2000), .chose 3 2 (7, 0x2000), .woke 3 1 1,
      .ended 1 .timedOut, .ended 2 .ok] ∧
    ∃ L, l.flatten.foldlM Ledger.next Ledger.init = some L := by
  obtain ⟨l, s, hrun, hl⟩ := Run.exists_of_play (f := State.step (fun _ => 1) (fun _ => 7))
    (C := fun s a => s.prompt (fun _ => 1) a = true) (s := State.init) wakeRun
    (fun x => x.1.flatten) (x := [.began 1 (7, 0x2000), .began 2 (7, 0x2000),
      .chose 3 2 (7, 0x2000), .woke 3 1 1, .ended 1 .timedOut, .ended 2 .ok]) (by decide)
  exact ⟨l, s, hrun, hl, futex_linearizes _ hrun⟩

/-- The waker has taken the vm out of its bucket when the vm's time is up; the vm waits on
another address before the waker gets to clear its `VM_BLOCKED`. -/
def lateWakeRun : List Act :=
  [.wait 1 0x2000 true, .wake 3 0x2000 1, .leave 1 .timedOut, .detach 1, .wait 1 0x3000 false,
  .go 3,
    .go 3, .leave 1 .ok, .detach 1]

/-- The wait that timed out was selected, and the one that returned 0 was not. -/
theorem selected_wait_times_out : ∃ l s,
    Run (fun s es s' => ∃ a, s.step (fun _ => 1) (fun _ => 7) a = some (es, s')) State.init l s ∧
    l.flatten = [.began 1 (7, 0x2000), .chose 3 1 (7, 0x2000), .ended 1 .timedOut,
      .began 1 (7, 0x3000), .woke 3 1 1, .ended 1 .ok] ∧
    l.flatten.foldlM Ledger.next Ledger.init = none := by
  obtain ⟨l, s, hrun, hl⟩ := Run.exists_of_play (f := State.step (fun _ => 1) (fun _ => 7))
    (C := fun _ _ => True) (s := State.init) lateWakeRun (fun x => x.1.flatten)
    (x := [.began 1 (7, 0x2000), .chose 3 1 (7, 0x2000), .ended 1 .timedOut,
      .began 1 (7, 0x3000), .woke 3 1 1, .ended 1 .ok]) (by decide)
  refine ⟨l, s, hrun.mono fun s es s' h => ?_, hl, ?_⟩
  · obtain ⟨a, ha, -⟩ := h
    exact ⟨a, ha⟩
  · rw [show l.flatten = _ from hl]
    rfl

end Bpfvm.Process.Futex
