import Bpfvm.Signal.Steps

/-!
# Events are neither lost nor reordered

The ledger of a run: the events that were accepted, and those that were taken, by a handler, a
default action, `SIG_IGN` or a signalfd. For every signal number the accepted events are the taken
ones followed by those still held, in this order. `handle_signals` breaks this in two ways: the
events it has deferred go back behind those it has not looked at, and an event for a signalfd is
gone when the pipe does not take it.
-/
namespace Bpfvm.Signal
open List State Note

namespace Note

def accepted? : Note → Option SigEvent
  | .accepted e => some e
  | _ => none

/-- The event that leaves the queue for good. -/
def taken? : Note → Option SigEvent
  | .fate e _ => some e
  | .toFd _ _ e => some e
  | _ => none

/-- What comes into the pipe of a signalfd. -/
def written? (id : ℕ) : Note → Option SigEvent
  | .toFd id' _ e => if id' = id then some e else none
  | .fromOther id' e => if id' = id then some e else none
  | _ => none

def read? (id : ℕ) : Note → Option SigEvent
  | .read id' e => if id' = id then some e else none
  | _ => none

end Note

/-- The events with the signal number `k`. -/
def ofSig (k : ℕ) (l : List SigEvent) : List SigEvent := l.filter (·.sig = k)

section
variable {k : ℕ} {l l' : List SigEvent} {e : SigEvent}

@[simp] theorem ofSig_append : ofSig k (l ++ l') = ofSig k l ++ ofSig k l' := filter_append ..

theorem ofSig_cons : ofSig k (e :: l) = ofSig k [e] ++ ofSig k l := ofSig_append (l := [e])

/-- Lists without a common signal may change places. -/
theorem ofSig_comm (h : ∀ x ∈ l, ∀ y ∈ l', x.sig ≠ y.sig) :
    ofSig k l ++ ofSig k l' = ofSig k l' ++ ofSig k l := by
  by_cases hk : ∃ x ∈ l, x.sig = k
  · obtain ⟨x, hx, rfl⟩ := hk
    have hnil : ofSig x.sig l' = [] :=
      filter_eq_nil_iff.mpr fun y hy => by simpa using (h x hx y hy).symm
    rw [hnil, append_nil, nil_append]
  · have hnil : ofSig k l = [] :=
      filter_eq_nil_iff.mpr fun x hx => by
        simpa using fun hxk => hk ⟨x, hx, hxk⟩
    rw [hnil, append_nil, nil_append]

/-- An event may go before those of other signals. -/
theorem ofSig_pull (h : ∀ x ∈ l, x.sig ≠ e.sig) :
    ofSig k (l ++ e :: l') = ofSig k (e :: (l ++ l')) := by
  have hcomm : ofSig k l ++ ofSig k [e] = ofSig k [e] ++ ofSig k l :=
    ofSig_comm fun x hx y hy => mem_singleton.mp hy ▸ h x hx
  rw [ofSig_append, ofSig_cons, ofSig_cons (l := l ++ l'), ofSig_append (l := l),
    ← append_assoc, hcomm, append_assoc]

end

namespace State

/-- The events that are in the queue or in the hands of `handle_signals`, in their order. -/
def held (s : State) : List SigEvent :=
  match s.pc with
  | .scan _ _ _ deferred => deferred ++ s.queue
  | .scanned chosen deferred => chosen.toList ++ (deferred ++ s.queue)
  | .act e _ => e :: s.queue
  | _ => s.queue

/-- What has been deferred is blocked by the mask of the scan. -/
def Deferring (s : State) : Prop :=
  match s.pc with
  | .scan blocked _ _ deferred => ∀ x ∈ deferred, x.memOf blocked = true
  | _ => True

/-- A step that keeps the order: a signalfd takes the event it is given, and has been given no
other before a deferred one of the same signal; and what goes back to the end of the queue has no
signal in common with what is still there. -/
def Orderly (s : State) : Act → Prop
  | .go b _ =>
    match s.pc with
    | .scan _ _ (some fds) deferred =>
      ∀ e ∈ s.queue.head?, (∃ id ∈ fds, e.memOf (s.fdMask id)) →
        b = true ∧ ∀ x ∈ deferred, x.sig ≠ e.sig
    | .scanned _ deferred => ∀ x ∈ deferred, ∀ y ∈ s.queue, x.sig ≠ y.sig
    | _ => True
  | _ => True

end State

/-- The ledger of one step. -/
structure Booked (s : State) (es : List Note) (s' : State) : Prop where
  events : ∀ k, ofSig k (s.held ++ es.filterMap accepted?) =
    ofSig k (es.filterMap taken? ++ s'.held)
  pipes : ∀ id, s.pipe id ++ es.filterMap (written? id) =
    es.filterMap (read? id) ++ s'.pipe id
  masks : ∀ id mask e, toFd id mask e ∈ es → e.memOf mask = true

section
variable {s s' : State} {es : List Note} {b : Bool} {order : List ℕ} {a : Act}

/-- A step that shows nothing of the events. -/
theorem Booked.still (hh : s'.held = s.held) (hp : s'.pipe = s.pipe)
    (ha : es.filterMap accepted? = []) (ht : es.filterMap taken? = [])
    (hw : ∀ id, es.filterMap (written? id) = []) (hr : ∀ id, es.filterMap (read? id) = [])
    (hm : ∀ id mask e, toFd id mask e ∉ es) : Booked s es s' := by
  refine ⟨fun k => ?_, fun id => ?_, fun id mask e he => absurd he (hm id mask e)⟩
  · rw [hh, ha, ht, append_nil, nil_append]
  · rw [hp, hw, hr, append_nil, nil_append]

theorem Booked.silent (hh : s'.held = s.held) (hp : s'.pipe = s.pipe) : Booked s [] s' :=
  .still hh hp rfl rfl (fun _ => rfl) (fun _ => rfl) (by simp)

theorem SigEvent.sig_ne_of_memOf {x y : SigEvent} {mask : U64} (hx : x.memOf mask = true)
    (hy : ¬y.memOf mask = true) : x.sig ≠ y.sig := by
  intro he
  apply hy
  rwa [SigEvent.memOf, ← he]

/-- What the first signalfd with the signal in its mask does with the event. -/
theorem deliver_eq_some {fds : List ℕ} {e : SigEvent} {n : Note}
    (h : s.deliver fds e b = some (n, s')) : ∃ id ∈ fds, e.memOf (s.fdMask id) = true ∧
      (n, s') = if b then (.toFd id (s.fdMask id) e,
        { s with pipe := Function.update s.pipe id (s.pipe id ++ [e]) }) else (.lost id e, s) := by
  obtain ⟨id, hid, he⟩ := Option.map_eq_some_iff.mp h
  exact ⟨id, mem_of_find?_eq_some hid,
    List.find?_some (p := fun id => e.memOf (s.fdMask id)) hid, he.symm⟩

theorem pipe_append (pipe : ℕ → List SigEvent) {id : ℕ} {e : SigEvent} {n : Note}
    (hw : ∀ i, n.written? i = if id = i then some e else none) (hr : ∀ i, n.read? i = none)
    (i : ℕ) : pipe i ++ [n].filterMap (written? i) =
      [n].filterMap (read? i) ++ Function.update pipe id (pipe id ++ [e]) i := by
  by_cases hi : id = i
  · subst hi
    simp [hw, hr]
  · simp [hw, hr, hi, Function.update_of_ne (Ne.symm hi)]

theorem booked_scanOne {blocked : U64} {left : ℕ} {fds : Option (List ℕ)}
    {deferred rest : List SigEvent} {e : SigEvent} (hpc : s.pc = .scan blocked left fds deferred)
    (hq : s.queue = e :: rest) (hd : s.Deferring) (ho : s.Orderly (.go b order))
    (h : s.scanOne blocked left fds deferred b order e rest = some (es, s')) :
    Booked s es s' ∧ s'.Deferring := by
  have hdef : ∀ x ∈ deferred, x.memOf blocked = true := by
    simpa only [State.Deferring, hpc] using hd
  have hheld : s.held = deferred ++ (e :: rest) := by rw [held, hpc, hq]
  unfold scanOne at h
  split at h
  · rename_i hblk
    cases fds with
    | none =>
      dsimp only at h
      rw [Option.ite_none_right_eq_some] at h
      obtain ⟨-, he⟩ := h
      cases he
      exact ⟨.silent (by rw [hheld, ← hq]; rfl) rfl, hdef⟩
    | some fds =>
      simp only [State.Orderly, hpc, hq, List.head?_cons, Option.mem_some_iff, forall_eq'] at ho
      dsimp only at h
      cases hdel : ({ s with queue := rest } : State).deliver fds e b with
      | none =>
        rw [hdel] at h
        cases h
        refine ⟨.silent (by rw [hheld]; simp [held, goto]) rfl, fun x hx => ?_⟩
        rcases mem_append.mp hx with hx | hx
        · exact hdef x hx
        · rwa [mem_singleton.mp hx]
      | some p =>
        obtain ⟨n, s₁⟩ := p
        rw [hdel] at h
        cases h
        obtain ⟨id, hid, hmem, hres⟩ := deliver_eq_some hdel
        obtain ⟨rfl, hsig⟩ := ho ⟨id, hid, hmem⟩
        obtain ⟨rfl, rfl⟩ := Prod.mk.inj (hres.trans (if_pos rfl))
        refine ⟨⟨fun k => ?_, fun id' => ?_, ?_⟩, hdef⟩
        · change ofSig k (s.held ++ []) = ofSig k (e :: (deferred ++ rest))
          rw [append_nil, hheld, ofSig_pull hsig]
        · exact pipe_append s.pipe (fun _ => rfl) (fun _ => rfl) id'
        · intro id' mask e' he
          simp only [mem_singleton, toFd.injEq] at he
          obtain ⟨-, rfl, rfl⟩ := he
          exact hmem
  · rename_i hfree
    cases h
    have hsig (x) (hx : x ∈ deferred) : x.sig ≠ e.sig := SigEvent.sig_ne_of_memOf (hdef x hx) hfree
    refine ⟨⟨fun k => ?_, fun _ => append_nil _, by simp⟩, trivial⟩
    change ofSig k (s.held ++ []) = ofSig k (e :: (deferred ++ rest))
    rw [append_nil, hheld, ofSig_pull hsig]

theorem booked_putBack {chosen : Option SigEvent} {deferred : List SigEvent}
    (hpc : s.pc = .scanned chosen deferred) (ho : s.Orderly (.go b order)) :
    Booked s [] (s.putBack chosen deferred) := by
  simp only [State.Orderly, hpc] at ho
  have hpipe : (s.putBack chosen deferred).pipe = s.pipe := by
    unfold putBack
    dsimp only
    split <;> rfl
  have hheld : (s.putBack chosen deferred).held = chosen.toList ++ (s.queue ++ deferred) := by
    unfold putBack
    dsimp only
    split <;> cases chosen <;> rfl
  refine ⟨fun k => ?_, fun id => ?_, by simp⟩
  · have hcomm := ofSig_comm (k := k) ho
    have hs : s.held = chosen.toList ++ (deferred ++ s.queue) := by rw [held, hpc]
    simp only [filterMap_nil, append_nil, nil_append, hheld, hs, ofSig_append, hcomm]
  · rw [hpipe]
    exact append_nil _

/-- `fate` and what follows it. -/
theorem booked_act {e : SigEvent} {a : Action} (hpc : s.pc = .act e a) :
    Booked s [.fate e (fate e a)] (s.actOn e a) := by
  have hpipe : (s.actOn e a).pipe = s.pipe := by
    unfold actOn
    split <;> rfl
  have hheld : (s.actOn e a).held = s.queue := by
    unfold actOn
    split <;> rfl
  refine ⟨fun k => ?_, fun id => ?_, by simp⟩
  · have hs : s.held = e :: s.queue := by rw [held, hpc]
    rw [hheld, hs]
    exact congrArg (ofSig k) (append_nil _)
  · rw [hpipe]
    exact append_nil _

/-- The places at which the owner holds nothing but the queue. -/
def Pc.idle : Pc → Bool
  | .scan .. | .scanned .. | .act .. => false
  | _ => true

theorem held_of_idle (h : s.pc.idle = true) : s.held = s.queue := by
  unfold held
  split <;> simp_all [Pc.idle]

/-- A step of the owner between such places that leaves queue and pipes. -/
theorem Booked.idle (h : s.pc.idle = true) (h' : s'.pc.idle = true) (hq : s'.queue = s.queue)
    (hp : s'.pipe = s.pipe) (hes : ∀ n ∈ es, ∃ w rc, n = .waited w rc ∨ n = .returned w rc) :
    Booked s es s' := by
  have hnone {f : Note → Option SigEvent} (hf : ∀ w rc, f (.waited w rc) = none ∧
      f (.returned w rc) = none) : es.filterMap f = [] := by
    refine filterMap_eq_nil_iff.mpr fun n hn => ?_
    obtain ⟨w, rc, rfl | rfl⟩ := hes n hn
    · exact (hf w rc).1
    · exact (hf w rc).2
  refine .still (by rw [held_of_idle h, held_of_idle h', hq]) hp (hnone fun _ _ => ⟨rfl, rfl⟩)
    (hnone fun _ _ => ⟨rfl, rfl⟩) (fun _ => hnone fun _ _ => ⟨rfl, rfl⟩)
    (fun _ => hnone fun _ _ => ⟨rfl, rfl⟩) fun id mask e he => ?_
  obtain ⟨w, rc, h | h⟩ := hes _ he <;> cases h

theorem deferring_of_idle (h : s.pc.idle = true) : s.Deferring := by
  unfold State.Deferring
  split <;> simp_all [Pc.idle]

theorem notes_afterWait (w : Waiter) (mask : U64) (rc : Process.Futex.Rc) :
    (afterWait w mask rc).2.idle = true ∧
      ∀ n ∈ (afterWait w mask rc).1, ∃ w rc, n = .waited w rc ∨ n = .returned w rc := by
  cases w with
  | exec =>
    unfold afterWait
    dsimp only
    split <;> exact ⟨rfl, by simp⟩
  | _ => exact ⟨rfl, by simp [afterWait]⟩

/-- Outside `handle_signals` the owner shows nothing but its waits. -/
theorem Advances.idle {f : Flags} {pc : Pc} (h : Advances s b es f pc) : s.pc.idle = true ∧
    pc.idle = true ∧ ∀ n ∈ es, ∃ w rc, n = .waited w rc ∨ n = .returned w rc := by
  cases h with
  | unblock hpc => exact ⟨by rw [hpc]; rfl, notes_afterWait _ _ _⟩
  | _ => exact ⟨by simp only [*, Pc.idle], rfl, by simp⟩

theorem Goes.booked (h : Goes s b order es s') (hd : s.Deferring)
    (ho : s.Orderly (.go b order)) : Booked s es s' ∧ s'.Deferring := by
  cases h with
  | enter hpc hl => exact ⟨.silent (by simp only [held, hpc]; rfl) rfl,
    by simp [State.Deferring]⟩
  | one hpc hq h => exact booked_scanOne hpc hq hd ho h
  | stop hpc => exact ⟨.silent (by simp only [held, hpc]; rfl) rfl, trivial⟩
  | @back chosen deferred hpc => exact ⟨booked_putBack hpc ho, by cases chosen <;> exact trivial⟩
  | @act e a hpc =>
    refine ⟨booked_act hpc, ?_⟩
    unfold actOn
    split <;> exact trivial
  | advance h =>
    obtain ⟨hi, hi', hes⟩ := h.idle
    exact ⟨.idle hi hi' rfl rfl hes, deferring_of_idle hi'⟩

theorem Begins.idle {mask : U64} {pc : Pc} (h : Begins s a mask pc) : pc.idle = true := by
  cases h <;> rfl

/-- What comes to the end of the queue comes to the end of what is held. -/
theorem held_push (s : State) (e : SigEvent) (l : Option Holder) :
    ({ s with queue := s.queue ++ [e], lock := l } : State).held = s.held ++ [e] := by
  unfold held
  dsimp only
  split <;> simp

theorem booked_of_step (h : s.step a = some (es, s')) (hd : s.Deferring) (ho : s.Orderly a) :
    Booked s es s' ∧ s'.Deferring := by
  cases steps_of_step h with
  | go hg => exact hg.booked hd ho
  | start hpc hb =>
    exact ⟨.idle (by rw [hpc]; rfl) hb.idle rfl rfl (by simp), deferring_of_idle hb.idle⟩
  | push he hl =>
    refine ⟨⟨fun k => ?_, fun _ => append_nil _, by simp⟩, hd⟩
    rw [held_push]
    rfl
  | publish hl => exact ⟨.silent rfl rfl, hd⟩
  | aside ha hp =>
    refine ⟨.silent ?_ hp, ?_⟩
    · unfold held
      rw [ha.pc, ha.queue]
    · unfold State.Deferring
      rwa [ha.pc]
  | woken => exact ⟨.still rfl rfl rfl rfl (fun _ => rfl) (fun _ => rfl) (by simp), hd⟩
  | @fromOther id e =>
    exact ⟨⟨fun k => congrArg (ofSig k) (append_nil _),
      pipe_append s.pipe (fun _ => rfl) fun _ => rfl, by simp⟩, hd⟩
  | @read id e rest hp =>
    refine ⟨⟨fun k => congrArg (ofSig k) (append_nil _), fun i => ?_, by simp⟩, hd⟩
    by_cases hi : id = i
    · subst hi
      simp [written?, read?, hp]
    · simp [written?, read?, hi, Function.update_of_ne (Ne.symm hi)]

theorem Booked.trans {s'' : State} {es' : List Note} (h : Booked s es s')
    (h' : Booked s' es' s'') : Booked s (es ++ es') s'' := by
  refine ⟨fun k => ?_, fun id => ?_, fun id mask e he => ?_⟩
  · have h₁ := h.events k
    have h₂ := h'.events k
    simp only [ofSig_append, filterMap_append] at h₁ h₂ ⊢
    rw [← append_assoc, h₁, append_assoc, h₂, append_assoc]
  · rw [filterMap_append, filterMap_append, ← append_assoc, h.pipes id,
      append_assoc, h'.pipes id, append_assoc]
  · exact (mem_append.mp he).elim (h.masks id mask e) (h'.masks id mask e)

end

/-- A step that keeps the order. -/
def OrderlyStep (s : State) (es : List Note) (s' : State) : Prop :=
  ∃ a, s.step a = some (es, s') ∧ s.Orderly a

theorem booked_of_run {s s' : State} {l : List (List Note)} (h : Run OrderlyStep s l s')
    (hd : s.Deferring) : Booked s l.flatten s' ∧ s'.Deferring := by
  induction h with
  | nil => exact ⟨.silent rfl rfl, hd⟩
  | snoc _ hs ih =>
    obtain ⟨a, hstep, ho⟩ := hs
    obtain ⟨hb, hd'⟩ := booked_of_step hstep ih.2 ho
    rw [flatten_append, flatten_singleton]
    exact ⟨ih.1.trans hb, hd'⟩

/-- For every signal number, the events that have been accepted are those that were taken, each
once and in this order, and then those still held. What was taken for a signalfd has its mask, and
is read from it or still in its pipe. -/
theorem conserved_of_run {sigmask : U64} {action : ℕ → Action} {fds : List ℕ}
    {fdMask : ℕ → U64} {pipe : ℕ → List SigEvent} {l : List (List Note)} {s : State}
    (h : Run OrderlyStep (.init sigmask action fds fdMask pipe) l s) :
    (∀ k, ofSig k (l.flatten.filterMap accepted?) =
      ofSig k (l.flatten.filterMap taken?) ++ ofSig k s.held) ∧
    (∀ id, pipe id ++ l.flatten.filterMap (written? id) =
      l.flatten.filterMap (read? id) ++ s.pipe id) ∧
    ∀ id mask e, toFd id mask e ∈ l.flatten → e.memOf mask = true := by
  obtain ⟨hb, -⟩ := booked_of_run h trivial
  exact ⟨fun k => (hb.events k).trans ofSig_append, hb.pipes, hb.masks⟩

instance (s : State) (a : Act) : Decidable (s.Orderly a) := by
  unfold State.Orderly
  split
  · split <;> infer_instance
  · infer_instance

/-- `SIGUSR1` is blocked; of three events the second is delivered, and after `SIGUSR1` has been
unblocked the other two. The two events of `SIGUSR1` have the value 2 before the value 1. -/
def reordering : List Act :=
  sending (usr1 1) ++ sending (usr2 0) ++ sending (usr1 2) ++ handling 6 true [] ++
    [.sigprocmask .setmask 0, .go true [], .go true []] ++ handling 4 true [] ++ handling 4 true []

/-- A signalfd for `SIGUSR1` whose pipe is full. -/
def overflowing : List Act :=
  .signalfd 3 0x200 :: (sending (usr1 1) ++ handling 5 false [3])

theorem usr1_reordered_and_lost :
    (∃ l s, Run Step (catching 0x200) l s ∧
      l.flatten.filterMap accepted? = [usr1 1, usr2 0, usr1 2] ∧
      l.flatten.filterMap taken? = [usr2 0, usr1 2, usr1 1]) ∧
    ∃ l s, Run Step (catching 0x200) l s ∧ l.flatten.filterMap accepted? = [usr1 1] ∧
      l.flatten.filterMap taken? = [] ∧ s.held = [] ∧ s.pipe 3 = [] := by
  constructor
  · obtain ⟨l, s, hrun, hx⟩ := exists_run (s := catching 0x200) reordering
      (fun x => (x.1.flatten.filterMap accepted?, x.1.flatten.filterMap taken?))
      (x := ([usr1 1, usr2 0, usr1 2], [usr2 0, usr1 2, usr1 1])) (by decide +kernel)
    obtain ⟨ha, ht⟩ := Prod.mk.inj hx
    exact ⟨l, s, hrun, ha, ht⟩
  · obtain ⟨l, s, hrun, hx⟩ := exists_run (s := catching 0x200) overflowing
      (fun x => (x.1.flatten.filterMap accepted?, x.1.flatten.filterMap taken?,
        x.2.held, x.2.pipe 3)) (x := ([usr1 1], [], [], [])) (by decide +kernel)
    simp only [Prod.mk.injEq] at hx
    exact ⟨l, s, hrun, hx⟩

/-- Two events of `SIGUSR1`, the first of them blocked at first. -/
def inOrder : List Act :=
  sending (usr1 1) ++ handling 5 true [] ++ sending (usr1 2) ++
    [.sigprocmask .setmask 0, .go true [], .go true []] ++ handling 4 true [] ++ handling 4 true []

theorem conserved_of_run_inOrder : ∃ l s, Run OrderlyStep (catching 0x200) l s ∧
    l.flatten.filterMap taken? = [usr1 1, usr1 2] ∧
    (∀ k, ofSig k (l.flatten.filterMap accepted?) =
      ofSig k (l.flatten.filterMap taken?) ++ ofSig k s.held) := by
  obtain ⟨l, s, hrun, hx⟩ := Run.exists_of_play (f := step) (C := State.Orderly)
    (s := catching 0x200) inOrder (fun x => x.1.flatten.filterMap taken?)
    (x := [usr1 1, usr1 2]) (by decide +kernel)
  exact ⟨l, s, hrun, hx, (conserved_of_run hrun).1⟩

end Bpfvm.Signal
