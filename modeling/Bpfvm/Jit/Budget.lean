import Bpfvm.Jit.Execution

/-!
# The instruction budget

Interpreted instructions are counted one by one; compiled code adds the size of the loop body at
the head of a loop and nothing anywhere else. Between two loop heads the index only grows, so that
a stay in compiled code executes at most the size of its fragment beyond what it has counted. Every
entry from `step` and every compiled call starts a new stay; it is paid for if the fragment is a
loop from its first instruction to its last.
-/
namespace Bpfvm.Jit
open Memory Cpu List

/-- Guest instructions that the step executes. -/
def Event.executed : Event → ℕ
  | .interpreted | .native | .call | .execve _ _ => 1
  | _ => 0

def executed (l : List Event) : ℕ := (l.map Event.executed).sum

/-! ## What the places refer to -/

variable {f : Fragment} {id i : ℕ} {before pc : U64} {calls : List Waiting}

variable {c : Config} {j : JitCompiler}

namespace JitCompiler

/-- The caches name fragments of the arena. -/
structure Valid (j : JitCompiler) : Prop where
  nonempty : ∀ f ∈ j.code, 0 < f.limit
  entries : ∀ g id, j.entries g = some (.compiled id) → id < j.code.length
  hot : ∀ k id, (j.pcCache k).2 = some id → id < j.code.length
  calls : ∀ id site callee, j.callCache id site = some callee → callee < j.code.length
  ics : ∀ id site e, j.icSlots id site = some e → e.2 < j.code.length

/-- Instruction `i` of fragment `id` is compiled. -/
def Has (j : JitCompiler) (id i : ℕ) : Prop :=
  ∃ f, j.code[id]? = some f ∧ f.found.reachable i = true

variable {j' : JitCompiler}

theorem valid_empty : empty.Valid := by
  constructor <;> simp [empty]

theorem Valid.quiet (h : j.Valid) (hq : j.Quiet j') : j'.Valid := by
  refine ⟨hq.code ▸ h.nonempty, fun g id hid => ?_, fun k id hid => ?_, ?_, ?_⟩
  · rw [hq.code]
    exact h.entries g id ((hq.entries g id).mp hid)
  · rw [hq.code]
    rcases hq.hot k with he | he
    · exact h.hot k id (he ▸ hid)
    · exact h.entries _ id ((he id).mp hid)
  · rw [hq.code, hq.callCache]
    exact h.calls
  · rw [hq.code, hq.icSlots]
    exact h.ics

theorem Valid.install (h : j.Valid) (hf : 0 < f.limit) : (j.install f).Valid := by
  have hlen : (j.install f).code.length = j.code.length + 1 := by simp [install_code]
  refine ⟨fun g hg => ?_, fun g id hid => ?_, fun k id hid => ?_, fun id site callee hc => ?_,
    fun id site e he => ?_⟩
  · rw [install_code] at hg
    rcases mem_append.mp hg with hg | hg
    · exact h.nonempty g hg
    · rw [mem_singleton.mp hg]
      exact hf
  · rcases install_entries hid with ⟨-, rfl⟩ | ⟨-, he⟩
    · omega
    · have := h.entries g id he
      omega
  · rcases install_pcCache j f k with he | he
    · rw [he] at hid
      cases hid
      omega
    · have := h.hot k id (he ▸ hid)
      omega
  · have := h.calls id site callee (install_callCache hc).2
    omega
  · have := h.ics id site e (install_icSlots he).2
    omega

theorem Valid.clear (h : j.Valid) : j.clear.Valid :=
  ⟨h.nonempty, by simp [JitCompiler.clear], by simp [JitCompiler.clear], h.calls, h.ics⟩

theorem Valid.resolve {g : U64} (h : j.Valid) (hr : j.resolveCall g = some id) :
    id < j.code.length :=
  h.entries g id (resolveCall_eq_some.mp hr)

theorem Valid.setCall (h : j.Valid) {site callee : ℕ} (hc : callee < j.code.length) :
    (j.setCall id site callee).Valid := by
  refine ⟨h.nonempty, h.entries, h.hot, fun id' site' callee' hc' => ?_, h.ics⟩
  rcases setCall_callCache hc' with ⟨-, rfl⟩ | hc'
  · exact hc
  · exact h.calls id' site' callee' hc'

theorem Valid.fillIc (h : j.Valid) (id site : ℕ) (target : U64) :
    (j.fillIc id site target).Valid := by
  obtain ⟨hcode, hent, hpc, hcall⟩ := fillIc_frame j id site target
  refine ⟨hcode ▸ h.nonempty, by rw [hcode, hent]; exact h.entries,
    by rw [hcode, hpc]; exact h.hot, by rw [hcode, hcall]; exact h.calls, fun id' site' e he => ?_⟩
  rw [hcode]
  rcases fillIc_icSlots he with ⟨-, he⟩ | he
  · exact h.entries _ _ he
  · exact h.ics id' site' e he

/-- A fragment can be entered. -/
theorem Valid.has_zero (h : j.Valid) (hid : id < j.code.length) : j.Has id 0 :=
  ⟨j.code[id], List.getElem?_eq_getElem hid,
    reachable_zero (h.nonempty _ (getElem_mem hid))⟩

theorem List.getElem?_of_prefix (hp : j.code <+: j'.code) (hf : j.code[id]? = some f) :
    j'.code[id]? = some f := by
  obtain ⟨rest, hr⟩ := hp
  rw [← hr, List.getElem?_append_left (List.getElem?_eq_some_iff.mp hf).1]
  exact hf

theorem Has.mono (h : j.Has id i) (hp : j.code <+: j'.code) : j'.Has id i := by
  obtain ⟨f, hf, hi⟩ := h
  exact ⟨f, List.getElem?_of_prefix hp hf, hi⟩

theorem Valid.compile {finalized : Bool} {s s' : State} {gpa : U64} {o : Option ℕ}
    (h : j.Valid) (hc : j.compile c finalized s gpa = (o, j', s')) :
    j'.Valid ∧ j.code <+: j'.code ∧ ∀ id, o = some id → id < j'.code.length := by
  rcases compile_cases hc with ⟨-, hq, ho⟩ | ⟨f, p, j₁, hq, -, -, hpos, -, rfl, rfl, -⟩
  · refine ⟨h.quiet hq, by rw [hq.code], fun id hid => ?_⟩
    rw [hq.code]
    rcases ho id hid with he | he
    · exact h.hot _ id (by rw [he])
    · exact h.entries _ id he
  · refine ⟨(h.quiet hq).install hpos, ?_, fun id hid => ?_⟩
    · rw [install_code, hq.code]
      exact prefix_append _ _
    · cases hid
      simp [install_code, hq.code]

end JitCompiler

/-- The budget is not used up, or the vm is on its way to stop. -/
def Under (c : Config) (s : Core) : Prop :=
  s.count < c.insnLimit ∨ s.place = .ended ∨
    s.flags &&& vmBudgetExceeded ≠ 0 ∧ ∃ calls before, s.place = .exiting calls before

structure Inv (c : Config) (s : Core) : Prop where
  valid : s.jit.Valid
  placed : s.place.All s.jit.Has
  under : Under c s

section
variable {s s' : Core} {e : Event}

theorem all_behind (hid : j.code[id]? = some f) (hcalls : ∀ w ∈ calls, j.Has w.id w.site) :
    (f.behind calls before id i).All j.Has := by
  unfold Fragment.behind
  cases hto : f.fallsTo i with
  | none => trivial
  | some k => exact ⟨⟨f, hid, (Fragment.fallsTo_spec hto).2⟩, hcalls⟩

/-- The arena only grows. -/
theorem CoreStep.code_prefix (hv : s.jit.Valid) (h : CoreStep c s e s') :
    s.jit.code <+: s'.jit.code := by
  cases h with
  | cold _ hc | enter _ hc | refuse _ _ hc => exact (hv.compile hc).2.1
  | callIndirectOut => rw [(JitCompiler.fillIc_frame ..).1]
  | _ => exact prefix_rfl

theorem CoreStep.valid (hv : s.jit.Valid) (h : CoreStep c s e s') : s'.jit.Valid := by
  cases h with
  | cold _ hc | enter _ hc | refuse _ _ hc => exact (hv.compile hc).1
  | interpExec | exec | execOn => exact hv.clear
  | resolve _ _ _ _ _ hres => exact hv.setCall (hv.resolve hres)
  | callIndirectOut => exact hv.fillIc _ _ _
  | _ => exact hv

theorem CoreStep.placed (hv : s.jit.Valid) (hplaced : s.place.All s.jit.Has)
    (hs : CoreStep c s e s') : s'.place.All s'.jit.Has := by
  have hvalid := hs.valid hv
  have hprefix := hs.code_prefix hv
  have hall : s.place.All s'.jit.Has := hplaced.mono fun id i hi => hi.mono hprefix
  cases hs with
  | memory | otherExec | flag => exact hall
  | enter hp hc => exact ⟨hvalid.has_zero ((hv.compile hc).2.2 _ rfl), by simp⟩
  | refuse pc hp hc => exact fun w hw => by cases hw
  | unpolled hp | poll hp | pollSlow hp =>
    rw [hp] at hall
    exact hall
  | pollOut pc hp | pollBudget hp | deopt hp | abort hp | syscallOut pc hp | exec hp | callOut hp
  | callIndirectOut hp | callFails hp | exit pc hp | bottom hp =>
    rw [hp] at hall
    exact hall.2
  | next pc hp hid | execOn hp hid =>
    rw [hp] at hall
    exact all_behind hid hall.2
  | jump hp hid ht h0 hlt =>
    rw [hp] at hall
    obtain ⟨⟨f, hf, hi⟩, hcalls⟩ := hall
    cases hid.symm.trans hf
    exact ⟨⟨_, hid, Fragment.reachable_jump hi ht h0 hlt⟩, hcalls⟩
  | call hp hid hk hf hslot =>
    rw [hp] at hall
    refine ⟨hvalid.has_zero (hv.calls _ _ _ hslot), fun w hw => ?_⟩
    rcases mem_cons.mp hw with rfl | hw
    · exact hall.1
    · exact hall.2 w hw
  | resolve hp hid hk hf hslot hres =>
    rw [hp] at hall
    refine ⟨hvalid.has_zero (hv.resolve hres), fun w hw => ?_⟩
    rcases mem_cons.mp hw with rfl | hw
    · exact hall.1
    · exact hall.2 w hw
  | callIndirect hp hid hk hf hslot =>
    rw [hp] at hall
    refine ⟨hvalid.has_zero (hv.ics _ _ _ hslot), fun w hw => ?_⟩
    rcases mem_cons.mp hw with rfl | hw
    · exact hall.1
    · exact hall.2 w hw
  | cont hp hid =>
    rw [hp] at hall
    exact all_behind hid fun w hw => hall w (mem_cons_of_mem _ hw)
  | contOut hp =>
    rw [hp] at hall
    exact fun w hw => hall w (mem_cons_of_mem _ hw)
  | back hp hf | backSafepoint pc hp hf =>
    dsimp only
    split_ifs <;> trivial
  | _ => trivial

/-- In a place where instructions are executed the budget is not used up. -/
theorem Under.count_lt (h : Under c s) (h' : ∀ calls before, s.place ≠ .exiting calls before)
    (hend : s.place ≠ .ended) : s.count < c.insnLimit := by
  rcases h with h | h | ⟨-, calls, before, h⟩
  · exact h
  · exact absurd h hend
  · exact absurd h (h' calls before)

theorem Under.native {polled : Bool} (h : Under c s)
    (hp : s.place = .native calls before id i polled) : s.count < c.insnLimit :=
  h.count_lt (by simp [hp]) (by simp [hp])

theorem Under.exiting (h : Under c s) (hp : s.place = .exiting calls before)
    (hb : s.flags &&& vmBudgetExceeded = 0) : s.count < c.insnLimit := by
  rcases h with h | h | ⟨h, -⟩
  · exact h
  · simp [hp] at h
  · exact absurd hb h

theorem or_budget (f : U32) : (f ||| vmBudgetExceeded) &&& vmBudgetExceeded ≠ 0 := by
  intro h
  have hbit := congrArg (fun x => x.getLsbD 4) h
  simp [vmBudgetExceeded] at hbit

theorem budget_of_own {f g : U32} (h : f &&& ownFlags = g &&& ownFlags) :
    f &&& vmBudgetExceeded = g &&& vmBudgetExceeded := by
  have h' := congrArg (· &&& vmBudgetExceeded) h
  simp only [BitVec.and_assoc, show ownFlags &&& vmBudgetExceeded = vmBudgetExceeded from by decide]
    at h'
  exact h'

theorem budget_of_passed {f g : U32} (h : Passed f g) : f &&& vmBudgetExceeded = 0 := by
  have h' := congrArg (· &&& vmBudgetExceeded) h.1
  simp only [BitVec.and_assoc, show sticky &&& vmBudgetExceeded = vmBudgetExceeded from by decide]
    at h'
  exact h'

theorem CoreStep.under (h : Inv c s) (hl : 0 < c.insnLimit) (hs : CoreStep c s e s') :
    Under c s' := by
  have hu := h.under
  cases hs with
  | memory | otherExec => exact hu
  | flag hf =>
    rcases hu with hu | hu | ⟨hb, hu⟩
    · exact .inl hu
    · exact .inr (.inl hu)
    · exact .inr (.inr ⟨by rwa [budget_of_own hf], hu⟩)
  | attached hp | cold hp | enter hp | refuse pc hp =>
    exact .inl (hu.count_lt (by simp [hp]) (by simp [hp]))
  | interpret pc hp hn | interpExec hp hn => exact .inl (by dsimp only; omega)
  | interpStop | interpBudget | backStop => exact .inr (.inl rfl)
  | poll hp hid ht hn | pollSlow hp hid ht hn | pollOut pc hp hid ht hn =>
    exact .inl (by dsimp only; omega)
  | pollBudget hp hid ht _ hn =>
    exact .inr (.inr ⟨or_budget s.flags, _, _, rfl⟩)
  | unpolled hp | deopt hp | abort hp | syscallOut pc hp | exec hp | callOut hp
  | callIndirectOut hp | callFails hp | exit pc hp | bottom hp | next pc hp | execOn hp | jump hp
  | call hp | resolve hp | callIndirect hp =>
    exact .inl (hu.native hp)
  | cont hp hid hf hpc | back hp hf => exact .inl (hu.exiting hp (by simp [hf]))
  | contOut hp hid hout =>
    rcases hu with hu | hu | ⟨hb, -⟩
    · exact .inl hu
    · simp [hp] at hu
    · exact .inr (.inr ⟨hb, _, _, rfl⟩)
  | backSafepoint pc hp hf => exact .inl (hu.exiting hp (budget_of_passed hf))

/-! ## The charge of a step -/

/-- The first instruction is the head of a loop that is as long as the fragment. -/
def Fragment.Loops (f : Fragment) : Prop :=
  f.found.backEdgeTarget 0 = true ∧ f.size ≤ f.found.loopBodySize 0

/-- A step that enters compiled code, by `step` or by a compiled call, enters a loop. -/
structure LoopedStep (c : Config) (s : Core) (e : Event) (s' : Core) : Prop where
  step : CoreStep c s e s'
  loops : ∀ calls before id i polled, (e = .enter ∨ e = .call) →
    s'.place = .native calls before id i polled → ∃ f, s'.jit.code[id]? = some f ∧ f.Loops

def JitCompiler.sizeOf (j : JitCompiler) (id : ℕ) : ℕ := j.code[id]?.elim 0 Fragment.size

/-- What a waiting caller has not executed of its fragment. -/
def reserved (j : JitCompiler) (calls : List Waiting) : ℕ :=
  (calls.map fun w => j.sizeOf w.id - (w.site + 1)).sum

/-- What the stays in compiled code have not executed. -/
def credit (j : JitCompiler) : Place → ℕ
  | .native calls _ id i _ => reserved j calls + (j.sizeOf id - i)
  | .exiting calls _ => reserved j calls
  | _ => 0

/-- What the next safepoint is going to count. -/
def pending (j : JitCompiler) : Place → ℕ
  | .native _ _ id i false =>
    match j.code[id]? with
    | some f => if f.found.backEdgeTarget i then f.found.loopBodySize i else 0
    | none => 0
  | _ => 0

@[simp] theorem credit_native (j : JitCompiler) (calls : List Waiting) (before : U64)
    (id i : ℕ) (polled : Bool) :
    credit j (.native calls before id i polled) = reserved j calls + (j.sizeOf id - i) := rfl

@[simp] theorem pending_polled (j : JitCompiler) (calls : List Waiting) (before : U64)
    (id i : ℕ) : pending j (.native calls before id i true) = 0 := rfl

@[simp] theorem reserved_clear (j : JitCompiler) (calls : List Waiting) :
    reserved j.clear calls = reserved j calls := rfl

@[simp] theorem JitCompiler.sizeOf_setCall (j : JitCompiler) (id site callee k : ℕ) :
    (j.setCall id site callee).sizeOf k = j.sizeOf k := rfl

theorem JitCompiler.sizeOf_eq (hid : j.code[id]? = some f) : j.sizeOf id = f.size := by
  simp [JitCompiler.sizeOf, hid]

theorem JitCompiler.Has.lt (h : j.Has id i) : i < j.sizeOf id := by
  obtain ⟨f, hf, hi⟩ := h
  rw [JitCompiler.sizeOf_eq hf]
  exact reachable_lt hi

theorem credit_behind (j : JitCompiler) (f : Fragment) (calls : List Waiting) (before : U64)
    (id i : ℕ) :
    credit j (f.behind calls before id i) ≤ reserved j calls + (j.sizeOf id - (i + 1)) := by
  unfold Fragment.behind
  cases hto : f.fallsTo i with
  | none => exact Nat.zero_le _
  | some k =>
    have hk := (Fragment.fallsTo_spec hto).1
    change reserved j calls + (j.sizeOf id - k) ≤ _
    omega

theorem pending_of_target (hid : j.code[id]? = some f) (ht : f.found.backEdgeTarget i = true) :
    pending j (.native calls before id i false) = f.found.loopBodySize i := by
  simp [pending, hid, ht]

/-- Code that is a loop is paid for at its first instruction. -/
theorem LoopedStep.paid (hs : LoopedStep c s e s') (he : e = .enter ∨ e = .call)
    (hp : s'.place = .native calls before id 0 false) :
    s'.jit.sizeOf id ≤ pending s'.jit s'.place := by
  obtain ⟨f, hid, ht, hsize⟩ := hs.loops _ _ _ _ _ he hp
  rw [hp, pending_of_target hid ht, JitCompiler.sizeOf_eq hid]
  exact hsize

/-- What a step executes is paid by the count or by what was left of the fragment. -/
theorem step_cost (h : Inv c s) (hl : 0 < c.insnLimit) (hstep : LoopedStep c s e s') :
    e.executed + credit s'.jit s'.place + s.count + pending s.jit s.place ≤
      credit s.jit s.place + s'.count + pending s'.jit s'.place := by
  have hplaced := h.placed
  cases hstep.step with
  | memory | otherExec | flag => simp [Event.executed]
  | attached hp | cold hp | refuse pc hp | backStop hp =>
    simp [hp, credit, pending, reserved, Event.executed]
  | enter hp =>
    have hsize := hstep.paid (.inl rfl) rfl
    simp only [hp, credit, reserved, Event.executed, map_nil, sum_nil]
    simp only [pending] at hsize ⊢
    omega
  | interpret pc hp | interpStop pc hp | interpExec hp | interpBudget hp =>
    simp only [hp, credit, pending, Event.executed]
    omega
  | unpolled hp hid ht => simp [hp, credit, pending, Event.executed, hid, ht]
  | poll hp hid ht | pollSlow hp hid ht | pollOut pc hp hid ht | pollBudget hp hid ht =>
    rw [hp, pending_of_target hid ht]
    simp only [credit, pending, Event.executed, charged, hl.ne', ne_eq, not_false_eq_true, if_true]
    omega
  | @next calls before id i f pc hp | @execOn calls before id i f _ _ hp =>
    rw [hp] at hplaced
    have hi := hplaced.1.lt
    have hb := credit_behind s.jit f calls before id i
    simp only [hp, credit_native, pending_polled, Event.executed]
    change 1 + credit s.jit _ + _ + 0 ≤ _
    omega
  | @jump calls before id i t f hp hid ht h0 hlt =>
    rw [hp] at hplaced
    have hi := hplaced.1.lt
    simp only [hp, credit, Event.executed]
    by_cases hback : t ≤ i
    · -- The loop head is charged with the way up to this jump.
      obtain ⟨f', hf', hr⟩ := hplaced.1
      cases hid.symm.trans hf'
      obtain ⟨htarget, hbody⟩ := loopBodySize_of_jump hr ht h0 hback
      rw [pending_of_target hid htarget]
      change i - t.toNat + 1 ≤ f.found.loopBodySize t.toNat at hbody
      simp only [pending]
      omega
    · simp only [pending]
      omega
  | callIndirectOut hp =>
    rw [hp] at hplaced
    have hi := hplaced.1.lt
    simp only [hp, credit, pending, Event.executed, reserved, JitCompiler.sizeOf,
      (JitCompiler.fillIc_frame ..).1] at hi ⊢
    omega
  | deopt hp | abort hp | syscallOut pc hp | exec hp | callOut hp | callFails hp | exit pc hp
  | bottom hp =>
    rw [hp] at hplaced
    have hi := hplaced.1.lt
    simp only [hp, credit, pending, Event.executed, reserved_clear]
    omega
  | call hp | resolve hp | callIndirect hp =>
    rw [hp] at hplaced
    have hi := hplaced.1.lt
    have hsize := hstep.paid (.inr rfl) rfl
    dsimp only at hsize
    simp only [hp, credit_native, Event.executed, reserved, map_cons, sum_cons,
      pending_polled, JitCompiler.sizeOf_setCall] at hsize ⊢
    omega
  | @cont w calls before f hp =>
    have hb := credit_behind s.jit f calls before w.id w.site
    have hw : credit s.jit (.exiting (w :: calls) before) =
      s.jit.sizeOf w.id - (w.site + 1) + reserved s.jit calls := rfl
    rw [hp, hw]
    simp only [pending, Event.executed]
    omega
  | @contOut w calls before f hp =>
    have hw : credit s.jit (.exiting (w :: calls) before) =
      s.jit.sizeOf w.id - (w.site + 1) + reserved s.jit calls := rfl
    rw [hp, hw]
    simp only [credit, pending, Event.executed]
    omega
  | back hp hf | backSafepoint pc hp hf =>
    simp only [hp, Event.executed]
    split_ifs <;> simp [credit, pending]

/-- Instructions are executed by the interpreter or behind a safepoint of compiled code. -/
theorem CoreStep.executing (hs : CoreStep c s e s') (he : e.executed ≠ 0) :
    e.executed = 1 ∧ (s.place = .interp ∧ (c.insnLimit = 0 ∨ s.count + 1 < c.insnLimit) ∨
      ∃ calls before id i, s.place = .native calls before id i true) := by
  cases hs with
  | interpret pc hp hn | interpStop pc hp hn | interpExec hp hn => exact ⟨rfl, .inl ⟨hp, hn⟩⟩
  | next pc hp | jump hp | deopt hp | syscallOut pc hp | exec hp | execOn hp | call hp | resolve hp
  | callOut hp | callIndirect hp | callIndirectOut hp | callFails hp | exit pc hp | bottom hp =>
    exact ⟨rfl, .inr ⟨_, _, _, _, hp⟩⟩
  | _ => exact absurd rfl he

/-- The executed instructions of a run are paid for. -/
def Paid (c : Config) (s : Core) (l : List Event) : Prop :=
  executed l + credit s.jit s.place ≤ s.count + pending s.jit s.place ∧ executed l ≤ c.insnLimit

theorem Paid.step {l : List Event} (h : Inv c s) (hp : Paid c s l) (hl : 0 < c.insnLimit)
    (hs : LoopedStep c s e s') : Paid c s' (l ++ [e]) := by
  have hcost := step_cost h hl hs
  obtain ⟨hpaid, hbound⟩ := hp
  have hex : executed (l ++ [e]) = executed l + e.executed := by simp [executed]
  rw [Paid, hex]
  refine ⟨by omega, ?_⟩
  by_cases he : e.executed = 0
  · omega
  obtain ⟨he, ⟨hint, hn⟩ | ⟨calls, before, id, i, hnat⟩⟩ := hs.step.executing he
  · rw [hint] at hpaid
    simp only [credit, pending] at hpaid
    omega
  · have hplaced := h.placed
    have hcount := h.under.native hnat
    rw [hnat] at hpaid hplaced
    have hi := hplaced.1.lt
    simp only [credit_native, pending_polled] at hpaid
    omega

end

theorem inv_start (hl : 0 < c.insnLimit) (mem : State) (pc : U64) :
    Inv c (Core.start mem pc) :=
  ⟨JitCompiler.valid_empty, trivial, .inl hl⟩

/-- While compiled code is only entered where it is a loop, no more instructions are executed than
the budget allows. -/
theorem executed_le_budget {c : Config} {mem : State} {pc : U64} {l : List Event} {s : Core}
    (hl : 0 < c.insnLimit) (h : Run (LoopedStep c) (Core.start mem pc) l s) :
    executed l ≤ c.insnLimit := by
  have hpaid : Inv c s ∧ Paid c s l := by
    generalize hs₀ : Core.start mem pc = s₀ at h
    induction h with
    | nil =>
      subst hs₀
      exact ⟨inv_start hl mem pc, by simp [Paid, executed, credit, Core.start]⟩
    | snoc _ hs ih =>
      obtain ⟨hinv, hpaid⟩ := ih
      exact ⟨⟨hs.step.valid hinv.valid, hs.step.placed hinv.valid hinv.placed,
        hs.step.under hinv hl⟩, hpaid.step hinv hl hs⟩
  exact hpaid.2.2

def ja (off : BitVec 16) : BpfInsn := ⟨0x05, 0, 0, off, 0⟩

def eager : Config := ⟨0, true, 0, 10, fun _ => true⟩

/-- An instruction that jumps to itself. -/
def spin : List BootSeg := [⟨0x1000, 0x1000, pfR ||| pfX, fun k => (ja (-1)).bytes.getD k 0⟩]

def spinCode : Option ℕ × JitCompiler × State :=
  JitCompiler.empty.compile eager true (State.boot spin) 0x1000

/-- In the loop, with the count `n`. -/
def spinning (n : ℕ) : Core :=
  ⟨spinCode.2.2, spinCode.2.1, 0x1000, 0, n, .native [] 0x1000 0 0 false⟩

theorem spinCode_code : ∃ f, spinCode.2.1.code[0]? = some f ∧ f.Loops ∧
    f.found.loopBodySize 0 = 1 ∧ 0 < f.size ∧ jumpTarget (f.insn 0) 0 = some 0 := by
  have h : spinCode.2.1.code[0]?.any (fun f => f.found.backEdgeTarget 0 &&
      f.found.loopBodySize 0 == 1 && f.size == 1 && jumpTarget (f.insn 0) 0 == some 0) = true := by
    decide +kernel
  generalize spinCode.2.1.code[0]? = o at h ⊢
  cases o with
  | none => cases h
  | some f =>
    simp only [Option.any_some, Bool.and_eq_true, beq_iff_eq] at h
    obtain ⟨⟨⟨ht, hbody⟩, hsize⟩, hjump⟩ := h
    exact ⟨f, rfl, ⟨ht, by omega⟩, hbody, by omega, hjump⟩

/-- One turn of the loop counts one instruction and executes one. -/
theorem run_spinning {n : ℕ} (hn : n + 1 < 10) :
    Run (LoopedStep eager) (spinning n) [.other, .native] (spinning (n + 1)) := by
  obtain ⟨f, hf, hloops, hbody, hsize, hjump⟩ := spinCode_code
  have hcount : charged eager f 0 n = n + 1 := by simp [charged, eager, hbody]
  have hpoll := CoreStep.poll (c := eager) (s := spinning n) rfl hf hloops.1
    (.inr (by rw [spinning, hcount]; exact hn)) rfl
  have hback := CoreStep.jump (c := eager)
    (s := { spinning n with
      count := charged eager f 0 n, place := .native [] 0x1000 0 0 true })
    rfl hf hjump le_rfl (by exact_mod_cast hsize)
  rw [hcount] at hback
  rw [show (spinning n).count = n from rfl, hcount] at hpoll
  exact .cons ⟨hpoll, by simp⟩ (.single ⟨hback, by simp⟩)

theorem executed_le_budget_spin : ∃ l, Run (LoopedStep eager)
    (Core.start (State.boot spin) 0x1000) l (spinning 2) ∧ executed l = 2 ∧ executed l ≤ 10 := by
  have henter : LoopedStep eager (Core.start (State.boot spin) 0x1000) .enter (spinning 0) := by
    refine ⟨.enter rfl (compiled_eq (by decide +kernel)) passed_zero, ?_⟩
    intro calls before id i polled _ hp
    cases hp
    obtain ⟨f, hf, hloops, -⟩ := spinCode_code
    exact ⟨f, hf, hloops⟩
  have hrun := Run.cons henter ((run_spinning (by omega)).append (run_spinning (by omega)))
  exact ⟨_, hrun, by decide, executed_le_budget (c := eager) (by decide) hrun⟩

/-! ## Jumping to and fro between two segments -/

/-- `step` enters a fragment whose first instruction jumps out of its segment. -/
theorem run_hop {j₀ : JitCompiler} {mem₀ mem : State} {n : ℕ} {t : ℤ}
    (hc : j₀.compile c true mem₀ pc = (some id, j, mem)) (hid : j.code[id]? = some f)
    (hhead : f.found.backEdgeTarget 0 = false) (ht : jumpTarget (f.insn 0) 0 = some t)
    (hout : t < 0 ∨ f.size ≤ t) (hne : f.addr t ≠ pc) :
    Run (CoreStep c) ⟨mem₀, j₀, pc, 0, n, .loop⟩ [.enter, .other, .native, .other]
      ⟨mem, j, f.addr t, 0, n, .loop⟩ := by
  exact .cons (.enter rfl hc passed_zero) (.cons (.unpolled rfl hid hhead)
    (.cons (.deopt rfl hid ht hout) (.single (.back_loop hne))))

theorem compile_of_hot {finalized : Bool} {s : State} {gpa : U64} {o : Option ℕ}
    (he : c.enabled = true) (h : j.pcCache (pcSlot gpa) = (gpa, o)) :
    j.compile c finalized s gpa = (o, j, s) := by
  simp [JitCompiler.compile, he, h]

/-- Two segments side by side: the last slot of the first jumps to the second, the first slot of
the second jumps back. -/
def seesaw : List BootSeg :=
  [⟨0x1000, 0x1000, pfR ||| pfX, fun k => if k < 0xff8 then 0 else (ja 0).bytes.getD (k - 0xff8) 0⟩,
    ⟨0x2000, 0x1000, pfR ||| pfX, fun k => (ja (-2)).bytes.getD k 0⟩]

def seesawLow : Option ℕ × JitCompiler × State :=
  JitCompiler.empty.compile eager true (State.boot seesaw) 0x1ff8

def seesawBoth : Option ℕ × JitCompiler × State :=
  seesawLow.2.1.compile eager true seesawLow.2.2 0x2000

/-- A fragment that is one jump to index `t`, at the address `a`. -/
def hops (o : Option Fragment) (t : ℤ) (a : U64) : Bool :=
  match o with
  | none => false
  | some f => f.size == 1 && !f.found.backEdgeTarget 0 && jumpTarget (f.insn 0) 0 == some t &&
      f.addr t == a

theorem of_hops {o : Option Fragment} {t : ℤ} {a : U64} (h : hops o t a = true) :
    ∃ f, o = some f ∧ f.size = 1 ∧ f.found.backEdgeTarget 0 = false ∧
      jumpTarget (f.insn 0) 0 = some t ∧ f.addr t = a := by
  cases o with
  | none => cases h
  | some f => exact ⟨f, rfl, by simpa [hops, and_assoc] using h⟩

theorem seesawLow_fst : seesawLow.1 = some 0 := by decide +kernel
theorem seesawBoth_fst : seesawBoth.1 = some 1 := by decide +kernel
theorem hops_low : hops seesawLow.2.1.code[0]? 1 0x2000 = true := by decide +kernel
theorem hops_both : hops seesawBoth.2.1.code[0]? 1 0x2000 = true ∧
    hops seesawBoth.2.1.code[1]? (-1) 0x1ff8 = true := by decide +kernel

/-- The vm with both fragments compiled, about to enter the lower one. -/
def seesawAt (pc : U64) : Core := ⟨seesawBoth.2.2, seesawBoth.2.1, pc, 0, 0, .loop⟩

def hop : List Event := [.enter, .other, .native, .other]

theorem run_firstHops :
    Run (CoreStep eager) (Core.start (State.boot seesaw) 0x1ff8) (hop ++ hop)
      (seesawAt 0x1ff8) := by
  obtain ⟨f, hf, hsize, hhead, ht, ha⟩ := of_hops hops_low
  obtain ⟨g, hg, hgsize, hghead, hgt, hga⟩ := of_hops hops_both.2
  have hlow := run_hop (n := 0) (compiled_eq seesawLow_fst) hf hhead ht (.inr (by omega))
    (by rw [ha]; decide)
  have hhigh := run_hop (n := 0) (compiled_eq seesawBoth_fst) hg hghead hgt (.inl (by omega))
    (by rw [hga]; decide)
  rw [ha] at hlow
  rw [hga] at hhigh
  exact hlow.append hhigh

theorem seesaw_hot : seesawBoth.2.1.pcCache (pcSlot 0x1ff8) = (0x1ff8, some 0) ∧
    seesawBoth.2.1.pcCache (pcSlot 0x2000) = (0x2000, some 1) := by decide +kernel

theorem compile_seesaw (h : seesawBoth.2.1.pcCache (pcSlot pc) = (pc, some id)) :
    seesawBoth.2.1.compile eager true seesawBoth.2.2 pc =
      (some id, seesawBoth.2.1, seesawBoth.2.2) :=
  compile_of_hot rfl h

theorem run_hops : Run (CoreStep eager) (seesawAt 0x1ff8) (hop ++ hop) (seesawAt 0x1ff8) := by
  obtain ⟨f, hf, hsize, hhead, ht, ha⟩ := of_hops hops_both.1
  obtain ⟨g, hg, hgsize, hghead, hgt, hga⟩ := of_hops hops_both.2
  have hlow := run_hop (n := 0) (compile_seesaw seesaw_hot.1) hf hhead ht (.inr (by omega))
    (by rw [ha]; decide)
  have hhigh := run_hop (n := 0) (compile_seesaw seesaw_hot.2) hg hghead hgt (.inl (by omega))
    (by rw [hga]; decide)
  rw [ha] at hlow
  rw [hga] at hhigh
  exact hlow.append hhigh

theorem run_seesaw (n : ℕ) : ∃ l, Run (CoreStep eager) (Core.start (State.boot seesaw) 0x1ff8) l
    (seesawAt 0x1ff8) ∧ n ≤ executed l := by
  induction n with
  | zero => exact ⟨_, run_firstHops, Nat.zero_le _⟩
  | succ n ih =>
    obtain ⟨l, hl, hn⟩ := ih
    refine ⟨_, hl.append run_hops, ?_⟩
    have hhop : executed (l ++ (hop ++ hop)) = executed l + 2 := by
      simp [executed, hop, Event.executed]
    omega

theorem size_seesaw : ∀ f ∈ seesawBoth.2.1.code, f.size ≤ 1 := by
  have h : seesawBoth.2.1.code.all (fun f => decide (f.size ≤ 1)) = true := by decide +kernel
  simpa using h

/-- Compiled code of fragments of one instruction that runs for ever and counts nothing. -/
theorem budget_never_reached : ∃ (c : Config) (mem : State) (pc : U64), 0 < c.insnLimit ∧
    ∀ n, ∃ l s, Run (CoreStep c) (Core.start mem pc) l s ∧ (∀ f ∈ s.jit.code, f.size ≤ 1) ∧
      n ≤ executed l ∧ s.count = 0 ∧ s.flags = 0 ∧ s.place = .loop := by
  refine ⟨eager, State.boot seesaw, 0x1ff8, by decide, fun n => ?_⟩
  obtain ⟨l, hl, hn⟩ := run_seesaw n
  exact ⟨l, seesawAt 0x1ff8, hl, size_seesaw, hn, rfl, rfl, rfl⟩

end Bpfvm.Jit
