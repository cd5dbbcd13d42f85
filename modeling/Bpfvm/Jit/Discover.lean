import Bpfvm.Cpu.Compiled

/-!
# The instructions of a compiled fragment

`discover_reachable` marks the instructions that control can reach from the entry of a fragment
inside its segment, and records the jumps that go backwards. What the loop heads are charged with
is derived from these jumps.
-/
namespace Bpfvm.Jit
open Memory Cpu Function List

/-- `BPF_LD | BPF_IMM | BPF_DW`, the instruction of two slots. -/
def isImm64 (insn : BpfInsn) : Bool :=
  insn.code &&& 0x07 == 0 && insn.code &&& 0xe0 == 0 && insn.code &&& 0x18 == 0x18

/-- Where the instruction at index `i` jumps to, as an index that may lie outside the fragment. -/
def jumpTarget (insn : BpfInsn) (i : ℕ) : Option ℤ :=
  match (insn.code &&& 0x07).toNat with
  | 5 =>
    match (insn.code &&& 0xf0).toNat with
    | 0x80 | 0x90 => none
    | _ => some (i + 1 + insn.off.toInt)
  | 6 => some (i + 1 + if insn.code &&& 0xf0 = 0 then insn.imm.toInt else insn.off.toInt)
  | _ => none

/-- The index behind the instruction, if control can go on there. -/
def fallThrough (insn : BpfInsn) (i : ℕ) : Option ℕ :=
  match (insn.code &&& 0x07).toNat with
  | 0 => some (if isImm64 insn then i + 2 else i + 1)
  | 5 =>
    match (insn.code &&& 0xf0).toNat with
    | 0x00 | 0x90 => none
    | _ => some (i + 1)
  | 6 => if insn.code &&& 0xf0 = 0 then none else some (i + 1)
  | _ => some (i + 1)

/-! ## The search -/

/-- The variables of `discover_reachable`; `q` is the stack of marked indices to visit. -/
structure Scan where
  reachable : ℕ → Bool
  maxReached : ℕ
  backEdges : List (ℕ × ℕ)
  q : List ℕ

namespace Scan

def enqueue (limit : ℕ) (s : Scan) (idx : ℤ) : Scan :=
  if 0 ≤ idx ∧ idx < limit ∧ s.reachable idx.toNat = false then
    { s with
      reachable := update s.reachable idx.toNat true
      maxReached := max s.maxReached idx.toNat
      q := idx.toNat :: s.q }
  else s

def jump (limit : ℕ) (s : Scan) (i : ℕ) (target : ℤ) : Scan :=
  if 0 ≤ target ∧ target < limit then
    (if target ≤ i then { s with backEdges := (target.toNat, i) :: s.backEdges } else s).enqueue
      limit target
  else s

/-- The body of the loop, for the index `i` that was popped. -/
def visit (start : ℕ → BpfInsn) (limit : ℕ) (s : Scan) (i : ℕ) : Scan :=
  let s := match jumpTarget (start i) i with
    | some target => s.jump limit i target
    | none => s
  match fallThrough (start i) i with
  | some next => s.enqueue limit next
  | none => s

def loop (start : ℕ → BpfInsn) (limit : ℕ) : ℕ → Scan → Scan
  | 0, s => s
  | fuel + 1, s =>
    match s.q with
    | [] => s
    | i :: q => loop start limit fuel (({ s with q := q } : Scan).visit start limit i)

def init : Scan := ⟨fun _ => false, 0, [], []⟩

end Scan

/-- What `discover_reachable` returns. -/
structure Discovered where
  reachable : ℕ → Bool
  backEdgeTarget : ℕ → Bool
  loopBodySize : ℕ → ℕ
  funcSize : ℕ

/-- The last loop: the second slot of a reachable `lddw` is no instruction. -/
def clearSlots (start : ℕ → BpfInsn) (reachable : ℕ → Bool) : ℕ → Bool
  | 0 => reachable 0
  | i + 1 => reachable (i + 1) && !(clearSlots start reachable i && isImm64 (start i))

/-- The largest of the bodies whose head is `target`. -/
def bodySize : List (ℕ × ℕ) → ℕ → ℕ
  | [], _ => 1
  | e :: backEdges, target =>
    if e.1 = target then max (bodySize backEdges target) (e.2 - target + 1)
    else bodySize backEdges target

/-- The search. Every index is pushed at most once, so that the loop ends within `seg_limit`
turns. -/
def scanned (start : ℕ → BpfInsn) (segLimit : ℕ) : Scan :=
  Scan.loop start segLimit segLimit (Scan.init.enqueue segLimit 0)

/-- `discover_reachable`. -/
def discoverReachable (start : ℕ → BpfInsn) (segLimit : ℕ) : Discovered :=
  if segLimit = 0 then ⟨fun _ => false, fun _ => false, fun _ => 1, 0⟩
  else
    let s := scanned start segLimit
    let maxReached :=
      if s.maxReached < segLimit - 1 ∧ isImm64 (start s.maxReached) then s.maxReached + 1
      else s.maxReached
    ⟨fun i => decide (i < maxReached + 1) && clearSlots start s.reachable i,
      fun t => s.backEdges.any fun e => e.1 == t, bodySize s.backEdges, maxReached + 1⟩

/-! ## What the search finds -/

/-- The successors of `i` that lie in the segment are marked, and its jumps back are recorded. -/
structure Scan.Visited (start : ℕ → BpfInsn) (limit : ℕ) (s : Scan) (i : ℕ) : Prop where
  next : ∀ n, fallThrough (start i) i = some n → n < limit → s.reachable n = true
  target : ∀ t, jumpTarget (start i) i = some t → 0 ≤ t → t < limit → s.reachable t.toNat = true
  backEdge : ∀ t, jumpTarget (start i) i = some t → 0 ≤ t → t ≤ i → (t.toNat, i) ∈ s.backEdges

/-- The marks of `s` and its recorded jumps are among those of `s'`. -/
structure Scan.Le (s s' : Scan) : Prop where
  reachable : ∀ i, s.reachable i = true → s'.reachable i = true
  backEdges : ∀ e ∈ s.backEdges, e ∈ s'.backEdges
  q : ∀ i ∈ s.q, i ∈ s'.q
  fresh : ∀ i, s'.reachable i = true → s.reachable i = true ∨ i ∈ s'.q

/-- The indices without a mark. -/
def Scan.unmarked (limit : ℕ) (s : Scan) : ℕ :=
  (range limit).countP fun i => !s.reachable i

/-- Control can come from the first instruction of the segment to that at index `i`. -/
inductive Reaches (start : ℕ → BpfInsn) (limit : ℕ) : ℕ → Prop where
  | entry (hl : 0 < limit) : Reaches start limit 0
  | next {i n : ℕ} (h : Reaches start limit i) (hn : fallThrough (start i) i = some n)
      (hlt : n < limit) : Reaches start limit n
  | jump {i : ℕ} {t : ℤ} (h : Reaches start limit i) (ht : jumpTarget (start i) i = some t)
      (h0 : 0 ≤ t) (hlt : t < limit) : Reaches start limit t.toNat

variable {i n : ℕ} {t : ℤ}

namespace Scan
variable {start : ℕ → BpfInsn} {limit : ℕ} {s s' s'' : Scan}

theorem Le.refl (s : Scan) : s.Le s := ⟨fun _ h => h, fun _ h => h, fun _ h => h, fun _ h => .inl h⟩

theorem Le.trans (h : s.Le s') (h' : s'.Le s'') : s.Le s'' := by
  refine ⟨fun i hi => h'.reachable i (h.reachable i hi),
    fun e he => h'.backEdges e (h.backEdges e he), fun i hi => h'.q i (h.q i hi), fun i hi => ?_⟩
  rcases h'.fresh i hi with hi | hi
  · rcases h.fresh i hi with hi | hi
    · exact .inl hi
    · exact .inr (h'.q i hi)
  · exact .inr hi

theorem Visited.mono (h : s.Visited start limit i) (hle : s.Le s') : s'.Visited start limit i :=
  ⟨fun n hn hl => hle.reachable _ (h.next n hn hl),
    fun t ht h0 hl => hle.reachable _ (h.target t ht h0 hl),
    fun t ht h0 hl => hle.backEdges _ (h.backEdge t ht h0 hl)⟩

theorem enqueue_le (limit : ℕ) (s : Scan) (idx : ℤ) : s.Le (s.enqueue limit idx) := by
  unfold enqueue
  split_ifs
  · refine ⟨fun i hi => ?_, fun _ he => he, fun i hi => mem_cons_of_mem _ hi,
      fun i hi => ?_⟩
    · by_cases he : i = idx.toNat
      · rw [he]
        exact update_self ..
      · exact (update_of_ne he ..).trans hi
    · by_cases he : i = idx.toNat
      · exact .inr (he ▸ mem_cons_self)
      · exact .inl ((update_of_ne he ..).symm.trans hi)
  · exact .refl s

theorem enqueue_reachable (s : Scan) {idx : ℤ} (h0 : 0 ≤ idx) (hl : idx < limit) :
    (s.enqueue limit idx).reachable idx.toNat = true := by
  unfold enqueue
  split_ifs with h
  · exact update_self ..
  · simpa [h0, hl] using h

theorem jump_le (limit : ℕ) (s : Scan) (i : ℕ) (target : ℤ) : s.Le (s.jump limit i target) := by
  unfold jump
  split_ifs
  · refine Le.trans ?_ (enqueue_le limit _ _)
    exact ⟨fun _ h => h, fun _ h => mem_cons_of_mem _ h, fun _ h => h, fun _ h => .inl h⟩
  · exact enqueue_le limit _ _
  · exact .refl s

/-- What a jump and the push of an index keep, a visit keeps. -/
theorem visit_keeps {P : Scan → Prop} {limit : ℕ} (h : P s)
    (hjump : ∀ t, jumpTarget (start i) i = some t → P (s.jump limit i t))
    (hpush : ∀ s, P s → ∀ n : ℕ, fallThrough (start i) i = some n → P (s.enqueue limit n)) :
    P (s.visit start limit i) := by
  unfold visit
  cases ht : jumpTarget (start i) i with
  | none =>
    cases hn : fallThrough (start i) i with
    | none => exact h
    | some n => exact hpush s h n hn
  | some t =>
    cases hn : fallThrough (start i) i with
    | none => exact hjump t ht
    | some n => exact hpush _ (hjump t ht) n hn

theorem visit_le (start : ℕ → BpfInsn) (limit : ℕ) (s : Scan) (i : ℕ) :
    s.Le (s.visit start limit i) :=
  visit_keeps (P := s.Le) (.refl s) (fun t _ => jump_le limit s i t)
    fun _ h n _ => h.trans (enqueue_le limit _ n)

theorem jump_reachable (s : Scan) (i : ℕ) (h0 : 0 ≤ t) (hl : t < limit) :
    (s.jump limit i t).reachable t.toNat = true := by
  unfold jump
  rw [if_pos ⟨h0, hl⟩]
  exact enqueue_reachable _ h0 hl

theorem jump_backEdges (s : Scan) (h0 : 0 ≤ t) (hi : t ≤ i) (hl : i < limit) :
    (t.toNat, i) ∈ (s.jump limit i t).backEdges := by
  unfold jump
  rw [if_pos ⟨h0, by omega⟩, if_pos hi]
  exact (enqueue_le limit _ _).backEdges _ mem_cons_self

theorem visit_visited (s : Scan) (hi : i < limit) :
    (s.visit start limit i).Visited start limit i := by
  have hnext : ∀ s : Scan, s.Le (match fallThrough (start i) i with
      | some next => s.enqueue limit next
      | none => s) := by
    intro s
    cases fallThrough (start i) i with
    | none => exact .refl s
    | some n => exact enqueue_le limit s n
  refine ⟨fun n hn hl => ?_, fun t ht h0 hl => ?_, fun t ht h0 hle => ?_⟩
  · unfold visit
    rw [hn]
    exact enqueue_reachable _ (by omega) (by omega)
  · unfold visit
    rw [ht]
    exact (hnext _).reachable _ (jump_reachable s i h0 hl)
  · unfold visit
    rw [ht]
    exact (hnext _).backEdges _ (jump_backEdges s h0 hle hi)

/-! ### Bounds -/

/-- The marks lie in the segment and not behind `max_reached`. -/
structure Bounded (limit : ℕ) (s : Scan) : Prop where
  mark : ∀ i, s.reachable i = true → i < limit ∧ i ≤ s.maxReached
  pending : ∀ i ∈ s.q, s.reachable i = true
  max : s.reachable s.maxReached = true

theorem Bounded.enqueue (h : s.Bounded limit) (idx : ℤ) : (s.enqueue limit idx).Bounded limit := by
  have hle := enqueue_le limit s idx
  unfold Scan.enqueue at hle ⊢
  split_ifs at hle ⊢ with hc
  · obtain ⟨hmark, hq, hmax⟩ := h
    refine ⟨fun i hi => ?_, fun i hi => ?_, ?_⟩
    · by_cases he : i = idx.toNat
      · exact ⟨by omega, by rw [he]; exact le_max_right _ _⟩
      · have hi' := hmark i ((update_of_ne he ..).symm.trans hi)
        exact ⟨hi'.1, hi'.2.trans (le_max_left _ _)⟩
    · rcases mem_cons.mp hi with rfl | hi
      · exact update_self ..
      · exact hle.reachable i (hq i hi)
    · by_cases he : s.maxReached ≤ idx.toNat
      · rw [max_eq_right he]
        exact update_self ..
      · rw [max_eq_left (by omega)]
        exact hle.reachable _ hmax
  · exact h

theorem Bounded.jump (h : s.Bounded limit) (i : ℕ) (t : ℤ) : (s.jump limit i t).Bounded limit := by
  unfold Scan.jump
  split_ifs
  · have hedge : Bounded limit { s with backEdges := (t.toNat, i) :: s.backEdges } :=
      ⟨h.mark, h.pending, h.max⟩
    exact hedge.enqueue t
  · exact h.enqueue t
  · exact h

theorem Bounded.visit (h : s.Bounded limit) (i : ℕ) : (s.visit start limit i).Bounded limit :=
  visit_keeps h (fun t _ => h.jump i t) fun _ h n _ => h.enqueue n

/-! ### Termination -/

/-- What is left to do: the indices that can still be pushed and those on the stack. -/
def work (limit : ℕ) (s : Scan) : ℕ := s.unmarked limit + s.q.length

theorem countP_update {p : ℕ → Bool} {k : ℕ} (hk : p k = false) (hn : k < n) :
    (range n).countP (fun i => !update p k true i) + 1 =
      (range n).countP fun i => !p i := by
  induction n with
  | zero => omega
  | succ n ih =>
    rw [range_succ, countP_append, countP_append]
    by_cases he : k = n
    · subst he
      have hsame : (range k).countP (fun i => !update p k true i) =
          (range k).countP fun i => !p i := by
        refine countP_congr fun i hi => ?_
        rw [update_of_ne (mem_range.mp hi).ne]
      simp [hsame, hk]
    · have hlast : update p k true n = p n := update_of_ne (Ne.symm he) ..
      have := ih (by omega)
      simp only [countP_singleton, hlast]
      omega

theorem work_enqueue (s : Scan) (idx : ℤ) : (s.enqueue limit idx).work limit = s.work limit := by
  unfold enqueue
  split_ifs with h
  · have hc := countP_update h.2.2 (n := limit) (by omega)
    simp only [work, unmarked, length_cons] at hc ⊢
    omega
  · rfl

theorem work_jump (s : Scan) (i : ℕ) (t : ℤ) : (s.jump limit i t).work limit = s.work limit := by
  unfold jump
  split_ifs
  · exact work_enqueue _ _
  · exact work_enqueue _ _
  · rfl

theorem work_visit (s : Scan) (i : ℕ) : (s.visit start limit i).work limit = s.work limit :=
  visit_keeps (P := (·.work limit = s.work limit)) rfl (fun t _ => work_jump s i t)
    fun _ h n _ => (work_enqueue _ n).trans h

/-! ### The loop -/

/-- What is marked has been visited or waits on the stack. -/
structure Ok (start : ℕ → BpfInsn) (limit : ℕ) (s : Scan) : Prop where
  bounded : s.Bounded limit
  visited : ∀ i, s.reachable i = true → i ∈ s.q ∨ s.Visited start limit i

theorem Ok.turn {q : List ℕ} (h : s.Ok start limit) (hq : s.q = i :: q) :
    (({ s with q := q } : Scan).visit start limit i).Ok start limit := by
  have hi : i < limit := (h.bounded.mark i (h.bounded.pending i (by simp [hq]))).1
  have hpop : Bounded limit { s with q := q } :=
    ⟨h.bounded.mark, fun j hj => h.bounded.pending j (by simp [hq, hj]), h.bounded.max⟩
  have hle := visit_le start limit { s with q := q } i
  refine ⟨hpop.visit i, fun j hj => ?_⟩
  rcases hle.fresh j hj with hj | hj
  · rcases h.visited j hj with hjq | hv
    · rw [hq] at hjq
      rcases mem_cons.mp hjq with rfl | hjq
      · exact .inr (visit_visited _ hi)
      · exact .inl (hle.q j hjq)
    · have hv' : Visited start limit { s with q := q } j := ⟨hv.next, hv.target, hv.backEdge⟩
      exact .inr (hv'.mono hle)
  · exact .inl hj

theorem loop_spec (fuel : ℕ) (h : s.Ok start limit) (hw : s.work limit ≤ fuel) :
    (loop start limit fuel s).Ok start limit ∧ (loop start limit fuel s).q = [] := by
  induction fuel generalizing s with
  | zero =>
    have hq : s.q = [] := by
      unfold work at hw
      exact length_eq_zero_iff.mp (by omega)
    exact ⟨h, hq⟩
  | succ fuel ih =>
    unfold loop
    cases hq : s.q with
    | nil => exact ⟨h, hq⟩
    | cons i q =>
      refine ih (h.turn hq) ?_
      rw [work_visit]
      simp only [work, unmarked, hq, length_cons] at hw ⊢
      omega

theorem loop_reachable (fuel : ℕ) (h : s.reachable i = true) :
    (loop start limit fuel s).reachable i = true := by
  induction fuel generalizing s with
  | zero => exact h
  | succ fuel ih =>
    unfold loop
    cases s.q with
    | nil => exact h
    | cons j q => exact ih ((visit_le start limit { s with q := q } j).reachable i h)

theorem init_ok (hl : 0 < limit) : (init.enqueue limit 0).Ok start limit := by
  have he : init.enqueue limit 0 =
      ⟨update (fun _ => false) 0 true, 0, [], [0]⟩ := by
    simp [enqueue, init, hl]
  have h0 : ∀ i, update (fun _ : ℕ => false) 0 true i = true → i = 0 := by
    intro i hi
    by_contra hne
    simp [update_of_ne hne] at hi
  rw [he]
  exact ⟨⟨fun i hi => by simp [h0 i hi, hl], by simp, by simp⟩,
    fun i hi => .inl (by simp [h0 i hi])⟩

/-- Only what control can come to is marked. -/
def Sound (start : ℕ → BpfInsn) (limit : ℕ) (s : Scan) : Prop :=
  ∀ i, s.reachable i = true → Reaches start limit i

theorem Sound.enqueue (h : s.Sound start limit)
    (ht : 0 ≤ t → t < limit → Reaches start limit t.toNat) :
    (s.enqueue limit t).Sound start limit := by
  intro i hi
  unfold Scan.enqueue at hi
  split_ifs at hi with hc
  · by_cases he : i = t.toNat
    · exact he ▸ ht hc.1 hc.2.1
    · exact h i ((update_of_ne he ..).symm.trans hi)
  · exact h i hi

theorem Sound.jump (h : s.Sound start limit) (hi : Reaches start limit i)
    (ht : jumpTarget (start i) i = some t) : (s.jump limit i t).Sound start limit := by
  unfold Scan.jump
  split_ifs
  · have hedge : Sound start limit { s with backEdges := (t.toNat, i) :: s.backEdges } := h
    exact hedge.enqueue (hi.jump ht)
  · exact h.enqueue (hi.jump ht)
  · exact h

theorem Sound.visit (h : s.Sound start limit) (hi : Reaches start limit i) :
    (s.visit start limit i).Sound start limit :=
  visit_keeps h (fun _ => h.jump hi) fun _ hs n hn =>
    hs.enqueue fun _ hlt => hi.next hn (by omega)

theorem Sound.loop (fuel : ℕ) (h : s.Sound start limit) (hok : s.Ok start limit) :
    (loop start limit fuel s).Sound start limit := by
  induction fuel generalizing s with
  | zero => exact h
  | succ fuel ih =>
    unfold Scan.loop
    cases hq : s.q with
    | nil => exact h
    | cons i q =>
      have hpop : Sound start limit { s with q := q } := h
      exact ih (hpop.visit (h i (hok.bounded.pending i (by simp [hq])))) (hok.turn hq)

theorem work_init : (init.enqueue limit 0).work limit = limit := by
  rw [work_enqueue]
  simp [work, unmarked, init]

end Scan

/-! ## The result -/

theorem le_bodySize {edges : List (ℕ × ℕ)} {t : ℕ} (h : (t, i) ∈ edges) :
    i - t + 1 ≤ bodySize edges t := by
  induction edges with
  | nil => cases h
  | cons e edges ih =>
    unfold bodySize
    rcases mem_cons.mp h with rfl | h
    · rw [if_pos rfl]
      exact le_max_right _ _
    · split_ifs
      · exact (ih h).trans (le_max_left _ _)
      · exact ih h

theorem reachable_of_clearSlots {start : ℕ → BpfInsn} {r : ℕ → Bool}
    (h : clearSlots start r i = true) : r i = true := by
  cases i with
  | zero => exact h
  | succ i =>
    unfold clearSlots at h
    exact (Bool.and_eq_true_iff.mp h).1

section
variable {start : ℕ → BpfInsn} {limit : ℕ}

theorem scanned_spec (start : ℕ → BpfInsn) (hl : 0 < limit) :
    (scanned start limit).Ok start limit ∧ (scanned start limit).q = [] :=
  Scan.loop_spec limit (Scan.init_ok hl) Scan.work_init.le

theorem scanned_visited (hl : 0 < limit) (hi : (scanned start limit).reachable i = true) :
    (scanned start limit).Visited start limit i := by
  obtain ⟨hok, hq⟩ := scanned_spec start hl
  rcases hok.visited i hi with h | h
  · rw [hq] at h
    cases h
  · exact h

theorem scanned_of_reachable (h : (discoverReachable start limit).reachable i = true) :
    0 < limit ∧ (scanned start limit).reachable i = true ∧
      i < (discoverReachable start limit).funcSize := by
  unfold discoverReachable at h ⊢
  by_cases hl : limit = 0
  · rw [if_pos hl] at h
    cases h
  · rw [if_neg hl] at h ⊢
    obtain ⟨hlt, hc⟩ := Bool.and_eq_true_iff.mp h
    exact ⟨Nat.pos_of_ne_zero hl, reachable_of_clearSlots hc, of_decide_eq_true hlt⟩

theorem reachable_lt (h : (discoverReachable start limit).reachable i = true) :
    i < (discoverReachable start limit).funcSize :=
  (scanned_of_reachable h).2.2

theorem reachable_zero (hl : 0 < limit) : (discoverReachable start limit).reachable 0 = true := by
  have h0 : (scanned start limit).reachable 0 = true :=
    Scan.loop_reachable limit (Scan.enqueue_reachable _ le_rfl (by exact_mod_cast hl))
  unfold discoverReachable
  rw [if_neg hl.ne']
  simpa [clearSlots] using h0

theorem reachable_eq (hl : 0 < limit) (hi : i < (discoverReachable start limit).funcSize) :
    (discoverReachable start limit).reachable i =
      clearSlots start (scanned start limit).reachable i := by
  unfold discoverReachable at hi ⊢
  rw [if_neg hl.ne'] at hi ⊢
  exact (congrArg (· && _) (decide_eq_true hi)).trans (Bool.true_and _)

theorem clearSlots_of_reachable (h : (discoverReachable start limit).reachable i = true) :
    clearSlots start (scanned start limit).reachable i = true := by
  obtain ⟨hl, -, hi⟩ := scanned_of_reachable h
  rwa [reachable_eq hl hi] at h

theorem reachable_lt_limit (h : (discoverReachable start limit).reachable i = true) :
    i < limit := by
  obtain ⟨hl, hr, -⟩ := scanned_of_reachable h
  exact ((scanned_spec start hl).1.bounded.mark i hr).1

theorem lt_funcSize (hl : 0 < limit) (hr : (scanned start limit).reachable i = true) :
    i < (discoverReachable start limit).funcSize := by
  have hle := ((scanned_spec start hl).1.bounded.mark i hr).2
  unfold discoverReachable
  rw [if_neg hl.ne']
  dsimp only
  split_ifs <;> omega

/-- The second slot of an `lddw` has no code. -/
theorem not_reachable_slot (h : (discoverReachable start limit).reachable i = true)
    (himm : isImm64 (start i) = true) :
    (discoverReachable start limit).reachable (i + 1) = false := by
  by_contra hslot
  have hclear := clearSlots_of_reachable (Bool.of_not_eq_false hslot)
  simp [clearSlots, clearSlots_of_reachable h, himm] at hclear

theorem scanned_iff : (scanned start limit).reachable i = true ↔ Reaches start limit i := by
  constructor
  · intro h
    by_cases hl : 0 < limit
    · have hinit : Scan.init.Sound start limit := fun _ hi => by cases hi
      exact (hinit.enqueue fun _ _ => .entry hl).loop limit (Scan.init_ok hl) i h
    · obtain rfl : limit = 0 := by omega
      cases h
  · intro h
    induction h with
    | entry hl => exact (scanned_of_reachable (reachable_zero hl)).2.1
    | next _ hn hlt ih => exact (scanned_visited (by omega) ih).next _ hn hlt
    | jump _ ht h0 hlt ih => exact (scanned_visited (by omega) ih).target _ ht h0 hlt

/-- The instructions with code are exactly those that control can come to from the entry inside
the segment, without the second slots of `lddw`s that have code. -/
theorem discoverReachable_iff (start : ℕ → BpfInsn) (limit i : ℕ) :
    (discoverReachable start limit).reachable i = true ↔ Reaches start limit i ∧
      ∀ j, j + 1 = i → isImm64 (start j) = true →
        (discoverReachable start limit).reachable j = false := by
  constructor
  · intro h
    refine ⟨scanned_iff.mp (scanned_of_reachable h).2.1, ?_⟩
    rintro j rfl himm
    by_contra hj
    rw [not_reachable_slot (Bool.of_not_eq_false hj) himm] at h
    cases h
  · rintro ⟨hr, hslot⟩
    have hscan := scanned_iff.mpr hr
    have hl : 0 < limit := by cases hr <;> omega
    have hlt := lt_funcSize hl hscan
    rw [reachable_eq hl hlt]
    cases i with
    | zero => exact hscan
    | succ j =>
      have hj := hslot j rfl
      rw [reachable_eq hl (by omega)] at hj
      cases himm : isImm64 (start j) with
      | false => simp [clearSlots, hscan, himm]
      | true => simp [clearSlots, hscan, hj himm]

theorem fallThrough_eq {insn : BpfInsn} (h : fallThrough insn i = some n) :
    n = if isImm64 insn then i + 2 else i + 1 := by
  have hclass : isImm64 insn = true → (insn.code &&& 0x07).toNat = 0 := by
    intro himm
    have hcode : insn.code &&& 0x07 = 0 := by
      simp only [isImm64, Bool.and_eq_true, beq_iff_eq] at himm
      exact himm.1.1
    rw [hcode]
    rfl
  unfold fallThrough at h
  split at h
  · exact (Option.some.inj h).symm
  all_goals
    rw [if_neg fun himm => by simp_all]
  · split at h
    · cases h
    · cases h
    · exact (Option.some.inj h).symm
  · split_ifs at h
    exact (Option.some.inj h).symm
  · exact (Option.some.inj h).symm

/-- The instruction behind an emitted one is emitted, unless it lies behind the segment. -/
theorem reachable_next (h : (discoverReachable start limit).reachable i = true)
    (hn : fallThrough (start i) i = some n) (hlt : n < limit) :
    (discoverReachable start limit).reachable n = true := by
  obtain ⟨hl, hr, -⟩ := scanned_of_reachable h
  have hrn := (scanned_visited hl hr).next n hn hlt
  have hci := clearSlots_of_reachable h
  rw [reachable_eq hl (lt_funcSize hl hrn)]
  have heq := fallThrough_eq hn
  by_cases himm : isImm64 (start i) = true
  · rw [if_pos himm] at heq
    subst heq
    simp [clearSlots, hrn, hci, himm]
  · rw [if_neg himm] at heq
    subst heq
    simp [clearSlots, hrn, himm]

/-- A jump back leads to a loop head that is charged with the way up to the jump. -/
theorem loopBodySize_of_jump (h : (discoverReachable start limit).reachable i = true)
    (ht : jumpTarget (start i) i = some t) (h0 : 0 ≤ t) (hi : t ≤ i) :
    (discoverReachable start limit).backEdgeTarget t.toNat = true ∧
      i - t.toNat + 1 ≤ (discoverReachable start limit).loopBodySize t.toNat := by
  obtain ⟨hl, hr, -⟩ := scanned_of_reachable h
  have hedge := (scanned_visited hl hr).backEdge t ht h0 hi
  unfold discoverReachable
  rw [if_neg (by omega)]
  exact ⟨any_eq_true.mpr ⟨_, hedge, by simp⟩, le_bodySize hedge⟩

end

end Bpfvm.Jit
