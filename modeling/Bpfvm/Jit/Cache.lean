import Bpfvm.Jit.Discover

/-!
# The code cache

`JitCompiler::compile` with its three caches: the table of entries, the direct-mapped cache of
program counters in front of it, and the counters of code that is not hot yet. Compiled code is a
fragment: the instruction slots as they were read at compile time, from the entry to the end of
the segment. Every call site of a fragment has a slot for the code it calls; nothing but `clear`
forgets code, and no slot is ever emptied.
-/
namespace Bpfvm.Jit
open Memory Cpu Function

/-- The vm, its options, and what the emitter can translate. -/
structure Config where
  vm : ℕ
  enabled : Bool
  threshold : ℕ
  insnLimit : ℕ
  emits : BpfInsn → Bool

/-! ## Fragments -/

/-- Every jump of the fragment that stays inside it leads to an instruction. -/
def patchable (insn : ℕ → BpfInsn) (limit : ℕ) : Bool :=
  let d := discoverReachable insn limit
  (List.range d.funcSize).all fun i => !d.reachable i ||
    match jumpTarget (insn i) i with
    | none => true
    | some t => decide (t < 0) || decide (↑d.funcSize ≤ t) || d.reachable t.toNat

/-- A compiled fragment: the slots from `gpa` on as they were read, `limit` of them in the
segment. -/
structure Fragment where
  gpa : U64
  insn : ℕ → BpfInsn
  limit : ℕ
  patched : patchable insn limit = true

variable {f : Fragment} {site id site' id' : ℕ}

namespace Fragment

def found (f : Fragment) : Discovered := discoverReachable f.insn f.limit

def size (f : Fragment) : ℕ := f.found.funcSize

/-- The guest address of index `i`, which may lie outside the fragment. -/
def addr (f : Fragment) (i : ℤ) : U64 := f.gpa + BitVec.ofInt 64 (i * 8)

/-- The instruction whose code lies behind that of instruction `i`. -/
def fallsTo (f : Fragment) (i : ℕ) : Option ℕ :=
  (List.range f.size).find? fun j => decide (i < j) && f.found.reachable j

/-- The callee of a call at index `i`. -/
def callee (f : Fragment) (i : ℕ) : U64 := f.addr (i + 1 + (f.insn i).imm.toInt)

theorem fallsTo_spec {i j : ℕ} (h : f.fallsTo i = some j) : i < j ∧ f.found.reachable j = true := by
  simpa using List.find?_some h

theorem reachable_jump {i : ℕ} {t : ℤ} (hi : f.found.reachable i = true)
    (ht : jumpTarget (f.insn i) i = some t) (h0 : 0 ≤ t) (hlt : t < f.size) :
    f.found.reachable t.toNat = true := by
  have hp := f.patched
  unfold patchable at hp
  have hi' := List.all_eq_true.mp hp i (List.mem_range.mpr (reachable_lt hi))
  change f.found.reachable i = true at hi
  simp only [ht] at hi'
  have hnot : ¬ t < 0 ∧ ¬ (f.size : ℤ) ≤ t := by omega
  unfold size found at hnot
  unfold found at hi ⊢
  simpa [hi, hnot] using hi'

end Fragment

/-! ## The caches -/

/-- `JitEntry`; the number of a compiled one is its place in the arena. -/
inductive JitEntry where
  | counting
  | failed
  | compiled (id : ℕ)
  deriving DecidableEq, Repr

/-- The arena, `entries_`, `pc_cache_` (with nothing for `failed_sentinel_` and for
a null pointer), `hot_counters_`, and the slots of the call sites of each fragment. -/
structure JitCompiler where
  code : List Fragment
  entries : U64 → Option JitEntry
  pcCache : ℕ → U64 × Option ℕ
  hotCounters : ℕ → U64 × ℕ
  callCache : ℕ → ℕ → Option ℕ
  icSlots : ℕ → ℕ → Option (U64 × ℕ)

def pcCacheSlots : ℕ := 2 ^ 16
def hotCounterSlots : ℕ := 2 ^ 18
def hotCounterProbe : ℕ := 8

def pcSlot (gpa : U64) : ℕ := gpa.toNat / 8 % pcCacheSlots

/-- The search for a counter: the one of `gpa`, an empty one, or the one with the least count of
the window. `best` is the least one seen so far. -/
def pickCounter (counters : ℕ → U64 × ℕ) (gpa : U64) (base : ℕ) :
    ℕ → ℕ × ℕ → ℕ
  | 0, best => best.1
  | left + 1, best =>
    let k := (base + (hotCounterProbe - (left + 1))) % hotCounterSlots
    if (counters k).1 = gpa ∨ (counters k).1 = 0 then k
    else if (counters k).2 < best.2 then pickCounter counters gpa base left (k, (counters k).2)
    else pickCounter counters gpa base left best

/-- `emit_instruction`, as far as it can refuse. -/
def emitInstruction (emits : BpfInsn → Bool) (insn : BpfInsn) : Bool :=
  match (insn.code &&& 0x07).toNat with
  | 1 | 4 | 7 => decide (insn.dstReg.toNat < 10) && emits insn
  | 5 =>
    match (insn.code &&& 0xf0).toNat with
    | 0x00 => true
    | 0x80 => insn.useReg || decide (insn.srcReg.toNat ≤ 2)
    | 0x90 => true
    | _ => emits insn
  | 6 => decide (insn.code &&& 0xf0 = 0) || emits insn
  | _ => emits insn

/-- The first instruction that cannot be compiled. -/
def poison (emits : BpfInsn → Bool) (insn : ℕ → BpfInsn) (limit : ℕ) : Option ℕ :=
  let d := discoverReachable insn limit
  (List.range d.funcSize).find? fun i => d.reachable i &&
    (decide (10 < (insn i).dstReg.toNat) || decide (10 < (insn i).srcReg.toNat) ||
      !emitInstruction emits (insn i))

/-- The slots from `gpa` to the end of the first segment that has it, as an `int`. -/
def segLimit (maps : List Memmap) (gpa : ℕ) : Option ℕ :=
  (maps.find? fun m => decide (m.paddr ≤ gpa) && decide (gpa < m.uend)).map fun m =>
    (BitVec.ofNat 32 ((m.size - (gpa - m.paddr)) / 8)).toInt.toNat

namespace JitCompiler

def empty : JitCompiler :=
  ⟨[], fun _ => none, fun _ => (0, none), fun _ => (0, 0), fun _ _ => none, fun _ _ => none⟩

/-- `clear`. The arena stays, and so do the slots in the code that is still running. -/
def clear (j : JitCompiler) : JitCompiler :=
  { j with
    entries := fun _ => none
    pcCache := fun _ => (0, none)
    hotCounters := fun _ => (0, 0) }

def setEntry (j : JitCompiler) (gpa : U64) (e : JitEntry) : JitCompiler :=
  { j with entries := update j.entries gpa (some e) }

def setHot (j : JitCompiler) (gpa : U64) (e : Option ℕ) : JitCompiler :=
  { j with pcCache := update j.pcCache (pcSlot gpa) (gpa, e) }

/-- `resolve_call`. -/
def resolveCall (j : JitCompiler) (gpa : U64) : Option ℕ :=
  match j.entries gpa with
  | some (.compiled id) => some id
  | _ => none

/-- `helper_resolve_and_cache` fills the slot of a call. -/
def setCall (j : JitCompiler) (id site callee : ℕ) : JitCompiler :=
  { j with
    callCache := update j.callCache id
      (update (j.callCache id) site (some callee)) }

/-- `helper_call_indirect_ic` fills the slot of a call through a register, if it holds another
target and the new one is compiled. -/
def fillIc (j : JitCompiler) (id site : ℕ) (target : U64) : JitCompiler :=
  if (j.icSlots id site).map Prod.fst = some target then j
  else match j.resolveCall target with
    | none => j
    | some callee =>
      { j with
        icSlots := update j.icSlots id
          (update (j.icSlots id) site (some (target, callee))) }

/-- The hot spot detection of `compile`: whether the threshold is reached. -/
def count (j : JitCompiler) (threshold : ℕ) (gpa : U64) : Bool × JitCompiler :=
  if threshold = 0 then (true, j)
  else
    let base := gpa.toNat / 8 % hotCounterSlots
    let k := pickCounter j.hotCounters gpa base hotCounterProbe (base, 2 ^ 32 - 1)
    let old := if (j.hotCounters k).1 = gpa then (j.hotCounters k).2 else 0
    let new := if old ≠ 2 ^ 32 - 1 then old + 1 else old
    if new < threshold then
      (false, { j with hotCounters := update j.hotCounters k (gpa, new) })
    else (true, { j with hotCounters := update j.hotCounters k (0, 0) })

/-- The loop of `mark_failed` over the indices `0` .. `n - 1`. -/
def poisonSpan (j : JitCompiler) (gpa : U64) : ℕ → JitCompiler
  | 0 => j
  | n + 1 =>
    let j := poisonSpan j gpa n
    let p := gpa + BitVec.ofNat 64 (8 * n)
    match j.entries p with
    | some (.compiled _) => j
    | _ => j.setHot p none

/-- `mark_failed`, with the index of the instruction that failed, or 0. -/
def markFailed (j : JitCompiler) (gpa : U64) (poisonIdx : ℕ) : JitCompiler :=
  (j.setEntry gpa .failed).poisonSpan gpa (poisonIdx + 1)

/-- The fragment gets its place in the arena and empty slots. -/
def install (j : JitCompiler) (f : Fragment) : JitCompiler :=
  let id := j.code.length
  let j := { j with
    code := j.code ++ [f]
    callCache := update j.callCache id fun _ => none
    icSlots := update j.icSlots id fun _ => none }
  (j.setEntry f.gpa (.compiled id)).setHot f.gpa (some id)

/-- The second half of `compile`; `finalized` is the host's answer in `finalize_code`. -/
def build (c : Config) (finalized : Bool) (j : JitCompiler) (gpa : U64) (insn : ℕ → BpfInsn)
    (limit : ℕ) : Option ℕ × JitCompiler :=
  let d := discoverReachable insn limit
  if d.funcSize = 0 then (none, j.markFailed gpa 0)
  else match poison c.emits insn limit with
    | some i => (none, j.markFailed gpa i)
    | none =>
      if !(List.range d.funcSize).any d.reachable then (none, j.markFailed gpa 0)
      else if h : patchable insn limit = true then
        if finalized then (some j.code.length, j.install ⟨gpa, insn, limit, h⟩)
        else (none, j.markFailed gpa 0)
      else (none, j.markFailed gpa (d.funcSize - 1))

/-- `compile` without a debugger. The loads of frame sizes, which only fill the TLB, are left
out. -/
def compile (c : Config) (finalized : Bool) (j : JitCompiler) (s : State) (gpa : U64) :
    Option ℕ × JitCompiler × State :=
  if !c.enabled then (none, j, s)
  else if (j.pcCache (pcSlot gpa)).1 = gpa then ((j.pcCache (pcSlot gpa)).2, j, s)
  else match j.entries gpa with
    | some (.compiled id) => (some id, j.setHot gpa (some id), s)
    | some _ => (none, j.setHot gpa none, s)
    | none =>
      match j.count c.threshold gpa with
      | (false, j) => (none, j, s)
      | (true, j) =>
        let j := j.setEntry gpa .counting
        let (p, s) := s.mmu c.vm gpa.toNat 8
        match p, segLimit (s.maps c.vm) gpa.toNat with
        | some p, some limit =>
          let (id, j) := j.build c finalized gpa
            (fun i => BpfInsn.ofBytes (s.host.load (p.add (8 * i)) 8)) limit
          (id, j, s)
        | _, _ => (none, j, s)

/-! ## What a compilation changes -/

theorem eq_of_update_none {β : Type*} {slots : ℕ → ℕ → Option β} {n : ℕ} {y : β}
    (h : update slots n (fun _ => none) id site = some y) :
    id ≠ n ∧ slots id site = some y := by
  by_cases hid : id = n
  · rw [hid, update_self] at h
    cases h
  · rw [update_of_ne hid] at h
    exact ⟨hid, h⟩

theorem eq_of_update_slot {β : Type*} {slots : ℕ → ℕ → Option β} {x y : β}
    (h : update slots id (update (slots id) site (some x)) id' site' = some y) :
    id' = id ∧ y = x ∨ slots id' site' = some y := by
  by_cases hid : id' = id
  · subst hid
    rw [update_self] at h
    by_cases hs : site' = site
    · rw [hs, update_self] at h
      exact .inl ⟨rfl, (Option.some.inj h).symm⟩
    · rw [update_of_ne hs] at h
      exact .inr h
  · rw [update_of_ne hid] at h
    exact .inr h

/-- No code is added or forgotten: what is compiled stays compiled, what has failed stays failed,
and the cache of program counters is only filled with what the table says. -/
structure Quiet (j j' : JitCompiler) : Prop where
  code : j'.code = j.code
  entries : ∀ g id, j'.entries g = some (.compiled id) ↔ j.entries g = some (.compiled id)
  failed : ∀ g, j.entries g = some .failed → j'.entries g = some .failed
  hot : ∀ k, j'.pcCache k = j.pcCache k ∨ ∀ id, (j'.pcCache k).2 = some id ↔
    j.entries (j'.pcCache k).1 = some (.compiled id)
  callCache : j'.callCache = j.callCache
  icSlots : j'.icSlots = j.icSlots

/-- Nothing is compiled at `gpa`. -/
def Vacant (j : JitCompiler) (gpa : U64) : Prop :=
  ∀ id, j.entries gpa ≠ some (.compiled id)

section
variable {j j' j'' : JitCompiler} {gpa : U64}

theorem Quiet.refl (j : JitCompiler) : j.Quiet j :=
  ⟨rfl, fun _ _ => .rfl, fun _ he => he, fun _ => .inl rfl, rfl, rfl⟩

theorem Quiet.trans (h : j.Quiet j') (h' : j'.Quiet j'') : j.Quiet j'' := by
  refine ⟨h'.code.trans h.code, fun g id => (h'.entries g id).trans (h.entries g id),
    fun g hg => h'.failed g (h.failed g hg), fun k => ?_, h'.callCache.trans h.callCache,
    h'.icSlots.trans h.icSlots⟩
  rcases h'.hot k with he | he
  · rw [he]
    exact h.hot k
  · exact .inr fun id => (he id).trans (h.entries _ id)

theorem Quiet.vacant (h : j.Quiet j') (hv : j.Vacant gpa) : j'.Vacant gpa :=
  fun id hid => hv id ((h.entries gpa id).mp hid)

theorem quiet_setHot {e : Option ℕ} (h : ∀ id, e = some id ↔ j.entries gpa = some (.compiled id)) :
    j.Quiet (j.setHot gpa e) := by
  refine ⟨rfl, fun _ _ => .rfl, fun _ he => he, fun k => ?_, rfl, rfl⟩
  by_cases hk : k = pcSlot gpa
  · right
    simp only [setHot, hk, update_self]
    exact h
  · exact .inl (update_of_ne hk ..)

theorem quiet_setEntry {e : JitEntry} (hv : j.Vacant gpa) (he : ∀ id, e ≠ .compiled id)
    (hf : j.entries gpa = some .failed → e = .failed) : j.Quiet (j.setEntry gpa e) := by
  refine ⟨rfl, fun g id => ?_, fun g hg => ?_, fun _ => .inl rfl, rfl, rfl⟩
  · by_cases hg : g = gpa
    · simp only [setEntry, hg, update_self, Option.some.injEq]
      exact iff_of_false (he id) (hv id)
    · simp only [setEntry, update_of_ne hg]
  · by_cases he : g = gpa
    · subst he
      rw [hf hg]
      exact update_self ..
    · exact (update_of_ne he ..).trans hg

theorem count_frame (j : JitCompiler) (threshold : ℕ) (gpa : U64) :
    ∃ counters, (j.count threshold gpa).2 = { j with hotCounters := counters } := by
  unfold count
  split_ifs
  · exact ⟨_, rfl⟩
  · dsimp only
    split_ifs <;> exact ⟨_, rfl⟩

theorem quiet_poisonSpan (n : ℕ) : j.Quiet (j.poisonSpan gpa n) := by
  induction n with
  | zero => exact .refl j
  | succ n ih =>
    unfold poisonSpan
    dsimp only
    split
    · exact ih
    · next hnot => exact ih.trans (quiet_setHot (by simpa using hnot))

theorem quiet_markFailed (hv : j.Vacant gpa) (n : ℕ) : j.Quiet (j.markFailed gpa n) :=
  (quiet_setEntry hv (by simp) fun _ => rfl).trans (quiet_poisonSpan _)

theorem install_code (j : JitCompiler) (f : Fragment) : (j.install f).code = j.code ++ [f] := rfl

theorem install_entries {g : U64} (h : (j.install f).entries g = some (.compiled id)) :
    g = f.gpa ∧ id = j.code.length ∨ g ≠ f.gpa ∧ j.entries g = some (.compiled id) := by
  change update j.entries f.gpa (some (.compiled j.code.length)) g = _ at h
  by_cases hg : g = f.gpa
  · rw [hg, update_self] at h
    cases h
    exact .inl ⟨hg, rfl⟩
  · rw [update_of_ne hg] at h
    exact .inr ⟨hg, h⟩

theorem install_pcCache (j : JitCompiler) (f : Fragment) (k : ℕ) :
    (j.install f).pcCache k = (f.gpa, some j.code.length) ∨
      (j.install f).pcCache k = j.pcCache k := by
  change update j.pcCache (pcSlot f.gpa) (f.gpa, some j.code.length) k = _ ∨
    update j.pcCache (pcSlot f.gpa) (f.gpa, some j.code.length) k = _
  by_cases hk : k = pcSlot f.gpa
  · rw [hk, update_self]
    exact .inl rfl
  · rw [update_of_ne hk]
    exact .inr rfl

theorem install_callCache {callee : ℕ} (h : (j.install f).callCache id site = some callee) :
    id ≠ j.code.length ∧ j.callCache id site = some callee :=
  eq_of_update_none h

theorem install_icSlots {e : U64 × ℕ} (h : (j.install f).icSlots id site = some e) :
    id ≠ j.code.length ∧ j.icSlots id site = some e :=
  eq_of_update_none h

theorem resolveCall_eq_some {g : U64} :
    j.resolveCall g = some id ↔ j.entries g = some (.compiled id) := by
  unfold resolveCall
  split <;> simp_all

theorem setCall_callCache {callee callee' : ℕ}
    (h : (j.setCall id site callee).callCache id' site' = some callee') :
    id' = id ∧ callee' = callee ∨ j.callCache id' site' = some callee' :=
  eq_of_update_slot h

theorem fillIc_frame (j : JitCompiler) (id site : ℕ) (target : U64) :
    (j.fillIc id site target).code = j.code ∧ (j.fillIc id site target).entries = j.entries ∧
      (j.fillIc id site target).pcCache = j.pcCache ∧
      (j.fillIc id site target).callCache = j.callCache := by
  unfold fillIc
  split_ifs
  · exact ⟨rfl, rfl, rfl, rfl⟩
  · cases j.resolveCall target <;> exact ⟨rfl, rfl, rfl, rfl⟩

theorem fillIc_icSlots {target : U64} {e : U64 × ℕ}
    (h : (j.fillIc id site target).icSlots id' site' = some e) :
    id' = id ∧ j.entries e.1 = some (.compiled e.2) ∨ j.icSlots id' site' = some e := by
  unfold fillIc at h
  split_ifs at h
  · exact .inr h
  · cases hres : j.resolveCall target with
    | none =>
      rw [hres] at h
      exact .inr h
    | some callee =>
      rw [hres] at h
      rcases eq_of_update_slot h with ⟨hid, rfl⟩ | h
      · exact .inl ⟨hid, resolveCall_eq_some.mp hres⟩
      · exact .inr h

/-- Either nothing is added, or a fragment of the given slots. -/
theorem build_cases {c : Config} {finalized : Bool} {insn : ℕ → BpfInsn} {limit : ℕ}
    {o : Option ℕ} (h : j.build c finalized gpa insn limit = (o, j')) :
    (∃ n, o = none ∧ j' = j.markFailed gpa n) ∨
    ∃ f : Fragment, f.gpa = gpa ∧ f.insn = insn ∧ f.limit = limit ∧
      0 < limit ∧ o = some j.code.length ∧ j' = j.install f ∧ poison c.emits insn limit = none := by
  unfold build at h
  dsimp only at h
  split at h
  · cases h
    exact .inl ⟨0, rfl, rfl⟩
  next hsize =>
    have hlimit : 0 < limit := by
      by_contra h0
      exact hsize (by simp [discoverReachable, show limit = 0 by omega])
    split at h
    · cases h
      exact .inl ⟨_, rfl, rfl⟩
    next hpoison =>
      split_ifs at h with hany hpatch hfin
      · cases h
        exact .inl ⟨_, rfl, rfl⟩
      · cases h
        exact .inr ⟨_, rfl, rfl, rfl, hlimit, rfl, rfl, hpoison⟩
      · cases h
        exact .inl ⟨_, rfl, rfl⟩
      · cases h
        exact .inl ⟨_, rfl, rfl⟩

end

end JitCompiler

/-- The fragment holds what the memory holds from `gpa` on. -/
structure Fragment.ReadFrom (f : Fragment) (v : ℕ) (s : State) (p : HostPtr) : Prop where
  translated : (s.mmu v f.gpa.toNat 8).1 = some p
  insn : ∀ i, f.insn i = BpfInsn.ofBytes ((s.mmu v f.gpa.toNat 8).2.host.load (p.add (8 * i)) 8)
  limit : segLimit ((s.mmu v f.gpa.toNat 8).2.maps v) f.gpa.toNat = some f.limit

/-- The outcomes of `compile`: no new code, with an answer from the caches, or a new fragment. -/
theorem JitCompiler.compile_cases {c : Config} {finalized : Bool} {j j' : JitCompiler}
    {s s' : State} {gpa : U64} {o : Option ℕ}
    (h : j.compile c finalized s gpa = (o, j', s')) :
    (s' = s ∨ s' = (s.mmu c.vm gpa.toNat 8).2) ∧ j.Quiet j' ∧
      (∀ id, o = some id → (j.pcCache (pcSlot gpa)) = (gpa, some id) ∨
        j.entries gpa = some (.compiled id)) ∨
    ∃ (f : Fragment) (p : HostPtr) (j₁ : JitCompiler), j.Quiet j₁ ∧ j.entries gpa = none ∧
    f.gpa = gpa ∧
      0 < f.limit ∧ f.ReadFrom c.vm s p ∧ o = some j.code.length ∧ j' = j₁.install f ∧
      s' = (s.mmu c.vm gpa.toNat 8).2 ∧ poison c.emits f.insn f.limit = none := by
  unfold compile at h
  split at h
  · cases h
    exact .inl ⟨.inl rfl, .refl j, by simp⟩
  split at h
  next hot =>
    cases h
    exact .inl ⟨.inl rfl, .refl j, fun id hid => .inl (Prod.ext hot hid)⟩
  split at h
  next id hid =>
    cases h
    refine .inl ⟨.inl rfl, quiet_setHot (by simp [hid]), ?_⟩
    rintro _ ⟨⟩
    exact .inr hid
  next hnot hid =>
    cases h
    exact .inl ⟨.inl rfl, quiet_setHot (by simpa [hid] using hnot), by simp⟩
  next hnone =>
    have hv : j.Vacant gpa := fun id => by simp [hnone]
    obtain ⟨counters, hcount⟩ := count_frame j c.threshold gpa
    generalize j.count c.threshold gpa = r at h hcount
    obtain ⟨hit, j₁⟩ := r
    obtain rfl : j₁ = { j with hotCounters := counters } := hcount
    have hq₁ : j.Quiet { j with hotCounters := counters } :=
      ⟨rfl, fun _ _ => .rfl, fun _ he => he, fun _ => .inl rfl, rfl, rfl⟩
    cases hit
    · cases h
      exact .inl ⟨.inl rfl, hq₁, by simp⟩
    · have hq : j.Quiet (JitCompiler.setEntry { j with hotCounters := counters } gpa .counting) :=
        hq₁.trans (quiet_setEntry hv (by simp) (by simp [hnone]))
      dsimp only at h
      split at h
      next p limit hp hlimit =>
        simp only [Prod.mk.injEq] at h
        obtain ⟨ho, hj, rfl⟩ := h
        rcases build_cases (Prod.ext ho hj) with ⟨n, hn, rfl⟩ |
          ⟨f, hgpa, hinsn, hlim, hpos, hid, hinst, hpoison⟩
        · exact .inl ⟨.inr rfl, hq.trans (quiet_markFailed (hq.vacant hv) n), by simp [hn]⟩
        · refine .inr ⟨f, p, _, hq, hnone, hgpa, by omega, ⟨?_, fun i => ?_, ?_⟩, ?_, hinst, rfl,
            ?_⟩
          · rw [hgpa, hp]
          · rw [hgpa, hinsn]
          · rw [hgpa, hlim, hlimit]
          · rw [hid, hq.code]
          · rw [hinsn, hlim, hpoison]
      next =>
        cases h
        exact .inl ⟨.inr rfl, hq, by simp⟩

end Bpfvm.Jit
