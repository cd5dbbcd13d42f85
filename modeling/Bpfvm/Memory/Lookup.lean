import Bpfvm.Memory.Ops

/-!
# What a container of segments defines

For a container whose segments are nonempty, in address order, disjoint and end below
`2 ^ 64`, `find_map_locked` finds exactly the segment that contains the accessed range.
`lookup` is the translation a container defines, `viewOf` the bytes behind it. A TLB is
coherent with a container when each of its entries is empty or a copy of a segment; then
`mmu` and the fast path of `mmu_w` return what the container defines.
-/
namespace Bpfvm.Memory
open Segments

variable {a b n : ℕ} {h : Host} {tlb : ℕ → TlbEntry}

theorem uadd_eq (h : a + b < 2 ^ 64) : uadd a b = a + b := Nat.mod_eq_of_lt h

theorem uadd_lt_left (ha : a < 2 ^ 64) (hb : b < 2 ^ 64) (h : 2 ^ 64 ≤ a + b) : uadd a b < a := by
  unfold uadd
  omega

theorem usub_eq (hab : b ≤ a) (ha : a < 2 ^ 64) : usub a b = a - b := by
  unfold usub
  omega

/-- End of the segment, not reduced. -/
def Memmap.stop (m : Memmap) : ℕ := m.paddr + m.size

/-- The segment contains the address. -/
def Memmap.Has (m : Memmap) (a : ℕ) : Prop := m.paddr ≤ a ∧ a < m.stop

instance (m : Memmap) (a : ℕ) : Decidable (m.Has a) := inferInstanceAs (Decidable (_ ∧ _))

/-- The host address behind a guest address of the segment. -/
def Memmap.ptr (m : Memmap) (a : ℕ) : HostPtr := m.data.add (a - m.paddr)

@[simp] theorem Memmap.ptr_region (m : Memmap) (a : ℕ) :
    (m.ptr a).region = m.data.region := rfl

@[simp] theorem Memmap.ptr_off (m : Memmap) (a : ℕ) :
    (m.ptr a).off = m.data.off + (a - m.paddr) := rfl

structure MapsOk (ml : List Memmap) : Prop where
  sorted : Segments.Sorted Memmap.paddr Memmap.stop ml
  bound : ∀ m ∈ ml, m.stop < 2 ^ 64

variable {ml' : List Memmap}

namespace MapsOk

variable {ml : List Memmap} {m m' : Memmap}

theorem nil : MapsOk [] := ⟨Segments.Sorted.nil, by simp⟩

theorem uend_eq (h : MapsOk ml) (hm : m ∈ ml) : m.uend = m.stop := uadd_eq (h.bound m hm)

theorem paddr_lt (h : MapsOk ml) (hm : m ∈ ml) : m.paddr < m.stop := h.sorted.nonempty m hm

theorem eq_of_has (h : MapsOk ml) (hm : m ∈ ml) (hm' : m' ∈ ml) (ha : m.Has a) (ha' : m'.Has a) :
    m = m' :=
  h.sorted.eq_of_mem hm hm' ha.1 ha.2 ha'.1 ha'.2

theorem sublist (h : MapsOk ml) (hs : ml'.Sublist ml) : MapsOk ml' :=
  ⟨h.sorted.sublist hs, fun m hm => h.bound m (hs.subset hm)⟩

/-- Replacing a segment by parts of it. -/
theorem replace {pre post ps : List Memmap} (h : MapsOk (pre ++ m :: post))
    (hps : Segments.Sorted Memmap.paddr Memmap.stop ps)
    (hin : ∀ p ∈ ps, m.paddr ≤ p.paddr ∧ p.stop ≤ m.stop) : MapsOk (pre ++ (ps ++ post)) := by
  refine ⟨h.sorted.replace hps hin, ?_⟩
  have hm := h.bound m (by simp)
  intro p hp
  simp only [List.mem_append] at hp
  rcases hp with hp | hp | hp
  · exact h.bound p (by simp [hp])
  · have := hin p hp
    omega
  · exact h.bound p (by simp [hp])

theorem replace_one {pre post : List Memmap} (h : MapsOk (pre ++ m :: post))
    (hp : m'.paddr = m.paddr) (hs : m'.size = m.size) : MapsOk (pre ++ m' :: post) := by
  have hstop : m'.stop = m.stop := by rw [Memmap.stop, Memmap.stop, hp, hs]
  have hne := h.paddr_lt (m := m) (by simp)
  have hone : Segments.Sorted Memmap.paddr Memmap.stop [m'] :=
    Segments.Sorted.cons_iff.mpr ⟨by omega, by simp, Segments.Sorted.nil⟩
  exact h.replace hone (by simp [hp, hstop])

end MapsOk

variable {ml : List Memmap} {m : Memmap}

theorem findMap_iff : findMap ml a n = some m ↔
    ¬ uadd a n < a ∧ lastBelow Memmap.paddr ml a = some m ∧ uadd a n ≤ m.uend := by
  unfold findMap
  split_ifs with hw
  · simp [hw]
  cases lastBelow Memmap.paddr ml a with
  | none => simp
  | some x =>
    dsimp only
    split_ifs with hle
    · refine ⟨fun he => ?_, fun he => he.2.1⟩
      cases he
      exact ⟨hw, rfl, hle⟩
    · refine ⟨nofun, fun he => ?_⟩
      cases he.2.1
      exact absurd he.2.2 hle

theorem findMap_eq_some_iff (h : MapsOk ml) (ha : a < 2 ^ 64) (hn : 0 < n) (hn' : n < 2 ^ 64) :
    findMap ml a n = some m ↔ m ∈ ml ∧ m.paddr ≤ a ∧ a + n ≤ m.stop := by
  rw [findMap_iff]
  by_cases hw : a + n < 2 ^ 64
  · rw [uadd_eq hw]
    constructor
    · rintro ⟨-, hl, hle⟩
      obtain ⟨hm, hma⟩ := lastBelow_mem hl
      exact ⟨hm, hma, h.uend_eq hm ▸ hle⟩
    · rintro ⟨hm, hma, hle⟩
      refine ⟨by omega, lastBelow_eq_some_of_mem h.sorted hm hma (by omega), ?_⟩
      rwa [h.uend_eq hm]
  · have hlt := uadd_lt_left ha hn' (by omega)
    refine ⟨fun hf => absurd hlt hf.1, ?_⟩
    rintro ⟨hm, -, hle⟩
    have := h.bound m hm
    omega

theorem findMap_mem (hf : findMap ml a n = some m) : m ∈ ml :=
  (lastBelow_mem (findMap_iff.mp hf).2.1).1

/-- The segment found splits the container, and `replaceBelow` writes at its place. -/
theorem findMap_split (hf : findMap ml a n = some m) :
    ∃ pre post, ml = pre ++ m :: post ∧
      ∀ y, replaceBelow Memmap.paddr ml a y = pre ++ y :: post :=
  lastBelow_split (findMap_iff.mp hf).2.1

/-! ## Views -/

/-- The translation of `[a, a + n)` that the container defines. -/
def lookup (ml : List Memmap) (a n : ℕ) : Option HostPtr :=
  (findMap ml a n).map fun m => m.ptr a

/-- The byte at a guest address, through the container. -/
def viewOf (h : Host) (ml : List Memmap) (a : ℕ) : Option Byte :=
  if a < 2 ^ 64 then (lookup ml a 1).map h.byte else none

/-- The container gives the byte `b` at address `a`. -/
def Holds (h : Host) (ml : List Memmap) (a : ℕ) (b : Byte) : Prop :=
  ∃ m ∈ ml, m.Has a ∧ h.byte (m.ptr a) = b

theorem viewOf_eq_some_iff (hml : MapsOk ml) {b : Byte} :
    viewOf h ml a = some b ↔ Holds h ml a b := by
  by_cases ha : a < 2 ^ 64
  · simp only [viewOf, ha, if_true, lookup, Option.map_map, Option.map_eq_some_iff,
      findMap_eq_some_iff hml ha Nat.one_pos (by omega), Holds, Memmap.Has, Function.comp,
      Nat.add_one_le_iff, and_assoc]
  · simp only [viewOf, ha, if_false, Holds, reduceCtorEq, false_iff]
    rintro ⟨m, hm, hh, -⟩
    have := hml.bound m hm
    have := hh.2
    omega

/-- Two containers that hold the same bytes have the same view. -/
theorem viewOf_congr (hml : MapsOk ml) (hml' : MapsOk ml') {h' : Host}
    (hiff : ∀ a b, Holds h ml a b ↔ Holds h' ml' a b) : viewOf h ml = viewOf h' ml' := by
  funext a
  apply Option.ext
  intro b
  exact (viewOf_eq_some_iff hml).trans ((hiff a b).trans (viewOf_eq_some_iff hml').symm)

theorem viewOf_eq_of_has (hml : MapsOk ml) (hm : m ∈ ml) (ha : m.Has a) :
    viewOf h ml a = some (h.byte (m.ptr a)) :=
  (viewOf_eq_some_iff hml).mpr ⟨m, hm, ha, rfl⟩

/-- The bytes behind a translated range are the bytes of the view. -/
theorem viewOf_of_lookup (hml : MapsOk ml) {i : ℕ} (ha : a < 2 ^ 64) (hn : n < 2 ^ 64)
    {p : HostPtr} (hp : lookup ml a n = some p) (hi : i < n) :
    viewOf h ml (a + i) = some (h.byte (p.add i)) := by
  obtain ⟨m, hm, rfl⟩ := Option.map_eq_some_iff.mp hp
  obtain ⟨hmem, hle, hst⟩ := (findMap_eq_some_iff hml ha (by omega) hn).mp hm
  rw [viewOf_eq_of_has hml hmem ⟨by omega, by omega⟩]
  have : m.data.off + (a + i - m.paddr) = m.data.off + (a - m.paddr) + i := by omega
  simp [Host.byte, this]

/-! ## Coherent TLBs -/

def TlbOk (ml : List Memmap) (tlb : ℕ → TlbEntry) : Prop :=
  ∀ i, tlb i = TlbEntry.zero ∨ ∃ m ∈ ml, tlb i = TlbEntry.ofMap m

theorem tlbOk_zero (ml : List Memmap) : TlbOk ml (fun _ => TlbEntry.zero) := fun _ => Or.inl rfl

theorem TlbOk.update (h : TlbOk ml tlb) (hm : m ∈ ml) (i : ℕ) :
    TlbOk ml (Function.update tlb i (TlbEntry.ofMap m)) := by
  intro j
  by_cases hj : j = i
  · subst hj
    exact Or.inr ⟨m, hm, by simp⟩
  · simpa [Function.update_of_ne hj] using h j

theorem TlbOk.mono (h : TlbOk ml tlb) (hs : ∀ m ∈ ml, ∀ i, tlb i = TlbEntry.ofMap m →
      ∃ m' ∈ ml', TlbEntry.ofMap m' = TlbEntry.ofMap m) : TlbOk ml' tlb := by
  intro i
  rcases h i with hz | ⟨m, hm, he⟩
  · exact Or.inl hz
  · obtain ⟨m', hm', he'⟩ := hs m hm i he
    exact Or.inr ⟨m', hm', he.trans he'.symm⟩

/-- A hit on a coherent entry is a hit on the segment it was copied from. -/
theorem TlbOk.hit (hml : MapsOk ml) (h : TlbOk ml tlb) {i : ℕ} (ha : a < 2 ^ 64) (hn : 0 < n)
    (hn' : n < 2 ^ 64) (hw : ¬ uadd a n < a) (hlo : (tlb i).guestBase ≤ a)
    (hhi : uadd a n ≤ (tlb i).guestEnd) :
    ∃ m, findMap ml a n = some m ∧ tlb i = TlbEntry.ofMap m := by
  have hlt : a + n < 2 ^ 64 := by
    by_contra hge
    exact hw (uadd_lt_left ha hn' (by omega))
  rw [uadd_eq hlt] at hhi
  rcases h i with hz | ⟨m, hm, he⟩
  · rw [hz, TlbEntry.zero] at hhi
    simp only at hhi
    omega
  · refine ⟨m, ?_, he⟩
    rw [he, TlbEntry.ofMap] at hlo hhi
    simp only [hml.uend_eq hm] at hlo hhi
    exact (findMap_eq_some_iff hml ha hn hn').mpr ⟨hm, hlo, hhi⟩

/-- `mmu` returns what the container defines. -/
theorem mmu_fst {s : State} {v : ℕ} (hml : MapsOk (s.maps v))
    (htlb : TlbOk (s.maps v) (s.vms v).tlb) (ha : a < 2 ^ 64) (hn : 0 < n) (hn' : n < 2 ^ 64) :
    (s.mmu v a n).1 = lookup (s.maps v) a n := by
  unfold State.mmu
  by_cases hw : uadd a n < a
  · simp [hw, lookup, findMap]
  · rw [if_neg hw]
    dsimp only
    split_ifs with hhit
    · obtain ⟨m, hf, he⟩ := htlb.hit hml ha hn hn' hw hhit.1 hhit.2
      simp [he, lookup, hf, TlbEntry.ofMap, Memmap.ptr]
    · unfold State.mmuSlow lookup
      cases findMap (s.maps v) a n <;> rfl

/-- `mmu` changes at most one TLB entry, to a copy of a segment of the container. -/
theorem mmu_keeps {P : State → Prop} {s : State} {v a n : ℕ} (h : P s)
    (htlb : ∀ m ∈ s.maps v, P (s.setTlb v (tlbIndex a) (TlbEntry.ofMap m))) :
    P (s.mmu v a n).2 := by
  unfold State.mmu
  split_ifs
  · exact h
  dsimp only
  split_ifs
  · exact h
  unfold State.mmuSlow
  cases hf : findMap (s.maps v) a n with
  | none => exact h
  | some m => exact htlb m (findMap_mem hf)

/-- What copy-on-write and the TLB keep, `mmu_w` keeps. -/
theorem mmuW_keeps {P : State → Prop} {env : HostEnv} {s : State} {v a n : ℕ} (h : P s)
    (hres : ∀ m, findMap (s.maps v) a n = some m → hasFlag m.flags pfW = true →
      P (s.resolveCow env v a m).2)
    (htlb : ∀ s₁ i e, P s₁ → P (s₁.setTlb v i e)) : P (s.mmuW env v a n).2 := by
  unfold State.mmuW
  split_ifs
  · exact h
  dsimp only
  split_ifs
  · exact h
  unfold State.mmuWSlow
  cases hf : findMap (s.maps v) a n with
  | none => exact h
  | some m =>
    dsimp only
    split_ifs with hW
    · have hcow := hres m hf hW
      generalize s.resolveCow env v a m = q at hcow ⊢
      obtain ⟨_ | m', s₁⟩ := q
      · exact hcow
      · exact htlb s₁ _ _ hcow
    · exact h

/-- With a coherent TLB `mmu_w` finds a segment it may write at once, or does what `mmu_w_slow`
does. -/
theorem mmuW_cases {s : State} {v : ℕ} (env : HostEnv) (hml : MapsOk (s.maps v))
    (htlb : TlbOk (s.maps v) (s.vms v).tlb) (ha : a < 2 ^ 64) (hn : 0 < n) (hn' : n < 2 ^ 64) :
    (∃ m, findMap (s.maps v) a n = some m ∧ hasFlag m.flags pfW = true ∧ m.cowData = none ∧
      s.mmuW env v a n = (some (m.ptr a), s)) ∨
    s.mmuW env v a n = s.mmuWSlow env v a n := by
  unfold State.mmuW
  by_cases hw : uadd a n < a
  · have hf : findMap (s.maps v) a n = none := by simp [findMap, hw]
    rw [if_pos hw, State.mmuWSlow, hf]
    exact .inr rfl
  · rw [if_neg hw]
    dsimp only
    split_ifs with hhit
    · obtain ⟨m, hf, he⟩ := htlb.hit hml ha hn hn' hw hhit.1 hhit.2.1
      rw [he] at hhit ⊢
      exact .inl ⟨m, hf, hhit.2.2.1, by simpa [TlbEntry.ofMap] using hhit.2.2.2, rfl⟩
    · exact .inr rfl

/-! ## Copy on write -/

/-- What `resolveCow` answers for the segment `m` between `pre` and `post`. -/
inductive CowStep (env : HostEnv) (s : State) (v : ℕ) (m : Memmap) (pre post : List Memmap) :
    Option Memmap × State → Prop where
  | plain (hc : m.cowData = none) : CowStep env s v m pre post (some m, s)
  | steal {c : ℕ} (hc : m.cowData = some c) (hone : s.useCount c = 1) :
      CowStep env s v m pre post (some m.stolen, ((s.setHeap { s.heap with
        cows := Function.update s.heap.cows c { s.heap.cows c with owned := false } }).setMaps v
          (pre ++ m.stolen :: post)).flushTlb v)
  | full {c : ℕ} {h : Host} (hc : m.cowData = some c)
      (hcopy : s.host.copySegment env m = (none, h)) :
      CowStep env s v m pre post (none, s.setHost h)
  | copy {c : ℕ} {p : HostPtr} {h : Host} (hc : m.cowData = some c) (hmany : s.useCount c ≠ 1)
      (hcopy : s.host.copySegment env m = (some p, h)) :
      CowStep env s v m pre post (some (m.copied p),
        ((s.setHost h).setMaps v (pre ++ m.copied p :: post)).flushTlb v)

theorem cowStep {s : State} {v : ℕ} (env : HostEnv) (hf : findMap (s.maps v) a n = some m) :
    ∃ pre post, s.maps v = pre ++ m :: post ∧
      CowStep env s v m pre post (s.resolveCow env v a m) := by
  obtain ⟨pre, post, hml, hrep⟩ := findMap_split hf
  refine ⟨pre, post, hml, ?_⟩
  unfold State.resolveCow
  cases hc : m.cowData with
  | none => exact .plain hc
  | some c =>
    dsimp only
    split_ifs with hone
    · rw [State.stealPages, hrep]
      exact .steal hc hone
    · unfold State.copyPages
      generalize hcopy : s.host.copySegment env m = q
      obtain ⟨_ | p, h⟩ := q
      · exact .full hc hcopy
      · dsimp only
        rw [hrep]
        exact .copy hc hone hcopy

end Bpfvm.Memory
