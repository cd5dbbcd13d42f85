import Bpfvm.Lib.FlatMemory
import Bpfvm.Memory.Invariant

/-!
# Translation for writing

`mmu_w` either fails without changing what any vm sees, or returns the host address of the
guest address in a segment of the writer that no other segment shares an allocation with.
A store through it therefore changes the writer's view at the written addresses and no
other container's view.
-/
namespace Bpfvm.Memory
open Function State Host List

/-- An operation of `v` that edits at most its own container and its own TLB; the segments
of the container that are not `touched` stay in it. -/
structure Edits (s s' : State) (v : ℕ) (touched : Memmap → Prop) : Prop where
  nextVm : s'.nextVm = s.nextVm
  nextSpace : s'.nextSpace = s.nextSpace
  space : ∀ u, (s'.vms u).space = (s.vms u).space
  group : ∀ u, (s'.vms u).group = (s.vms u).group
  running : ∀ u, (s'.vms u).running = (s.vms u).running
  tlb : ∀ u, u ≠ v → (s'.vms u).tlb = (s.vms u).tlb
  other : ∀ σ, σ ≠ (s.vms v).space → s'.spaces σ = s.spaces σ
  keep : ∀ m ∈ s.maps v, ¬ touched m → m ∈ s'.maps v

namespace Edits

variable {s s' s'' : State} {u v : ℕ} {touched : Memmap → Prop}

theorem refl (s : State) (v : ℕ) (touched : Memmap → Prop) : Edits s s v touched :=
  ⟨rfl, rfl, fun _ => rfl, fun _ => rfl, fun _ => rfl, fun _ _ => rfl, fun _ _ => rfl,
    fun _ hm _ => hm⟩

theorem trans (h : Edits s s' v touched) (h' : Edits s' s'' v touched) :
    Edits s s'' v touched := by
  refine ⟨h'.nextVm.trans h.nextVm, h'.nextSpace.trans h.nextSpace,
    fun u => (h'.space u).trans (h.space u), fun u => (h'.group u).trans (h.group u),
    fun u => (h'.running u).trans (h.running u),
    fun u hu => (h'.tlb u hu).trans (h.tlb u hu), ?_, ?_⟩
  · intro σ hσ
    rw [h'.other σ (by rw [h.space]; exact hσ), h.other σ hσ]
  · intro m hm ht
    exact h'.keep m (h.keep m hm ht) ht

theorem maps_of_ne (h : Edits s s' v touched) (hu : (s.vms u).space ≠ (s.vms v).space) :
    s'.maps u = s.maps u := by
  rw [State.maps, State.maps, h.space, h.other _ hu]

theorem flushTlb (s : State) (v : ℕ) (touched : Memmap → Prop) :
    Edits s (s.flushTlb v) v touched := by
  refine ⟨rfl, rfl, fun u => flushTlb_space s u v, ?_, ?_, ?_, fun _ _ => rfl, ?_⟩
  · intro u
    by_cases h : u = v
    · subst h; simp [State.flushTlb, State.setVm]
    · simp [State.flushTlb, State.setVm, update_of_ne h]
  · intro u
    by_cases h : u = v
    · subst h; simp [State.flushTlb, State.setVm]
    · simp [State.flushTlb, State.setVm, update_of_ne h]
  · intro u hu
    exact flushTlb_tlb_of_ne s u v hu
  · intro m hm _
    simpa using hm

theorem setTlb (s : State) (v i : ℕ) (e : TlbEntry) (touched : Memmap → Prop) :
    Edits s (s.setTlb v i e) v touched := by
  refine ⟨rfl, rfl, fun u => setTlb_space s u v i e, ?_, ?_, ?_, fun _ _ => rfl, ?_⟩
  · intro u
    by_cases h : u = v
    · subst h; simp [State.setTlb, State.setVm]
    · simp [State.setTlb, State.setVm, update_of_ne h]
  · intro u
    by_cases h : u = v
    · subst h; simp [State.setTlb, State.setVm]
    · simp [State.setTlb, State.setVm, update_of_ne h]
  · intro u hu
    exact setTlb_tlb_of_ne s u v i e hu
  · intro m hm _
    simpa using hm

theorem setMaps (s : State) (v : ℕ) (heap : Heap) (ml : List Memmap)
    (hk : ∀ m ∈ s.maps v, ¬ touched m → m ∈ ml) :
    Edits s ((s.setHeap heap).setMaps v ml) v touched := by
  refine ⟨rfl, rfl, fun _ => rfl, fun _ => rfl, fun _ => rfl, fun _ _ => rfl, ?_, ?_⟩
  · intro σ hσ
    simp [State.setMaps, update_of_ne hσ]
  · intro m hm ht
    simpa using hk m hm ht

theorem heap (s : State) (v : ℕ) (heap : Heap) (touched : Memmap → Prop) :
    Edits s (s.setHeap heap) v touched :=
  ⟨rfl, rfl, fun _ => rfl, fun _ => rfl, fun _ => rfl, fun _ _ => rfl, fun _ _ => rfl,
    fun _ hm _ => hm⟩

theorem released {extra : List Memmap} (h : Released extra s s') (v : ℕ) (touched : Memmap → Prop) :
    Edits s s' v touched := by
  refine ⟨h.nextVm, h.nextSpace, fun _ => by rw [h.vms], fun _ => by rw [h.vms],
    fun _ => by rw [h.vms], fun _ _ => by rw [h.vms], fun _ _ => by rw [h.spaces], ?_⟩
  intro m hm _
  rw [h.maps]
  exact hm

theorem mono {touched' : Memmap → Prop} (h : Edits s s' v touched)
    (ht : ∀ m ∈ s.maps v, touched m → touched' m) : Edits s s' v touched' :=
  ⟨h.nextVm, h.nextSpace, h.space, h.group, h.running, h.tlb, h.other,
    fun m hm hn => h.keep m hm fun htm => hn (ht m hm htm)⟩

theorem runs_iff (h : Edits s s' v touched) : s'.Runs u ↔ s.Runs u := by
  rw [State.Runs, State.Runs, h.nextVm, h.running]

end Edits

/-! ## Host calls and bytes -/

@[simp] theorem Host.mprotect_bytes (h : Host) (env : HostEnv) (p : HostPtr) (n : ℕ)
    (prot : U32) : (h.mprotect env p n prot).2.bytes = h.bytes := by
  unfold mprotect
  split_ifs
  · rfl
  · cases env.mprotectErr p n prot <;> rfl

@[simp] theorem Host.mprotect_mapped (h : Host) (env : HostEnv) (p : HostPtr) (n : ℕ)
    (prot : U32) : (h.mprotect env p n prot).2.mapped = h.mapped := by
  unfold mprotect
  split_ifs
  · rfl
  · cases env.mprotectErr p n prot <;> rfl

@[simp] theorem Host.mprotect_next (h : Host) (env : HostEnv) (p : HostPtr) (n : ℕ)
    (prot : U32) : (h.mprotect env p n prot).2.next = h.next := by
  unfold mprotect
  split_ifs
  · rfl
  · cases env.mprotectErr p n prot <;> rfl

variable {h h' : Host} {p : HostPtr} {a c n : ℕ} {b : Byte} {env : HostEnv} {bs : List Byte}

theorem Host.mmap_frame {len : ℕ} {prot : U32} {init : ℕ → Byte}
    (hm : h.mmap len prot init = (p, h')) :
    p = ⟨h.next, 0⟩ ∧ h'.next = h.next + 1 ∧ (∀ r < h.next, h'.bytes r = h.bytes r) ∧
      ∀ r < h.next, h'.mapped r = h.mapped r := by
  obtain rfl : _ = h' := congrArg Prod.snd hm
  refine ⟨(congrArg Prod.fst hm).symm, rfl, ?_, ?_⟩
  · intro r hr
    simp [mmap, update_of_ne hr.ne]
  · intro r hr
    simp [mmap, update_of_ne hr.ne]

/-! ## Views of edited containers -/

variable {m : Memmap} {ml : List Memmap}

theorem holds_cons : Holds h (m :: ml) a b ↔ (m.Has a ∧ h.byte (m.ptr a) = b) ∨ Holds h ml a b := by
  simp [Holds]

theorem holds_append {ml' : List Memmap} :
    Holds h (ml ++ ml') a b ↔ Holds h ml a b ∨ Holds h ml' a b := by
  constructor
  · rintro ⟨m, hm, hh⟩
    rcases mem_append.mp hm with hm | hm
    · exact Or.inl ⟨m, hm, hh⟩
    · exact Or.inr ⟨m, hm, hh⟩
  · rintro (⟨m, hm, hh⟩ | ⟨m, hm, hh⟩)
    · exact ⟨m, by simp [hm], hh⟩
    · exact ⟨m, by simp [hm], hh⟩

theorem holds_host_congr (hb : ∀ m ∈ ml, h'.bytes m.data.region = h.bytes m.data.region) :
    Holds h' ml a b ↔ Holds h ml a b := by
  have key : ∀ m ∈ ml, h'.byte (m.ptr a) = h.byte (m.ptr a) := by
    intro m hm
    simp [byte, hb m hm]
  constructor
  · rintro ⟨m, hm, hh, rfl⟩
    exact ⟨m, hm, hh, (key m hm).symm⟩
  · rintro ⟨m, hm, hh, rfl⟩
    exact ⟨m, hm, hh, key m hm⟩

variable {post pre : List Memmap} {m' : Memmap}

/-- Replacing a segment by one with the same range and the same bytes keeps the view. -/
theorem viewOf_replace_one (hml : MapsOk (pre ++ m :: post)) (hp : m'.paddr = m.paddr)
    (hs : m'.size = m.size)
    (hb : ∀ x ∈ pre ++ post, h'.bytes x.data.region = h.bytes x.data.region)
    (hm : ∀ a, m.Has a → h'.byte (m'.ptr a) = h.byte (m.ptr a)) :
    viewOf h' (pre ++ m' :: post) = viewOf h (pre ++ m :: post) := by
  have hhas : ∀ a, m'.Has a ↔ m.Has a := by
    intro a
    rw [Memmap.Has, Memmap.Has, Memmap.stop, Memmap.stop, hp, hs]
  refine viewOf_congr (hml.replace_one hp hs) hml fun a b => ?_
  rw [holds_append, holds_append, holds_cons, holds_cons, hhas,
    holds_host_congr (fun x hx => hb x (by simp [hx])),
    holds_host_congr (fun x hx => hb x (by simp [hx]))]
  have : (m.Has a ∧ h'.byte (m'.ptr a) = b) ↔ (m.Has a ∧ h.byte (m.ptr a) = b) := by
    constructor
    · rintro ⟨ha, rfl⟩
      exact ⟨ha, (hm a ha).symm⟩
    · rintro ⟨ha, rfl⟩
      exact ⟨ha, hm a ha⟩
  rw [this]

theorem perm_front (pre post rest : List Memmap) (m : Memmap) :
    (pre ++ m :: post ++ rest).Perm (m :: (pre ++ post ++ rest)) := by
  simp

variable {s : State} {u v : ℕ}

theorem State.useCount_eq_one {rest : List Memmap} (hp : s.segs.Perm (m :: rest))
    (hm : m.cowData = some c) (h : s.useCount c = 1) : ∀ x ∈ rest, x.cowData ≠ some c := by
  rw [State.useCount, hp.countP_eq, countP_cons_of_pos (by simp [hm])] at h
  have hz : rest.countP (fun m => m.cowData == some c) = 0 := by omega
  intro x hx hc
  have := countP_eq_zero.mp hz x hx
  simp [hc] at this

theorem Wf.region_lt (hw : Wf s) (hu : u < s.nextVm) :
    ∀ x ∈ s.maps u, x.data.region < s.host.next := by
  intro x hx
  exact ((hw.sharing_front hu).ok x (by simp [hx])).region_lt

theorem view_setMaps_same (s : State) (heap : Heap) (ml : List Memmap)
    (hsp : (s.vms u).space = (s.vms v).space) :
    ((s.setHeap heap).setMaps v ml).view u = viewOf heap.host ml := by
  have hm : ((s.setHeap heap).setMaps v ml).maps u = ml := by
    simp [State.maps, State.setMaps, hsp]
  rw [view_def, hm]
  rfl

theorem view_setMaps_other (s : State) (heap : Heap) (ml : List Memmap)
    (hsp : (s.vms u).space ≠ (s.vms v).space) :
    ((s.setHeap heap).setMaps v ml).view u = viewOf heap.host (s.maps u) := by
  rw [view_def, setMaps_maps_of_ne (s.setHeap heap) u v ml hsp]
  rfl

theorem view_eq_of_space_eq (hsp : (s.vms u).space = (s.vms v).space) : s.view u = s.view v := by
  rw [view_def, view_def, State.maps, State.maps, hsp]

/-- Replacing one segment of `v` by one that shows the same bytes changes no view. -/
theorem view_replace_one (hw : Wf s) (hv : v < s.nextVm) (hml : s.maps v = pre ++ m :: post)
    {heap : Heap} (hp : m'.paddr = m.paddr) (hs : m'.size = m.size)
    (hb : ∀ r < s.host.next, heap.host.bytes r = s.host.bytes r)
    (hm : ∀ a, m.Has a → heap.host.byte (m'.ptr a) = s.host.byte (m.ptr a)) :
    ∀ u < s.nextVm, ((s.setHeap heap).setMaps v (pre ++ m' :: post)).view u =
      s.view u := by
  intro u hu
  by_cases hsp : (s.vms u).space = (s.vms v).space
  · rw [view_setMaps_same s heap _ hsp, view_eq_of_space_eq hsp, view_def, hml]
    refine viewOf_replace_one (hml ▸ hw.mapsOk hv) hp hs ?_ hm
    intro x hx
    refine hb _ (hw.region_lt hv x ?_)
    rw [hml]
    simp only [mem_append, mem_cons] at hx ⊢
    tauto
  · rw [view_setMaps_other s heap _ hsp]
    exact viewOf_host_congr fun x hx => hb _ (hw.region_lt hu x hx)

/-! ## Copy on write -/

/-- The segment is still there, at most unshared. -/
structure Memmap.Kept (m m' : Memmap) : Prop where
  paddr : m'.paddr = m.paddr
  size : m'.size = m.size
  flags : m'.flags = m.flags
  cow : m' = m ∨ m'.cowData = none

theorem Memmap.Kept.refl (m : Memmap) : m.Kept m := ⟨rfl, rfl, rfl, Or.inl rfl⟩

theorem kept_refl (ml : List Memmap) : List.Forall₂ Memmap.Kept ml ml :=
  forall₂_same.mpr fun m _ => Memmap.Kept.refl m

/-- The outcome of `resolveCow` when it returns a segment. -/
structure Resolved (s s' : State) (v : ℕ) (m m' : Memmap) : Prop where
  wf : Wf s'
  edits : Edits s s' v (fun x => x = m ∧ m.cowData ≠ none)
  own : TlbOk (s.maps v) (s.vms v).tlb → TlbOk (s'.maps v) (s'.vms v).tlb
  view : ∀ u < s.nextVm, s'.view u = s.view u
  mem : m' ∈ s'.maps v
  paddr : m'.paddr = m.paddr
  size : m'.size = m.size
  flags : m'.flags = m.flags
  cow : m'.cowData = none
  kept : List.Forall₂ Memmap.Kept (s.maps v) (s'.maps v)

/-- Replacing a shared segment by an unshared one, then flushing the TLB. -/
theorem resolved_of_replace (hw : Wf s) (hv : v < s.nextVm) (hml : s.maps v = pre ++ m :: post)
    {heap : Heap} (hsh : Sharing heap (m' :: (pre ++ post ++ s.others (s.vms v).space)))
    (hp : m'.paddr = m.paddr) (hs : m'.size = m.size) (hf : m'.flags = m.flags)
    (hc : m.cowData ≠ none) (hc' : m'.cowData = none)
    (hb : ∀ r < s.host.next, heap.host.bytes r = s.host.bytes r)
    (hm : ∀ a, m.Has a → heap.host.byte (m'.ptr a) = s.host.byte (m.ptr a)) :
    Resolved s (((s.setHeap heap).setMaps v (pre ++ m' :: post)).flushTlb v)
      v m m' := by
  have hok : MapsOk (pre ++ m' :: post) := (hml ▸ hw.mapsOk hv).replace_one hp hs
  refine ⟨(hw.edit hv heap hok (hsh.perm (perm_front _ _ _ _).symm)).flushTlb v, ?_, ?_, ?_, ?_,
    hp, hs, hf, hc', ?_⟩
  · refine (Edits.setMaps s v heap _ ?_).trans (Edits.flushTlb _ v _)
    intro x hx hnt
    rw [hml] at hx
    simp only [mem_append, mem_cons] at hx ⊢
    have : x ≠ m := fun he => hnt ⟨he, hc⟩
    tauto
  · intro _
    rw [flushTlb_tlb_self]
    exact tlbOk_zero _
  · intro u hu
    rw [← view_replace_one hw hv hml hp hs hb hm u hu, view_def, view_def, flushTlb_maps,
      flushTlb_host]
  · simp
  · rw [flushTlb_maps, setMaps_maps, hml]
    exact rel_append (kept_refl pre) (.cons ⟨hp, hs, hf, Or.inr hc'⟩ (kept_refl post))

theorem segs_perm_front (hw : Wf s) (hv : v < s.nextVm) (hml : s.maps v = pre ++ m :: post) :
    s.segs.Perm (m :: (pre ++ post ++ s.others (s.vms v).space)) := by
  refine (segs_perm (hw.space_lt v hv)).trans ?_
  change (s.maps v ++ _).Perm _
  rw [hml]
  exact perm_front _ _ _ _

/-- The host may change outside the allocations made so far. -/
theorem Wf.setHost (hw : Wf s) (hnext : s.host.next ≤ h.next)
    (hm : ∀ r < s.host.next, h.mapped r = s.host.mapped r) : Wf (s.setHost h) := by
  refine ⟨hw.maps, hw.space_lt, ?_⟩
  refine hw.sharing.frame hnext le_rfl ?_ (fun _ _ _ _ => rfl)
  intro m hmem
  exact hm _ (hw.sharing.ok m hmem).region_lt

theorem view_setHost (hw : Wf s) (hb : ∀ r < s.host.next, h.bytes r = s.host.bytes r) :
    ∀ u < s.nextVm, (s.setHost h).view u = s.view u := by
  intro u hu
  exact viewOf_host_congr fun m hm => hb _ (hw.region_lt hu m hm)

theorem Host.memcpy_bytes_of_ne {src : HostPtr} {r : ℕ} (hr : r ≠ p.region) :
    (h.memcpy p src n).bytes r = h.bytes r := by
  funext o
  simp [memcpy, hr]

/-- The copy branch leaves every earlier allocation as it is. If it succeeds, a fresh allocation
has the bytes of the segment. -/
theorem Host.copySegment_spec (env : HostEnv) (h : Host) (m : Memmap) :
    h.next ≤ (h.copySegment env m).2.next ∧
      (∀ r < h.next, (h.copySegment env m).2.bytes r = h.bytes r) ∧
      (∀ r < h.next, (h.copySegment env m).2.mapped r = h.mapped r) ∧
      ∀ p, (h.copySegment env m).1 = some p → p = ⟨h.next, 0⟩ ∧
        (h.copySegment env m).2.next = h.next + 1 ∧
        (h.copySegment env m).2.mapped = (h.mmap m.size m.copyProt (fun _ => 0)).2.mapped ∧
        (m.data.region < h.next → ∀ o < m.size, (h.copySegment env m).2.bytes h.next o =
          h.bytes m.data.region (m.data.off + o)) := by
  unfold copySegment
  split_ifs
  · exact ⟨le_rfl, fun _ _ => rfl, fun _ _ => rfl, nofun⟩
  · generalize hm : h.mmap m.size m.copyProt (fun _ => 0) = r
    obtain ⟨p, h₁⟩ := r
    obtain ⟨hp, hnext, hbytes, hmapped⟩ := mmap_frame hm
    dsimp only
    have hb := mprotect_bytes h₁ env m.data m.size protRead
    have hmp := mprotect_mapped h₁ env m.data m.size protRead
    have hn := mprotect_next h₁ env m.data m.size protRead
    generalize h₁.mprotect env m.data m.size protRead = q at hb hmp hn ⊢
    obtain ⟨_ | e, h₂⟩ := q
    · dsimp only at hb hmp hn ⊢
      refine ⟨?_, ?_, ?_, fun q hq => ?_⟩
      · simp [memcpy, hn, hnext]
      · intro r hr
        rw [mprotect_bytes, memcpy_bytes_of_ne (by rw [hp]; exact hr.ne), hb,
          hbytes r hr]
      · intro r hr
        simp only [mprotect_mapped, memcpy, hmp, hmapped r hr]
      · obtain rfl := Option.some.inj hq
        refine ⟨hp, by simp [memcpy, hn, hnext], by simp [memcpy, hmp], ?_⟩
        intro hm o ho
        simp [memcpy, hb, hbytes _ hm, hp, ho]
    · dsimp only at hb hmp hn ⊢
      refine ⟨?_, ?_, ?_, nofun⟩
      · simp [hn, hnext]
      · intro r hr
        rw [munmap_bytes, hb, hbytes r hr]
      · intro r hr
        rw [munmap_mapped_of_ne (by rw [hp]; exact hr.ne), hmp, hmapped r hr]

/-- `resolveCow` gives the segment allocations of its own, or fails without a trace in any view. -/
theorem resolveCow_spec (env : HostEnv) (hw : Wf s) (hv : v < s.nextVm)
    (hf : findMap (s.maps v) a n = some m) :
    (∃ m' s', s.resolveCow env v a m = (some m', s') ∧ Resolved s s' v m m') ∨
    ∃ host, s.resolveCow env v a m = (none, s.setHost host) ∧ Wf (s.setHost host) ∧
      ∀ u < s.nextVm, (s.setHost host).view u = s.view u := by
  obtain ⟨pre, post, hml, hstep⟩ := cowStep env hf
  have hfront := segs_perm_front hw hv hml
  have hsh := hw.sharing.perm hfront
  generalize s.resolveCow env v a m = r at hstep ⊢
  cases hstep with
  | plain hc =>
    exact .inl ⟨m, s, rfl, hw, Edits.refl _ _ _, id, fun _ _ => rfl, findMap_mem hf, rfl, rfl, rfl,
      hc,
      kept_refl _⟩
  | steal hc hone =>
    have hsteal := hsh.steal hc (useCount_eq_one hfront hc hone)
    exact .inl ⟨_, _, rfl, resolved_of_replace hw hv hml hsteal rfl rfl rfl (by simp [hc]) rfl
      (fun _ _ => rfl) (fun _ _ => rfl)⟩
  | full hc hcopy =>
    obtain ⟨hnext, hb, hmap, -⟩ := copySegment_spec env s.host m
    rw [hcopy] at hnext hb hmap
    exact .inr ⟨_, rfl, hw.setHost hnext hmap, view_setHost hw hb⟩
  | @copy c p host hc hmany hcopy =>
    obtain ⟨-, hb, -, hsome⟩ := copySegment_spec env s.host m
    obtain ⟨hp, hnext, hmapped, hbytes⟩ := hsome p (congrArg Prod.fst hcopy)
    rw [hcopy] at hb hnext hmapped hbytes
    refine .inl ⟨_, _, rfl, resolved_of_replace hw hv hml ?_ rfl rfl rfl (by simp [hc]) rfl hb ?_⟩
    · have hfresh := hsh.tail.fresh (m := m.copied p) m.size m.copyProt (fun _ => 0) hp le_rfl
        rfl rfl
      refine hfresh.frame hnext.ge le_rfl ?_ (fun _ _ _ _ => rfl)
      intro x _
      change host.mapped _ = _
      rw [hmapped]
      rfl
    · intro b hbm
      have h₁ := hbm.1
      have h₂ := hbm.2
      unfold Memmap.stop at h₂
      simpa [byte, Memmap.ptr, Memmap.copied, hp] using
        hbytes hsh.head.region_lt (b - m.paddr) (by omega)

/-! ## `mmu_w` -/

/-- The segment a write of `[a, a + n)` would have to unshare. -/
def CowHit (a n : ℕ) (m : Memmap) : Prop :=
  m.cowData ≠ none ∧ hasFlag m.flags pfW = true ∧ m.paddr ≤ a ∧ a + n ≤ m.stop

/-- The outcome of a translation for writing. -/
structure Ready (s : State) (r : Option HostPtr × State) (v a n : ℕ) : Prop where
  wf : Wf r.2
  edits : Edits s r.2 v (CowHit a n)
  own : TlbOk (r.2.maps v) (r.2.vms v).tlb
  view : ∀ u < s.nextVm, r.2.view u = s.view u
  kept : List.Forall₂ Memmap.Kept (s.maps v) (r.2.maps v)
  hit : ∀ p, r.1 = some p → ∃ m ∈ r.2.maps v, m.cowData = none ∧
    hasFlag m.flags pfW = true ∧ m.paddr ≤ a ∧ a + n ≤ m.stop ∧ p = m.ptr a

theorem ready_self (hw : Wf s) (htlb : TlbOk (s.maps v) (s.vms v).tlb) : Ready s (none, s) v a n :=
  ⟨hw, Edits.refl _ _ _, htlb, fun _ _ => rfl, kept_refl _, by simp⟩

theorem mmuWSlow_spec (env : HostEnv) (hw : Wf s) (hv : v < s.nextVm)
    (htlb : TlbOk (s.maps v) (s.vms v).tlb) (ha : a < 2 ^ 64) (hn : 0 < n) (hn' : n < 2 ^ 64) :
    Ready s (s.mmuWSlow env v a n) v a n := by
  unfold State.mmuWSlow
  cases hf : findMap (s.maps v) a n with
  | none => exact ready_self hw htlb
  | some m =>
    obtain ⟨-, hlo, hhi⟩ := (findMap_eq_some_iff (hw.mapsOk hv) ha hn hn').mp hf
    dsimp only
    split_ifs with hW
    · rcases resolveCow_spec env hw hv hf with ⟨m', s', he, hr⟩ | ⟨host, he, hwf, hview⟩
      · rw [he]
        have htouch : Edits s s' v (CowHit a n) := by
          refine hr.edits.mono ?_
          rintro x - ⟨rfl, hc⟩
          exact ⟨hc, hW, hlo, hhi⟩
        refine ⟨hr.wf.setTlb _ _ _, htouch.trans (Edits.setTlb _ _ _ _ _), ?_, ?_,
          by rw [setTlb_maps]; exact hr.kept, ?_⟩
        · rw [setTlb_maps, setTlb_tlb_self]
          exact (hr.own htlb).update hr.mem _
        · intro u hu
          rw [← hr.view u hu, view_def, view_def, setTlb_maps, setTlb_host]
        · intro p hp
          obtain rfl := Option.some.inj hp
          refine ⟨m', by simpa using hr.mem, hr.cow, hr.flags ▸ hW, hr.paddr ▸ hlo, ?_, rfl⟩
          rw [Memmap.stop, hr.paddr, hr.size]
          exact hhi
      · rw [he]
        exact ⟨hwf, Edits.heap _ _ _ _, htlb, hview, kept_refl _, by simp⟩
    · exact ready_self hw htlb

theorem mmuW_spec (env : HostEnv) (hw : Wf s) (hv : v < s.nextVm)
    (htlb : TlbOk (s.maps v) (s.vms v).tlb) (ha : a < 2 ^ 64) (hn : 0 < n) (hn' : n < 2 ^ 64) :
    Ready s (s.mmuW env v a n) v a n := by
  rcases mmuW_cases env (hw.mapsOk hv) htlb ha hn hn' with ⟨m, hf, hW, hcow, he⟩ | he
  · obtain ⟨hm, hlo, hhi⟩ := (findMap_eq_some_iff (hw.mapsOk hv) ha hn hn').mp hf
    rw [he]
    refine ⟨hw, Edits.refl _ _ _, htlb, fun _ _ => rfl, kept_refl _, fun p hp => ?_⟩
    exact ⟨m, hm, hcow, hW, hlo, hhi, (Option.some.inj hp).symm⟩
  · rw [he]
    exact mmuWSlow_spec env hw hv htlb ha hn hn'

/-! ## Guest stores -/

/-- A store through the pointer of an unshared segment writes the view of that segment. -/
theorem viewOf_store (hml : MapsOk ml) (hm : m ∈ ml)
    (hone : ∀ x ∈ ml, x.data.region = m.data.region → x = m) (hlo : m.paddr ≤ a)
    (hhi : a + bs.length ≤ m.stop) :
    viewOf (h.store (m.ptr a) bs) ml = FlatMemory.write (viewOf h ml) a bs := by
  funext x
  by_cases hx : a ≤ x ∧ x < a + bs.length
  · rw [FlatMemory.write_of_mem hx.1 hx.2,
      viewOf_eq_of_has hml hm ⟨hlo.trans hx.1, hx.2.trans_le hhi⟩]
    have hi : m.data.off + (x - m.paddr) - (m.data.off + (a - m.paddr)) = x - a := by omega
    have hr : m.data.off + (a - m.paddr) ≤ m.data.off + (x - m.paddr) ∧
        m.data.off + (x - m.paddr) < m.data.off + (a - m.paddr) + bs.length := by omega
    have hlt : x - a < bs.length := by omega
    simp [byte, store, hr, hi, hlt]
  · rw [FlatMemory.write_of_not_mem (by omega)]
    apply Option.ext
    intro b
    rw [viewOf_eq_some_iff hml, viewOf_eq_some_iff hml]
    have key : ∀ y ∈ ml, y.Has x → (h.store (m.ptr a) bs).byte (y.ptr x) = h.byte (y.ptr x) := by
      intro y hy hyx
      by_cases hreg : y.data.region = m.data.region
      · obtain rfl := hone y hy hreg
        have h₁ := hyx.1
        have : ¬ (y.data.off + (a - y.paddr) ≤ y.data.off + (x - y.paddr) ∧
            y.data.off + (x - y.paddr) < y.data.off + (a - y.paddr) + bs.length) := by omega
        simp only [byte, store, Memmap.ptr_region, Memmap.ptr_off, true_and, this,
          if_false]
      · simp [byte, store, hreg]
    constructor
    · rintro ⟨y, hy, hyx, rfl⟩
      exact ⟨y, hy, hyx, (key y hy hyx).symm⟩
    · rintro ⟨y, hy, hyx, rfl⟩
      exact ⟨y, hy, hyx, key y hy hyx⟩

/-- An operation of `v` on its own container, after which `v` sees `after`; the views of the
other containers do not change. -/
structure Changed (s s' : State) (v : ℕ) (touched : Memmap → Prop) (after : ℕ → Option Byte) :
    Prop where
  wf : Wf s'
  edits : Edits s s' v touched
  own : TlbOk (s'.maps v) (s'.vms v).tlb
  view_self : s'.view v = after
  view_other : ∀ u < s.nextVm, (s.vms u).space ≠ (s.vms v).space → s'.view u = s.view u

/-- The segments of another container are among the others. -/
theorem mem_others (hw : Wf s) (hu : u < s.nextVm) (hsp : (s.vms u).space ≠ (s.vms v).space)
    {x : Memmap} (hx : x ∈ s.maps u) : x ∈ s.others (s.vms v).space := by
  refine mem_flatMap.mpr ⟨(s.vms u).space, ?_, hx⟩
  exact (nodup_range.mem_erase_iff).mpr ⟨hsp, mem_range.mpr (hw.space_lt u hu)⟩

/-- A store through the pointer that a translation for writing gave. -/
theorem Ready.store {s' : State} (hready : Ready s (some p, s') v a bs.length) (hv : v < s.nextVm) :
    Changed s (s'.setHost (s'.host.store p bs)) v (CowHit a bs.length)
      (FlatMemory.write (s.view v) a bs) := by
  obtain ⟨m, hm, hcow, -, hlo, hhi, rfl⟩ := hready.hit p rfl
  have hv' : v < s'.nextVm := hready.edits.nextVm ▸ hv
  obtain ⟨pre, post, hml⟩ := append_of_mem hm
  have hfront := hready.wf.sharing.perm (segs_perm_front hready.wf hv' hml)
  have hne := hfront.region_ne_of_unshared hcow
  refine ⟨hready.wf.store _ _, hready.edits.trans (Edits.heap _ _ _ _), hready.own, ?_, ?_⟩
  · rw [← hready.view v hv]
    refine viewOf_store (hready.wf.mapsOk hv') hm ?_ hlo hhi
    intro x hx hreg
    change x ∈ s'.maps v at hx
    rw [hml] at hx
    by_contra hxm
    refine hne x ?_ hreg
    simp only [mem_append, mem_cons] at hx ⊢
    tauto
  · intro u hu hsp
    rw [← hready.view u hu]
    refine viewOf_host_congr fun x hx => ?_
    have hsp' : (s'.vms u).space ≠ (s'.vms v).space := by
      rw [hready.edits.space, hready.edits.space]
      exact hsp
    have hux := mem_others hready.wf (hready.edits.nextVm ▸ hu) hsp' hx
    have hreg := hne x (by simp [hux])
    funext o
    simp [store, hreg]

theorem storeBytes_spec (env : HostEnv) (hw : Wf s) (hv : v < s.nextVm)
    (htlb : TlbOk (s.maps v) (s.vms v).tlb) (ha : a < 2 ^ 64) (hn : 0 < bs.length)
    (hn' : bs.length < 2 ^ 64) :
    Changed s (s.storeBytes env v a bs).2 v (CowHit a bs.length)
      (if (s.storeBytes env v a bs).1 then FlatMemory.write (s.view v) a bs else s.view v) := by
  have hready := mmuW_spec env hw hv htlb ha hn hn'
  unfold State.storeBytes
  generalize s.mmuW env v a bs.length = r at hready ⊢
  obtain ⟨_ | p, s'⟩ := r
  · exact ⟨hready.wf, hready.edits, hready.own, hready.view v hv, fun u hu _ => hready.view u hu⟩
  · exact hready.store hv

end Bpfvm.Memory
