import Bpfvm.Memory.Translate

/-!
# Mapping and unmapping

`do_munmap` and `do_mmap` on one container. They are shown to keep the state well formed and to
change the caller's view in the way their names say: `do_munmap` unmaps the range of the segment
that starts at the address, `do_mmap` maps the range it returns over whatever was there. The range
of `do_mmap` must end below `2 ^ 64`.
-/
namespace Bpfvm.Memory
open FlatMemory Segments
open List hiding map
open State hiding unmap

variable {ml : List Memmap}

variable {s : State} {v base stop : ℕ} {m : Memmap} {h : Host} {p : HostPtr} {a : MmapArgs}

/-- The segments of the state after an edit of the container of `v`. -/
theorem mem_segs_setMaps (hw : Wf s) (hv : v < s.nextVm) (heap : Heap) {x : Memmap} :
    x ∈ ((s.setHeap heap).setMaps v ml).segs ↔ x ∈ ml ++ s.others (s.vms v).space :=
  (segs_update_perm (s := s.setHeap heap) (hw.space_lt v hv) ml).mem_iff

/-! ## `do_munmap` -/

theorem MapsOk.not_mem_remove {pre post : List Memmap} (hml : MapsOk (pre ++ m :: post)) :
    m ∉ pre ++ post := by
  intro hm
  have hord := hml.sorted.ordered
  have hlt := hml.paddr_lt (m := m) (by simp)
  rw [pairwise_append] at hord
  rcases mem_append.mp hm with hm | hm
  · have := hord.2.2 m hm m (by simp)
    omega
  · have := (pairwise_cons.mp hord.2.1).1 m hm
    omega

theorem viewOf_remove {pre post : List Memmap} (hml : MapsOk (pre ++ m :: post)) :
    viewOf h (pre ++ post) =
      unmap (viewOf h (pre ++ m :: post)) m.paddr m.size := by
  have hsub : (pre ++ post).Sublist (pre ++ m :: post) := by simp
  funext a
  unfold unmap
  split_ifs with ha
  · refine Option.eq_none_iff_forall_ne_some.mpr fun b hb => ?_
    obtain ⟨x, hx, hxa, -⟩ := (viewOf_eq_some_iff (hml.sublist hsub)).mp hb
    have hxm : x = m := hml.eq_of_has (hsub.subset hx) (by simp) hxa ha
    exact hml.not_mem_remove (hxm ▸ hx)
  · apply Option.ext
    intro b
    rw [viewOf_eq_some_iff hml, viewOf_eq_some_iff (hml.sublist hsub), holds_append,
      holds_append, holds_cons]
    have hno : ¬ m.Has a := ha
    simp [hno]

theorem doMunmap_none {a : ℕ} (hf : (s.maps v).find? (fun m => a == m.paddr) = none) :
    s.doMunmap v a = (-22, s) := by
  simp [State.doMunmap, State.unmap, hf]

/-- `do_munmap` takes one segment out of the container. -/
theorem doMunmap_some {a : ℕ} (hf : (s.maps v).find? (fun m => a == m.paddr) = some m) :
    ∃ pre post, s.maps v = pre ++ m :: post ∧ m.paddr = a ∧
      s.doMunmap v a = (0, ((s.setMaps v (pre ++ post)).release m).flushTlb v) ∧
      (s.doMunmap v a).2.maps v = pre ++ post := by
  obtain ⟨hma, pre, post, hml, hpre⟩ := find?_eq_some_iff_append.mp hf
  have herase : (s.maps v).eraseP (fun m => a == m.paddr) = pre ++ post := by
    rw [hml, eraseP_append_right _ (by simpa using hpre),
      eraseP_cons_of_pos (by simpa using hma)]
  have hunmap : s.doMunmap v a = (0, ((s.setMaps v (pre ++ post)).release m).flushTlb v) := by
    simp only [State.doMunmap, State.unmap, hf, herase]
  obtain ⟨hspaces, hvms, -⟩ := release_frame (s.setMaps v (pre ++ post)) m
  refine ⟨pre, post, hml, (beq_iff_eq.mp hma).symm, hunmap, ?_⟩
  rw [hunmap, flushTlb_maps, State.maps, hspaces, hvms]
  exact setMaps_maps s v _

theorem doMunmap_spec {a : ℕ} (hw : Wf s) (hv : v < s.nextVm)
    (hf : (s.maps v).find? (fun m => a == m.paddr) = some m) :
    Changed s (s.doMunmap v a).2 v (fun m => m.paddr = a)
      (unmap (s.view v) m.paddr m.size) := by
  obtain ⟨pre, post, hml, hma', hunmap, -⟩ := doMunmap_some hf
  have hfront := hw.sharing.perm (segs_perm_front hw hv hml)
  have hok : MapsOk (pre ++ post) := by
    have := hw.mapsOk hv
    rw [hml] at this
    exact this.sublist (by simp)
  have hwf : Wf (s.setMaps v (pre ++ post)) := hw.edit hv s.heap hok hfront.tail
  have hdrop : Droppable (s.setMaps v (pre ++ post)).heap (s.setMaps v (pre ++ post)).segs m :=
    hfront.droppable.mono fun x hx => (mem_segs_setMaps hw hv s.heap).mp hx
  have hrel := released_release [] (by simp) hdrop
  rw [hunmap]
  refine ⟨(hrel.wf hwf hwf.sharing).flushTlb v, ?_, ?_, ?_, ?_⟩
  · refine ((Edits.setMaps s v s.heap _ ?_).trans (Edits.released hrel v _)).trans
      (Edits.flushTlb _ v _)
    intro x hx hne
    rw [hml] at hx
    have : x ≠ m := fun he => hne (he ▸ hma')
    simp only [mem_append, mem_cons] at hx ⊢
    tauto
  · rw [flushTlb_tlb_self]
    exact tlbOk_zero _
  · have := viewOf_remove (h := s.host) (hml ▸ hw.mapsOk hv)
    rw [← hml] at this
    rw [view_def, view_def, ← this, flushTlb_maps, flushTlb_host]
    have h₁ := hrel.view v
    rw [view_def, view_def, setMaps_maps] at h₁
    exact h₁
  · intro u hu hsp
    have h₁ := hrel.view u
    rw [view_def, flushTlb_maps, flushTlb_host, ← view_def, h₁, view_def, view_def,
      setMaps_maps_of_ne s u v _ hsp]
    rfl

/-! ## Parts of a segment -/

theorem part_partOf {lo size : ℕ} {fl : U32} (hlo : m.paddr ≤ lo) (hhi : lo + size ≤ m.stop)
    (hb : lo < 2 ^ 64) : PartOf m (m.part lo size fl) := by
  refine ⟨rfl, rfl, rfl, hlo, hhi, ?_⟩
  simp [Memmap.part, usub_eq hlo hb]

theorem sorted_singleton (h : m.paddr < m.stop) : Segments.Sorted Memmap.paddr Memmap.stop [m] :=
  Segments.Sorted.cons_iff.mpr ⟨h, by simp, Segments.Sorted.nil⟩

section Punch

variable (hne : m.paddr < m.stop) (hb : m.stop < 2 ^ 64) (hlo : m.paddr < stop)
  (hhi : base < m.stop)

include hne hb hlo hhi

theorem mem_punchParts {p : Memmap} (hp : p ∈ punchParts m base stop) :
    PartOf m p ∧ p.paddr < p.stop ∧
      ((p.paddr = m.paddr ∧ p.stop = base) ∨ (p.paddr = stop ∧ p.stop = m.stop)) := by
  have hu : m.uend = m.stop := uadd_eq hb
  simp only [punchParts, hu, mem_append, mem_ite_nil_right, mem_singleton] at hp
  rcases hp with ⟨hl, rfl⟩ | ⟨hr, rfl⟩
  · rw [usub_eq hl.le (by omega)]
    have hst : m.paddr + (base - m.paddr) = base := Nat.add_sub_of_le hl.le
    exact ⟨part_partOf le_rfl (by omega) (by omega), hl.trans_eq hst.symm, .inl ⟨rfl, hst⟩⟩
  · rw [usub_eq hr.le hb]
    have hst : stop + (m.stop - stop) = m.stop := Nat.add_sub_of_le hr.le
    exact ⟨part_partOf hlo.le (by omega) (by omega), hr.trans_eq hst.symm, .inr ⟨rfl, hst⟩⟩

theorem punchParts_has (a : ℕ) :
    (∃ p ∈ punchParts m base stop, p.Has a) ↔ m.Has a ∧ ¬ (base ≤ a ∧ a < stop) := by
  constructor
  · rintro ⟨p, hp, hpa⟩
    obtain ⟨hpart, -, hcase⟩ := mem_punchParts hne hb hlo hhi hp
    refine ⟨hpart.has hpa, ?_⟩
    have h₁ := hpa.1
    have h₂ := hpa.2
    omega
  · rintro ⟨hma, hna⟩
    have h₁ := hma.1
    have h₂ := hma.2
    have hu : m.uend = m.stop := uadd_eq hb
    by_cases hab : a < base
    · refine ⟨m.part m.paddr (usub base m.paddr) m.flags, ?_, h₁, ?_⟩
      · simp [punchParts, show m.paddr < base by omega]
      · change a < m.paddr + usub base m.paddr
        rw [usub_eq (by omega) (by omega)]
        omega
    · refine ⟨m.part stop (usub m.stop stop) m.flags, ?_, ?_, ?_⟩
      · simp [punchParts, hu, show stop < m.stop by omega]
      · change stop ≤ a
        omega
      · change a < stop + usub m.stop stop
        rw [usub_eq (by omega) (by omega)]
        omega

variable (hbs : base < stop)

include hbs

theorem punchParts_sorted :
    Segments.Sorted Memmap.paddr Memmap.stop (punchParts m base stop) := by
  have hmem := fun p => mem_punchParts (p := p) hne hb hlo hhi
  refine ⟨fun p hp => (hmem p hp).2.1, ?_⟩
  have hu : m.uend = m.stop := uadd_eq hb
  unfold punchParts at hmem ⊢
  rw [hu] at hmem ⊢
  split_ifs at hmem ⊢ with hl hr
  · have h₁ := (hmem (m.part m.paddr (usub base m.paddr) m.flags) (by simp)).2.1
    refine pairwise_pair.mpr ?_
    have hsz : usub base m.paddr = base - m.paddr := usub_eq hl.le (by omega)
    change m.paddr + usub base m.paddr ≤ stop
    omega
  · simp
  · simp
  · simp

end Punch

theorem PartOf.self (h : m.owned = false) : PartOf m m :=
  ⟨rfl, h, rfl, le_rfl, le_rfl, by simp⟩

theorem punchParts_flags {p : Memmap} (hp : p ∈ punchParts m base stop) : p.flags = m.flags := by
  unfold punchParts at hp
  split_ifs at hp <;> simp at hp <;> rcases hp with rfl | rfl <;> rfl

/-- The segments that `punch_hole` leaves: those of `ml` outside the hole and the parts of the
others. -/
structure Carved (base stop : ℕ) (ml out : List Memmap) : Prop where
  sorted : Segments.Sorted Memmap.paddr Memmap.stop out
  inside : ∀ p ∈ out, ∃ m ∈ ml, m.paddr ≤ p.paddr ∧ p.stop ≤ m.stop
  clear : ∀ p ∈ out, p.stop ≤ base ∨ stop ≤ p.paddr
  keep : ∀ m ∈ ml, stop ≤ m.paddr ∨ m.stop ≤ base → m ∈ out
  back : ∀ p ∈ out, ∀ a, p.Has a → ∃ m ∈ ml, m.Has a ∧ p.ptr a = m.ptr a ∧ p.flags = m.flags
  cover : ∀ m ∈ ml, ∀ a, m.Has a → ¬ (base ≤ a ∧ a < stop) → ∃ p ∈ out, p.Has a

theorem Carved.mapsOk {out : List Memmap} (h : Carved base stop ml out) (hml : MapsOk ml) :
    MapsOk out := by
  refine ⟨h.sorted, fun p hp => ?_⟩
  obtain ⟨m, hm, -, hle⟩ := h.inside p hp
  exact hle.trans_lt (hml.bound m hm)

theorem Carved.holds {out : List Memmap} (h : Carved base stop ml out) (hml : MapsOk ml)
    (host : Host) (a : ℕ) (b : Byte) :
    Holds host out a b ↔ Holds host ml a b ∧ ¬ (base ≤ a ∧ a < stop) := by
  constructor
  · rintro ⟨p, hp, hpa, rfl⟩
    obtain ⟨m, hm, hma, hptr, -⟩ := h.back p hp a hpa
    have h₁ := h.clear p hp
    have h₂ := hpa.1
    have h₃ := hpa.2
    exact ⟨⟨m, hm, hma, by rw [hptr]⟩, by omega⟩
  · rintro ⟨⟨m, hm, hma, rfl⟩, hout⟩
    obtain ⟨p, hp, hpa⟩ := h.cover m hm a hma hout
    obtain ⟨m', hm', hma', hptr, -⟩ := h.back p hp a hpa
    obtain rfl := hml.eq_of_has hm hm' hma hma'
    exact ⟨p, hp, hpa, by rw [hptr]⟩

theorem Carved.append {ml₁ ml₂ out₁ out₂ : List Memmap} (h₁ : Carved base stop ml₁ out₁)
    (h₂ : Carved base stop ml₂ out₂) (hord : ∀ x ∈ ml₁, ∀ y ∈ ml₂, x.stop ≤ y.paddr) :
    Carved base stop (ml₁ ++ ml₂) (out₁ ++ out₂) := by
  refine ⟨Segments.Sorted.append_iff.mpr ⟨h₁.sorted, h₂.sorted, ?_⟩, ?_, ?_, ?_, ?_, ?_⟩
  · intro p hp y hy
    obtain ⟨m, hm, -, hle⟩ := h₁.inside p hp
    obtain ⟨x, hx, hxy, -⟩ := h₂.inside y hy
    exact hle.trans ((hord m hm x hx).trans hxy)
  · intro p hp
    rcases mem_append.mp hp with hp | hp
    · obtain ⟨m, hm, hmp⟩ := h₁.inside p hp
      exact ⟨m, mem_append_left _ hm, hmp⟩
    · obtain ⟨m, hm, hmp⟩ := h₂.inside p hp
      exact ⟨m, mem_append_right _ hm, hmp⟩
  · intro p hp
    exact (mem_append.mp hp).elim (h₁.clear p) (h₂.clear p)
  · intro m hm hout
    rw [mem_append] at hm ⊢
    exact hm.imp (h₁.keep m · hout) (h₂.keep m · hout)
  · intro p hp a hpa
    rcases mem_append.mp hp with hp | hp
    · obtain ⟨m, hm, hback⟩ := h₁.back p hp a hpa
      exact ⟨m, mem_append_left _ hm, hback⟩
    · obtain ⟨m, hm, hback⟩ := h₂.back p hp a hpa
      exact ⟨m, mem_append_right _ hm, hback⟩
  · intro m hm a hma hno
    rcases mem_append.mp hm with hm | hm
    · obtain ⟨p, hp, hpa⟩ := h₁.cover m hm a hma hno
      exact ⟨p, mem_append_left _ hp, hpa⟩
    · obtain ⟨p, hp, hpa⟩ := h₂.cover m hm a hma hno
      exact ⟨p, mem_append_right _ hp, hpa⟩

theorem carved_self (hs : Segments.Sorted Memmap.paddr Memmap.stop ml)
    (hout : ∀ m ∈ ml, m.stop ≤ base ∨ stop ≤ m.paddr) : Carved base stop ml ml :=
  ⟨hs, fun p hp => ⟨p, hp, le_rfl, le_rfl⟩, hout, fun _ hm _ => hm,
    fun p hp _ hpa => ⟨p, hp, hpa, rfl, rfl⟩, fun p hp _ hpa _ => ⟨p, hp, hpa⟩⟩

theorem carved_punchParts (hbs : base < stop) (h : Heap) (hne : m.paddr < m.stop)
    (hb : m.stop < 2 ^ 64) (hov : ¬ (stop ≤ m.paddr ∨ m.stop ≤ base)) :
    Carved base stop [m] (punchParts (shareHost h m).2 base stop) := by
  have hp₁ := shareHost_paddr h m
  have hs₁ := shareHost_stop h m
  have hhas := shareHost_has h m
  have hne₁ : (shareHost h m).2.paddr < (shareHost h m).2.stop := by omega
  have hb₁ : (shareHost h m).2.stop < 2 ^ 64 := by omega
  have hlo₁ : (shareHost h m).2.paddr < stop := by omega
  have hhi₁ : base < (shareHost h m).2.stop := by omega
  have hmem := fun p => mem_punchParts (p := p) hne₁ hb₁ hlo₁ hhi₁
  refine ⟨punchParts_sorted hne₁ hb₁ hlo₁ hhi₁ hbs, ?_, ?_, ?_, ?_, ?_⟩
  · intro p hp
    have hpart := (hmem p hp).1
    exact ⟨m, by simp, hp₁ ▸ hpart.lo, hs₁ ▸ hpart.hi⟩
  · intro p hp
    rcases (hmem p hp).2.2 with ⟨-, he⟩ | ⟨he, -⟩ <;> omega
  · exact forall_mem_singleton.mpr fun hout => absurd hout hov
  · intro p hp a hpa
    have hpart := (hmem p hp).1
    exact ⟨m, by simp, (hhas a).mp (hpart.has hpa),
      (hpart.ptr_eq hpa).trans (shareHost_ptr h m a),
      (punchParts_flags hp).trans (shareHost_flags h m)⟩
  · refine forall_mem_singleton.mpr fun a hma hno => ?_
    exact (punchParts_has hne₁ hb₁ hlo₁ hhi₁ a).mpr ⟨(hhas a).mpr hma, hno⟩

theorem carved_punchHole (hbs : base < stop) (h : Heap) (hml : MapsOk ml) :
    Carved base stop ml (punchHole base stop h ml).2.1 := by
  induction ml generalizing h with
  | nil => exact ⟨Segments.Sorted.nil, by simp [punchHole], by simp [punchHole], by simp,
      by simp [punchHole], by simp⟩
  | cons m ml ih =>
    have hml' : MapsOk ml := hml.sublist (sublist_cons_self m ml)
    obtain ⟨hne, hord, -⟩ := Segments.Sorted.cons_iff.mp hml.sorted
    unfold punchHole
    rw [hml.uend_eq (m := m) (by simp)]
    split_ifs with hout
    · exact (carved_self (sorted_singleton hne) (forall_mem_singleton.mpr hout.symm)).append
        (ih h hml') (forall_mem_singleton.mpr hord)
    · exact (carved_punchParts hbs h hne (hml.bound m (by simp)) hout).append (ih _ hml')
        (forall_mem_singleton.mpr hord)

theorem punchHole_host (base stop : ℕ) (h : Heap) (ml : List Memmap) :
    (punchHole base stop h ml).1.host = h.host := by
  induction ml generalizing h with
  | nil => rfl
  | cons m ml ih =>
    unfold punchHole
    split_ifs
    · exact ih h
    · exact (ih _).trans (shareHost_host h m)

/-- The kept and the dropped segments together still share their pages properly. -/
theorem sharing_punchHole (base stop : ℕ) {h : Heap} (rest : List Memmap) (hml : MapsOk ml)
    (hs : Sharing h (ml ++ rest)) : Sharing (punchHole base stop h ml).1
      ((punchHole base stop h ml).2.1 ++ ((punchHole base stop h ml).2.2 ++ rest)) := by
  induction ml generalizing h rest with
  | nil => exact hs
  | cons m ml ih =>
    have hml' : MapsOk ml := hml.sublist (sublist_cons_self m ml)
    have hne := hml.paddr_lt (m := m) (by simp)
    have hu : m.uend = m.stop := hml.uend_eq (by simp)
    unfold punchHole
    rw [hu]
    split_ifs with hout
    · have hr := ih (m :: rest) hml' (hs.perm perm_middle.symm)
      generalize punchHole base stop h ml = r at hr ⊢
      obtain ⟨h', out, dropped⟩ := r
      refine hr.perm (perm_iff_count.mpr fun x => ?_)
      simp only [count_append, count_cons]
      omega
    · obtain ⟨hsa, hsh⟩ := shareHost_spec (show Sharing h (m :: (ml ++ rest)) from hs)
      generalize shareHost h m = q at hsa hsh ⊢
      obtain ⟨h₁, m₁⟩ := q
      dsimp only at hsa hsh ⊢
      obtain ⟨c, hc⟩ := hsa.cow
      have hp₁ := hsa.paddr
      have hs₁ := hsa.stop
      have hb₁ : m₁.stop < 2 ^ 64 := hs₁ ▸ hml.bound m (by simp)
      have hparts : ∀ p ∈ punchParts m₁ base stop ++ [m₁], PartOf m₁ p := by
        intro p hp
        rcases mem_append.mp hp with hp | hp
        · exact (mem_punchParts (by omega) hb₁ (by omega) (by omega) hp).1
        · rw [mem_singleton.mp hp]
          exact PartOf.self hsa.own
      have hr := ih (m₁ :: (punchParts m₁ base stop ++ rest)) hml'
        ((hsh.parts hc hparts).perm (perm_iff_count.mpr fun x => by
          simp only [count_append, count_cons, count_nil]
          omega))
      generalize punchHole base stop h₁ ml = r at hr ⊢
      obtain ⟨h', out, dropped⟩ := r
      refine hr.perm (perm_iff_count.mpr fun x => ?_)
      simp only [count_append, count_cons]
      omega

/-- The state after `punch_hole` and the destruction of what it dropped, while the fresh
segment `m` is not in the container yet. -/
structure Cleared (s s' : State) (v base stop : ℕ) (m : Memmap) : Prop where
  wf : Wf s'
  sharing : Sharing s'.heap (m :: s'.segs)
  edits : Edits s s' v (fun x => x.paddr < stop ∧ base < x.stop)
  bytes : s'.host.bytes = s.host.bytes
  clear : ∀ y ∈ s'.maps v, y.stop ≤ base ∨ stop ≤ y.paddr
  view_self : ∀ a, ¬ (base ≤ a ∧ a < stop) → s'.view v a = s.view v a
  view_other : ∀ u < s.nextVm, (s.vms u).space ≠ (s.vms v).space → s'.view u = s.view u

theorem cleared_punch (hw : Wf s) (hv : v < s.nextVm) (hsh : Sharing s.heap (m :: s.segs))
    (hm : m.cowData = none) (hbs : base < stop) :
    Cleared s ((punchHole base stop s.heap (s.maps v)).2.2.foldl State.release
      ((s.setHeap (punchHole base stop s.heap (s.maps v)).1).setMaps v
        (punchHole base stop s.heap (s.maps v)).2.1)) v base stop m := by
  have hml := hw.mapsOk hv
  have hsh' := sharing_punchHole base stop _ hml (hsh.perm
    (((segs_perm (hw.space_lt v hv)).cons _).trans perm_middle.symm))
  have hhost := punchHole_host base stop s.heap (s.maps v)
  have hc := carved_punchHole hbs s.heap hml
  change Sharing (punchHole _ _ _ (s.maps v)).1 _ at hsh'
  generalize punchHole base stop s.heap (s.maps v) = r at hsh' hhost hc ⊢
  obtain ⟨heap, kept, dropped⟩ := r
  dsimp only at hhost hsh' hc ⊢
  have hok := hc.mapsOk hml
  -- `s₁` has the new container; the dropped segments still wait for their destruction
  set s₁ := (s.setHeap heap).setMaps v kept with hs₁
  have hsegs : ∀ x, x ∈ s₁.segs ↔ x ∈ kept ++ s.others (s.vms v).space := fun x =>
    mem_segs_setMaps hw hv heap
  have hfront : Sharing s₁.heap ([m] ++ s₁.segs) := by
    have hsub : Sharing heap (kept ++ m :: s.others (s.vms v).space) :=
      hsh'.sublist ((List.Sublist.refl kept).append (sublist_append_right _ _))
    refine hsub.perm (perm_middle.trans (List.Perm.cons m ?_))
    exact (segs_update_perm (s := s.setHeap heap) (hw.space_lt v hv) kept).symm
  have hwf₁ : Wf s₁ := by
    refine hw.edit hv heap hok (hsh'.sublist ?_)
    refine (List.Sublist.refl kept).append ?_
    exact (sublist_cons_self _ _).trans (sublist_append_right _ _)
  have hdrop : ∀ x ∈ dropped, Droppable heap ([m] ++ s₁.segs) x := by
    intro x hx
    have hperm : List.Perm (kept ++ (dropped ++ m :: s.others (s.vms v).space))
        (dropped ++ m :: (kept ++ s.others (s.vms v).space)) := by
      refine perm_iff_count.mpr fun y => ?_
      simp only [count_append, count_cons]
      omega
    refine ((hsh'.perm hperm).droppable_of_mem hx).mono fun y hy => ?_
    rcases mem_cons.mp hy with rfl | hy
    · simp
    · exact mem_cons_of_mem _ ((hsegs y).mp hy)
  have hrel := released_foldl [m] (s := s₁) (by simp [hm]) hdrop
  generalize dropped.foldl State.release s₁ = s₂ at hrel ⊢
  refine ⟨hrel.wf hwf₁ hfront, hrel.sharing hfront, ?_, ?_, ?_, ?_, ?_⟩
  · refine (Edits.setMaps s v heap kept ?_).trans (Edits.released hrel v _)
    intro x hx hnt
    exact hc.keep x hx (by omega)
  · rw [hrel.bytes, hs₁, setMaps_host, setHeap_host, hhost]
    rfl
  · intro y hy
    rw [hrel.maps, hs₁, setMaps_maps] at hy
    exact hc.clear y hy
  · intro a ha
    rw [hrel.view, view_def, view_def, hs₁, setMaps_maps, setMaps_host,
      setHeap_host, hhost]
    apply Option.ext
    intro b
    rw [viewOf_eq_some_iff hok, viewOf_eq_some_iff hml, hc.holds hml]
    simp only [ha, not_false_eq_true, and_true]
    rfl
  · intro u _ hsp
    rw [hrel.view, view_def, view_def, hs₁, setMaps_maps_of_ne (s.setHeap heap) u v _ hsp,
      setMaps_host, setHeap_host, hhost]
    rfl

/-! ## `do_mmap` -/

theorem viewOf_insert (hml : MapsOk ml) (hins : MapsOk (insertBefore Memmap.paddr ml m)) :
    viewOf h (insertBefore Memmap.paddr ml m) =
      map (viewOf h ml) m.paddr m.size (fun i => h.byte (m.data.add i)) := by
  funext a
  unfold map
  split_ifs with ha
  · exact viewOf_eq_of_has hins (by simp) ha
  · apply Option.ext
    intro b
    rw [viewOf_eq_some_iff hins, viewOf_eq_some_iff hml]
    have hno : ¬ m.Has a := ha
    constructor
    · rintro ⟨x, hx, hxa, hb⟩
      rcases mem_insertBefore.mp hx with rfl | hx
      · exact absurd hxa hno
      · exact ⟨x, hx, hxa, hb⟩
    · rintro ⟨x, hx, hxa, hb⟩
      exact ⟨x, mem_insertBefore.mpr (.inr hx), hxa, hb⟩

theorem mapsOk_insert (hml : MapsOk ml) (hne : m.paddr < m.stop) (hb : m.stop < 2 ^ 64)
    (hd : ∀ y ∈ ml, y.stop ≤ m.paddr ∨ m.stop ≤ y.paddr) :
    MapsOk (insertBefore Memmap.paddr ml m) := by
  refine ⟨hml.sorted.insertBefore hne hd, ?_⟩
  intro x hx
  rcases mem_insertBefore.mp hx with rfl | hx
  · exact hb
  · exact hml.bound x hx

/-- The range `do_mmap` is about to map, not reduced modulo `2 ^ 64`. -/
def State.mmapBase (s : State) (v : ℕ) (a : MmapArgs) : ℕ :=
  if a.fixed then a.addr
  else match (s.maps v).getLast? with
    | none => 0
    | some back => (back.stop + (pageSize - 1)) / pageSize * pageSize

/-- The segments `do_mmap` touches: with `MAP_FIXED`, those that meet the new range. -/
def MmapHit (a : MmapArgs) (base : ℕ) (m : Memmap) : Prop :=
  a.fixed = true ∧ m.paddr < base + roundUp a.len ∧ base < m.stop

/-- A fresh unshared segment that only waits to be put into the container of `v`. -/
theorem insert_spec {s₀ : State} {touched : Memmap → Prop} {after : ℕ → Option Byte}
    (hv : v < s.nextVm) (hw : Wf s) (hed : Edits s₀ s v touched)
    (hsh : Sharing s.heap (m :: s.segs)) (hne : m.paddr < m.stop) (hb : m.stop < 2 ^ 64)
    (hd : ∀ y ∈ s.maps v, y.stop ≤ m.paddr ∨ m.stop ≤ y.paddr)
    (hafter : map (s.view v) m.paddr m.size (fun i => s.host.byte (m.data.add i)) = after)
    (hother : ∀ u < s₀.nextVm, (s₀.vms u).space ≠ (s₀.vms v).space → s.view u = s₀.view u) :
    Changed s₀ ((s.setMaps v (insertBefore Memmap.paddr (s.maps v) m)).flushTlb v) v
      touched after := by
  have hok := mapsOk_insert (hw.mapsOk hv) hne hb hd
  have hsh' : Sharing s.heap
      (insertBefore Memmap.paddr (s.maps v) m ++ s.others (s.vms v).space) := by
    refine hsh.perm ?_
    refine ((segs_perm (hw.space_lt v hv)).cons m).trans ?_
    exact ((insertBefore_perm (s.maps v) m).append_right _).symm
  refine ⟨(hw.edit hv s.heap hok hsh').flushTlb v, ?_, ?_, ?_, ?_⟩
  · refine (hed.trans (Edits.setMaps s v s.heap _ ?_)).trans (Edits.flushTlb _ v _)
    intro x hx _
    exact mem_insertBefore.mpr (.inr hx)
  · rw [flushTlb_tlb_self]
    exact tlbOk_zero _
  · rw [← hafter, view_def, flushTlb_maps, flushTlb_host, setMaps_maps,
      setMaps_host, viewOf_insert (hw.mapsOk hv) hok]
    rfl
  · intro u hu hsp
    have hsp' : (s.vms u).space ≠ (s.vms v).space := by
      rw [hed.space, hed.space]
      exact hsp
    rw [← hother u hu hsp, view_def, view_def, flushTlb_maps, flushTlb_host,
      setMaps_maps_of_ne s u v _ hsp', setMaps_host]

variable {s' : State}

theorem Changed.flushTlb {touched : Memmap → Prop} {after : ℕ → Option Byte}
    (h : Changed s s' v touched after) : Changed s (s'.flushTlb v) v touched after := by
  refine ⟨h.wf.flushTlb v, h.edits.trans (Edits.flushTlb _ v _), ?_, ?_, ?_⟩
  · rw [flushTlb_tlb_self]
    exact tlbOk_zero _
  · rw [← h.view_self, view_def, view_def, flushTlb_maps, flushTlb_host]
  · intro u hu hsp
    rw [← h.view_other u hu hsp, view_def, view_def, flushTlb_maps, flushTlb_host]

theorem byte_mmap {h' : Host} {len : ℕ} {prot : U32} {init : ℕ → Byte}
    (hm : h.mmap len prot init = (p, h')) (i : ℕ) : h'.byte (p.add i) = init i := by
  obtain rfl : _ = h' := congrArg Prod.snd hm
  obtain rfl : _ = p := congrArg Prod.fst hm
  simp [Host.mmap, Host.byte]

/-- Without `MAP_FIXED` the new segment goes behind every other one. -/
theorem mapTail_place (hml : MapsOk (s.maps v)) (hfix : a.fixed = false)
    (hfit : s.mmapBase v a + roundUp a.len < 2 ^ 64) (hr : s.mapTail v a p = some (base, s')) :
    base = s.mmapBase v a ∧
      s' = (s.setMaps v (insertBefore Memmap.paddr (s.maps v)
        (a.segment base p))).flushTlb v ∧
      ∀ y ∈ s.maps v, y.stop ≤ base := by
  unfold State.mapTail at hr
  cases hl : (s.maps v).getLast? with
  | none => simp [hl] at hr
  | some back =>
    simp only [hl, Option.some.injEq, Prod.mk.injEq] at hr
    obtain ⟨rfl, rfl⟩ := hr
    have hback : back ∈ s.maps v := mem_of_getLast? hl
    have hbase : s.mmapBase v a = (back.stop + (pageSize - 1)) / pageSize * pageSize := by
      simp [State.mmapBase, hfix, hl]
    have hround : roundUp (uadd back.paddr back.size) = s.mmapBase v a := by
      have hu : uadd back.paddr back.size = back.stop := hml.uend_eq hback
      rw [hu, hbase, roundUp, uadd_eq]
      rw [hbase] at hfit
      unfold pageSize at hfit ⊢
      omega
    refine ⟨hround, rfl, fun y hy => ?_⟩
    have hle : y.stop ≤ back.stop := by
      obtain ⟨l, hl'⟩ := getLast?_eq_some_iff.mp hl
      rw [hl'] at hml hy
      rcases mem_append.mp hy with hy | hy
      · have h₁ := (Segments.Sorted.append_iff.mp hml.sorted).2.2 y hy back (by simp)
        have h₂ := hml.paddr_lt (m := back) (by simp)
        omega
      · rw [mem_singleton.mp hy]
    rw [hround, hbase]
    unfold pageSize
    omega

section Mmap

variable (hw : Wf s) (hv : v < s.nextVm) (hm : s.host.mmap (roundUp a.len) a.prot a.init = (p, h))
  (hlen : roundUp a.len ≠ 0)

include hw hm

/-- The state right after the host pages exist. -/
theorem wf_mmap : Wf (s.setHost h) ∧ (∀ u < s.nextVm, (s.setHost h).view u = s.view u) := by
  obtain ⟨-, hnext, hbytes, hmapped⟩ := Host.mmap_frame hm
  exact ⟨hw.setHost (by omega) hmapped, view_setHost hw hbytes⟩

theorem sharing_mmap (base : ℕ) :
    Sharing (s.setHost h).heap (a.segment base p :: (s.setHost h).segs) := by
  obtain ⟨hp, -⟩ := Host.mmap_frame hm
  have hsh := hw.sharing.fresh (m := a.segment base p) (roundUp a.len) a.prot a.init hp le_rfl
    rfl rfl
  obtain rfl : _ = h := congrArg Prod.snd hm
  exact hsh

include hv hlen

theorem mapTail_spec (hfix : a.fixed = false) (hfit : s.mmapBase v a + roundUp a.len < 2 ^ 64)
    (hr : (s.setHost h).mapTail v a p = some (base, s')) :
    base = s.mmapBase v a ∧ Changed s s' v (MmapHit a base)
      (map (s.view v) base (roundUp a.len) a.init) := by
  obtain ⟨hwf, hview⟩ := wf_mmap hw hm
  obtain ⟨rfl, rfl, hbelow⟩ := mapTail_place (hwf.mapsOk hv) hfix hfit hr
  refine ⟨rfl, ?_⟩
  refine insert_spec hv hwf (Edits.heap _ _ _ _) (sharing_mmap hw hm _) ?_ ?_ ?_ ?_ ?_
  · change s.mmapBase v a < s.mmapBase v a + roundUp a.len
    omega
  · exact hfit
  · exact fun y hy => .inl (hbelow y hy)
  · rw [hview v hv]
    congr 1
    funext i
    exact byte_mmap hm i
  · exact fun u hu _ => hview u hu

theorem mapFixed_spec (hfix : a.fixed = true) (hfit : a.addr + roundUp a.len < 2 ^ 64) :
    Changed s ((s.setHost h).mapFixed v a p) v (MmapHit a a.addr)
      (map (s.view v) a.addr (roundUp a.len) a.init) := by
  obtain ⟨hwf, hview⟩ := wf_mmap hw hm
  have hbs : a.addr < a.addr + roundUp a.len := by omega
  have hc := cleared_punch hwf hv (sharing_mmap hw hm a.addr) rfl hbs
  unfold State.mapFixed
  rw [uadd_eq hfit]
  generalize punchHole a.addr (a.addr + roundUp a.len) (s.setHost h).heap
    ((s.setHost h).maps v) = r at hc ⊢
  obtain ⟨heap, kept, dropped⟩ := r
  dsimp only at hc ⊢
  generalize dropped.foldl State.release (((s.setHost h).setHeap heap).setMaps v kept) = s₂
    at hc ⊢
  refine (insert_spec (s := s₂.flushTlb v) ?_ (hc.wf.flushTlb v) ?_ hc.sharing ?_ hfit ?_ ?_
    ?_).flushTlb
  · exact hc.edits.nextVm ▸ hv
  · refine ((Edits.heap s v _ _).trans (hc.edits.mono ?_)).trans (Edits.flushTlb _ v _)
    exact fun x _ hx => ⟨hfix, hx⟩
  · exact hbs
  · intro y hy
    rw [flushTlb_maps] at hy
    exact hc.clear y hy
  · change map ((s₂.flushTlb v).view v) a.addr (roundUp a.len)
      (fun i => (s₂.flushTlb v).host.byte (p.add i)) = _
    funext x
    unfold map
    split_ifs with hx
    · have hb : s₂.host.byte (p.add (x - a.addr)) = h.byte (p.add (x - a.addr)) := by
        rw [Host.byte, hc.bytes]
        rfl
      simp only [flushTlb_host, hb, byte_mmap hm]
    · rw [view_def, flushTlb_maps, flushTlb_host, ← view_def, hc.view_self x hx,
        hview v hv]
  · intro u hu hsp
    rw [view_def, flushTlb_maps, flushTlb_host, ← view_def, hc.view_other u hu hsp,
      hview u hu]

end Mmap

/-- `do_mmap` returns an error before it changes anything, or maps a range. -/
theorem doMmap_cases {env : HostEnv} {r : Except Int ℕ} (hr : s.doMmap env v a = some (r, s')) :
    (∃ e, r = .error e ∧ s' = s) ∨
    (roundUp a.len ≠ 0 ∧ ∃ p h, s.host.mmap (roundUp a.len) a.prot a.init = (p, h) ∧
      ((a.fixed = true ∧ r = .ok a.addr ∧ s' = (s.setHost h).mapFixed v a p) ∨
        (a.fixed = false ∧ ∃ base, r = .ok base ∧
          (s.setHost h).mapTail v a p = some (base, s')))) := by
  unfold State.doMmap at hr
  split at hr
  · cases hr
    exact .inl ⟨_, rfl, rfl⟩
  split at hr
  · cases hr
    exact .inl ⟨_, rfl, rfl⟩
  split at hr
  · cases hr
    exact .inl ⟨_, rfl, rfl⟩
  split at hr
  · cases hr
    exact .inl ⟨_, rfl, rfl⟩
  next hlen _ _ _ _ =>
    refine .inr ⟨hlen, _, _, rfl, ?_⟩
    dsimp only at hr
    split_ifs at hr with hfix
    · cases hr
      exact .inl ⟨hfix, rfl, rfl⟩
    · obtain ⟨⟨base, s₁⟩, hb, hq⟩ := Option.map_eq_some_iff.mp hr
      cases hq
      exact .inr ⟨by simpa using hfix, base, rfl, hb⟩

theorem doMmap_error {env : HostEnv} {e : Int} (hr : s.doMmap env v a = some (.error e, s')) :
    s' = s := by
  rcases doMmap_cases hr with ⟨_, _, h⟩ | ⟨_, _, _, _, ⟨_, he, _⟩ | ⟨_, _, he, _⟩⟩
  · exact h
  · cases he
  · cases he

theorem doMmap_spec {env : HostEnv} (hw : Wf s) (hv : v < s.nextVm)
    (hfit : s.mmapBase v a + roundUp a.len < 2 ^ 64) (hr : s.doMmap env v a = some (.ok base, s')) :
    Changed s s' v (MmapHit a base)
      (map (s.view v) base (roundUp a.len) a.init) := by
  rcases doMmap_cases hr with ⟨e, he, -⟩ | ⟨hlen, p, h, hm, ⟨hfix, hb, rfl⟩ | ⟨hfix, b, hb, ht⟩⟩
  · cases he
  · cases hb
    rw [State.mmapBase, if_pos hfix] at hfit
    exact mapFixed_spec hw hv hm hlen hfix hfit
  · cases hb
    exact (mapTail_spec hw hv hm hlen hfix hfit ht).2

/-! ## The container after `do_mmap` -/

theorem mapFixed_maps (hml : MapsOk (s.maps v)) (hlen : roundUp a.len ≠ 0)
    (hfit : a.addr + roundUp a.len < 2 ^ 64) : ∃ kept,
      Carved a.addr (a.addr + roundUp a.len) (s.maps v) kept ∧
      (s.mapFixed v a p).maps v = insertBefore Memmap.paddr kept (a.segment a.addr p) ∧
      (s.mapFixed v a p).host.bytes = s.host.bytes ∧
      (s.mapFixed v a p).host.next = s.host.next := by
  have hhost := punchHole_host a.addr (a.addr + roundUp a.len) s.heap (s.maps v)
  have hc := carved_punchHole (show a.addr < a.addr + roundUp a.len by omega) s.heap hml
  unfold State.mapFixed
  rw [uadd_eq hfit]
  generalize punchHole a.addr (a.addr + roundUp a.len) s.heap (s.maps v) = q at hhost hc ⊢
  obtain ⟨heap, kept, dropped⟩ := q
  dsimp only at hhost hc
  obtain ⟨hspaces, hvms, hbytes, hnext⟩ :=
    foldl_release_frame ((s.setHeap heap).setMaps v kept) dropped
  have hmaps : (dropped.foldl State.release ((s.setHeap heap).setMaps v kept)).maps v = kept := by
    rw [State.maps, hspaces, hvms]
    exact setMaps_maps (s.setHeap heap) v kept
  refine ⟨kept, hc, ?_, hbytes.trans (congrArg Host.bytes hhost),
    hnext.trans (congrArg Host.next hhost)⟩
  dsimp only
  rw [flushTlb_maps, State.addmem, flushTlb_maps, setMaps_maps,
    flushTlb_maps, hmaps]

/-- `do_mmap` clears its range and puts the new segment there. -/
theorem doMmap_maps {env : HostEnv} (hml : MapsOk (s.maps v))
    (hfit : s.mmapBase v a + roundUp a.len < 2 ^ 64) (hr : s.doMmap env v a = some (.ok base, s')) :
    base = s.mmapBase v a ∧ ∃ kept host,
      s.host.mmap (roundUp a.len) a.prot a.init = (⟨s.host.next, 0⟩, host) ∧
      Carved base (base + roundUp a.len) (s.maps v) kept ∧ MapsOk (s'.maps v) ∧
      s'.maps v = insertBefore Memmap.paddr kept (a.segment base ⟨s.host.next, 0⟩) ∧
      s'.host.bytes = host.bytes ∧ s'.host.next = host.next := by
  rcases doMmap_cases hr with ⟨e, he, -⟩ | ⟨hlen, p, h, hm, hcase⟩
  · cases he
  obtain ⟨rfl, -⟩ := Host.mmap_frame hm
  have hplace : base = s.mmapBase v a ∧ ∃ kept,
      Carved base (base + roundUp a.len) (s.maps v) kept ∧
      s'.maps v = insertBefore Memmap.paddr kept (a.segment base ⟨s.host.next, 0⟩) ∧
      s'.host.bytes = h.bytes ∧ s'.host.next = h.next := by
    rcases hcase with ⟨hfix, hb, rfl⟩ | ⟨hfix, b, hb, ht⟩ <;> cases hb
    · have hbase : a.addr = s.mmapBase v a := (if_pos hfix).symm
      exact ⟨hbase, mapFixed_maps (s := s.setHost h) hml hlen (hbase ▸ hfit)⟩
    · obtain ⟨hbase, rfl, hbelow⟩ := mapTail_place (s := s.setHost h) hml hfix hfit ht
      refine ⟨hbase, s.maps v, carved_self hml.sorted fun y hy => .inl (hbelow y hy), ?_, rfl, rfl⟩
      rw [flushTlb_maps, setMaps_maps]
      rfl
  obtain ⟨rfl, kept, hc, hmaps, hhost⟩ := hplace
  refine ⟨rfl, kept, h, hm, hc, ?_, hmaps, hhost⟩
  rw [hmaps]
  exact mapsOk_insert (hc.mapsOk hml)
    (Nat.lt_add_of_pos_right (Nat.pos_of_ne_zero hlen)) hfit hc.clear

end Bpfvm.Memory
