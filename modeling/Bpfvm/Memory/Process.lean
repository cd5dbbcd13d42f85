import Bpfvm.Memory.Protect

/-!
# Forking, sharing and leaving an address space

The address-space part of `do_clone` and the release of a container. A fork turns every
segment of the parent into a holder of a control block that the child holds too, so parent
and child see the same bytes and neither can be written without being unshared first.
-/
namespace Bpfvm.Memory
open Function State List

/-! ## Segments up to ownership -/

/-- The part of a segment that translation looks at. -/
def Memmap.row (m : Memmap) : ℕ × ℕ × HostPtr := (m.paddr, m.size, m.data)

variable {ml ml' : List Memmap} {s : State} {v : ℕ} {a : CloneArgs}

theorem mapsOk_of_rows (hr : ml'.map Memmap.row = ml.map Memmap.row) (hml : MapsOk ml) :
    MapsOk ml' := by
  induction ml' generalizing ml with
  | nil => exact MapsOk.nil
  | cons m' ml' ih =>
    cases ml with
    | nil => simp at hr
    | cons m ml =>
      simp only [map_cons, List.cons.injEq, Memmap.row, Prod.mk.injEq] at hr
      obtain ⟨⟨hp, hsz, -⟩, hrest⟩ := hr
      have hstop : m'.stop = m.stop := by rw [Memmap.stop, Memmap.stop, hp, hsz]
      obtain ⟨hne, hord, -⟩ := Segments.Sorted.cons_iff.mp hml.sorted
      have hok := ih hrest (hml.sublist (sublist_cons_self m ml))
      refine ⟨Segments.Sorted.cons_iff.mpr ⟨by omega, ?_, hok.sorted⟩, ?_⟩
      · intro y' hy'
        have : y'.row ∈ ml.map Memmap.row := hrest ▸ mem_map_of_mem hy'
        obtain ⟨y, hy, he⟩ := mem_map.mp this
        have hyp : y.paddr = y'.paddr := congrArg Prod.fst he
        have := hord y hy
        omega
      · intro y' hy'
        rcases mem_cons.mp hy' with rfl | hy'
        · exact hstop ▸ hml.bound m (by simp)
        · exact hok.bound y' hy'

theorem holds_of_rows {h : Host} (hr : ml'.map Memmap.row = ml.map Memmap.row) {a : ℕ} {b : Byte} :
    Holds h ml' a b ↔ Holds h ml a b := by
  have key : ∀ {l l' : List Memmap}, l'.map Memmap.row = l.map Memmap.row →
      Holds h l' a b → Holds h l a b := by
    rintro l l' hr ⟨m', hm', hhas, hb⟩
    have : m'.row ∈ l.map Memmap.row := hr ▸ mem_map_of_mem hm'
    obtain ⟨m, hm, he⟩ := mem_map.mp this
    simp only [Memmap.row, Prod.mk.injEq] at he
    obtain ⟨hp, hsz, hd⟩ := he
    refine ⟨m, hm, ?_, ?_⟩
    · rw [Memmap.Has, Memmap.stop, hp, hsz]
      exact hhas
    · rw [Memmap.ptr, hp, hd]
      exact hb
  exact ⟨key hr, key hr.symm⟩

theorem viewOf_of_rows {h : Host} (hr : ml'.map Memmap.row = ml.map Memmap.row) (hml : MapsOk ml) :
    viewOf h ml' = viewOf h ml :=
  viewOf_congr (mapsOk_of_rows hr hml) hml fun _ _ => holds_of_rows hr

/-! ## `do_clone`: the copy-on-write loop -/

theorem PartOf.forked {m : Memmap} : PartOf m m.forked :=
  ⟨rfl, rfl, rfl, le_rfl, le_rfl, by simp [Memmap.forked]⟩

theorem cloneMaps_host (h : Heap) (ml : List Memmap) : (cloneMaps h ml).1.host = h.host := by
  induction ml generalizing h with
  | nil => rfl
  | cons m ml ih => exact (ih _).trans (shareHost_host h m)

theorem cloneMaps_rows (h : Heap) (ml : List Memmap) :
    (cloneMaps h ml).2.map Memmap.row = ml.map Memmap.row := by
  induction ml generalizing h with
  | nil => rfl
  | cons m ml ih =>
    unfold cloneMaps
    simp only [map_cons, ih, List.cons.injEq, and_true]
    simp [Memmap.row]

/-- What the loop of `do_clone` makes of the parent's container. -/
structure Cloned (h : Heap) (ml rest : List Memmap) (r : Heap × List Memmap) : Prop where
  sharing : Sharing r.1 (r.2 ++ (r.2.map Memmap.forked ++ rest))
  keep : ∀ m ∈ ml, m.cowData ≠ none → m ∈ r.2

theorem cloneMaps_spec {h : Heap} (rest : List Memmap) (hs : Sharing h (ml ++ rest)) :
    Cloned h ml rest (cloneMaps h ml) := by
  induction ml generalizing h rest with
  | nil => exact ⟨hs, by simp⟩
  | cons m ml ih =>
    obtain ⟨hsa, hsh⟩ := shareHost_spec (show Sharing h (m :: (ml ++ rest)) from hs)
    unfold cloneMaps
    generalize shareHost h m = q at hsa hsh ⊢
    obtain ⟨h₁, m₁⟩ := q
    dsimp only at hsa hsh ⊢
    obtain ⟨c, hc⟩ := hsa.cow
    have hparts : ∀ p ∈ [m₁.forked, m₁], PartOf m₁ p := by
      intro p hp
      simp only [mem_cons, not_mem_nil, or_false] at hp
      rcases hp with rfl | rfl
      · exact PartOf.forked
      · exact PartOf.self hsa.own
    have hr := ih (m₁.forked :: m₁ :: rest) ((hsh.parts hc hparts).perm
      (perm_iff_count.mpr fun x => by
        simp only [count_append, count_cons, count_nil]
        omega))
    generalize cloneMaps h₁ ml = r at hr ⊢
    obtain ⟨h', out⟩ := r
    refine ⟨?_, ?_⟩
    · refine hr.sharing.perm (perm_iff_count.mpr fun x => ?_)
      simp only [map_cons, count_append, count_cons]
      omega
    · intro x hx hxc
      rcases mem_cons.mp hx with rfl | hx
      · obtain ⟨d, hd⟩ := Option.ne_none_iff_exists'.mp hxc
        simp [hsa.keep d hd]
      · simp [hr.keep x hx hxc]

theorem row_forked (ml : List Memmap) :
    (ml.map Memmap.forked).map Memmap.row = ml.map Memmap.row := by
  rw [map_map]
  rfl

/-- The child's container, built by repeated `addmem`, is the parent's one. -/
theorem foldl_addmem (hml : MapsOk ml) :
    (ml.map Memmap.forked).foldl (Segments.insertBefore Memmap.paddr) [] =
      ml.map Memmap.forked :=
  Segments.foldl_insertBefore [] (mapsOk_of_rows (row_forked ml) hml).sorted

/-! ## Adding containers and vms -/

theorem Wf.addSpace (hw : Wf s) (hml : MapsOk ml) (hs : Sharing s.heap (ml ++ s.segs)) :
    Wf (s.addSpace ml) := by
  refine ⟨?_, fun u hu => (hw.space_lt u hu).trans (Nat.lt_succ_self _), ?_⟩
  · intro σ hσ
    by_cases he : σ = s.nextSpace
    · subst he
      simpa [State.addSpace] using hml
    · have hlt : σ < s.nextSpace := lt_of_le_of_ne (Nat.lt_succ_iff.mp hσ) he
      simpa [State.addSpace, update_of_ne he] using hw.maps σ hlt
  · refine hs.perm ?_
    have hseg : (s.addSpace ml).segs = s.segs ++ ml := by
      simp only [State.segs, State.addSpace, range_succ, flatMap_append,
        flatMap_singleton, update_self]
      congr 1
      refine flatMap_congr fun σ hσ => ?_
      exact update_of_ne (mem_range.mp hσ).ne _ _
    rw [hseg]
    exact perm_append_comm

theorem spawn_vms_of_lt {u : ℕ} {σ : ℕ} (hu : u < s.nextVm) : (s.spawn v a σ).vms u = s.vms u := by
  simp [State.spawn, update_of_ne hu.ne]

theorem spawn_space_self (s : State) (v : ℕ) (a : CloneArgs) (σ : ℕ) :
    ((s.spawn v a σ).vms s.nextVm).space = σ := by
  simp [State.spawn]

theorem spawn_tlb_self (s : State) (v : ℕ) (a : CloneArgs) (σ : ℕ) :
    ((s.spawn v a σ).vms s.nextVm).tlb = fun _ => TlbEntry.zero := by
  simp [State.spawn]

theorem Wf.spawn (hw : Wf s) {σ : ℕ} (hσ : σ < s.nextSpace) : Wf (s.spawn v a σ) := by
  refine ⟨hw.maps, ?_, hw.sharing⟩
  intro u hu
  by_cases he : u = s.nextVm
  · subst he
    simpa [State.spawn] using hσ
  · have hlt : u < s.nextVm := lt_of_le_of_ne (Nat.lt_succ_iff.mp hu) he
    rw [spawn_vms_of_lt hlt]
    exact hw.space_lt u hlt

theorem flushGroup_space (s : State) (g u : ℕ) :
    ((s.flushGroup g).vms u).space = (s.vms u).space := by
  simp only [State.flushGroup]
  split_ifs <;> rfl

theorem flushGroup_running (s : State) (g u : ℕ) :
    ((s.flushGroup g).vms u).running = (s.vms u).running := by
  simp only [State.flushGroup]
  split_ifs <;> rfl

theorem flushGroup_tlb (s : State) (g u : ℕ) : ((s.flushGroup g).vms u).tlb =
    if (s.vms u).group = g then fun _ => TlbEntry.zero else (s.vms u).tlb := by
  simp only [State.flushGroup]
  split_ifs <;> rfl

theorem flushGroup_maps (s : State) (g u : ℕ) : (s.flushGroup g).maps u = s.maps u := by
  rw [State.maps, State.maps, flushGroup_space]
  rfl

theorem Wf.flushGroup (hw : Wf s) (g : ℕ) : Wf (s.flushGroup g) :=
  hw.of_vms rfl rfl rfl rfl (flushGroup_space s g)

/-- A fork: the child has its own container with the parent's bytes; the TLBs of the
parent's thread group are empty. -/
structure Forked (s s' : State) (v : ℕ) : Prop where
  wf : Wf s'
  nextVm : s'.nextVm = s.nextVm + 1
  space : ∀ u < s.nextVm, (s'.vms u).space = (s.vms u).space
  running : ∀ u < s.nextVm, (s'.vms u).running = (s.vms u).running
  tlb : ∀ u < s.nextVm, (s'.vms u).tlb =
    if (s.vms u).group = (s.vms v).group then fun _ => TlbEntry.zero else (s.vms u).tlb
  child_space : (s'.vms s.nextVm).space = s.nextSpace
  child_tlb : (s'.vms s.nextVm).tlb = fun _ => TlbEntry.zero
  other : ∀ u < s.nextVm, (s.vms u).space ≠ (s.vms v).space → s'.maps u = s.maps u
  keep : ∀ m ∈ s.maps v, m.cowData ≠ none → m ∈ s'.maps v
  host : s'.host = s.host
  rows : (s'.maps v).map Memmap.row = (s.maps v).map Memmap.row
  child_rows : (s'.maps s.nextVm).map Memmap.row = (s.maps v).map Memmap.row

theorem Forked.view {s' : State} (hf : Forked s s' v) (hw : Wf s) (hv : v < s.nextVm) {u : ℕ}
    (hu : u < s.nextVm) : s'.view u = s.view u := by
  rw [view_def, view_def, hf.host]
  by_cases hsp : (s.vms u).space = (s.vms v).space
  · have hm : s'.maps u = s'.maps v := by
      rw [State.maps, State.maps, hf.space u hu, hf.space v hv, hsp]
    rw [hm, viewOf_of_rows hf.rows (hw.mapsOk hv), State.maps, State.maps, hsp]
  · rw [hf.other u hu hsp]

theorem Forked.view_child {s' : State} (hf : Forked s s' v) (hw : Wf s) (hv : v < s.nextVm) :
    s'.view s.nextVm = s.view v := by
  rw [view_def, view_def, hf.host, viewOf_of_rows hf.child_rows (hw.mapsOk hv)]

/-- The state after a fork. -/
theorem cloneSpace_eq (hml : MapsOk (s.maps v)) (ha : ¬ a.shareVm = true) :
    ∃ heap parent, cloneMaps s.heap (s.maps v) = (heap, parent) ∧ heap.host = s.host ∧
      parent.map Memmap.row = (s.maps v).map Memmap.row ∧ MapsOk parent ∧
      s.cloneSpace v a = ((((s.setHeap heap).setMaps v parent).addSpace
        (parent.map Memmap.forked)).spawn v a s.nextSpace).flushGroup (s.vms v).group := by
  have hrows := cloneMaps_rows s.heap (s.maps v)
  have hpar := mapsOk_of_rows hrows hml
  refine ⟨_, _, rfl, cloneMaps_host _ _, hrows, hpar, ?_⟩
  rw [State.cloneSpace, if_neg ha]
  dsimp only
  rw [foldl_addmem hpar]

theorem cloneSpace_fork (hw : Wf s) (hv : v < s.nextVm) (ha : a.shareVm = false) :
    Forked s (s.cloneSpace v a) v := by
  obtain ⟨heap, parent, hcl, hhost, hrows, hpar, hs'⟩ :=
    cloneSpace_eq (a := a) (hw.mapsOk hv) (by simp [ha])
  obtain ⟨hsh, hkeep⟩ := hcl ▸ cloneMaps_spec _ (hw.sharing_front hv)
  have hchild := mapsOk_of_rows (row_forked parent) hpar
  rw [hs']
  set s₁ := (s.setHeap heap).setMaps v parent with hs₁
  set s₂ := s₁.addSpace (parent.map Memmap.forked) with hs₂
  have hwf₁ : Wf s₁ := by
    refine hw.edit hv heap hpar (hsh.sublist ?_)
    exact (List.Sublist.refl parent).append (sublist_append_right _ _)
  have hwf₂ : Wf s₂ := by
    refine hwf₁.addSpace hchild (hsh.perm ?_)
    refine (perm_append_comm_assoc _ _ _).trans ((List.Perm.refl _).append ?_)
    exact (segs_update_perm (s := s.setHeap heap) (hw.space_lt v hv) parent).symm
  have hnewSpace : ((s₂.spawn v a s.nextSpace).vms s.nextVm).space = s.nextSpace :=
    spawn_space_self s₂ v a s.nextSpace
  have hnewTlb : ((s₂.spawn v a s.nextSpace).vms s.nextVm).tlb = fun _ => TlbEntry.zero :=
    spawn_tlb_self s₂ v a s.nextSpace
  have hspace : ∀ u < s.nextVm, ((s₂.spawn v a s.nextSpace).vms u) = s.vms u := fun u hu =>
    spawn_vms_of_lt (s := s₂) hu
  have hmaps : ∀ u < s.nextVm,
      ((s₂.spawn v a s.nextSpace).flushGroup (s.vms v).group).maps u = s₁.maps u := by
    intro u hu
    have hne : (s.vms u).space ≠ s.nextSpace := (hw.space_lt u hu).ne
    rw [flushGroup_maps, State.maps, hspace u hu]
    exact update_of_ne hne _ _
  refine ⟨(hwf₂.spawn (Nat.lt_succ_self s.nextSpace)).flushGroup _, rfl, ?_, ?_, ?_, ?_, ?_, ?_,
    ?_, hhost, ?_, ?_⟩
  · intro u hu
    rw [flushGroup_space, hspace u hu]
  · intro u hu
    rw [flushGroup_running, hspace u hu]
  · intro u hu
    rw [flushGroup_tlb, hspace u hu]
  · rw [flushGroup_space, hnewSpace]
  · rw [flushGroup_tlb, hnewTlb, ite_self]
  · intro u hu hne
    rw [hmaps u hu]
    exact setMaps_maps_of_ne (s.setHeap heap) u v parent hne
  · intro m hm hc
    rw [hmaps v hv, hs₁, setMaps_maps]
    exact hkeep m hm hc
  · rw [hmaps v hv, hs₁, setMaps_maps]
    exact hrows
  · have hc : ((s₂.spawn v a s.nextSpace).flushGroup (s.vms v).group).maps s.nextVm =
        parent.map Memmap.forked := by
      rw [flushGroup_maps, State.maps, hnewSpace]
      exact update_self _ _ _
    rw [hc, row_forked, hrows]

/-- `CLONE_VM`: the child refers to the parent's container; the caller's TLB is empty. -/
structure Joined (s s' : State) (v : ℕ) : Prop where
  wf : Wf s'
  nextVm : s'.nextVm = s.nextVm + 1
  spaces : s'.spaces = s.spaces
  space : ∀ u < s.nextVm, (s'.vms u).space = (s.vms u).space
  running : ∀ u < s.nextVm, (s'.vms u).running = (s.vms u).running
  tlb : ∀ u < s.nextVm, (s'.vms u).tlb =
    if u = v then fun _ => TlbEntry.zero else (s.vms u).tlb
  child_space : (s'.vms s.nextVm).space = (s.vms v).space
  child_tlb : (s'.vms s.nextVm).tlb = fun _ => TlbEntry.zero

theorem cloneSpace_join (hw : Wf s) (hv : v < s.nextVm) (ha : a.shareVm = true) :
    Joined s (s.cloneSpace v a) v := by
  unfold State.cloneSpace
  rw [if_pos ha]
  have hne : s.nextVm ≠ v := hv.ne'
  have hold : ∀ u < s.nextVm, (s.spawn v a (s.vms v).space).vms u = s.vms u := fun u hu =>
    spawn_vms_of_lt hu
  refine ⟨(hw.spawn (hw.space_lt v hv)).flushTlb v, rfl, rfl, ?_, ?_, ?_, ?_, ?_⟩
  · intro u hu
    rw [flushTlb_space, hold u hu]
  · intro u hu
    rw [(Edits.flushTlb _ v (fun _ => False)).running, hold u hu]
  · intro u hu
    split_ifs with h
    · rw [h, flushTlb_tlb_self]
    · rw [flushTlb_tlb_of_ne _ _ _ h, hold u hu]
  · rw [flushTlb_space, spawn_space_self]
  · rw [flushTlb_tlb_of_ne _ _ _ hne, spawn_tlb_self]

/-! ## Leaving -/

/-- A vm stops: it is left with an empty container, and nobody else notices. -/
structure Left (s s' : State) (v : ℕ) : Prop where
  wf : Wf s'
  nextVm : s'.nextVm = s.nextVm
  vms : ∀ u, u ≠ v → s'.vms u = s.vms u
  stopped : (s'.vms v).running = false
  space_self : (s'.vms v).space = s.nextSpace
  maps : ∀ u < s.nextVm, u ≠ v → s'.maps u = s.maps u
  view : ∀ u < s.nextVm, u ≠ v → s'.view u = s.view u
  maps_self : s'.maps v = []

theorem dropSpace_spec (hw : Wf s) (hv : v < s.nextVm) : Left s (s.dropSpace v) v := by
  have hold := hw.space_lt v hv
  set s₁ := (s.addSpace []).setVm v { s.vms v with space := s.nextSpace, running := false }
    with hs₁
  have hvms : ∀ u, u ≠ v → s₁.vms u = s.vms u := fun u hu => update_of_ne hu _ _
  have hself : s₁.vms v = { s.vms v with space := s.nextSpace, running := false } :=
    update_self _ _ _
  have hspaces : ∀ σ < s.nextSpace, s₁.spaces σ = s.spaces σ := fun σ hσ =>
    update_of_ne hσ.ne _ _
  have hempty : s₁.spaces s.nextSpace = [] := update_self _ _ _
  have hwf₁ : Wf s₁ := by
    have hadd := hw.addSpace MapsOk.nil (by simpa using hw.sharing)
    refine ⟨hadd.maps, ?_, hadd.sharing⟩
    intro u hu
    by_cases he : u = v
    · rw [he, hself]
      exact Nat.lt_succ_self _
    · rw [hvms u he]
      exact (hw.space_lt u hu).trans (Nat.lt_succ_self _)
  have hmaps₁ : ∀ u < s.nextVm, u ≠ v → s₁.maps u = s.maps u := by
    intro u hu hne
    rw [State.maps, hvms u hne]
    exact hspaces _ (hw.space_lt u hu)
  have hmaps₁' : s₁.maps v = [] := by
    rw [State.maps, hself]
    exact hempty
  have hdrop : s.dropSpace v = if s₁.spaceInUse (s.vms v).space then s₁
    else (s₁.spaces (s.vms v).space).foldl State.release
      { s₁ with spaces := update s₁.spaces (s.vms v).space [] } := rfl
  rw [hdrop]
  split_ifs with huse
  · refine ⟨hwf₁, rfl, hvms, by rw [hself], by rw [hself], hmaps₁, ?_, hmaps₁'⟩
    intro u hu hne
    rw [view_def, hmaps₁ u hu hne]
    rfl
  · -- the last holder has gone: the old container is destroyed
    have hfree : ∀ u < s.nextVm, u ≠ v → (s.vms u).space ≠ (s.vms v).space := by
      intro u hu hne he
      refine huse (any_eq_true.mpr ⟨u, mem_range.mpr hu, ?_⟩)
      rw [hvms u hne, he]
      simp
    have hold₁ : (s.vms v).space < s₁.nextSpace := hold.trans (Nat.lt_succ_self _)
    set s₂ : State := { s₁ with spaces := update s₁.spaces (s.vms v).space [] } with hs₂
    have hsegs₂ := segs_update_perm (s := s₁) hold₁ []
    have hfront := hwf₁.sharing.perm (segs_perm hold₁)
    have hwf₂ : Wf s₂ := by
      refine ⟨?_, hwf₁.space_lt, ?_⟩
      · intro σ hσ
        by_cases he : σ = (s.vms v).space
        · simpa [hs₂, he] using MapsOk.nil
        · simpa [hs₂, update_of_ne he] using hwf₁.maps σ hσ
      · exact (hfront.sublist (sublist_append_right _ _)).perm hsegs₂.symm
    have hdropped : ∀ x ∈ s₁.spaces (s.vms v).space, Droppable s₂.heap ([] ++ s₂.segs) x :=
      fun x hx => (hfront.droppable_of_mem hx).mono fun y hy => hsegs₂.mem_iff.mp hy
    have hrel := released_foldl [] (by simp) hdropped
    have hmaps₂ : ∀ u < s.nextVm, u ≠ v → s₂.maps u = s.maps u := by
      intro u hu hne
      rw [← hmaps₁ u hu hne, State.maps, State.maps]
      refine update_of_ne ?_ _ _
      rw [show s₂.vms u = s.vms u from hvms u hne]
      exact hfree u hu hne
    generalize (s₁.spaces (s.vms v).space).foldl State.release s₂ = s₃ at hrel ⊢
    refine ⟨hrel.wf hwf₂ hwf₂.sharing, hrel.nextVm, ?_, ?_, ?_, ?_, ?_, ?_⟩
    · intro u hu
      rw [hrel.vms]
      exact hvms u hu
    · rw [hrel.vms]
      exact congrArg Vm.running hself
    · rw [hrel.vms]
      exact congrArg Vm.space hself
    · intro u hu hne
      rw [hrel.maps, hmaps₂ u hu hne]
    · intro u hu hne
      rw [hrel.view, view_def, hmaps₂ u hu hne]
      rfl
    · rw [hrel.maps, State.maps]
      have hsp : (s₂.vms v).space = s.nextSpace := congrArg Vm.space hself
      rw [hsp]
      exact (update_of_ne hold.ne' _ _).trans hempty

end Bpfvm.Memory
