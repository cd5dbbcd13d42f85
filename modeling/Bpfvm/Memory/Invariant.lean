import Bpfvm.Memory.Sharing

/-!
# Well-formed states

`Wf` puts the pieces together for a whole state: every container is in order, every vm
refers to an existing container, and the sharing invariant holds of all segments. An
operation edits one container, so `Wf.edit` reduces it to the edited container in front of
the segments of the others. `Coherent` says that each TLB agrees with its container.
-/
namespace Bpfvm.Memory
open Function

namespace State

variable (s : State) (u v : ℕ)

@[simp] theorem setHeap_heap (heap : Heap) : (s.setHeap heap).heap = heap := rfl
@[simp] theorem setHeap_host (heap : Heap) : (s.setHeap heap).host = heap.host := rfl
@[simp] theorem setHeap_spaces (heap : Heap) : (s.setHeap heap).spaces = s.spaces := rfl
@[simp] theorem setHeap_vms (heap : Heap) : (s.setHeap heap).vms = s.vms := rfl
@[simp] theorem setHeap_maps (heap : Heap) : (s.setHeap heap).maps v = s.maps v := rfl
@[simp] theorem setHeap_nextVm (heap : Heap) : (s.setHeap heap).nextVm = s.nextVm := rfl
@[simp] theorem setHost_host (h : Host) : (s.setHost h).host = h := rfl
@[simp] theorem setHost_vms (h : Host) : (s.setHost h).vms = s.vms := rfl
@[simp] theorem setHost_maps (h : Host) : (s.setHost h).maps v = s.maps v := rfl
@[simp] theorem setMaps_heap (ml : List Memmap) : (s.setMaps v ml).heap = s.heap := rfl
@[simp] theorem setMaps_host (ml : List Memmap) : (s.setMaps v ml).host = s.host := rfl
@[simp] theorem setMaps_vms (ml : List Memmap) : (s.setMaps v ml).vms = s.vms := rfl
@[simp] theorem setMaps_nextVm (ml : List Memmap) : (s.setMaps v ml).nextVm = s.nextVm := rfl

@[simp] theorem setMaps_maps (ml : List Memmap) : (s.setMaps v ml).maps v = ml := by
  simp [setMaps, maps]

theorem setMaps_maps_of_ne (ml : List Memmap) (h : (s.vms u).space ≠ (s.vms v).space) :
    (s.setMaps v ml).maps u = s.maps u := by
  simp [setMaps, maps, update_of_ne h]

@[simp] theorem flushTlb_heap : (s.flushTlb v).heap = s.heap := rfl
@[simp] theorem flushTlb_host : (s.flushTlb v).host = s.host := rfl
@[simp] theorem flushTlb_spaces : (s.flushTlb v).spaces = s.spaces := rfl
@[simp] theorem flushTlb_nextVm : (s.flushTlb v).nextVm = s.nextVm := rfl
@[simp] theorem setTlb_heap (i : ℕ) (e : TlbEntry) : (s.setTlb v i e).heap = s.heap := rfl
@[simp] theorem setTlb_host (i : ℕ) (e : TlbEntry) : (s.setTlb v i e).host = s.host := rfl
@[simp] theorem setTlb_spaces (i : ℕ) (e : TlbEntry) :
    (s.setTlb v i e).spaces = s.spaces := rfl
@[simp] theorem setTlb_nextVm (i : ℕ) (e : TlbEntry) :
    (s.setTlb v i e).nextVm = s.nextVm := rfl

@[simp] theorem flushTlb_space : ((s.flushTlb v).vms u).space = (s.vms u).space := by
  by_cases h : u = v
  · subst h; simp [flushTlb, setVm]
  · simp [flushTlb, setVm, update_of_ne h]

@[simp] theorem setTlb_space (i : ℕ) (e : TlbEntry) :
    ((s.setTlb v i e).vms u).space = (s.vms u).space := by
  by_cases h : u = v
  · subst h; simp [setTlb, setVm]
  · simp [setTlb, setVm, update_of_ne h]

@[simp] theorem flushTlb_maps : (s.flushTlb v).maps u = s.maps u := by simp [maps]

@[simp] theorem setTlb_maps (i : ℕ) (e : TlbEntry) : (s.setTlb v i e).maps u = s.maps u := by
  simp [maps]

theorem flushTlb_tlb_self : ((s.flushTlb v).vms v).tlb = fun _ => TlbEntry.zero := by
  simp [flushTlb, setVm]

theorem flushTlb_tlb_of_ne (h : u ≠ v) : ((s.flushTlb v).vms u).tlb = (s.vms u).tlb := by
  simp [flushTlb, setVm, update_of_ne h]

theorem setTlb_tlb_self (i : ℕ) (e : TlbEntry) :
    ((s.setTlb v i e).vms v).tlb = update (s.vms v).tlb i e := by
  simp [setTlb, setVm]

theorem setTlb_tlb_of_ne (i : ℕ) (e : TlbEntry) (h : u ≠ v) :
    ((s.setTlb v i e).vms u).tlb = (s.vms u).tlb := by
  simp [setTlb, setVm, update_of_ne h]

/-- The segments of every container but one. -/
def others (σ : ℕ) : List Memmap := ((List.range s.nextSpace).erase σ).flatMap s.spaces

/-- The bytes a vm sees. -/
def view (a : ℕ) : Option Byte := viewOf s.host (s.maps v) a

variable {s} {σ : ℕ}

theorem segs_perm (hσ : σ < s.nextSpace) : s.segs.Perm (s.spaces σ ++ s.others σ) := by
  have hp := List.perm_cons_erase (List.mem_range.mpr hσ)
  exact hp.flatMap_right s.spaces

theorem flatMap_update_erase (σ : ℕ) (n : ℕ) (f : ℕ → List Memmap) (ml : List Memmap) :
    ((List.range n).erase σ).flatMap (update f σ ml) =
      ((List.range n).erase σ).flatMap f := by
  apply List.flatMap_congr
  intro τ hτ
  have hne : τ ≠ σ := ((List.nodup_range (n := n)).mem_erase_iff.mp hτ).1
  exact update_of_ne hne _ _

theorem segs_update_perm (hσ : σ < s.nextSpace) (ml : List Memmap) :
    ({ s with spaces := update s.spaces σ ml } : State).segs.Perm
      (ml ++ s.others σ) := by
  refine (segs_perm (s := { s with spaces := update s.spaces σ ml }) hσ).trans ?_
  simp [others, flatMap_update_erase]

end State

theorem mmu_host (s : State) (v a n : ℕ) : (s.mmu v a n).2.host = s.host :=
  mmu_keeps (P := (·.host = s.host)) rfl fun _ _ => rfl

theorem mmu_maps (s : State) (v a n u : ℕ) : (s.mmu v a n).2.maps u = s.maps u :=
  mmu_keeps (P := (·.maps u = s.maps u)) rfl fun _ _ => State.setTlb_maps ..

/-- The state is well formed. -/
structure Wf (s : State) : Prop where
  maps : ∀ σ < s.nextSpace, MapsOk (s.spaces σ)
  space_lt : ∀ v < s.nextVm, (s.vms v).space < s.nextSpace
  sharing : Sharing s.heap s.segs

/-- The vm exists and its `run` loop is still going. -/
def State.Runs (s : State) (v : ℕ) : Prop := v < s.nextVm ∧ (s.vms v).running = true

/-- The TLB of every running vm agrees with its container. -/
def Coherent (s : State) : Prop := ∀ v, s.Runs v → TlbOk (s.maps v) (s.vms v).tlb

namespace Wf

variable {s : State} {u v : ℕ}

theorem mapsOk (h : Wf s) (hv : v < s.nextVm) : MapsOk (s.maps v) := h.maps _ (h.space_lt v hv)

theorem sharing_front (h : Wf s) (hv : v < s.nextVm) :
    Sharing s.heap (s.maps v ++ s.others (s.vms v).space) :=
  h.sharing.perm (State.segs_perm (h.space_lt v hv))

/-- Changes to TLBs (and to the bookkeeping of a vm outside its container). -/
theorem of_vms {s' : State} (h : Wf s) (hheap : s'.heap = s.heap) (hsp : s'.spaces = s.spaces)
    (hns : s'.nextSpace = s.nextSpace) (hnv : s'.nextVm = s.nextVm)
    (hvs : ∀ u, (s'.vms u).space = (s.vms u).space) : Wf s' := by
  refine ⟨?_, ?_, ?_⟩
  · rw [hns, hsp]
    exact h.maps
  · intro u hu
    rw [hvs, hns]
    exact h.space_lt u (hnv ▸ hu)
  · rw [hheap, State.segs, hns, hsp]
    exact h.sharing

theorem flushTlb (h : Wf s) (v : ℕ) : Wf (s.flushTlb v) :=
  h.of_vms rfl rfl rfl rfl (fun u => State.flushTlb_space s u v)

theorem setTlb (h : Wf s) (v i : ℕ) (e : TlbEntry) : Wf (s.setTlb v i e) :=
  h.of_vms rfl rfl rfl rfl (fun u => State.setTlb_space s u v i e)

theorem edit (h : Wf s) (hv : v < s.nextVm) (heap : Heap) {ml : List Memmap} (hml : MapsOk ml)
    (hs : Sharing heap (ml ++ s.others (s.vms v).space)) :
    Wf ((s.setHeap heap).setMaps v ml) := by
  have hlt := h.space_lt v hv
  refine ⟨?_, h.space_lt, ?_⟩
  · intro σ hσ
    by_cases he : σ = (s.vms v).space
    · subst he
      simpa [State.setMaps] using hml
    · simpa [State.setMaps, update_of_ne he] using h.maps σ hσ
  · exact hs.perm (State.segs_update_perm (s := s.setHeap heap) hlt ml).symm

theorem store (h : Wf s) (p : HostPtr) (bs : List Byte) :
    Wf (s.setHost (s.host.store p bs)) :=
  ⟨h.maps, h.space_lt, h.sharing.bytes _⟩

end Wf

/-! ## Views and frames -/

/-- A view only depends on the bytes of the allocations behind it. -/
theorem viewOf_host_congr {h h' : Host} {ml : List Memmap}
    (hb : ∀ m ∈ ml, h'.bytes m.data.region = h.bytes m.data.region) :
    viewOf h' ml = viewOf h ml := by
  funext a
  unfold viewOf
  split_ifs with ha
  · cases hf : findMap ml a 1 with
    | none => simp [lookup, hf]
    | some m => simp [lookup, hf, Host.byte, hb m (findMap_mem hf)]
  · rfl

theorem view_def (s : State) (v : ℕ) : s.view v = viewOf s.host (s.maps v) := rfl

/-! ## Releasing segments -/

/-- A segment outside all containers whose pages no container sees unless through the same
control block. -/
structure Droppable (h : Heap) (segs : List Memmap) (m : Memmap) : Prop where
  compat : ∀ x ∈ segs, Compat m x
  owned : m.owned = true → m.cowData = none
  region : ∀ c, m.cowData = some c → (h.cows c).ptr.region = m.data.region

variable {m : Memmap} {h : Heap} {s : State}

theorem Sharing.droppable {rest : List Memmap} (hs : Sharing h (m :: rest)) :
    Droppable h rest m := by
  refine ⟨hs.compat, ?_, fun c hc => (hs.head.shared c hc).2.2.1⟩
  intro ho
  cases hc : m.cowData with
  | none => rfl
  | some c => simp [(hs.head.shared c hc).2.1] at ho

theorem Droppable.mono {segs segs' : List Memmap} (hd : Droppable h segs m)
    (hs : ∀ x ∈ segs', x ∈ segs) : Droppable h segs' m :=
  ⟨fun x hx => hd.compat x (hs x hx), hd.owned, hd.region⟩

theorem Sharing.droppable_of_mem {dropped rest : List Memmap} (hs : Sharing h (dropped ++ rest))
    (hm : m ∈ dropped) : Droppable h rest m := by
  obtain ⟨l, l', rfl⟩ := List.append_of_mem hm
  have hp : (l ++ m :: l' ++ rest).Perm (m :: (l ++ l' ++ rest)) := by simp
  exact (hs.perm hp).droppable.mono fun x hx => by simp [hx]

theorem Host.munmap_mapped_of_ne {h : Host} {p : HostPtr} {size r : ℕ} (hr : r ≠ p.region) :
    (h.munmap p size).mapped r = h.mapped r := by
  unfold Host.munmap
  split_ifs
  · funext o
    simp [Host.inPages, hr]
  · rfl

@[simp] theorem Host.munmap_bytes (h : Host) (p : HostPtr) (size : ℕ) :
    (h.munmap p size).bytes = h.bytes := by
  unfold Host.munmap
  split_ifs <;> rfl

@[simp] theorem Host.munmap_next (h : Host) (p : HostPtr) (size : ℕ) :
    (h.munmap p size).next = h.next := by
  unfold Host.munmap
  split_ifs <;> rfl

theorem Sharing.munmap {segs : List Memmap} (hs : Sharing h segs) {p : HostPtr} {size : ℕ}
    (hne : ∀ x ∈ segs, x.data.region ≠ p.region) :
    Sharing { h with host := h.host.munmap p size } segs :=
  hs.frame (by simp) le_rfl (fun x hx => Host.munmap_mapped_of_ne (hne x hx))
    (fun _ _ _ _ => rfl)

theorem State.useCount_eq_zero {c : ℕ} (h : s.useCount c = 0) :
    ∀ x ∈ s.segs, x.cowData ≠ some c := by
  intro x hx hc
  have := List.countP_eq_zero.mp h x hx
  simp [hc] at this

/-- What destroying segments may change: host mappings and control blocks that no container
refers to, nor any of the unshared segments in `extra`. -/
structure Released (extra : List Memmap) (s s' : State) : Prop where
  spaces : s'.spaces = s.spaces
  vms : s'.vms = s.vms
  nextSpace : s'.nextSpace = s.nextSpace
  nextVm : s'.nextVm = s.nextVm
  bytes : s'.host.bytes = s.host.bytes
  next : s'.host.next = s.host.next
  ptr : ∀ c, (s'.heap.cows c).ptr = (s.heap.cows c).ptr
  sharing : Sharing s.heap (extra ++ s.segs) → Sharing s'.heap (extra ++ s'.segs)

namespace Released

variable {extra : List Memmap} {s' s'' : State}

theorem refl (extra : List Memmap) (s : State) : Released extra s s :=
  ⟨rfl, rfl, rfl, rfl, rfl, rfl, fun _ => rfl, id⟩

theorem trans (h : Released extra s s') (h' : Released extra s' s'') : Released extra s s'' :=
  ⟨h'.spaces.trans h.spaces, h'.vms.trans h.vms, h'.nextSpace.trans h.nextSpace,
    h'.nextVm.trans h.nextVm, h'.bytes.trans h.bytes, h'.next.trans h.next,
    fun c => (h'.ptr c).trans (h.ptr c), fun hs => h'.sharing (h.sharing hs)⟩

theorem segs (h : Released extra s s') : s'.segs = s.segs := by
  rw [State.segs, State.segs, h.spaces, h.nextSpace]

theorem maps (h : Released extra s s') (v : ℕ) : s'.maps v = s.maps v := by
  rw [State.maps, State.maps, h.spaces, h.vms]

theorem view (h : Released extra s s') (v : ℕ) : s'.view v = s.view v := by
  rw [view_def, view_def, h.maps]
  exact viewOf_host_congr fun m _ => by rw [h.bytes]

theorem wf (h : Released extra s s') (hw : Wf s) (hs : Sharing s.heap (extra ++ s.segs)) :
    Wf s' := by
  refine ⟨?_, ?_, (h.sharing hs).sublist (List.sublist_append_right _ _)⟩
  · rw [h.spaces, h.nextSpace]
    exact hw.maps
  · rw [h.vms, h.nextSpace, h.nextVm]
    exact hw.space_lt

theorem droppable (h : Released extra s s') (hd : Droppable s.heap (extra ++ s.segs) m) :
    Droppable s'.heap (extra ++ s'.segs) m :=
  ⟨h.segs ▸ hd.compat, hd.owned, fun c hc => by rw [h.ptr]; exact hd.region c hc⟩

end Released

theorem released_release (extra : List Memmap) (hex : ∀ x ∈ extra, x.cowData = none)
    (hd : Droppable s.heap (extra ++ s.segs) m) : Released extra s (s.release m) := by
  unfold State.release
  cases hc : m.cowData with
  | none =>
    split_ifs with ho
    · have hne : ∀ x ∈ extra ++ s.segs, x.data.region ≠ m.data.region := by
        intro x hx he
        obtain ⟨c, hc', -⟩ := hd.compat x hx he.symm
        simp [hc] at hc'
      exact ⟨rfl, rfl, rfl, rfl, Host.munmap_bytes _ _ _, Host.munmap_next _ _ _, fun _ => rfl,
        fun hs => hs.munmap hne⟩
    · exact Released.refl _ s
  | some c =>
    have ho : ¬ m.owned = true := fun ho => by simp [hd.owned ho] at hc
    simp only [ho, Bool.false_eq_true, if_false]
    split_ifs with hz
    · have hno : ∀ x ∈ extra ++ s.segs, x.cowData ≠ some c := by
        intro x hx
        rcases List.mem_append.mp hx with hx | hx
        · simp [hex x hx]
        · exact State.useCount_eq_zero hz.1 x hx
      have hne : ∀ x ∈ extra ++ s.segs, x.data.region ≠ (s.heap.cows c).ptr.region := by
        intro x hx he
        obtain ⟨d, hd₁, hd₂⟩ := hd.compat x hx (by rw [he, hd.region c hc])
        obtain rfl : c = d := by simpa [hc] using hd₁
        exact hno x hx hd₂
      refine ⟨rfl, rfl, rfl, rfl, Host.munmap_bytes _ _ _, Host.munmap_next _ _ _, ?_, ?_⟩
      · intro d
        by_cases hdc : d = c
        · subst hdc; simp
        · simp [update_of_ne hdc]
      · intro hs
        refine (hs.munmap hne).frame le_rfl le_rfl (fun _ _ => rfl) ?_
        intro x hx d hxd
        have hdc : d ≠ c := by
          rintro rfl
          exact hno x hx hxd
        simp [update_of_ne hdc]
    · exact Released.refl _ s

theorem released_foldl (extra : List Memmap) {dropped : List Memmap}
    (hex : ∀ x ∈ extra, x.cowData = none)
    (hd : ∀ m ∈ dropped, Droppable s.heap (extra ++ s.segs) m) :
    Released extra s (dropped.foldl State.release s) := by
  induction dropped generalizing s with
  | nil => exact Released.refl _ s
  | cons m ms ih =>
    have hm := released_release extra hex (hd m (by simp))
    exact hm.trans (ih fun x hx => hm.droppable (hd x (by simp [hx])))

/-- Destroying segments changes neither containers nor bytes. -/
theorem release_frame (s : State) (m : Memmap) :
    (s.release m).spaces = s.spaces ∧ (s.release m).vms = s.vms ∧
      (s.release m).host.bytes = s.host.bytes ∧ (s.release m).host.next = s.host.next := by
  unfold State.release
  have hbytes (h : Host) (q : HostPtr) (n : ℕ) := Host.munmap_bytes h q n
  have hnext (h : Host) (q : HostPtr) (n : ℕ) := Host.munmap_next h q n
  cases m.cowData with
  | none =>
    dsimp only
    split_ifs
    · exact ⟨rfl, rfl, hbytes _ _ _, hnext _ _ _⟩
    · exact ⟨rfl, rfl, rfl, rfl⟩
  | some c =>
    dsimp only
    split_ifs
    · exact ⟨rfl, rfl, (hbytes _ _ _).trans (hbytes _ _ _), (hnext _ _ _).trans (hnext _ _ _)⟩
    · exact ⟨rfl, rfl, hbytes _ _ _, hnext _ _ _⟩
    · exact ⟨rfl, rfl, hbytes _ _ _, hnext _ _ _⟩
    · exact ⟨rfl, rfl, rfl, rfl⟩

theorem foldl_release_frame (s : State) (dropped : List Memmap) :
    (dropped.foldl State.release s).spaces = s.spaces ∧
      (dropped.foldl State.release s).vms = s.vms ∧
      (dropped.foldl State.release s).host.bytes = s.host.bytes ∧
      (dropped.foldl State.release s).host.next = s.host.next := by
  induction dropped generalizing s with
  | nil => exact ⟨rfl, rfl, rfl, rfl⟩
  | cons m dropped ih =>
    obtain ⟨h₁, h₂, h₃, h₄⟩ := ih (s.release m)
    obtain ⟨g₁, g₂, g₃, g₄⟩ := release_frame s m
    exact ⟨h₁.trans g₁, h₂.trans g₂, h₃.trans g₃, h₄.trans g₄⟩

end Bpfvm.Memory
