import Bpfvm.Memory.Lookup

/-!
# The sharing invariant

Over the segments of all containers together: a segment without a control block owns its
pages, one with a control block does not, and two segments over the same allocation always
hold the same control block. Hence an allocation behind a segment without `cow_data`, or
behind the only holder of a control block, is visible through that segment alone. The
lemmas below say how each edit of the source keeps the invariant; they are stated for a
list of segments with the edited ones in front, since the order does not matter.
-/
namespace Bpfvm.Memory
open Function

/-- Two segments over one allocation hold the same control block. -/
def Compat (m m' : Memmap) : Prop :=
  m.data.region = m'.data.region → ∃ c, m.cowData = some c ∧ m'.cowData = some c

variable {m m' : Memmap} {rest : List Memmap} {h : Heap}

theorem Compat.symm (h : Compat m m') : Compat m' m := by
  intro he
  obtain ⟨c, hc, hc'⟩ := h he.symm
  exact ⟨c, hc', hc⟩

structure SegOk (h : Heap) (m : Memmap) : Prop where
  region_lt : m.data.region < h.host.next
  live : ∀ i < m.size, h.host.mapped m.data.region (m.data.off + i) = true
  own : m.cowData = none → m.owned = true
  shared : ∀ c, m.cowData = some c → c < h.nextCow ∧ m.owned = false ∧
    (h.cows c).ptr.region = m.data.region ∧ (h.cows c).owned = true

structure Sharing (h : Heap) (segs : List Memmap) : Prop where
  ok : ∀ m ∈ segs, SegOk h m
  pair : segs.Pairwise Compat

/-- A part of a segment: the same control block and the same host bytes. -/
structure PartOf (m p : Memmap) : Prop where
  cow : p.cowData = m.cowData
  own : p.owned = false
  region : p.data.region = m.data.region
  lo : m.paddr ≤ p.paddr
  hi : p.stop ≤ m.stop
  off : p.data.off = m.data.off + (p.paddr - m.paddr)

namespace PartOf

variable {p : Memmap}

theorem has (h : PartOf m p) {a : ℕ} (ha : p.Has a) : m.Has a :=
  ⟨h.lo.trans ha.1, ha.2.trans_le h.hi⟩

theorem ptr_eq (h : PartOf m p) {a : ℕ} (ha : p.Has a) : p.ptr a = m.ptr a := by
  have h₁ := h.off
  have h₂ := h.lo
  have h₃ := ha.1
  have : p.data.off + (a - p.paddr) = m.data.off + (a - m.paddr) := by omega
  simp [Memmap.ptr, HostPtr.add, h.region, this]

theorem segOk (h : PartOf m p) {hp : Heap} (hm : SegOk hp m) {c : ℕ} (hc : m.cowData = some c) :
    SegOk hp p := by
  obtain ⟨hlt, -, hreg, hown⟩ := hm.shared c hc
  refine ⟨h.region ▸ hm.region_lt, ?_, ?_, ?_⟩
  · intro i hi
    have h₁ := h.lo
    have h₂ := h.hi
    unfold Memmap.stop at h₂
    have := hm.live (p.paddr - m.paddr + i) (by omega)
    rw [h.region, h.off, Nat.add_assoc]
    exact this
  · intro hn
    simp [h.cow, hc] at hn
  · intro d hd
    obtain rfl : c = d := by simpa [h.cow, hc] using hd
    exact ⟨hlt, h.own, h.region ▸ hreg, hown⟩

end PartOf

namespace Sharing

variable {h' : Heap} {segs segs' : List Memmap} {c : ℕ}

theorem perm (hs : Sharing h segs) (hp : segs.Perm segs') : Sharing h segs' :=
  ⟨fun m hm => hs.ok m (hp.mem_iff.mpr hm),
    (hp.pairwise_iff Compat.symm).mp hs.pair⟩

theorem sublist (hs : Sharing h segs) (hsub : segs'.Sublist segs) : Sharing h segs' :=
  ⟨fun m hm => hs.ok m (hsub.subset hm), hs.pair.sublist hsub⟩

theorem tail (hs : Sharing h (m :: rest)) : Sharing h rest :=
  hs.sublist (List.sublist_cons_self m rest)

theorem head (hs : Sharing h (m :: rest)) : SegOk h m := hs.ok m (by simp)

theorem compat (hs : Sharing h (m :: rest)) : ∀ x ∈ rest, Compat m x :=
  (List.pairwise_cons.mp hs.pair).1

theorem cons (hs : Sharing h rest) (hm : SegOk h m) (hc : ∀ x ∈ rest, Compat m x) :
    Sharing h (m :: rest) := by
  refine ⟨?_, List.pairwise_cons.mpr ⟨hc, hs.pair⟩⟩
  intro x hx
  rcases List.mem_cons.mp hx with rfl | hx
  · exact hm
  · exact hs.ok x hx

/-- No other segment sees the allocation of a segment without a control block. -/
theorem region_ne_of_unshared (hs : Sharing h (m :: rest)) (hm : m.cowData = none) :
    ∀ x ∈ rest, x.data.region ≠ m.data.region := by
  intro x hx he
  obtain ⟨c, hc, -⟩ := hs.compat x hx he.symm
  simp [hm] at hc

/-- No other segment sees the allocation of the only holder of a control block. -/
theorem region_ne_of_only (hs : Sharing h (m :: rest)) (hm : m.cowData = some c)
    (ho : ∀ x ∈ rest, x.cowData ≠ some c) : ∀ x ∈ rest, x.data.region ≠ m.data.region := by
  intro x hx he
  obtain ⟨d, hd, hd'⟩ := hs.compat x hx he.symm
  obtain rfl : c = d := by simpa [hm] using hd
  exact ho x hx hd'

/-- The invariant only looks at the host pages and control blocks of its segments. -/
theorem frame (hs : Sharing h segs) (hnext : h.host.next ≤ h'.host.next)
    (hcow : h.nextCow ≤ h'.nextCow)
    (hlive : ∀ m ∈ segs, h'.host.mapped m.data.region = h.host.mapped m.data.region)
    (hcows : ∀ m ∈ segs, ∀ c, m.cowData = some c → h'.cows c = h.cows c) : Sharing h' segs := by
  refine ⟨?_, hs.pair⟩
  intro m hm
  have ho := hs.ok m hm
  refine ⟨ho.region_lt.trans_le hnext, ?_, ho.own, ?_⟩
  · rw [hlive m hm]
    exact ho.live
  · intro c hc
    obtain ⟨h₁, h₂, h₃, h₄⟩ := ho.shared c hc
    rw [hcows m hm c hc]
    exact ⟨h₁.trans_le hcow, h₂, h₃, h₄⟩

/-- Stores through host pointers do not touch the invariant. -/
theorem bytes (hs : Sharing h segs) (bs : ℕ → ℕ → Byte) :
    Sharing { h with host := { h.host with bytes := bs } } segs :=
  hs.frame le_rfl le_rfl (fun _ _ => rfl) (fun _ _ _ _ => rfl)

/-- Parts of a shared segment may replace it. -/
theorem parts (hs : Sharing h (m :: rest)) (hc : m.cowData = some c) {ps : List Memmap}
    (hps : ∀ p ∈ ps, PartOf m p) : Sharing h (ps ++ rest) := by
  induction ps with
  | nil => exact hs.tail
  | cons p ps ih =>
    have hp := hps p (by simp)
    refine (ih fun q hq => hps q (by simp [hq])).cons (hp.segOk hs.head hc) ?_
    intro x hx he
    rcases List.mem_append.mp hx with hx | hx
    · exact ⟨c, hp.cow.trans hc, (hps x (by simp [hx])).cow.trans hc⟩
    · rw [hp.cow]
      exact hs.compat x hx (hp.region ▸ he)

end Sharing

/-! ## The edits of the source -/

/-- What `shareHost` makes of a segment: a holder of some control block. -/
structure SharedAs (m m' : Memmap) : Prop where
  paddr : m'.paddr = m.paddr
  size : m'.size = m.size
  flags : m'.flags = m.flags
  data : m'.data = m.data
  own : m'.owned = false
  cow : ∃ c, m'.cowData = some c
  keep : ∀ c, m.cowData = some c → m' = m

theorem SharedAs.stop (h : SharedAs m m') : m'.stop = m.stop := by
  rw [Memmap.stop, Memmap.stop, h.paddr, h.size]

theorem shareHost_host (h : Heap) (m : Memmap) : (shareHost h m).1.host = h.host := by
  unfold shareHost
  split_ifs <;> rfl

section
variable (h : Heap) (m : Memmap)

@[simp] theorem shareHost_paddr : (shareHost h m).2.paddr = m.paddr := by
  unfold shareHost
  split_ifs <;> rfl

@[simp] theorem shareHost_size : (shareHost h m).2.size = m.size := by
  unfold shareHost
  split_ifs <;> rfl

@[simp] theorem shareHost_flags : (shareHost h m).2.flags = m.flags := by
  unfold shareHost
  split_ifs <;> rfl

@[simp] theorem shareHost_data : (shareHost h m).2.data = m.data := by
  unfold shareHost
  split_ifs <;> rfl

@[simp] theorem shareHost_stop : (shareHost h m).2.stop = m.stop := by
  rw [Memmap.stop, Memmap.stop, shareHost_paddr, shareHost_size]

theorem shareHost_has (a : ℕ) : (shareHost h m).2.Has a ↔ m.Has a := by
  rw [Memmap.Has, Memmap.Has, shareHost_paddr, shareHost_stop]

theorem shareHost_ptr (a : ℕ) : (shareHost h m).2.ptr a = m.ptr a := by
  rw [Memmap.ptr, Memmap.ptr, shareHost_paddr, shareHost_data]

end

theorem shareHost_spec (hs : Sharing h (m :: rest)) :
    SharedAs m (shareHost h m).2 ∧ Sharing (shareHost h m).1 ((shareHost h m).2 :: rest) := by
  cases hc : m.cowData with
  | some c =>
    have he : shareHost h m = (h, m) := by simp [shareHost, hc]
    rw [he]
    exact ⟨⟨rfl, rfl, rfl, rfl, (hs.head.shared c hc).2.1, ⟨c, hc⟩, fun _ _ => rfl⟩, hs⟩
  | none =>
    have hcond : m.cowData = none ∧ m.owned = true := ⟨hc, hs.head.own hc⟩
    rw [shareHost, if_pos hcond]
    refine ⟨⟨rfl, rfl, rfl, rfl, rfl, ⟨_, rfl⟩, by simp [hc]⟩, ?_⟩
    have htail : Sharing { h with
        cows := update h.cows h.nextCow ⟨m.data, m.dsize, true⟩
        nextCow := h.nextCow + 1 } rest := by
      refine hs.tail.frame le_rfl (Nat.le_succ _) (fun _ _ => rfl) ?_
      intro x hx c hxc
      have hlt := ((hs.tail.ok x hx).shared c hxc).1
      simp [update_of_ne hlt.ne]
    refine htail.cons ⟨hs.head.region_lt, hs.head.live, by simp, ?_⟩ ?_
    · intro c hcc
      obtain rfl : h.nextCow = c := by simpa using hcc
      simp
    · intro x hx he
      exact absurd he.symm (hs.region_ne_of_unshared hc x hx)

/-- `mmu_w_slow`, unique reference: the segment takes its pages over. -/
theorem Sharing.steal {c : ℕ} (hs : Sharing h (m :: rest)) (hc : m.cowData = some c)
    (ho : ∀ x ∈ rest, x.cowData ≠ some c) :
    Sharing { h with cows := update h.cows c { h.cows c with owned := false } }
      (m.stolen :: rest) := by
  have htail : Sharing { h with
      cows := update h.cows c { h.cows c with owned := false } } rest := by
    refine hs.tail.frame le_rfl le_rfl (fun _ _ => rfl) ?_
    intro x hx d hd
    have hne : d ≠ c := by
      rintro rfl
      exact ho x hx hd
    simp [update_of_ne hne]
  refine htail.cons ⟨hs.head.region_lt, hs.head.live, fun _ => rfl, by simp [Memmap.stolen]⟩ ?_
  intro x hx he
  exact absurd he.symm (hs.region_ne_of_only hc ho x hx)

theorem Host.mmap_mapped (h : Host) {len : ℕ} (prot : U32) (init : ℕ → Byte) {i : ℕ}
    (hi : i < len) : (h.mmap len prot init).2.mapped h.next i = true := by
  have hp : i < (len + (pageSize - 1)) / pageSize * pageSize := by
    unfold pageSize
    omega
  simp [Host.mmap, Host.inPages, hp]

/-- A segment over fresh pages may be added. -/
theorem Sharing.fresh (hs : Sharing h rest) (len : ℕ) (prot : U32) (init : ℕ → Byte)
    (hd : m.data = ⟨h.host.next, 0⟩) (hsize : m.size ≤ len) (hown : m.owned = true)
    (hcow : m.cowData = none) :
    Sharing { h with host := (h.host.mmap len prot init).2 } (m :: rest) := by
  have hlt : ∀ x ∈ rest, x.data.region ≠ h.host.next := fun x hx => (hs.ok x hx).region_lt.ne
  have htail : Sharing { h with host := (h.host.mmap len prot init).2 } rest := by
    refine hs.frame (Nat.le_succ _) le_rfl ?_ (fun _ _ _ _ => rfl)
    intro x hx
    simp [Host.mmap, update_of_ne (hlt x hx)]
  refine htail.cons ⟨?_, ?_, fun _ => hown, by simp [hcow]⟩ ?_
  · simp [hd, Host.mmap]
  · intro i hi
    simpa [hd] using Host.mmap_mapped h.host prot init (hi.trans_le hsize)
  · intro x hx he
    exact absurd (by rw [← he, hd]) (hlt x hx)

end Bpfvm.Memory
