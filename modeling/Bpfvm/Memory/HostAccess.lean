import Bpfvm.Memory.Pointwise

/-!
# Host protection of guest pages

`mmu` and `mmu_w` hand out host pointers; the access then goes to the host page, whose protection
is set by the host `mmap` and by the host `mprotect` calls of `do_mprotect` and `mmu_w_slow`. The
guest flags and the host protection are kept in step by these calls only, and `do_mprotect` skips
the call for pages that are shared at the time. A run in which no page loses all access, and in
which a segment becomes writable only while it owns its pages, keeps them in step.
-/
namespace Bpfvm.Memory
open Function List State Host

/-- The host lets the page be read; hosts read a writable page. -/
def ReadableProt (prot : U32) : Prop :=
  hasFlag prot protRead = true ∨ hasFlag prot protWrite = true

/-- The host lets the page be written. -/
def WritableProt (prot : U32) : Prop := hasFlag prot protWrite = true

theorem WritableProt.readable {prot : U32} (h : WritableProt prot) : ReadableProt prot :=
  .inr h

instance (prot : U32) : Decidable (ReadableProt prot) := inferInstanceAs (Decidable (_ ∨ _))

instance (prot : U32) : Decidable (WritableProt prot) := inferInstanceAs (Decidable (_ = _))

/-- A guest access that the translation accepts does not fault on the host. -/
def AccessPermitted (s : State) : Prop :=
  ∀ v, s.Runs v → ∀ a < 2 ^ 64, ∀ n < 2 ^ 64,
    (∀ p, (s.mmu v a n).1 = some p → ∀ i < n, s.host.mapped p.region (p.off + i) = true ∧
      ReadableProt (s.host.prot p.region (p.off + i))) ∧
    ∀ env p, (s.mmuW env v a n).1 = some p → ∀ i < n,
      (s.mmuW env v a n).2.host.mapped p.region (p.off + i) = true ∧
      WritableProt ((s.mmuW env v a n).2.host.prot p.region (p.off + i))

/-! ## Protection bits -/

theorem hasFlag_pfOfProt (prot : U32) :
    hasFlag (pfOfProt prot) pfW = hasFlag prot protWrite := by
  unfold pfOfProt
  cases hasFlag prot protRead <;> cases hasFlag prot protWrite <;>
    cases hasFlag prot protExec <;> decide

theorem writable_protOfPf {flags : U32} (h : hasFlag flags pfW = true) :
    WritableProt (protOfPf flags) := by
  unfold WritableProt protOfPf
  rw [h]
  cases hasFlag flags pfR <;> cases hasFlag flags pfX <;> decide

theorem hasFlag_newProt (fl f : U32) : hasFlag (newProt fl f) pfW = hasFlag fl pfW := by
  unfold hasFlag newProt
  rw [BitVec.and_or_distrib_right, BitVec.and_assoc, show ~~~kProtMask &&& pfW = 0 by decide]
  simp

theorem writable_copyProt (m : Memmap) : WritableProt m.copyProt := by
  unfold WritableProt Memmap.copyProt
  cases hasFlag m.flags pfX <;> decide

/-! ## Segments whose pages the host lets the guest use -/

/-- The segment consists of whole pages which the host lets be read and, if the segment is
writable, written. -/
structure SegOpen (h : Host) (m : Memmap) : Prop where
  paddr : m.paddr % pageSize = 0
  size : m.size % pageSize = 0
  off : m.data.off % pageSize = 0
  read : ∀ i < m.size, ReadableProt (h.prot m.data.region (m.data.off + i))
  write : hasFlag m.flags pfW = true →
    ∀ i < m.size, WritableProt (h.prot m.data.region (m.data.off + i))

namespace SegOpen

variable {h h' : Host} {m m' : Memmap}

theorem congr (ho : SegOpen h m) (hp : m'.paddr = m.paddr) (hs : m'.size = m.size)
    (hd : m'.data = m.data) (hf : m'.flags = m.flags) : SegOpen h m' := by
  obtain ⟨h₁, h₂, h₃, h₄, h₅⟩ := ho
  refine ⟨?_, ?_, ?_, ?_, ?_⟩
  · rwa [hp]
  · rwa [hs]
  · rwa [hd]
  · rwa [hs, hd]
  · rwa [hs, hd, hf]

/-- The host may change protections as long as nothing is taken away. -/
theorem mono (ho : SegOpen h m) (hprot : ∀ i < m.size,
    h'.prot m.data.region (m.data.off + i) = h.prot m.data.region (m.data.off + i) ∨
      WritableProt (h'.prot m.data.region (m.data.off + i))) : SegOpen h' m := by
  refine ⟨ho.paddr, ho.size, ho.off, fun i hi => ?_, fun hf i hi => ?_⟩
  · rcases hprot i hi with he | hw
    · rw [he]
      exact ho.read i hi
    · exact hw.readable
  · rcases hprot i hi with he | hw
    · rw [he]
      exact ho.write hf i hi
    · exact hw

theorem frame (ho : SegOpen h m) (hprot : h'.prot m.data.region = h.prot m.data.region) :
    SegOpen h' m :=
  ho.mono fun _ _ => .inl (congrFun hprot _)

theorem part (ho : SegOpen h m) (hpart : PartOf m m')
    (hf : hasFlag m'.flags pfW = true → hasFlag m.flags pfW = true)
    (hp : m'.paddr % pageSize = 0) (hs : m'.stop % pageSize = 0) : SegOpen h m' := by
  have hlo := hpart.lo
  have hhi := hpart.hi
  have hoff := hpart.off
  have hmp := ho.paddr
  have hmo := ho.off
  unfold Memmap.stop at hs hhi
  unfold pageSize at hp hs hmp hmo
  have hin : ∀ i < m'.size, m'.data.off + i = m.data.off + (m'.paddr - m.paddr + i) ∧
      m'.paddr - m.paddr + i < m.size := by
    intro i hi
    omega
  refine ⟨hp, ?_, ?_, fun i hi => ?_, fun hw i hi => ?_⟩
  · unfold pageSize
    omega
  · unfold pageSize
    omega
  · rw [hpart.region, (hin i hi).1]
    exact ho.read _ (hin i hi).2
  · rw [hpart.region, (hin i hi).1]
    exact ho.write (hf hw) _ (hin i hi).2

theorem stop (ho : SegOpen h m) : m.stop % pageSize = 0 := by
  have h₁ := ho.paddr
  have h₂ := ho.size
  unfold Memmap.stop pageSize at *
  omega

end SegOpen

/-- All segments of the state. -/
def AllOpen (s : State) : Prop := ∀ m ∈ s.segs, SegOpen s.host m

variable {ml post pre : List Memmap} {base : ℕ}

variable {s s' : State} {v : ℕ} {p : HostPtr} {m : Memmap} {env : HostEnv} {h h' : Heap}

/-- An edit of one container, with new host pages or protections. -/
theorem AllOpen.edit (hw : Wf s) (hv : v < s.nextVm) (heap : Heap)
    (hall : ∀ m ∈ ml ++ s.others (s.vms v).space, SegOpen heap.host m) :
    AllOpen ((s.setHeap heap).setMaps v ml) :=
  fun m hm => hall m ((mem_segs_setMaps hw hv heap).mp hm)

theorem AllOpen.insert (hw : Wf s) (hv : v < s.nextVm) (heap : Heap) (hm : SegOpen heap.host m)
    (hall : ∀ m ∈ ml ++ s.others (s.vms v).space, SegOpen heap.host m) :
    AllOpen ((s.setHeap heap).setMaps v (Segments.insertBefore Memmap.paddr ml m)) := by
  refine AllOpen.edit hw hv heap fun x hx => ?_
  simp only [mem_append, Segments.mem_insertBefore, or_assoc] at hx
  rcases hx with rfl | hx
  · exact hm
  · exact hall x (mem_append.mpr hx)

/-- What holds of the segments beside a place and of those that are put there. -/
theorem forall_mem_mid {P : Memmap → Prop} {mid rest : List Memmap} (hmid : ∀ x ∈ mid, P x)
    (hrest : ∀ x ∈ pre ++ post ++ rest, P x) : ∀ x ∈ pre ++ (mid ++ post) ++ rest, P x := by
  intro x hx
  simp only [mem_append] at hx hrest
  rcases hx with (hx | hx | hx) | hx
  · exact hrest x (.inl (.inl hx))
  · exact hmid x hx
  · exact hrest x (.inl (.inr hx))
  · exact hrest x (.inr hx)

theorem Wf.mem_segs_front (hw : Wf s) (hv : v < s.nextVm)
    (hm : m ∈ s.maps v ++ s.others (s.vms v).space) : m ∈ s.segs :=
  (segs_perm (hw.space_lt v hv)).mem_iff.mpr hm

theorem Wf.mem_segs (hw : Wf s) (hv : v < s.nextVm) (hm : m ∈ s.maps v) : m ∈ s.segs :=
  hw.mem_segs_front hv (mem_append_left _ hm)

theorem AllOpen.front (ho : AllOpen s) (hw : Wf s) (hv : v < s.nextVm) :
    ∀ m ∈ s.maps v ++ s.others (s.vms v).space, SegOpen s.host m :=
  fun m hm => ho m (hw.mem_segs_front hv hm)

/-! ## The host calls -/

section Host
variable (h : Host) (env : HostEnv) (p : HostPtr) (size : ℕ) (prot : U32)

@[simp] theorem Host.munmap_prot : (h.munmap p size).prot = h.prot := by
  unfold munmap
  split_ifs <;> rfl

theorem Host.mmap_prot_of_lt (init : ℕ → Byte) {r : ℕ} (hr : r < h.next) :
    (h.mmap size prot init).2.prot r = h.prot r :=
  update_of_ne hr.ne _ _

theorem Host.mmap_prot_self (init : ℕ → Byte) (o : ℕ) :
    (h.mmap size prot init).2.prot h.next o = prot := by
  simp [mmap]

/-- `mprotect` sets the protection of the pages, or fails without effect. -/
theorem Host.mprotect_cases :
    (∃ e, h.mprotect env p size prot = (some e, h)) ∨
    (p.off % pageSize = 0 ∧ env.mprotectErr p size prot = none ∧
      h.mprotect env p size prot = (none, { h with
        prot := fun r o => if inPages p size r o then prot else h.prot r o })) := by
  unfold mprotect
  split_ifs with hal
  · exact .inl ⟨22, rfl⟩
  · cases he : env.mprotectErr p size prot with
    | some e => exact .inl ⟨e, rfl⟩
    | none => exact .inr ⟨not_not.mp hal, rfl, rfl⟩

theorem Host.mprotect_prot_of_ne {p : HostPtr} {r : ℕ} (hr : r ≠ p.region) :
    (h.mprotect env p size prot).2.prot r = h.prot r := by
  rcases mprotect_cases h env p size prot with ⟨e, he⟩ | ⟨-, -, he⟩
  · rw [he]
  · rw [he]
    funext o
    simp [inPages, hr]

/-- Whole pages: the range and nothing else. -/
theorem Host.inPages_iff {p : HostPtr} {size : ℕ} (hp : p.off % pageSize = 0)
    (hs : size % pageSize = 0) (r o : ℕ) :
    inPages p size r o = true ↔ r = p.region ∧ p.off ≤ o ∧ o < p.off + size := by
  have hround : (p.off + size + (pageSize - 1)) / pageSize * pageSize = p.off + size := by
    unfold pageSize at *
    omega
  simp [inPages, hround, and_assoc]

end Host

/-- The host calls of the copy: the new pages can be written, and no older page loses access if
the source gets its protection back. -/
theorem Host.copySegment_prot (env : HostEnv) (h : Host) (hf : hasFlag m.flags pfW = true)
    (hback : env.mprotectErr m.data m.size protRead = none →
      env.mprotectErr m.data m.size (protOfPf m.flags) = none) :
    ∀ r < h.next, ∀ o, (h.copySegment env m).2.prot r o = h.prot r o ∨
      WritableProt ((h.copySegment env m).2.prot r o) := by
  intro r hr o
  unfold copySegment
  split_ifs
  · exact .inl rfl
  have hold := mmap_prot_of_lt h m.size m.copyProt (fun _ => 0) hr
  generalize h.mmap m.size m.copyProt (fun _ => 0) = q at hold ⊢
  obtain ⟨p, h₁⟩ := q
  dsimp only at hold ⊢
  rcases mprotect_cases h₁ env m.data m.size protRead with ⟨e, he⟩ | ⟨hal, hok, he⟩
  · rw [he]
    dsimp only
    rw [munmap_prot, hold]
    exact .inl rfl
  · rw [he]
    dsimp only
    unfold mprotect
    rw [if_neg (not_not.mpr hal), hback hok]
    dsimp only [memcpy]
    split_ifs
    · exact .inr (writable_protOfPf hf)
    · exact .inl (congrFun hold o)

theorem Host.copySegment_prot_new {h : Host} (hm : m.data.region < h.next)
    (hs : (h.copySegment env m).1 = some p) (o : ℕ) :
    (h.copySegment env m).2.prot h.next o = m.copyProt := by
  unfold copySegment at hs ⊢
  split_ifs at hs ⊢
  have hnew := mmap_prot_self h m.size m.copyProt (fun _ => 0) o
  generalize h.mmap m.size m.copyProt (fun _ => 0) = q at hnew hs ⊢
  obtain ⟨p', h₁⟩ := q
  dsimp only at hnew hs ⊢
  have hprot := mprotect_prot_of_ne h₁ env m.size protRead hm.ne'
  generalize h₁.mprotect env m.data m.size protRead = t at hs hprot ⊢
  obtain ⟨_ | e, h₂⟩ := t
  · dsimp only at hprot ⊢
    rw [mprotect_prot_of_ne _ _ _ _ hm.ne']
    exact (congrFun hprot o).trans hnew
  · simp at hs

theorem Host.copySegment_writable {h : Host} (hm : m.data.region < h.next)
    (hs : (h.copySegment env m).1 = some p) (i : ℕ) :
    WritableProt ((h.copySegment env m).2.prot p.region (p.off + i)) := by
  obtain ⟨rfl, -⟩ := (copySegment_spec env h m).2.2.2 p hs
  rw [copySegment_prot_new hm hs]
  exact writable_copyProt m

/-! ## Translation for writing -/

section Write
variable {a n : ℕ}

/-- The host gives a copied segment its protection back. -/
def Restores (env : HostEnv) (m : Memmap) : Prop :=
  env.mprotectErr m.data m.size protRead = none →
    env.mprotectErr m.data m.size (protOfPf m.flags) = none

theorem segs_region_lt (hw : Wf s) {x : Memmap} (hx : x ∈ s.segs) :
    x.data.region < s.host.next :=
  (hw.sharing.ok x hx).region_lt

theorem AllOpen.resolveCow (ho : AllOpen s) (hw : Wf s) (hv : v < s.nextVm)
    (hf : findMap (s.maps v) a n = some m) (hW : hasFlag m.flags pfW = true)
    (hback : m.cowData ≠ none → Restores env m) : AllOpen (s.resolveCow env v a m).2 := by
  obtain ⟨pre, post, hml, hstep⟩ := cowStep env hf
  have hfront := ho.front hw hv
  have hm : SegOpen s.host m := hfront m (by simp [hml])
  have hold : ∀ x ∈ pre ++ post ++ s.others (s.vms v).space,
      x ∈ s.maps v ++ s.others (s.vms v).space := by
    intro x hx
    simp only [hml, mem_append, mem_cons] at hx ⊢
    tauto
  generalize s.resolveCow env v a m = r at hstep ⊢
  cases hstep with
  | plain hc => exact ho
  | steal hc hone =>
    refine AllOpen.edit hw hv _ (forall_mem_mid (forall_mem_singleton.mpr ?_)
      fun x hx => hfront x (hold x hx))
    exact hm.congr rfl rfl rfl rfl
  | full hc hcopy =>
    have hprot := copySegment_prot env s.host hW (hback (by simp [hc]))
    rw [hcopy] at hprot
    exact fun x hx => (ho x hx).mono fun i _ => hprot _ (segs_region_lt hw hx) _
  | @copy c p h hc hmany hcopy =>
    have hprot := copySegment_prot env s.host hW (hback (by simp [hc]))
    have hlt := segs_region_lt hw (hw.mem_segs hv (findMap_mem hf))
    have hnew := copySegment_writable hlt (congrArg Prod.fst hcopy)
    obtain ⟨rfl, -⟩ := (copySegment_spec env s.host m).2.2.2 p (congrArg Prod.fst hcopy)
    rw [hcopy] at hprot hnew
    have hkeep : ∀ x ∈ pre ++ post ++ s.others (s.vms v).space, SegOpen h x := fun x hx =>
      (hfront x (hold x hx)).mono fun i _ =>
        hprot _ (segs_region_lt hw (hw.mem_segs_front hv (hold x hx))) _
    refine AllOpen.edit hw hv { s.heap with host := h }
      (forall_mem_mid (forall_mem_singleton.mpr ?_) hkeep)
    exact ⟨hm.paddr, hm.size, rfl, fun i _ => (hnew i).readable, fun _ i _ => hnew i⟩

/-- Whatever the host answers, the pages of a resolved segment can be written. -/
theorem resolveCow_writable (ho : AllOpen s) (hw : Wf s) (hv : v < s.nextVm)
    (hf : findMap (s.maps v) a n = some m) (hW : hasFlag m.flags pfW = true) {m' : Memmap}
    (hr : (s.resolveCow env v a m).1 = some m') : ∀ i < m.size,
      WritableProt ((s.resolveCow env v a m).2.host.prot m'.data.region (m'.data.off + i)) := by
  intro i hi
  have hmem := hw.mem_segs hv (findMap_mem hf)
  have hm := (ho m hmem).write hW i hi
  obtain ⟨pre, post, -, hstep⟩ := cowStep env hf
  generalize s.resolveCow env v a m = r at hr hstep ⊢
  cases hstep with
  | plain hc | steal hc hone =>
    obtain rfl := Option.some.inj hr
    exact hm
  | full hc hcopy => simp at hr
  | copy hc hmany hcopy =>
    obtain rfl := Option.some.inj hr
    have hnew := copySegment_writable (segs_region_lt hw hmem) (congrArg Prod.fst hcopy) i
    rwa [hcopy] at hnew

theorem AllOpen.mmuW (ho : AllOpen s) (hw : Wf s) (hv : v < s.nextVm) (ha : AccessOk a n)
    (hback : ∀ m ∈ s.maps v, CowHit a n m → Restores env m) :
    AllOpen (s.mmuW env v a n).2 := by
  refine mmuW_keeps ho (fun m hf hW => ?_) fun _ _ _ => id
  obtain ⟨hm, hlo, hhi⟩ := (findMap_eq_some_iff (hw.mapsOk hv) ha.1 ha.2.1 ha.2.2).mp hf
  exact ho.resolveCow hw hv hf hW fun hc => hback m hm ⟨hc, hW, hlo, hhi⟩

theorem mmuW_writable (ho : AllOpen s) (hw : Wf s) (hv : v < s.nextVm)
    (htlb : TlbOk (s.maps v) (s.vms v).tlb) (ha : AccessOk a n)
    (hp : (s.mmuW env v a n).1 = some p) : ∀ i < n,
      WritableProt ((s.mmuW env v a n).2.host.prot p.region (p.off + i)) := by
  intro i hi
  rcases mmuW_cases env (hw.mapsOk hv) htlb ha.1 ha.2.1 ha.2.2 with ⟨m, hf, hW, -, he⟩ | he
  · obtain ⟨hm, hlo, hhi⟩ := (findMap_eq_some_iff (hw.mapsOk hv) ha.1 ha.2.1 ha.2.2).mp hf
    rw [he] at hp ⊢
    obtain rfl := Option.some.inj hp
    have hwr := (ho m (hw.mem_segs hv hm)).write hW (a - m.paddr + i)
      (by unfold Memmap.stop at hhi; omega)
    rwa [← Nat.add_assoc] at hwr
  · rw [he] at hp ⊢
    unfold mmuWSlow at hp ⊢
    cases hf : findMap (s.maps v) a n with
    | none => simp [hf] at hp
    | some m =>
      obtain ⟨hm, hlo, hhi⟩ := (findMap_eq_some_iff (hw.mapsOk hv) ha.1 ha.2.1 ha.2.2).mp hf
      simp only [hf] at hp ⊢
      split_ifs at hp ⊢ with hW
      rcases resolveCow_spec env hw hv hf with ⟨m', s', hres, hr⟩ | ⟨host, hres, -⟩
      · have hwr := resolveCow_writable ho hw hv hf hW (congrArg Prod.fst hres) (a - m.paddr + i)
          (by unfold Memmap.stop at hhi; omega)
        rw [hres] at hp hwr ⊢
        obtain rfl := Option.some.inj hp
        rw [← hr.paddr, ← Nat.add_assoc] at hwr
        exact hwr
      · rw [hres] at hp
        simp at hp

end Write

/-! ## `do_mprotect` -/

section Protect
variable {own : Bool} {size : ℕ} {prot : U32}

theorem hostProtect_none (hp : hostProtect env own h p size prot = (none, h')) :
    (own = false ∧ h' = h) ∨ (own = true ∧ p.off % pageSize = 0 ∧
      ∀ r o, h'.host.prot r o = if inPages p size r o then prot else h.host.prot r o) := by
  unfold hostProtect at hp
  split_ifs at hp with hown
  · rcases mprotect_cases h.host env p size prot with ⟨e, he⟩ | ⟨hal, -, he⟩
    · simp [he] at hp
    · rw [he] at hp
      cases hp
      exact .inr ⟨hown, hal, fun _ _ => rfl⟩
  · cases hp
    exact .inl ⟨by simpa using hown, rfl⟩

theorem hostProtect_some {e : ℕ+} (hp : hostProtect env own h p size prot = (some e, h')) :
    h'.host = h.host := by
  unfold hostProtect at hp
  split_ifs at hp
  · rcases mprotect_cases h.host env p size prot with ⟨e, he⟩ | ⟨-, -, he⟩
    · rw [he] at hp
      cases hp
      rfl
    · simp [he] at hp
  · cases hp

/-- New flags and the protection that goes with them. -/
theorem SegOpen.protect {h h' : Host} (ho : SegOpen h m) (fl : U32) (hr : ReadableProt prot)
    (hfl : hasFlag fl pfW = hasFlag prot protWrite)
    (hprot : ∀ i < m.size, h'.prot m.data.region (m.data.off + i) = prot) :
    SegOpen h' { m with flags := fl } := by
  refine ⟨ho.paddr, ho.size, ho.off, fun i hi => ?_, fun hf i hi => ?_⟩
  · rw [hprot i hi]
    exact hr
  · rw [hprot i hi]
    exact hfl.symm.trans hf

/-- New flags alone, which grant no more than the protection of the pages. -/
theorem SegOpen.reflag {h : Host} (ho : SegOpen h m) (fl : U32)
    (hfl : hasFlag fl pfW = true → hasFlag m.flags pfW = true) : SegOpen h { m with flags := fl } :=
  ⟨ho.paddr, ho.size, ho.off, ho.read, fun hf => ho.write (hfl hf)⟩

end Protect

/-- Segments in the range whose pages are shared are not made writable. -/
def GrantsOwned (lo hi : ℕ) (prot : U32) (ml : List Memmap) : Prop :=
  WritableProt prot → ∀ m ∈ ml, ¬ Outside lo hi m → m.owned = false → hasFlag m.flags pfW = true

section Loop
variable {lo hi : ℕ} {prot : U32} {rest : List Memmap}

/-- The loop of `do_mprotect` keeps this. -/
structure LoopOpen (lo hi : ℕ) (prot : U32) (rest : List Memmap) (q : Heap × List Memmap) :
    Prop where
  ok : MapsOk q.2
  sharing : Sharing q.1 (q.2 ++ rest)
  segs : ∀ m ∈ q.2 ++ rest, SegOpen q.1.host m
  grants : GrantsOwned lo hi prot q.2

/-- The pages of an owned segment belong to no other segment. -/
theorem Sharing.owned_ne (hs : Sharing h (pre ++ m :: post ++ rest)) (hown : m.owned = true) :
    ∀ x ∈ pre ++ post ++ rest, x.data.region ≠ m.data.region := by
  have hfront := hs.perm (perm_front _ _ _ _)
  have hcow : m.cowData = none := by
    by_contra hne
    obtain ⟨c, hc⟩ := Option.ne_none_iff_exists'.mp hne
    have := (hfront.head.shared c hc).2.1
    simp [hown] at this
  intro x hx
  refine hfront.region_ne_of_unshared hcow x ?_
  simp only [mem_append] at hx ⊢
  tauto

/-- Segments other than the protected one keep their protection. -/
theorem LoopOpen.others {h₁ : Heap} {size : ℕ}
    (hq : LoopOpen lo hi prot rest (h, pre ++ m :: post)) (hh : h₁.host = h.host)
    (hreg : p.region = m.data.region) (hp : hostProtect env m.owned h₁ p size prot = (none, h')) :
    ∀ x ∈ pre ++ post ++ rest, SegOpen h'.host x := by
  intro x hx
  have hx' : x ∈ pre ++ m :: post ++ rest := by
    simp only [mem_append, mem_cons] at hx ⊢
    tauto
  have ho : SegOpen h.host x := hq.segs x hx'
  rcases hostProtect_none hp with ⟨-, rfl⟩ | ⟨hown, -, hprot⟩
  · rwa [hh]
  · refine ho.frame (funext fun o => ?_)
    have hne := hq.sharing.owned_ne hown x hx
    rw [hprot, hh]
    simp [inPages, hreg, hne]

theorem LoopOpen.flags (hr : ReadableProt prot)
    (hq : LoopOpen lo hi prot rest (h, pre ++ m :: post)) (hov : ¬ Outside lo hi m)
    (hp : hostProtect env m.owned h m.data m.size prot = (none, h')) :
    SegOpen h'.host { m with flags := m.withProt (pfOfProt prot) } := by
  have hm : m ∈ pre ++ m :: post := by simp
  have ho : SegOpen h.host m := hq.segs m (mem_append_left _ hm)
  have hfl : hasFlag (m.withProt (pfOfProt prot)) pfW = hasFlag prot protWrite := by
    rw [withProt_eq, hasFlag_newProt, hasFlag_pfOfProt]
  rcases hostProtect_none hp with ⟨hown, rfl⟩ | ⟨-, hal, hprot⟩
  · exact ho.reflag _ fun hf => hq.grants (hfl.symm.trans hf) m hm hov hown
  · refine ho.protect _ hr hfl fun i hi => ?_
    rw [hprot, if_pos]
    exact (inPages_iff hal ho.size _ _).mpr ⟨rfl, by omega, by omega⟩

theorem max_page {a b : ℕ} (ha : a % pageSize = 0) (hb : b % pageSize = 0) :
    max a b % pageSize = 0 := by
  rcases max_choice a b with h | h <;> rwa [h]

theorem min_page {a b : ℕ} (ha : a % pageSize = 0) (hb : b % pageSize = 0) :
    min a b % pageSize = 0 := by
  rcases min_choice a b with h | h <;> rwa [h]

/-- The three parts of a segment that is cut. -/
theorem LoopOpen.cut (hr : ReadableProt prot) (hlo : lo % pageSize = 0) (hhi : hi % pageSize = 0)
    (hlt : lo < hi) (hq : LoopOpen lo hi prot rest (h, pre ++ m :: post))
    (hov : ¬ Outside lo hi m) (hp : protectMiddle env lo hi prot h m = (none, h')) :
    ∀ x ∈ mprotectParts (shareHost h m).2 (max lo m.paddr) (min hi m.uend) (pfOfProt prot),
      SegOpen h'.host x := by
  intro x hx
  have hm : m ∈ pre ++ m :: post := by simp
  have ho : SegOpen h.host m := hq.segs m (mem_append_left _ hm)
  have ho' : SegOpen h.host (shareHost h m).2 := ho.congr (shareHost_paddr h m)
    (shareHost_size h m) (shareHost_data h m) (shareHost_flags h m)
  obtain ⟨hb₁, hlo₁, hlt₁, hhi₁⟩ := cut_shared h hlt hq.ok hov
  obtain ⟨hpart, hparts⟩ := mem_mprotectParts hb₁ hlo₁ hlt₁ hhi₁ hx
  have hal₁ : max lo m.paddr % pageSize = 0 := max_page hlo ho.paddr
  have hal₂ : min hi m.uend % pageSize = 0 :=
    min_page hhi (by rw [hq.ok.uend_eq hm]; exact ho.stop)
  have hcases := hostProtect_none hp
  rw [shareHost_host, shareHost_data, usub_eq (le_max_right lo m.paddr) (by omega),
    usub_eq hlt₁.le (by omega)] at hcases
  have hreg : x.data.region = m.data.region := hpart.region.trans (by rw [shareHost_data])
  have hoff : x.data.off = m.data.off + (x.paddr - m.paddr) := by
    rw [hpart.off, shareHost_data, shareHost_paddr]
  have hxlo : m.paddr ≤ x.paddr := shareHost_paddr h m ▸ hpart.lo
  have hdal : (m.data.off + (max lo m.paddr - m.paddr)) % pageSize = 0 := by
    have h₁ := ho.off
    have h₂ := ho.paddr
    unfold pageSize at *
    omega
  have hsal : (min hi m.uend - max lo m.paddr) % pageSize = 0 := by
    unfold pageSize at *
    omega
  have hlo₂ : m.paddr ≤ max lo m.paddr := le_max_right _ _
  -- a part beside the range: its flags and its pages stay
  have hbeside (hf : x.flags = (shareHost h m).2.flags) (hp : x.paddr % pageSize = 0)
      (hs : x.stop % pageSize = 0) (hout : x.stop ≤ max lo m.paddr ∨ min hi m.uend ≤ x.paddr) :
      SegOpen h'.host x := by
    have hxo : SegOpen h.host x := ho'.part hpart (by rw [hf]; exact id) hp hs
    rcases hcases with ⟨-, rfl⟩ | ⟨-, -, hprot⟩
    · rwa [shareHost_host]
    · refine hxo.mono fun i hi => .inl ?_
      rw [hprot, if_neg]
      rw [inPages_iff hdal hsal, HostPtr.add_off]
      unfold Memmap.stop at hout
      omega
  rcases hparts with ⟨hpa, hst, hf⟩ | ⟨hpa, hst, hf⟩ | ⟨hpa, hst, hf⟩
  · exact hbeside hf (by rw [hpa]; exact ho'.paddr) (by rwa [hst]) (.inl hst.le)
  · have hfl : hasFlag x.flags pfW = hasFlag prot protWrite := by
      rw [hf, hasFlag_newProt, hasFlag_pfOfProt]
    have hxo : SegOpen h.host { x with flags := m.flags } :=
      ho'.part ⟨hpart.cow, hpart.own, hpart.region, hpart.lo, hpart.hi, hpart.off⟩
        (by rw [shareHost_flags]; exact id) (by rwa [hpa]) (by rw [← hst] at hal₂; exact hal₂)
    rcases hcases with ⟨hown, rfl⟩ | ⟨-, -, hprot⟩
    · rw [shareHost_host]
      exact hxo.reflag x.flags fun hf => hq.grants (hfl.symm.trans hf) m hm hov hown
    · refine hxo.protect x.flags hr hfl fun i hi => ?_
      rw [hprot, if_pos]
      rw [inPages_iff hdal hsal, HostPtr.add_off]
      unfold Memmap.stop at hst
      change i < x.size at hi
      change x.data.region = _ ∧ _ ≤ x.data.off + i ∧ x.data.off + i < _
      refine ⟨hreg, ?_, ?_⟩ <;> omega
  · exact hbeside hf (by rwa [hpa]) (by rw [hst]; exact ho'.stop) (.inr hpa.ge)

theorem LoopOpen.step {q q' : Heap × List Memmap} (hr : ReadableProt prot)
    (hlo : lo % pageSize = 0) (hhi : hi % pageSize = 0) (hlt : lo < hi)
    (hq : LoopOpen lo hi prot rest q) (hstep : ProtStep env lo hi prot q () q') :
    LoopOpen lo hi prot rest q' := by
  have hrep : Reprot lo hi prot q.1 q.2 q'.1 q'.2 := hstep.reprot hlt hq.ok
  refine ⟨hrep.ok, hrep.sharing rest hq.sharing, ?_, ?_⟩
  · cases hstep with
    | @cut h _ pre post m hov hx hst hp =>
      have hreg : ((shareHost h m).2.data.add (usub (max lo m.paddr) m.paddr)).region =
          m.data.region := by rw [HostPtr.add_region, shareHost_data]
      have hother := hq.others (shareHost_host h m) hreg hp
      exact forall_mem_mid (hq.cut hr hlo hhi hlt hov hp) hother
    | @flags h _ pre post m hov hx hin hp =>
      exact forall_mem_mid (forall_mem_singleton.mpr (hq.flags hr hov hp))
        (hq.others rfl rfl hp)
  · intro hwr x hx hov' hown
    have hnew (f : U32) : hasFlag (newProt (pfOfProt prot) f) pfW = true := by
      rw [hasFlag_newProt, hasFlag_pfOfProt]
      exact hwr
    cases hstep with
    | @cut h _ pre post m hov _ hst hp =>
      have hm : m ∈ pre ++ m :: post := by simp
      obtain ⟨hb₁, hlo₁, hlt₁, hhi₁⟩ :=
        cut_shared h hlt hq.ok hov
      have hne := hrep.ok.paddr_lt hx
      have hu := hrep.ok.uend_eq hx
      have hum := hq.ok.uend_eq hm
      simp only [mem_append] at hx
      rcases hx with hx | hx | hx
      · exact hq.grants hwr x (by simp [hx]) hov' hown
      · rw [Outside, hu] at hov'
        rw [shareHost_paddr] at hlo₁
        rcases (mem_mprotectParts hb₁ (by rwa [shareHost_paddr]) hlt₁ hhi₁ hx).2 with
          ⟨hpa, hst, -⟩ | ⟨-, -, hf⟩ | ⟨hpa, hst, -⟩
        · rw [shareHost_paddr] at hpa
          omega
        · rw [hf]
          exact hnew _
        · rw [shareHost_stop] at hst
          omega
      · exact hq.grants hwr x (by simp [hx]) hov' hown
    | @flags h _ pre post m hov _ hin hp =>
      simp only [mem_append, mem_cons] at hx
      rcases hx with hx | rfl | hx
      · exact hq.grants hwr x (by simp [hx]) hov' hown
      · exact hnew m.flags
      · exact hq.grants hwr x (by simp [hx]) hov' hown

theorem LoopOpen.fail {q q' : Heap × List Memmap} {code : Int}
    (hq : LoopOpen lo hi prot rest q) (hfail : ProtFail env lo hi prot q code q') :
    ∀ m ∈ q'.2 ++ rest, SegOpen q'.1.host m := by
  cases hfail with
  | exec => exact hq.segs
  | @cut h h' pre post m e hov hp =>
    have hhost : h'.host = h.host := (hostProtect_some hp).trans (shareHost_host h m)
    rw [hhost]
    refine forall_mem_mid (forall_mem_singleton.mpr ?_) fun x hx => hq.segs x ?_
    · exact (hq.segs m (by simp)).congr (shareHost_paddr h m) (shareHost_size h m)
        (shareHost_data h m) (shareHost_flags h m)
    · simp only [mem_append, mem_cons] at hx ⊢
      tauto
  | flags hp =>
    rw [hostProtect_some hp]
    exact hq.segs

theorem LoopOpen.loop {fuel : ℕ} {ml' : List Memmap} {e : LoopEnd} (hr : ReadableProt prot)
    (hlo : lo % pageSize = 0) (hhi : hi % pageSize = 0) (hlt : lo < hi)
    (hq : LoopOpen lo hi prot rest (h, ml))
    (hl : mprotectLoop env lo hi prot fuel h ml 0 false = some (e, h', ml')) :
    ∀ m ∈ ml' ++ rest, SegOpen h'.host m := by
  obtain ⟨l, q, hrun, hend⟩ := mprotectLoop_run [] hlt fuel hq.ok (by simp) hl
  have hinv : LoopOpen lo hi prot rest q :=
    hrun.invariant hq fun _ _ _ hq hstep => hq.step hr hlo hhi hlt hstep
  rcases hend with ⟨-, rfl, -⟩ | ⟨code, -, hfail⟩
  · exact hinv.segs
  · exact hinv.fail hfail

end Loop

theorem AllOpen.mprotect {addr len fuel : ℕ} {prot : U32} {code : Int} (ho : AllOpen s)
    (hw : Wf s) (hv : v < s.nextVm) (hlen : 0 < len) (hfit : addr + len < 2 ^ 64)
    (hr : ReadableProt prot) (hal : addr % pageSize = 0) (hal' : len % pageSize = 0)
    (hg : GrantsOwned addr (addr + len) prot (s.maps v))
    (hres : s.doMprotect env fuel v addr len prot = some (code, s')) : AllOpen s' := by
  obtain ⟨e, h, ml, hq, hend⟩ := doMprotect_result hfit hres
  have hstart : LoopOpen addr (addr + len) prot (s.others (s.vms v).space) (s.heap, s.maps v) :=
    ⟨hw.mapsOk hv, hw.sharing_front hv, ho.front hw hv, hg⟩
  have hsegs := hstart.loop hr hal (by unfold pageSize at *; omega) (by omega) hq
  have hed : AllOpen ((s.setHeap h).setMaps v ml) := AllOpen.edit hw hv h hsegs
  rcases hend with ⟨-, rfl⟩ | ⟨any, -, rfl⟩
  · exact hed
  · exact hed

/-! ## Mapping and unmapping -/

theorem State.mem_segs : m ∈ s.segs ↔ ∃ σ < s.nextSpace, m ∈ s.spaces σ := by
  simp [segs]

/-- Destroying segments changes no protection and no container. -/
theorem foldl_release_prot (s : State) (dropped : List Memmap) :
    (dropped.foldl release s).host.prot = s.host.prot ∧
      (dropped.foldl release s).nextSpace = s.nextSpace := by
  induction dropped generalizing s with
  | nil => exact ⟨rfl, rfl⟩
  | cons m dropped ih =>
    have hone : (s.release m).host.prot = s.host.prot ∧
        (s.release m).nextSpace = s.nextSpace := by
      unfold release
      cases m.cowData <;> dsimp only <;> split_ifs <;> simp [setHost, setHeap,
        host]
    exact ⟨(ih _).1.trans hone.1, (ih _).2.trans hone.2⟩

theorem AllOpen.of_eq (ho : AllOpen s) (hsp : s'.spaces = s.spaces)
    (hn : s'.nextSpace = s.nextSpace) (hprot : s'.host.prot = s.host.prot) : AllOpen s' := by
  intro m hm
  have hm' : m ∈ s.segs := by
    rw [mem_segs] at hm ⊢
    rwa [hsp, hn] at hm
  exact (ho m hm').frame (by rw [hprot])

theorem AllOpen.setSpace {σ : ℕ} (ho : AllOpen s) (hsp : s'.spaces = update s.spaces σ ml)
    (hn : ∀ τ < s'.nextSpace, τ ≠ σ → τ < s.nextSpace) (hprot : s'.host.prot = s.host.prot)
    (hml : ∀ x ∈ ml, SegOpen s'.host x) : AllOpen s' := by
  intro x hx
  obtain ⟨τ, hτ, hxτ⟩ := mem_segs.mp hx
  rw [hsp] at hxτ
  by_cases he : τ = σ
  · rw [he, update_self] at hxτ
    exact hml x hxτ
  · rw [update_of_ne he] at hxτ
    exact (ho x (mem_segs.mpr ⟨τ, hn τ hτ he, hxτ⟩)).frame (by rw [hprot])

theorem AllOpen.munmap {addr : ℕ} (ho : AllOpen s) (hw : Wf s) (hv : v < s.nextVm) :
    AllOpen (s.doMunmap v addr).2 := by
  have hfront := ho.front hw hv
  unfold doMunmap unmap
  cases hf : (s.maps v).find? (fun m => addr == m.paddr) with
  | none => exact ho
  | some m =>
    dsimp only
    have hed : AllOpen (s.setMaps v ((s.maps v).eraseP fun m => addr == m.paddr)) :=
      AllOpen.edit hw hv s.heap fun x hx =>
        hfront x (mem_append.mpr ((mem_append.mp hx).imp_left mem_of_mem_eraseP))
    have hframe := release_frame (s.setMaps v ((s.maps v).eraseP fun m => addr == m.paddr)) m
    have hprot := foldl_release_prot
      (s.setMaps v ((s.maps v).eraseP fun m => addr == m.paddr)) [m]
    exact hed.of_eq hframe.1 hprot.2 hprot.1

/-- What `punch_hole` leaves: segments outside the hole, and parts of the others. -/
theorem mem_punchHole {stop : ℕ} {p : Memmap} (hp : p ∈ (punchHole base stop h ml).2.1) :
    p ∈ ml ∨ ∃ m ∈ ml, ¬ (stop ≤ m.paddr ∨ m.uend ≤ base) ∧
      ∃ h₁, p ∈ punchParts (shareHost h₁ m).2 base stop := by
  induction ml generalizing h with
  | nil => simp [punchHole] at hp
  | cons m ml ih =>
    have hlater {h : Heap} (hp : p ∈ (punchHole base stop h ml).2.1) := (ih hp).imp
      (mem_cons_of_mem m) (Exists.imp fun _ => And.imp_left (mem_cons_of_mem m))
    unfold punchHole at hp
    split_ifs at hp with hout
    · rcases mem_cons.mp hp with rfl | hp
      · exact .inl (by simp)
      · exact hlater hp
    · rcases mem_append.mp hp with hp | hp
      · exact .inr ⟨m, by simp, hout, h, hp⟩
      · exact hlater hp

theorem SegOpen.punch {stop : ℕ} {h : Host} {hp : Heap} {p : Memmap} (hml : MapsOk ml)
    (ho : ∀ m ∈ ml, SegOpen h m) (hb : base % pageSize = 0) (hs : stop % pageSize = 0)
    (hm : p ∈ (punchHole base stop hp ml).2.1) : SegOpen h p := by
  rcases mem_punchHole hm with hm | ⟨m, hm, hov, h₁, hpm⟩
  · exact ho p hm
  have ho' : SegOpen h (shareHost h₁ m).2 := (ho m hm).congr (shareHost_paddr h₁ m)
    (shareHost_size h₁ m) (shareHost_data h₁ m) (shareHost_flags h₁ m)
  rw [hml.uend_eq hm] at hov
  obtain ⟨hpart, -, hends⟩ := mem_punchParts
    (by rw [shareHost_paddr, shareHost_stop]; exact hml.paddr_lt hm)
    (by rw [shareHost_stop]; exact hml.bound m hm) (by rw [shareHost_paddr]; omega)
    (by rw [shareHost_stop]; omega) hpm
  refine ho'.part hpart (by rw [punchParts_flags hpm]; exact id) ?_ ?_
  · rcases hends with ⟨he, -⟩ | ⟨he, -⟩
    · rw [he]
      exact ho'.paddr
    · rwa [he]
  · rcases hends with ⟨-, he⟩ | ⟨-, he⟩
    · rwa [he]
    · rw [he]
      exact ho'.stop

theorem roundUp_page (x : ℕ) : roundUp x % pageSize = 0 := Nat.mul_mod_left _ _

theorem doMmap_fixed_page {a : MmapArgs} (hfix : a.fixed = true)
    (hr : s.doMmap env v a = some (.ok base, s')) : a.addr % pageSize = 0 := by
  by_contra hne
  unfold doMmap at hr
  split at hr
  · cases hr
  · rw [if_pos ⟨hfix, hne⟩] at hr
    cases hr

/-- Segments that are there keep their pages when the host maps others. -/
theorem AllOpen.hostMmap {size : ℕ} {prot : U32} {init : ℕ → Byte} {h : Host}
    (ho : AllOpen s) (hw : Wf s) (hv : v < s.nextVm)
    (hm : s.host.mmap size prot init = (p, h)) :
    ∀ x ∈ s.maps v ++ s.others (s.vms v).space, SegOpen h x := by
  intro x hx
  obtain rfl : _ = h := congrArg Prod.snd hm
  exact (ho.front hw hv x hx).frame
    (mmap_prot_of_lt _ _ _ _ (segs_region_lt hw (hw.mem_segs_front hv hx)))

section Mmap
variable {a : MmapArgs}

theorem SegOpen.mapped {h : Host} (hr : ReadableProt a.prot)
    (hm : s.host.mmap (roundUp a.len) a.prot a.init = (p, h)) (hb : base % pageSize = 0) :
    SegOpen h (a.segment base p) := by
  obtain ⟨rfl, -⟩ := mmap_frame hm
  obtain rfl : _ = h := congrArg Prod.snd hm
  have hprot (i : ℕ) := mmap_prot_self s.host (roundUp a.len) a.prot a.init (0 + i)
  refine ⟨hb, roundUp_page _, rfl, fun i _ => ?_, fun hf i _ => ?_⟩
  · exact (hprot i).symm ▸ hr
  · exact (hprot i).symm ▸ (hasFlag_pfOfProt a.prot).symm.trans hf

theorem AllOpen.mmap {r : Except Int ℕ} (ho : AllOpen s) (hw : Wf s) (hv : v < s.nextVm)
    (hfit : s.mmapBase v a + roundUp a.len < 2 ^ 64) (hread : ReadableProt a.prot)
    (hr : s.doMmap env v a = some (r, s')) : AllOpen s' := by
  rcases doMmap_cases hr with ⟨e, -, rfl⟩ | ⟨hlen, p, h, hm, hcase⟩
  · exact ho
  have hold := ho.hostMmap hw hv hm
  rcases hcase with ⟨hfix, rfl, rfl⟩ | ⟨hfix, base, rfl, ht⟩
  · have hpage := doMmap_fixed_page hfix hr
    have hstop : uadd a.addr (roundUp a.len) % pageSize = 0 := by
      have hround := roundUp_page a.len
      rw [mmapBase, if_pos hfix] at hfit
      rw [uadd_eq hfit]
      unfold pageSize at *
      omega
    have hkept : ∀ x ∈ (punchHole a.addr (uadd a.addr (roundUp a.len)) (s.setHost h).heap
        ((s.setHost h).maps v)).2.1, SegOpen h x := fun x hx =>
      SegOpen.punch (hw.mapsOk hv) (fun m hm => hold m (mem_append_left _ hm)) hpage hstop hx
    have hhost := punchHole_host a.addr (uadd a.addr (roundUp a.len)) (s.setHost h).heap
      ((s.setHost h).maps v)
    unfold State.mapFixed
    generalize punchHole a.addr (uadd a.addr (roundUp a.len)) (s.setHost h).heap
      ((s.setHost h).maps v) = q at hkept hhost ⊢
    obtain ⟨heap, kept, dropped⟩ := q
    dsimp only at hkept hhost ⊢
    have hed : AllOpen ((s.setHeap heap).setMaps v
        (Segments.insertBefore Memmap.paddr kept (a.segment a.addr p))) := by
      refine AllOpen.insert hw hv heap ?_ ?_
      · exact hhost ▸ SegOpen.mapped hread hm hpage
      · exact hhost ▸ fun x hx => (mem_append.mp hx).elim (hkept x) fun hx =>
          hold x (mem_append_right _ hx)
    obtain ⟨hspaces, hvms, -, -⟩ :=
      foldl_release_frame (((s.setHost h).setHeap heap).setMaps v kept) dropped
    obtain ⟨hprot, hn⟩ :=
      foldl_release_prot (((s.setHost h).setHeap heap).setMaps v kept) dropped
    refine hed.of_eq ?_ hn hprot
    generalize dropped.foldl release (((s.setHost h).setHeap heap).setMaps v kept) = s₂
      at hspaces hvms ⊢
    change update s₂.spaces _ _ = update s.spaces (s.vms v).space _
    rw [flushTlb_space, flushTlb_maps, maps, hspaces, hvms]
    simp [setMaps, setHeap, setHost]
  · obtain ⟨rfl, rfl, -⟩ := mapTail_place ((wf_mmap hw hm).1.mapsOk hv) hfix hfit ht
    refine AllOpen.insert hw hv { s.heap with host := h } (SegOpen.mapped hread hm ?_) hold
    unfold mmapBase
    rw [if_neg (by simp [hfix])]
    split
    · rfl
    · exact Nat.mul_mod_left _ _

end Mmap

/-! ## Processes -/

theorem mem_cloneMaps {x : Memmap} (hx : x ∈ (cloneMaps h ml).2) :
    ∃ m ∈ ml, x.paddr = m.paddr ∧ x.size = m.size ∧ x.data = m.data ∧ x.flags = m.flags := by
  induction ml generalizing h with
  | nil => simp [cloneMaps] at hx
  | cons m ml ih =>
    rcases mem_cons.mp hx with rfl | hx
    · exact ⟨m, by simp, shareHost_paddr h m, shareHost_size h m, shareHost_data h m,
        shareHost_flags h m⟩
    · obtain ⟨y, hy, hxy⟩ := ih hx
      exact ⟨y, by simp [hy], hxy⟩

theorem AllOpen.clone (ho : AllOpen s) (hw : Wf s) (hv : v < s.nextVm) (a : CloneArgs) :
    AllOpen (s.cloneSpace v a) := by
  by_cases ha : a.shareVm = true
  · rw [cloneSpace, if_pos ha]
    exact ho.of_eq rfl rfl rfl
  · obtain ⟨heap, parent, hcl, hhost, -, -, hs'⟩ := cloneSpace_eq (a := a) (hw.mapsOk hv) ha
    have hmem : ∀ x ∈ parent, SegOpen s.host x := by
      intro x hx
      obtain ⟨m, hm, h₁, h₂, h₃, h₄⟩ := mem_cloneMaps (h := s.heap) (by rw [hcl]; exact hx)
      exact (ho.front hw hv m (mem_append_left _ hm)).congr h₁ h₂ h₃ h₄
    rw [hs']
    have hed : AllOpen ((s.setHeap heap).setMaps v parent) :=
      AllOpen.edit hw hv heap fun x hx => hhost ▸ (mem_append.mp hx).elim (hmem x)
        fun hx => ho.front hw hv x (mem_append_right _ hx)
    refine hed.setSpace (σ := s.nextSpace) (by rfl)
      (fun σ hσ => lt_of_le_of_ne (Nat.lt_succ_iff.mp hσ)) rfl fun x hx => ?_
    obtain ⟨m, hm, rfl⟩ := mem_map.mp hx
    change SegOpen heap.host m.forked
    rw [hhost]
    exact (hmem m hm).congr rfl rfl rfl rfl

theorem AllOpen.dropSpace (ho : AllOpen s) (v : ℕ) : AllOpen (s.dropSpace v) := by
  have hadd : AllOpen ((s.addSpace []).setVm v
      { s.vms v with space := s.nextSpace, running := false }) :=
    ho.setSpace (σ := s.nextSpace) (by rfl) (fun σ hσ => lt_of_le_of_ne (Nat.lt_succ_iff.mp hσ)) rfl
      (by simp)
  unfold State.dropSpace
  dsimp only
  split_ifs
  · exact hadd
  · generalize (s.addSpace []).setVm v { s.vms v with space := s.nextSpace, running := false } = t
      at hadd ⊢
    have hdrop : AllOpen { t with spaces := update t.spaces (s.vms v).space [] } :=
      hadd.setSpace (by rfl) (fun _ hσ _ => hσ) rfl (by simp)
    obtain ⟨hprot, hn⟩ := foldl_release_prot
      { t with spaces := update t.spaces (s.vms v).space [] } (t.spaces (s.vms v).space)
    exact hdrop.of_eq (foldl_release_frame _ _).1 hn hprot

/-! ## Every run -/

/-- The condition of a step. A mapping and a change of protection leave the pages some access. A
change of protection covers whole pages and makes a segment writable only if it owns its pages
or was writable before. The host restores the protection of the pages it has copied from. -/
def Permitting (s : State) : Op → Prop
  | .write env v addr bs _ => ∀ m ∈ s.maps v, CowHit addr bs.length m → Restores env m
  | .mmap _ _ args _ => ReadableProt args.prot
  | .mprotect _ v addr len prot _ => addr % pageSize = 0 ∧ len % pageSize = 0 ∧
      ReadableProt prot ∧ GrantsOwned addr (addr + len) prot (s.maps v)
  | _ => True

def PermittingStep (s : State) (op : Op) (s' : State) : Prop :=
  QuietStep s op s' ∧ Permitting s op

theorem AllOpen.step {op : Op} (ho : AllOpen s) (hw : Wf s) (h : PermittingStep s op s') :
    AllOpen s' := by
  obtain ⟨⟨hs, hq⟩, hp⟩ := h
  cases hs with
  | read hv _ => exact mmu_keeps ho fun _ _ => ho
  | @write env v addr bs hv ha =>
    have hmmu := ho.mmuW hw hv.1 ha hp
    unfold storeBytes
    generalize s.mmuW env v addr bs.length = q at hmmu ⊢
    obtain ⟨_ | p, s'⟩ := q
    · exact hmmu
    · exact hmmu.of_eq rfl rfl rfl
  | mmap hv hr => exact ho.mmap hw hv.1 hq.1 hp hr
  | munmap hv => exact ho.munmap hw hv.1
  | mprotect hv hr => exact ho.mprotect hw hv.1 hq.1 hq.2.1 hp.2.2.1 hp.1 hp.2.1 hp.2.2.2 hr
  | clone hv => exact ho.clone hw hv.1 _
  | stop hv => exact ho.dropSpace _

/-- The image consists of whole pages. -/
def WholePages (segs : List BootSeg) : Prop :=
  ∀ b ∈ segs, b.paddr % pageSize = 0 ∧ b.size % pageSize = 0

theorem AllOpen.bootMap {b : BootSeg} (ho : AllOpen s) (hw : Wf s) (hv : 0 < s.nextVm)
    (hp : b.paddr % pageSize = 0) (hs : b.size % pageSize = 0) : AllOpen (s.bootMap b) := by
  have hprot (i : ℕ) := mmap_prot_self s.host b.size (protRead ||| protWrite) b.init (0 + i)
  have hwr (i : ℕ) : WritableProt ((s.host.mmap b.size (protRead ||| protWrite) b.init).2.prot
      s.host.next (0 + i)) := by
    rw [hprot i]
    decide
  have hold := ho.hostMmap hw hv (rfl : s.host.mmap b.size (protRead ||| protWrite) b.init = _)
  exact AllOpen.insert hw hv
    { s.heap with host := (s.host.mmap b.size (protRead ||| protWrite) b.init).2 }
    ⟨hp, hs, rfl, fun i _ => (hwr i).readable, fun _ i _ => hwr i⟩ hold

theorem BootOk.left {segs segs' : List BootSeg} (h : BootOk (segs ++ segs')) : BootOk segs :=
  ⟨fun b hb => h.nonempty b (mem_append_left _ hb),
    fun b hb => h.bound b (mem_append_left _ hb), (pairwise_append.mp h.disjoint).1⟩

theorem allOpen_boot {segs : List BootSeg} (hb : BootOk segs) (hp : WholePages segs) :
    AllOpen (boot segs) := by
  induction segs using List.reverseRecOn with
  | nil =>
    intro m hm
    simp [segs, boot, empty] at hm
  | append_singleton segs b ih =>
    have hboot := booting_boot hb.left
    have hpage := hp b (by simp)
    rw [boot, foldl_append, ← boot]
    refine AllOpen.bootMap (ih hb.left fun x hx => hp x (mem_append_left _ hx)) hboot.wf ?_
      hpage.1 hpage.2
    rw [hboot.nextVm]
    exact Nat.one_pos

theorem AllOpen.permitted (ho : AllOpen s) (hw : Wf s) (hc : Coherent s) : AccessPermitted s := by
  intro v hv a ha n hn
  refine ⟨fun p hp i hi => ?_, fun env p hp i hi => ?_⟩
  · have hok : AccessOk a n := ⟨ha, by omega, hn⟩
    rw [mmu_fst (hw.mapsOk hv.1) (hc v hv) hok.1 hok.2.1 hok.2.2] at hp
    obtain ⟨m, hf, rfl⟩ := Option.map_eq_some_iff.mp hp
    obtain ⟨hm, hlo, hhi⟩ := (findMap_eq_some_iff (hw.mapsOk hv.1) hok.1 hok.2.1 hok.2.2).mp hf
    have hmem := hw.mem_segs hv.1 hm
    have hlt : a - m.paddr + i < m.size := by
      unfold Memmap.stop at hhi
      omega
    have hlive := (hw.sharing.ok m hmem).live _ hlt
    have hread := (ho m hmem).read _ hlt
    rw [← Nat.add_assoc] at hlive hread
    exact ⟨hlive, hread⟩
  · have hok : AccessOk a n := ⟨ha, by omega, hn⟩
    have hready := mmuW_spec env hw hv.1 (hc v hv) hok.1 hok.2.1 hok.2.2
    have hwr := mmuW_writable ho hw hv.1 (hc v hv) hok hp i hi
    obtain ⟨m, hm, -, -, hlo, hhi, rfl⟩ := hready.hit p hp
    refine ⟨?_, hwr⟩
    have hv' : v < (s.mmuW env v a n).2.nextVm := hready.edits.nextVm ▸ hv.1
    have hlive := (hready.wf.sharing.ok m (hready.wf.mem_segs hv' hm)).live (a - m.paddr + i)
      (by unfold Memmap.stop at hhi; omega)
    rw [← Nat.add_assoc] at hlive
    exact hlive

/-- In every run from a loaded image in which each step meets the condition, the host permits
every access that the translation accepts. -/
theorem accessPermitted_of_run {segs : List BootSeg} (hb : BootOk segs) (hp : WholePages segs)
    {l : List Op} {s : State} (h : Run PermittingStep (boot segs) l s) :
    AccessPermitted s := by
  have hboot := booting_boot hb
  obtain ⟨ho, hw, hc⟩ := h.invariant (P := fun s => AllOpen s ∧ Wf s ∧ Coherent s)
    ⟨allOpen_boot hb hp, hboot.wf, hboot.coherent⟩ fun _ _ _ hi hs =>
      ⟨hi.1.step hi.2.1 hs, step_inv hs.1.1 hs.1.2 hi.2.1 hi.2.2⟩
  exact ho.permitted hw hc

section Example

theorem wholePages_twoPages : WholePages twoPages := by
  simp [WholePages, twoPages, pageSize]

/-- A child of the process on two pages. -/
def forkedPages : State := (boot twoPages).cloneSpace 0 forkArgs

/-- The child has copied a page by writing to it. -/
theorem accessPermitted_after_copy :
    AccessPermitted (forkedPages.storeBytes HostEnv.good 1 0x1000 [7]).2 := by
  have hfork : Step (boot twoPages) (.clone 0 forkArgs 1) forkedPages :=
    Step.clone ⟨by decide, by decide⟩
  refine accessPermitted_of_run bootOk_twoPages wholePages_twoPages
    (Run.cons ⟨⟨hfork, ?_⟩, trivial⟩
      (Run.single ⟨⟨Step.write ⟨by decide, by decide⟩ ⟨by decide, by decide, by decide⟩, ?_⟩, ?_⟩))
  · intro _ u hu _ hg
    obtain rfl : u = 0 := by
      have : u < 1 := hu.1
      omega
    exact absurd rfl hg
  · intro u hu hne hsp
    obtain rfl : u = 0 := by
      have : u < 2 := hu.1
      omega
    exact absurd hsp (by decide)
  · intro m _ _ _
    rfl

/-- `mmap(NULL, 4096, PROT_NONE, ..)`. -/
def noAccess : MmapArgs := ⟨0, 0x1000, 0, mapAnonymous, false, fun _ => 0⟩

def hiddenPage : State :=
  ((boot twoPages).doMmap HostEnv.good 0 noAccess).elim (boot twoPages) Prod.snd

set_option maxRecDepth 20000 in
theorem doMmap_hiddenPage :
    (boot twoPages).doMmap HostEnv.good 0 noAccess = some (.ok 0x4000, hiddenPage) := rfl

/-- The page is shared with a child when it becomes readable and writable. -/
def grantedPage : State :=
  ((hiddenPage.cloneSpace 0 forkArgs).doMprotect HostEnv.good 8 0 0x4000 0x1000
    (protRead ||| protWrite)).elim hiddenPage Prod.snd

theorem doMprotect_grantedPage : (hiddenPage.cloneSpace 0 forkArgs).doMprotect HostEnv.good 8 0
    0x4000 0x1000 (protRead ||| protWrite) = some (0, grantedPage) := rfl

theorem run_hiddenPage : Run Step (boot twoPages)
    [.mmap HostEnv.good 0 noAccess (.ok 0x4000)] hiddenPage :=
  Run.single (Step.mmap ⟨by decide, by decide⟩ doMmap_hiddenPage)

theorem run_grantedPage : Run Step (boot twoPages)
    [.mmap HostEnv.good 0 noAccess (.ok 0x4000), .clone 0 forkArgs 1,
      .mprotect HostEnv.good 0 0x4000 0x1000 (protRead ||| protWrite) 0, .stop 1]
    (grantedPage.dropSpace 1) := by
  have hfork : Step hiddenPage (.clone 0 forkArgs 1) (hiddenPage.cloneSpace 0 forkArgs) :=
    Step.clone ⟨by decide, by decide⟩
  refine ((run_hiddenPage.snoc hfork).snoc
    (Step.mprotect ⟨by decide, by decide⟩ doMprotect_grantedPage)).snoc (Step.stop ?_)
  exact ⟨by decide, by decide⟩

/-- `mmu` accepts a page mapped without any access. And `mmu_w` takes over pages that were shared
when they became writable, and whose host protection still forbids every access. -/
theorem unpermitted_accesses :
    (∃ l s, Run Step (boot twoPages) l s ∧ ∃ p, (s.mmu 0 0x4000 1).1 = some p ∧
      ¬ ReadableProt (s.host.prot p.region p.off)) ∧
    ∃ l s, Run Step (boot twoPages) l s ∧
      ∃ p, (s.mmuW HostEnv.good 0 0x4000 1).1 = some p ∧
        ¬ WritableProt ((s.mmuW HostEnv.good 0 0x4000 1).2.host.prot p.region p.off) := by
  refine ⟨⟨_, hiddenPage, run_hiddenPage, ⟨2, 0⟩, ?_, ?_⟩,
    ⟨_, _, run_grantedPage, ⟨2, 0⟩, ?_, ?_⟩⟩
  · decide
  · decide
  · decide
  · decide

end Example

end Bpfvm.Memory
