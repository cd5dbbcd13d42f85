import Bpfvm.Memory.Translate

/-!
# Guest loads and stores

What a load through `mmu` and a store or an atomic operation through `mmu_w` do to the
memory a vm sees, for ranges that lie in one segment of its container.
-/
namespace Bpfvm.Memory
open FlatMemory

namespace State

/-- A guest load: `mmu`, then the bytes through the host pointer. -/
def loadBytes (s : State) (v a n : ℕ) : Option (List Byte) × State :=
  match s.mmu v a n with
  | (none, s) => (none, s)
  | (some p, s) => (some (s.host.load p n), s)

/-- A guest read-modify-write: `mmu_w`, then a load and a store through the host pointer.
The old bytes are returned. -/
def rmwBytes (env : HostEnv) (s : State) (v a n : ℕ) (f : List Byte → List Byte) :
    Option (List Byte) × State :=
  match s.mmuW env v a n with
  | (none, s) => (none, s)
  | (some p, s) =>
    (some (s.host.load p n), s.setHost (s.host.store p (f (s.host.load p n))))

end State

/-- The state is well formed and the TLB of `v` agrees with its container. -/
structure Sound (s : State) (v : ℕ) : Prop where
  wf : Wf s
  lt : v < s.nextVm
  tlb : TlbOk (s.maps v) (s.vms v).tlb

/-- The range `[a, a + n)` lies in one segment. -/
def Mapped (s : State) (v a n : ℕ) : Prop :=
  ∃ m ∈ s.maps v, m.paddr ≤ a ∧ a + n ≤ m.stop

/-- The host refuses none of its calls. -/
def HostEnv.Grants (env : HostEnv) : Prop :=
  env.mmapErr = none ∧ ∀ p n prot, env.mprotectErr p n prot = none

/-- The range lies in one writable segment, and if that is shared the host lets it be
copied. -/
def Writable (env : HostEnv) (s : State) (v a n : ℕ) : Prop :=
  ∃ m ∈ s.maps v, m.paddr ≤ a ∧ a + n ≤ m.stop ∧ hasFlag m.flags pfW = true ∧
    (m.cowData = none ∨ env.Grants ∧ m.data.off % pageSize = 0)

variable {s s' : State} {v a n : ℕ} {env : HostEnv}

theorem Writable.mapped (h : Writable env s v a n) : Mapped s v a n := by
  obtain ⟨m, hm, hlo, hhi, -⟩ := h
  exact ⟨m, hm, hlo, hhi⟩

variable {k b : ℕ} {m : Memmap} {p : HostPtr}

theorem Mapped.sub (h : Mapped s v a n) (hlo : a ≤ b) (hhi : b + k ≤ a + n) : Mapped s v b k := by
  obtain ⟨m, hm, hlo', hhi'⟩ := h
  exact ⟨m, hm, hlo'.trans hlo, hhi.trans hhi'⟩

namespace Sound

theorem mapsOk (h : Sound s v) : MapsOk (s.maps v) := h.wf.mapsOk h.lt

theorem bound (h : Sound s v) (hm : Mapped s v a n) : a + n < 2 ^ 64 := by
  obtain ⟨m, hmem, -, hhi⟩ := hm
  have := h.mapsOk.bound m hmem
  omega

end Sound

/-! ## Loads -/

/-- At most a TLB entry of `v` was filled. -/
structure Refilled (s s' : State) (v : ℕ) : Prop where
  sound : Sound s' v
  nextVm : s'.nextVm = s.nextVm
  maps : ∀ u, s'.maps u = s.maps u
  heap : s'.heap = s.heap

namespace Refilled

theorem refl (h : Sound s v) : Refilled s s v := ⟨h, rfl, fun _ => rfl, rfl⟩

theorem trans {s'' : State} (h : Refilled s s' v) (h' : Refilled s' s'' v) :
    Refilled s s'' v :=
  ⟨h'.sound, h'.nextVm.trans h.nextVm, fun u => (h'.maps u).trans (h.maps u),
    h'.heap.trans h.heap⟩

theorem host (h : Refilled s s' v) : s'.host = s.host := congrArg Heap.host h.heap

theorem view (h : Refilled s s' v) (u : ℕ) : s'.view u = s.view u := by
  rw [view_def, view_def, h.maps, h.host]

theorem mapped (h : Refilled s s' v) (hm : Mapped s v a n) : Mapped s' v a n := by
  unfold Mapped
  rw [h.maps]
  exact hm

theorem writable (h : Refilled s s' v) (hm : Writable env s v a n) : Writable env s' v a n := by
  unfold Writable
  rw [h.maps]
  exact hm

end Refilled

theorem refilled_setTlb (h : Sound s v) (hm : m ∈ s.maps v) (i : ℕ) :
    Refilled s (s.setTlb v i (TlbEntry.ofMap m)) v := by
  refine ⟨⟨h.wf.setTlb _ _ _, h.lt, ?_⟩, rfl, fun u => ?_, rfl⟩
  · rw [State.setTlb_maps, State.setTlb_tlb_self]
    exact h.tlb.update hm _
  · rw [State.setTlb_maps]

theorem refilled_mmu (h : Sound s v) (a n : ℕ) : Refilled s (s.mmu v a n).2 v :=
  mmu_keeps (P := (Refilled s · v)) (.refl h) fun _ hm => refilled_setTlb h hm _

/-- `mmu` at the start of a mapped range points at the bytes of the view, also behind the `k`
bytes asked for. -/
theorem mmu_of_mapped (h : Sound s v) (hm : Mapped s v a n) (hk : 0 < k) (hkn : k ≤ n) :
    ∃ p, (s.mmu v a k).1 = some p ∧ ∀ i < n, s.view v (a + i) = some (s.host.byte (p.add i)) := by
  have hb := h.bound hm
  obtain ⟨m, hmem, hlo, hhi⟩ := hm
  have hl {l : ℕ} (hl : 0 < l) (hln : l ≤ n) : lookup (s.maps v) a l = some (m.ptr a) := by
    have hf := (findMap_eq_some_iff h.mapsOk (by omega) hl (by omega)).mpr
      ⟨hmem, hlo, by omega⟩
    rw [lookup, hf, Option.map_some]
  refine ⟨m.ptr a, ?_, ?_⟩
  · rw [mmu_fst h.mapsOk h.tlb (by omega) hk (by omega), hl hk hkn]
  · intro i hi
    exact viewOf_of_lookup h.mapsOk (by omega) (by omega) (hl (by omega) le_rfl) hi

theorem read_load {mem : ℕ → Option Byte} {h : Host}
    (hp : ∀ i < n, mem (a + i) = some (h.byte (p.add i))) : read mem a n = some (h.load p n) := by
  rw [read_eq_some_iff]
  refine ⟨by simp [Host.load], ?_⟩
  intro i hi
  rw [hp i hi, Host.load, List.getElem?_map, List.getElem?_range hi, Option.map_some]

/-- A load of a mapped range reads the view and changes nothing that the view shows. -/
theorem loadBytes_of_mapped (h : Sound s v) (hm : Mapped s v a n) (hn : 0 < n) :
    ∃ bs s', s.loadBytes v a n = (some bs, s') ∧
      read (s.view v) a n = some bs ∧ Refilled s s' v := by
  obtain ⟨p, hp, hview⟩ := mmu_of_mapped h hm hn le_rfl
  have hr := refilled_mmu h a n
  unfold State.loadBytes
  generalize s.mmu v a n = r at hp hr ⊢
  obtain ⟨q, s'⟩ := r
  dsimp only at hp hr
  subst hp
  refine ⟨_, s', rfl, ?_, hr⟩
  rw [hr.host]
  exact read_load hview

/-! ## Stores -/

theorem copySegment_of_grants (hg : env.Grants) (h : Host) (hal : m.data.off % pageSize = 0) :
    (h.copySegment env m).1.isSome := by
  simp [Host.copySegment, Host.mprotect, hg.1, hg.2, hal]

theorem resolveCow_of_grants (s : State) (v a : ℕ)
    (hm : m.cowData = none ∨ env.Grants ∧ m.data.off % pageSize = 0) :
    (s.resolveCow env v a m).1.isSome := by
  unfold State.resolveCow
  cases hc : m.cowData with
  | none => rfl
  | some c =>
    obtain ⟨hg, hal⟩ := hm.resolve_left (by simp [hc])
    have hcopy := copySegment_of_grants hg s.host hal
    dsimp only
    split_ifs
    · rfl
    · unfold State.copyPages
      generalize s.host.copySegment env m = r at hcopy ⊢
      obtain ⟨_ | p, h⟩ := r
      · simp at hcopy
      · rfl

theorem mmuW_of_writable (h : Sound s v) (hw : Writable env s v a n) (hn : 0 < n) :
    (s.mmuW env v a n).1.isSome := by
  have hb := h.bound hw.mapped
  obtain ⟨m, hmem, hlo, hhi, hW, hcow⟩ := hw
  have hf := (findMap_eq_some_iff h.mapsOk (by omega) hn (by omega)).mpr ⟨hmem, hlo, hhi⟩
  rcases mmuW_cases (a := a) env h.mapsOk h.tlb (by omega) hn (by omega) with ⟨m', -, -, -, he⟩ | he
  · rw [he]
    rfl
  · rw [he, State.mmuWSlow, hf]
    dsimp only
    rw [if_pos hW]
    have hres := resolveCow_of_grants s v a hcow
    generalize s.resolveCow env v a m = r at hres ⊢
    obtain ⟨_ | m', s'⟩ := r
    · simp at hres
    · rfl

/-- After a store `v` sees `mem`; its segments are still there, at most unshared. -/
structure Stored (s s' : State) (v : ℕ) (mem : ℕ → Option Byte) : Prop where
  sound : Sound s' v
  nextVm : s'.nextVm = s.nextVm
  view : s'.view v = mem
  other : ∀ u < s.nextVm, (s.vms u).space ≠ (s.vms v).space → s'.view u = s.view u
  kept : List.Forall₂ Memmap.Kept (s.maps v) (s'.maps v)

theorem exists_kept {ml ml' : List Memmap} (h : List.Forall₂ Memmap.Kept ml ml') (hm : m ∈ ml) :
    ∃ m' ∈ ml', m.Kept m' := by
  induction h with
  | nil => simp at hm
  | cons hk _ ih =>
    rcases List.mem_cons.mp hm with rfl | hm
    · exact ⟨_, List.mem_cons_self, hk⟩
    · obtain ⟨m', hm', hk'⟩ := ih hm
      exact ⟨m', List.mem_cons_of_mem _ hm', hk'⟩

theorem Memmap.Kept.stop {m' : Memmap} (h : m.Kept m') : m'.stop = m.stop := by
  rw [Memmap.stop, Memmap.stop, h.paddr, h.size]

theorem Mapped.of_kept (hm : Mapped s v a n)
    (h : List.Forall₂ Memmap.Kept (s.maps v) (s'.maps v)) : Mapped s' v a n := by
  obtain ⟨m, hmem, hlo, hhi⟩ := hm
  obtain ⟨m', hmem', hk⟩ := exists_kept h hmem
  exact ⟨m', hmem', hk.paddr ▸ hlo, hk.stop ▸ hhi⟩

namespace Stored

variable {mem : ℕ → Option Byte}

theorem mapped (h : Stored s s' v mem) (hm : Mapped s v a n) : Mapped s' v a n :=
  hm.of_kept h.kept

end Stored

/-- The range lies in the writable segment `m`, which no other container shares. -/
structure Owned (s : State) (v : ℕ) (m : Memmap) (a n : ℕ) : Prop where
  mem : m ∈ s.maps v
  cow : m.cowData = none
  write : hasFlag m.flags pfW = true
  lo : m.paddr ≤ a
  hi : a + n ≤ m.stop

namespace Owned

theorem mapped (h : Owned s v m a n) : Mapped s v a n := ⟨m, h.mem, h.lo, h.hi⟩

theorem sub (h : Owned s v m a n) (hlo : a ≤ b) (hhi : b + k ≤ a + n) : Owned s v m b k :=
  ⟨h.mem, h.cow, h.write, h.lo.trans hlo, hhi.trans h.hi⟩

theorem refilled (h : Owned s v m a n) (hr : Refilled s s' v) : Owned s' v m a n :=
  ⟨by rw [hr.maps]; exact h.mem, h.cow, h.write, h.lo, h.hi⟩

theorem ready (hs : Sound s v) (h : Owned s v m a n) : Ready s (some (m.ptr a), s) v a n := by
  refine ⟨hs.wf, Edits.refl _ _ _, hs.tlb, fun _ _ => rfl, kept_refl _, ?_⟩
  rintro p hp
  exact ⟨m, h.mem, h.cow, h.write, h.lo, h.hi, (Option.some.inj hp).symm⟩

theorem store (bs : List Byte) (hs : Sound s v) (h : Owned s v m a bs.length) :
    Stored s (s.setHost (s.host.store (m.ptr a) bs)) v (FlatMemory.write (s.view v) a bs) := by
  have hst := (h.ready hs).store hs.lt
  exact ⟨⟨hst.wf, hst.edits.nextVm ▸ hs.lt, hst.own⟩, hst.edits.nextVm, hst.view_self,
    hst.view_other, kept_refl _⟩

theorem mmuW (env : HostEnv) (hs : Sound s v) (h : Owned s v m a n) (hn : 0 < n) :
    ∃ s', s.mmuW env v a n = (some (m.ptr a), s') ∧ Refilled s s' v := by
  have hb := hs.bound h.mapped
  have hf := (findMap_eq_some_iff hs.mapsOk (by omega) hn (by omega)).mpr ⟨h.mem, h.lo, h.hi⟩
  rcases mmuW_cases (a := a) env hs.mapsOk hs.tlb (by omega) hn (by omega) with
    ⟨m', hf', -, -, he⟩ | he
  · obtain rfl : m = m' := Option.some.inj (hf.symm.trans hf')
    exact ⟨s, he, Refilled.refl hs⟩
  · refine ⟨s.setTlb v (tlbIndex a) (TlbEntry.ofMap m), he.trans ?_, refilled_setTlb hs h.mem _⟩
    simp [State.mmuWSlow, hf, h.write, State.resolveCow, h.cow, Memmap.ptr]

end Owned

theorem owned_of_mmuW (hs : Sound s v) (ha : a < 2 ^ 64) (hn : 0 < n) (hn' : n < 2 ^ 64)
    (h : s.mmuW env v a n = (some p, s')) :
    ∃ m, p = m.ptr a ∧ Owned s' v m a n ∧ Stored s s' v (s.view v) := by
  have hready := mmuW_spec env hs.wf hs.lt hs.tlb ha hn hn'
  rw [h] at hready
  obtain ⟨m, hm, hcow, hW, hlo, hhi, rfl⟩ := hready.hit p rfl
  exact ⟨m, rfl, ⟨hm, hcow, hW, hlo, hhi⟩, ⟨hready.wf, hready.edits.nextVm ▸ hs.lt, hready.own⟩,
    hready.edits.nextVm, hready.view v hs.lt, fun u hu _ => hready.view u hu, hready.kept⟩

/-- The pointer a translation for writing gives points at the bytes of the view. -/
theorem Ready.load (h : Sound s v) (hr : Ready s (some p, s') v a n) :
    read (s.view v) a n = some (s'.host.load p n) := by
  obtain ⟨m, hm, -, -, hlo, hhi, rfl⟩ := hr.hit p rfl
  have hok : MapsOk (s'.maps v) := hr.wf.mapsOk (hr.edits.nextVm ▸ h.lt)
  apply read_load
  intro i hi
  rw [← hr.view v h.lt, view_def, viewOf_eq_of_has hok hm ⟨by omega, by omega⟩]
  have hoff : m.data.off + (a + i - m.paddr) = m.data.off + (a - m.paddr) + i := by omega
  simp [Host.byte, hoff]

theorem rmwBytes_of_writable (h : Sound s v) (hw : Writable env s v a n) (hn : 0 < n)
    {f : List Byte → List Byte} (hf : ∀ bs, bs.length = n → (f bs).length = n) :
    ∃ bs s', s.rmwBytes env v a n f = (some bs, s') ∧
      read (s.view v) a n = some bs ∧
      Stored s s' v (write (s.view v) a (f bs)) := by
  have hb := h.bound hw.mapped
  have hsome := mmuW_of_writable h hw hn
  have hready := mmuW_spec env h.wf h.lt h.tlb (a := a) (n := n) (by omega) hn (by omega)
  unfold State.rmwBytes
  generalize s.mmuW env v a n = r at hsome hready ⊢
  obtain ⟨_ | p, s'⟩ := r
  · simp at hsome
  · have hread := hready.load h
    have hlen : (f (s'.host.load p n)).length = n := hf _ (by simp [Host.load])
    have hready' : Ready s (some p, s') v a (f (s'.host.load p n)).length := by rwa [hlen]
    have hst := hready'.store h.lt
    refine ⟨_, _, rfl, hread, ⟨hst.wf, hst.edits.nextVm ▸ h.lt, hst.own⟩, hst.edits.nextVm,
      hst.view_self, hst.view_other, hready.kept⟩

theorem storeBytes_of_writable {bs : List Byte} (h : Sound s v)
    (hw : Writable env s v a bs.length) (hn : 0 < bs.length) :
    ∃ s', s.storeBytes env v a bs = (true, s') ∧
      Stored s s' v (write (s.view v) a bs) := by
  have hb := h.bound hw.mapped
  have hsome := mmuW_of_writable h hw hn
  have hready := mmuW_spec env h.wf h.lt h.tlb (a := a) (n := bs.length) (by omega) hn
    (by omega)
  unfold State.storeBytes
  generalize s.mmuW env v a bs.length = r at hsome hready ⊢
  obtain ⟨_ | p, s'⟩ := r
  · simp at hsome
  · have hst := hready.store h.lt
    exact ⟨_, rfl, ⟨hst.wf, hst.edits.nextVm ▸ h.lt, hst.own⟩, hst.edits.nextVm,
      hst.view_self, hst.view_other, hready.kept⟩

/-! ## One access after the other -/

theorem Memmap.Kept.trans {m' m'' : Memmap} (h : m.Kept m') (h' : m'.Kept m'') : m.Kept m'' := by
  refine ⟨h'.paddr.trans h.paddr, h'.size.trans h.size, h'.flags.trans h.flags, ?_⟩
  rcases h'.cow with rfl | he
  · exact h.cow
  · exact .inr he

theorem kept_trans {ml ml' ml'' : List Memmap} (h : List.Forall₂ Memmap.Kept ml ml')
    (h' : List.Forall₂ Memmap.Kept ml' ml'') : List.Forall₂ Memmap.Kept ml ml'' := by
  induction h generalizing ml'' with
  | nil => exact h'
  | cons hk _ ih =>
    obtain _ | ⟨hk', hrest⟩ := h'
    exact .cons (hk.trans hk') (ih hrest)

/-- After some accesses of `v` it sees `mem`, in segments that are still there. -/
structure Updated (s s' : State) (v : ℕ) (mem : ℕ → Option Byte) : Prop where
  sound : Sound s' v
  view : s'.view v = mem
  kept : List.Forall₂ Memmap.Kept (s.maps v) (s'.maps v)

namespace Updated

variable {mem mem' : ℕ → Option Byte}

theorem trans {s'' : State} (h : Updated s s' v mem) (h' : Updated s' s'' v mem') :
    Updated s s'' v mem' :=
  ⟨h'.sound, h'.view, kept_trans h.kept h'.kept⟩

theorem mapped (h : Updated s s' v mem) (hm : Mapped s v a n) : Mapped s' v a n :=
  hm.of_kept h.kept

end Updated

theorem Stored.updated {mem : ℕ → Option Byte} (h : Stored s s' v mem) : Updated s s' v mem :=
  ⟨h.sound, h.view, h.kept⟩

theorem Refilled.updated (h : Refilled s s' v) : Updated s s' v (s.view v) :=
  ⟨h.sound, h.view v, by rw [h.maps]; exact kept_refl _⟩

theorem Ready.updated {r : Option HostPtr × State} (hs : Sound s v) (h : Ready s r v a n) :
    Updated s r.2 v (s.view v) :=
  ⟨⟨h.wf, h.edits.nextVm ▸ hs.lt, h.own⟩, h.view v hs.lt, h.kept⟩

/-- An owned segment survives the translation of another range. -/
theorem Owned.ready_kept {r : Option HostPtr × State} (h : Owned s v m a n) (hr : Ready s r v b k) :
    Owned r.2 v m a n :=
  ⟨hr.edits.keep m h.mem fun hc => hc.1 h.cow, h.cow, h.write, h.lo, h.hi⟩

end Bpfvm.Memory
