import Bpfvm.Memory.Process

/-!
# The memory system

Processes and threads take turns: guest reads and writes, the address-space system calls,
clones and exits, in any order. Each step is one call of the model functions; a label
carries the arguments and the outcome. `do_clone` and `fini` as a whole are runs of such
steps.
-/
namespace Bpfvm.Memory
open State

/-- One step of one vm, with its outcome. -/
inductive Op where
  | read (v addr n : ℕ)
  | write (env : HostEnv) (v addr : ℕ) (bs : List Byte) (ok : Bool)
  | mmap (env : HostEnv) (v : ℕ) (args : MmapArgs) (result : Except Int ℕ)
  | munmap (v addr : ℕ) (removed : Option Memmap)
  | mprotect (env : HostEnv) (v addr len : ℕ) (prot : U32) (result : Int)
  | clone (v : ℕ) (args : CloneArgs) (child : ℕ)
  | stop (v : ℕ)

/-- The size of a guest access fits the address space and is not zero. -/
def AccessOk (addr n : ℕ) : Prop := addr < 2 ^ 64 ∧ 0 < n ∧ n < 2 ^ 64

inductive Step : State → Op → State → Prop where
  | read {s : State} {v addr n : ℕ} (hv : s.Runs v) (ha : AccessOk addr n) :
      Step s (.read v addr n) (s.mmu v addr n).2
  | write {s : State} {env : HostEnv} {v addr : ℕ} {bs : List Byte} (hv : s.Runs v)
      (ha : AccessOk addr bs.length) :
      Step s (.write env v addr bs (s.storeBytes env v addr bs).1)
        (s.storeBytes env v addr bs).2
  | mmap {s s' : State} {env : HostEnv} {v : ℕ} {args : MmapArgs} {result : Except Int ℕ}
      (hv : s.Runs v) (hr : s.doMmap env v args = some (result, s')) :
      Step s (.mmap env v args result) s'
  | munmap {s : State} {v addr : ℕ} (hv : s.Runs v) :
      Step s (.munmap v addr ((s.maps v).find? fun m => addr == m.paddr)) (s.doMunmap v addr).2
  | mprotect {s s' : State} {env : HostEnv} {v addr len fuel : ℕ} {prot : U32}
      {result : Int} (hv : s.Runs v)
      (hr : s.doMprotect env fuel v addr len prot = some (result, s')) :
      Step s (.mprotect env v addr len prot result) s'
  | clone {s : State} {v : ℕ} {args : CloneArgs} (hv : s.Runs v) :
      Step s (.clone v args s.nextVm) (s.cloneSpace v args)
  | stop {s : State} {v : ℕ} (hv : s.Runs v) : Step s (.stop v) (s.dropSpace v)

/-! ## Whole system calls -/

section Runs

variable (s : State) (u v : ℕ)

theorem runs_flushTlb : (s.flushTlb v).Runs u ↔ s.Runs u :=
  (Edits.flushTlb s v fun _ => False).runs_iff

theorem runs_setTlb (i : ℕ) (e : TlbEntry) : (s.setTlb v i e).Runs u ↔ s.Runs u :=
  (Edits.setTlb s v i e fun _ => False).runs_iff

theorem runs_resolveCow (env : HostEnv) (a : ℕ) (m : Memmap) :
    (s.resolveCow env v a m).2.Runs u ↔ s.Runs u := by
  unfold resolveCow
  cases m.cowData with
  | none => rfl
  | some c =>
    dsimp only
    split_ifs
    · exact runs_flushTlb _ u v
    · unfold copyPages
      generalize s.host.copySegment env m = r
      obtain ⟨_ | p, h⟩ := r
      · rfl
      · exact runs_flushTlb _ u v

theorem runs_mmuW (env : HostEnv) (a n : ℕ) : (s.mmuW env v a n).2.Runs u ↔ s.Runs u :=
  mmuW_keeps (P := fun s' => s'.Runs u ↔ s.Runs u) Iff.rfl
    (fun m _ _ => runs_resolveCow s u v env a m) fun s' _ _ => (runs_setTlb s' u v _ _).trans

theorem runs_storeBytes (env : HostEnv) (a : ℕ) (bs : List Byte) :
    (s.storeBytes env v a bs).2.Runs u ↔ s.Runs u := by
  have hrun := runs_mmuW s u v env a bs.length
  unfold storeBytes
  generalize s.mmuW env v a bs.length = r at hrun ⊢
  obtain ⟨_ | p, s'⟩ := r <;> exact hrun

end Runs

variable {s : State} {v : ℕ}

/-- The writes that `storeAll` is made of, each with its outcome. -/
def State.storeOps (v : ℕ) (s : State) : List (HostEnv × ℕ × List Byte) → List Op
  | [] => []
  | (env, addr, bs) :: rest =>
    let (ok, s) := s.storeBytes env v addr bs
    .write env v addr bs ok :: storeOps v s rest

theorem storeAll_run {u : ℕ} {stores : List (HostEnv × ℕ × List Byte)} (hv : s.Runs v)
    (hu : s.Runs u) (hok : ∀ w ∈ stores, AccessOk w.2.1 w.2.2.length) :
    Run Step s (s.storeOps v stores) (s.storeAll v stores).2 ∧ (s.storeAll v stores).2.Runs u := by
  induction stores generalizing s with
  | nil => exact ⟨Run.nil s, hu⟩
  | cons w rest ih =>
    obtain ⟨env, addr, bs⟩ := w
    obtain ⟨hl, hr⟩ := ih ((runs_storeBytes s v v env addr bs).mpr hv)
      ((runs_storeBytes s u v env addr bs).mpr hu) fun w hw => hok w (by simp [hw])
    exact ⟨Run.cons (Step.write hv (hok (env, addr, bs) (by simp))) hl, hr⟩

theorem runs_cloneSpace {u : ℕ} {a : CloneArgs} (hu : s.Runs u ∨ u = s.nextVm) :
    (s.cloneSpace v a).Runs u := by
  have hspawn : ∀ (t : State) (σ : ℕ), t.nextVm = s.nextVm →
      (∀ w, (t.vms w).running = (s.vms w).running) → (t.spawn v a σ).Runs u := by
    intro t σ hn hr
    rcases hu with hu | rfl
    · refine ⟨?_, ?_⟩
      · rw [spawn, hn]
        exact hu.1.trans (Nat.lt_succ_self _)
      · rw [spawn_vms_of_lt (hn ▸ hu.1), hr]
        exact hu.2
    · refine ⟨?_, ?_⟩
      · rw [spawn, hn]
        exact Nat.lt_succ_self _
      · simp [spawn, hn]
  unfold cloneSpace
  split_ifs
  · exact (runs_flushTlb _ u v).mpr (hspawn s _ rfl fun _ => rfl)
  · have := hspawn (((s.setHeap (cloneMaps s.heap (s.maps v)).1).setMaps v
      (cloneMaps s.heap (s.maps v)).2).addSpace (((cloneMaps s.heap (s.maps v)).2.map
      Memmap.forked).foldl (Segments.insertBefore Memmap.paddr) [])) s.nextSpace rfl fun _ => rfl
    refine ⟨this.1, ?_⟩
    rw [flushGroup_running]
    exact this.2

/-- The steps that `do_clone` is made of: the new address space, the stores of the parent, and the
end of the child if its host thread could not be started. -/
def State.cloneOps (envs : ℕ → HostEnv) (s : State) (v : ℕ) (a : CloneArgs) : List Op :=
  .clone v a s.nextVm ::
    (s.cloneSpace v a).storeOps v ((cloneStores a).mapIdx fun i w => (envs i, w)) ++
    if a.started then [] else [.stop s.nextVm]

theorem doClone_run {a : CloneArgs} (envs : ℕ → HostEnv) (hv : s.Runs v)
    (hok : ∀ w ∈ cloneStores a, AccessOk w.1 w.2.length) :
    Run Step s (s.cloneOps envs v a) (s.doClone envs v a).2 := by
  have hstores : ∀ w ∈ (cloneStores a).mapIdx (fun i w => (envs i, w)),
      AccessOk w.2.1 w.2.2.length := by
    intro w hw
    obtain ⟨i, hi, rfl⟩ := List.mem_mapIdx.mp hw
    exact hok _ (List.getElem_mem hi)
  obtain ⟨hl, hc⟩ := storeAll_run (runs_cloneSpace (a := a) (Or.inl hv))
    (runs_cloneSpace (v := v) (Or.inr rfl)) hstores
  have hrun := Run.cons (Step.clone hv) hl
  unfold doClone cloneOps
  dsimp only
  split_ifs
  · simpa using hrun
  · exact hrun.snoc (Step.stop hc)

/-- The steps that `fini` is made of: the store of `clear_child_tid`, and the end. -/
def State.finiOps (env : HostEnv) (s : State) (v : ℕ) : List Op :=
  (if (s.vms v).tidAddress = 0 then []
    else s.storeOps v [(env, (s.vms v).tidAddress, List.replicate 4 (0 : Byte))]) ++ [.stop v]

theorem fini_run (env : HostEnv) (hv : s.Runs v) (hok : (s.vms v).tidAddress < 2 ^ 64) :
    Run Step s (s.finiOps env v) (s.fini env v).2 := by
  unfold fini finiOps clearChildTid
  split_ifs
  · exact Run.single (Step.stop hv)
  · have hstore : ∀ w ∈ [(env, (s.vms v).tidAddress, List.replicate 4 (0 : Byte))],
        AccessOk w.2.1 w.2.2.length := by
      simpa [AccessOk] using hok
    obtain ⟨hl, hr⟩ := storeAll_run hv hv hstore
    exact hl.snoc (Step.stop hr)

/-! ## The initial state -/

/-- A segment of the program image or the stack, as the loader maps it. -/
structure BootSeg where
  paddr : ℕ
  size : ℕ
  flags : U32
  init : ℕ → Byte

def BootSeg.stop (b : BootSeg) : ℕ := b.paddr + b.size

def BootSeg.segment (b : BootSeg) (p : HostPtr) : Memmap :=
  ⟨b.paddr, b.size, b.flags, p, true, b.size, none⟩

/-- One vm with an empty container. -/
def State.empty : State where
  heap := ⟨⟨fun _ _ => 0, fun _ _ => false, fun _ _ => 0, 0⟩, fun _ => ⟨⟨0, 0⟩, 0, false⟩, 0⟩
  spaces := fun _ => []
  nextSpace := 1
  vms := fun _ => ⟨0, fun _ => TlbEntry.zero, 0, 0, true⟩
  nextVm := 1

/-- The loader's `mmap` and `addmem` for one segment. -/
def State.bootMap (s : State) (b : BootSeg) : State :=
  let (p, h) := s.host.mmap b.size (protRead ||| protWrite) b.init
  (s.setHost h).addmem 0 (b.segment p)

/-- The root process once its image is loaded. -/
def State.boot (segs : List BootSeg) : State := segs.foldl bootMap empty

/-- Two writable pages. -/
def forkable : State := boot [⟨0x1000, 0x2000, 6, fun _ => 0⟩]

/-- A fork whose host thread cannot be started. -/
def unstarted : CloneArgs :=
  ⟨false, false, 0x2000, some 0x1000, none, some 0x1000, [1, 0, 0, 0], false⟩

theorem doClone_run_fork : let envs : ℕ → HostEnv := fun _ => ⟨none, fun _ _ _ => none⟩
    Run Step forkable (forkable.cloneOps envs 0 unstarted) (forkable.doClone envs 0 unstarted).2 ∧
      (forkable.doClone envs 0 unstarted).1 =
        [(0x2000, [0, 0, 0, 0, 0, 0, 0, 0]), (0x1000, [1, 0, 0, 0])] :=
  ⟨doClone_run _ ⟨by decide, rfl⟩ (by simp [unstarted, cloneStores, AccessOk]),
    by decide +kernel⟩

theorem fini_run_forked : let s := forkable.cloneSpace 0 unstarted
    let env : HostEnv := ⟨none, fun _ _ _ => none⟩
    Run Step s (s.finiOps env 1) (s.fini env 1).2 ∧ (s.fini env 1).1 = [(0x1000, [0, 0, 0, 0])] :=
  ⟨fini_run _ (runs_cloneSpace (.inr rfl)) (by decide), by decide +kernel⟩

/-- The image's segments are nonempty, end below `2 ^ 64` and do not overlap. -/
structure BootOk (segs : List BootSeg) : Prop where
  nonempty : ∀ b ∈ segs, 0 < b.size
  bound : ∀ b ∈ segs, b.stop < 2 ^ 64
  disjoint : segs.Pairwise fun b b' => b.stop ≤ b'.paddr ∨ b'.stop ≤ b.paddr

/-- The memory the image describes. -/
def imageView (segs : List BootSeg) : ℕ → Option Byte :=
  segs.foldl (fun m b => FlatMemory.map m b.paddr b.size b.init) fun _ => none

theorem wf_empty : Wf empty := by
  refine ⟨fun _ _ => MapsOk.nil, ?_, ?_⟩
  · intro v _
    exact Nat.one_pos
  · refine ⟨?_, ?_⟩ <;> simp [segs, empty]

/-- The state while the image is being loaded: one vm, one container. -/
structure Booting (s : State) (segs : List BootSeg) : Prop where
  wf : Wf s
  nextVm : s.nextVm = 1
  running : (s.vms 0).running = true
  tlb : TlbOk (s.maps 0) (s.vms 0).tlb
  inside : ∀ m ∈ s.maps 0, ∃ b ∈ segs, m.paddr = b.paddr ∧ m.size = b.size
  view : s.view 0 = imageView segs

/-- Fresh pages at a free place of one container. -/
theorem addmem_spec {b : BootSeg} {p : HostPtr} {host : Host} (hw : Wf s) (hv : v < s.nextVm)
    (hne : 0 < b.size) (hb : b.stop < 2 ^ 64)
    (hd : ∀ m ∈ s.maps v, m.stop ≤ b.paddr ∨ b.stop ≤ m.paddr)
    (hr : s.host.mmap b.size (protRead ||| protWrite) b.init = (p, host)) :
    Changed s ((s.setHost host).addmem v (b.segment p)) v (fun _ => False)
      (FlatMemory.map (s.view v) b.paddr b.size b.init) := by
  obtain ⟨hp, hnext, hbytes, hmapped⟩ := Host.mmap_frame hr
  have hwf : Wf (s.setHost host) := hw.setHost (by omega) hmapped
  have hsh := hw.sharing.fresh (m := b.segment p) b.size (protRead ||| protWrite) b.init hp
    le_rfl rfl rfl
  rw [show s.heap.host.mmap b.size (protRead ||| protWrite) b.init = (p, host) from hr] at hsh
  refine insert_spec (show v < (s.setHost host).nextVm from hv) hwf
    (Edits.heap s v _ fun _ => False) hsh (show b.paddr < b.paddr + b.size by omega) hb hd ?_
    (fun u hu _ => view_setHost hw hbytes u hu)
  rw [view_setHost hw hbytes v hv]
  exact congrArg (FlatMemory.map (s.view v) b.paddr b.size) (funext (byte_mmap hr))

theorem booting_bootMap {segs : List BootSeg} {b : BootSeg} (h : Booting s segs)
    (hne : 0 < b.size) (hb : b.stop < 2 ^ 64)
    (hd : ∀ b' ∈ segs, b'.stop ≤ b.paddr ∨ b.stop ≤ b'.paddr) :
    Booting (s.bootMap b) (segs ++ [b]) := by
  have hv : 0 < s.nextVm := by
    rw [h.nextVm]
    exact Nat.one_pos
  generalize hr : s.host.mmap b.size (protRead ||| protWrite) b.init = r
  obtain ⟨p, host⟩ := r
  have hboot : s.bootMap b = (s.setHost host).addmem 0 (b.segment p) := by
    rw [bootMap, hr]
  have hdis : ∀ y ∈ s.maps 0, y.stop ≤ b.paddr ∨ b.stop ≤ y.paddr := by
    intro y hy
    obtain ⟨b', hb', hpa, hsz⟩ := h.inside y hy
    rw [Memmap.stop, hpa, hsz]
    exact hd b' hb'
  have hch := addmem_spec h.wf hv hne hb hdis hr
  rw [hboot]
  refine ⟨hch.wf, hch.edits.nextVm.trans h.nextVm, ?_, hch.own, ?_, ?_⟩
  · rw [hch.edits.running]
    exact h.running
  · intro m hm
    have hm' : m ∈ Segments.insertBefore Memmap.paddr (s.maps 0) (b.segment p) := by
      simpa [addmem] using hm
    rcases Segments.mem_insertBefore.mp hm' with rfl | hm'
    · exact ⟨b, by simp, rfl, rfl⟩
    · obtain ⟨b', hb', hbb⟩ := h.inside m hm'
      exact ⟨b', by simp [hb'], hbb⟩
  · rw [hch.view_self, imageView, List.foldl_append, ← imageView, ← h.view]
    rfl

theorem booting_boot {segs : List BootSeg} (h : BootOk segs) :
    Booting (boot segs) segs := by
  suffices key : ∀ (done rest : List BootSeg) (s : State), Booting s done →
      done ++ rest = segs → Booting (rest.foldl bootMap s) segs by
    refine key [] segs empty ⟨wf_empty, rfl, rfl, tlbOk_zero _, ?_, ?_⟩ rfl
    · simp [maps, empty]
    · funext a
      simp [view_def, viewOf, maps, empty, imageView, lookup, findMap,
        Segments.lastBelow]
  intro done rest
  induction rest generalizing done with
  | nil =>
    intro s hs he
    simpa [← he] using hs
  | cons b rest ih =>
    intro s hs he
    have hmem : b ∈ segs := by simp [← he]
    refine ih (done ++ [b]) _ (booting_bootMap hs (h.nonempty b hmem) (h.bound b hmem) ?_)
      (by simpa using he)
    intro b' hb'
    have hp := h.disjoint
    rw [← he] at hp
    exact (List.pairwise_append.mp hp).2.2 b' hb' b (by simp)

end Bpfvm.Memory
