import Bpfvm.Memory.Coherence

/-!
# Fork isolation

The reference gives every process a flat memory of its own: a fork copies the parent's
memory, a write changes the writer's memory, a mapping call changes the caller's. For
single-threaded processes with private mappings the code refines it, as long as no mapping
runs past the end of the address space and no protection change has an empty or a wrapping
range. A protection change of length zero inside a segment leaves a segment of size zero
behind, and after the next fork the child cannot read its own memory any more.
-/
namespace Bpfvm.Memory
open Function

/-- One flat memory per process. -/
abbrev Ref := ℕ → ℕ → Option Byte

/-- The effect of an operation on the flat memories. -/
def Ref.next (r : Ref) : Op → Ref
  | .write _ v addr bs true => update r v (FlatMemory.write (r v) addr bs)
  | .mmap _ v args (.ok base) =>
    update r v (FlatMemory.map (r v) base (roundUp args.len) args.init)
  | .munmap v _ (some m) => update r v (FlatMemory.unmap (r v) m.paddr m.size)
  | .clone v _ child => update r child (r v)
  | .stop v => update r v fun _ => none
  | _ => r

/-- The reference once the image is loaded. -/
def Ref.boot (segs : List BootSeg) : Ref :=
  update (fun _ _ => none) 0 (imageView segs)

def mapShared : U32 := 0x01

/-- The operations of single-threaded processes with private mappings: forks only, no
`MAP_SHARED`, protection changes that return `0`. -/
def PrivateOp : Op → Prop
  | .mmap _ _ args _ => hasFlag args.flags mapShared = false
  | .mprotect _ _ _ _ _ result => result = 0
  | .clone _ args _ => args.shareVm = false ∧ args.isThread = false
  | _ => True

/-- Mapped ranges end below `2 ^ 64`; protected ranges are not empty and do not wrap. -/
def Fits (s : State) : Op → Prop
  | .mmap _ v args _ => s.mmapBase v args + roundUp args.len < 2 ^ 64
  | .mprotect _ _ addr len _ _ => 0 < len ∧ addr + len < 2 ^ 64
  | _ => True

/-- Every process has its own container. -/
def Separate (s : State) : Prop :=
  ∀ u v, u < s.nextVm → v < s.nextVm → u ≠ v → (s.vms u).space ≠ (s.vms v).space

/-- The refinement relation. -/
structure Refines (s : State) (r : Ref) : Prop where
  wf : Wf s
  coherent : Coherent s
  separate : Separate s
  view : ∀ v < s.nextVm, s.view v = r v

variable {s s' : State} {v addr : ℕ} {args : CloneArgs} {r : Ref}

theorem Separate.uncached (h : Separate s) (hv : v < s.nextVm) (touched : Memmap → Prop) :
    Uncached s v touched :=
  fun u hu hne hsp => absurd hsp (h u v hu.1 hv hne)

theorem Separate.edits {touched : Memmap → Prop} (h : Separate s) (hed : Edits s s' v touched) :
    Separate s' := by
  intro u w hu hw hne
  rw [hed.space, hed.space]
  exact h u w (hed.nextVm ▸ hu) (hed.nextVm ▸ hw) hne

/-- A forked process gets a container of its own. -/
theorem Separate.fork (h : Separate s) (hwf : Wf s) (hv : v < s.nextVm)
    (ha : args.shareVm = false) : Separate (s.cloneSpace v args) := by
  have hf := cloneSpace_fork hwf hv ha
  have hlt : ∀ u, u < (s.cloneSpace v args).nextVm → u ≠ s.nextVm → u < s.nextVm := by
    intro u hu hne
    rw [hf.nextVm] at hu
    omega
  intro u w hu hw hne
  by_cases hu' : u = s.nextVm
  · have hwlt := hlt w hw (fun he => hne (hu'.trans he.symm))
    rw [hu', hf.child_space, hf.space w hwlt]
    exact (hwf.space_lt w hwlt).ne'
  · have hult := hlt u hu hu'
    by_cases hw' : w = s.nextVm
    · rw [hw', hf.child_space, hf.space u hult]
      exact (hwf.space_lt u hult).ne
    · rw [hf.space u hult, hf.space w (hlt w hw hw')]
      exact h u w hult (hlt w hw hw') hne

theorem Separate.coherent_fork (h : Separate s) (hwf : Wf s) (hc : Coherent s) (hv : v < s.nextVm)
    (ha : args.shareVm = false) : Coherent (s.cloneSpace v args) := by
  refine (inv_fork hwf hc hv ha fun u hu hsp hg => ?_).2
  by_cases he : u = v
  · exact absurd (by rw [he]) hg
  · exact absurd hsp (h u v hu.1 hv he)

/-- A process that ends gets an empty container of its own. -/
theorem Separate.stop (h : Separate s) (hwf : Wf s) (hv : v < s.nextVm) :
    Separate (s.dropSpace v) := by
  have hl := dropSpace_spec hwf hv
  intro u w hu hw hne
  rw [hl.nextVm] at hu hw
  by_cases hu' : u = v
  · have hw' : w ≠ v := fun he => hne (hu'.trans he.symm)
    rw [hu', hl.space_self, hl.vms w hw']
    exact (hwf.space_lt w hw).ne'
  · by_cases hw' : w = v
    · rw [hw', hl.space_self, hl.vms u hu']
      exact (hwf.space_lt u hu).ne
    · rw [hl.vms u hu', hl.vms w hw']
      exact h u w hu hw hne

/-- An operation on one container, mirrored by an update of one flat memory. -/
theorem Refines.changed (h : Refines s r) (hv : v < s.nextVm) {touched : Memmap → Prop}
    {after : ℕ → Option Byte} (hch : Changed s s' v touched after) :
    Refines s' (update r v after) := by
  have hinv := hch.inv h.coherent (h.separate.uncached hv touched)
  refine ⟨hinv.1, hinv.2, h.separate.edits hch.edits, ?_⟩
  · intro u hu
    rw [hch.edits.nextVm] at hu
    by_cases he : u = v
    · rw [he, update_self, hch.view_self]
    · rw [update_of_ne he, hch.view_other u hu (h.separate u v hu hv he), h.view u hu]

theorem Refines.read (h : Refines s r) {n : ℕ} (hv : s.Runs v) : Refines (s.mmu v addr n).2 r := by
  refine ⟨wf_read h.wf, coherent_read h.coherent hv, ?_, ?_⟩
  · refine mmu_keeps h.separate fun m _ u w hu hw hne => ?_
    rw [State.setTlb_space, State.setTlb_space]
    exact h.separate u w hu hw hne
  · refine mmu_keeps (P := fun s => ∀ u < s.nextVm, s.view u = r u) h.view fun m _ u hu => ?_
    rw [view_def, State.setTlb_maps, State.setTlb_host, ← view_def, h.view u hu]

theorem Refines.write (h : Refines s r) {env : HostEnv} {bs : List Byte} (hv : s.Runs v)
    (ha : AccessOk addr bs.length) :
    Refines (s.storeBytes env v addr bs).2
      (Ref.next r (.write env v addr bs (s.storeBytes env v addr bs).1)) := by
  have hch := storeBytes_spec env h.wf hv.1 (h.coherent v hv) ha.1 ha.2.1 ha.2.2
  have hr := h.changed hv.1 hch
  cases hok : (s.storeBytes env v addr bs).1 with
  | true =>
    rw [hok, if_pos rfl, h.view v hv.1] at hr
    exact hr
  | false =>
    rw [hok, if_neg (by simp), h.view v hv.1, update_eq_self] at hr
    exact hr

theorem Refines.mmap (h : Refines s r) {env : HostEnv} {args : MmapArgs} {result : Except Int ℕ}
    (hv : v < s.nextVm) (hfit : s.mmapBase v args + roundUp args.len < 2 ^ 64)
    (hr : s.doMmap env v args = some (result, s')) :
    Refines s' (Ref.next r (.mmap env v args result)) := by
  cases result with
  | error e =>
    rw [doMmap_error hr]
    exact h
  | ok base =>
    have hch := h.changed hv (doMmap_spec h.wf hv hfit hr)
    rw [h.view v hv] at hch
    exact hch

theorem Refines.munmap (h : Refines s r) (hv : v < s.nextVm) : Refines (s.doMunmap v addr).2
      (Ref.next r (.munmap v addr ((s.maps v).find? fun m => addr == m.paddr))) := by
  cases hf : (s.maps v).find? (fun m => addr == m.paddr) with
  | none =>
    rw [doMunmap_none hf]
    exact h
  | some m =>
    have hch := h.changed hv (doMunmap_spec h.wf hv hf)
    rw [h.view v hv] at hch
    exact hch

theorem Refines.fork (h : Refines s r) (hv : v < s.nextVm) (ha : args.shareVm = false) :
    Refines (s.cloneSpace v args) (Ref.next r (.clone v args s.nextVm)) := by
  have hf := cloneSpace_fork h.wf hv ha
  refine ⟨hf.wf, h.separate.coherent_fork h.wf h.coherent hv ha, h.separate.fork h.wf hv ha, ?_⟩
  intro u hu
  by_cases hu' : u = s.nextVm
  · rw [hu', hf.view_child h.wf hv, h.view v hv, Ref.next, update_self]
  · have hlt : u < s.nextVm := by
      rw [hf.nextVm] at hu
      omega
    rw [hf.view h.wf hv hlt, h.view u hlt, Ref.next, update_of_ne hu']

theorem Refines.stop (h : Refines s r) (hv : v < s.nextVm) :
    Refines (s.dropSpace v) (Ref.next r (.stop v)) := by
  have hl := dropSpace_spec h.wf hv
  refine ⟨hl.wf, (inv_stop h.wf h.coherent hv).2, h.separate.stop h.wf hv, ?_⟩
  intro u hu
  rw [hl.nextVm] at hu
  by_cases hu' : u = v
  · rw [hu', Ref.next, update_self, view_def, hl.maps_self]
    funext a
    simp [viewOf, lookup, findMap, Segments.lastBelow]
  · rw [hl.view u hu hu', h.view u hu, Ref.next, update_of_ne hu']

theorem Refines.step {op : Op} (h : Refines s r) (hs : Step s op s') (hp : PrivateOp op)
    (hfit : Fits s op) : Refines s' (Ref.next r op) := by
  cases hs with
  | read hv _ => exact h.read hv
  | write hv ha => exact h.write hv ha
  | mmap hv hr => exact h.mmap hv.1 hfit hr
  | munmap hv => exact h.munmap hv.1
  | mprotect hv hr =>
    have hzero : _ = (0 : Int) := hp
    rw [hzero] at hr
    have hch := h.changed hv.1 (doMprotect_zero h.wf hv.1 hfit.1 hfit.2 hr)
    rw [h.view _ hv.1, update_eq_self] at hch
    exact hch
  | clone hv => exact h.fork hv.1 hp.1
  | stop hv => exact h.stop hv.1

/-! ## What the processes read -/

/-- Every process reads the bytes of its flat memory: a translated range holds them, in host
pages that are still mapped, and an address without a translation has none. -/
def ReadsLike (s : State) (r : Ref) : Prop :=
  ∀ v, s.Runs v → ∀ a < 2 ^ 64,
    (∀ n p, 0 < n → n < 2 ^ 64 → (s.mmu v a n).1 = some p → ∀ i < n,
      s.host.mapped p.region (p.off + i) = true ∧ r v (a + i) = some (s.host.byte (p.add i))) ∧
    ((s.mmu v a 1).1 = none → r v a = none)

theorem Refines.readsLike (h : Refines s r) : ReadsLike s r := by
  intro v hv a ha
  have hml := h.wf.mapsOk hv.1
  refine ⟨?_, ?_⟩
  · intro n p hn hn' hp i hi
    rw [mmu_fst hml (h.coherent v hv) ha hn hn'] at hp
    refine ⟨?_, ?_⟩
    · obtain ⟨m, hf, rfl⟩ := Option.map_eq_some_iff.mp hp
      obtain ⟨hm, hlo, hhi⟩ := (findMap_eq_some_iff hml ha hn hn').mp hf
      have hok := (h.wf.sharing_front hv.1).ok m (by simp [hm])
      have hlive := hok.live (a - m.paddr + i) (by unfold Memmap.stop at hhi; omega)
      rw [← Nat.add_assoc] at hlive
      exact hlive
    · rw [← h.view v hv.1]
      exact viewOf_of_lookup hml ha hn' hp hi
  · intro hnone
    rw [mmu_fst hml (h.coherent v hv) ha Nat.one_pos (by omega)] at hnone
    rw [← h.view v hv.1, view_def, viewOf, if_pos ha, hnone]
    rfl

theorem refines_boot {segs : List BootSeg} (hb : BootOk segs) :
    Refines (State.boot segs) (Ref.boot segs) := by
  have hboot := booting_boot hb
  have hzero : ∀ v < (State.boot segs).nextVm, v = 0 := by
    intro v hv
    rw [hboot.nextVm] at hv
    omega
  refine ⟨hboot.wf, hboot.coherent, ?_, ?_⟩
  · intro u v hu hv hne
    exact absurd ((hzero u hu).trans (hzero v hv).symm) hne
  · intro v hv
    rw [hzero v hv, hboot.view, Ref.boot, update_self]

/-- A step of single-threaded processes with private mappings. -/
def PrivateStep (s : State) (op : Op) (s' : State) : Prop := Step s op s' ∧ PrivateOp op

/-- Fork isolation, for every run whose mapped and protected ranges fit. -/
theorem readsLike_of_fits {segs : List BootSeg} (hb : BootOk segs) {l : List Op} {s : State}
    (h : Run (fun s op s' => PrivateStep s op s' ∧ Fits s op) (State.boot segs) l s) :
    ReadsLike s (l.foldl Ref.next (Ref.boot segs)) :=
  (h.simulation (refines_boot hb) fun _ _ _ _ hr hs =>
    hr.step hs.1.1 hs.1.2 hs.2).readsLike

section Example

/-- One segment of two pages. -/
def onePair : List BootSeg := [⟨0x1000, 0x2000, pfR ||| pfW, fun _ => 7⟩]

theorem bootOk_onePair : BootOk onePair := by
  refine ⟨?_, ?_, ?_⟩ <;> simp [onePair, BootSeg.stop]

def forkArgs : CloneArgs := ⟨false, false, 0, none, none, none, [], true⟩

/-- The host grants everything. -/
def HostEnv.good : HostEnv := ⟨none, fun _ _ _ => none⟩

/-- A fork, then a write of the child. -/
theorem readsLike_fork_write :
    ReadsLike (((State.boot onePair).cloneSpace 0 forkArgs).storeBytes HostEnv.good 1 0x1000
        [9]).2
      ((Ref.boot onePair).next (.clone 0 forkArgs 1) |>.next
        (.write HostEnv.good 1 0x1000 [9] true)) :=
  readsLike_of_fits bootOk_onePair
    (Run.cons ⟨⟨Step.clone (s := State.boot onePair) ⟨by decide, by decide⟩,
        ⟨rfl, rfl⟩⟩, trivial⟩
      (Run.single ⟨⟨Step.write ⟨by decide, by decide⟩ ⟨by decide, by decide, by decide⟩,
        trivial⟩, trivial⟩))

/-- The state after `do_mprotect(0x2000, 0, PROT_READ | PROT_WRITE)`. -/
def zeroProtected : State :=
  ((State.boot onePair).doMprotect HostEnv.good 8 0 0x2000 0 (protRead ||| protWrite)).elim
    (State.boot onePair) Prod.snd

theorem doMprotect_zeroProtected :
    (State.boot onePair).doMprotect HostEnv.good 8 0 0x2000 0 (protRead ||| protWrite) =
      some (0, zeroProtected) := rfl

/-- After a protection change of length zero inside a segment and a fork, the child has no
translation for an address that the parent had mapped. -/
theorem unreadable_after_empty_mprotect : ∃ (segs : List BootSeg) (l : List Op) (s : State),
    BootOk segs ∧ Run PrivateStep (State.boot segs) l s ∧
      ¬ ReadsLike s (l.foldl Ref.next (Ref.boot segs)) := by
  have hprot := Step.mprotect ⟨by decide, by decide⟩ doMprotect_zeroProtected
  have hfork : Step zeroProtected (.clone 0 forkArgs _) _ := Step.clone ⟨by decide, by decide⟩
  refine ⟨onePair, _, _, bootOk_onePair,
    Run.cons ⟨hprot, rfl⟩ (Run.single ⟨hfork, ⟨rfl, rfl⟩⟩), ?_⟩
  intro h
  have h₁ := (h 1 ⟨by decide, by decide⟩ 0x2000 (by decide)).2 (by decide)
  revert h₁
  decide

end Example

end Bpfvm.Memory
