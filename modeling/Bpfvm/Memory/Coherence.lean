import Bpfvm.Memory.System

/-!
# Coherence of the translation caches

Every vm caches whole segments, and an operation that edits a container flushes the TLB of
its caller only (a fork: those of the caller's thread group). The cached entries of the
other vms on the same container stay. If no vm that is not flushed caches a segment that
the operation touches, all TLBs keep agreeing with their containers along every run, and
`mmu` and `mmu_w` return what the containers define at the time of the call. Without this
condition they do not.
-/
namespace Bpfvm.Memory

/-- No running vm but `v` on the container of `v` caches a touched segment. -/
def Uncached (s : State) (v : ℕ) (touched : Memmap → Prop) : Prop :=
  ∀ u, s.Runs u → u ≠ v → (s.vms u).space = (s.vms v).space →
    ∀ m ∈ s.maps v, touched m → ∀ i, (s.vms u).tlb i ≠ TlbEntry.ofMap m

variable {s s' : State} {v addr n : ℕ} {touched : Memmap → Prop}

/-- A vm whose entries are not touched keeps a coherent TLB. -/
theorem Edits.tlbOk {u : ℕ} (h : Edits s s' v touched) (htlb : TlbOk (s.maps u) (s.vms u).tlb)
    (hsame : (s'.vms u).tlb = (s.vms u).tlb)
    (hun : (s.vms u).space = (s.vms v).space → ∀ m ∈ s.maps v, touched m →
      ∀ i, (s.vms u).tlb i ≠ TlbEntry.ofMap m) : TlbOk (s'.maps u) (s'.vms u).tlb := by
  rw [hsame]
  by_cases hsp : (s.vms u).space = (s.vms v).space
  · have hm : s.maps u = s.maps v := by rw [State.maps, State.maps, hsp]
    have hm' : s'.maps u = s'.maps v := by rw [State.maps, State.maps, h.space, h.space, hsp]
    rw [hm] at htlb
    rw [hm']
    refine htlb.mono fun m hmem i hi => ⟨m, h.keep m hmem ?_, rfl⟩
    intro ht
    exact hun hsp m hmem ht i hi
  · rw [h.maps_of_ne hsp]
    exact htlb

/-- An edit that leaves the editor coherent and touches no entry of the others. -/
theorem Edits.coherent (h : Edits s s' v touched) (hc : Coherent s) (hun : Uncached s v touched)
    (hown : TlbOk (s'.maps v) (s'.vms v).tlb) : Coherent s' := by
  intro u hu
  rw [h.runs_iff] at hu
  by_cases he : u = v
  · rw [he]
    exact hown
  · exact h.tlbOk (hc u hu) (h.tlb u he) (hun u hu he)

/-- What a step asks of the caches: the mapped range ends below `2 ^ 64`, a protected range
is not empty and does not wrap, and no vm that the step does not flush caches a segment that
it touches. -/
def Quiet (s : State) : Op → Prop
  | .read _ _ _ => True
  | .write _ v addr bs _ => Uncached s v (CowHit addr bs.length)
  | .mmap _ v args _ => s.mmapBase v args + roundUp args.len < 2 ^ 64 ∧
      Uncached s v (MmapHit args args.addr)
  | .munmap v addr _ => Uncached s v (fun m => m.paddr = addr)
  | .mprotect _ v addr len _ result => 0 < len ∧ addr + len < 2 ^ 64 ∧
      Uncached s v (RangeHit addr (addr + len)) ∧
      (result < 0 → ∀ m ∈ s.maps v, RangeHit addr (addr + len) m →
        ∀ i, (s.vms v).tlb i ≠ TlbEntry.ofMap m)
  | .clone v args _ => args.shareVm = false → ∀ u, s.Runs u →
      (s.vms u).space = (s.vms v).space → (s.vms u).group ≠ (s.vms v).group →
      ∀ m ∈ s.maps v, m.cowData = none → ∀ i, (s.vms u).tlb i ≠ TlbEntry.ofMap m
  | .stop _ => True

/-! ## One step -/

theorem coherent_read (hc : Coherent s) (hv : s.Runs v) : Coherent (s.mmu v addr n).2 := by
  refine mmu_keeps hc fun m hm => ?_
  refine (Edits.setTlb s v _ _ (fun _ => False)).coherent hc (fun _ _ _ _ _ _ h => h.elim) ?_
  rw [State.setTlb_maps, State.setTlb_tlb_self]
  exact (hc v hv).update hm _

theorem wf_read (hw : Wf s) : Wf (s.mmu v addr n).2 :=
  mmu_keeps hw fun _ _ => hw.setTlb _ _ _

theorem Changed.inv {after : ℕ → Option Byte} (h : Changed s s' v touched after) (hc : Coherent s)
    (hun : Uncached s v touched) : Wf s' ∧ Coherent s' :=
  ⟨h.wf, h.edits.coherent hc hun h.own⟩

theorem inv_munmap (hw : Wf s) (hc : Coherent s) (hv : v < s.nextVm)
    (hun : Uncached s v (fun m => m.paddr = addr)) :
    Wf (s.doMunmap v addr).2 ∧ Coherent (s.doMunmap v addr).2 := by
  cases hf : (s.maps v).find? (fun m => addr == m.paddr) with
  | none =>
    rw [doMunmap_none hf]
    exact ⟨hw, hc⟩
  | some m => exact (doMunmap_spec hw hv hf).inv hc hun

theorem inv_mmap {env : HostEnv} {args : MmapArgs} {result : Except Int ℕ} (hw : Wf s)
    (hc : Coherent s) (hv : v < s.nextVm) (hfit : s.mmapBase v args + roundUp args.len < 2 ^ 64)
    (hun : Uncached s v (MmapHit args args.addr)) (hr : s.doMmap env v args = some (result, s')) :
    Wf s' ∧ Coherent s' := by
  cases result with
  | error e =>
    rw [doMmap_error hr]
    exact ⟨hw, hc⟩
  | ok base =>
    have hch := doMmap_spec hw hv hfit hr
    refine hch.inv hc ?_
    rcases doMmap_cases hr with ⟨_, h, _⟩ | ⟨_, _, _, _, ⟨_, h, _⟩ | ⟨hfix, _, _, _⟩⟩
    · cases h
    · cases h
      exact hun
    · intro _ _ _ _ _ _ ht
      simp [MmapHit, hfix] at ht

theorem inv_mprotect {env : HostEnv} {len fuel : ℕ} {prot : U32} {result : Int} (hw : Wf s)
    (hc : Coherent s) (hv : s.Runs v) (hlen : 0 < len) (hfit : addr + len < 2 ^ 64)
    (hun : Uncached s v (RangeHit addr (addr + len)))
    (hown : result < 0 → ∀ m ∈ s.maps v, RangeHit addr (addr + len) m →
      ∀ i, (s.vms v).tlb i ≠ TlbEntry.ofMap m)
    (hr : s.doMprotect env fuel v addr len prot = some (result, s')) : Wf s' ∧ Coherent s' := by
  obtain ⟨s₁, hwf, hed, hvms, -, ⟨hneg, rfl⟩ | rfl⟩ := doMprotect_spec hw hv.1 hlen hfit hr
  · refine ⟨hwf, hed.coherent hc hun ?_⟩
    exact hed.tlbOk (hc v hv) (by rw [hvms]) (fun _ => hown hneg)
  · refine ⟨hwf.flushTlb v, (hed.trans (Edits.flushTlb _ v _)).coherent hc hun ?_⟩
    rw [State.flushTlb_tlb_self]
    exact tlbOk_zero _

theorem inv_fork {args : CloneArgs} (hw : Wf s) (hc : Coherent s) (hv : v < s.nextVm)
    (ha : args.shareVm = false) (hun : ∀ u, s.Runs u → (s.vms u).space = (s.vms v).space →
      (s.vms u).group ≠ (s.vms v).group → ∀ m ∈ s.maps v, m.cowData = none →
      ∀ i, (s.vms u).tlb i ≠ TlbEntry.ofMap m) :
    Wf (s.cloneSpace v args) ∧ Coherent (s.cloneSpace v args) := by
  have hf := cloneSpace_fork hw hv ha
  refine ⟨hf.wf, fun u hu => ?_⟩
  by_cases hlt : u < s.nextVm
  · have hru : s.Runs u := ⟨hlt, by rw [← hf.running u hlt]; exact hu.2⟩
    rw [hf.tlb u hlt]
    split_ifs with hg
    · exact tlbOk_zero _
    · by_cases hsp : (s.vms u).space = (s.vms v).space
      · have hm : s.maps u = s.maps v := by rw [State.maps, State.maps, hsp]
        have hm' : (s.cloneSpace v args).maps u = (s.cloneSpace v args).maps v := by
          rw [State.maps, State.maps, hf.space u hlt, hf.space v hv, hsp]
        have htlb := hc u hru
        rw [hm] at htlb
        rw [hm']
        refine htlb.mono fun m hmem i hi => ⟨m, hf.keep m hmem ?_, rfl⟩
        intro hcow
        exact hun u hru hsp hg m hmem hcow i hi
      · rw [hf.other u hlt hsp]
        exact hc u hru
  · have he : u = s.nextVm := by
      have := hu.1
      rw [hf.nextVm] at this
      omega
    rw [he, hf.child_tlb]
    exact tlbOk_zero _

theorem inv_join {args : CloneArgs} (hw : Wf s) (hc : Coherent s) (hv : v < s.nextVm)
    (ha : args.shareVm = true) : Wf (s.cloneSpace v args) ∧ Coherent (s.cloneSpace v args) := by
  have hj := cloneSpace_join hw hv ha
  refine ⟨hj.wf, fun u hu => ?_⟩
  by_cases hlt : u < s.nextVm
  · have hru : s.Runs u := ⟨hlt, by rw [← hj.running u hlt]; exact hu.2⟩
    have hm : (s.cloneSpace v args).maps u = s.maps u := by
      rw [State.maps, State.maps, hj.space u hlt, hj.spaces]
    rw [hj.tlb u hlt, hm]
    split_ifs
    · exact tlbOk_zero _
    · exact hc u hru
  · have he : u = s.nextVm := by
      have := hu.1
      rw [hj.nextVm] at this
      omega
    rw [he, hj.child_tlb]
    exact tlbOk_zero _

theorem inv_stop (hw : Wf s) (hc : Coherent s) (hv : v < s.nextVm) :
    Wf (s.dropSpace v) ∧ Coherent (s.dropSpace v) := by
  have hl := dropSpace_spec hw hv
  refine ⟨hl.wf, fun u hu => ?_⟩
  by_cases he : u = v
  · rw [he] at hu
    have := hu.2
    rw [hl.stopped] at this
    simp at this
  · have hlt : u < s.nextVm := hl.nextVm ▸ hu.1
    have hru : s.Runs u := ⟨hlt, by rw [← hl.vms u he]; exact hu.2⟩
    rw [hl.maps u hlt he, hl.vms u he]
    exact hc u hru

/-- A quiet step keeps the state well formed and every TLB coherent. -/
theorem step_inv {op : Op} (hs : Step s op s') (hq : Quiet s op) (hw : Wf s) (hc : Coherent s) :
    Wf s' ∧ Coherent s' := by
  cases hs with
  | read hv _ => exact ⟨wf_read hw, coherent_read hc hv⟩
  | write hv ha =>
    exact (storeBytes_spec _ hw hv.1 (hc _ hv) ha.1 ha.2.1 ha.2.2).inv hc hq
  | mmap hv hr => exact inv_mmap hw hc hv.1 hq.1 hq.2 hr
  | munmap hv => exact inv_munmap hw hc hv.1 hq
  | mprotect hv hr => exact inv_mprotect hw hc hv hq.1 hq.2.1 hq.2.2.1 hq.2.2.2 hr
  | @clone v args hv =>
    cases ha : args.shareVm with
    | false => exact inv_fork hw hc hv.1 ha (hq ha)
    | true => exact inv_join hw hc hv.1 ha
  | stop hv => exact inv_stop hw hc hv.1

/-! ## Every run -/

/-- A step that meets the condition on the caches. -/
def QuietStep (s : State) (op : Op) (s' : State) : Prop := Step s op s' ∧ Quiet s op

/-- For every running vm, `mmu` and `mmu_w` return what its container defines now: `mmu` the
translation of the container, `mmu_w` what `mmu_w_slow` would find there. -/
def AnswersCurrent (s : State) : Prop :=
  ∀ v, s.Runs v → ∀ a n, AccessOk a n → (s.mmu v a n).1 = lookup (s.maps v) a n ∧
    ∀ env, (s.mmuW env v a n).1 = (s.mmuWSlow env v a n).1

theorem mmuW_fst {a : ℕ} (env : HostEnv) (hml : MapsOk (s.maps v))
    (htlb : TlbOk (s.maps v) (s.vms v).tlb) (ha : AccessOk a n) :
    (s.mmuW env v a n).1 = (s.mmuWSlow env v a n).1 := by
  rcases mmuW_cases env hml htlb ha.1 ha.2.1 ha.2.2 with ⟨m, hf, hW, hcow, he⟩ | he
  · rw [he]
    simp [State.mmuWSlow, hf, hW, State.resolveCow, hcow, Memmap.ptr]
  · rw [he]

theorem Coherent.answers (hw : Wf s) (hc : Coherent s) : AnswersCurrent s := by
  intro v hv a n ha
  exact ⟨mmu_fst (hw.mapsOk hv.1) (hc v hv) ha.1 ha.2.1 ha.2.2,
    fun env => mmuW_fst env (hw.mapsOk hv.1) (hc v hv) ha⟩

theorem Booting.coherent {segs : List BootSeg} (h : Booting s segs) : Coherent s := by
  intro v hv
  have : v = 0 := by
    have := hv.1
    rw [h.nextVm] at this
    omega
  rw [this]
  exact h.tlb

theorem quietRun_inv {segs : List BootSeg} (hb : BootOk segs) {l : List Op}
    (h : Run QuietStep (State.boot segs) l s) : Wf s ∧ Coherent s := by
  have hboot := booting_boot hb
  exact h.invariant ⟨hboot.wf, hboot.coherent⟩ fun _ _ _ hi hs => step_inv hs.1 hs.2 hi.1 hi.2

/-- In every run from a loaded image in which each step is quiet, the translations of every
vm are those of its current container. -/
theorem answersCurrent_of_quietRun {segs : List BootSeg} (hb : BootOk segs) {l : List Op}
    {s : State} (h : Run QuietStep (State.boot segs) l s) : AnswersCurrent s := by
  obtain ⟨hw, hc⟩ := quietRun_inv hb h
  exact hc.answers hw

section Example

/-- Two pages, both readable and writable. -/
def twoPages : List BootSeg :=
  [⟨0x1000, 0x1000, pfR ||| pfW, fun _ => 1⟩, ⟨0x3000, 0x1000, pfR ||| pfW, fun _ => 2⟩]

def threadArgs : CloneArgs := ⟨true, true, 0, none, none, none, [], true⟩

/-- A second thread on the two pages, which has read the first one. -/
def threadState : State := (((State.boot twoPages).cloneSpace 0 threadArgs).mmu 1 0x1000 1).2

theorem bootOk_twoPages : BootOk twoPages := by
  refine ⟨?_, ?_, ?_⟩ <;> simp [twoPages, BootSeg.stop]

theorem run_threadState : Run QuietStep (State.boot twoPages)
    [.clone 0 threadArgs 1, .read 1 0x1000 1] threadState := by
  refine Run.cons ⟨Step.clone (s := State.boot twoPages) ⟨by decide, by decide⟩, ?_⟩
    (Run.single ⟨Step.read ⟨by decide, by decide⟩ ⟨by decide, by decide, by decide⟩, trivial⟩)
  intro h
  simp [threadArgs] at h

/-- The second thread caches the first page and nothing else. -/
theorem threadState_tlb (i : ℕ) : ((threadState.vms 1).tlb i).guestBase ≠ 0x3000 := by
  by_cases hi : i = tlbIndex 0x1000
  · rw [hi]
    decide
  · have : (threadState.vms 1).tlb i = TlbEntry.zero := Function.update_of_ne hi _ _
    rw [this]
    decide

/-- The thread has read the first page; the first thread unmaps the second one. -/
theorem answersCurrent_after_munmap :
    AnswersCurrent (threadState.doMunmap 0 0x3000).2 := by
  refine answersCurrent_of_quietRun bootOk_twoPages
    (Run.snoc run_threadState ⟨Step.munmap ⟨by decide, by decide⟩, ?_⟩)
  intro u hu hne _ m _ hm i he
  obtain rfl : u = 1 := by
    have : u < 2 := hu.1
    omega
  exact threadState_tlb i (by rw [he]; exact hm)

/-- The thread has read a page that the first thread then unmaps: its next read still
returns the host address of the unmapped page. -/
theorem stale_after_munmap : ∃ (segs : List BootSeg) (l : List Op) (s : State),
    BootOk segs ∧ Run Step (State.boot segs) l s ∧ ¬ AnswersCurrent s := by
  have hstep : Step threadState (.munmap 0 0x1000 _) _ := Step.munmap ⟨by decide, by decide⟩
  refine ⟨twoPages, _, _, bootOk_twoPages,
    Run.snoc (run_threadState.mono fun _ _ _ hs => hs.1) hstep, ?_⟩
  intro h
  have h₁ := (h 1 ⟨by decide, by decide⟩ 0x1000 1 ⟨by decide, by decide, by decide⟩).1
  revert h₁
  decide

end Example

end Bpfvm.Memory
