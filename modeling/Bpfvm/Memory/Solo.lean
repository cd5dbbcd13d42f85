import Bpfvm.Memory.Isolation

/-!
# Translations of single-threaded processes

The TLB of a vm holds copies of segments. In a system of single-threaded processes nobody else
edits the container, so the caller's own flushes have to keep every copy current. They do, except
for a `return` inside the loop of `do_mprotect`, which leaves the TLB alone although segments may
have been split or changed already. A translation of size zero is not compared: an empty TLB entry
answers it.
-/
namespace Bpfvm.Memory

/-- Fresh pages at the place and with the content of `b`, added by `addmem`. -/
def State.loadMap (s : State) (v : ℕ) (b : BootSeg) : State :=
  let (p, h) := s.host.mmap b.size (protRead ||| protWrite) b.init
  (s.setHost h).addmem v (b.segment p)

inductive SoloOp where
  | sys (op : Op)
  | addmem (v : ℕ) (b : BootSeg)
  | mmu (v addr n : ℕ)
  | mmuW (env : HostEnv) (v addr n : ℕ)

/-- Clones are forks. -/
def ForkOnly : Op → Prop
  | .clone _ args _ => args.shareVm = false ∧ args.isThread = false
  | _ => True

/-- A step of one of the single-threaded processes. -/
inductive SoloStep : State → SoloOp → State → Prop where
  | sys {s s' : State} {op : Op} (h : Step s op s') (hop : ForkOnly op) :
      SoloStep s (.sys op) s'
  | addmem {s : State} {v : ℕ} {b : BootSeg} (hv : s.Runs v) :
      SoloStep s (.addmem v b) (s.loadMap v b)
  | mmu {s : State} {v addr n : ℕ} (hv : s.Runs v) : SoloStep s (.mmu v addr n) (s.mmu v addr n).2
  | mmuW {s : State} {env : HostEnv} {v addr n : ℕ} (hv : s.Runs v) :
      SoloStep s (.mmuW env v addr n) (s.mmuW env v addr n).2

/-- Mapped ranges are free and end below `2 ^ 64`, protected ranges are not empty and do not
wrap, and a protection change that fails leaves the container alone or concerns no cached
segment. -/
def SoloOk (s : State) (op : SoloOp) (s' : State) : Prop :=
  match op with
  | .sys (.mmap _ v args _) => s.mmapBase v args + roundUp args.len < 2 ^ 64
  | .sys (.mprotect _ v addr len _ result) => 0 < len ∧ addr + len < 2 ^ 64 ∧
      (result < 0 → s'.maps v = s.maps v ∨ ∀ m ∈ s.maps v, RangeHit addr (addr + len) m →
        ∀ i, (s.vms v).tlb i ≠ TlbEntry.ofMap m)
  | .addmem v b => 0 < b.size ∧ b.stop < 2 ^ 64 ∧
      ∀ m ∈ s.maps v, m.stop ≤ b.paddr ∨ b.stop ≤ m.paddr
  | _ => True

/-- `mmu` and `mmu_w` of `v` answer `a`, `n` like their slow paths on the current container, and
a pointer leads into one current segment, for `mmu_w` one that is writable and not shared. -/
structure TransparentAt (s : State) (v a n : ℕ) : Prop where
  read : (s.mmu v a n).1 = (s.mmuSlow v a n).1
  write : ∀ env, (s.mmuW env v a n).1 = (s.mmuWSlow env v a n).1
  readable : ∀ p, (s.mmu v a n).1 = some p →
    ∃ m ∈ s.maps v, m.paddr ≤ a ∧ a + n ≤ m.stop ∧ p = m.ptr a
  writable : ∀ env p, (s.mmuW env v a n).1 = some p → ∃ m ∈ (s.mmuW env v a n).2.maps v,
    m.cowData = none ∧ hasFlag m.flags pfW = true ∧ m.paddr ≤ a ∧ a + n ≤ m.stop ∧ p = m.ptr a

def Transparent (s : State) : Prop :=
  ∀ v, s.Runs v → ∀ a n, AccessOk a n → TransparentAt s v a n

/-- What the steps preserve. -/
structure Settled (s : State) : Prop where
  wf : Wf s
  coherent : Coherent s
  separate : Separate s

namespace Settled

variable {s s' : State} {v : ℕ} {touched : Memmap → Prop}

/-- An edit of one container that leaves its own vm coherent. -/
theorem edits (h : Settled s) (hv : v < s.nextVm) (hwf : Wf s') (hed : Edits s s' v touched)
    (hown : TlbOk (s'.maps v) (s'.vms v).tlb) : Settled s' :=
  ⟨hwf, hed.coherent h.coherent (h.separate.uncached hv touched) hown, h.separate.edits hed⟩

theorem changed {after : ℕ → Option Byte} (h : Settled s) (hv : v < s.nextVm)
    (hch : Changed s s' v touched after) : Settled s' :=
  h.edits hv hch.wf hch.edits hch.own

theorem mmu (h : Settled s) (hv : s.Runs v) (addr n : ℕ) : Settled (s.mmu v addr n).2 := by
  refine mmu_keeps h fun m hm => ?_
  refine h.edits hv.1 (h.wf.setTlb _ _ _) (Edits.setTlb s v _ _ fun _ => False) ?_
  rw [State.setTlb_maps, State.setTlb_tlb_self]
  exact (h.coherent v hv).update hm _

theorem mmuW (h : Settled s) (hv : s.Runs v) (env : HostEnv) (addr n : ℕ) :
    Settled (s.mmuW env v addr n).2 := by
  unfold State.mmuW
  split_ifs
  · exact h
  dsimp only
  split_ifs
  · exact h
  unfold State.mmuWSlow
  cases hf : findMap (s.maps v) addr n with
  | none => exact h
  | some m =>
    dsimp only
    split_ifs
    · rcases resolveCow_spec env h.wf hv.1 hf with ⟨m', s', he, hr⟩ | ⟨host, he, hwf, -⟩
      · rw [he]
        refine h.edits hv.1 (hr.wf.setTlb _ _ _) (hr.edits.trans (Edits.setTlb _ _ _ _ _)) ?_
        rw [State.setTlb_maps, State.setTlb_tlb_self]
        exact (hr.own (h.coherent v hv)).update hr.mem _
      · rw [he]
        exact h.edits hv.1 hwf (Edits.heap s v _ fun _ => False) (h.coherent v hv)
    · exact h

theorem loadMap {b : BootSeg} (h : Settled s) (hv : v < s.nextVm) (hne : 0 < b.size)
    (hb : b.stop < 2 ^ 64) (hd : ∀ m ∈ s.maps v, m.stop ≤ b.paddr ∨ b.stop ≤ m.paddr) :
    Settled (s.loadMap v b) :=
  h.changed hv (addmem_spec h.wf hv hne hb hd rfl)

theorem mprotect {env : HostEnv} {addr len fuel : ℕ} {prot : U32} {result : Int}
    (h : Settled s) (hv : s.Runs v) (hlen : 0 < len) (hfit : addr + len < 2 ^ 64)
    (hown : result < 0 → s'.maps v = s.maps v ∨ ∀ m ∈ s.maps v, RangeHit addr (addr + len) m →
      ∀ i, (s.vms v).tlb i ≠ TlbEntry.ofMap m)
    (hr : s.doMprotect env fuel v addr len prot = some (result, s')) : Settled s' := by
  obtain ⟨s₁, hwf, hed, hvms, -, ⟨hneg, rfl⟩ | rfl⟩ := doMprotect_spec h.wf hv.1 hlen hfit hr
  · refine h.edits hv.1 hwf hed ?_
    rcases hown hneg with hsame | hun
    · rw [hsame, hvms]
      exact h.coherent v hv
    · exact hed.tlbOk (h.coherent v hv) (by rw [hvms]) fun _ => hun
  · refine h.edits hv.1 (hwf.flushTlb v) (hed.trans (Edits.flushTlb _ v _)) ?_
    rw [State.flushTlb_tlb_self]
    exact tlbOk_zero _

theorem mmap {env : HostEnv} {args : MmapArgs} {result : Except Int ℕ} (h : Settled s)
    (hv : v < s.nextVm) (hfit : s.mmapBase v args + roundUp args.len < 2 ^ 64)
    (hr : s.doMmap env v args = some (result, s')) : Settled s' := by
  cases result with
  | error e =>
    rw [doMmap_error hr]
    exact h
  | ok base => exact h.changed hv (doMmap_spec h.wf hv hfit hr)

theorem munmap {addr : ℕ} (h : Settled s) (hv : v < s.nextVm) : Settled (s.doMunmap v addr).2 := by
  cases hf : (s.maps v).find? (fun m => addr == m.paddr) with
  | none =>
    rw [doMunmap_none hf]
    exact h
  | some m => exact h.changed hv (doMunmap_spec h.wf hv hf)

theorem step {op : SoloOp} (h : Settled s) (hs : SoloStep s op s') (hok : SoloOk s op s') :
    Settled s' := by
  cases hs with
  | sys hstep hop =>
    cases hstep with
    | read hv _ => exact h.mmu hv _ _
    | write hv ha =>
      exact h.changed hv.1 (storeBytes_spec _ h.wf hv.1 (h.coherent _ hv) ha.1 ha.2.1 ha.2.2)
    | mmap hv hr => exact h.mmap hv.1 hok hr
    | munmap hv => exact h.munmap hv.1
    | mprotect hv hr => exact h.mprotect hv hok.1 hok.2.1 hok.2.2 hr
    | clone hv =>
      exact ⟨(cloneSpace_fork h.wf hv.1 hop.1).wf,
        h.separate.coherent_fork h.wf h.coherent hv.1 hop.1, h.separate.fork h.wf hv.1 hop.1⟩
    | stop hv =>
      obtain ⟨hwf, hc⟩ := inv_stop h.wf h.coherent hv.1
      exact ⟨hwf, hc, h.separate.stop h.wf hv.1⟩
  | addmem hv => exact h.loadMap hv.1 hok.1 hok.2.1 hok.2.2
  | mmu hv => exact h.mmu hv _ _
  | mmuW hv => exact h.mmuW hv _ _ _

theorem empty : Settled State.empty := by
  refine ⟨wf_empty, fun v _ => tlbOk_zero _, ?_⟩
  intro u v hu hv hne
  have hu' : u < 1 := hu
  have hv' : v < 1 := hv
  omega

theorem transparent (h : Settled s) : Transparent s := by
  intro v hv a n ha
  have hml := h.wf.mapsOk hv.1
  have htlb := h.coherent v hv
  have hmmu := mmu_fst hml htlb ha.1 ha.2.1 ha.2.2
  refine ⟨?_, fun env => mmuW_fst env hml htlb ha, ?_, ?_⟩
  · rw [hmmu, lookup, State.mmuSlow]
    cases findMap (s.maps v) a n <;> rfl
  · intro p hp
    rw [hmmu] at hp
    obtain ⟨m, hf, rfl⟩ := Option.map_eq_some_iff.mp hp
    obtain ⟨hm, hlo, hhi⟩ := (findMap_eq_some_iff hml ha.1 ha.2.1 ha.2.2).mp hf
    exact ⟨m, hm, hlo, hhi, rfl⟩
  · exact fun env => (mmuW_spec env h.wf hv.1 htlb ha.1 ha.2.1 ha.2.2).hit

end Settled

/-- In every run of single-threaded processes whose steps meet the condition, the TLB does not
show in any translation of a range that is not empty. -/
theorem transparent_of_soloRun {l : List SoloOp} {s : State}
    (h : Run (fun s op s' => SoloStep s op s' ∧ SoloOk s op s') State.empty l s) :
    Transparent s :=
  (h.invariant Settled.empty fun _ _ _ hi hs => hi.step hs.1 hs.2).transparent

section Example

/-- A writable page and an executable one. -/
def dataPage : BootSeg := ⟨0x1000, 0x1000, pfR ||| pfW, fun _ => 0⟩
def codePage : BootSeg := ⟨0x2000, 0x1000, pfR ||| pfX, fun _ => 0⟩

def twoLoaded : State := (State.empty.loadMap 0 dataPage).loadMap 0 codePage

/-- The data page has been written to. -/
def dataCached : State := (twoLoaded.mmuW HostEnv.good 0 0x1000 8).2

/-- The state behind `do_mprotect(0x1000, 0x2000, PROT_READ)`, which fails at the code page. -/
def dataSealed : State :=
  (dataCached.doMprotect HostEnv.good 8 0 0x1000 0x2000 protRead).elim dataCached Prod.snd

theorem doMprotect_dataSealed :
    dataCached.doMprotect HostEnv.good 8 0 0x1000 0x2000 protRead = some (-13, dataSealed) := rfl

theorem soloRun_dataCached :
    Run (fun s op s' => SoloStep s op s' ∧ SoloOk s op s') State.empty
      [.addmem 0 dataPage, .addmem 0 codePage, .mmuW HostEnv.good 0 0x1000 8] dataCached := by
  refine Run.cons ⟨.addmem ⟨by decide, by decide⟩, by decide, by decide, ?_⟩
    (Run.cons ⟨.addmem ⟨by decide, by decide⟩, by decide, by decide, ?_⟩
      (Run.single ⟨.mmuW ⟨by decide, by decide⟩, trivial⟩))
  · decide
  · decide

theorem transparent_dataCached : Transparent dataCached := transparent_of_soloRun soloRun_dataCached

/-- The protection change has taken `PF_W` from the data page and then failed at the code page:
`mmu_w` still returns a pointer into the data page. -/
theorem writable_after_failed_mprotect : ∃ l s, Run SoloStep State.empty l s ∧ ¬ Transparent s := by
  have hprot := Step.mprotect ⟨by decide, by decide⟩ doMprotect_dataSealed
  refine ⟨_, dataSealed, Run.snoc (soloRun_dataCached.mono fun _ _ _ hs => hs.1)
    (.sys hprot trivial), ?_⟩
  intro h
  have hw := (h 0 ⟨by decide, by decide⟩ 0x1000 8 ⟨by decide, by decide, by decide⟩).write
    HostEnv.good
  revert hw
  decide

end Example

end Bpfvm.Memory
