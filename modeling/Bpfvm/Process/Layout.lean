import Bpfvm.Memory.Pointwise
import Bpfvm.Process.Exec

/-!
# The representation of address spaces

`find_map_locked` searches a sorted vector of nonempty, disjoint segments that do not wrap. The
container is edited in critical sections of its mutex, and `do_mmap` with `MAP_FIXED` takes the
mutex twice: once to punch the hole and once to insert the new segment. Several threads of one
address space can be between the two at the same time. `execveat` brings in the segments of an ELF
file, which the loader compares before it rounds them to pages, and a stack.
-/
namespace Bpfvm.Layout
open Memory Cpu Exec Function

/-! ## The loader -/

/-- A `PT_LOAD` segment at its final address (`Seg`), with the content of its pages. -/
structure LoadSeg where
  vaddr : ℕ
  memsz : ℕ
  flags : U32
  init : ℕ → Byte

def LoadSeg.uend (s : LoadSeg) : ℕ := uadd s.vaddr s.memsz

/-- `check_overlaps`. -/
def checkOverlaps : List LoadSeg → Bool
  | [] => true
  | s :: rest =>
    (rest.all fun t => !(decide (s.vaddr < t.uend) && decide (t.vaddr < s.uend))) &&
      checkOverlaps rest

/-- The pages that `map_segment` maps. -/
def LoadSeg.pages (s : LoadSeg) : BootSeg :=
  let pageStart := s.vaddr / pageSize * pageSize
  ⟨pageStart, usub (roundUp s.uend) pageStart, s.flags, s.init⟩

/-- The segments that `load_elf` adds; the host refuses to map nothing. -/
def loadSegs (segs : List LoadSeg) : Option (List BootSeg) :=
  if segs = [] ∨ checkOverlaps segs = false then none
  else if (segs.map LoadSeg.pages).any fun b => b.size == 0 then none
  else some (segs.map LoadSeg.pages)

/-- The segments of the fresh vm: the image, and a stack if nothing is at `STACK_BASE`. -/
def freshSegs (segs : List BootSeg) : List BootSeg :=
  if (findMap ((State.boot segs).maps 0) stackBase.toNat 1).isSome then segs
  else segs ++ [stackSeg]

/-! ## Critical sections -/

/-- The container that `addmem` builds from fresh pages. -/
def buildMaps (h : Host) (segs : List BootSeg) : Host × List Memmap :=
  segs.foldl (fun q b =>
    let (p, h) := q.1.mmap b.size (protRead ||| protWrite) b.init
    (h, Segments.insertBefore Memmap.paddr q.2 (b.segment p))) (h, [])

/-- `exec_common` replaces the address space: in a container of its own if the old one is shared,
in place otherwise. -/
def execSpace (s : State) (v : ℕ) (segs : List BootSeg) : State :=
  let (h, ml) := buildMaps s.host segs
  let old := s.maps v
  let s := s.setHost h
  if (List.range s.nextVm).any fun u => u != v && (s.vms u).space == (s.vms v).space then
    ((s.addSpace ml).setVm v { s.vms v with space := s.nextSpace }).flushTlb v
  else (old.foldl State.release (s.setMaps v ml)).flushTlb v

/-- `do_mmap` with `MAP_FIXED` up to the first release of the mutex. -/
def punch (s : State) (v : ℕ) (a : MmapArgs) : State :=
  let (heap, kept, dropped) := punchHole a.addr (uadd a.addr (roundUp a.len)) s.heap (s.maps v)
  (dropped.foldl State.release ((s.setHeap heap).setMaps v kept)).flushTlb v

/-- Its second critical section. -/
def insert (s : State) (v : ℕ) (a : MmapArgs) (p : HostPtr) : State :=
  (s.addmem v (a.segment a.addr p)).flushTlb v

/-- The memory, and the mappings that threads are about to insert. -/
structure Sys where
  s : State
  inMmap : ℕ → Option (MmapArgs × HostPtr)

def Sys.start : Sys := ⟨State.empty, fun _ => none⟩

/-- The vm that makes the step. -/
def actor : Op → ℕ
  | .read v _ _ => v
  | .write _ v _ _ _ => v
  | .mmap _ v _ _ => v
  | .munmap v _ _ => v
  | .mprotect _ v _ _ _ _ => v
  | .clone v _ _ => v
  | .stop v => v

/-- The step is a `MAP_FIXED` mapping as a whole. -/
def MapsFixed : Op → Prop
  | .mmap _ _ args (.ok _) => args.fixed = true
  | _ => False

inductive Act where
  | sys (op : Op)
  | punch (v : ℕ) (args : MmapArgs)
  | insert (v : ℕ)
  | exec (v : ℕ) (segs : List LoadSeg)

inductive SysStep : Sys → Act → Sys → Prop where
  | sys {t : Sys} {op : Op} {s' : State} (h : Step t.s op s') (hidle : t.inMmap (actor op) = none)
      (hop : ¬ MapsFixed op) : SysStep t (.sys op) ⟨s', t.inMmap⟩
  | punch {t : Sys} {v : ℕ} {args : MmapArgs} {p : HostPtr} {h : Host} (hv : t.s.Runs v)
      (hidle : t.inMmap v = none) (hfix : args.fixed = true) (hlen : roundUp args.len ≠ 0)
      (halign : args.addr % pageSize = 0)
      (hm : t.s.host.mmap (roundUp args.len) args.prot args.init = (p, h)) :
      SysStep t (.punch v args)
        ⟨punch (t.s.setHost h) v args, update t.inMmap v (some (args, p))⟩
  | insert {t : Sys} {v : ℕ} {args : MmapArgs} {p : HostPtr} (hin : t.inMmap v = some (args, p)) :
      SysStep t (.insert v) ⟨insert t.s v args p, update t.inMmap v none⟩
  | exec {t : Sys} {v : ℕ} {segs : List LoadSeg} {bs : List BootSeg} (hv : t.s.Runs v)
      (hidle : t.inMmap v = none) (hload : loadSegs segs = some bs) :
      SysStep t (.exec v segs) ⟨execSpace t.s v (freshSegs bs), t.inMmap⟩

/-! ## The invariant -/

/-- Every container is sorted by address, and its segments are nonempty, do not wrap and do not
overlap. -/
def LayoutOk (s : State) : Prop := ∀ σ, MapsOk (s.spaces σ)

/-- Mapped ranges end below `2 ^ 64`, protected ranges are not empty and do not wrap, nothing has
been mapped into the hole of a `MAP_FIXED` mapping when it is inserted, and the pages of a new image
and its stack do not overlap. -/
def ActOk (t : Sys) : Act → Prop
  | .sys (.mmap _ v args _) => t.s.mmapBase v args + roundUp args.len < 2 ^ 64
  | .sys (.mprotect _ _ addr len _ _) => 0 < len ∧ addr + len < 2 ^ 64
  | .sys _ => True
  | .punch _ args => args.addr + roundUp args.len < 2 ^ 64
  | .insert v => ∀ args p, t.inMmap v = some (args, p) → args.addr + roundUp args.len < 2 ^ 64 ∧
      ∀ m ∈ t.s.maps v, m.stop ≤ args.addr ∨ args.addr + roundUp args.len ≤ m.paddr
  | .exec _ segs => ∀ bs, loadSegs segs = some bs → BootOk (freshSegs bs)

variable {ml : List Memmap} {env : HostEnv} {prot : U32}

section
variable {s s' : State} {v : ℕ}

theorem LayoutOk.setMaps (h : LayoutOk s) (hml : MapsOk ml) : LayoutOk (s.setMaps v ml) := by
  intro σ
  change MapsOk (update s.spaces (s.vms v).space ml σ)
  by_cases hσ : σ = (s.vms v).space
  · rw [hσ, update_self]
    exact hml
  · rw [update_of_ne hσ]
    exact h σ

theorem LayoutOk.of_spaces (h : LayoutOk s) (hs : s'.spaces = s.spaces) : LayoutOk s' := by
  intro σ
  rw [hs]
  exact h σ

theorem LayoutOk.release (h : LayoutOk s) (dropped : List Memmap) :
    LayoutOk (dropped.foldl State.release s) :=
  h.of_spaces (foldl_release_frame s dropped).1

theorem LayoutOk.maps (h : LayoutOk s) (v : ℕ) : MapsOk (s.maps v) := h _

theorem LayoutOk.mmu (h : LayoutOk s) (addr n : ℕ) : LayoutOk (s.mmu v addr n).2 :=
  mmu_keeps h fun _ _ => h.of_spaces rfl

theorem LayoutOk.resolveCow (h : LayoutOk s) (env : HostEnv) {addr n : ℕ} {m : Memmap}
    (hf : findMap (s.maps v) addr n = some m) : LayoutOk (s.resolveCow env v addr m).2 := by
  obtain ⟨pre, post, hml, hstep⟩ := cowStep env hf
  have hok : ∀ m', m'.paddr = m.paddr → m'.size = m.size →
      LayoutOk (s.setMaps v (pre ++ m' :: post)) :=
    fun m' hp hs => h.setMaps ((hml ▸ h.maps v).replace_one hp hs)
  generalize s.resolveCow env v addr m = r at hstep ⊢
  cases hstep with
  | plain hc => exact h
  | steal hc hone => exact (hok m.stolen rfl rfl).of_spaces rfl
  | full hc hcopy => exact h.of_spaces rfl
  | @copy c p host hc hmany hcopy => exact (hok (m.copied p) rfl rfl).of_spaces rfl

theorem LayoutOk.mmuW (h : LayoutOk s) (env : HostEnv) (addr n : ℕ) :
    LayoutOk (s.mmuW env v addr n).2 :=
  mmuW_keeps h (fun _ hf _ => h.resolveCow env hf) fun _ _ _ hs => hs.of_spaces rfl

theorem LayoutOk.storeBytes (h : LayoutOk s) (env : HostEnv) (addr : ℕ) (bs : List Byte) :
    LayoutOk (s.storeBytes env v addr bs).2 := by
  have hmmu := h.mmuW (v := v) env addr bs.length
  unfold State.storeBytes
  generalize s.mmuW env v addr bs.length = r at hmmu ⊢
  obtain ⟨_ | p, s'⟩ := r
  · exact hmmu
  · exact hmmu.of_spaces rfl

theorem LayoutOk.munmap (h : LayoutOk s) (addr : ℕ) : LayoutOk (s.doMunmap v addr).2 := by
  unfold State.doMunmap State.unmap
  cases (s.maps v).find? fun m => addr == m.paddr with
  | none => exact h
  | some m =>
    have hml := (h.maps v).sublist (List.eraseP_sublist (p := fun m => addr == m.paddr))
    exact ((h.setMaps hml).of_spaces (release_frame _ m).1).of_spaces rfl

theorem LayoutOk.mprotect {addr len fuel : ℕ} {result : Int} (h : LayoutOk s) (hlen : 0 < len)
    (hfit : addr + len < 2 ^ 64) (hr : s.doMprotect env fuel v addr len prot = some (result, s')) :
    LayoutOk s' := by
  obtain ⟨heap, ml, hrep, hend⟩ := doMprotect_reprot (h.maps v) hlen hfit hr
  have hset : LayoutOk (s.setMaps v ml) := h.setMaps hrep.ok
  rcases hend with ⟨-, rfl⟩ | ⟨-, rfl⟩
  · exact hset.of_spaces rfl
  · exact hset.of_spaces rfl

theorem LayoutOk.addmem (h : LayoutOk s) {m : Memmap} (hne : m.paddr < m.stop)
    (hb : m.stop < 2 ^ 64) (hd : ∀ y ∈ s.maps v, y.stop ≤ m.paddr ∨ m.stop ≤ y.paddr) :
    LayoutOk (s.addmem v m) :=
  (h.setMaps (mapsOk_insert (h.maps v) hne hb hd)).of_spaces rfl

theorem LayoutOk.mmap {args : MmapArgs} {result : Except Int ℕ} (h : LayoutOk s)
    (hfit : s.mmapBase v args + roundUp args.len < 2 ^ 64)
    (hop : ¬ MapsFixed (.mmap env v args result)) (hr : s.doMmap env v args = some (result, s')) :
    LayoutOk s' := by
  rcases doMmap_cases hr with ⟨_, _, rfl⟩ |
    ⟨hlen, p, host, hm, ⟨hfix, rfl, -⟩ | ⟨hfix, base, rfl, ht⟩⟩
  · exact h
  · exact absurd hfix hop
  · have h₀ : LayoutOk (s.setHost host) := h.of_spaces rfl
    obtain ⟨rfl, rfl, hbelow⟩ := mapTail_place (h₀.maps v) hfix hfit ht
    have hne : s.mmapBase v args < s.mmapBase v args + roundUp args.len := by omega
    have hins := mapsOk_insert (h₀.maps v) (m := args.segment (s.mmapBase v args) p) hne hfit
      fun y hy => .inl (hbelow y hy)
    exact LayoutOk.of_spaces (h₀.setMaps hins) rfl

theorem LayoutOk.addSpace (h : LayoutOk s) (hml : MapsOk ml) : LayoutOk (s.addSpace ml) := by
  intro σ
  change MapsOk (update s.spaces s.nextSpace ml σ)
  by_cases hσ : σ = s.nextSpace
  · rw [hσ, update_self]
    exact hml
  · rw [update_of_ne hσ]
    exact h σ

theorem LayoutOk.clone (h : LayoutOk s) (args : CloneArgs) : LayoutOk (s.cloneSpace v args) := by
  by_cases ha : args.shareVm = true
  · rw [State.cloneSpace, if_pos ha]
    exact h.of_spaces rfl
  · obtain ⟨heap, parent, -, -, -, hparent, hs'⟩ := cloneSpace_eq (a := args) (h.maps v) ha
    rw [hs']
    have hset : LayoutOk (s.setMaps v parent) := h.setMaps hparent
    exact (hset.addSpace (mapsOk_of_rows (row_forked parent) hparent)).of_spaces rfl

theorem LayoutOk.stop (h : LayoutOk s) : LayoutOk (s.dropSpace v) := by
  have hadd : LayoutOk (s.addSpace []) := h.addSpace MapsOk.nil
  unfold State.dropSpace
  dsimp only
  split_ifs
  · exact hadd.of_spaces rfl
  · refine LayoutOk.release ?_ _
    intro σ
    by_cases hσ : σ = (s.vms v).space
    · simp [hσ, MapsOk.nil]
    · dsimp only
      rw [update_of_ne hσ]
      exact hadd σ

theorem LayoutOk.punch {args : MmapArgs} (h : LayoutOk s) (hlen : roundUp args.len ≠ 0)
    (hfit : args.addr + roundUp args.len < 2 ^ 64) : LayoutOk (punch s v args) := by
  have hlt : args.addr < args.addr + roundUp args.len := by omega
  have hcarved := carved_punchHole hlt s.heap (h.maps v)
  unfold Layout.punch
  rw [uadd_eq hfit]
  generalize punchHole args.addr (args.addr + roundUp args.len) s.heap (s.maps v) = r at hcarved ⊢
  obtain ⟨heap, kept, dropped⟩ := r
  have hset : LayoutOk ((s.setHeap heap).setMaps v kept) :=
    LayoutOk.setMaps (h.of_spaces rfl) (hcarved.mapsOk (h.maps v))
  exact (hset.release dropped).of_spaces rfl

theorem mapsOk_buildMaps (host : Host) {segs : List BootSeg} (h : BootOk segs) :
    MapsOk (buildMaps host segs).2 := by
  suffices key : ∀ (done rest : List BootSeg) (q : Host × List Memmap), done ++ rest = segs →
      MapsOk q.2 → (∀ m ∈ q.2, ∃ b ∈ done, m.paddr = b.paddr ∧ m.stop = b.stop) →
      MapsOk (rest.foldl (fun q b =>
        let (p, h) := q.1.mmap b.size (protRead ||| protWrite) b.init
        (h, Segments.insertBefore Memmap.paddr q.2 (b.segment p))) q).2 from
    key [] segs (host, []) rfl MapsOk.nil (by simp)
  intro done rest
  induction rest generalizing done with
  | nil => exact fun q _ hq _ => hq
  | cons b rest ih =>
    intro q he hq hin
    have hb : b ∈ segs := by simp [← he]
    have hpair := h.disjoint
    rw [← he] at hpair
    have hdis : ∀ b' ∈ done, b'.stop ≤ b.paddr ∨ b.stop ≤ b'.paddr := fun b' hb' =>
      (List.pairwise_append.mp hpair).2.2 b' hb' b (by simp)
    have hne : b.paddr < b.stop := by
      have := h.nonempty b hb
      unfold BootSeg.stop
      omega
    have hins := mapsOk_insert hq (m := b.segment (q.1.mmap b.size (protRead ||| protWrite)
      b.init).1) hne (h.bound b hb) fun y hy => by
        obtain ⟨b', hb', hp, hs⟩ := hin y hy
        rw [hp, hs]
        exact hdis b' hb'
    refine ih (done ++ [b]) _ (by simpa using he) hins fun m hm => ?_
    rcases Segments.mem_insertBefore.mp hm with rfl | hm
    · exact ⟨b, by simp, rfl, rfl⟩
    · obtain ⟨b', hb', hbb⟩ := hin m hm
      exact ⟨b', by simp [hb'], hbb⟩

theorem LayoutOk.exec (h : LayoutOk s) {segs : List BootSeg} (hb : BootOk segs) :
    LayoutOk (execSpace s v segs) := by
  have hml := mapsOk_buildMaps s.host hb
  unfold execSpace
  generalize buildMaps s.host segs = r at hml ⊢
  obtain ⟨host, ml⟩ := r
  have h₀ : LayoutOk (s.setHost host) := h.of_spaces rfl
  dsimp only
  split_ifs
  · exact (h₀.addSpace hml).of_spaces rfl
  · exact ((h₀.setMaps hml).release _).of_spaces rfl

end

/-! ## Every run -/

structure Kept (t : Sys) : Prop where
  layout : LayoutOk t.s
  pending : ∀ v args p, t.inMmap v = some (args, p) → roundUp args.len ≠ 0

theorem Kept.step {t t' : Sys} {a : Act} (h : Kept t) (hs : SysStep t a t') (hok : ActOk t a) :
    Kept t' := by
  cases hs with
  | sys hstep hidle hop =>
    refine ⟨?_, h.pending⟩
    cases hstep with
    | read hv ha => exact h.layout.mmu _ _
    | write hv ha => exact h.layout.storeBytes _ _ _
    | mmap hv hr => exact h.layout.mmap hok hop hr
    | munmap hv => exact h.layout.munmap _
    | mprotect hv hr => exact h.layout.mprotect hok.1 hok.2 hr
    | clone hv => exact h.layout.clone _
    | stop hv => exact h.layout.stop
  | @punch v args p host hv hidle hfix hlen halign hm =>
    refine ⟨LayoutOk.punch (h.layout.of_spaces rfl) hlen hok, fun u args' p' hu => ?_⟩
    dsimp only at hu
    by_cases he : u = v
    · rw [he, update_self] at hu
      cases hu
      exact hlen
    · rw [update_of_ne he] at hu
      exact h.pending u args' p' hu
  | @insert v args p hin =>
    obtain ⟨hfit, hfree⟩ := hok args p hin
    have hlen := h.pending v args p hin
    refine ⟨LayoutOk.of_spaces (h.layout.addmem (m := args.segment args.addr p) ?_ hfit hfree) rfl,
      fun u args' p' hu => ?_⟩
    · change args.addr < args.addr + roundUp args.len
      omega
    · dsimp only at hu
      by_cases he : u = v
      · rw [he, update_self] at hu
        cases hu
      · rw [update_of_ne he] at hu
        exact h.pending u args' p' hu
  | @exec v segs bs hv hidle hload => exact ⟨h.layout.exec (hok bs hload), h.pending⟩

theorem kept_start : Kept Sys.start :=
  ⟨fun _ => MapsOk.nil, fun _ _ _ h => nomatch h⟩

/-- In every run, whatever the interleaving of its threads, in which each step meets the
condition, every container is in order. -/
theorem layoutOk_of_run {l : List Act} {t : Sys}
    (h : Run (fun t a t' => SysStep t a t' ∧ ActOk t a) Sys.start l t) : LayoutOk t.s :=
  (h.invariant kept_start fun _ _ _ hi hs => hi.step hs.1 hs.2).layout

section Example

instance (ml : List Memmap) : Decidable (MapsOk ml) :=
  decidable_of_iff ((∀ m ∈ ml, m.paddr < m.stop ∧ m.stop < 2 ^ 64) ∧
      ml.Pairwise fun x y => x.stop ≤ y.paddr)
    ⟨fun h => ⟨⟨fun m hm => (h.1 m hm).1, h.2⟩, fun m hm => (h.1 m hm).2⟩,
      fun h => ⟨fun m hm => ⟨h.paddr_lt hm, h.bound m hm⟩, h.sorted.ordered⟩⟩

/-- Two writable pages at `0x1000`. -/
def twoPagesAt : LoadSeg := ⟨0x1000, 0x2000, pfR ||| pfW, fun _ => 0⟩

def afterExec : Sys := ⟨execSpace State.empty 0 (freshSegs [twoPagesAt.pages]), fun _ => none⟩

theorem exec_afterExec : SysStep Sys.start (.exec 0 [twoPagesAt]) afterExec :=
  .exec ⟨by decide, by decide⟩ rfl rfl

theorem bootOk_afterExec : BootOk (freshSegs [twoPagesAt.pages]) := by
  have hsegs : freshSegs [twoPagesAt.pages] = [twoPagesAt.pages, stackSeg] := rfl
  rw [hsegs]
  refine ⟨?_, ?_, ?_⟩
  · simp only [List.forall_mem_cons, List.not_mem_nil, false_implies, implies_true, and_true]
    decide
  · simp only [List.forall_mem_cons, List.not_mem_nil, false_implies, implies_true, and_true]
    decide
  · rw [List.pairwise_pair]
    decide

/-- The state after `do_mprotect(0x2000, 0, PROT_READ)`. -/
def afterEmpty : State :=
  (afterExec.s.doMprotect HostEnv.good 8 0 0x2000 0 protRead).elim State.empty Prod.snd

/-- A second thread on the address space. -/
def afterThread : Sys := ⟨afterExec.s.cloneSpace 0 threadArgs, fun _ => none⟩

/-- A fixed mapping of one page. -/
def fixedPage : MmapArgs := ⟨0x1000, 0x1000, protRead, mapAnonymous ||| mapFixed, true, fun _ => 0⟩

/-- The host pages for the mapping. -/
def fixedPages (t : Sys) : HostPtr × Host :=
  t.s.host.mmap (roundUp fixedPage.len) fixedPage.prot fixedPage.init

/-- The thread `v` has punched its hole. -/
def afterPunch (t : Sys) (v : ℕ) : Sys :=
  ⟨punch (t.s.setHost (fixedPages t).2) v fixedPage,
    update t.inMmap v (some (fixedPage, (fixedPages t).1))⟩

theorem step_afterPunch {t : Sys} {v : ℕ} (hv : t.s.Runs v) (hidle : t.inMmap v = none) :
    SysStep t (.punch v fixedPage) (afterPunch t v) :=
  .punch hv hidle (by decide) (by decide) (by decide) rfl

/-- The thread `v` has inserted its segment. -/
def afterInsert (t : Sys) (v : ℕ) (p : HostPtr) : Sys :=
  ⟨insert t.s v fixedPage p, update t.inMmap v none⟩

theorem step_afterThread : SysStep afterExec (.sys (.clone 0 threadArgs 1)) afterThread :=
  .sys (.clone (s := afterExec.s) ⟨by decide, by decide⟩) rfl id

def onePunched : Sys := afterPunch afterThread 0

theorem step_onePunched : SysStep afterThread (.punch 0 fixedPage) onePunched :=
  step_afterPunch ⟨by decide, by decide⟩ rfl

/-- One of two threads maps the range. -/
theorem layoutOk_afterInsert :
    LayoutOk (afterInsert onePunched 0 (fixedPages afterThread).1).s := by
  refine layoutOk_of_run (l := [.exec 0 [twoPagesAt], .sys (.clone 0 threadArgs 1),
      .punch 0 fixedPage, .insert 0])
    (.cons ⟨exec_afterExec, ?_⟩ (.cons ⟨step_afterThread, trivial⟩
      (.cons ⟨step_onePunched, (by decide : 0x1000 + roundUp 0x1000 < 2 ^ 64)⟩
        (.single ⟨.insert rfl, ?_⟩))))
  · intro bs hbs
    obtain rfl := Option.some.inj hbs
    exact bootOk_afterExec
  · intro args p hin
    cases hin
    exact ⟨by decide, by decide +kernel⟩

def bothPunched : Sys := afterPunch onePunched 1

def bothInserted : Sys :=
  afterInsert (afterInsert bothPunched 0 (fixedPages afterThread).1) 1 (fixedPages onePunched).1

/-- An empty protected range leaves an empty segment, two threads that map the same fixed range
leave two segments there, and two `PT_LOAD` segments in one page are both mapped. -/
theorem layout_breaks :
    (∃ l t, Run SysStep Sys.start l t ∧ ∃ m ∈ t.s.maps 0, m.size = 0) ∧
    (∃ t, Run SysStep Sys.start [.exec 0 [twoPagesAt], .sys (.clone 0 threadArgs 1),
      .punch 0 fixedPage, .punch 1 fixedPage, .insert 0, .insert 1] t ∧ ¬ LayoutOk t.s) ∧
    (∃ segs t, Run SysStep Sys.start [.exec 0 segs] t ∧ ¬ LayoutOk t.s) := by
  have hexec : Run SysStep Sys.start [.exec 0 [twoPagesAt]] afterExec := Run.single exec_afterExec
  refine ⟨?_, ?_, ?_⟩
  · have hprot : afterExec.s.doMprotect HostEnv.good 8 0 0x2000 0 protRead =
        some (0, afterEmpty) := rfl
    exact ⟨_, ⟨afterEmpty, fun _ => none⟩,
      hexec.snoc (.sys (.mprotect ⟨by decide, by decide⟩ hprot) rfl id), by decide +kernel⟩
  · have hboth := step_afterPunch (t := onePunched) (v := 1) ⟨by decide +kernel, by decide +kernel⟩
      rfl
    refine ⟨bothInserted, ((((hexec.snoc step_afterThread).snoc step_onePunched).snoc hboth).snoc
      (.insert rfl)).snoc (.insert rfl), fun h => ?_⟩
    exact absurd (h 0) (by decide +kernel)
  · refine ⟨[⟨0x1000, 0x800, pfR, fun _ => 0⟩, ⟨0x1800, 0x800, pfR, fun _ => 0⟩], _,
      Run.single (.exec ⟨by decide, by decide⟩ rfl rfl), fun h => ?_⟩
    exact absurd (h 0) (by decide +kernel)

end Example

end Bpfvm.Layout
