import Bpfvm.Memory.Unmap

/-!
# Shared mappings

A `memmap` does not record whether it was mapped with `MAP_SHARED`: a fork makes every segment
copy-on-write, and so does a protection change that cuts a segment. The next write then moves
the segment to a private copy. A mapping stays shared as long as no write has to copy.

The allocation behind a mapping stands for the mapped object: for `MAP_SHARED` its bytes are
those of the file.
-/
namespace Bpfvm.Memory
open Function Segments State

/-- The container translates `a` to `p`. -/
def Points (ml : List Memmap) (a : ℕ) (p : HostPtr) : Prop := ∃ m ∈ ml, m.Has a ∧ m.ptr a = p

/-- A host whose memory marks one address. -/
def Host.marking (p : HostPtr) : Host :=
  ⟨fun r o => if r = p.region ∧ o = p.off then 1 else 0, fun _ _ => false, fun _ _ => 0, 0⟩

theorem Host.marking_byte (p q : HostPtr) : (Host.marking p).byte q = 1 ↔ q = p := by
  obtain ⟨r, o⟩ := p
  obtain ⟨r', o'⟩ := q
  by_cases h : r' = r ∧ o' = o
  · simp [Host.byte, Host.marking, h]
  · simp only [Host.byte, Host.marking, HostPtr.mk.injEq, h, iff_false]
    decide

variable {ml : List Memmap} {a addr : ℕ} {p : HostPtr} {m : Memmap} {env : HostEnv}
  {prot : U32}

theorem points_iff_holds : Points ml a p ↔ Holds (Host.marking p) ml a 1 := by
  simp only [Points, Holds, Host.marking_byte]

theorem points_iff_view (hml : MapsOk ml) :
    Points ml a p ↔ viewOf (Host.marking p) ml a = some 1 := by
  rw [points_iff_holds, viewOf_eq_some_iff hml]

theorem points_remove {pre post : List Memmap} (hml : MapsOk (pre ++ m :: post)) :
    Points (pre ++ post) a p ↔ Points (pre ++ m :: post) a p ∧ ¬ m.Has a := by
  rw [points_iff_view hml, points_iff_view (hml.sublist (by simp)), viewOf_remove hml,
    FlatMemory.unmap]
  split_ifs with ha
  · simp [show m.Has a from ha]
  · simp [show ¬ m.Has a from ha]

/-- Inserting a segment over another allocation hides what was in its range. -/
theorem points_insert (hml : MapsOk ml) (hins : MapsOk (insertBefore Memmap.paddr ml m))
    (hp : p.region ≠ m.data.region) :
    Points (insertBefore Memmap.paddr ml m) a p ↔ Points ml a p ∧ ¬ m.Has a := by
  rw [points_iff_view hins, points_iff_view hml, viewOf_insert hml hins, FlatMemory.map]
  split_ifs with ha
  · refine iff_of_false ?_ fun h => h.2 ha
    rw [Option.some.injEq, Host.marking_byte]
    rintro rfl
    exact hp rfl
  · simp [show ¬ m.Has a from ha]

theorem points_append {ml' : List Memmap} :
    Points (ml ++ ml') a p ↔ Points ml a p ∨ Points ml' a p := by
  rw [points_iff_holds, points_iff_holds, points_iff_holds, holds_append]

theorem points_cons : Points (m :: ml) a p ↔ (m.Has a ∧ m.ptr a = p) ∨ Points ml a p := by
  simp [Points]

/-- Replacing a segment by one without a pointer into the allocation, if it had none. -/
theorem points_replace {pre post : List Memmap} {m' : Memmap}
    (h : (m'.Has a ∧ m'.ptr a = p) ↔ (m.Has a ∧ m.ptr a = p)) :
    Points (pre ++ m' :: post) a p ↔ Points (pre ++ m :: post) a p := by
  rw [points_append, points_append, points_cons, points_cons, h]

/-- Only one segment contains the address. -/
theorem Points.unique (hml : MapsOk ml) (hm : m ∈ ml) (ha : m.Has a) (h : Points ml a p) :
    m.ptr a = p := by
  obtain ⟨x, hx, hxa, rfl⟩ := h
  rw [hml.eq_of_has hm hx ha hxa]

/-! ## What the operations do to one allocation -/

section
variable {s s' : State} {v r : ℕ}

/-- The operation of `v` neither writes the allocation nor gives a vm a new pointer into it;
`v` keeps its pointers except at the addresses in `gone`. -/
structure Spares (r : ℕ) (s s' : State) (v : ℕ) (gone : ℕ → Prop) : Prop where
  next : s.host.next ≤ s'.host.next
  bytes : s'.host.bytes r = s.host.bytes r
  points : ∀ a p, p.region = r → (Points (s'.maps v) a p ↔ Points (s.maps v) a p ∧ ¬ gone a)

theorem Spares.of_maps (hn : s'.host.next = s.host.next) (hb : s'.host.bytes = s.host.bytes)
    (hm : s'.maps v = s.maps v) : Spares r s s' v fun _ => False :=
  ⟨hn.ge, congrFun hb r, fun _ _ _ => by simp [hm]⟩

theorem mmu_spares (a n : ℕ) : Spares r s (s.mmu v a n).2 v fun _ => False := by
  have hhost := mmu_host s v a n
  exact .of_maps (by rw [hhost]) (by rw [hhost]) (mmu_maps s v a n v)

/-- A write to the allocation does not have to copy: the segment has no control block, or is
its only holder. -/
def Undivided (r : ℕ) (s : State) : Op → Prop
  | .write _ v addr bs _ => ∀ m, findMap (s.maps v) addr bs.length = some m →
      m.data.region = r → ∀ c, m.cowData = some c → s.useCount c = 1
  | _ => True

theorem resolveCow_spares (env : HostEnv) {n : ℕ} (hr : r < s.host.next)
    (hf : findMap (s.maps v) a n = some m)
    (hone : m.data.region = r → ∀ c, m.cowData = some c → s.useCount c = 1) :
    Spares r s (s.resolveCow env v a m).2 v fun _ => False := by
  obtain ⟨pre, post, hml, hstep⟩ := cowStep env hf
  obtain ⟨hnext, hbytes, -, hsome⟩ := Host.copySegment_spec env s.host m
  generalize s.resolveCow env v a m = q at hstep ⊢
  cases hstep with
  | plain hc => exact .of_maps rfl rfl rfl
  | steal hc hcount =>
    refine ⟨le_rfl, rfl, fun x p _ => ?_⟩
    simp only [flushTlb_maps, setMaps_maps, not_false_eq_true, and_true]
    rw [hml]
    exact points_replace Iff.rfl
  | full hc hcopy =>
    rw [hcopy] at hnext hbytes
    exact ⟨hnext, hbytes r hr, fun _ _ _ => by simp⟩
  | @copy c p h hc hmany hcopy =>
    obtain ⟨rfl, -⟩ := hsome p (congrArg Prod.fst hcopy)
    rw [hcopy] at hnext hbytes
    refine ⟨hnext, hbytes r hr, fun x q hq => ?_⟩
    simp only [flushTlb_maps, setMaps_maps, not_false_eq_true, and_true]
    rw [hml]
    refine points_replace (iff_of_false ?_ ?_)
    · rintro ⟨-, rfl⟩
      exact hr.ne' hq
    · rintro ⟨-, rfl⟩
      exact hmany (hone hq c hc)

theorem mmuW_spares (env : HostEnv) {n : ℕ} (hr : r < s.host.next)
    (hone : ∀ m, findMap (s.maps v) a n = some m → m.data.region = r →
      ∀ c, m.cowData = some c → s.useCount c = 1) :
    Spares r s (s.mmuW env v a n).2 v fun _ => False := by
  refine mmuW_keeps (P := (Spares r s · v fun _ => False)) (.of_maps rfl rfl rfl)
    (fun m hf _ => resolveCow_spares env hr hf (hone m hf)) fun s₁ i e hres => ?_
  refine ⟨hres.next, hres.bytes, fun x p hp => ?_⟩
  rw [setTlb_maps]
  exact hres.points x p hp

theorem doMmap_spares {a : MmapArgs} {base : ℕ} (hml : MapsOk (s.maps v))
    (hfit : s.mmapBase v a + roundUp a.len < 2 ^ 64) (hr : r < s.host.next)
    (h : s.doMmap env v a = some (.ok base, s')) :
    Spares r s s' v fun x => base ≤ x ∧ x < base + roundUp a.len := by
  obtain ⟨-, kept, host, hm, hc, hok, hmaps, hbytes', hnext'⟩ := doMmap_maps hml hfit h
  obtain ⟨-, hnext, hbytes, -⟩ := Host.mmap_frame hm
  refine ⟨?_, ?_, fun x q hq => ?_⟩
  · rw [hnext', hnext]
    exact Nat.le_succ _
  · rw [hbytes']
    exact hbytes r hr
  · have hne : q.region ≠ (a.segment base ⟨s.host.next, 0⟩).data.region := hq ▸ hr.ne
    rw [hmaps] at hok ⊢
    rw [points_insert (hc.mapsOk hml) hok hne, points_iff_holds, hc.holds hml, ← points_iff_holds,
      and_assoc]
    exact and_congr_right fun _ => and_iff_left_of_imp fun hx => hx

theorem doMunmap_spares (hw : Wf s) (hv : v < s.nextVm)
    (hf : (s.maps v).find? (fun m => addr == m.paddr) = some m) :
    Spares r s (s.doMunmap v addr).2 v m.Has := by
  obtain ⟨pre, post, hml, -, hunmap, hmaps⟩ := doMunmap_some hf
  obtain ⟨-, -, hbytes, hnext⟩ := release_frame (s.setMaps v (pre ++ post)) m
  refine ⟨?_, ?_, fun x q _ => ?_⟩
  · rw [hunmap]
    exact hnext.ge
  · rw [hunmap]
    exact congrFun hbytes r
  · rw [hmaps, points_remove (hml ▸ hw.mapsOk hv), ← hml]

theorem doMprotect_spares {len fuel : ℕ} {code : Int} (hw : Wf s) (hv : v < s.nextVm)
    (hlen : 0 < len) (hfit : addr + len < 2 ^ 64)
    (h : s.doMprotect env fuel v addr len prot = some (code, s')) :
    Spares r s s' v fun _ => False := by
  obtain ⟨heap, ml, hrep, hend⟩ := doMprotect_reprot (hw.mapsOk hv) hlen hfit h
  have hmaps : s'.maps v = ml ∧ s'.host = heap.host := by
    rcases hend with ⟨-, rfl⟩ | ⟨-, rfl⟩
    · exact ⟨setMaps_maps _ v ml, rfl⟩
    · exact ⟨by rw [flushTlb_maps, setMaps_maps], rfl⟩
  refine ⟨?_, ?_, fun x p _ => ?_⟩
  · rw [hmaps.2]
    exact hrep.next.ge
  · rw [hmaps.2]
    exact congrFun hrep.bytes r
  · rw [hmaps.1, points_iff_holds, hrep.holds (hw.mapsOk hv), ← points_iff_holds]
    simp

theorem points_of_rows {ml ml' : List Memmap} (hr : ml'.map Memmap.row = ml.map Memmap.row) (a : ℕ)
    (p : HostPtr) : Points ml' a p ↔ Points ml a p := by
  rw [points_iff_holds, holds_of_rows hr, ← points_iff_holds]

theorem dropSpace_host : (s.dropSpace v).host.bytes = s.host.bytes ∧
    (s.dropSpace v).host.next = s.host.next := by
  unfold State.dropSpace
  dsimp only
  split_ifs
  · exact ⟨rfl, rfl⟩
  · obtain ⟨-, -, hbytes, hnext⟩ := foldl_release_frame _ _
    exact ⟨hbytes, hnext⟩

end

/-! ## The mapped object -/

/-- A shared mapping as its holders see it: the addresses where each vm still has it, and the
bytes of the object behind it. -/
structure Mapping where
  held : ℕ → ℕ → Bool
  obj : ℕ → Byte

namespace Mapping

/-- `v` gives up the addresses in `gone`. -/
def drop (g : Mapping) (v : ℕ) (gone : ℕ → Bool) : Mapping :=
  { g with held := update g.held v fun a => g.held v a && !gone a }

/-- A write of `bs` at `addr` to the mapping that starts at `base`. -/
def write (g : Mapping) (base v addr : ℕ) (bs : List Byte) : Mapping :=
  { g with obj := fun i =>
      if g.held v (base + i) = true ∧ addr ≤ base + i ∧ base + i < addr + bs.length
      then bs.getD (base + i - addr) 0 else g.obj i }

/-- What an operation is to the mapping. -/
def next (base : ℕ) (g : Mapping) : Op → Mapping
  | .write _ v addr bs true => g.write base v addr bs
  | .mmap _ v args (.ok b) => g.drop v fun a => decide (b ≤ a ∧ a < b + roundUp args.len)
  | .munmap v _ (some m) => g.drop v fun a => decide (m.Has a)
  | .clone v _ child => { g with held := update g.held child (g.held v) }
  | .stop v => g.drop v fun _ => true
  | _ => g

/-- The mapping right after `do_mmap`. -/
def fresh (v base len : ℕ) (init : ℕ → Byte) : Mapping :=
  ⟨fun u a => decide (u = v ∧ base ≤ a ∧ a < base + len), init⟩

end Mapping

/-- The holders' pointers and the bytes behind them are those of the object. -/
structure Shares (r base : ℕ) (s : State) (g : Mapping) : Prop where
  alloc : r < s.host.next
  bytes : s.host.bytes r = g.obj
  points : ∀ u < s.nextVm, ∀ a p, p.region = r →
    (Points (s.maps u) a p ↔ g.held u a = true ∧ p.off = a - base)
  base_le : ∀ u < s.nextVm, ∀ a, g.held u a = true → base ≤ a

section
variable {s s' : State} {v r base : ℕ} {g : Mapping} {ref : Ref}

/-- An operation of `v` that spares the object. -/
theorem Shares.spares (h : Shares r base s g) {gone : ℕ → Bool}
    (hsp : Spares r s s' v fun a => gone a = true) (hn : s'.nextVm = s.nextVm)
    (hother : ∀ u < s.nextVm, u ≠ v → s'.maps u = s.maps u) :
    Shares r base s' (g.drop v gone) := by
  have hdrop (u a : ℕ) : (g.drop v gone).held u a = true ↔
      g.held u a = true ∧ (u = v → ¬ gone a = true) := by
    by_cases hu : u = v
    · subst hu
      simp [Mapping.drop]
    · simp [Mapping.drop, hu]
  refine ⟨h.alloc.trans_le hsp.next, hsp.bytes.trans h.bytes, ?_, ?_⟩
  · intro u hu a p hp
    rw [hn] at hu
    rw [hdrop]
    by_cases he : u = v
    · subst he
      rw [hsp.points a p hp, h.points u hu a p hp]
      simp only [forall_const]
      tauto
    · rw [hother u hu he, h.points u hu a p hp]
      simp [he]
  · intro u hu a ha
    exact h.base_le u (hn ▸ hu) a ((hdrop u a).mp ha).1

theorem Mapping.drop_false (g : Mapping) (v : ℕ) : g.drop v (fun _ => false) = g := by
  simp [Mapping.drop]

/-- An operation of `v` that takes nothing from the mapping. -/
theorem Shares.keeps (h : Shares r base s g) (hsp : Spares r s s' v fun _ => False)
    (hn : s'.nextVm = s.nextVm) (hother : ∀ u < s.nextVm, u ≠ v → s'.maps u = s.maps u) :
    Shares r base s' g := by
  rw [← g.drop_false v]
  exact h.spares ⟨hsp.next, hsp.bytes, fun a p hp => by simpa using hsp.points a p hp⟩ hn hother

/-- Single-threaded processes: nobody else uses the container. -/
theorem Separate.other (h : Separate s) (hv : v < s.nextVm) {touched : Memmap → Prop}
    (hed : Edits s s' v touched) : ∀ u < s.nextVm, u ≠ v → s'.maps u = s.maps u :=
  fun u hu hne => hed.maps_of_ne (h u v hu hv hne)

theorem Shares.store (h : Shares r base s g) (hw : Wf s) (hv : v < s.nextVm) {bs : List Byte}
    (hn : 0 < bs.length) (hm : m ∈ s.maps v) (hlo : m.paddr ≤ addr)
    (hhi : addr + bs.length ≤ m.stop) :
    Shares r base (s.setHost (s.host.store (m.ptr addr) bs)) (g.write base v addr bs) := by
  refine ⟨h.alloc, ?_, h.points, h.base_le⟩
  have hhas (k : ℕ) (hk : k < bs.length) : m.Has (addr + k) := ⟨by omega, by omega⟩
  have hhas₀ : m.Has addr := hhas 0 hn
  funext o
  rw [Mapping.write]
  by_cases hr : m.data.region = r
  · -- the whole range is held, since the segment points into the allocation
    have hheld (k : ℕ) (hk : k < bs.length) : g.held v (addr + k) = true ∧
        m.data.off + (addr + k - m.paddr) = addr + k - base :=
      (h.points v hv (addr + k) (m.ptr (addr + k)) hr).mp ⟨m, hm, hhas k hk, rfl⟩
    have hbase := h.base_le v hv _ (hheld 0 hn).1
    have hoff := (hheld 0 hn).2
    by_cases ho : addr ≤ base + o ∧ base + o < addr + bs.length
    · have hk := hheld (base + o - addr) (by omega)
      rw [show addr + (base + o - addr) = base + o by omega] at hk
      have hin : r = (m.ptr addr).region ∧ (m.ptr addr).off ≤ o ∧
          o < (m.ptr addr).off + bs.length := by
        refine ⟨hr.symm, ?_, ?_⟩ <;> rw [Memmap.ptr_off] <;> omega
      simp only [setHost_host, Host.store, if_pos hin, if_pos (And.intro hk.1 ho)]
      congr 1
      rw [Memmap.ptr_off]
      omega
    · have hout : ¬ (r = (m.ptr addr).region ∧ (m.ptr addr).off ≤ o ∧
          o < (m.ptr addr).off + bs.length) := by
        rintro ⟨-, h₁, h₂⟩
        rw [Memmap.ptr_off] at h₁ h₂
        omega
      simp only [setHost_host, Host.store, if_neg hout]
      rw [if_neg fun hc => ho hc.2, h.bytes]
  · have hout : ¬ (r = (m.ptr addr).region ∧ (m.ptr addr).off ≤ o ∧
        o < (m.ptr addr).off + bs.length) := fun hc => hr hc.1.symm
    simp only [setHost_host, Host.store, if_neg hout]
    rw [if_neg, h.bytes]
    rintro ⟨hheld, h₁, h₂⟩
    have hp := (h.points v hv (base + o) ⟨r, base + o - base⟩ rfl).mpr ⟨hheld, rfl⟩
    have hptr := hp.unique (hw.mapsOk hv) hm ⟨by omega, by omega⟩
    exact hr (congrArg HostPtr.region hptr)

/-! ## Runs -/

/-- The operations of single-threaded processes, with protection changes that return `0`. -/
def ProcessOp : Op → Prop
  | .mprotect _ _ _ _ _ result => result = 0
  | .clone _ args _ => args.shareVm = false ∧ args.isThread = false
  | _ => True

/-- The refinement of private memories does not look at `MAP_SHARED`. -/
theorem Refines.processStep {op : Op} (h : Refines s ref) (hs : Step s op s')
    (hp : ProcessOp op) (hfit : Fits s op) : Refines s' (Ref.next ref op) := by
  cases hs with
  | mmap hv hr => exact h.mmap hv.1 hfit hr
  | read hv ha => exact h.step (.read hv ha) trivial trivial
  | write hv ha => exact h.step (.write hv ha) trivial trivial
  | munmap hv => exact h.step (.munmap hv) trivial trivial
  | mprotect hv hr => exact h.step (.mprotect hv hr) hp hfit
  | clone hv => exact h.step (.clone hv) hp trivial
  | stop hv => exact h.step (.stop hv) trivial trivial

theorem Shares.writes (h : Shares r base s g) (hrf : Refines s ref) {bs : List Byte}
    (hv : s.Runs v) (ha : AccessOk addr bs.length)
    (hun : Undivided r s (.write env v addr bs (s.storeBytes env v addr bs).1)) :
    Shares r base (s.storeBytes env v addr bs).2
      (g.next base (.write env v addr bs (s.storeBytes env v addr bs).1)) := by
  have hready := mmuW_spec env hrf.wf hv.1 (hrf.coherent v hv) ha.1 ha.2.1 ha.2.2
  have hsp := mmuW_spares env h.alloc hun
  have hother := hrf.separate.other hv.1 hready.edits
  have hkeep := h.keeps hsp hready.edits.nextVm hother
  unfold State.storeBytes
  generalize s.mmuW env v addr bs.length = q at hready hkeep ⊢
  obtain ⟨_ | p, s₁⟩ := q
  · exact hkeep
  · obtain ⟨m, hm, -, -, hlo, hhi, rfl⟩ := hready.hit p rfl
    exact hkeep.store hready.wf (hready.edits.nextVm ▸ hv.1) ha.2.1 hm hlo hhi

theorem Shares.forks (h : Shares r base s g) (hrf : Refines s ref) {args : CloneArgs}
    (hv : v < s.nextVm) (ha : args.shareVm = false) :
    Shares r base (s.cloneSpace v args) (g.next base (.clone v args s.nextVm)) := by
  have hf := cloneSpace_fork hrf.wf hv ha
  have hold : ∀ u < s.nextVm, ∀ a p,
      Points ((s.cloneSpace v args).maps u) a p ↔ Points (s.maps u) a p := by
    intro u hu a p
    by_cases he : u = v
    · rw [he]
      exact points_of_rows hf.rows a p
    · rw [hf.other u hu (hrf.separate u v hu hv he)]
  have hlt {u : ℕ} (hu : u < (s.cloneSpace v args).nextVm) (hne : u ≠ s.nextVm) :
      u < s.nextVm := by
    rw [hf.nextVm] at hu
    omega
  have hnew : (g.next base (.clone v args s.nextVm)).held s.nextVm = g.held v :=
    update_self _ _ _
  have hsame {u : ℕ} (hne : u ≠ s.nextVm) :
      (g.next base (.clone v args s.nextVm)).held u = g.held u := update_of_ne hne _ _
  refine ⟨by rw [hf.host]; exact h.alloc, by rw [hf.host]; exact h.bytes, ?_, ?_⟩
  · intro u hu a p hp
    by_cases he : u = s.nextVm
    · rw [he, points_of_rows hf.child_rows, h.points v hv a p hp, hnew]
    · rw [hold u (hlt hu he), h.points u (hlt hu he) a p hp, hsame he]
  · intro u hu a hheld
    by_cases he : u = s.nextVm
    · rw [he, hnew] at hheld
      exact h.base_le v hv a hheld
    · rw [hsame he] at hheld
      exact h.base_le u (hlt hu he) a hheld

theorem Shares.step {op : Op} (h : Shares r base s g) (hrf : Refines s ref) (hs : Step s op s')
    (hp : ProcessOp op) (hfit : Fits s op) (hun : Undivided r s op) :
    Shares r base s' (g.next base op) := by
  cases hs with
  | @read v addr n hv ha =>
    have hnext : (s.mmu v addr n).2.nextVm = s.nextVm :=
      mmu_keeps (P := (·.nextVm = s.nextVm)) rfl fun _ _ => rfl
    exact h.keeps (mmu_spares addr n) hnext fun u _ _ => mmu_maps s v addr n u
  | write hv ha => exact h.writes hrf hv ha hun
  | @mmap _ env v args result hv hr =>
    cases result with
    | error e =>
      rw [doMmap_error hr]
      exact h
    | ok b =>
      have hch := doMmap_spec hrf.wf hv.1 hfit hr
      have hsp := doMmap_spares (hrf.wf.mapsOk hv.1) hfit h.alloc hr
      refine h.spares (v := v) ⟨hsp.next, hsp.bytes, ?_⟩ hch.edits.nextVm
        (hrf.separate.other hv.1 hch.edits)
      intro a p hp
      rw [hsp.points a p hp]
      simp
  | @munmap v addr hv =>
    cases hf : (s.maps v).find? (fun m => addr == m.paddr) with
    | none =>
      rw [doMunmap_none hf]
      exact h
    | some m =>
      have hch := doMunmap_spec hrf.wf hv.1 hf
      have hsp := doMunmap_spares (r := r) hrf.wf hv.1 hf
      refine h.spares (v := v) ⟨hsp.next, hsp.bytes, ?_⟩ hch.edits.nextVm
        (hrf.separate.other hv.1 hch.edits)
      intro a p hp
      rw [hsp.points a p hp]
      simp
  | @mprotect _ env v addr len fuel prot result hv hr =>
    have hzero : result = 0 := hp
    subst hzero
    have hch := doMprotect_zero hrf.wf hv.1 hfit.1 hfit.2 hr
    exact h.keeps (doMprotect_spares hrf.wf hv.1 hfit.1 hfit.2 hr) hch.edits.nextVm
      (hrf.separate.other hv.1 hch.edits)
  | clone hv => exact h.forks hrf hv.1 hp.1
  | @stop v hv =>
    have hl := dropSpace_spec hrf.wf hv.1
    obtain ⟨hbytes, hnext⟩ := dropSpace_host (s := s) (v := v)
    refine h.spares ⟨hnext.ge, congrFun hbytes r, fun a p _ => ?_⟩ hl.nextVm
      fun u hu hne => hl.maps u hu hne
    rw [hl.maps_self]
    simp [Points]

theorem mmap_bytes_self {h h' : Host} {len : ℕ} {init : ℕ → Byte}
    (hm : h.mmap len prot init = (p, h')) : h'.bytes h.next = init := by
  rw [← show _ = h' from congrArg Prod.snd hm]
  exact update_self _ _ _

theorem shares_fresh {args : MmapArgs} (hrf : Refines s ref) (hv : v < s.nextVm)
    (hfit : s.mmapBase v args + roundUp args.len < 2 ^ 64)
    (h : s.doMmap env v args = some (.ok base, s')) :
    Shares s.host.next base s' (.fresh v base (roundUp args.len) args.init) := by
  have hch := doMmap_spec hrf.wf hv hfit h
  have hml := hrf.wf.mapsOk hv
  obtain ⟨-, kept, host, hm, hc, -, hmaps, hbytes, hnext⟩ := doMmap_maps hml hfit h
  have hlt := (Host.mmap_frame hm).2.1
  have hfresh {u : ℕ} (hu : u < s.nextVm) {a : ℕ} {p : HostPtr} (hp : p.region = s.host.next) :
      ¬ Points (s.maps u) a p := by
    rintro ⟨m, hm, -, rfl⟩
    exact (hrf.wf.region_lt hu m hm).ne hp
  refine ⟨by omega, by rw [hbytes]; exact mmap_bytes_self hm, ?_, ?_⟩
  · intro u hu a p hp
    rw [hch.edits.nextVm] at hu
    by_cases he : u = v
    · subst he
      have hseg : Points (s'.maps u) a p ↔ (args.segment base ⟨s.host.next, 0⟩).Has a ∧
          (args.segment base ⟨s.host.next, 0⟩).ptr a = p := by
        rw [hmaps]
        constructor
        · rintro ⟨m, hm, hpt⟩
          rcases mem_insertBefore.mp hm with rfl | hm
          · exact hpt
          · have hkept : Points kept a p := ⟨m, hm, hpt⟩
            rw [points_iff_holds, hc.holds hml, ← points_iff_holds] at hkept
            exact absurd hkept.1 (hfresh hu hp)
        · exact fun hpt => ⟨_, mem_insertBefore.mpr (Or.inl rfl), hpt⟩
      rw [hseg]
      obtain ⟨pr, po⟩ := p
      obtain rfl : pr = s.host.next := hp
      have hptr : (args.segment base ⟨s.host.next, 0⟩).ptr a = ⟨s.host.next, a - base⟩ := by
        simp [Memmap.ptr, MmapArgs.segment, HostPtr.add]
      rw [hptr, HostPtr.mk.injEq]
      constructor
      · rintro ⟨ha, -, rfl⟩
        exact ⟨decide_eq_true ⟨rfl, ha⟩, rfl⟩
      · rintro ⟨hheld, rfl⟩
        exact ⟨(of_decide_eq_true hheld).2, rfl, rfl⟩
    · rw [hrf.separate.other hv hch.edits u hu he]
      exact iff_of_false (hfresh hu hp) (by simp [Mapping.fresh, he])
  · intro u _ a hheld
    simp only [Mapping.fresh, decide_eq_true_eq] at hheld
    exact hheld.2.1

/-- Every holder reads the bytes of the object where it still has the mapping, from host pages
that are mapped, and the object itself has these bytes. -/
structure StaysShared (r base : ℕ) (s : State) (g : Mapping) : Prop where
  object : s.host.bytes r = g.obj
  reads : ∀ v, s.Runs v → ∀ a, g.held v a = true → ∃ p, (s.mmu v a 1).1 = some p ∧
    s.host.mapped p.region p.off = true ∧ s.host.byte p = g.obj (a - base)

theorem Shares.staysShared (h : Shares r base s g) (hrf : Refines s ref) :
    StaysShared r base s g := by
  refine ⟨h.bytes, ?_⟩
  intro v hv a hheld
  have hml := hrf.wf.mapsOk hv.1
  obtain ⟨m, hm, hma, hptr⟩ := (h.points v hv.1 a ⟨r, a - base⟩ rfl).mpr ⟨hheld, rfl⟩
  have hlt : a < 2 ^ 64 := hma.2.trans (hml.bound m hm)
  have hf := (findMap_eq_some_iff hml hlt Nat.one_pos (by omega)).mpr ⟨hm, hma.1, hma.2⟩
  refine ⟨⟨r, a - base⟩, ?_, ?_, congrFun h.bytes _⟩
  · rw [mmu_fst hml (hrf.coherent v hv) hlt Nat.one_pos (by omega), lookup, hf]
    exact congrArg some hptr
  · have hok := (hrf.wf.sharing_front hv.1).ok m (by simp [hm])
    have h₁ := hma.1
    have h₂ := hma.2
    unfold Memmap.stop at h₂
    have hlive := hok.live (a - m.paddr) (by omega)
    rw [← hptr]
    exact hlive

end

/-- The steps of single-threaded processes whose mapped and protected ranges fit. -/
def ProcessStep (s : State) (op : Op) (s' : State) : Prop :=
  Step s op s' ∧ ProcessOp op ∧ Fits s op

theorem refines_of_run {segs : List BootSeg} (hb : BootOk segs) {l : List Op} {s : State}
    (h : Run ProcessStep (State.boot segs) l s) :
    Refines s (l.foldl Ref.next (Ref.boot segs)) :=
  h.simulation (refines_boot hb) fun _ _ _ _ hr hs => hr.processStep hs.1 hs.2.1 hs.2.2

/-- A mapping stays shared in every run in which no write to it has to copy: whatever is
forked, protected, mapped and unmapped, its holders and the object agree. -/
theorem staysShared_of_undivided {segs : List BootSeg} (hb : BootOk segs) {l₀ l : List Op}
    {s₀ s₁ s : State} (h₀ : Run ProcessStep (State.boot segs) l₀ s₀) {env : HostEnv} {v base : ℕ}
    {args : MmapArgs} (hmap : ProcessStep s₀ (.mmap env v args (.ok base)) s₁)
    (hrun : Run (fun s op s' => ProcessStep s op s' ∧ Undivided s₀.host.next s op) s₁ l s) :
    StaysShared s₀.host.next base s
      (l.foldl (Mapping.next base) (.fresh v base (roundUp args.len) args.init)) := by
  have hrf₀ := refines_of_run hb h₀
  have hrf₁ := hrf₀.processStep hmap.1 hmap.2.1 hmap.2.2
  have hfresh : Shares s₀.host.next base s₁ (.fresh v base (roundUp args.len) args.init) := by
    cases hmap.1 with
    | mmap hv hr => exact shares_fresh hrf₀ hv.1 hmap.2.2 hr
  have hstart : (∃ ref, Refines s₁ ref) ∧
      Shares s₀.host.next base s₁ (.fresh v base (roundUp args.len) args.init) :=
    ⟨⟨_, hrf₁⟩, hfresh⟩
  have hstep : ∀ s op s' g, ((∃ ref, Refines s ref) ∧ Shares s₀.host.next base s g) →
      ProcessStep s op s' ∧ Undivided s₀.host.next s op →
      (∃ ref, Refines s' ref) ∧ Shares s₀.host.next base s' (Mapping.next base g op) := by
    rintro s op s' g ⟨⟨ref, hrf⟩, hsh⟩ ⟨⟨hs, hp, hfit⟩, hun⟩
    exact ⟨⟨_, hrf.processStep hs hp hfit⟩, hsh.step hrf hs hp hfit hun⟩
  obtain ⟨⟨ref, hrf⟩, hsh⟩ := hrun.simulation hstart hstep
  exact hsh.staysShared hrf

section Example

/-- `mmap(NULL, 4096, PROT_READ | PROT_WRITE, MAP_SHARED, fd, 0)` of a file of sevens. -/
def shareArgs : MmapArgs := ⟨0, 0x1000, protRead ||| protWrite, mapShared, true, fun _ => 7⟩

/-- A process with the mapping. -/
def mappedState : State :=
  ((State.boot onePair).doMmap HostEnv.good 0 shareArgs).elim (State.boot onePair) Prod.snd

set_option maxRecDepth 20000 in
theorem doMmap_mappedState : (State.boot onePair).doMmap HostEnv.good 0 shareArgs =
    some (.ok 0x3000, mappedState) := rfl

set_option maxRecDepth 20000 in
theorem maps_mappedState : mappedState.maps 0 =
    [⟨0x1000, 0x2000, 6, ⟨0, 0⟩, true, 0x2000, none⟩,
      ⟨0x3000, 0x1000, 6, ⟨1, 0⟩, true, 0x1000, none⟩] := rfl

theorem processStep_mappedState : ProcessStep (State.boot onePair)
    (.mmap HostEnv.good 0 shareArgs (.ok 0x3000)) mappedState :=
  ⟨Step.mmap ⟨by decide, by decide⟩ doMmap_mappedState, trivial,
    show (State.boot onePair).mmapBase 0 shareArgs + roundUp 0x1000 < 2 ^ 64 by decide⟩

/-- The only holder writes and then forks. -/
theorem staysShared_written : StaysShared 1 0x3000
    ((mappedState.storeBytes HostEnv.good 0 0x3000 [9]).2.cloneSpace 0 forkArgs)
    (((Mapping.fresh 0 0x3000 0x1000 fun _ => 7).next 0x3000
      (.write HostEnv.good 0 0x3000 [9] true)).next 0x3000 (.clone 0 forkArgs 1)) := by
  have hwrite : Step mappedState (.write HostEnv.good 0 0x3000 [9] true) _ :=
    Step.write ⟨by decide, by decide⟩ ⟨by decide, by decide, by decide⟩
  have hfork : Step (mappedState.storeBytes HostEnv.good 0 0x3000 [9]).2 (.clone 0 forkArgs 1) _ :=
    Step.clone ⟨by decide, by decide⟩
  refine staysShared_of_undivided bootOk_onePair (Run.nil _) processStep_mappedState
    (Run.cons ⟨⟨hwrite, trivial, trivial⟩, ?_⟩
      (Run.single ⟨⟨hfork, ⟨rfl, rfl⟩, trivial⟩, trivial⟩))
  intro m hm _ c hc
  have hmem := findMap_mem hm
  rw [maps_mappedState] at hmem
  simp only [List.mem_cons, List.not_mem_nil, or_false] at hmem
  rcases hmem with rfl | rfl <;> cases hc

/-- The process forks and the child writes to the mapping: the parent and the file do not
see it. -/
theorem unshared_after_fork : ∃ (segs : List BootSeg) (s₀ s₁ s : State) (env : HostEnv)
    (v base : ℕ) (args : MmapArgs) (l₀ l : List Op), BootOk segs ∧
    Run ProcessStep (State.boot segs) l₀ s₀ ∧ hasFlag args.flags mapShared = true ∧
    ProcessStep s₀ (.mmap env v args (.ok base)) s₁ ∧ Run ProcessStep s₁ l s ∧
    ¬ StaysShared s₀.host.next base s
      (l.foldl (Mapping.next base) (.fresh v base (roundUp args.len) args.init)) := by
  have hfork : Step mappedState (.clone 0 forkArgs _) _ := Step.clone ⟨by decide, by decide⟩
  have hwrite : Step (mappedState.cloneSpace 0 forkArgs) (.write HostEnv.good 1 0x3000 [9] _) _ :=
    Step.write ⟨by decide, by decide⟩ ⟨by decide, by decide, by decide⟩
  refine ⟨onePair, _, mappedState, _, HostEnv.good, 0, 0x3000, shareArgs, [], _, bootOk_onePair,
    Run.nil _, rfl, processStep_mappedState, Run.cons ⟨hfork, ⟨rfl, rfl⟩, trivial⟩
      (Run.single ⟨hwrite, trivial, trivial⟩), ?_⟩
  intro h
  have hobj := congrFun h.object 0
  revert hobj
  decide

end Example

end Bpfvm.Memory
