import Bpfvm.Jit.Execution

/-!
# Whether compiled code is current

Compiled code stands for the instructions that were in memory when it was compiled. Stores, new
mappings, unmapping and protecting leave the caches alone, and `execveat` empties the caches of the
calling vm only in so far as new code is looked up: a live fragment goes on if `pc_` did not move.
Code stays current in the runs that do not touch the bytes of compiled code.
-/
namespace Bpfvm.Jit
open Memory Cpu Bpfvm.Layout Function

/-! ## A new image in memory -/

/-- The container of a new image lies on fresh pages. -/
structure Built (h : Heap) (rest : List Memmap) (q : Host × List Memmap) : Prop where
  sharing : Sharing { h with host := q.1 } (q.2 ++ rest)
  next : h.host.next ≤ q.1.next
  bytes : ∀ r < h.host.next, q.1.bytes r = h.host.bytes r
  mapped : ∀ r < h.host.next, q.1.mapped r = h.host.mapped r

theorem Built.add {h : Heap} {rest : List Memmap} {q : Host × List Memmap} (hq : Built h rest q)
    (b : BootSeg) {p : HostPtr} {host : Host}
    (hr : q.1.mmap b.size (protRead ||| protWrite) b.init = (p, host)) :
    Built h rest (host, Segments.insertBefore Memmap.paddr q.2 (b.segment p)) := by
  obtain ⟨hp, hnext, hbytes, hmapped⟩ := Host.mmap_frame hr
  have hfresh := hq.sharing.fresh (m := b.segment p) b.size (protRead ||| protWrite) b.init hp
    le_rfl rfl rfl
  rw [show q.1.mmap b.size (protRead ||| protWrite) b.init = (p, host) from hr] at hfresh
  have hle := hq.next
  refine ⟨hfresh.perm ?_, by dsimp only; omega, fun r hr => ?_, fun r hr => ?_⟩
  · exact (Segments.insertBefore_perm q.2 (b.segment p)).symm.append_right rest
  · exact (hbytes r (by omega)).trans (hq.bytes r hr)
  · exact (hmapped r (by omega)).trans (hq.mapped r hr)

theorem built_buildMaps {h : Heap} {rest : List Memmap} (hs : Sharing h rest)
    (segs : List BootSeg) : Built h rest (buildMaps h.host segs) := by
  have hstart : Built h rest (h.host, []) := ⟨hs, le_rfl, fun _ _ => rfl, fun _ _ => rfl⟩
  unfold buildMaps
  generalize (h.host, ([] : List Memmap)) = q at hstart
  induction segs generalizing q with
  | nil => exact hstart
  | cons b segs ih => exact ih _ (hstart.add b rfl)

/-- `execSpace` seen from outside: the other vms keep their memory. -/
structure Execed (s s' : State) (v : ℕ) : Prop where
  wf : Wf s'
  coherent : Coherent s'
  runs : ∀ u, s'.Runs u ↔ s.Runs u
  view : ∀ u < s.nextVm, u ≠ v → s'.view u = s.view u

variable {s : State} {v : ℕ} {c : Config}

/-- The vm gets a new container, and its TLB is flushed. -/
theorem execed_flushTlb {s₁ : State} (hc : Coherent s) (hwf : Wf s₁)
    (hnext : s₁.nextVm = s.nextVm) (hrun : ∀ u, (s₁.vms u).running = (s.vms u).running)
    (htlb : ∀ u, u ≠ v → (s₁.vms u).tlb = (s.vms u).tlb)
    (hmaps : ∀ u < s.nextVm, u ≠ v → s₁.maps u = s.maps u)
    (hview : ∀ u < s.nextVm, u ≠ v → s₁.view u = s.view u) : Execed s (s₁.flushTlb v) v := by
  have hruns : ∀ u, (s₁.flushTlb v).Runs u ↔ s.Runs u := fun u => by
    rw [runs_flushTlb, State.Runs, State.Runs, hnext, hrun]
  refine ⟨hwf.flushTlb v, fun u hu => ?_, hruns, fun u hu hne => ?_⟩
  · by_cases hne : u = v
    · rw [hne, State.flushTlb_tlb_self]
      exact tlbOk_zero _
    · have hu' := (hruns u).mp hu
      rw [State.flushTlb_tlb_of_ne _ _ _ hne, State.flushTlb_maps, htlb u hne, hmaps u hu'.1 hne]
      exact hc u hu'
  · rw [view_def, State.flushTlb_maps]
    exact hview u hu hne

section
variable {host : Host} {ml : List Memmap}

/-- The others keep the old container, and the vm gets one of its own. -/
theorem execed_addSpace (hw : Wf s) (hc : Coherent s) (hml : MapsOk ml)
    (hbuilt : Built s.heap s.segs (host, ml)) :
    Execed s ((((s.setHost host).addSpace ml).setVm v
      { s.vms v with space := s.nextSpace }).flushTlb v) v := by
  have hadd := (hw.setHost hbuilt.next hbuilt.mapped).addSpace hml hbuilt.sharing
  set s₁ := ((s.setHost host).addSpace ml).setVm v { s.vms v with space := s.nextSpace }
  have hother : ∀ u, u ≠ v → s₁.vms u = s.vms u := fun u hu => update_of_ne hu ..
  have hself : s₁.vms v = { s.vms v with space := s.nextSpace } := update_self ..
  have hmaps : ∀ u < s.nextVm, u ≠ v → s₁.maps u = s.maps u := fun u hu hne => by
    rw [State.maps, hother u hne]
    exact update_of_ne (hw.space_lt u hu).ne ..
  refine execed_flushTlb hc ⟨hadd.maps, fun u hu => ?_, hadd.sharing⟩ rfl (fun u => ?_)
    (fun u hne => by rw [hother u hne]) hmaps fun u hu hne => ?_
  · by_cases hne : u = v
    · rw [hne, hself]
      exact Nat.lt_succ_self _
    · rw [hother u hne]
      exact (hw.space_lt u hu).trans (Nat.lt_succ_self _)
  · by_cases hne : u = v
    · rw [hne, hself]
    · rw [hother u hne]
  · rw [← view_setHost hw hbuilt.bytes u hu, view_def, view_def, hmaps u hu hne]
    rfl

/-- Nobody else has the container: it is edited in place and its segments are destroyed. -/
theorem execed_setMaps (hw : Wf s) (hc : Coherent s) (hv : v < s.nextVm) (hml : MapsOk ml)
    (hbuilt : Built s.heap s.segs (host, ml))
    (halone : ∀ u < s.nextVm, u ≠ v → (s.vms u).space ≠ (s.vms v).space) :
    Execed s (((s.maps v).foldl State.release ((s.setHost host).setMaps v ml)).flushTlb v) v := by
  have hsh : Sharing { s.heap with host := host }
      (s.maps v ++ (ml ++ s.others (s.vms v).space)) := by
    refine hbuilt.sharing.perm
      ((List.Perm.append_left ml (State.segs_perm (hw.space_lt v hv))).trans ?_)
    rw [← List.append_assoc, ← List.append_assoc]
    exact List.Perm.append_right _ List.perm_append_comm
  have hwf : Wf ((s.setHost host).setMaps v ml) :=
    hw.edit hv _ hml (hsh.sublist (List.sublist_append_right _ _))
  have hsegs : ((s.setHost host).setMaps v ml).segs.Perm (ml ++ s.others (s.vms v).space) :=
    State.segs_update_perm (s := s.setHost host) (hw.space_lt v hv) ml
  have hdropped : ∀ m ∈ s.maps v, Droppable ((s.setHost host).setMaps v ml).heap
      ([] ++ ((s.setHost host).setMaps v ml).segs) m := fun m hm =>
    (hsh.droppable_of_mem hm).mono fun x hx => hsegs.mem_iff.mp hx
  have hrel := released_foldl [] (by simp) hdropped
  have hmaps : ∀ u < s.nextVm, u ≠ v → ((s.setHost host).setMaps v ml).maps u = s.maps u :=
    fun u hu hne => State.setMaps_maps_of_ne _ _ _ _ (halone u hu hne)
  refine execed_flushTlb hc (hrel.wf hwf hwf.sharing) hrel.nextVm
    (fun u => by rw [hrel.vms]; rfl) (fun u _ => by rw [hrel.vms]; rfl)
    (fun u hu hne => by rw [hrel.maps, hmaps u hu hne]) fun u hu hne => ?_
  rw [hrel.view, ← view_setHost hw hbuilt.bytes u hu, view_def, view_def, hmaps u hu hne]
  rfl

theorem execSpace_spec {segs : List BootSeg} (hw : Wf s) (hc : Coherent s) (hv : v < s.nextVm)
    (hb : BootOk segs) : Execed s (execSpace s v segs) v := by
  have hml := mapsOk_buildMaps s.host hb
  have hbuilt : Built s.heap s.segs (buildMaps s.host segs) := built_buildMaps hw.sharing segs
  unfold execSpace
  generalize buildMaps s.host segs = q at hml hbuilt ⊢
  obtain ⟨host, ml⟩ := q
  dsimp only
  split_ifs with hshared
  · exact execed_addSpace hw hc hml hbuilt
  · refine execed_setMaps hw hc hv hml hbuilt fun u hu hne he => ?_
    exact hshared (List.any_eq_true.mpr ⟨u, List.mem_range.mpr hu, by simp [hne, he]⟩)

end

/-! ## Current code -/

/-- The slot at `a` holds the instruction. -/
def InsnAt (s : State) (v : ℕ) (a : U64) (insn : BpfInsn) : Prop :=
  ∃ bs, FlatMemory.read (s.view v) a.toNat 8 = some bs ∧ BpfInsn.ofBytes bs = insn

/-- The slots a fragment stands for: its instructions, and the second slots of `lddw`. -/
def Fragment.Slot (f : Fragment) (i : ℕ) : Prop :=
  f.found.reachable i = true ∨
    ∃ k, i = k + 1 ∧ f.found.reachable k = true ∧ isImm64 (f.insn k) = true

/-- Every slot of the fragment is what the vm has at its address. -/
def Fragment.Current (f : Fragment) (s : State) (v : ℕ) : Prop :=
  ∀ i, f.Slot i → InsnAt s v (f.addr i) (f.insn i)

/-- The two memories agree on the bytes of the fragment. -/
def Fragment.KeptIn (f : Fragment) (v : ℕ) (s s' : State) : Prop :=
  ∀ i, f.Slot i → ∀ k < 8, s'.view v ((f.addr i).toNat + k) = s.view v ((f.addr i).toNat + k)

variable {f : Fragment} {n i id : ℕ} {mem : State}

theorem Fragment.Current.kept {s' : State} (h : f.Current s v) (hk : f.KeptIn v s s') :
    f.Current s' v := by
  intro i hi
  obtain ⟨bs, hread, hbs⟩ := h i hi
  obtain ⟨hlen, hcells⟩ := FlatMemory.read_eq_some_iff.mp hread
  refine ⟨bs, FlatMemory.read_eq_some_iff.mpr ⟨hlen, fun k hkl => ?_⟩, hbs⟩
  rw [hk i hi k hkl]
  exact hcells k hkl

/-- No `lddw` at the end of its segment. -/
def Fragment.Whole (f : Fragment) : Prop := ∀ i, f.Slot i → i < f.limit

theorem toNat_toInt_ofNat_le (n : ℕ) : (BitVec.ofNat 32 n).toInt.toNat ≤ n := by
  have h : (BitVec.ofNat 32 n).toNat ≤ n := by
    rw [BitVec.toNat_ofNat]
    exact Nat.mod_le _ _
  rw [BitVec.toInt_eq_toNat_cond]
  split_ifs <;> omega

theorem segLimit_spec {ml : List Memmap} {a : ℕ} (hml : MapsOk ml) (h : segLimit ml a = some n) :
    ∃ m ∈ ml, m.Has a ∧ a + 8 * n ≤ m.stop := by
  obtain ⟨m, hfind, rfl⟩ := Option.map_eq_some_iff.mp h
  have hm := List.mem_of_find?_eq_some hfind
  have hcond := List.find?_some hfind
  simp only [hml.uend_eq hm, Bool.and_eq_true, decide_eq_true_eq] at hcond
  have hle := toNat_toInt_ofNat_le ((m.size - (a - m.paddr)) / 8)
  refine ⟨m, hm, hcond, ?_⟩
  have hstop : m.stop = m.paddr + m.size := rfl
  omega

theorem addr_toNat (h : f.gpa.toNat + 8 * i < 2 ^ 64) : (f.addr i).toNat = f.gpa.toNat + 8 * i := by
  unfold Fragment.addr
  rw [show ((i : ℤ) * 8) = ((8 * i : ℕ) : ℤ) by push_cast; ring, BitVec.ofInt_natCast,
    BitVec.toNat_add, BitVec.toNat_ofNat, Nat.add_mod_mod]
  exact Nat.mod_eq_of_lt h

/-- Code that has just been compiled is current. -/
theorem current_of_readFrom {p : HostPtr} (hs : Sound s v) (hf : f.ReadFrom v s p) (hw : f.Whole) :
    f.Current s v := by
  have hr := refilled_mmu hs f.gpa.toNat 8
  have hlookup : lookup (s.maps v) f.gpa.toNat 8 = some p :=
    (mmu_fst hs.mapsOk hs.tlb f.gpa.isLt (by omega) (by omega)).symm.trans hf.translated
  obtain ⟨m, hfind, rfl⟩ := Option.map_eq_some_iff.mp hlookup
  obtain ⟨hm, hlo, hhi⟩ := (findMap_eq_some_iff hs.mapsOk f.gpa.isLt (by omega) (by omega)).mp hfind
  have hlimit := hf.limit
  rw [hr.maps] at hlimit
  obtain ⟨m', hm', hhas, hend⟩ := segLimit_spec hs.mapsOk hlimit
  obtain rfl := hs.mapsOk.eq_of_has hm hm' ⟨hlo, by omega⟩ hhas
  have hbound := hs.mapsOk.bound m hm
  intro i hi
  have hil := hw i hi
  have hstop : m.stop = m.paddr + m.size := rfl
  refine ⟨s.host.load ((m.ptr f.gpa.toNat).add (8 * i)) 8, ?_, ?_⟩
  · rw [addr_toNat (by omega)]
    refine read_load fun k hk => ?_
    have hptr : m.ptr (f.gpa.toNat + 8 * i + k) =
        ((m.ptr f.gpa.toNat).add (8 * i)).add k := by
      simp only [Memmap.ptr, HostPtr.add, HostPtr.mk.injEq, true_and]
      omega
    rw [view_def, viewOf_eq_of_has hs.mapsOk hm ⟨by omega, by omega⟩, hptr]
  · rw [hf.insn, hr.host]

/-! ## The invariant of the caches -/

/-- Fragment `id` can be looked up. -/
def JitCompiler.Live (j : JitCompiler) (id : ℕ) : Prop :=
  ∃ g, j.entries g = some (.compiled id)

/-- What can be looked up is current, and only that is cached. -/
structure Caches (j : JitCompiler) (s : State) (v : ℕ) : Prop where
  current : ∀ g id, j.entries g = some (.compiled id) →
    ∃ f, j.code[id]? = some f ∧ f.Current s v
  hot : ∀ k id, (j.pcCache k).2 = some id → j.Live id
  calls : ∀ id site callee, j.Live id → j.callCache id site = some callee → j.Live callee
  ics : ∀ id site e, j.Live id → j.icSlots id site = some e → j.Live e.2

namespace Caches
variable {j j' : JitCompiler} {s' : State}

theorem empty (s : State) (v : ℕ) : Caches .empty s v := by
  constructor <;> simp [JitCompiler.empty]

theorem clear (j : JitCompiler) (s : State) (v : ℕ) : Caches j.clear s v := by
  constructor <;> simp [JitCompiler.clear, JitCompiler.Live]

theorem kept (h : Caches j s v)
    (hk : ∀ g id f, j.entries g = some (.compiled id) → j.code[id]? = some f → f.KeptIn v s s') :
    Caches j s' v := by
  refine ⟨fun g id hid => ?_, h.hot, h.calls, h.ics⟩
  obtain ⟨f, hf, hcur⟩ := h.current g id hid
  exact ⟨f, hf, hcur.kept (hk g id f hid hf)⟩

theorem quiet (h : Caches j s v) (hq : j.Quiet j') : Caches j' s v := by
  have hlive : ∀ id, j'.Live id ↔ j.Live id := fun id => exists_congr fun g => hq.entries g id
  refine ⟨fun g id hid => ?_, fun k id hid => ?_, fun id site callee hl hc => ?_,
    fun id site e hl he => ?_⟩
  · rw [hq.code]
    exact h.current g id ((hq.entries g id).mp hid)
  · rw [hlive]
    rcases hq.hot k with he | he
    · exact h.hot k id (he ▸ hid)
    · exact ⟨_, (he id).mp hid⟩
  · rw [hlive] at hl ⊢
    exact h.calls id site callee hl (hq.callCache ▸ hc)
  · rw [hlive] at hl ⊢
    exact h.ics id site e hl (hq.icSlots ▸ he)

theorem install (h : Caches j s v) (hv : j.Vacant f.gpa) (hf : f.Current s v) :
    Caches (j.install f) s v := by
  have hnew : (j.install f).Live j.code.length := ⟨f.gpa, update_self ..⟩
  have hmono : ∀ id, j.Live id → (j.install f).Live id := by
    rintro id ⟨g, hg⟩
    refine ⟨g, (update_of_ne ?_ ..).trans hg⟩
    rintro rfl
    exact hv id hg
  have hold : ∀ id, (j.install f).Live id → id ≠ j.code.length → j.Live id := by
    rintro id ⟨g, hg⟩ hne
    rcases JitCompiler.install_entries hg with ⟨-, he⟩ | ⟨-, hg⟩
    · exact absurd he hne
    · exact ⟨g, hg⟩
  refine ⟨fun g id hid => ?_, fun k id hid => ?_, fun id site callee hl hc => ?_,
    fun id site e hl he => ?_⟩
  · rw [JitCompiler.install_code]
    rcases JitCompiler.install_entries hid with ⟨-, rfl⟩ | ⟨-, hg⟩
    · exact ⟨f, by simp, hf⟩
    · obtain ⟨f', hf', hcur⟩ := h.current g id hg
      exact ⟨f', by rw [List.getElem?_append_left (List.getElem?_eq_some_iff.mp hf').1, hf'], hcur⟩
  · rcases JitCompiler.install_pcCache j f k with he | he
    · rw [he] at hid
      cases hid
      exact hnew
    · exact hmono id (h.hot k id (he ▸ hid))
  · obtain ⟨hne, hc⟩ := JitCompiler.install_callCache hc
    exact hmono _ (h.calls id site callee (hold id hl hne) hc)
  · obtain ⟨hne, he⟩ := JitCompiler.install_icSlots he
    exact hmono _ (h.ics id site e (hold id hl hne) he)

theorem resolve {g : U64} (hr : j.resolveCall g = some id) : j.Live id :=
  ⟨g, JitCompiler.resolveCall_eq_some.mp hr⟩

theorem setCall (h : Caches j s v) {site callee : ℕ} (hc : j.Live callee) :
    Caches (j.setCall id site callee) s v := by
  refine ⟨h.current, h.hot, fun id' site' callee' hl hc' => ?_, h.ics⟩
  rcases JitCompiler.setCall_callCache hc' with ⟨-, rfl⟩ | hc'
  · exact hc
  · exact h.calls id' site' callee' hl hc'

theorem fillIc (h : Caches j s v) (id site : ℕ) (target : U64) :
    Caches (j.fillIc id site target) s v := by
  obtain ⟨hcode, hent, hpc, hcall⟩ := JitCompiler.fillIc_frame j id site target
  have hlive : ∀ id', (j.fillIc id site target).Live id' ↔ j.Live id' := fun id' => by
    rw [JitCompiler.Live, JitCompiler.Live, hent]
  refine ⟨by rw [hcode, hent]; exact h.current, ?_, ?_, fun id' site' e hl he => ?_⟩
  · simp only [hpc, hlive]
    exact h.hot
  · simp only [hcall, hlive]
    exact h.calls
  · rw [hlive] at hl ⊢
    rcases JitCompiler.fillIc_icSlots he with ⟨-, he⟩ | he
    · exact ⟨_, he⟩
    · exact h.ics id' site' e hl he

theorem compile {finalized : Bool} {gpa : U64} {o : Option ℕ} (h : Caches j s c.vm)
    (hs : Sound s c.vm) (hc : j.compile c finalized s gpa = (o, j', s'))
    (hw : ∀ f ∈ j'.code, f.Whole) :
    Caches j' s' c.vm ∧ (∀ id, o = some id → j'.Live id) ∧ Refilled s s' c.vm := by
  have hmmu := refilled_mmu hs gpa.toNat 8
  rcases JitCompiler.compile_cases hc with ⟨hs', hq, ho⟩ |
    ⟨f, p, j₁, hq, hnone, rfl, -, hread, rfl, rfl, rfl, -⟩
  · have hr : Refilled s s' c.vm := by
      rcases hs' with rfl | rfl
      · exact .refl hs
      · exact hmmu
    refine ⟨(h.quiet hq).kept fun g id f _ _ i _ k _ => by rw [hr.view], fun id hid => ?_, hr⟩
    rcases ho id hid with he | he
    · obtain ⟨g, hg⟩ := h.hot _ id (congrArg Prod.snd he)
      exact ⟨g, (hq.entries g id).mpr hg⟩
    · exact ⟨gpa, (hq.entries gpa id).mpr he⟩
  · have hcur := current_of_readFrom hs hread (hw f (by simp [JitCompiler.install_code]))
    refine ⟨((h.quiet hq).install (hq.vacant (by simp [JitCompiler.Vacant, hnone])) hcur).kept
      fun g id f _ _ i _ k _ => by rw [hmmu.view], fun id hid => ?_, hmmu⟩
    cases hid
    rw [← hq.code]
    exact ⟨f.gpa, update_self ..⟩

end Caches

/-! ## Every run -/

structure Synced (c : Config) (s : Core) : Prop where
  wf : Wf s.mem
  coherent : Coherent s.mem
  runs : s.mem.Runs c.vm
  caches : Caches s.jit s.mem c.vm
  /-- After an `execveat` the compiled callers are not current, but none of them goes on. -/
  place : s.flags &&& vmJitAbort ≠ 0 ∧ (∃ calls before, s.place = .exiting calls before) ∨
    s.place.All fun id _ => s.jit.Live id

/-- The step changes no byte of compiled code, keeps the TLBs coherent, compiles no `lddw` that
sticks out of its segment, and does not replace the image by one that starts right behind the
system call that asked for it. -/
def Careful (c : Config) (s : Core) (e : Event) (s' : Core) : Prop :=
  (match e with
    | .memory op => Quiet s.mem op ∧ ∀ g id f, s.jit.entries g = some (.compiled id) →
        s.jit.code[id]? = some f → f.KeptIn c.vm s.mem s'.mem
    | .otherExec _ segs => BootOk segs
    | .execve segs entry => BootOk segs ∧ ∀ calls before id i polled f,
        s.place = .native calls before id i polled → s.jit.code[id]? = some f →
        entry - 8 ≠ f.addr i
    | _ => True) ∧ ∀ f ∈ s'.jit.code, f.Whole

def CarefulStep (c : Config) (s : Core) (e : Event) (s' : Core) : Prop :=
  CoreStep c s e s' ∧ Careful c s e s'

variable {j : JitCompiler}

section
variable {s s' : Core} {e : Event}

theorem Synced.sound (h : Synced c s) : Sound s.mem c.vm :=
  ⟨h.wf, h.runs.1, h.coherent _ h.runs⟩

/-- Compiled code that is at work is live. -/
theorem Synced.native {calls : List Waiting} {before : U64} {polled : Bool} (h : Synced c s)
    (hp : s.place = .native calls before id i polled) :
    s.jit.Live id ∧ ∀ w ∈ calls, s.jit.Live w.id := by
  rcases h.place with ⟨-, calls', before', hp'⟩ | hall
  · rw [hp] at hp'
    cases hp'
  · rw [hp] at hall
    exact hall

/-- The vm moves, with the same code and memory. -/
theorem Synced.move (h : Synced c s) (hm : s'.mem = s.mem) (hj : s'.jit = s.jit)
    (hp : s'.place.All fun id _ => s.jit.Live id) : Synced c s' := by
  refine ⟨hm ▸ h.wf, hm ▸ h.coherent, hm ▸ h.runs, ?_, .inr (hj ▸ hp)⟩
  rw [hm, hj]
  exact h.caches

theorem all_behind_live (f : Fragment) {calls : List Waiting} (before : U64) (i : ℕ)
    (hid : j.Live id) (hcalls : ∀ w ∈ calls, j.Live w.id) :
    (f.behind calls before id i).All fun id _ => j.Live id := by
  unfold Fragment.behind
  cases f.fallsTo i with
  | none => trivial
  | some k => exact ⟨hid, hcalls⟩

theorem Synced.compile {finalized : Bool} {gpa : U64} {o : Option ℕ} (h : Synced c s)
    (hc : s.jit.compile c finalized s.mem gpa = (o, j, mem)) (hw : ∀ f ∈ j.code, f.Whole) :
    Wf mem ∧ Coherent mem ∧ mem.Runs c.vm ∧ Caches j mem c.vm ∧ ∀ id, o = some id → j.Live id := by
  obtain ⟨hcaches, hlive, -⟩ := h.caches.compile h.sound hc hw
  have hmem : mem = s.mem ∨ mem = (s.mem.mmu c.vm gpa.toNat 8).2 := by
    rcases JitCompiler.compile_cases hc with ⟨hm, -⟩ | ⟨_, _, _, -, -, -, -, -, -, -, hm, -⟩
    · exact hm
    · exact .inr hm
  rcases hmem with rfl | rfl
  · exact ⟨h.wf, h.coherent, h.runs, hcaches, hlive⟩
  · refine ⟨wf_read h.wf, coherent_read h.coherent h.runs, ?_, hcaches, hlive⟩
    exact mmu_keeps (P := (·.Runs c.vm)) h.runs fun _ _ => (runs_setTlb _ _ _ _ _).mpr h.runs

theorem abort_of_own {f g : U32} (h : f &&& ownFlags = g &&& ownFlags) :
    f &&& vmJitAbort = g &&& vmJitAbort := by
  have h' := congrArg (· &&& vmJitAbort) h
  simp only [BitVec.and_assoc, show ownFlags &&& vmJitAbort = vmJitAbort from by decide] at h'
  exact h'

/-- The image of the vm has been replaced, and no compiled code goes on. -/
theorem Synced.exec {segs : List BootSeg} (h : Synced c s) (hb : BootOk segs)
    (hm : s'.mem = execSpace s.mem c.vm segs) (hj : s'.jit = s.jit.clear)
    (hp : s'.flags &&& vmJitAbort ≠ 0 ∧ (∃ calls before, s'.place = .exiting calls before) ∨
      s'.place = .loop) : Synced c s' := by
  have hx := execSpace_spec h.wf h.coherent h.runs.1 hb
  refine ⟨hm ▸ hx.wf, hm ▸ hx.coherent, hm ▸ (hx.runs _).mpr h.runs, ?_, ?_⟩
  · rw [hj]
    exact .clear _ _ _
  · rcases hp with hp | hp
    · exact .inl hp
    · exact .inr (by rw [hp]; trivial)

theorem Synced.step (h : Synced c s) (hs : CarefulStep c s e s') : Synced c s' := by
  obtain ⟨hs, hcare, hw⟩ := hs
  cases hs with
  | memory hstep hv =>
    obtain ⟨hwf, hcoh⟩ := step_inv hstep hcare.1 h.wf h.coherent
    exact ⟨hwf, hcoh, hv, h.caches.kept hcare.2, h.place⟩
  | otherExec hu hr =>
    have hx := execSpace_spec h.wf h.coherent hr.1 hcare
    refine ⟨hx.wf, hx.coherent, (hx.runs _).mpr h.runs, h.caches.kept ?_, h.place⟩
    intro g id f _ _ i _ k _
    rw [hx.view _ h.runs.1 hu.symm]
  | flag hf =>
    refine ⟨h.wf, h.coherent, h.runs, h.caches, ?_⟩
    rcases h.place with ⟨ha, hp⟩ | hp
    · exact .inl ⟨by rwa [abort_of_own hf], hp⟩
    · exact .inr hp
  | attached | interpret | interpStop | interpBudget | backStop => exact h.move rfl rfl trivial
  | cold hp hc =>
    obtain ⟨hwf, hcoh, hr, hcaches, -⟩ := h.compile hc hw
    exact ⟨hwf, hcoh, hr, hcaches, .inr trivial⟩
  | enter hp hc =>
    obtain ⟨hwf, hcoh, hr, hcaches, hlive⟩ := h.compile hc hw
    exact ⟨hwf, hcoh, hr, hcaches, .inr ⟨hlive _ rfl, by simp⟩⟩
  | refuse pc hp hc =>
    obtain ⟨hwf, hcoh, hr, hcaches, -⟩ := h.compile hc hw
    exact ⟨hwf, hcoh, hr, hcaches, .inr fun w hw => by cases hw⟩
  | interpExec => exact h.exec hcare.1 rfl rfl (.inr rfl)
  | exec => exact h.exec hcare.1 rfl rfl (.inl ⟨or_vmJitAbort _, _, _, rfl⟩)
  | execOn hp hid hk hpc => exact absurd hpc (hcare.2 _ _ _ _ _ _ hp hid)
  | unpolled hp | poll hp | pollSlow hp | jump hp => exact h.move rfl rfl (h.native hp)
  | pollOut pc hp | pollBudget hp | deopt hp | abort hp | syscallOut pc hp | callOut hp
  | callFails hp | exit pc hp | bottom hp => exact h.move rfl rfl (h.native hp).2
  | next pc hp =>
    exact h.move rfl rfl (all_behind_live _ _ _ (h.native hp).1 (h.native hp).2)
  | call hp hid hk hf hslot =>
    obtain ⟨hl, hcalls⟩ := h.native hp
    exact h.move rfl rfl ⟨h.caches.calls _ _ _ hl hslot, by simpa using ⟨hl, hcalls⟩⟩
  | callIndirect hp hid hk hf hslot =>
    obtain ⟨hl, hcalls⟩ := h.native hp
    exact h.move rfl rfl ⟨h.caches.ics _ _ _ hl hslot, by simpa using ⟨hl, hcalls⟩⟩
  | resolve hp hid hk hf hslot hres =>
    obtain ⟨hl, hcalls⟩ := h.native hp
    have hcallee := Caches.resolve hres
    exact ⟨h.wf, h.coherent, h.runs, h.caches.setCall hcallee,
      .inr ⟨hcallee, by simpa using ⟨hl, hcalls⟩⟩⟩
  | callIndirectOut hp =>
    refine ⟨h.wf, h.coherent, h.runs, h.caches.fillIc _ _ _, .inr fun w hw => ?_⟩
    have hl := (h.native hp).2 w hw
    unfold JitCompiler.Live at hl ⊢
    rwa [(JitCompiler.fillIc_frame ..).2.1]
  | cont hp hid hf =>
    rcases h.place with ⟨ha, -⟩ | hall
    · simp [hf] at ha
    · rw [hp] at hall
      exact h.move rfl rfl (all_behind_live _ _ _ (hall _ (by simp))
        fun w hw => hall w (by simp [hw]))
  | contOut hp hid hout =>
    refine ⟨h.wf, h.coherent, h.runs, h.caches, ?_⟩
    rcases h.place with ⟨ha, -⟩ | hall
    · exact .inl ⟨ha, _, _, rfl⟩
    · rw [hp] at hall
      exact .inr fun w hw => hall w (by simp [hw])
  | back hp hf | backSafepoint pc hp hf =>
    refine h.move rfl rfl ?_
    dsimp only
    split_ifs <;> trivial

end

/-- The code that a vm is executing stands for what is in its memory. -/
def NativeCurrent (c : Config) (s : Core) : Prop :=
  ∀ calls before id i polled, s.place = .native calls before id i polled →
    ∃ f, s.jit.code[id]? = some f ∧ f.Current s.mem c.vm

theorem Synced.nativeCurrent {s : Core} (h : Synced c s) : NativeCurrent c s := by
  intro calls before id i polled hp
  obtain ⟨⟨g, hg⟩, -⟩ := h.native hp
  exact h.caches.current g id hg

/-- In a careful run of a vm compiled code is always current. -/
theorem nativeCurrent_of_run {c : Config} {segs : List BootSeg} {ops : List Op} {mem : State}
    {pc : U64} {l : List Event} {s : Core} (hb : BootOk segs)
    (hmem : Run QuietStep (State.boot segs) ops mem) (hv : mem.Runs c.vm)
    (h : Run (CarefulStep c) (Core.start mem pc) l s) : NativeCurrent c s := by
  obtain ⟨hwf, hcoh⟩ := quietRun_inv hb hmem
  have hstart : Synced c (Core.start mem pc) :=
    ⟨hwf, hcoh, hv, .empty _ _, .inr trivial⟩
  exact (h.invariant hstart fun _ _ _ hi hs => hi.step hs).nativeCurrent

/-! ## A library that is loaded again -/

def prompt : Config := ⟨0, true, 0, 0, fun _ => true⟩

def exitInsn : BpfInsn := ⟨0x95, 0, 0, 0, 0⟩
def syscallInsn (call : U32) : BpfInsn := ⟨0x85, 0, 0, 0, call⟩
def callInsn (imm : U32) : BpfInsn := ⟨0x85, 0, 1, 0, imm⟩

/-- A page that ends with the instructions. -/
def pageEnd (insns : List BpfInsn) (k : ℕ) : Byte :=
  if k < 0x1000 - 8 * insns.length then 0
  else (insns.flatMap BpfInsn.bytes).getD (k - (0x1000 - 8 * insns.length)) 0

/-- A function at `0x1ff8`, and at `0x3fe8` code that unmaps its page, maps another one there and
calls it. -/
def reloading : List BootSeg :=
  [⟨0x1000, 0x1000, pfR ||| pfX, pageEnd [exitInsn]⟩,
    ⟨0x3000, 0x1000, pfR ||| pfX, pageEnd [syscallInsn 11, syscallInsn 9, callInsn (-0x401)]⟩]

def newPage : MmapArgs :=
  ⟨0x1000, 0x1000, protRead, mapFixed ||| mapAnonymous, false, fun _ => 0⟩

/-- The function is compiled, then its caller. -/
def firstCall : Option ℕ × JitCompiler × State :=
  JitCompiler.empty.compile prompt true (State.boot reloading) 0x1ff8

def secondCall : Option ℕ × JitCompiler × State :=
  firstCall.2.1.compile prompt true firstCall.2.2 0x3fe8

def closed : State := (secondCall.2.2.doMunmap 0 0x1000).2

def reopened : State :=
  (closed.doMmap ⟨none, fun _ _ _ => none⟩ 0 newPage).elim closed Prod.snd

theorem firstCall_fst : firstCall.1 = some 0 := by decide +kernel
theorem secondCall_fst : secondCall.1 = some 1 := by decide +kernel

set_option maxRecDepth 20000 in
theorem doMmap_reopened : closed.doMmap ⟨none, fun _ _ _ => none⟩ 0 newPage =
    some (.ok 0x1000, reopened) := by
  rfl

theorem exists_of_any {o : Option Fragment} {p : Fragment → Bool} (h : o.any p = true) :
    ∃ f, o = some f ∧ p f = true := by
  cases o with
  | none => cases h
  | some f => exact ⟨f, rfl, h⟩

/-- Instruction `i` is a system call outside of loop heads, with the next one at `i + 1`. -/
def Fragment.syscallAt (f : Fragment) (i : ℕ) : Bool :=
  !f.found.backEdgeTarget i && (f.insn i).kind == .syscall &&
    (fallThrough (f.insn i) i).isSome && f.fallsTo i == some (i + 1)

/-- Compiled code makes a system call that changes the memory, and goes on. -/
theorem run_syscall {mem' : State} {pc before : U64} {op : Op} (hid : j.code[id]? = some f)
    (hf : f.syscallAt i = true) (hop : Step mem op mem') (hv : mem'.Runs c.vm) :
    Run (CoreStep c) ⟨mem, j, pc, 0, n, .native [] before id i false⟩
      [.other, .memory op, .native]
      ⟨mem', j, f.addr i, 0, n, .native [] before id (i + 1) false⟩ := by
  simp only [Fragment.syscallAt, Bool.and_eq_true, Bool.not_eq_true', beq_iff_eq] at hf
  obtain ⟨⟨⟨hhead, hk⟩, hn⟩, hto⟩ := hf
  have hnext : CoreStep c ⟨mem', j, pc, 0, n, .native [] before id i true⟩ .native
      ⟨mem', j, f.addr i, 0, n, .native [] before id (i + 1) false⟩ := by
    have hs := CoreStep.next (c := c) (s := ⟨mem', j, pc, 0, n, .native [] before id i true⟩)
      (f.addr i) rfl hid (.inr ⟨.inr hk, rfl⟩) hn
    rwa [Fragment.behind, hto] at hs
  exact .cons (.unpolled rfl hid hhead) (.cons (.memory hop hv) (.single hnext))

theorem leaf_compiled : firstCall.2.1.code[0]?.any (fun f =>
    !f.found.backEdgeTarget 0 && (f.insn 0).kind == .exit) = true := by
  decide +kernel

theorem caller_compiled : secondCall.2.1.code[1]?.any (fun f => f.syscallAt 0 && f.syscallAt 1 &&
    !f.found.backEdgeTarget 2 && (f.insn 2).kind == .call && f.callee 2 == 0x1ff8) = true := by
  decide +kernel

theorem caller_slot : secondCall.2.1.callCache 1 2 = none ∧
    secondCall.2.1.resolveCall 0x1ff8 = some 0 := by
  decide +kernel

theorem leaf_stale : secondCall.2.1.code[0]?.any (fun f => f.found.reachable 0 &&
    (FlatMemory.read (reopened.view 0) (f.addr 0).toNat 8).map BpfInsn.ofBytes !=
      some (f.insn 0)) = true := by
  decide +kernel

theorem compile_secondCall : firstCall.2.1.compile prompt true firstCall.2.2 0x3fe8 =
    secondCall := rfl

theorem runs_closed : closed.Runs prompt.vm := ⟨by decide +kernel, by decide +kernel⟩
theorem runs_reopened : reopened.Runs prompt.vm := ⟨by decide +kernel, by decide +kernel⟩

theorem step_closed : ∃ op, Step secondCall.2.2 op closed :=
  ⟨_, .munmap ⟨by decide +kernel, by decide +kernel⟩⟩

theorem step_reopened :
    Step closed (.mmap ⟨none, fun _ _ _ => none⟩ 0 newPage (.ok 0x1000)) reopened :=
  .mmap ⟨by decide +kernel, by decide +kernel⟩ doMmap_reopened

/-- The function is called and returns to `0x3fe8`. -/
theorem run_firstCall : Run (CoreStep prompt) (Core.start (State.boot reloading) 0x1ff8)
    [.enter, .other, .native, .other] ⟨firstCall.2.2, firstCall.2.1, 0x3fe8, 0, 0, .loop⟩ := by
  obtain ⟨f, hf, hleaf⟩ := exists_of_any leaf_compiled
  simp only [Bool.and_eq_true, Bool.not_eq_true', beq_iff_eq] at hleaf
  exact .cons (.enter rfl (compiled_eq firstCall_fst) passed_zero) (.cons (.unpolled rfl hf hleaf.1)
    (.cons (.exit 0x3fe8 rfl hf hleaf.2) (.single (.back_loop (by decide)))))

/-- Compiled code that makes two system calls and then a call that `resolve_call` answers. -/
theorem run_reload {mem₁ mem₂ mem₃ : State} {j' : JitCompiler} {pc : U64} {id' : ℕ}
    {g : Fragment} {op op' : Op} {r : Option ℕ × JitCompiler × State}
    (hr : j.compile c true mem pc = r) (hid : r.1 = some id) (hj : r.2.1 = j') (hm : r.2.2 = mem₁)
    (hg : j'.code[id]? = some g) (hfirst : g.syscallAt 0 = true) (hop : Step mem₁ op mem₂)
    (hv : mem₂.Runs c.vm) (hsecond : g.syscallAt 1 = true) (hop' : Step mem₂ op' mem₃)
    (hv' : mem₃.Runs c.vm) (hhead : g.found.backEdgeTarget 2 = false)
    (hk : (g.insn 2).kind = .call) (hslot : j'.callCache id 2 = none)
    (hres : j'.resolveCall (g.callee 2) = some id') :
    ∃ l s, Run (CoreStep c) ⟨mem, j, pc, 0, n, .loop⟩ l s ∧ s.mem = mem₃ ∧
      s.jit.code = j'.code ∧ s.place = .native [⟨id, 2⟩] pc id' 0 false := by
  have henter : CoreStep c ⟨mem, j, pc, 0, n, .loop⟩ .enter
      ⟨r.2.2, r.2.1, pc, 0, n, .native [] pc id 0 false⟩ :=
    .enter rfl (hr.trans (compiled_eq hid)) passed_zero
  rw [hj, hm] at henter
  have hcalls : Run (CoreStep c) ⟨mem₁, j', pc, 0, n, .native [] pc id 0 false⟩ _
      ⟨mem₃, j', g.addr 1, 0, n, .native [] pc id 2 false⟩ :=
    (run_syscall hg hfirst hop hv).append (run_syscall hg hsecond hop' hv')
  have hcall : Run (CoreStep c) ⟨mem₃, j', g.addr 1, 0, n, .native [] pc id 2 false⟩
      [.other, .call]
      ⟨mem₃, j'.setCall id 2 id', g.addr 1, 0, n, .native [⟨id, 2⟩] pc id' 0 false⟩ :=
    .cons (.unpolled rfl hg hhead) (.single (.resolve rfl hg hk rfl hslot hres))
  exact ⟨_, _, .cons henter (hcalls.append hcall), rfl, rfl, rfl⟩

/-- The caller unmaps the page, maps another one and calls what was compiled for the first. -/
theorem run_reloading : ∃ l s,
    Run (CoreStep prompt) (Core.start (State.boot reloading) 0x1ff8) l s ∧ s.mem = reopened ∧
      s.jit.code = secondCall.2.1.code ∧ s.place = .native [⟨1, 2⟩] 0x3fe8 0 0 false := by
  obtain ⟨g, hg, hcaller⟩ := exists_of_any caller_compiled
  simp only [Bool.and_eq_true, Bool.not_eq_true', beq_iff_eq] at hcaller
  obtain ⟨⟨⟨⟨hfirst, hsecond⟩, hhead⟩, hk⟩, hcallee⟩ := hcaller
  have hres : secondCall.2.1.resolveCall (g.callee 2) = some 0 := by
    rw [hcallee]
    exact caller_slot.2
  obtain ⟨op, hclose⟩ := step_closed
  obtain ⟨l, s, hl, hs⟩ := run_reload (n := 0) compile_secondCall secondCall_fst rfl rfl hg
    hfirst hclose runs_closed hsecond step_reopened runs_reopened hhead hk caller_slot.1 hres
  exact ⟨_, s, run_firstCall.append hl, hs⟩

theorem bootOk_reloading : BootOk reloading := by
  refine ⟨?_, ?_, ?_⟩ <;> simp [reloading, BootSeg.stop]

theorem Fragment.whole_of_all
    (h : (List.range f.size).all (fun i => decide (i < f.limit) && !isImm64 (f.insn i)) = true) :
    f.Whole := by
  have hall : ∀ i < f.size, i < f.limit ∧ isImm64 (f.insn i) = false := by simpa using h
  rintro i (hi | ⟨k, -, hk, himm⟩)
  · exact (hall i (reachable_lt hi)).1
  · rw [(hall k (reachable_lt hk)).2] at himm
    cases himm

theorem whole_firstCall : ∀ f ∈ firstCall.2.1.code, f.Whole := by
  have h : firstCall.2.1.code.all (fun f => (List.range f.size).all fun i =>
      decide (i < f.limit) && !isImm64 (f.insn i)) = true := by decide +kernel
  exact fun f hf => Fragment.whole_of_all (List.all_eq_true.mp h f hf)

/-- The other page is gone. -/
def emptied : State := (firstCall.2.2.doMunmap 0 0x3000).2

theorem kept_emptied : ∀ f ∈ firstCall.2.1.code, f.KeptIn 0 firstCall.2.2 emptied := by
  intro f hf i hi
  have h : firstCall.2.1.code.all (fun f => f.limit == 1 && f.addr 0 == 0x1ff8) = true := by
    decide +kernel
  have hview : ∀ k < 8, emptied.view 0 (0x1ff8 + k) = firstCall.2.2.view 0 (0x1ff8 + k) := by
    decide +kernel
  obtain ⟨hlimit, haddr⟩ := Bool.and_eq_true_iff.mp (List.all_eq_true.mp h f hf)
  have hi := whole_firstCall f hf i hi
  rw [beq_iff_eq.mp hlimit, Nat.lt_one_iff] at hi
  rw [hi, Nat.cast_zero, beq_iff_eq.mp haddr]
  exact hview

/-- The function is at work for the first time while the page of its caller is unmapped. -/
theorem nativeCurrent_of_run_firstCall : NativeCurrent prompt
    ⟨emptied, firstCall.2.1, 0x1ff8, 0, 0, .native [] 0x1ff8 0 0 false⟩ := by
  have henter : CoreStep prompt (Core.start (State.boot reloading) 0x1ff8) .enter
      ⟨firstCall.2.2, firstCall.2.1, 0x1ff8, 0, 0, .native [] 0x1ff8 0 0 false⟩ :=
    .enter rfl (compiled_eq firstCall_fst) passed_zero
  have hnext : firstCall.2.2.nextVm = 1 := by decide +kernel
  have hstep : Step firstCall.2.2 (.munmap 0 0x3000 _) emptied :=
    .munmap ⟨by decide +kernel, by decide +kernel⟩
  refine nativeCurrent_of_run bootOk_reloading (.nil _) ⟨by decide +kernel, by decide +kernel⟩
    (.cons ⟨henter, trivial, whole_firstCall⟩ (.single ⟨.memory hstep ⟨by decide +kernel,
      by decide +kernel⟩, ⟨fun u hu hne => ?_, fun _ _ f _ hf => ?_⟩, whole_firstCall⟩))
  · exact absurd (Nat.lt_one_iff.mp (hnext ▸ hu.1)) hne
  · exact kept_emptied f (List.mem_of_getElem? hf)

/-- Code that has been compiled for a page runs after another page has taken its place. -/
theorem stale_code_runs : ∃ (c : Config) (segs : List BootSeg) (pc : U64) (l : List Event)
    (s : Core), BootOk segs ∧ Run (CoreStep c) (Core.start (State.boot segs) pc) l s ∧
      ¬ NativeCurrent c s := by
  obtain ⟨l, s, hrun, hmem, hcode, hplace⟩ := run_reloading
  refine ⟨prompt, reloading, 0x1ff8, l, s, bootOk_reloading, hrun, fun hcur => ?_⟩
  obtain ⟨f, hf, hcurrent⟩ := hcur _ _ _ _ _ hplace
  obtain ⟨f', hf', hstale⟩ := exists_of_any leaf_stale
  rw [hcode, hf'] at hf
  cases hf
  rw [Bool.and_eq_true, bne_iff_ne] at hstale
  obtain ⟨bs, hread, hbs⟩ := hcurrent 0 (.inl hstale.1)
  rw [hmem] at hread
  refine hstale.2 ?_
  rw [← hbs]
  exact congrArg (Option.map BpfInsn.ofBytes) hread

end Bpfvm.Jit
