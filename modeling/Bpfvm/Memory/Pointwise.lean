import Bpfvm.Memory.Isolation

/-!
# Protecting and mapping, address by address

What `do_mprotect` and `do_mmap` with `MAP_FIXED` do to each guest address of one container: which
address is mapped, through which host byte, and with which flags. Nothing is assumed about the
owners of the host pages here except that the host does not hand out pages that are in use. The
loop of `do_mprotect` ends although it starts over after each cut: a cut leaves one segment less
that sticks out of the range.
-/
namespace Bpfvm.Memory

/-- The host byte behind a guest address and the flags there, through the container. -/
def cellOf (ml : List Memmap) (a : ℕ) : Option (HostPtr × U32) :=
  if a < 2 ^ 64 then (findMap ml a 1).map fun m => (m.ptr a, m.flags) else none

/-- The flags of a guest address. -/
def flagsOf (ml : List Memmap) (a : ℕ) : Option U32 := (cellOf ml a).map Prod.snd

theorem viewOf_eq_cellOf (h : Host) (ml : List Memmap) (a : ℕ) :
    viewOf h ml a = (cellOf ml a).map fun c => h.byte c.1 := by
  unfold viewOf cellOf lookup
  split_ifs <;> simp [Function.comp_def]

variable {a v base b : ℕ} {ml₀ : List Memmap} {s' s : State}

variable {ml : List Memmap} {m : Memmap} {fl prot : U32} {lo hi : ℕ} {env : HostEnv}

theorem cellOf_eq_some_iff (hml : MapsOk ml) {c : HostPtr × U32} :
    cellOf ml a = some c ↔ ∃ m ∈ ml, m.Has a ∧ (m.ptr a, m.flags) = c := by
  by_cases ha : a < 2 ^ 64
  · simp only [cellOf, ha, if_true, Option.map_eq_some_iff,
      findMap_eq_some_iff hml ha Nat.one_pos (by omega), Memmap.Has, Nat.add_one_le_iff, and_assoc]
  · simp only [cellOf, ha, if_false, reduceCtorEq, false_iff]
    rintro ⟨m, hm, hh, -⟩
    have := hml.bound m hm
    have := hh.2
    omega

theorem cellOf_eq_of_has (hml : MapsOk ml) (hm : m ∈ ml) (ha : m.Has a) :
    cellOf ml a = some (m.ptr a, m.flags) :=
  (cellOf_eq_some_iff hml).mpr ⟨m, hm, ha, rfl⟩

theorem cellOf_eq_none (hml : MapsOk ml) (h : ∀ m ∈ ml, ¬ m.Has a) : cellOf ml a = none := by
  rw [Option.eq_none_iff_forall_ne_some]
  intro c hc
  obtain ⟨m, hm, ha, -⟩ := (cellOf_eq_some_iff hml).mp hc
  exact h m hm ha

/-! ## `do_mprotect` -/

/-- The cells after `do_mprotect`: the flags in the range are new. -/
theorem Reprot.cellOf {h₀ h₁ : Heap} (hml : MapsOk ml₀) (h : Reprot lo hi prot h₀ ml₀ h₁ ml)
    (hdone : ∀ m ∈ ml, Protected lo hi prot m) (a : ℕ) : cellOf ml a = (cellOf ml₀ a).map fun c =>
      (c.1, if lo ≤ a ∧ a < hi then newProt (pfOfProt prot) c.2 else c.2) := by
  by_cases hmapped : ∃ m ∈ ml, m.Has a
  · obtain ⟨m, hm, hma⟩ := hmapped
    obtain ⟨m₀, hm₀, hm₀a, hptr, hfl⟩ := h.back m hm a hma
    rw [cellOf_eq_of_has h.ok hm hma, cellOf_eq_of_has hml hm₀ hm₀a, Option.map_some, hptr]
    congr 2
    split_ifs with hin
    · rcases hfl with hfl | ⟨-, -, hfl⟩
      · -- the segment had the new flags already
        have hu := h.ok.uend_eq hm
        rcases hdone m hm with hout | ⟨-, hsame⟩
        · obtain ⟨h₁, h₂⟩ := hma
          unfold Outside at hout
          omega
        · rw [← hfl, newProt_of_and_mask hsame]
      · exact hfl
    · rcases hfl with hfl | ⟨h₁, h₂, -⟩
      · exact hfl
      · exact absurd ⟨h₁, h₂⟩ hin
  · push Not at hmapped
    have hnone : ∀ m₀ ∈ ml₀, ¬ m₀.Has a := by
      intro m₀ hm₀ hm₀a
      obtain ⟨m, hm, hma⟩ := h.cover m₀ hm₀ a hm₀a
      exact hmapped m hm hma
    rw [cellOf_eq_none h.ok hmapped, cellOf_eq_none hml hnone, Option.map_none]

/-! ## The loop ends -/

/-- An iteration that goes on with another state of the loop. -/
theorem ends_succ {α : Type*} {f g : ℕ → Option α} (hf : ∃ N r, ∀ fuel, N ≤ fuel → f fuel = some r)
    (hg : ∀ fuel, g (fuel + 1) = f fuel) : ∃ N r, ∀ fuel, N ≤ fuel → g fuel = some r := by
  obtain ⟨N, r, h⟩ := hf
  refine ⟨N + 1, r, fun fuel hle => ?_⟩
  obtain ⟨k, rfl⟩ : ∃ k, fuel = k + 1 := ⟨fuel - 1, by omega⟩
  rw [hg]
  exact h k (by omega)

theorem ends_now {α : Type*} {g : ℕ → Option α} {r : α} (hg : ∀ fuel, g (fuel + 1) = some r) :
    ∃ N r, ∀ fuel, N ≤ fuel → g fuel = some r :=
  ends_succ (f := fun _ => some r) ⟨0, r, fun _ _ => rfl⟩ hg

theorem mprotectLoop_ends (pre) {rest : List Memmap} (hlt : lo < hi) (h : Heap)
    (hml : MapsOk (pre ++ rest)) (hpre : ∀ x ∈ pre, Protected lo hi prot x) (any : Bool) :
    ∃ N r, ∀ fuel, N ≤ fuel →
      mprotectLoop env lo hi prot fuel h (pre ++ rest) pre.length any = some r := by
  -- a cut leaves less to cut, every other iteration moves on in the same container
  induction hk : uncut lo hi (pre ++ rest) using Nat.strong_induction_on
    generalizing h pre rest any with
  | _ k ihk =>
  induction hd : rest.length using Nat.strong_induction_on generalizing h pre rest any with
  | _ d ihd =>
    obtain ⟨r, hr, ⟨-, rfl⟩ | ⟨code, q, -, rfl⟩ | ⟨b, h', pre', rest', hpre', hmove, hless, rfl⟩⟩ :=
      mprotectLoop_turn env hlt hml h any hpre
    · exact ends_now hr
    · exact ends_now hr
    · have hml' : MapsOk (pre' ++ rest') :=
        hmove.elim (fun hsame => hsame.2 ▸ hml) fun hstep => (hstep.reprot hlt hml).ok
      refine ends_succ ?_ hr
      rcases hless with hless | ⟨heq, hless⟩
      · exact ihk _ (hk ▸ hless) _ h' hml' hpre' b rfl
      · exact ihd _ (hd ▸ hless) _ h' hml' hpre' b (heq.trans hk) rfl

/-! ## `do_mmap` with `MAP_FIXED` -/

theorem Carved.cellOf {stop : ℕ} {out : List Memmap} (h : Carved base stop ml out)
    (hml : MapsOk ml) (ha : ¬ (base ≤ a ∧ a < stop)) : cellOf out a = cellOf ml a := by
  by_cases hmapped : ∃ p ∈ out, p.Has a
  · obtain ⟨p, hp, hpa⟩ := hmapped
    obtain ⟨m, hm, hma, hptr, hfl⟩ := h.back p hp a hpa
    rw [cellOf_eq_of_has (h.mapsOk hml) hp hpa, cellOf_eq_of_has hml hm hma, hptr, hfl]
  · push Not at hmapped
    have hnone : ∀ m ∈ ml, ¬ m.Has a := by
      intro m hm hma
      obtain ⟨p, hp, hpa⟩ := h.cover m hm a hma ha
      exact hmapped p hp hpa
    rw [cellOf_eq_none (h.mapsOk hml) hmapped, cellOf_eq_none hml hnone]

theorem cellOf_insert (hml : MapsOk ml) (hins : MapsOk (Segments.insertBefore Memmap.paddr ml m))
    (a : ℕ) :
    cellOf (Segments.insertBefore Memmap.paddr ml m) a =
      if m.Has a then some (m.ptr a, m.flags) else cellOf ml a := by
  split_ifs with ha
  · exact cellOf_eq_of_has hins (Segments.mem_insertBefore.mpr (.inl rfl)) ha
  · by_cases hmapped : ∃ x ∈ ml, x.Has a
    · obtain ⟨x, hx, hxa⟩ := hmapped
      rw [cellOf_eq_of_has hins (Segments.mem_insertBefore.mpr (.inr hx)) hxa,
        cellOf_eq_of_has hml hx hxa]
    · push Not at hmapped
      rw [cellOf_eq_none hml hmapped, cellOf_eq_none hins]
      intro x hx
      rcases Segments.mem_insertBefore.mp hx with rfl | hx
      · exact ha
      · exact hmapped x hx

/-- The cells after `do_mmap` with `MAP_FIXED`: fresh pages in the range, the old cells
elsewhere. -/
theorem doMmap_fixed_cellOf {args : MmapArgs} (hml : MapsOk (s.maps v)) (hfix : args.fixed = true)
    (hfit : args.addr + roundUp args.len < 2 ^ 64)
    (hr : s.doMmap env v args = some (.ok base, s')) :
    base = args.addr ∧ ∃ p : HostPtr, p.region = s.host.next ∧
      (∀ i, s'.host.byte (p.add i) = args.init i) ∧
      (∀ r < s.host.next, s'.host.bytes r = s.host.bytes r) ∧
      ∀ a, cellOf (s'.maps v) a =
        if args.addr ≤ a ∧ a < args.addr + roundUp args.len
        then some (p.add (a - args.addr), pfOfProt args.prot) else cellOf (s.maps v) a := by
  have hbase : s.mmapBase v args = args.addr := if_pos hfix
  obtain ⟨rfl, kept, host, hm, hc, hins, hmaps, hbytes', -⟩ := doMmap_maps hml (hbase ▸ hfit) hr
  obtain ⟨-, -, hbytes, -⟩ := Host.mmap_frame hm
  rw [hmaps] at hins
  rw [hbase] at hc hins hmaps
  refine ⟨hbase, ⟨s.host.next, 0⟩, rfl, fun i => ?_, fun r hrlt => ?_, fun a => ?_⟩
  · rw [← byte_mmap hm i, Host.byte, Host.byte, hbytes']
  · rw [hbytes']
    exact hbytes r hrlt
  · rw [hmaps, cellOf_insert (hc.mapsOk hml) hins]
    by_cases hin : args.addr ≤ a ∧ a < args.addr + roundUp args.len
    · rw [if_pos hin]
      exact if_pos hin
    · rw [if_neg hin]
      exact (if_neg hin).trans (hc.cellOf hml hin)

/-! ## Both, address by address -/

/-- Protecting `[a, b)`: the host bytes behind the guest addresses are the same and stay mapped,
and the protection bits change exactly in the range. -/
structure ProtectsRange (s s' : State) (v a b : ℕ) (prot : U32) : Prop where
  contents : ∀ x, s'.view v x = s.view v x
  mapped : s'.host.mapped = s.host.mapped
  inside : ∀ x, a ≤ x → x < b →
    flagsOf (s'.maps v) x = (flagsOf (s.maps v) x).map (newProt (pfOfProt prot))
  outside : ∀ x, ¬ (a ≤ x ∧ x < b) → flagsOf (s'.maps v) x = flagsOf (s.maps v) x

/-- Mapping `[a, b)`: the range shows the mapped object with the new flags, and every address
outside keeps its host byte, content and flags. If the owners of the host pages are in order, no
page that the container refers to has been unmapped. -/
structure MapsRange (s s' : State) (v a b : ℕ) (args : MmapArgs) : Prop where
  inside : ∀ x, a ≤ x → x < b → s'.view v x = some (args.init (x - a)) ∧
    flagsOf (s'.maps v) x = some (pfOfProt args.prot)
  outside : ∀ x, ¬ (a ≤ x ∧ x < b) → cellOf (s'.maps v) x = cellOf (s.maps v) x ∧
    s'.view v x = s.view v x
  live : Wf s → v < s.nextVm → ∀ m ∈ s'.maps v, ∀ i < m.size,
    s'.host.mapped m.data.region (m.data.off + i) = true

theorem protectsRange {fuel : ℕ} (hml : MapsOk (s.maps v)) (hab : a < b) (hb : b < 2 ^ 64)
    (hr : s.doMprotect env fuel v a (b - a) prot = some (0, s')) :
    ProtectsRange s s' v a b prot := by
  have hsum : a + (b - a) = b := by omega
  obtain ⟨h, ml, hrep, ⟨hneg, -⟩ | ⟨hdone, hs'⟩⟩ := doMprotect_reprot hml (by omega) (by omega) hr
  · exact absurd hneg (lt_irrefl 0)
  have hmaps : s'.maps v = ml := by rw [hs', State.flushTlb_maps, State.setMaps_maps]
  have hhost : s'.host = h.host := by rw [hs']; rfl
  rw [hsum] at hrep hdone
  have hcell := hrep.cellOf hml hdone
  rw [← hmaps] at hcell
  refine ⟨fun x => ?_, hhost ▸ hrep.mapped, fun x hx₁ hx₂ => ?_, fun x hx => ?_⟩
  · rw [view_def, view_def, viewOf_eq_cellOf, viewOf_eq_cellOf, hcell, Option.map_map]
    congr 1
    funext c
    simp only [Host.byte, hhost, hrep.bytes]
    rfl
  · simp [flagsOf, hcell, Function.comp_def, hx₁, hx₂]
  · simp [flagsOf, hcell, hx]

theorem mapsRange {args : MmapArgs} (hml : MapsOk (s.maps v))
    (hfresh : ∀ m ∈ s.maps v, m.data.region < s.host.next) (hab : a < b) (hb : b < 2 ^ 64)
    (hfix : args.fixed = true) (haddr : args.addr = a) (hlen : roundUp args.len = b - a)
    (hr : s.doMmap env v args = some (.ok base, s')) : MapsRange s s' v a b args := by
  have hsum : args.addr + roundUp args.len = b := by omega
  obtain ⟨-, p, -, hinit, hbytes, hcell⟩ := doMmap_fixed_cellOf hml hfix (by omega) hr
  rw [hsum, haddr] at hcell
  refine ⟨fun x hx₁ hx₂ => ?_, fun x hx => ?_, fun hw hv m hm i hi => ?_⟩
  · rw [view_def, viewOf_eq_cellOf, flagsOf, hcell, if_pos ⟨hx₁, hx₂⟩]
    exact ⟨congrArg some (hinit _), rfl⟩
  · have hc := (hcell x).trans (if_neg hx)
    refine ⟨hc, ?_⟩
    rw [view_def, view_def, viewOf_eq_cellOf, viewOf_eq_cellOf, hc]
    refine Option.map_congr fun c hcx => ?_
    obtain ⟨m, hm, -, rfl⟩ := (cellOf_eq_some_iff hml).mp hcx
    exact congrFun (hbytes _ (hfresh m hm)) _
  · have hch := doMmap_spec hw hv (by rw [State.mmapBase, if_pos hfix]; omega) hr
    have hv' : v < s'.nextVm := hch.edits.nextVm ▸ hv
    exact ((hch.wf.sharing_front hv').ok m (by simp [hm])).live i hi

theorem doMprotect_ends (hml : MapsOk (s.maps v)) (hab : a < b) (hb : b < 2 ^ 64) (env : HostEnv)
    (prot : U32) :
    ∃ N r, ∀ fuel, N ≤ fuel → s.doMprotect env fuel v a (b - a) prot = some r := by
  have hsum : uadd a (b - a) = b := by
    rw [uadd_eq (by omega)]
    omega
  obtain ⟨N, ⟨e, h, ml⟩, hends⟩ : ∃ N r, ∀ fuel, N ≤ fuel →
      mprotectLoop env a b prot fuel s.heap (s.maps v) 0 false = some r :=
    mprotectLoop_ends [] hab s.heap hml (by simp) false
  cases e with
  | done any =>
    refine ⟨N, (if any then 0 else -12, ((s.setHeap h).setMaps v ml).flushTlb v),
      fun fuel hle => ?_⟩
    rw [State.doMprotect, hsum, hends fuel hle]
  | failed code =>
    refine ⟨N, (code, (s.setHeap h).setMaps v ml), fun fuel hle => ?_⟩
    rw [State.doMprotect, hsum, hends fuel hle]

/-- On a container that is sorted, disjoint and does not wrap, and for every range that is not
empty and does not wrap, `do_mprotect` ends, and if it returns 0 it protects the range; `do_mmap`
with `MAP_FIXED` maps the range if it succeeds. -/
theorem mprotect_and_mmap_pointwise {s : State} {v a b : ℕ} (hml : MapsOk (s.maps v))
    (hfresh : ∀ m ∈ s.maps v, m.data.region < s.host.next) (hab : a < b) (hb : b < 2 ^ 64)
    (env : HostEnv) :
    (∀ prot, ∃ N r, ∀ fuel, N ≤ fuel → s.doMprotect env fuel v a (b - a) prot = some r) ∧
    (∀ prot fuel s', s.doMprotect env fuel v a (b - a) prot = some (0, s') →
      ProtectsRange s s' v a b prot) ∧
    (∀ args base s', args.fixed = true → args.addr = a → roundUp args.len = b - a →
      s.doMmap env v args = some (.ok base, s') → base = a ∧ MapsRange s s' v a b args) := by
  refine ⟨doMprotect_ends hml hab hb env, fun _ _ _ hr => protectsRange hml hab hb hr, ?_⟩
  intro args base s' hfix haddr hlen hr
  refine ⟨?_, mapsRange hml hfresh hab hb hfix haddr hlen hr⟩
  rw [(doMmap_fixed_cellOf hml hfix (by omega) hr).1, haddr]

section Example

/-- One segment of three pages. -/
def threePages : List BootSeg := [⟨0x1000, 0x3000, pfR ||| pfW, fun _ => 5⟩]

theorem bootOk_threePages : BootOk threePages := by
  refine ⟨?_, ?_, ?_⟩ <;> simp [threePages, BootSeg.stop]

/-- The state after `do_mprotect(0x2000, 0x1000, PROT_READ)`. -/
def middleSealed : State :=
  ((State.boot threePages).doMprotect HostEnv.good 8 0 0x2000 0x1000 protRead).elim
    (State.boot threePages) Prod.snd

theorem doMprotect_middleSealed :
    (State.boot threePages).doMprotect HostEnv.good 8 0 0x2000 0x1000 protRead =
      some (0, middleSealed) := rfl

def fixedMiddle : MmapArgs :=
  ⟨0x2000, 0x1000, protRead, mapAnonymous ||| mapFixed, true, fun _ => 0⟩

set_option maxRecDepth 20000 in
theorem doMmap_fixedMiddle :
    ∃ s, (State.boot threePages).doMmap HostEnv.good 0 fixedMiddle = some (.ok 0x2000, s) :=
  ⟨_, rfl⟩

theorem protectsRange_middle :
    ProtectsRange (State.boot threePages) middleSealed 0 0x2000 0x3000 protRead ∧
    ∃ s, MapsRange (State.boot threePages) s 0 0x2000 0x3000 fixedMiddle := by
  have hml := (booting_boot bootOk_threePages).wf.mapsOk (v := 0) (by decide)
  obtain ⟨-, hprotect, hmmap⟩ := mprotect_and_mmap_pointwise (a := 0x2000) (b := 0x3000) hml
    (by decide) (by decide) (by decide) HostEnv.good
  obtain ⟨s, hs⟩ := doMmap_fixedMiddle
  exact ⟨hprotect protRead 8 middleSealed doMprotect_middleSealed, s,
    (hmmap fixedMiddle _ s rfl rfl rfl hs).2⟩

end Example

end Bpfvm.Memory
