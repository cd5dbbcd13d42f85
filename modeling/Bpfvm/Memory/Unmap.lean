import Bpfvm.Memory.Isolation

/-!
# What `munmap` removes

`do_munmap` does not read its length: `vm::unmap` erases the segment that starts at the
address. In a well-formed state that is the requested range exactly when this segment is the
only one in the range and does not stick out of it.
-/
namespace Bpfvm.Memory

/-- What the container of a vm says about one address. -/
structure Cell where
  ptr : HostPtr
  flags : U32
  byte : Byte
  live : Bool
  deriving DecidableEq

def State.cell (s : State) (v a : ℕ) : Option Cell :=
  (findMap (s.maps v) a 1).map fun m =>
    ⟨m.ptr a, m.flags, s.host.byte (m.ptr a), s.host.mapped m.data.region (m.ptr a).off⟩

/-- `len` rounded up to whole pages. -/
def pages (len : ℕ) : ℕ := (len + (pageSize - 1)) / pageSize * pageSize

/-- `[lo, hi)` is unmapped and nothing else has changed. -/
structure Unmapped (s s' : State) (v lo hi : ℕ) : Prop where
  gone : ∀ a, lo ≤ a → a < hi → s'.cell v a = none
  kept : ∀ a, a < lo ∨ hi ≤ a → s'.cell v a = s.cell v a

/-- The segment has an address in `[lo, hi)`. -/
def Memmap.Meets (m : Memmap) (lo hi : ℕ) : Prop := ∃ a, lo ≤ a ∧ a < hi ∧ m.Has a

section
variable {s s' : State} {v : ℕ}

theorem cell_eq_some_iff (hw : Wf s) (hv : v < s.nextVm) {a : ℕ} {x : Cell} :
    s.cell v a = some x ↔
      ∃ m ∈ s.maps v, m.Has a ∧ x = ⟨m.ptr a, m.flags, s.host.byte (m.ptr a), true⟩ := by
  have hml := hw.mapsOk hv
  have hlive : ∀ m ∈ s.maps v, m.Has a →
      s.host.mapped m.data.region (m.ptr a).off = true := by
    intro m hm ha
    have hok := (hw.sharing_front hv).ok m (by simp [hm])
    have hlt : a - m.paddr < m.size := by
      have hhi := ha.2
      unfold Memmap.stop at hhi
      have := ha.1
      omega
    exact hok.live _ hlt
  by_cases ha : a < 2 ^ 64
  · rw [State.cell, Option.map_eq_some_iff]
    constructor
    · rintro ⟨m, hf, rfl⟩
      obtain ⟨hm, hlo, hhi⟩ := (findMap_eq_some_iff hml ha Nat.one_pos (by omega)).mp hf
      exact ⟨m, hm, ⟨hlo, hhi⟩, by rw [hlive m hm ⟨hlo, hhi⟩]⟩
    · rintro ⟨m, hm, hhas, rfl⟩
      refine ⟨m, (findMap_eq_some_iff hml ha Nat.one_pos (by omega)).mpr ⟨hm, hhas.1, hhas.2⟩, ?_⟩
      rw [hlive m hm hhas]
  · have hnone : findMap (s.maps v) a 1 = none := by
      rw [findMap, if_pos]
      unfold uadd
      omega
    constructor
    · intro h
      simp [State.cell, hnone] at h
    · rintro ⟨m, hm, hhas, -⟩
      have hb := hml.bound m hm
      have := hhas.2
      omega

theorem doMunmap_removes (hw : Wf s) (hv : v < s.nextVm) {addr : ℕ}
    (h : s.doMunmap v addr = (0, s')) :
    ∃ pre m post, s.maps v = pre ++ m :: post ∧ m.paddr = addr ∧ s'.maps v = pre ++ post ∧
      s'.host.bytes = s.host.bytes ∧ s'.nextVm = s.nextVm ∧ Wf s' := by
  cases hf : (s.maps v).find? (fun m => addr == m.paddr) with
  | none => simp [doMunmap_none hf] at h
  | some m =>
    obtain ⟨pre, post, hml, hma, hunmap, hmaps⟩ := doMunmap_some hf
    have hch := doMunmap_spec hw hv hf
    rw [show s' = (s.doMunmap v addr).2 by rw [h]]
    refine ⟨pre, m, post, hml, hma, hmaps, ?_, hch.edits.nextVm, hch.wf⟩
    rw [hunmap]
    exact (release_frame _ m).2.2.1

/-- `munmap` is exact when the segment it removes is the only one in the range and ends in it,
and only then. -/
theorem unmapped_iff (hw : Wf s) (hv : v < s.nextVm) {addr len : ℕ} (hlen : 0 < len)
    (h : s.doMunmap v addr = (0, s')) :
    Unmapped s s' v addr (addr + pages len) ↔
      ∀ m ∈ s.maps v, m.Meets addr (addr + pages len) →
        m.paddr = addr ∧ m.stop ≤ addr + pages len := by
  obtain ⟨pre, m, post, hml, hma, hml', hbytes, hnv, hw'⟩ := doMunmap_removes hw hv h
  have hv' : v < s'.nextVm := hnv ▸ hv
  have hok := hw.mapsOk hv
  have hm : m ∈ s.maps v := by simp [hml]
  have hpos : 0 < pages len := by
    unfold pages pageSize
    omega
  have hstart : m.Has addr := ⟨hma.le, hma ▸ hok.paddr_lt hm⟩
  have hmeets : m.Meets addr (addr + pages len) := ⟨addr, le_rfl, by omega, hstart⟩
  have hsub : ∀ x ∈ s'.maps v, x ∈ s.maps v := by
    intro x hx
    rw [hml'] at hx
    rw [hml]
    simp only [List.mem_append, List.mem_cons] at hx ⊢
    tauto
  have hrest : ∀ x ∈ s.maps v, x ≠ m → x ∈ s'.maps v := by
    intro x hx hne
    rw [hml] at hx
    rw [hml']
    simp only [List.mem_append, List.mem_cons] at hx ⊢
    tauto
  have hnot : m ∉ s'.maps v := hml' ▸ (hml ▸ hok).not_mem_remove
  constructor
  · rintro ⟨hgone, hkept⟩ x hx ⟨a, hlo, hhi, ha⟩
    by_cases hxm : x = m
    · subst hxm
      refine ⟨hma, ?_⟩
      by_contra hstick
      -- The first byte behind the range belonged to the removed segment.
      have hlast : x.Has (addr + pages len) := ⟨by omega, by omega⟩
      have hcell := (cell_eq_some_iff hw hv).mpr ⟨x, hx, hlast, rfl⟩
      rw [← hkept _ (Or.inr le_rfl)] at hcell
      obtain ⟨y, hy, hya, -⟩ := (cell_eq_some_iff hw' hv').mp hcell
      rw [hok.eq_of_has (hsub y hy) hx hya hlast] at hy
      exact hnot hy
    · have hcell := (cell_eq_some_iff hw' hv').mpr ⟨x, hrest x hx hxm, ha, rfl⟩
      rw [hgone a hlo hhi] at hcell
      simp at hcell
  · intro hall
    have hend := (hall m hm hmeets).2
    refine ⟨?_, ?_⟩
    · intro a hlo hhi
      by_contra hne
      obtain ⟨x, hx⟩ := Option.ne_none_iff_exists'.mp hne
      obtain ⟨y, hy, hya, -⟩ := (cell_eq_some_iff hw' hv').mp hx
      have hyaddr := (hall y (hsub y hy) ⟨a, hlo, hhi, hya⟩).1
      have hyhas : y.Has addr := ⟨hyaddr.le, hyaddr ▸ hok.paddr_lt (hsub y hy)⟩
      rw [hok.eq_of_has (hsub y hy) hm hyhas hstart] at hy
      exact hnot hy
    · intro a hout
      apply Option.ext
      intro x
      rw [cell_eq_some_iff hw hv, cell_eq_some_iff hw' hv']
      simp only [Host.byte, hbytes]
      constructor
      · rintro ⟨y, hy, hya, rfl⟩
        exact ⟨y, hsub y hy, hya, rfl⟩
      · rintro ⟨y, hy, hya, rfl⟩
        refine ⟨y, hrest y hy ?_, hya, rfl⟩
        rintro rfl
        have h₁ := hya.1
        have h₂ := hya.2
        omega

end

section Example

theorem unmapped_onePair : Unmapped (State.boot onePair) ((State.boot onePair).doMunmap 0 0x1000).2
    0 0x1000 (0x1000 + pages 0x1800) := by
  have hb := booting_boot bootOk_onePair
  refine (unmapped_iff hb.wf (by decide) (by decide) (by rfl)).mpr ?_
  intro m hm _
  obtain rfl := List.mem_singleton.mp hm
  exact ⟨rfl, by decide⟩

/-- Of a segment of two pages the first is unmapped, and the second goes with it. -/
theorem munmap_removes_whole_segment : ∃ (s s' : State) (v addr len : ℕ), Wf s ∧ v < s.nextVm ∧
    addr % pageSize = 0 ∧ 0 < len ∧ s.doMunmap v addr = (0, s') ∧
    ¬ Unmapped s s' v addr (addr + pages len) := by
  have hb := booting_boot bootOk_onePair
  refine ⟨State.boot onePair, _, 0, 0x1000, 0x1000, hb.wf, by decide, rfl, by decide, rfl, ?_⟩
  intro h
  have hkept := h.kept 0x2000 (Or.inr (by decide))
  revert hkept
  decide

end Example

end Bpfvm.Memory
