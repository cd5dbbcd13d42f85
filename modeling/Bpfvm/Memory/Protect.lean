import Bpfvm.Lib.Runs
import Bpfvm.Memory.Edit

/-!
# Protecting

`do_mprotect` on one container. Its loop is a run of two kinds of steps: a segment that sticks out
of the range is shared and cut, and a segment inside the range gets the new flags. Everything else
about the loop follows from what one step does. The range must be nonempty and must not wrap
around.
-/
namespace Bpfvm.Memory
open List

/-! ## The loop as a run -/

/-- The segment does not overlap the range. -/
def Outside (lo hi : ℕ) (m : Memmap) : Prop := hi ≤ m.paddr ∨ m.uend ≤ lo

/-- A part of the segment is outside the range. -/
def SticksOut (lo hi : ℕ) (m : Memmap) : Prop :=
  m.paddr < max lo m.paddr ∨ min hi m.uend < m.uend

/-- The change would take `PF_X` away. -/
def LosesExec (prot : U32) (m : Memmap) : Prop :=
  hasFlag m.flags pfX = true ∧ hasFlag (pfOfProt prot) pfX = false

/-- The loop has nothing to do at the segment. -/
def Protected (lo hi : ℕ) (prot : U32) (m : Memmap) : Prop :=
  Outside lo hi m ∨ (¬ SticksOut lo hi m ∧ pfOfProt prot = m.flags &&& kProtMask)

section
variable (env : HostEnv) (lo hi : ℕ) (prot : U32)

/-- The host call for the middle part of a segment that is cut. -/
def protectMiddle (h : Heap) (m : Memmap) : Option ℕ+ × Heap :=
  hostProtect env m.owned (shareHost h m).1
    ((shareHost h m).2.data.add (usub (max lo m.paddr) m.paddr))
    (usub (min hi m.uend) (max lo m.paddr)) prot

/-- An iteration of the loop that changes the container. -/
inductive ProtStep : Heap × List Memmap → Unit → Heap × List Memmap → Prop where
  | cut {h h' : Heap} {pre post : List Memmap} {m : Memmap} (hov : ¬ Outside lo hi m)
      (hx : ¬ LosesExec prot m) (hst : SticksOut lo hi m)
      (hp : protectMiddle env lo hi prot h m = (none, h')) :
      ProtStep (h, pre ++ m :: post) () (h', pre ++ (mprotectParts (shareHost h m).2
        (max lo m.paddr) (min hi m.uend) (pfOfProt prot) ++ post))
  | flags {h h' : Heap} {pre post : List Memmap} {m : Memmap} (hov : ¬ Outside lo hi m)
      (hx : ¬ LosesExec prot m) (hin : ¬ SticksOut lo hi m)
      (hp : hostProtect env m.owned h m.data m.size prot = (none, h')) :
      ProtStep (h, pre ++ m :: post) ()
        (h', pre ++ { m with flags := m.withProt (pfOfProt prot) } :: post)

/-- A `return` inside the loop, with its code. -/
inductive ProtFail : Heap × List Memmap → Int → Heap × List Memmap → Prop where
  | exec {h : Heap} {ml : List Memmap} : ProtFail (h, ml) (-13) (h, ml)
  | cut {h h' : Heap} {pre post : List Memmap} {m : Memmap} {e : ℕ+} (hov : ¬ Outside lo hi m)
      (hp : protectMiddle env lo hi prot h m = (some e, h')) :
      ProtFail (h, pre ++ m :: post) (-(e : ℕ)) (h', pre ++ (shareHost h m).2 :: post)
  | flags {h h' : Heap} {ml : List Memmap} {m : Memmap} {e : ℕ+}
      (hp : hostProtect env m.owned h m.data m.size prot = (some e, h')) :
      ProtFail (h, ml) (-(e : ℕ)) (h', ml)

end

variable {ml ml' pre post rest : List Memmap} {prot fl : U32} {env : HostEnv}
  {lo hi addr fuel len v : ℕ} {any : Bool} {h' h : Heap} {e : LoopEnd} {code : Int}
  {q' q : Heap × List Memmap} {s' s : State} {m : Memmap}

theorem pfOfProt_and_mask (prot : U32) : pfOfProt prot &&& kProtMask = pfOfProt prot := by
  unfold pfOfProt
  split_ifs <;> decide

/-- The protection bits of `f` replaced by `fl`. -/
def newProt (fl f : U32) : U32 := (f &&& ~~~kProtMask) ||| fl

theorem withProt_eq (m : Memmap) (fl : U32) : m.withProt fl = newProt fl m.flags := rfl

theorem newProt_and_mask (prot f : U32) :
    newProt (pfOfProt prot) f &&& kProtMask = pfOfProt prot := by
  rw [newProt, BitVec.and_or_distrib_right, pfOfProt_and_mask, BitVec.and_assoc,
    show ~~~kProtMask &&& kProtMask = 0 by decide]
  simp

theorem newProt_of_and_mask {f : U32} (h : fl = f &&& kProtMask) : newProt fl f = f := by
  rw [newProt, h, ← BitVec.and_or_distrib_left,
    show ~~~kProtMask ||| kProtMask = BitVec.allOnes 32 by decide, BitVec.and_allOnes]

/-! ## What a step does -/

section Cut

variable {subLo subHi : ℕ} (hb : m.stop < 2 ^ 64) (hlo : m.paddr ≤ subLo) (hlt : subLo < subHi)
  (hhi : subHi ≤ m.stop)

include hb hlo hlt hhi

theorem mprotectParts_eq : mprotectParts m subLo subHi fl =
    (if m.paddr < subLo then [m.part m.paddr (subLo - m.paddr) m.flags] else []) ++
      m.part subLo (subHi - subLo) (m.withProt fl) ::
      if subHi < m.stop then [m.part subHi (m.stop - subHi) m.flags] else [] := by
  have hu : m.uend = m.stop := uadd_eq hb
  rw [mprotectParts, hu, usub_eq hlo (by omega), usub_eq hlt.le (by omega), usub_eq hhi hb]

/-- The three parts: in front of the range, in the range, and behind it. -/
theorem mem_mprotectParts {p : Memmap} (hp : p ∈ mprotectParts m subLo subHi fl) : PartOf m p ∧
    ((p.paddr = m.paddr ∧ p.stop = subLo ∧ p.flags = m.flags) ∨
    (p.paddr = subLo ∧ p.stop = subHi ∧ p.flags = newProt fl m.flags) ∨
    (p.paddr = subHi ∧ p.stop = m.stop ∧ p.flags = m.flags)) := by
  rw [mprotectParts_eq hb hlo hlt hhi] at hp
  simp only [mem_append, mem_cons, mem_ite_nil_right, not_mem_nil,
    or_false] at hp
  rcases hp with ⟨-, rfl⟩ | rfl | ⟨-, rfl⟩
  · exact ⟨part_partOf le_rfl (by omega) (by omega), .inl ⟨rfl, Nat.add_sub_of_le hlo, rfl⟩⟩
  · exact ⟨part_partOf hlo (by omega) (by omega),
      .inr (.inl ⟨rfl, Nat.add_sub_of_le hlt.le, rfl⟩)⟩
  · exact ⟨part_partOf (by omega) (by omega) (by omega),
      .inr (.inr ⟨rfl, Nat.add_sub_of_le hhi, rfl⟩)⟩

theorem mprotectParts_sorted :
    Segments.Sorted Memmap.paddr Memmap.stop (mprotectParts m subLo subHi fl) := by
  rw [mprotectParts_eq hb hlo hlt hhi]
  split_ifs <;>
    simp only [cons_append, nil_append, Segments.Sorted.cons_iff, mem_cons,
      not_mem_nil, Segments.Sorted.nil, forall_eq_or_imp, Memmap.stop, Memmap.part,
      IsEmpty.forall_iff, implies_true, and_true] <;> unfold Memmap.stop at * <;> omega

theorem mprotectParts_cover {a : ℕ} (ha : m.Has a) :
    ∃ p ∈ mprotectParts m subLo subHi fl, p.Has a := by
  obtain ⟨ha, ha'⟩ := ha
  rw [mprotectParts_eq hb hlo hlt hhi]
  by_cases hal : a < subLo
  · refine ⟨m.part m.paddr (subLo - m.paddr) m.flags, by simp [show m.paddr < subLo by omega],
      ha, ?_⟩
    change a < m.paddr + (subLo - m.paddr)
    omega
  · by_cases har : a < subHi
    · refine ⟨m.part subLo (subHi - subLo) (m.withProt fl), by simp, show subLo ≤ a by omega, ?_⟩
      change a < subLo + (subHi - subLo)
      omega
    · refine ⟨m.part subHi (m.stop - subHi) m.flags, by simp [show subHi < m.stop by omega],
        show subHi ≤ a by omega, ?_⟩
      change a < subHi + (m.stop - subHi)
      omega

end Cut

/-- Where a segment that overlaps the range is cut, once it is shared. -/
theorem cut_shared (h : Heap) (hlt : lo < hi) (hml : MapsOk (pre ++ m :: post))
    (hov : ¬ Outside lo hi m) :
    (shareHost h m).2.stop < 2 ^ 64 ∧ (shareHost h m).2.paddr ≤ max lo m.paddr ∧
      max lo m.paddr < min hi m.uend ∧ min hi m.uend ≤ (shareHost h m).2.stop := by
  have hm : m ∈ pre ++ m :: post := by simp
  have hne := hml.paddr_lt hm
  have hb := hml.bound m hm
  rw [shareHost_paddr, shareHost_stop]
  rw [Outside, hml.uend_eq hm] at *
  omega

/-- What the loop of `do_mprotect` does to a container: the segments are cut, the flags in the
range change, no byte does. -/
structure Reprot (lo hi : ℕ) (prot : U32) (h : Heap) (ml : List Memmap) (h' : Heap)
    (ml' : List Memmap) : Prop where
  ok : MapsOk ml'
  back : ∀ m ∈ ml', ∀ a, m.Has a → ∃ m₀ ∈ ml, m₀.Has a ∧ m.ptr a = m₀.ptr a ∧
    (m.flags = m₀.flags ∨ (lo ≤ a ∧ a < hi ∧ m.flags = newProt (pfOfProt prot) m₀.flags))
  cover : ∀ m₀ ∈ ml, ∀ a, m₀.Has a → ∃ m ∈ ml', m.Has a
  keep : ∀ m ∈ ml, hi ≤ m.paddr ∨ m.stop ≤ lo → m ∈ ml'
  sharing : ∀ rest, Sharing h (ml ++ rest) → Sharing h' (ml' ++ rest)
  bytes : h'.host.bytes = h.host.bytes
  mapped : h'.host.mapped = h.host.mapped
  next : h'.host.next = h.host.next

namespace Reprot

variable {ml'' : List Memmap} {h'' : Heap}

theorem refl (hml : MapsOk ml) : Reprot lo hi prot h ml h ml :=
  ⟨hml, fun m hm _ ha => ⟨m, hm, ha, rfl, .inl rfl⟩, fun m hm _ ha => ⟨m, hm, ha⟩,
    fun _ hm _ => hm, fun _ hs => hs, rfl, rfl, rfl⟩

theorem trans (h₁ : Reprot lo hi prot h ml h' ml') (h₂ : Reprot lo hi prot h' ml' h'' ml'') :
    Reprot lo hi prot h ml h'' ml'' := by
  refine ⟨h₂.ok, ?_, ?_, fun m hm ho => h₂.keep m (h₁.keep m hm ho) ho,
    fun rest hs => h₂.sharing rest (h₁.sharing rest hs), h₂.bytes.trans h₁.bytes,
    h₂.mapped.trans h₁.mapped, h₂.next.trans h₁.next⟩
  · intro m hm a hma
    obtain ⟨m₁, hm₁, hma₁, hptr₁, hfl₁⟩ := h₂.back m hm a hma
    obtain ⟨m₀, hm₀, hma₀, hptr₀, hfl₀⟩ := h₁.back m₁ hm₁ a hma₁
    refine ⟨m₀, hm₀, hma₀, hptr₁.trans hptr₀, ?_⟩
    rcases hfl₁ with hfl₁ | ⟨hlo, hhi, hfl₁⟩
    · rw [hfl₁]
      exact hfl₀
    · refine .inr ⟨hlo, hhi, ?_⟩
      rcases hfl₀ with hfl₀ | ⟨-, -, hfl₀⟩
      · rw [hfl₁, hfl₀]
      · rw [hfl₁, hfl₀, newProt_of_and_mask (newProt_and_mask _ _).symm]
  · intro m₀ hm₀ a hma₀
    obtain ⟨m₁, hm₁, hma₁⟩ := h₁.cover m₀ hm₀ a hma₀
    exact h₂.cover m₁ hm₁ a hma₁

/-- One segment is replaced by segments that show the same addresses. -/
theorem replace (ps : List Memmap) (hml : MapsOk (pre ++ m :: post)) (hov : ¬ Outside lo hi m)
    (hok : MapsOk (pre ++ (ps ++ post)))
    (hback : ∀ p ∈ ps, ∀ a, p.Has a → m.Has a ∧ p.ptr a = m.ptr a ∧
      (p.flags = m.flags ∨ (lo ≤ a ∧ a < hi ∧ p.flags = newProt (pfOfProt prot) m.flags)))
    (hcover : ∀ a, m.Has a → ∃ p ∈ ps, p.Has a) (hhost : h'.host = h.host)
    (hshare : ∀ rest, Sharing h (pre ++ m :: post ++ rest) →
      Sharing h' (pre ++ (ps ++ post) ++ rest)) :
    Reprot lo hi prot h (pre ++ m :: post) h' (pre ++ (ps ++ post)) := by
  refine ⟨hok, ?_, ?_, ?_, hshare, by rw [hhost], by rw [hhost], by rw [hhost]⟩
  · intro p hp a hpa
    simp only [mem_append] at hp
    rcases hp with hp | hp | hp
    · exact ⟨p, by simp [hp], hpa, rfl, .inl rfl⟩
    · exact ⟨m, by simp, hback p hp a hpa⟩
    · exact ⟨p, by simp [hp], hpa, rfl, .inl rfl⟩
  · intro x hx a hxa
    simp only [mem_append, mem_cons] at hx
    rcases hx with hx | rfl | hx
    · exact ⟨x, by simp [hx], hxa⟩
    · obtain ⟨p, hp, hpa⟩ := hcover a hxa
      exact ⟨p, by simp [hp], hpa⟩
    · exact ⟨x, by simp [hx], hxa⟩
  · intro x hx ho
    rw [Outside, hml.uend_eq (by simp)] at hov
    have hxm : x ≠ m := fun he => hov (he ▸ ho)
    simp only [mem_append, mem_cons] at hx ⊢
    tauto

/-- The host calls of the loop change protections only. -/
theorem protect (hr : Reprot lo hi prot h ml h' ml') {own : Bool} {p : HostPtr} {n : ℕ}
    {r : Option ℕ+} (heq : hostProtect env own h' p n prot = (r, h'')) :
    Reprot lo hi prot h ml h'' ml' := by
  unfold hostProtect at heq
  split_ifs at heq
  · cases heq
    refine ⟨hr.ok, hr.back, hr.cover, hr.keep, fun rest hs => ?_,
      (Host.mprotect_bytes _ _ _ _ _).trans hr.bytes,
      (Host.mprotect_mapped _ _ _ _ _).trans hr.mapped,
      (Host.mprotect_next _ _ _ _ _).trans hr.next⟩
    refine (hr.sharing rest hs).frame (Host.mprotect_next _ _ _ _ _).ge le_rfl ?_
      (fun _ _ _ _ => rfl)
    intro x _
    exact congrFun (Host.mprotect_mapped h'.host env p n prot) x.data.region
  · cases heq
    exact hr

theorem holds (hr : Reprot lo hi prot h ml h' ml') (hml : MapsOk ml) (host : Host) (a : ℕ)
    (b : Byte) : Holds host ml' a b ↔ Holds host ml a b := by
  constructor
  · rintro ⟨p, hp, hpa, rfl⟩
    obtain ⟨m, hm, hma, hptr, -⟩ := hr.back p hp a hpa
    exact ⟨m, hm, hma, by rw [hptr]⟩
  · rintro ⟨m, hm, hma, rfl⟩
    obtain ⟨p, hp, hpa⟩ := hr.cover m hm a hma
    obtain ⟨m', hm', hma', hptr, -⟩ := hr.back p hp a hpa
    obtain rfl := hml.eq_of_has hm hm' hma hma'
    exact ⟨p, hp, hpa, by rw [hptr]⟩

theorem view (hr : Reprot lo hi prot h ml h' ml') (hml : MapsOk ml) :
    viewOf h'.host ml' = viewOf h.host ml := by
  refine viewOf_congr hr.ok hml fun a b => ?_
  exact (hr.holds hml h'.host a b).trans (holds_host_congr fun x _ => congrFun hr.bytes _)

end Reprot

/-- Parts of a segment in its place, after it has become shared. -/
theorem Sharing.cut {ps : List Memmap} (hs : Sharing h (pre ++ m :: post ++ rest))
    (hps : (shareHost h m).2.owned = false → ∀ p ∈ ps, PartOf (shareHost h m).2 p) :
    Sharing (shareHost h m).1 (pre ++ (ps ++ post) ++ rest) := by
  obtain ⟨hsa, hsh⟩ := shareHost_spec (hs.perm (perm_front _ _ _ _))
  obtain ⟨c, hc⟩ := hsa.cow
  refine (hsh.parts hc (hps hsa.own)).perm (perm_iff_count.mpr fun x => ?_)
  simp only [count_append]
  omega

theorem ProtStep.reprot (hstep : ProtStep env lo hi prot (h, ml) () (h', ml')) (hlt : lo < hi)
    (hml : MapsOk ml) : Reprot lo hi prot h ml h' ml' := by
  cases hstep with
  | @cut _ _ pre post m hov hx hst hp =>
    obtain ⟨hb₁, hlo₁, hlt₁, hhi₁⟩ := cut_shared h hlt hml hov
    have hmem := fun p (hp : p ∈ mprotectParts _ _ _ (pfOfProt prot)) =>
      mem_mprotectParts hb₁ hlo₁ hlt₁ hhi₁ hp
    refine Reprot.protect (.replace _ hml hov ?_ ?_ ?_ (shareHost_host h m)
      fun rest hs => hs.cut fun _ p hp => (hmem p hp).1) hp
    · refine hml.replace (mprotectParts_sorted hb₁ hlo₁ hlt₁ hhi₁) fun p hp => ?_
      exact ⟨shareHost_paddr h m ▸ (hmem p hp).1.lo, shareHost_stop h m ▸ (hmem p hp).1.hi⟩
    · intro p hp a hpa
      obtain ⟨hpart, hcase⟩ := hmem p hp
      refine ⟨(shareHost_has h m a).mp (hpart.has hpa),
        (hpart.ptr_eq hpa).trans (shareHost_ptr h m a), ?_⟩
      obtain ⟨ha₁, ha₂⟩ := hpa
      rw [shareHost_flags] at hcase
      rcases hcase with ⟨-, -, hfl⟩ | ⟨hpa, hps, hfl⟩ | ⟨-, -, hfl⟩
      · exact .inl hfl
      · exact .inr ⟨by omega, by omega, hfl⟩
      · exact .inl hfl
    · exact fun a ha => mprotectParts_cover hb₁ hlo₁ hlt₁ hhi₁ ((shareHost_has h m a).mpr ha)
  | @flags _ _ pre post m hov hx hin hp =>
    have hu := hml.uend_eq (m := m) (by simp)
    refine Reprot.protect (.replace [{ m with flags := m.withProt (pfOfProt prot) }] hml
      hov (hml.replace_one rfl rfl) ?_ (fun a ha => ⟨_, mem_singleton_self _, ha⟩) rfl ?_) hp
    · refine forall_mem_singleton.mpr fun a ⟨ha₁, ha₂⟩ => ⟨⟨ha₁, ha₂⟩, rfl, .inr ?_⟩
      change m.paddr ≤ a at ha₁
      change a < m.stop at ha₂
      rw [SticksOut, hu] at hin
      exact ⟨by omega, by omega, rfl⟩
    · intro rest hs
      have hfront := hs.perm (perm_front _ _ _ _)
      have hm := hfront.head
      refine Sharing.perm (hfront.tail.cons (m := { m with flags := m.withProt (pfOfProt prot) })
        ⟨hm.region_lt, hm.live, hm.own, hm.shared⟩ hfront.compat) ?_
      exact (perm_front _ _ _ _).symm

theorem ProtFail.reprot (hfail : ProtFail env lo hi prot (h, ml) code (h', ml'))
    (hml : MapsOk ml) : Reprot lo hi prot h ml h' ml' := by
  cases hfail with
  | exec => exact .refl hml
  | @cut _ _ pre post m e hov hp =>
    refine Reprot.protect (.replace [(shareHost h m).2] hml hov
      (hml.replace_one (shareHost_paddr h m) (shareHost_size h m)) ?_ ?_ (shareHost_host h m)
      fun rest hs => hs.cut fun hown => forall_mem_singleton.mpr (PartOf.self hown)) hp
    · refine forall_mem_singleton.mpr fun a ha => ?_
      exact ⟨(shareHost_has h m a).mp ha, shareHost_ptr h m a, .inl (shareHost_flags h m)⟩
    · exact fun a ha => ⟨_, mem_singleton_self _, (shareHost_has h m a).mpr ha⟩
  | flags hp => exact (Reprot.refl hml).protect hp

/-- A `return` inside the loop is an error. -/
theorem ProtFail.neg (h : ProtFail env lo hi prot q code q') : code < 0 := by
  cases h with
  | exec => decide
  | @cut _ _ _ _ _ e _ _ | @flags _ _ _ _ e _ =>
    have := e.pos
    omega

/-! ## The loop is a run -/

instance (lo hi : ℕ) (m : Memmap) : Decidable (Outside lo hi m) :=
  inferInstanceAs (Decidable (_ ∨ _))

instance (lo hi : ℕ) (m : Memmap) : Decidable (SticksOut lo hi m) :=
  inferInstanceAs (Decidable (_ ∨ _))

/-- The number of segments that still have to be cut. -/
def uncut (lo hi : ℕ) (ml : List Memmap) : ℕ :=
  ml.countP fun m => decide (¬ Outside lo hi m ∧ SticksOut lo hi m)

theorem uncut_cut (h : Heap) (hlt : lo < hi) (hml : MapsOk (pre ++ m :: post))
    (hov : ¬ Outside lo hi m) (hst : SticksOut lo hi m) :
    uncut lo hi (pre ++ (mprotectParts (shareHost h m).2 (max lo m.paddr) (min hi m.uend) fl ++
      post)) < uncut lo hi (pre ++ m :: post) := by
  obtain ⟨hb₁, hlo₁, hlt₁, hhi₁⟩ := cut_shared h hlt hml hov
  have hparts : uncut lo hi (mprotectParts (shareHost h m).2 (max lo m.paddr) (min hi m.uend)
      fl) = 0 := by
    refine countP_eq_zero.mpr fun p hp => ?_
    obtain ⟨hpart, hbounds⟩ := mem_mprotectParts hb₁ hlo₁ hlt₁ hhi₁ hp
    have hpu : p.uend = p.stop := uadd_eq (hpart.hi.trans_lt hb₁)
    rw [shareHost_paddr, shareHost_stop, ← hml.uend_eq (m := m) (by simp)] at hbounds
    simp only [Outside, SticksOut, hpu, decide_eq_true_eq]
    omega
  unfold uncut at hparts ⊢
  rw [countP_append, countP_append, hparts, countP_append, countP_cons,
    if_pos (decide_eq_true ⟨hov, hst⟩)]
  omega

theorem getElem?_append_length : (pre ++ m :: post)[pre.length]? = some m := by simp

theorem mprotectLoop_cut (hov : ¬ Outside lo hi m) (hx : ¬ LosesExec prot m)
    (hst : SticksOut lo hi m) (fuel : ℕ) :
    mprotectLoop env lo hi prot (fuel + 1) h (pre ++ m :: post) pre.length any =
      match protectMiddle env lo hi prot h m with
      | (some e, h') => some (.failed (-(e : ℕ)), h', pre ++ (shareHost h m).2 :: post)
      | (none, h') => mprotectLoop env lo hi prot fuel h' ([] ++ (pre ++ (mprotectParts
          (shareHost h m).2 (max lo m.paddr) (min hi m.uend) (pfOfProt prot) ++ post))) 0 true := by
  have htake : (pre ++ m :: post).take pre.length = pre := by simp
  have hdrop : (pre ++ m :: post).drop (pre.length + 1) = post := by simp
  have hset (m' : Memmap) : (pre ++ m :: post).set pre.length m' = pre ++ m' :: post := by simp
  rw [mprotectLoop, getElem?_append_length]
  simp only [htake, hdrop, hset]
  exact (if_neg hov).trans ((if_neg hx).trans (if_pos hst))

theorem mprotectLoop_flags (hov : ¬ Outside lo hi m) (hx : ¬ LosesExec prot m)
    (hst : ¬ SticksOut lo hi m) (hsame : ¬ pfOfProt prot = m.flags &&& kProtMask) (fuel : ℕ) :
    mprotectLoop env lo hi prot (fuel + 1) h (pre ++ m :: post) pre.length any =
      match hostProtect env m.owned h m.data m.size prot with
      | (some e, h') => some (.failed (-(e : ℕ)), h', pre ++ m :: post)
      | (none, h') => mprotectLoop env lo hi prot fuel h'
          (pre ++ { m with flags := m.withProt (pfOfProt prot) } :: post) (pre.length + 1)
          true := by
  have hset (m' : Memmap) : (pre ++ m :: post).set pre.length m' = pre ++ m' :: post := by simp
  rw [mprotectLoop, getElem?_append_length]
  simp only [hset]
  exact (if_neg hov).trans ((if_neg hx).trans ((if_neg hst).trans (if_neg hsame)))

/-- One iteration of the loop, behind segments that are protected: it ends the loop, or there is
less to cut or less to look at. -/
theorem mprotectLoop_turn (env) (hlt : lo < hi) (hml : MapsOk (pre ++ rest)) (h : Heap) (any : Bool)
    (hpre : ∀ x ∈ pre, Protected lo hi prot x) :
    ∃ r, (∀ fuel, mprotectLoop env lo hi prot (fuel + 1) h (pre ++ rest) pre.length any =
        r fuel) ∧
      ((rest = [] ∧ r = fun _ => some (.done any, h, pre)) ∨
      (∃ code q, ProtFail env lo hi prot (h, pre ++ rest) code q ∧
        r = fun _ => some (.failed code, q)) ∨
      ∃ b h' pre' rest', (∀ x ∈ pre', Protected lo hi prot x) ∧
        (h' = h ∧ pre' ++ rest' = pre ++ rest ∨
          ProtStep env lo hi prot (h, pre ++ rest) () (h', pre' ++ rest')) ∧
        (uncut lo hi (pre' ++ rest') < uncut lo hi (pre ++ rest) ∨
          uncut lo hi (pre' ++ rest') = uncut lo hi (pre ++ rest) ∧
            rest'.length < rest.length) ∧
        r = fun fuel => mprotectLoop env lo hi prot fuel h' (pre' ++ rest') pre'.length b) := by
  cases rest with
  | nil => exact ⟨_, fun fuel => by simp [mprotectLoop], .inl ⟨rfl, rfl⟩⟩
  | cons m post =>
    have hsnoc {m' : Memmap} (hm' : Protected lo hi prot m') :
        ∀ x ∈ pre ++ [m'], Protected lo hi prot x :=
      forall_mem_append.mpr ⟨hpre, forall_mem_singleton.mpr hm'⟩
    by_cases hov : Outside lo hi m
    · refine ⟨_, fun fuel => ?_, .inr (.inr ⟨any, h, pre ++ [m], post, hsnoc (.inl hov),
        .inl ⟨rfl, by simp⟩, .inr ⟨by simp, by simp⟩, rfl⟩)⟩
      rw [mprotectLoop, getElem?_append_length, append_assoc, length_append]
      exact if_pos hov
    by_cases hx : LosesExec prot m
    · refine ⟨_, fun fuel => ?_, .inr (.inl ⟨_, _, .exec, rfl⟩)⟩
      rw [mprotectLoop, getElem?_append_length]
      exact (if_neg hov).trans (if_pos hx)
    by_cases hst : SticksOut lo hi m
    · rcases hp : protectMiddle env lo hi prot h m with ⟨_ | e, h'⟩
      · refine ⟨_, fun fuel => ?_, .inr (.inr ⟨true, h', [], _, by simp, .inr (.cut hov hx hst hp),
          .inl (uncut_cut h hlt hml hov hst), rfl⟩)⟩
        rw [mprotectLoop_cut hov hx hst, hp]
        rfl
      · refine ⟨_, fun fuel => ?_, .inr (.inl ⟨_, _, .cut hov hp, rfl⟩)⟩
        rw [mprotectLoop_cut hov hx hst, hp]
    by_cases hsame : pfOfProt prot = m.flags &&& kProtMask
    · refine ⟨_, fun fuel => ?_, .inr (.inr ⟨true, h, pre ++ [m], post, hsnoc (.inr ⟨hst, hsame⟩),
        .inl ⟨rfl, by simp⟩, .inr ⟨by simp, by simp⟩, rfl⟩)⟩
      rw [mprotectLoop, getElem?_append_length, append_assoc, length_append]
      exact (if_neg hov).trans ((if_neg hx).trans ((if_neg hst).trans (if_pos hsame)))
    rcases hp : hostProtect env m.owned h m.data m.size prot with ⟨_ | e, h'⟩
    · refine ⟨_, fun fuel => ?_, .inr (.inr ⟨true, h',
        pre ++ [{ m with flags := m.withProt (pfOfProt prot) }], post,
        hsnoc (.inr ⟨hst, (newProt_and_mask prot m.flags).symm⟩), ?_, ?_, rfl⟩)⟩
      · rw [mprotectLoop_flags hov hx hst hsame, hp, append_assoc, length_append]
        rfl
      · rw [append_assoc]
        exact .inr (.flags hov hx hst hp)
      · rw [append_assoc]
        refine .inr ⟨?_, by simp⟩
        simp [uncut, countP_append, countP_cons, Outside, SticksOut, Memmap.uend]
    · refine ⟨_, fun fuel => ?_, .inr (.inl ⟨_, _, .flags hp, rfl⟩)⟩
      rw [mprotectLoop_flags hov hx hst hsame, hp]

theorem mprotectLoop_run (pre) (hlt : lo < hi) (fuel : ℕ) (hml : MapsOk (pre ++ rest))
    (hpre : ∀ x ∈ pre, Protected lo hi prot x)
    (hr : mprotectLoop env lo hi prot fuel h (pre ++ rest) pre.length any = some (e, h', ml')) :
    ∃ l q, Run (ProtStep env lo hi prot) (h, pre ++ rest) l q ∧
      (((∃ b, e = .done b) ∧ q = (h', ml') ∧ ∀ m ∈ ml', Protected lo hi prot m) ∨
        ∃ code, e = .failed code ∧ ProtFail env lo hi prot q code (h', ml')) := by
  induction fuel generalizing h pre rest any with
  | zero => simp [mprotectLoop] at hr
  | succ fuel ih =>
    obtain ⟨r, hstep, ⟨rfl, rfl⟩ | ⟨code, q, hfail, rfl⟩ |
      ⟨b, h₁, pre₁, rest₁, hpre₁, hmove, -, rfl⟩⟩ :=
      mprotectLoop_turn env hlt hml h any hpre
    · rw [hstep] at hr
      cases hr
      exact ⟨[], _, Run.nil _, .inl ⟨⟨_, rfl⟩, by simp, hpre⟩⟩
    · rw [hstep] at hr
      cases hr
      exact ⟨[], _, Run.nil _, .inr ⟨_, rfl, hfail⟩⟩
    · rw [hstep] at hr
      rcases hmove with ⟨rfl, hsame⟩ | hmove
      · obtain ⟨l, q, hrun, hend⟩ := ih _ (hsame ▸ hml) hpre₁ hr
        exact ⟨l, q, hsame ▸ hrun, hend⟩
      · obtain ⟨l, q, hrun, hend⟩ := ih _ (hmove.reprot hlt hml).ok hpre₁ hr
        exact ⟨() :: l, q, Run.cons hmove hrun, hend⟩

theorem mprotectLoop_spec (hlt : lo < hi) (fuel : ℕ) (hml : MapsOk ml)
    (hr : mprotectLoop env lo hi prot fuel h ml 0 any = some (e, h', ml')) :
    Reprot lo hi prot h ml h' ml' ∧
      ((∃ b, e = .done b) ∧ (∀ m ∈ ml', Protected lo hi prot m) ∨
        ∃ code < 0, e = .failed code) := by
  obtain ⟨l, ⟨h₁, ml₁⟩, hrun, hend⟩ := mprotectLoop_run [] hlt fuel hml (by simp) hr
  have hrep : Reprot lo hi prot h ml h₁ ml₁ :=
    hrun.invariant (P := fun q => Reprot lo hi prot h ml q.1 q.2) (.refl hml)
      fun q _ q' hq hstep => hq.trans (hstep.reprot hlt hq.ok)
  rcases hend with ⟨hb, hq, hdone⟩ | ⟨code, he, hfail⟩
  · cases hq
    exact ⟨hrep, .inl ⟨hb, hdone⟩⟩
  · exact ⟨hrep.trans (hfail.reprot hrep.ok), .inr ⟨code, hfail.neg, he⟩⟩

/-- `do_mprotect` installs the container its loop ends with; after a `return` inside the loop
the TLB is not flushed. -/
theorem doMprotect_result (hfit : addr + len < 2 ^ 64)
    (hr : s.doMprotect env fuel v addr len prot = some (code, s')) :
    ∃ e h ml, mprotectLoop env addr (addr + len) prot fuel s.heap (s.maps v) 0 false =
        some (e, h, ml) ∧
      ((e = .failed code ∧ s' = (s.setHeap h).setMaps v ml) ∨
        ∃ any, e = .done any ∧ s' = ((s.setHeap h).setMaps v ml).flushTlb v) := by
  unfold State.doMprotect at hr
  rw [uadd_eq hfit] at hr
  cases hq : mprotectLoop env addr (addr + len) prot fuel s.heap (s.maps v) 0 false with
  | none => simp [hq] at hr
  | some r =>
    obtain ⟨e, h, ml⟩ := r
    rw [hq] at hr
    refine ⟨e, h, ml, rfl, ?_⟩
    cases e with
    | failed c =>
      cases hr
      exact Or.inl ⟨rfl, rfl⟩
    | done any =>
      cases hr
      exact Or.inr ⟨any, rfl, rfl⟩

/-- The segments a protection change touches. -/
def RangeHit (lo hi : ℕ) (m : Memmap) : Prop := m.paddr < hi ∧ lo < m.stop

/-- `do_mprotect` installs what its loop makes of the container. -/
theorem doMprotect_reprot (hml : MapsOk (s.maps v)) (hlen : 0 < len) (hfit : addr + len < 2 ^ 64)
    (hr : s.doMprotect env fuel v addr len prot = some (code, s')) :
    ∃ h ml, Reprot addr (addr + len) prot s.heap (s.maps v) h ml ∧
      ((code < 0 ∧ s' = (s.setHeap h).setMaps v ml) ∨
        (∀ m ∈ ml, Protected addr (addr + len) prot m) ∧
          s' = ((s.setHeap h).setMaps v ml).flushTlb v) := by
  obtain ⟨e, h, ml, hq, hend⟩ := doMprotect_result hfit hr
  obtain ⟨hrep, ⟨⟨b, rfl⟩, hdone⟩ | ⟨c, hneg, rfl⟩⟩ := mprotectLoop_spec (by omega) fuel hml hq
  · obtain ⟨he, -⟩ | ⟨-, -, hs'⟩ := hend
    · cases he
    · exact ⟨h, ml, hrep, .inr ⟨hdone, hs'⟩⟩
  · obtain ⟨he, hs'⟩ | ⟨_, he, -⟩ := hend
    · cases he
      exact ⟨h, ml, hrep, .inl ⟨hneg, hs'⟩⟩
    · cases he

/-- `do_mprotect` changes no byte. A `return` inside the loop is an error and leaves the
TLBs as they were; otherwise the caller's TLB is flushed. -/
theorem doMprotect_spec (hw : Wf s) (hv : v < s.nextVm) (hlen : 0 < len)
    (hfit : addr + len < 2 ^ 64) (hr : s.doMprotect env fuel v addr len prot = some (code, s')) :
    ∃ s₁, Wf s₁ ∧ Edits s s₁ v (RangeHit addr (addr + len)) ∧ s₁.vms = s.vms ∧
      (∀ u < s.nextVm, s₁.view u = s.view u) ∧
      ((code < 0 ∧ s' = s₁) ∨ s' = s₁.flushTlb v) := by
  obtain ⟨h, ml, hrep, hend⟩ := doMprotect_reprot (hw.mapsOk hv) hlen hfit hr
  refine ⟨(s.setHeap h).setMaps v ml, hw.edit hv h hrep.ok (hrep.sharing _ (hw.sharing_front hv)),
    Edits.setMaps s v h ml ?_, rfl, ?_, hend.imp_right And.right⟩
  · intro x hx hnt
    exact hrep.keep x hx (by unfold RangeHit at hnt; omega)
  · intro u hu
    by_cases hsp : (s.vms u).space = (s.vms v).space
    · rw [view_setMaps_same s h ml hsp, hrep.view (hw.mapsOk hv), view_eq_of_space_eq hsp]
      rfl
    · rw [view_setMaps_other s h ml hsp]
      exact viewOf_host_congr fun x _ => congrFun hrep.bytes _

theorem doMprotect_zero (hw : Wf s) (hv : v < s.nextVm) (hlen : 0 < len)
    (hfit : addr + len < 2 ^ 64) (hr : s.doMprotect env fuel v addr len prot = some (0, s')) :
    Changed s s' v (RangeHit addr (addr + len)) (s.view v) := by
  obtain ⟨s₁, hwf, hed, -, hview, ⟨hneg, -⟩ | rfl⟩ := doMprotect_spec hw hv hlen hfit hr
  · omega
  · refine ⟨hwf.flushTlb v, hed.trans (Edits.flushTlb _ v _), ?_, ?_, ?_⟩
    · rw [State.flushTlb_tlb_self]
      exact tlbOk_zero _
    · rw [← hview v hv, view_def, view_def, State.flushTlb_maps, State.flushTlb_host]
    · intro u hu _
      rw [← hview u hu, view_def, view_def, State.flushTlb_maps, State.flushTlb_host]

end Bpfvm.Memory
