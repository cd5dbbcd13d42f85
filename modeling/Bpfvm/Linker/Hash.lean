import Bpfvm.Lib.IndexChain
import Bpfvm.Lib.LittleEndian
import Mathlib.Algebra.GroupWithZero.Nat
import Mathlib.Data.List.Range

/-!
# The dynamic symbol hash

`build_dynamic_sections` writes `.hash` in the SysV form: the number of buckets, the number of
chain words, the first symbol of every bucket and the successor of every symbol, where 0 ends a
chain. Symbols are appended at the end of their bucket's chain, so the chain of a bucket lists the
named symbols of that bucket in the order of the table.
-/
namespace Bpfvm.Linker
open List IndexChain

/-- `elf_hash`. -/
def elfHash (name : List (BitVec 8)) : U32 :=
  name.foldl (fun h c =>
    let h := (h <<< 4) + c.setWidth 32
    let g := h &&& 0xf0000000
    let h := if g ≠ 0 then h ^^^ (g >>> 24) else h
    h &&& ~~~g) 0

/-- `.dynsym` behind its null entry, as far as the hash reads it, and `.dynstr`. The indices of
the table are `Elf64_Word`s. -/
structure DynTable where
  stNames : List U32
  dynstr : List (BitVec 8)
  small : stNames.length + 1 < 2 ^ 32

/-- The words of `.hash` in the making. -/
structure HashTables where
  buckets : List ℕ
  chains : List ℕ
  bucketLast : List ℕ

namespace DynTable
variable (t : DynTable)

def nsym : ℕ := t.stNames.length + 1

def nbucket : ℕ := if t.nsym > 1 then t.nsym else 2

def stName (i : ℕ) : U32 := (0 :: t.stNames).getD i 0

/-- The string at `st_name`, up to its NUL. -/
def name (i : ℕ) : List (BitVec 8) := (t.dynstr.drop (t.stName i).toNat).takeWhile (· ≠ 0)

def bucketOf (i : ℕ) : ℕ := (elfHash (t.name i)).toNat % t.nbucket

/-- The turn of the loop for symbol `i`. -/
def addSym (s : HashTables) (i : ℕ) : HashTables :=
  if t.stName i = 0 then s
  else if s.bucketLast.getD (t.bucketOf i) 0 = 0 then
    { s with
      buckets := s.buckets.set (t.bucketOf i) (i % 2 ^ 32)
      bucketLast := s.bucketLast.set (t.bucketOf i) (i % 2 ^ 32) }
  else
    { s with
      chains := s.chains.set (s.bucketLast.getD (t.bucketOf i) 0) (i % 2 ^ 32)
      bucketLast := s.bucketLast.set (t.bucketOf i) (i % 2 ^ 32) }

/-- The loop over the symbols below `n`. -/
def addSyms : ℕ → HashTables
  | 0 => ⟨List.replicate t.nbucket 0, List.replicate t.nsym 0, List.replicate t.nbucket 0⟩
  | n + 1 => if n = 0 then addSyms n else t.addSym (addSyms n) n

/-- The words of `.hash`. -/
def hashWords : List ℕ :=
  t.nbucket % 2 ^ 32 :: t.nsym % 2 ^ 32 :: ((t.addSyms t.nsym).buckets ++ (t.addSyms t.nsym).chains)

/-! ## The consumer -/

def bucketWord (b : ℕ) : ℕ := t.hashWords.getD (2 + b) 0

def chainWord (i : ℕ) : ℕ := t.hashWords.getD (2 + t.hashWords.getD 0 0 + i) 0

/-- The SysV lookup of a name, which follows at most `nchain` links. -/
def lookup (name : List (BitVec 8)) : Option ℕ :=
  searchFrom t.chainWord (fun i => t.name i == name) (t.hashWords.getD 1 0 + 1)
    (t.bucketWord ((elfHash name).toNat % t.hashWords.getD 0 0))

/-! ## The loop -/

/-- Entry `i` is a symbol with a name. -/
def Named (i : ℕ) : Prop := i < t.nsym ∧ t.stName i ≠ 0

/-- The named symbols of bucket `b` below `k`. -/
def members (b k : ℕ) : List ℕ :=
  (List.range k).filter fun i => t.stName i ≠ 0 ∧ t.bucketOf i = b

variable {t} {b i k : ℕ} {s : HashTables}

theorem mem_members : i ∈ t.members b k ↔ i < k ∧ t.stName i ≠ 0 ∧ t.bucketOf i = b := by
  simp [members]

theorem nodup_members : (t.members b k).Nodup := nodup_range.filter _

theorem nbucket_pos : 0 < t.nbucket := by
  unfold nbucket
  split <;> omega

theorem bucketOf_lt : t.bucketOf i < t.nbucket := Nat.mod_lt _ nbucket_pos

theorem members_succ : t.members b (k + 1) =
    t.members b k ++ if t.stName k ≠ 0 ∧ t.bucketOf k = b then [k] else [] := by
  rw [members, range_succ, filter_append, members]
  by_cases h : t.stName k ≠ 0 ∧ t.bucketOf k = b <;> simp [filter_singleton, h]

/-- The loop before symbol `k`. -/
structure Built (t : DynTable) (k : ℕ) (s : HashTables) : Prop where
  buckets : s.buckets.length = t.nbucket
  chains : s.chains.length = t.nsym
  lasts : s.bucketLast.length = t.nbucket
  linked : ∀ b < t.nbucket, Linked (s.chains.getD · 0) (s.buckets.getD b 0) (t.members b k)
  last : ∀ b < t.nbucket, s.bucketLast.getD b 0 = (t.members b k).getLastD 0
  fresh : ∀ i, k ≤ i → s.chains.getD i 0 = 0

theorem Built.skip (h : Built t k s) (hk : t.stName k = 0) : Built t (k + 1) s := by
  have hm (b : ℕ) : t.members b (k + 1) = t.members b k := by simp [members_succ, hk]
  refine ⟨h.buckets, h.chains, h.lasts, ?_, ?_, fun i hi => h.fresh i (by omega)⟩
  · simpa only [hm] using h.linked
  · simpa only [hm] using h.last

section Add
variable (h : Built t k s) (hz : t.stName k ≠ 0)

include hz in
theorem members_self : t.members (t.bucketOf k) (k + 1) = t.members (t.bucketOf k) k ++ [k] := by
  rw [members_succ, if_pos ⟨hz, rfl⟩]

theorem members_other (hb : b ≠ t.bucketOf k) : t.members b (k + 1) = t.members b k := by
  rw [members_succ, if_neg fun he => hb he.2.symm, append_nil]

theorem ne_zero_of_stName (hz : t.stName k ≠ 0) : k ≠ 0 := by
  rintro rfl
  exact hz rfl

include h hz in
theorem Built.last_set (hb : b < t.nbucket) :
    (s.bucketLast.set (t.bucketOf k) k).getD b 0 = (t.members b (k + 1)).getLastD 0 := by
  rw [getD_set _ _ _ _ _ (h.lasts ▸ bucketOf_lt)]
  split_ifs with he
  · rw [he, members_self hz, getLastD_concat]
  · rw [members_other he, h.last b hb]

include h hz in
/-- The first symbol of its bucket. -/
theorem Built.first (hnil : t.members (t.bucketOf k) k = []) :
    Built t (k + 1) { s with
      buckets := s.buckets.set (t.bucketOf k) k
      bucketLast := s.bucketLast.set (t.bucketOf k) k } := by
  refine ⟨by simp [h.buckets], h.chains, by simp [h.lasts], ?_, fun b => h.last_set hz,
    fun i hi => h.fresh i (by omega)⟩
  intro b hb
  rw [getD_set _ _ _ _ _ (h.buckets ▸ bucketOf_lt)]
  split_ifs with he
  · rw [he, members_self hz, hnil]
    exact ⟨rfl, ne_zero_of_stName hz, h.fresh k le_rfl⟩
  · rw [members_other he]
    exact h.linked b hb

include h hz in
/-- The last symbol of the bucket so far gets a successor. -/
theorem Built.append (hk : k < t.nsym) (hne : t.members (t.bucketOf k) k ≠ []) :
    Built t (k + 1) { s with
      chains := s.chains.set ((t.members (t.bucketOf k) k).getLast hne) k
      bucketLast := s.bucketLast.set (t.bucketOf k) k } := by
  obtain ⟨hlt, -, hbucket⟩ := mem_members.mp (getLast_mem hne)
  have hset (i : ℕ) := getD_set s.chains ((t.members (t.bucketOf k) k).getLast hne) i k 0
    (h.chains ▸ hlt.trans hk)
  refine ⟨h.buckets, by simp [h.chains], by simp [h.lasts], ?_, fun b => h.last_set hz, ?_⟩
  · intro b hb
    by_cases he : b = t.bucketOf k
    · rw [he, members_self hz]
      refine (h.linked _ bucketOf_lt).snoc hne nodup_members (ne_zero_of_stName hz) ?_ ?_ ?_
      · rw [hset, if_neg hlt.ne']
        exact h.fresh k le_rfl
      · rw [hset, if_pos rfl]
      · intro i _ hi
        rw [hset, if_neg hi]
    · rw [members_other he]
      refine (h.linked b hb).congr fun i hi => ?_
      rw [hset, if_neg]
      rintro rfl
      exact he ((mem_members.mp hi).2.2.symm.trans hbucket)
  · intro i hi
    rw [hset, if_neg (by omega)]
    exact h.fresh i (by omega)

end Add

theorem Built.addSym (h : Built t k s) (hk : k < t.nsym) : Built t (k + 1) (t.addSym s k) := by
  have hmod : k % 2 ^ 32 = k := Nat.mod_eq_of_lt (hk.trans t.small)
  have hlast := h.last _ (bucketOf_lt (i := k))
  by_cases hz : t.stName k = 0
  · rw [DynTable.addSym, if_pos hz]
    exact h.skip hz
  rw [DynTable.addSym, if_neg hz, hmod]
  by_cases hnil : t.members (t.bucketOf k) k = []
  · rw [hnil, getLastD_nil] at hlast
    rw [if_pos hlast]
    exact h.first hz hnil
  · rw [getLastD_eq_getLast?, List.getLast?_eq_some_getLast hnil, Option.getD_some] at hlast
    have hnamed := (mem_members.mp (getLast_mem hnil)).2.1
    rw [hlast, if_neg (ne_zero_of_stName hnamed)]
    exact h.append hz hk hnil

theorem built_addSyms (hk : k ≤ t.nsym) : Built t k (t.addSyms k) := by
  induction k with
  | zero =>
    have hzero (n i : ℕ) : (List.replicate n 0).getD i 0 = 0 := by
      rw [getD_eq_getElem?_getD, List.getElem?_replicate]
      split <;> rfl
    exact ⟨length_replicate, length_replicate, length_replicate,
      fun b _ => hzero _ b, fun b _ => hzero _ b, fun i _ => hzero _ i⟩
  | succ k ih =>
    have hbuilt := ih (by omega)
    by_cases h0 : k = 0
    · subst h0
      exact hbuilt.skip rfl
    · rw [addSyms, if_neg h0]
      exact hbuilt.addSym hk

/-! ## The emitted words -/

theorem hashWords_nbucket : t.hashWords.getD 0 0 = t.nbucket := by
  have := t.small
  refine Nat.mod_eq_of_lt ?_
  unfold nbucket nsym
  split <;> omega

theorem bucketWord_eq (hb : b < t.nbucket) :
    t.bucketWord b = (t.addSyms t.nsym).buckets.getD b 0 := by
  have hlen := (built_addSyms (t := t) le_rfl).buckets
  rw [bucketWord, hashWords, Nat.add_comm]
  simp only [getD_cons_succ]
  exact getD_append _ _ _ _ (hlen ▸ hb)

theorem chainWord_eq : t.chainWord i = (t.addSyms t.nsym).chains.getD i 0 := by
  have hlen := (built_addSyms (t := t) le_rfl).buckets
  rw [chainWord, hashWords_nbucket, hashWords, Nat.add_assoc, Nat.add_comm]
  simp only [getD_cons_succ]
  rw [getD_append_right _ _ _ _ (by omega), hlen, Nat.add_sub_cancel_left]

theorem linked_bucketWord (hb : b < t.nbucket) :
    Linked t.chainWord (t.bucketWord b) (t.members b t.nsym) := by
  rw [bucketWord_eq hb, show t.chainWord = _ from funext fun _ => chainWord_eq]
  exact (built_addSyms le_rfl).linked b hb

theorem lookup_eq (name : List (BitVec 8)) : t.lookup name =
    (t.members ((elfHash name).toNat % t.nbucket) t.nsym).find? fun i => t.name i == name := by
  have hn : t.hashWords.getD 1 0 = t.nsym := Nat.mod_eq_of_lt t.small
  have hlen : (t.members ((elfHash name).toNat % t.nbucket) t.nsym).length ≤ t.nsym :=
    (length_filter_le _ _).trans length_range.le
  rw [lookup, hashWords_nbucket, hn]
  exact (linked_bucketWord (Nat.mod_lt _ nbucket_pos)).searchFrom (Nat.lt_succ_of_le hlen) _

/-- The lookup finds an entry for every named symbol and nothing for any other name; the chains
end, repeat no symbol and share out the named symbols. -/
theorem lookup_hashWords (t : DynTable) :
    (∀ i, t.Named i → ∃ j, t.lookup (t.name i) = some j ∧ t.Named j ∧ t.name j = t.name i) ∧
    (∀ name, (∀ i, t.Named i → t.name i ≠ name) → t.lookup name = none) ∧
    ∃ chain : ℕ → List ℕ,
      (∀ b < t.nbucket, Linked t.chainWord (t.bucketWord b) (chain b) ∧ (chain b).Nodup) ∧
      ∀ i, t.Named i ↔ ∃! b, b < t.nbucket ∧ i ∈ chain b := by
  refine ⟨?_, ?_, fun b => t.members b t.nsym, ?_, ?_⟩
  · intro i hi
    rw [lookup_eq]
    have hsome : ((t.members (t.bucketOf i) t.nsym).find? (t.name · == t.name i)).isSome := by
      rw [List.find?_isSome]
      exact ⟨i, mem_members.mpr ⟨hi.1, hi.2, rfl⟩, by simp⟩
    obtain ⟨j, hj⟩ := Option.isSome_iff_exists.mp hsome
    have hmem := mem_members.mp (mem_of_find?_eq_some hj)
    exact ⟨j, hj, ⟨hmem.1, hmem.2.1⟩, by simpa using List.find?_some hj⟩
  · intro name hname
    rw [lookup_eq, List.find?_eq_none]
    intro i hi
    have hmem := mem_members.mp hi
    simpa using hname i ⟨hmem.1, hmem.2.1⟩
  · intro b hb
    exact ⟨linked_bucketWord hb, nodup_members⟩
  · intro i
    constructor
    · intro hi
      refine ⟨t.bucketOf i, ⟨bucketOf_lt, mem_members.mpr ⟨hi.1, hi.2, rfl⟩⟩, ?_⟩
      rintro b ⟨-, hb⟩
      exact (mem_members.mp hb).2.2.symm
    · rintro ⟨b, ⟨-, hb⟩, -⟩
      exact ⟨(mem_members.mp hb).1, (mem_members.mp hb).2.1⟩

end DynTable
end Bpfvm.Linker
