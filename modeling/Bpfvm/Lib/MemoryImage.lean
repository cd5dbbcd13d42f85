import Bpfvm.Lib.FlatMemory
import Bpfvm.Lib.LittleEndian

/-!
# Words, tables and strings in memory

`Has m a bs` says that the cells from `a` on are `bs`. Each reader is tied to it: a word, a number
of words, words up to a zero, pairs up to a zero key and bytes up to a zero are read exactly where
memory has their image. Readers of unbounded length take a bound on what they may read.
-/
namespace Bpfvm.FlatMemory
open List Option

/-! ## Consecutive cells -/

section Cells
variable {β : Type*} {m m' : ℕ → Option β} {a : ℕ} {b : β} {bs cs : List β}

/-- The cells from `a` on are `bs`. -/
def Has (m : ℕ → Option β) (a : ℕ) (bs : List β) : Prop := ∀ i < bs.length, m (a + i) = bs[i]?

theorem has_nil : Has m a [] := fun i hi => absurd hi (Nat.not_lt_zero i)

theorem has_append : Has m a (bs ++ cs) ↔ Has m a bs ∧ Has m (a + bs.length) cs := by
  constructor
  · intro h
    refine ⟨fun i hi => ?_, fun i hi => ?_⟩
    · rw [h i (by simp; omega), List.getElem?_append_left hi]
    · rw [Nat.add_assoc, h (bs.length + i) (by simp; omega),
        List.getElem?_append_right (by omega), Nat.add_sub_cancel_left]
  · rintro ⟨hb, hc⟩ i hi
    rcases Nat.lt_or_ge i bs.length with hlt | hge
    · rw [hb i hlt, List.getElem?_append_left hlt]
    · have hi' : i - bs.length < cs.length := by
        rw [length_append] at hi
        omega
      have hcell := hc (i - bs.length) hi'
      rw [Nat.add_assoc, Nat.add_sub_cancel' hge] at hcell
      rw [hcell, List.getElem?_append_right hge]

theorem has_cons : Has m a (b :: bs) ↔ m a = some b ∧ Has m (a + 1) bs := by
  have hone : Has m a [b] ↔ m a = some b := by simp [Has]
  rw [← singleton_append, has_append, hone]
  rfl

theorem has_iff_read : Has m a bs ↔ read m a bs.length = some bs := by
  rw [read_eq_some_iff]
  exact ⟨fun h => ⟨rfl, h⟩, fun h => h.2⟩

theorem Has.congr (h : Has m a bs) (hm : ∀ i < bs.length, m' (a + i) = m (a + i)) :
    Has m' a bs :=
  fun i hi => (hm i hi).trans (h i hi)

end Cells

/-! ## Words -/

variable {m : ℕ → Option (BitVec 8)} {a n fuel : ℕ} {x : U64} {xs : List U64}

def readWord (m : ℕ → Option (BitVec 8)) (a : ℕ) : Option U64 :=
  (read m a 8).map fun bs => BitVec.ofNat 64 (LittleEndian.value bs)

theorem readWord_eq_some_iff : readWord m a = some x ↔ Has m a (wordBytes x) := by
  rw [has_iff_read, length_wordBytes, readWord, map_eq_some_iff]
  constructor
  · rintro ⟨bs, hbs, rfl⟩
    have hlen := (read_eq_some_iff.mp hbs).1
    have hlt := LittleEndian.value_lt bs
    rw [hlen] at hlt
    have himage : wordBytes (BitVec.ofNat 64 (LittleEndian.value bs)) = bs := by
      have hback := LittleEndian.bytes_value bs
      rw [hlen] at hback
      rw [wordBytes, BitVec.toNat_ofNat, Nat.mod_eq_of_lt (by omega), hback]
    rw [himage, hbs]
  · intro h
    refine ⟨_, h, ?_⟩
    have hlt := x.isLt
    rw [wordBytes, LittleEndian.value_bytes, Nat.mod_eq_of_lt (by omega), BitVec.ofNat_toNat,
      BitVec.setWidth_eq]

/-- `n` words in a row. -/
def readWords (m : ℕ → Option (BitVec 8)) : ℕ → ℕ → Option (List U64)
  | _, 0 => some []
  | a, n + 1 => do
    let x ← readWord m a
    let xs ← readWords m (a + 8) n
    return x :: xs

theorem readWords_eq_some_iff :
    readWords m a n = some xs ↔ xs.length = n ∧ Has m a (xs.flatMap wordBytes) := by
  induction n generalizing a xs with
  | zero =>
    rw [readWords, Option.some.injEq, eq_comm, length_eq_zero_iff]
    constructor
    · rintro rfl
      exact ⟨rfl, has_nil⟩
    · exact fun h => h.1
  | succ n ih =>
    simp only [readWords, bind_eq_bind, bind_eq_some_iff, Option.pure_def,
      Option.some.injEq, readWord_eq_some_iff, ih]
    constructor
    · rintro ⟨x, hx, ys, ⟨hlen, hys⟩, rfl⟩
      refine ⟨by simp [hlen], ?_⟩
      rw [flatMap_cons, has_append, length_wordBytes]
      exact ⟨hx, hys⟩
    · rintro ⟨hlen, h⟩
      cases xs with
      | nil => simp at hlen
      | cons x ys =>
        rw [flatMap_cons, has_append, length_wordBytes] at h
        exact ⟨x, h.1, ys, ⟨by simpa using hlen, h.2⟩, rfl⟩

/-- Words up to a zero word, which is left out. -/
def readTable (m : ℕ → Option (BitVec 8)) : ℕ → ℕ → Option (List U64)
  | 0, _ => none
  | fuel + 1, a => do
    let x ← readWord m a
    if x = 0 then return []
    else return x :: (← readTable m fuel (a + 8))

theorem has_of_readTable (h : readTable m fuel a = some xs) :
    Has m a ((xs ++ [0]).flatMap wordBytes) := by
  induction fuel generalizing a xs with
  | zero => simp [readTable] at h
  | succ fuel ih =>
    simp only [readTable, bind_eq_bind, bind_eq_some_iff,
      readWord_eq_some_iff] at h
    obtain ⟨x, hx, h⟩ := h
    split_ifs at h with hz
    · obtain rfl : [] = xs := Option.some.inj h
      simpa [hz] using hx
    · obtain ⟨ys, hys, hxs⟩ := bind_eq_some_iff.mp h
      obtain rfl : x :: ys = xs := Option.some.inj hxs
      rw [cons_append, flatMap_cons, has_append, length_wordBytes]
      exact ⟨hx, ih hys⟩

theorem readTable_of_has (h : Has m a ((xs ++ [0]).flatMap wordBytes)) (hz : ∀ x ∈ xs, x ≠ 0)
    (hfuel : xs.length < fuel) : readTable m fuel a = some xs := by
  induction fuel generalizing a xs with
  | zero => omega
  | succ fuel ih =>
    cases xs with
    | nil =>
      have hx : readWord m a = some 0 := readWord_eq_some_iff.mpr (by simpa using h)
      simp [readTable, hx]
    | cons x xs =>
      rw [cons_append, flatMap_cons, has_append, length_wordBytes] at h
      have hrest := ih h.2 (fun y hy => hz y (by simp [hy])) (by simpa using hfuel)
      have hx : ¬ x = 0#64 := hz x (by simp)
      simp [readTable, readWord_eq_some_iff.mpr h.1, hx, hrest]

/-! ## Pairs -/

/-- Pairs of words up to a zero key, which is left out. -/
def readPairs (m : ℕ → Option (BitVec 8)) : ℕ → ℕ → Option (List (U64 × U64))
  | 0, _ => none
  | fuel + 1, a => do
    let key ← readWord m a
    if key = 0 then return []
    else
      let val ← readWord m (a + 8)
      return (key, val) :: (← readPairs m fuel (a + 16))

/-- The words of the pairs in a row. -/
def pairWords (ps : List (U64 × U64)) : List U64 :=
  ps.flatMap fun p => [p.1, p.2]

variable {ps : List (U64 × U64)}

theorem has_of_readPairs (h : readPairs m fuel a = some ps) :
    Has m a ((pairWords ps ++ [0]).flatMap wordBytes) := by
  induction fuel generalizing a ps with
  | zero => simp [readPairs] at h
  | succ fuel ih =>
    simp only [readPairs, bind_eq_bind, bind_eq_some_iff,
      readWord_eq_some_iff] at h
    obtain ⟨key, hkey, h⟩ := h
    split_ifs at h with hz
    · obtain rfl : [] = ps := Option.some.inj h
      simpa [pairWords, hz] using hkey
    · simp only [bind_eq_some_iff, readWord_eq_some_iff] at h
      obtain ⟨val, hval, qs, hqs, hps⟩ := h
      obtain rfl : (key, val) :: qs = ps := Option.some.inj hps
      have hrest := ih hqs
      simp only [pairWords, flatMap_cons, cons_append, nil_append, has_append,
        length_wordBytes, Nat.add_assoc] at hrest ⊢
      exact ⟨hkey, hval, hrest⟩

theorem readPairs_of_has (h : Has m a ((pairWords ps ++ [0]).flatMap wordBytes))
    (hz : ∀ p ∈ ps, p.1 ≠ 0) (hfuel : ps.length < fuel) : readPairs m fuel a = some ps := by
  induction fuel generalizing a ps with
  | zero => omega
  | succ fuel ih =>
    cases ps with
    | nil =>
      have hx : readWord m a = some 0 := readWord_eq_some_iff.mpr (by simpa [pairWords] using h)
      simp [readPairs, hx]
    | cons p ps =>
      simp only [pairWords, flatMap_cons, cons_append, nil_append, has_append,
        length_wordBytes, Nat.add_assoc] at h
      have hrest := ih h.2.2 (fun q hq => hz q (by simp [hq])) (by simpa using hfuel)
      have hp : ¬ p.1 = 0#64 := hz p (by simp)
      simp [readPairs, readWord_eq_some_iff.mpr h.1, readWord_eq_some_iff.mpr h.2.1, hp, hrest]

/-! ## Strings -/

/-- Bytes up to a zero byte, which is left out. -/
def readString (m : ℕ → Option (BitVec 8)) : ℕ → ℕ → Option (List (BitVec 8))
  | 0, _ => none
  | fuel + 1, a => do
    let b ← m a
    if b = 0 then return []
    else return b :: (← readString m fuel (a + 1))

variable {s : List (BitVec 8)}

theorem has_of_readString (h : readString m fuel a = some s) : Has m a (s ++ [0]) := by
  induction fuel generalizing a s with
  | zero => simp [readString] at h
  | succ fuel ih =>
    simp only [readString, bind_eq_bind, bind_eq_some_iff] at h
    obtain ⟨b, hb, h⟩ := h
    split_ifs at h with hz
    · obtain rfl : [] = s := Option.some.inj h
      rw [nil_append, has_cons, hb, hz]
      exact ⟨rfl, has_nil⟩
    · obtain ⟨t, ht, hs⟩ := bind_eq_some_iff.mp h
      obtain rfl : b :: t = s := Option.some.inj hs
      rw [cons_append, has_cons]
      exact ⟨hb, ih ht⟩

theorem readString_of_has (h : Has m a (s ++ [0])) (hz : 0 ∉ s) (hfuel : s.length < fuel) :
    readString m fuel a = some s := by
  induction fuel generalizing a s with
  | zero => omega
  | succ fuel ih =>
    cases s with
    | nil =>
      rw [nil_append, has_cons] at h
      simp [readString, h.1]
    | cons b s =>
      rw [cons_append, has_cons] at h
      have hrest := ih h.2 (fun hb => hz (mem_cons_of_mem _ hb)) (by simpa using hfuel)
      have hb : ¬ b = 0#8 := fun he => hz (by simp [he])
      simp [readString, h.1, hb, hrest]

end Bpfvm.FlatMemory
