import Bpfvm.Lib.MemoryImage
import Bpfvm.Process.ExecAtomic

/-!
# The initial stack image

What a program finds at its entry: `setup_stack` writes the argument block through the host
pointer of the foot of the stack, and the program reads it back through its address space. The
reader follows the layout at a process entry: `argc`, the `argv` pointers, a null, the `envp`
pointers, a null and the `auxv` pairs up to `AT_NULL`.

The host bytes are right whenever `setup_stack` succeeds. The guest sees them if no segment of the
image starts inside the block, which is not checked.
-/
namespace Bpfvm.Exec
open Memory Cpu FlatMemory Function Segments State
open List hiding lookup

/-! ## Reading the block -/

/-- What a program reads at its entry. -/
structure Entry where
  argc : U64
  argv : List U64
  envp : List U64
  auxv : List (U64 × U64)

def readEntry (mem : ℕ → Option Byte) (fuel a : ℕ) : Option Entry := do
  let argc ← readWord mem a
  let argv ← readWords mem (a + 8) argc.toNat
  let null ← readWord mem (a + 8 + 8 * argc.toNat)
  if null = 0 then
    let envp ← readTable mem fuel (a + 8 + 8 * argc.toNat + 8)
    let auxv ← readPairs mem fuel (a + 8 + 8 * argc.toNat + 8 + 8 * (envp.length + 1))
    return ⟨argc, argv, envp, auxv⟩
  else none

/-- The words up to the key of `AT_NULL`. -/
def Entry.words (e : Entry) : List U64 :=
  [e.argc] ++ (e.argv ++ ([0] ++ ((e.envp ++ [0]) ++ (pairWords e.auxv ++ [0]))))

variable {e : Entry} {hi n : ℕ} {ss : List Str} {segs' : List BootSeg}

variable {mem : ℕ → Option Byte} {a : ℕ} {segs : List BootSeg} {s : State} {m : Memmap}

theorem has_words_iff (hlen : e.argv.length = e.argc.toNat) :
    Has mem a (e.words.flatMap wordBytes) ↔ Has mem a (wordBytes e.argc) ∧
      Has mem (a + 8) (e.argv.flatMap wordBytes) ∧
      Has mem (a + 8 + 8 * e.argc.toNat) (wordBytes 0) ∧
      Has mem (a + 8 + 8 * e.argc.toNat + 8) ((e.envp ++ [0]).flatMap wordBytes) ∧
      Has mem (a + 8 + 8 * e.argc.toNat + 8 + 8 * (e.envp.length + 1))
        ((pairWords e.auxv ++ [0]).flatMap wordBytes) := by
  unfold Entry.words
  generalize hnull : e.envp ++ [0] = envp
  generalize pairWords e.auxv ++ [0] = auxv
  have hlen' : envp.length = e.envp.length + 1 := by simp [← hnull]
  simp only [flatMap_append, flatMap_singleton, has_append, length_wordBytes,
    length_flatMap_wordBytes, hlen, hlen']

theorem has_of_readEntry {fuel : ℕ} (h : readEntry mem fuel a = some e) :
    e.argv.length = e.argc.toNat ∧ Has mem a (e.words.flatMap wordBytes) := by
  simp only [readEntry, Option.bind_eq_bind, Option.bind_eq_some_iff] at h
  obtain ⟨argc, hargc, argv, hargv, null, hnull, h⟩ := h
  split_ifs at h with hz
  simp only [Option.bind_eq_some_iff] at h
  obtain ⟨envp, henvp, auxv, hauxv, he⟩ := h
  obtain rfl : Entry.mk argc argv envp auxv = e := Option.some.inj he
  obtain ⟨hlen, hargv⟩ := readWords_eq_some_iff.mp hargv
  subst hz
  exact ⟨hlen, (has_words_iff hlen).mpr ⟨readWord_eq_some_iff.mp hargc, hargv,
    readWord_eq_some_iff.mp hnull, has_of_readTable henvp, has_of_readPairs hauxv⟩⟩

theorem readEntry_of_has {fuel : ℕ} (hlen : e.argv.length = e.argc.toNat)
    (h : Has mem a (e.words.flatMap wordBytes)) (henvp : ∀ x ∈ e.envp, x ≠ 0)
    (hauxv : ∀ p ∈ e.auxv, p.1 ≠ 0) (hfuel : e.envp.length + e.auxv.length < fuel) :
    readEntry mem fuel a = some e := by
  obtain ⟨h₁, h₂, h₃, h₄, h₅⟩ := (has_words_iff hlen).mp h
  have hargc := readWord_eq_some_iff.mpr h₁
  have hargv := readWords_eq_some_iff.mpr ⟨hlen, h₂⟩
  have hnull := readWord_eq_some_iff.mpr h₃
  have htable := readTable_of_has h₄ henvp (show e.envp.length < fuel by omega)
  have hpairs := readPairs_of_has h₅ hauxv (show e.auxv.length < fuel by omega)
  simp [readEntry, hargc, hargv, hnull, htable, hpairs]

/-! ## Strings -/

/-- The strings `ss` stand terminated at `ptrs`, inside `[lo, hi)` and apart from each other. -/
structure StringsAt (mem : ℕ → Option Byte) (lo hi : ℕ) (ptrs : List U64)
    (ss : List Str) : Prop where
  length : ptrs.length = ss.length
  read : ∀ x ∈ ptrs.zip ss, ∃ fuel, readString mem fuel x.1.toNat = some x.2
  inside : ∀ x ∈ ptrs.zip ss, lo ≤ x.1.toNat ∧ x.1.toNat + x.2.length + 1 ≤ hi
  apart : (ptrs.zip ss).Pairwise fun x y =>
    x.1.toNat + x.2.length + 1 ≤ y.1.toNat ∨ y.1.toNat + y.2.length + 1 ≤ x.1.toNat

/-- Strings one behind the other. -/
theorem stringsAt_addresses {c : U64} (hhi : hi < 2 ^ 64) (hz : ∀ s ∈ ss, 0 ∉ s)
    (hfit : c.toNat + (ss.map cstr).flatten.length ≤ hi)
    (h : Has mem c.toNat (ss.map cstr).flatten) :
    StringsAt mem c.toNat hi (addresses c (ss.map cstr)) ss := by
  induction ss generalizing c with
  | nil => exact ⟨rfl, by simp, by simp, by simp⟩
  | cons s ss ih =>
    have hlen : (cstr s).length = s.length + 1 := by simp [cstr]
    rw [map_cons, flatten_cons, has_append, hlen] at h
    rw [map_cons, flatten_cons, length_append, hlen] at hfit
    have hnext : (c + BitVec.ofNat 64 (cstr s).length).toNat = c.toNat + (s.length + 1) := by
      rw [BitVec.toNat_add, BitVec.toNat_ofNat, hlen]
      omega
    have hrest : StringsAt mem (c.toNat + (s.length + 1)) hi
        (addresses (c + BitVec.ofNat 64 (cstr s).length) (ss.map cstr)) ss := by
      rw [← hnext]
      exact ih (fun t ht => hz t (by simp [ht])) (by omega) (by rw [hnext]; exact h.2)
    rw [map_cons, addresses]
    refine ⟨by simp [hrest.length], ?_, ?_, ?_⟩
    · intro x hx
      rcases mem_cons.mp hx with rfl | hx
      · exact ⟨s.length + 1, readString_of_has h.1 (hz s (by simp)) (Nat.lt_succ_self _)⟩
      · exact hrest.read x hx
    · intro x hx
      rcases mem_cons.mp hx with rfl | hx
      · exact ⟨le_rfl, show c.toNat + s.length + 1 ≤ hi by omega⟩
      · have := hrest.inside x hx
        omega
    · refine pairwise_cons.mpr ⟨fun y hy => .inl ?_, hrest.apart⟩
      have := hrest.inside y hy
      change c.toNat + s.length + 1 ≤ y.1.toNat
      omega

theorem StringsAt.ptr_le {lo : ℕ} {ptrs : List U64} (h : StringsAt mem lo hi ptrs ss)
    {q : U64} (hq : q ∈ ptrs) : lo ≤ q.toNat ∧ q.toNat < hi := by
  rw [← map_fst_zip h.length.le] at hq
  obtain ⟨x, hx, rfl⟩ := mem_map.mp hq
  have := h.inside x hx
  omega

theorem StringsAt.mono {lo lo' : ℕ} {ptrs : List U64} (h : StringsAt mem lo hi ptrs ss)
    (hlo : lo' ≤ lo) : StringsAt mem lo' hi ptrs ss :=
  ⟨h.length, h.read, fun x hx => ⟨hlo.trans (h.inside x hx).1, (h.inside x hx).2⟩, h.apart⟩

/-! ## The block read back -/

/-- The strings of the block without their terminators. -/
def entryStrings (argv : List Str) (envp : Env) : List Str :=
  argv ++ envp.map (fun e => e.1 ++ [0x3d] ++ e.2) ++ [ofString "bpf"]

/-- The program finds its arguments, its environment and the values of `auxv` at `r1`; all
pointers lie in the block. -/
def Recovers (mem : ℕ → Option Byte) (r1 : U64) (argv : List Str) (envp : Env)
    (info : ElfLoad) : Prop :=
  ∃ fuel e platformAt randomAt, readEntry mem fuel r1.toNat = some e ∧
    e.argc.toNat = argv.length ∧
    e.auxv ++ [(0, 0)] = auxv info platformAt (e.argv.headD platformAt) randomAt ∧
    StringsAt mem r1.toNat (r1.toNat + totalBytes argv envp) (e.argv ++ e.envp ++ [platformAt])
      (entryStrings argv envp) ∧
    r1.toNat ≤ randomAt.toNat ∧ randomAt.toNat + 16 ≤ r1.toNat + totalBytes argv envp

/-- No string holds a zero byte. -/
def NulFree (argv : List Str) (envp : Env) : Prop :=
  (∀ s ∈ argv, 0 ∉ s) ∧ ∀ e ∈ envp, 0 ∉ e.1 ∧ 0 ∉ e.2

theorem NulFree.entryStrings {argv : List Str} {envp : Env} (h : NulFree argv envp) :
    ∀ s ∈ entryStrings argv envp, 0 ∉ s := by
  intro s hs
  unfold Exec.entryStrings at hs
  simp only [mem_append, mem_map, mem_singleton] at hs
  rcases hs with (hs | ⟨e, he, rfl⟩) | rfl
  · exact h.1 s hs
  · have hkv := h.2 e he
    simp only [mem_append, mem_singleton, not_or]
    exact ⟨⟨hkv.1, by decide⟩, hkv.2⟩
  · decide

theorem blockStrings_eq (argv : List Str) (envp : Env) :
    blockStrings argv envp = (entryStrings argv envp).map cstr := by
  simp [blockStrings, entryStrings, platform, envStr, comp_def]

section Block
variable (argv : List Str) (envp : Env) (info : ElfLoad)

/-- The address of the first string. -/
def stringsAt : U64 := stackBase + BitVec.ofNat 64 (headerBytes argv envp)

def stringPtrs : List U64 := addresses (stringsAt argv envp) (blockStrings argv envp)

def platformPtr : U64 := (stringPtrs argv envp).getLastD 0

def execfnPtr : U64 := if argv = [] then platformPtr argv envp else stringsAt argv envp

def randomPtr : U64 := platformPtr argv envp + BitVec.ofNat 64 platform.length

/-- The entry that the block describes. -/
def blockEntry : Entry where
  argc := BitVec.ofNat 64 argv.length
  argv := (stringPtrs argv envp).take argv.length
  envp := ((stringPtrs argv envp).drop argv.length).take envp.length
  auxv := (auxv info (platformPtr argv envp) (execfnPtr argv envp) (randomPtr argv envp)).dropLast

theorem argumentBlock_eq (random : List Byte) :
    argumentBlock argv envp info random =
      (blockEntry argv envp info).words.flatMap wordBytes ++ (wordBytes 0 ++
        ((blockStrings argv envp).flatten ++ random)) := by
  have hwords : (blockEntry argv envp info).words ++ [0] =
      [BitVec.ofNat 64 argv.length] ++ (stringPtrs argv envp).take argv.length ++ [0] ++
        ((stringPtrs argv envp).drop argv.length).take envp.length ++ [0] ++
        pairWords (auxv info (platformPtr argv envp) (execfnPtr argv envp)
          (randomPtr argv envp)) := by
    simp [blockEntry, Entry.words, pairWords, auxv]
  have hblock : argumentBlock argv envp info random = ((blockEntry argv envp info).words ++
      [0]).flatMap wordBytes ++ ((blockStrings argv envp).flatten ++ random) := by
    rw [hwords, ← append_assoc]
    rfl
  rw [hblock]
  simp

theorem length_addresses (c : U64) (strs : List Str) :
    (addresses c strs).length = strs.length := by
  induction strs generalizing c with
  | nil => rfl
  | cons s strs ih => simp [addresses, ih]

theorem addresses_append_singleton (c : U64) (strs : List Str) (s : Str) :
    addresses c (strs ++ [s]) = addresses c strs ++ [c + BitVec.ofNat 64 strs.flatten.length] := by
  induction strs generalizing c with
  | nil => simp [addresses]
  | cons t strs ih =>
    have hnext : c + BitVec.ofNat 64 t.length + BitVec.ofNat 64 strs.flatten.length =
        c + BitVec.ofNat 64 (t :: strs).flatten.length := by
      rw [flatten_cons, length_append, BitVec.add_assoc, ← BitVec.ofNat_add]
    rw [cons_append, addresses, ih, addresses, hnext]
    rfl

/-- A list in three parts, the last one a single element. -/
theorem take_drop_getLast {α : Type*} {l : List α} {k : ℕ} (d : α) (h : l.length = n + k + 1) :
    l.take n ++ (l.drop n).take k ++ [l.getLastD d] = l := by
  have hne : l ≠ [] := by
    rintro rfl
    simp at h
  have hlast : l.getLastD d = l.getLast hne := by
    rw [getLastD_eq_getLast?, getLast?_eq_some_getLast hne, Option.getD_some]
  rw [hlast, ← take_add, ← show l.dropLast = l.take (n + k) from by
    rw [dropLast_eq_take, h, Nat.add_sub_cancel], dropLast_append_getLast]

theorem length_stringPtrs : (stringPtrs argv envp).length = argv.length + envp.length + 1 := by
  simp only [stringPtrs, length_addresses, blockStrings, length_append, length_map,
    length_singleton]

theorem blockEntry_ptrs : (blockEntry argv envp info).argv ++ (blockEntry argv envp info).envp ++
    [platformPtr argv envp] = stringPtrs argv envp :=
  take_drop_getLast 0 (length_stringPtrs argv envp)

theorem length_blockEntry : (blockEntry argv envp info).argv.length = argv.length ∧
    (blockEntry argv envp info).envp.length = envp.length := by
  have hlen := length_stringPtrs argv envp
  simp only [blockEntry, length_take, length_drop, hlen]
  omega

theorem length_blockEntry_words :
    8 * (blockEntry argv envp info).words.length + 8 = headerBytes argv envp := by
  obtain ⟨h₁, h₂⟩ := length_blockEntry argv envp info
  have h₃ : (pairWords (blockEntry argv envp info).auxv).length = 30 := rfl
  simp only [Entry.words, length_append, length_singleton, h₁, h₂, h₃, headerBytes,
    auxvCount]
  omega

variable {argv envp}

section Fits
variable (hfit : totalBytes argv envp ≤ stackSize)

include hfit

theorem toNat_stringsAt :
    (stringsAt argv envp).toNat = stackBase.toNat + headerBytes argv envp := by
  unfold totalBytes stackSize at hfit
  have hbase : stackBase.toNat = 0x10000000 := rfl
  rw [stringsAt, BitVec.toNat_add, BitVec.toNat_ofNat, hbase]
  omega

theorem toNat_platformPtr : (platformPtr argv envp).toNat + 20 =
    stackBase.toNat + totalBytes argv envp := by
  have hat := toNat_stringsAt hfit
  have hsplit : blockStrings argv envp = (argv.map cstr ++ envp.map envStr) ++ [platform] := rfl
  have hplat : platform.length = 4 := rfl
  have htotal : totalBytes argv envp =
      headerBytes argv envp + (argv.map cstr ++ envp.map envStr).flatten.length + 20 := by
    rw [totalBytes, hsplit, flatten_append, length_append, flatten_singleton, hplat]
    omega
  have hbase : stackBase.toNat = 0x10000000 := rfl
  rw [platformPtr, stringPtrs, hsplit, addresses_append_singleton, getLastD_concat,
    BitVec.toNat_add, BitVec.toNat_ofNat, hat, htotal, hbase]
  rw [htotal] at hfit
  unfold stackSize at hfit
  omega

theorem toNat_randomPtr : (randomPtr argv envp).toNat + 16 =
    stackBase.toNat + totalBytes argv envp := by
  have hat := toNat_platformPtr hfit
  have hplat : platform.length = 4 := rfl
  have hbase : stackBase.toNat = 0x10000000 := rfl
  unfold stackSize at hfit
  rw [randomPtr, BitVec.toNat_add, BitVec.toNat_ofNat, hplat]
  omega

theorem toNat_argc : (blockEntry argv envp info).argc.toNat = argv.length := by
  have : argv.length < 2 ^ 64 := by
    unfold totalBytes headerBytes stackSize at hfit
    omega
  exact (BitVec.toNat_ofNat _ _).trans (Nat.mod_eq_of_lt this)

end Fits

theorem execfnPtr_eq : (blockEntry argv envp info).argv.headD (platformPtr argv envp) =
    execfnPtr argv envp := by
  cases argv with
  | nil => simp [blockEntry, execfnPtr]
  | cons s argv => simp [blockEntry, execfnPtr, stringPtrs, blockStrings, addresses]

/-- Memory that has the block up to the random bytes gives everything back. -/
theorem recovers_of_has (hz : NulFree argv envp) (hfit : totalBytes argv envp ≤ stackSize)
    (h : Has mem stackBase.toNat ((blockEntry argv envp info).words.flatMap wordBytes ++
      (wordBytes 0 ++ (blockStrings argv envp).flatten))) :
    Recovers mem stackBase argv envp info := by
  have hat := toNat_stringsAt hfit
  have hbase : stackBase.toNat = 0x10000000 := rfl
  have hsize : stackSize = 0x1000000 := rfl
  rw [has_append, has_append, length_wordBytes, length_flatMap_wordBytes, Nat.add_assoc,
    length_blockEntry_words, ← hat, blockStrings_eq] at h
  obtain ⟨hwords, -, hflat⟩ := h
  have hstr : StringsAt mem (stringsAt argv envp).toNat
      (stackBase.toNat + totalBytes argv envp) (stringPtrs argv envp)
      (entryStrings argv envp) := by
    rw [stringPtrs, blockStrings_eq]
    refine stringsAt_addresses (by omega) hz.entryStrings ?_ hflat
    rw [← blockStrings_eq, hat, totalBytes]
    omega
  have hargc := toNat_argc info hfit
  refine ⟨_, blockEntry argv envp info, platformPtr argv envp, randomPtr argv envp,
    readEntry_of_has ?_ hwords ?_ ?_ (Nat.lt_succ_self _), hargc, ?_, ?_, ?_⟩
  · rw [hargc, (length_blockEntry argv envp info).1]
  · intro x hx hzero
    have hmem : x ∈ stringPtrs argv envp := by
      rw [← blockEntry_ptrs argv envp info]
      simp [hx]
    have hle := (hstr.ptr_le hmem).1
    rw [hzero, hat, hbase] at hle
    simp at hle
  · simp [blockEntry, auxv]
  · rw [execfnPtr_eq]
    rfl
  · rw [blockEntry_ptrs]
    exact hstr.mono (by omega)
  · have hran := toNat_randomPtr hfit
    refine ⟨?_, hran.le⟩
    unfold totalBytes at hran
    omega

end Block

/-! ## A loaded image -/

/-- The vm right after its image was loaded: an empty TLB, and every segment on pages of its own,
filled from the image. Segments may overlap. -/
structure Loaded (s : State) (segs : List BootSeg) : Prop where
  tlb : (s.vms 0).tlb = fun _ => TlbEntry.zero
  ordered : (s.maps 0).Pairwise fun m m' => m.paddr ≤ m'.paddr
  unshared : ∀ m ∈ s.maps 0, m.cowData = none
  region_lt : ∀ m ∈ s.maps 0, m.data.region < s.host.next
  apart : ∀ m ∈ s.maps 0, ∀ m' ∈ s.maps 0, m.data.region = m'.data.region → m = m'
  filled : ∀ m ∈ s.maps 0, ∃ b ∈ segs, b.paddr = m.paddr ∧ s.host.bytes m.data.region = b.init
  starts : ∀ b ∈ segs, ∃ m ∈ s.maps 0, m.paddr = b.paddr

theorem bootMap_tlb (s : State) (b : BootSeg) :
    ((s.bootMap b).vms 0).tlb = fun _ => TlbEntry.zero :=
  flushTlb_tlb_self _ _

theorem bootMap_bytes (s : State) (b : BootSeg) {r : ℕ} (hr : r < s.host.next) :
    (s.bootMap b).host.bytes r = s.host.bytes r :=
  update_of_ne hr.ne _ _

theorem bootMap_bytes_self (s : State) (b : BootSeg) :
    (s.bootMap b).host.bytes s.host.next = b.init :=
  update_self _ _ _

theorem Loaded.bootMap (h : Loaded s segs) (b : BootSeg) : Loaded (s.bootMap b) (segs ++ [b]) := by
  have hnext : (s.bootMap b).host.next = s.host.next + 1 := rfl
  have hcases {m : Memmap} (hm : m ∈ (s.bootMap b).maps 0) :
      m = b.segment ⟨s.host.next, 0⟩ ∨ m ∈ s.maps 0 := by
    rw [bootMap_maps] at hm
    exact mem_insertBefore.mp hm
  refine ⟨bootMap_tlb s b, ?_, ?_, ?_, ?_, ?_, ?_⟩
  · rw [bootMap_maps]
    exact pairwise_insertBefore h.ordered _
  · intro m hm
    rcases hcases hm with rfl | hm
    · rfl
    · exact h.unshared m hm
  · intro m hm
    rw [hnext]
    rcases hcases hm with rfl | hm
    · exact Nat.lt_succ_self _
    · exact (h.region_lt m hm).trans (Nat.lt_succ_self _)
  · intro m hm m' hm' hr
    rcases hcases hm with rfl | hm <;> rcases hcases hm' with rfl | hm'
    · rfl
    · exact absurd hr (h.region_lt m' hm').ne'
    · exact absurd hr (h.region_lt m hm).ne
    · exact h.apart m hm m' hm' hr
  · intro m hm
    rcases hcases hm with rfl | hm
    · exact ⟨b, by simp, rfl, bootMap_bytes_self s b⟩
    · obtain ⟨b', hb', hp, hinit⟩ := h.filled m hm
      exact ⟨b', by simp [hb'], hp, (bootMap_bytes s b (h.region_lt m hm)).trans hinit⟩
  · intro b' hb'
    rw [bootMap_maps]
    rcases mem_append.mp hb' with hb' | hb'
    · obtain ⟨m, hm, hp⟩ := h.starts b' hb'
      exact ⟨m, mem_insertBefore.mpr (.inr hm), hp⟩
    · obtain rfl := mem_singleton.mp hb'
      exact ⟨_, mem_insertBefore.mpr (.inl rfl), rfl⟩

theorem loaded_boot (segs : List BootSeg) : Loaded (boot segs) segs := by
  induction segs using reverseRecOn with
  | nil => refine ⟨rfl, ?_, ?_, ?_, ?_, ?_, ?_⟩ <;> simp [maps, boot, empty]
  | append_singleton segs b ih =>
    rw [boot, foldl_append, ← boot]
    exact ih.bootMap b

/-! ## `setup_stack` on a loaded image -/

/-- The container once the foot of the stack is mapped. -/
def footed (s : State) : List Memmap :=
  if (findMap (s.maps 0) stackBase.toNat 1).isSome then s.maps 0
  else Segments.insertBefore Memmap.paddr (s.maps 0) (stackSeg.segment ⟨s.host.next, 0⟩)

/-- What `setup_stack` has after its first step. -/
structure Footed (s s₁ : State) (foot : HostPtr) : Prop where
  maps : s₁.maps 0 = footed s
  bytes : ∀ r < s.host.next, s₁.host.bytes r = s.host.bytes r
  tlb : ∀ i, (s₁.vms 0).tlb i = TlbEntry.zero ∨ (i = tlbIndex stackBase.toNat ∧
    ∃ m, Segments.lastBelow Memmap.paddr (footed s) stackBase.toNat = some m ∧
      (s₁.vms 0).tlb i = TlbEntry.ofMap m)
  foot : ∀ m n, 0 < n → stackBase.toNat + n < 2 ^ 64 →
    findMap (footed s) stackBase.toNat n = some m →
    m.data.add (stackBase.toNat - m.paddr) = foot

theorem findMap_eq_lastBelow {ml : List Memmap} (h : a + n < 2 ^ 64) :
    findMap ml a n = some m ↔
      lastBelow Memmap.paddr ml a = some m ∧ a + n ≤ m.uend := by
  rw [findMap_iff, uadd_eq h]
  exact and_iff_right (by omega)

/-- With no entry in the TLB the translation searches the container. -/
theorem mmu_of_zero {v : ℕ} (hn : 0 < n) (h : a + n < 2 ^ 64)
    (htlb : (s.vms v).tlb (tlbIndex a) = TlbEntry.zero) : s.mmu v a n = s.mmuSlow v a n := by
  unfold State.mmu
  rw [uadd_eq h, if_neg (by omega)]
  dsimp only
  rw [htlb, if_neg]
  rintro ⟨-, hle⟩
  change a + n ≤ 0 at hle
  omega

theorem stackFoot_cases (w : ExecWorld) (hs : Loaded s segs) :
    (findMap (s.maps 0) stackBase.toNat 1 = none ∧ w.stackMapped = false ∧
      stackFoot w s = none) ∨
    ((findMap (s.maps 0) stackBase.toNat 1 = none → w.stackMapped = true) ∧
      ∃ foot s₁, stackFoot w s = some (foot, s₁) ∧ Footed s s₁ foot) := by
  have hmmu := mmu_of_zero (n := 1) Nat.one_pos (show stackBase.toNat + 1 < 2 ^ 64 by decide)
    (congrFun hs.tlb _)
  unfold stackFoot
  rw [hmmu, mmuSlow]
  cases hf : findMap (s.maps 0) stackBase.toNat 1 with
  | some m =>
    have hfooted : footed s = s.maps 0 := by rw [footed, hf]; rfl
    have hlast := (findMap_eq_lastBelow (by decide)).mp hf
    refine .inr ⟨fun he => by simp at he, _, _, rfl, ?_, fun _ _ => rfl, fun i => ?_, ?_⟩
    · rw [setTlb_maps, hfooted]
    · rw [setTlb_tlb_self]
      by_cases hi : i = tlbIndex stackBase.toNat
      · refine .inr ⟨hi, m, by rw [hfooted]; exact hlast.1, ?_⟩
        rw [hi, update_self]
      · exact .inl (by rw [update_of_ne hi, hs.tlb])
    · intro m' n hn hlt hm'
      rw [hfooted, findMap_eq_lastBelow hlt] at hm'
      rw [Option.some.inj (hm'.1.symm.trans hlast.1)]
  | none =>
    dsimp only
    cases hw : w.stackMapped with
    | false => exact .inl ⟨rfl, rfl, rfl⟩
    | true =>
      have hfooted : footed s = insertBefore Memmap.paddr (s.maps 0)
          (stackSeg.segment ⟨s.host.next, 0⟩) := by rw [footed, hf]; rfl
      refine .inr ⟨fun _ => rfl, _, _, rfl, ?_, fun r hr => bootMap_bytes s stackSeg hr, ?_, ?_⟩
      · rw [bootMap_maps, hfooted]
      · exact fun i => .inl (congrFun (bootMap_tlb s stackSeg) i)
      · intro m n hn hlt hm
        rw [hfooted, findMap_eq_lastBelow hlt] at hm
        have hsearch : lastBelow Memmap.paddr _ stackBase.toNat = _ ∨ _ :=
          lastBelow_insertBefore (s.maps 0) (stackSeg.segment ⟨s.host.next, 0⟩)
        rcases hsearch with hx | hx
        · obtain rfl := Option.some.inj (hm.1.symm.trans hx)
          rfl
        · -- a segment of the image at the foot would have been found
          have hold := hx.symm.trans hm.1
          have hfind : findMap (s.maps 0) stackBase.toNat 1 = some m :=
            (findMap_eq_lastBelow (by decide)).mpr ⟨hold, by omega⟩
          rw [hf] at hfind
          cases hfind

section Setup
variable {w : ExecWorld} {p : Proc} {argv : List Str} {envp : Env} {info : ElfLoad}

/-- When `setup_stack` succeeds: the foot of the stack can be mapped, its top can be written, the
block fits the stack and the segment at its foot, and there are random bytes. -/
def StackFits (w : ExecWorld) (s : State) (total : ℕ) : Prop :=
  (findMap (s.maps 0) stackBase.toNat 1 = none → w.stackMapped = true) ∧
  (∃ t, findMap (footed s) stackTop.toNat 8 = some t ∧ hasFlag t.flags pfW = true) ∧
  total ≤ stackSize ∧ (findMap (footed s) stackBase.toNat total).isSome ∧ w.random.isSome

/-- What `setup_stack` leaves: the sentinel in the segment `t` at the top, and then the block in
the segment `m` at the foot. -/
structure Written (p : Proc) (s s' : State) (total : ℕ) (block : List Byte) (m t : Memmap) :
    Prop where
  maps : s'.maps 0 = footed s
  foot : findMap (footed s) stackBase.toNat total = some m
  top : findMap (footed s) stackTop.toNat 8 = some t
  bytes : ∃ h : Host, (∀ r < s.host.next, h.bytes r = s.host.bytes r) ∧
    s'.host.bytes = ((h.store (t.data.add (stackTop.toNat - t.paddr))
      (wordBytes (frameFlagsMake false p.stackLimit 0))).store
      (m.data.add (stackBase.toNat - m.paddr)) block).bytes

theorem footed_unshared (hs : Loaded s segs) (hm : m ∈ footed s) : m.cowData = none := by
  unfold footed at hm
  split_ifs at hm
  · exact hs.unshared m hm
  · rcases mem_insertBefore.mp hm with rfl | hm
    · rfl
    · exact hs.unshared m hm

theorem Footed.mmuW {s₁ : State} {foot : HostPtr} (h : Footed s s₁ foot) (hs : Loaded s segs)
    (env : HostEnv) : s₁.mmuW env 0 stackTop.toNat 8 =
      match findMap (footed s) stackTop.toNat 8 with
      | none => (none, s₁)
      | some t => if hasFlag t.flags pfW then (some (t.data.add (stackTop.toNat - t.paddr)),
          s₁.setTlb 0 (tlbIndex stackTop.toNat) (TlbEntry.ofMap t)) else (none, s₁) := by
  have htlb : (s₁.vms 0).tlb (tlbIndex stackTop.toNat) = TlbEntry.zero := by
    rcases h.tlb (tlbIndex stackTop.toNat) with hz | ⟨hi, -⟩
    · exact hz
    · exact absurd hi (by decide)
  have hwrap : ¬ uadd stackTop.toNat 8 < stackTop.toNat := by decide
  have hmiss : ¬ uadd stackTop.toNat 8 ≤ 0 := by decide
  unfold State.mmuW
  rw [if_neg hwrap]
  dsimp only
  rw [htlb, if_neg fun hhit => hmiss hhit.2.1, mmuWSlow, h.maps]
  cases hf : findMap (footed s) stackTop.toNat 8 with
  | none => rfl
  | some t =>
    dsimp only
    rw [resolveCow, footed_unshared hs (findMap_mem hf)]

/-- The second look at the foot of the stack, wherever the sentinel went. -/
theorem Footed.mmu {s₁ s₂ : State} {foot : HostPtr} (h : Footed s s₁ foot) {e : TlbEntry}
    (hmaps : s₂.maps 0 = s₁.maps 0)
    (htlb : (s₂.vms 0).tlb = update (s₁.vms 0).tlb (tlbIndex stackTop.toNat) e)
    (hn : 0 < n) (hlt : stackBase.toNat + n < 2 ^ 64) :
    (s₂.mmu 0 stackBase.toNat n).1 = (findMap (footed s) stackBase.toNat n).map fun _ => foot := by
  have hentry : (s₂.vms 0).tlb (tlbIndex stackBase.toNat) =
      (s₁.vms 0).tlb (tlbIndex stackBase.toNat) := by
    rw [htlb, update_of_ne (by decide)]
  have hslow : (s₂.mmuSlow 0 stackBase.toNat n).1 =
      (findMap (footed s) stackBase.toNat n).map fun _ => foot := by
    rw [mmuSlow, hmaps, h.maps]
    cases hf : findMap (footed s) stackBase.toNat n with
    | none => rfl
    | some m => exact congrArg some (h.foot m n hn hlt hf)
  rcases h.tlb (tlbIndex stackBase.toNat) with hz | ⟨-, m, hm, he⟩
  · rw [mmu_of_zero hn hlt (hentry.trans hz), hslow]
  · unfold State.mmu
    rw [uadd_eq hlt, if_neg (by omega)]
    dsimp only
    rw [hentry, he]
    split_ifs with hhit
    · have hf : findMap (footed s) stackBase.toNat n = some m :=
        (findMap_eq_lastBelow hlt).mpr ⟨hm, hhit.2⟩
      rw [hf]
      exact congrArg some (h.foot m n hn hlt hf)
    · exact hslow

theorem setupStack_spec (w : ExecWorld) (argv : List Str) (envp : Env) (info : ElfLoad)
    (hs : Loaded s segs) (hraw : p.rawStack = false) :
    (setupStack w p s argv envp info = none ∧ ¬ StackFits w s (totalBytes argv envp)) ∨
    (StackFits w s (totalBytes argv envp) ∧ ∃ s' random m t,
      setupStack w p s argv envp info = some (s', stackBase) ∧
      Written p s s' (totalBytes argv envp) (argumentBlock argv envp info random) m t) := by
  unfold setupStack StackFits
  rcases stackFoot_cases w hs with ⟨hnone, hw, hfoot⟩ | ⟨hmap, foot, s₁, hfoot, hF⟩
  · refine .inl ⟨by rw [hfoot], fun hfits => ?_⟩
    have := hfits.1 hnone
    rw [hw] at this
    cases this
  rw [hfoot]
  dsimp only
  rw [hF.mmuW hs]
  cases htop : findMap (footed s) stackTop.toNat 8 with
  | none => exact .inl ⟨rfl, by simp⟩
  | some t =>
    dsimp only
    by_cases hW : hasFlag t.flags pfW = true
    · rw [if_pos hW]
      dsimp only
      rw [hraw]
      simp only [Bool.false_eq_true, if_false]
      by_cases hfit : stackSize < totalBytes argv envp
      · rw [if_pos hfit]
        exact .inl ⟨rfl, fun hfits => absurd hfits.2.2.1 (by omega)⟩
      rw [if_neg hfit]
      have hpos : 0 < totalBytes argv envp := by
        unfold totalBytes
        omega
      have hlt : stackBase.toNat + totalBytes argv envp < 2 ^ 64 := by
        have hbase : stackBase.toNat = 0x10000000 := rfl
        unfold stackSize at hfit
        omega
      generalize hs₂ : (s₁.setTlb 0 (tlbIndex stackTop.toNat) (TlbEntry.ofMap t)).setHost _ = s₂
      have hmaps₂ : s₂.maps 0 = s₁.maps 0 := by
        rw [← hs₂, setHost_maps, setTlb_maps]
      have htlb₂ : (s₂.vms 0).tlb = update (s₁.vms 0).tlb (tlbIndex stackTop.toNat)
          (TlbEntry.ofMap t) := by
        rw [← hs₂]
        exact setTlb_tlb_self _ _ _ _
      have hmmu := hF.mmu hmaps₂ htlb₂ hpos hlt
      have hmaps₃ := mmu_maps s₂ 0 stackBase.toNat (totalBytes argv envp) 0
      have hhost₃ := mmu_host s₂ 0 stackBase.toNat (totalBytes argv envp)
      generalize s₂.mmu 0 stackBase.toNat (totalBytes argv envp) = r at hmmu hmaps₃ hhost₃ ⊢
      obtain ⟨q, s₃⟩ := r
      dsimp only at hmmu hmaps₃ hhost₃
      cases hm : findMap (footed s) stackBase.toNat (totalBytes argv envp) with
      | none =>
        rw [hm] at hmmu
        subst hmmu
        exact .inl ⟨rfl, by simp⟩
      | some m =>
        rw [hm] at hmmu
        subst hmmu
        cases hrandom : w.random with
        | none => exact .inl ⟨by simp, by simp⟩
        | some random =>
          refine .inr ⟨⟨hmap, ⟨t, rfl, hW⟩, by omega, rfl, rfl⟩, _, random, m, t, rfl, ?_⟩
          refine ⟨hmaps₃.trans (hmaps₂.trans hF.maps), hm, htop, s₁.host, hF.bytes, ?_⟩
          rw [setHost_host, hhost₃, ← hs₂, hF.foot m _ hpos hlt hm]
          rfl
    · rw [if_neg hW]
      refine .inl ⟨rfl, ?_⟩
      rintro ⟨-, ⟨t', ht', hW'⟩, -⟩
      cases ht'
      exact hW hW'

theorem mem_footed (hm : m ∈ footed s) : m ∈ s.maps 0 ∨ m = stackSeg.segment ⟨s.host.next, 0⟩ := by
  unfold footed at hm
  split_ifs at hm
  · exact .inl hm
  · exact (mem_insertBefore.mp hm).symm

theorem mem_footed_of_mem (hm : m ∈ s.maps 0) : m ∈ footed s := by
  unfold footed
  split_ifs
  · exact hm
  · exact mem_insertBefore.mpr (.inr hm)

theorem footed_ordered (hs : Loaded s segs) :
    (footed s).Pairwise fun m m' => m.paddr ≤ m'.paddr := by
  unfold footed
  split_ifs
  · exact hs.ordered
  · exact pairwise_insertBefore hs.ordered _

/-- Segments on one host allocation are the same segment. -/
theorem footed_apart (hs : Loaded s segs) {m' : Memmap} (hm : m ∈ s.maps 0) (hm' : m' ∈ footed s)
    (hr : m.data.region = m'.data.region) : m = m' := by
  rcases mem_footed hm' with hm' | rfl
  · exact hs.apart m hm m' hm' hr
  · exact absurd hr (hs.region_lt m hm).ne

theorem viewOf_eq_lastBelow {h : Host} {ml : List Memmap} (ha : a + 1 < 2 ^ 64) {b : Byte} :
    viewOf h ml a = some b ↔ ∃ m, lastBelow Memmap.paddr ml a = some m ∧
      a + 1 ≤ m.uend ∧ h.byte (m.ptr a) = b := by
  unfold viewOf lookup
  rw [if_pos (by omega)]
  simp only [Option.map_eq_some_iff, findMap_eq_lastBelow ha]
  constructor
  · rintro ⟨q, ⟨m, ⟨hm, hle⟩, rfl⟩, hb⟩
    exact ⟨m, hm, hle, hb⟩
  · rintro ⟨m, hm, hle, hb⟩
    exact ⟨_, ⟨m, ⟨hm, hle⟩, rfl⟩, hb⟩

theorem store_bytes_outside {h : Host} {q : HostPtr} {bs : List Byte} {r o : ℕ}
    (hout : ¬ (r = q.region ∧ q.off ≤ o)) : (h.store q bs).bytes r o = h.bytes r o :=
  if_neg fun hc => hout ⟨hc.1, hc.2.1⟩

section Views
variable {s' : State} {total : ℕ} {block : List Byte} {t : Memmap}
  (hW : Written p s s' total block m t) (htotal : total ≤ stackSize)

include hW htotal

/-- Up to the first segment that starts behind the foot, the guest sees the block. -/
theorem Written.view {i : ℕ} (hi : i < total) (hblock : i < block.length)
    (hgap : ∀ x ∈ footed s, ¬ (stackBase.toNat < x.paddr ∧ x.paddr ≤ stackBase.toNat + i)) :
    viewOf s'.host (s'.maps 0) (stackBase.toNat + i) = block[i]? := by
  have hbase : stackBase.toNat = 0x10000000 := rfl
  unfold stackSize at htotal
  obtain ⟨hlast, hend⟩ := (findMap_eq_lastBelow (by omega)).mp hW.foot
  have hle := (lastBelow_mem hlast).2
  obtain ⟨h, -, hbytes⟩ := hW.bytes
  rw [getElem?_eq_getElem hblock, viewOf_eq_lastBelow (by omega), hW.maps]
  refine ⟨m, (lastBelow_eq_of_gap (by omega) hgap).trans hlast, by omega, ?_⟩
  have hoff : m.data.off + (stackBase.toNat + i - m.paddr) =
      m.data.off + (stackBase.toNat - m.paddr) + i := by omega
  simp only [Host.byte, Memmap.ptr, HostPtr.add_region, HostPtr.add_off, hbytes, Host.store, hoff]
  rw [if_pos ⟨trivial, by omega, by omega⟩, Nat.add_sub_cancel_left,
    getD_eq_getElem?_getD, getElem?_eq_getElem hblock, Option.getD_some]

/-- Behind such a segment the guest sees the image. -/
theorem Written.view_image (hs : Loaded s segs) {c : Byte} (hinit : ∀ b ∈ segs, ∀ i, b.init i = c)
    {x : ℕ} (hx : x < stackTop.toNat) {y : Memmap} (hy : y ∈ footed s)
    (hlo : stackBase.toNat < y.paddr) (hyx : y.paddr ≤ x) {b : Byte}
    (hb : viewOf s'.host (s'.maps 0) x = some b) : b = c := by
  have htop : stackTop.toNat = 0x10fffff8 := rfl
  have hbase : stackBase.toNat = 0x10000000 := rfl
  rw [hW.maps, viewOf_eq_lastBelow (by omega)] at hb
  obtain ⟨z, hz, -, rfl⟩ := hb
  obtain ⟨hzmem, hzx⟩ := lastBelow_mem hz
  have hzy := le_of_lastBelow (footed_ordered hs) hz hy hyx
  have hzs : z ∈ s.maps 0 := by
    rcases mem_footed hzmem with hzs | rfl
    · exact hzs
    · exact absurd (hlo.trans_le hzy) (Nat.lt_irrefl _)
  obtain ⟨h, hold, hbytes⟩ := hW.bytes
  obtain ⟨b, hbs, -, hfill⟩ := hs.filled z hzs
  unfold stackSize at htotal
  have hlast := lastBelow_mem ((findMap_eq_lastBelow (by omega)).mp hW.foot).1
  have htmem := lastBelow_mem ((findMap_eq_lastBelow (by omega)).mp hW.top).1
  -- neither the block nor the sentinel is where the guest looks
  have hm : z.data.region ≠ m.data.region := by
    intro hr
    have := footed_apart hs hzs hlast.1 hr
    subst this
    omega
  have ht : z.data.region = t.data.region → z.data.off + (x - z.paddr) <
      t.data.off + (stackTop.toNat - t.paddr) := by
    intro hr
    have := footed_apart hs hzs htmem.1 hr
    subst this
    omega
  rw [Host.byte, hbytes, store_bytes_outside, store_bytes_outside, Memmap.ptr,
    HostPtr.add_region, hold _ (hs.region_lt z hzs), hfill, hinit b hbs]
  · rintro ⟨hr, hle⟩
    have := ht hr
    simp only [Memmap.ptr, HostPtr.add_off] at hle
    omega
  · exact fun hc => hm hc.1

end Views

end Setup

/-! ## Whether the block can be read -/

section Spoiled
variable {argv : List Str} {envp : Env} {info : ElfLoad}

theorem wordBytes_inj {x y : U64} (h : Has mem a (wordBytes x))
    (h' : Has mem a (wordBytes y)) : x = y :=
  Option.some.inj ((readWord_eq_some_iff.mpr h).symm.trans (readWord_eq_some_iff.mpr h'))

/-- The address of `auxv`. -/
def auxvAt (argv : List Str) (envp : Env) : ℕ :=
  stackBase.toNat + 8 + 8 * argv.length + 8 + 8 * (envp.length + 1)

/-- The value of `AT_PLATFORM` and the key of `AT_NULL` stand at fixed places. -/
theorem has_auxv {platformAt execfn randomAt : U64} (hargc : e.argc.toNat = argv.length)
    (hlen : e.argv.length = e.argc.toNat) (hlen' : e.envp.length = envp.length)
    (hauxv : e.auxv ++ [(0, 0)] = auxv info platformAt execfn randomAt)
    (h : Has mem stackBase.toNat (e.words.flatMap wordBytes)) :
    Has mem (auxvAt argv envp + 200) (wordBytes platformAt) ∧
      Has mem (auxvAt argv envp + 240) (wordBytes 0) := by
  obtain ⟨-, -, -, -, h⟩ := (has_words_iff hlen).mp h
  rw [hargc, hlen'] at h
  have he : e.auxv = (auxv info platformAt execfn randomAt).dropLast := by
    rw [← hauxv, dropLast_concat]
  have hsplit : pairWords e.auxv ++ [0] = (pairWords e.auxv).take 25 ++ ([platformAt] ++
      ((pairWords e.auxv).drop 26 ++ [0])) := by
    rw [he]
    rfl
  have hlens : ((pairWords e.auxv).take 25).length = 25 ∧
      ((pairWords e.auxv).drop 26).length = 4 := by
    rw [he]
    exact ⟨rfl, rfl⟩
  rw [hsplit, flatMap_append, has_append, length_flatMap_wordBytes, hlens.1,
    flatMap_append, has_append, length_flatMap_wordBytes, flatMap_append, has_append,
    length_flatMap_wordBytes, hlens.2] at h
  simp only [flatMap_singleton, length_singleton] at h
  exact ⟨h.2.1, h.2.2.2⟩

/-- A segment with other bytes from inside the block on: the block cannot be read. Either the end
of `auxv` is not found, or the string of `AT_PLATFORM` does not end. -/
theorem not_recovers {core : ℕ → Option Byte} (hfit : totalBytes argv envp ≤ stackSize)
    (hcore : Has core stackBase.toNat ((blockEntry argv envp info).words.flatMap wordBytes))
    (hlt : a + 16 < stackBase.toNat + totalBytes argv envp)
    (hbelow : ∀ x, stackBase.toNat ≤ x → x < a → mem x = core x)
    (habove : ∀ x, a ≤ x → x + 16 < stackBase.toNat + totalBytes argv envp → mem x ≠ some 0) :
    ¬ Recovers mem stackBase argv envp info := by
  rintro ⟨fuel, e, platformAt, randomAt, hread, hargc, hauxv, hstr, -⟩
  obtain ⟨hlen, hwords⟩ := has_of_readEntry hread
  have hlen' : e.envp.length = envp.length := by
    have := hstr.length
    simp only [entryStrings, length_append, length_map, length_singleton] at this
    omega
  obtain ⟨hplat, hnull⟩ := has_auxv hargc hlen hlen' hauxv hwords
  have htotal : auxvAt argv envp + 276 ≤ stackBase.toNat + totalBytes argv envp := by
    have hplatform : 4 ≤ (blockStrings argv envp).flatten.length := by
      have : platform.length = 4 := rfl
      simp only [blockStrings, flatten_append, length_append, flatten_singleton]
      omega
    unfold auxvAt totalBytes headerBytes auxvCount
    omega
  have hzero : mem (auxvAt argv envp + 240) = some 0 := hnull 0 (by simp)
  have ha : auxvAt argv envp + 240 < a := by
    by_contra hle
    exact habove _ (by omega) (by omega) hzero
  have hn := toNat_argc info hfit
  have hcore' : Has core (auxvAt argv envp + 200) (wordBytes (platformPtr argv envp)) := by
    obtain ⟨hv, he⟩ := length_blockEntry argv envp info
    exact (has_auxv hn (hv.trans hn.symm) he rfl hcore).1
  have hmem : Has mem (auxvAt argv envp + 200) (wordBytes (platformPtr argv envp)) := by
    refine hcore'.congr fun i hi => hbelow _ ?_ ?_
    · unfold auxvAt
      omega
    · rw [length_wordBytes] at hi
      omega
  obtain rfl := wordBytes_inj hplat hmem
  have hpair : (platformPtr argv envp, ofString "bpf") ∈
      (e.argv ++ e.envp ++ [platformPtr argv envp]).zip (entryStrings argv envp) := by
    unfold entryStrings
    rw [zip_append (by simp only [length_append, length_map]; omega)]
    simp
  obtain ⟨fuel', hbpf⟩ := hstr.read _ hpair
  have hend : mem ((platformPtr argv envp).toNat + 3) = some 0 :=
    has_of_readString hbpf 3 (show 3 < (ofString "bpf" ++ [0]).length by decide)
  have hat := toNat_platformPtr hfit
  exact habove _ (by omega) (by omega) hend

end Spoiled

/-- The same segment with any content. -/
def Alike (b b' : BootSeg) : Prop := b'.paddr = b.paddr ∧ b'.size = b.size ∧ b'.flags = b.flags

theorem foldl_bootMap_alike (h : List.Forall₂ Alike segs segs') {s' : State}
    (hm : s'.maps 0 = s.maps 0) (hn : s'.host.next = s.host.next) :
    (segs'.foldl bootMap s').maps 0 = (segs.foldl bootMap s).maps 0 ∧
      (segs'.foldl bootMap s').host.next = (segs.foldl bootMap s).host.next := by
  induction h generalizing s s' with
  | nil => exact ⟨hm, hn⟩
  | @cons b b' _ _ hb _ ih =>
    have hseg : b'.segment ⟨s'.host.next, 0⟩ = b.segment ⟨s.host.next, 0⟩ := by
      rw [BootSeg.segment, BootSeg.segment, hb.1, hb.2.1, hb.2.2, hn]
    refine ih ?_ (congrArg (· + 1) hn)
    rw [bootMap_maps, bootMap_maps, hm, hseg]

theorem footed_alike (h : List.Forall₂ Alike segs segs') :
    (boot segs').maps 0 = (boot segs).maps 0 ∧
      footed (boot segs') = footed (boot segs) := by
  obtain ⟨hm, hn⟩ := foldl_bootMap_alike h (s := empty) rfl rfl
  refine ⟨hm, ?_⟩
  unfold footed boot
  rw [hm, hn]

/-- No segment of the image starts inside the argument block, behind its first byte. -/
def BlockClear (segs : List BootSeg) (total : ℕ) : Prop :=
  ∀ b ∈ segs, ¬ (stackBase.toNat < b.paddr ∧ b.paddr + 16 < stackBase.toNat + total)

section Image
variable {w : ExecWorld} {p : Proc} {argv : List Str} {envp : Env} {info : ElfLoad} {s' : State}

theorem mem_footed_starts {x : Memmap} (hx : x ∈ footed (boot segs)) :
    x.paddr = stackBase.toNat ∨ ∃ b ∈ segs, b.paddr = x.paddr := by
  rcases mem_footed hx with hx | rfl
  · obtain ⟨b, hb, hp, -⟩ := (loaded_boot segs).filled x hx
    exact .inr ⟨b, hb, hp⟩
  · exact .inl rfl

theorem length_core (argv : List Str) (envp : Env) (info : ElfLoad) (random : List Byte) :
    totalBytes argv envp ≤ (argumentBlock argv envp info random).length + 16 := by
  have hwords := length_blockEntry_words argv envp info
  rw [argumentBlock_eq, length_append, length_append, length_append,
    length_flatMap_wordBytes, length_wordBytes, totalBytes]
  omega

theorem Written.recovers {random : List Byte} {t : Memmap} (hz : NulFree argv envp)
    (hfit : totalBytes argv envp ≤ stackSize)
    (hW : Written p (boot segs) s' (totalBytes argv envp)
      (argumentBlock argv envp info random) m t) (hclear : BlockClear segs (totalBytes argv envp)) :
    Recovers (viewOf s'.host (s'.maps 0)) stackBase argv envp info := by
  have hlen := length_core argv envp info random
  have hblock : Has (viewOf s'.host (s'.maps 0)) stackBase.toNat
      ((blockEntry argv envp info).words.flatMap wordBytes ++
        (wordBytes 0 ++ (blockStrings argv envp).flatten)) := by
    intro i hi
    have hwords := length_blockEntry_words argv envp info
    have hi' : i + 16 < totalBytes argv envp := by
      rw [length_append, length_append, length_flatMap_wordBytes,
        length_wordBytes] at hi
      unfold totalBytes
      omega
    rw [hW.view hfit (by omega) (by omega), argumentBlock_eq, ← append_assoc (wordBytes 0),
      ← append_assoc, getElem?_append_left hi]
    intro x hx hin
    rcases mem_footed_starts hx with he | ⟨b, hb, he⟩
    · omega
    · exact hclear b hb (by omega)
  exact recovers_of_has info hz hfit hblock

/-- The image with the content `c` everywhere. -/
def filledWith (c : Byte) (segs : List BootSeg) : List BootSeg :=
  segs.map fun b => { b with init := fun _ => c }

theorem alike_filledWith (c : Byte) (segs : List BootSeg) :
    List.Forall₂ Alike segs (filledWith c segs) := by
  induction segs with
  | nil => exact .nil
  | cons b segs ih => exact .cons ⟨rfl, rfl, rfl⟩ ih

theorem Written.spoiled {random : List Byte} {t : Memmap} {c : Byte} (hc : c ≠ 0)
    (hinit : ∀ b ∈ segs, ∀ i, b.init i = c) (hfit : totalBytes argv envp ≤ stackSize)
    (hW : Written p (boot segs) s' (totalBytes argv envp)
      (argumentBlock argv envp info random) m t)
    (hclear : ¬ BlockClear segs (totalBytes argv envp)) :
    ¬ Recovers (viewOf s'.host (s'.maps 0)) stackBase argv envp info := by
  have hex : ∃ a, ∃ b ∈ segs, b.paddr = a ∧ stackBase.toNat < a ∧
      a + 16 < stackBase.toNat + totalBytes argv envp := by
    unfold BlockClear at hclear
    push Not at hclear
    obtain ⟨b, hb, hlo, hhi⟩ := hclear
    exact ⟨b.paddr, b, hb, rfl, hlo, hhi⟩
  -- the first segment that starts inside the block
  obtain ⟨b, hb, hpaddr, hlo, hhi⟩ := Nat.find_spec hex
  have hmin : ∀ b ∈ segs, stackBase.toNat < b.paddr →
      b.paddr + 16 < stackBase.toNat + totalBytes argv envp → Nat.find hex ≤ b.paddr :=
    fun b hb h₁ h₂ => Nat.find_min' hex ⟨b, hb, rfl, h₁, h₂⟩
  generalize Nat.find hex = a at hpaddr hlo hhi hmin
  obtain ⟨y, hy, hyp⟩ := (loaded_boot segs).starts b hb
  have htop : stackTop.toNat = stackBase.toNat + stackSize - 8 := rfl
  have hsize : stackSize = 0x1000000 := rfl
  have hlen := length_core argv envp info random
  have hcore : Has (fun x => (argumentBlock argv envp info random)[x - stackBase.toNat]?)
      stackBase.toNat ((blockEntry argv envp info).words.flatMap wordBytes) := by
    intro i hi
    dsimp only
    rw [argumentBlock_eq, Nat.add_sub_cancel_left, getElem?_append_left hi]
  refine not_recovers hfit hcore hhi ?_ ?_
  · intro x hx hxa
    obtain ⟨i, rfl⟩ := Nat.exists_eq_add_of_le hx
    rw [hW.view hfit (by omega) (by omega), Nat.add_sub_cancel_left]
    intro z hz hin
    rcases mem_footed_starts hz with he | ⟨b', hb', he⟩
    · omega
    · have := hmin b' hb' (by omega) (by omega)
      omega
  · intro x hxa hx h0
    exact hc (hW.view_image hfit (loaded_boot segs) hinit (by omega) (mem_footed_of_mem hy)
      (by omega) (by omega) h0).symm

end Image

theorem stackFits_alike {w : ExecWorld} {total : ℕ} (h : List.Forall₂ Alike segs segs') :
    StackFits w (boot segs') total ↔ StackFits w (boot segs) total := by
  obtain ⟨hmaps, hfooted⟩ := footed_alike h
  unfold StackFits
  rw [hmaps, hfooted]

theorem BlockClear.alike {total : ℕ} (hc : BlockClear segs total)
    (h : List.Forall₂ Alike segs segs') : BlockClear segs' total := by
  induction h with
  | nil => exact hc
  | cons hb _ ih =>
    intro x hx
    rcases mem_cons.mp hx with rfl | hx
    · rw [hb.1]
      exact hc _ mem_cons_self
    · exact ih (fun y hy => hc y (mem_cons_of_mem _ hy)) x hx

/-- `setup_stack` with an argument block that does not fit fails. When it succeeds, the program
recovers its arguments, its environment and `auxv` whatever the image contains if and only if no
segment of the image starts inside the block. -/
theorem recovers_iff {w : ExecWorld} {p : Proc} {segs : List BootSeg} {argv : List Str}
    {envp : Env} {info : ElfLoad} (hraw : p.rawStack = false) (hz : NulFree argv envp) :
    (stackSize < totalBytes argv envp ∨
      findMap (footed (boot segs)) stackBase.toNat (totalBytes argv envp) = none →
      setupStack w p (boot segs) argv envp info = none) ∧
    ∀ s' r1, setupStack w p (boot segs) argv envp info = some (s', r1) →
      ((∀ segs', List.Forall₂ Alike segs segs' → ∃ s'',
        setupStack w p (boot segs') argv envp info = some (s'', r1) ∧
        Recovers (viewOf s''.host (s''.maps 0)) r1 argv envp info) ↔
      BlockClear segs (totalBytes argv envp)) := by
  have hspec := fun segs' => setupStack_spec w argv envp info (loaded_boot segs') hraw
  refine ⟨fun hnot => ?_, fun s' r1 h => ?_⟩
  · rcases hspec segs with ⟨hnone, -⟩ | ⟨hfits, -⟩
    · exact hnone
    · rcases hnot with hlt | hnone
      · exact absurd hfits.2.2.1 (by omega)
      · have := hfits.2.2.2.1
        rw [hnone] at this
        cases this
  · rcases hspec segs with ⟨hnone, -⟩ | ⟨hfits, s₁, random₁, m₁, t₁, hs₁, hW₁⟩
    · rw [hnone] at h
      cases h
    obtain rfl : stackBase = r1 := by
      rw [hs₁] at h
      cases h
      rfl
    constructor
    · intro hall
      by_contra hclear
      obtain ⟨s'', hs'', hrec⟩ := hall (filledWith 1 segs) (alike_filledWith 1 segs)
      rcases hspec (filledWith 1 segs) with ⟨hnone, -⟩ | ⟨hfits', s₂, random₂, m₂, t₂, hs₂, hW₂⟩
      · rw [hnone] at hs''
        cases hs''
      · rw [hs₂] at hs''
        cases hs''
        refine hW₂.spoiled (show (1 : Byte) ≠ 0 by decide) ?_ hfits.2.2.1 ?_ hrec
        · intro b hb i
          obtain ⟨b', -, rfl⟩ := mem_map.mp hb
          rfl
        · intro hc
          exact hclear (hc.alike ((alike_filledWith 1 segs).flip.imp fun b b' hbb =>
            ⟨hbb.1.symm, hbb.2.1.symm, hbb.2.2.symm⟩))
    · intro hclear segs' halike
      rcases hspec segs' with ⟨-, hno⟩ | ⟨hfits', s₂, random₂, m₂, t₂, hs₂, hW₂⟩
      · exact absurd ((stackFits_alike halike).mpr hfits) hno
      · exact ⟨s₂, hs₂, hW₂.recovers hz hfits.2.2.1 (hclear.alike halike)⟩

section Example

/-- The arguments `a` and the environment `b=c` on an image of one page. -/
theorem recovers_page : ∃ s', setupStack willing (caller 0x2000) (boot pageImage.segs)
    [[0x61]] [([0x62], [0x63])] pageImage = some (s', stackBase) ∧
    Recovers (viewOf s'.host (s'.maps 0)) stackBase [[0x61]] [([0x62], [0x63])] pageImage := by
  have hfits : StackFits willing (boot pageImage.segs)
      (totalBytes [[0x61]] [([0x62], [0x63])]) :=
    ⟨fun _ => rfl, ⟨stackSeg.segment ⟨1, 0⟩, by decide, by decide⟩, by decide, by decide, rfl⟩
  rcases setupStack_spec willing [[0x61]] [([0x62], [0x63])] pageImage
    (loaded_boot pageImage.segs) (show (caller 0x2000).rawStack = false from rfl) with
    ⟨-, hno⟩ | ⟨-, s₁, -, -, -, hs₁, -⟩
  · exact absurd hfits hno
  · refine ((recovers_iff rfl ⟨by decide, by decide⟩).2 s₁ stackBase hs₁).mpr ?_ _
      (forall₂_same.mpr fun b _ => ⟨rfl, rfl, rfl⟩)
    intro b hb
    obtain rfl := mem_singleton.mp hb
    decide

/-- A writable segment that starts one page above the foot of the stack and ends at its top. -/
def topSeg : BootSeg := ⟨0x10001000, 0xfff000, pfR ||| pfW, fun _ => 1⟩

/-- An argument of 4096 bytes. -/
def longArg : Str := replicate 0x1000 0x61

theorem totalBytes_replicate (n : ℕ) (b : Byte) :
    totalBytes [replicate n b] [] = n + 309 := by
  simp [totalBytes, headerBytes, auxvCount, blockStrings, cstr, platform, ofString]
  omega

theorem totalBytes_longArg : totalBytes [longArg] [] = 4405 := totalBytes_replicate 0x1000 0x61

/-- The end of the argument lies behind the start of the segment: `setup_stack` succeeds, and the
program does not find the end of the string. -/
theorem longArg_lost : ∃ s', NulFree [longArg] [] ∧
    setupStack willing (caller 0x2000) (boot [topSeg]) [longArg] [] pageImage =
      some (s', stackBase) ∧
    ¬ Recovers (viewOf s'.host (s'.maps 0)) stackBase [longArg] [] pageImage := by
  have hfits : StackFits willing (boot [topSeg]) (totalBytes [longArg] []) := by
    rw [totalBytes_longArg]
    exact ⟨fun _ => rfl, ⟨topSeg.segment ⟨0, 0⟩, by decide, by decide⟩, by decide, by decide, rfl⟩
  rcases setupStack_spec willing [longArg] [] pageImage (loaded_boot [topSeg])
    (show (caller 0x2000).rawStack = false from rfl) with ⟨-, hno⟩ | ⟨-, s₁, _, m, t, hs₁, hW⟩
  · exact absurd hfits hno
  · refine ⟨s₁, ⟨?_, by simp⟩, hs₁, hW.spoiled (show (1 : Byte) ≠ 0 by decide) ?_ hfits.2.2.1 ?_⟩
    · intro s hs
      rw [mem_singleton.mp hs]
      exact fun hz => absurd (eq_of_mem_replicate hz) (by decide)
    · intro b hb i
      rw [mem_singleton.mp hb]
      rfl
    · intro hclear
      refine hclear topSeg (by simp) ?_
      rw [totalBytes_longArg]
      decide

end Example

end Bpfvm.Exec
