import Bpfvm.Ffi.Convention

/-!
# Gaps in the pack buffer

A struct of 3, 5, 6 or 7 bytes is an `i24`, `i40`, `i48` or `i56`, whose allocation size is larger
than the struct. `ffi_call` puts the next field right behind the struct, and the function looks
for it behind the allocation size. Everywhere else the two agree, so the signatures that
`ffi_call` serves are those without such a gap.
-/
namespace Bpfvm.Ffi

open FlatMemory LittleEndian Option

variable {byRef : FfiType → Bool} {t : FfiType} {ts : List FfiType} {b v : Bytes} {m : Mem}
  {arena x : ℕ} {sig : Signature} {cif : Cif}

/-! ## The result -/

theorem read_write_take {n : ℕ} (hn : n ≤ b.length) : read (write m x b) x n = some (b.take n) := by
  rw [read_eq_some_iff, List.length_take]
  refine ⟨by omega, fun i hi => ?_⟩
  rw [write_of_mem (by omega) (by omega), Nat.add_sub_cancel_left, List.getElem?_take_of_lt hi]

theorem take_bytes {n k : ℕ} (h : n ≤ k) (y : ℕ) : (bytes k y).take n = bytes n y := by
  induction n generalizing k y with
  | zero => rfl
  | succ n ih =>
    cases k with
    | zero => omega
    | succ k => rw [bytes, bytes, List.take_succ_cons, ih (by omega)]

/-- The result of a function that reads its parameters arrives at `rvalue`. -/
theorem read_ffiCall {body : List Bytes → Bytes} {junk rvalue : ℕ} {avalues vs : List Bytes}
    (h : Prepared cif.toSignature cif)
    (hp : params cif.toSignature (callImage cif arena rvalue avalues m) = some vs)
    (hlen : (body vs).length = cif.rtype.size) (hvoid : cif.rtype.type ≠ .void)
    (hr : rvalue < 2 ^ 64) :
    ∃ m', ffiCall cif body junk arena rvalue avalues m = some m' ∧
      read m' rvalue cif.rtype.size = some (body vs) := by
  simp only [ffiCall, compiled, hp, bind_eq_bind, bind_some, pure_def]
  cases hs : cif.rtype.isStruct with
  | true =>
    have htype : cif.rtype.type = .struct := by simpa [FfiType.isStruct] using hs
    have hfixed : cif.nfixed = 0 := by
      by_contra hn
      rw [h.variadic hn] at hs
      cases hs
    have hslot : ((callImage cif arena rvalue avalues m).regs.getD 0 0).toNat = rvalue := by
      have hhid : cif.hidden = 1 := by simp [Signature.hidden, hs]
      have hreg : (callImage cif arena rvalue avalues m).regs.getD 0 0 =
          BitVec.ofNat 64 rvalue := by
        simp only [callImage, hfixed, h.hasSret, hhid]
        split_ifs <;> simp_all
      rw [hreg, BitVec.toNat_ofNat]
      exact Nat.mod_eq_of_lt hr
    refine ⟨_, rfl, ?_⟩
    simp only [storeResult, htype, hslot]
    exact hlen ▸ read_write_self _ rvalue (body vs)
  | false =>
    have htype : cif.rtype.type ≠ .struct := by simpa [FfiType.isStruct] using hs
    have hsize : cif.rtype.size ≤ 8 := h.result.resolve_left (by simp [hs])
    refine ⟨_, rfl, ?_⟩
    have hcond : (cif.rtype.type != .void && cif.rtype.type != .struct) = true := by
      simp [hvoid, htype]
    have hdvd : 256 ^ cif.rtype.size ∣ 2 ^ 64 := Nat.pow_dvd_pow 256 hsize
    have hlt : value (body vs) < 256 ^ cif.rtype.size := hlen ▸ value_lt (body vs)
    rw [storeResult, if_pos hcond, read_write_take (by rwa [length_bytes]), take_bytes hsize]
    refine congrArg some (bytes_of_mod hlen ?_)
    rw [BitVec.toNat_ofNat, Nat.mod_mod_of_dvd _ hdvd, hlen, Nat.add_mul_mod_self_left,
      Nat.mod_eq_of_lt hlt]

/-- A signature without gaps is served. -/
theorem matches_of_noGap (h : Prepared cif.toSignature cif) (hwf : ∀ t ∈ cif.argTypes, t.Wf)
    (hfit : cif.Fits) (hgap : cif.NoGap) : Matches cif := by
  intro arena rvalue avalues mem hfill hlt hr
  have hp : params cif.toSignature (callImage cif arena rvalue avalues mem) = _ :=
    params_callImage h hwf hfit hgap hfill hlt
  exact ⟨hp, fun body junk hlen hvoid => read_ffiCall h hp (hlen _) hvoid hr⟩

/-! ## Reading behind a gap -/

theorem irSize_le_allocSize (h : t.Wf) (hb : ByRef byRef) :
    irSize byRef t ≤ allocSize (irSize byRef t) := by
  have hle : irSize byRef t ≤ 8 := by
    unfold irSize
    split_ifs with hr
    · rfl
    · exact h.size_le hb (by simpa using hr)
  unfold allocSize
  split_ifs <;> omega

/-- A field is read from memory that is there. -/
theorem readField_le {e : ℕ} (h : t.Wf) (hend : ∀ y, e ≤ y → m y = none)
    (hf : readField m byRef t x = some v) : x + irSize byRef t ≤ e := by
  have hread {n : ℕ} {w : Bytes} (hn : 0 < n) (hw : read m x n = some w) : x + n ≤ e := by
    obtain ⟨hlen, hcell⟩ := read_eq_some_iff.mp hw
    by_contra hlt
    have hlast := hcell (n - 1) (by omega)
    rw [hend _ (by omega), eq_comm, List.getElem?_eq_none_iff] at hlast
    omega
  unfold readField at hf
  unfold irSize
  split_ifs at hf ⊢
  · obtain ⟨p, hp, -⟩ := bind_eq_some_iff.mp hf
    exact hread (by decide) hp
  · obtain ⟨w, hw, -⟩ := map_eq_some_iff.mp hf
    exact hread h.size_pos hw

/-- A function that reads all of its parameters reads to the end of the fields, and beyond if
there is a gap. -/
theorem tight_of_readPack {e : ℕ} {ws : List Bytes} (hb : ByRef byRef) (hwf : ∀ t ∈ ts, t.Wf)
    (hend : ∀ y, e ≤ y → m y = none) (hne : ts ≠ []) (h : readPack m byRef ts x = some ws) :
    x + fields byRef ts ≤ e ∧ (x + fields byRef ts = e → Tight byRef ts) := by
  induction ts generalizing x ws with
  | nil => exact absurd rfl hne
  | cons t ts ih =>
    simp only [readPack, bind_eq_bind, bind_eq_some_iff] at h
    obtain ⟨v, hv, ws', hws, -⟩ := h
    obtain ⟨ht, hts⟩ := List.forall_mem_cons.mp hwf
    rw [fields_cons]
    cases ts with
    | nil => exact ⟨readField_le ht hend hv, fun _ w hw => absurd hw List.not_mem_nil⟩
    | cons u ts =>
      obtain ⟨hle, htight⟩ := ih hts (by simp) hws
      have halloc := irSize_le_allocSize ht hb
      refine ⟨by omega, fun he w hw => ?_⟩
      rcases List.mem_cons.mp hw with rfl | hw
      · omega
      · exact htight (by omega) w hw

/-! ## Which signatures are served -/

/-- A value of zeros. -/
def zeros (t : FfiType) : Bytes := List.replicate t.size 0

theorem fills_zeros (ts : List FfiType) :
    List.Forall₂ (fun t (v : Bytes) => v.length = t.size) ts (ts.map zeros) := by
  induction ts with
  | nil => exact .nil
  | cons t ts ih => exact .cons (by simp [zeros]) ih

/-- With zeros as arguments and no memory but the arena, a function finds its parameters only if
there is no gap. -/
theorem noGap_of_matches (h : Prepared cif.toSignature cif) (hwf : ∀ t ∈ cif.argTypes, t.Wf)
    (hfit : cif.Fits) (hmatch : Matches cif) : cif.NoGap := by
  intro hn hmany
  have hfills := fills_zeros cif.argTypes
  have hok := ok_of_mem_zip hwf hfills
  have hbytes := h.bytes hfit hwf
  have hbound : cif.copies + cif.packed < 2 ^ 32 := hfit
  have hread := (hmatch 0 0 (cif.argTypes.map zeros) (fun _ => none) hfills (by omega)
    (by decide)).1
  have hbase : 0 = if cif.bytes ≠ 0 then 0 else 0 := (ite_self 0).symm
  rw [params_many h hwf hfit hn hmany hfills.length_eq hbase (by omega) rfl] at hread
  simp only [bind_eq_bind, bind_eq_some_iff] at hread
  obtain ⟨-, -, ws, hws, -⟩ := hread
  have htake := types_take (cif.argTypes.zip (cif.argTypes.map zeros)) (4 - cif.hidden)
  have hdrop := types_drop (cif.argTypes.zip (cif.argTypes.map zeros)) (4 - cif.hidden)
  rw [types_zip hfills.length_eq] at htake hdrop
  have hcopies : cif.copies = rooms FfiType.isBigStruct (cif.argTypes.take (4 - cif.hidden)) +
      rooms FfiType.isBigStruct (cif.argTypes.drop (4 - cif.hidden)) := by
    rw [Signature.copies, if_neg (not_not.mpr hn), ← rooms_append, List.take_append_drop]
  have hpacked : cif.packed = fields FfiType.isBigStruct (cif.argTypes.drop (4 - cif.hidden)) := by
    rw [Signature.packed, if_neg (not_not.mpr hn), if_pos hmany]
  have hregs : Advances 0 (0 + cif.copies) _ 0 ⟨fun _ => none, 0, 0⟩ _ :=
    advances_fillRegs _ (fun a ha => hok a (List.mem_of_mem_take ha))
      (by rw [htake, Nat.zero_add]; omega)
  have hmem := (hregs.trans (advances_fillPack byRef_isBigStruct
    (fun a ha => hok a (List.mem_of_mem_drop ha))
    (by rw [hregs.copyOff, htake, hdrop]; dsimp only; omega)
    (by rw [hregs.packOff, hdrop]; dsimp only; omega))).mem
  rw [htake, hdrop] at hmem
  dsimp only at hmem
  refine (tight_of_readPack byRef_isBigStruct (fun t ht => hwf t (List.mem_of_mem_drop ht))
    (fun y hy => hmem y (by omega) (by omega)) ?_ hws).2 rfl
  have hhid := cif.hidden_le
  exact List.ne_nil_of_length_pos (by rw [List.length_drop]; omega)

/-- The accepted signatures whose calls go right are those without a gap. -/
theorem ffi_call_matches_iff {abi : ℕ} (h : prep abi sig = .ok cif)
    (hwf : ∀ t ∈ sig.argTypes, t.Wf) (hfit : sig.Fits) : Matches cif ↔ sig.NoGap := by
  have hprep := Prepared.of_prep h
  obtain rfl := hprep.sig_eq
  exact ⟨noGap_of_matches hprep hwf hfit, matches_of_noGap hprep hwf hfit⟩

/-- `int f(int, double, void *, struct s16, signed char, float, struct s3)` -/
def mixed : Signature where
  nfixed := 0
  rtype := ⟨4, .sint32⟩
  argTypes := [⟨4, .sint32⟩, ⟨8, .double⟩, ⟨8, .pointer⟩, ⟨16, .struct⟩, ⟨1, .sint8⟩, ⟨4, .float⟩,
    ⟨3, .struct⟩]

theorem ffi_call_matches_iff_mixed : ∃ cif, prep 1 mixed = .ok cif ∧ Matches cif := by
  have hwf : ∀ t ∈ mixed.argTypes, t.Wf := by simp [mixed, FfiType.Wf]
  have hfit : mixed.Fits := by
    unfold Signature.Fits
    decide
  have hgap : mixed.NoGap := by
    intro _ _ t ht
    revert t
    decide
  obtain ⟨cif, h⟩ : ∃ cif, prep 1 mixed = .ok cif := ⟨_, rfl⟩
  exact ⟨cif, h, (ffi_call_matches_iff h hwf hfit).mpr hgap⟩

/-- `int f(int, int, int, int, struct s3, unsigned)` -/
def behindStruct : Cif where
  nfixed := 0
  rtype := ⟨4, .sint32⟩
  argTypes := List.replicate 4 ⟨4, .sint32⟩ ++ [⟨3, .struct⟩, ⟨4, .uint32⟩]
  nargs := 6
  bytes := 7
  nslots := 6
  hasSret := 0

def strayValues : List Bytes := List.replicate 4 [0, 0, 0, 0] ++ [[7, 7, 7], [1, 0, 0, 0]]

/-- The last argument is 1, and the function reads 0: the struct is followed by it at once, and
the function looks for it one byte further on. -/
theorem argument_misplaced :
    ffiPrepCif 1 behindStruct.rtype behindStruct.argTypes = .ok behindStruct ∧
    (∀ t ∈ behindStruct.argTypes, t.Wf) ∧ behindStruct.Fits ∧ behindStruct.Fills strayValues ∧
    (params behindStruct.toSignature (callImage behindStruct 4096 0 strayValues
      fun _ => some 0)).bind List.getLast? = some (bytes 8 0) ∧
    (behindStruct.values strayValues).getLast? = some (bytes 8 1) ∧ ¬ Matches behindStruct := by
  have hfills : behindStruct.Fills strayValues := by
    unfold Signature.Fills
    decide
  have hread : (params behindStruct.toSignature (callImage behindStruct 4096 0 strayValues
      fun _ => some 0)).bind List.getLast? = some (bytes 8 0) := by
    decide
  refine ⟨rfl, by simp [behindStruct, FfiType.Wf], ?_, hfills, hread, by decide, fun hmatch => ?_⟩
  · unfold Signature.Fits
    decide
  · have hall := (hmatch 4096 0 strayValues (fun _ => some 0) hfills (by decide) (by decide)).1
    rw [hall, bind_some] at hread
    exact absurd hread (by decide)

end Bpfvm.Ffi
