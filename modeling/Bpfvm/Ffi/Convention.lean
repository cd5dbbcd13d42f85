import Bpfvm.Ffi.Call

/-!
# What the compiled function finds

Copies and pack fields are laid out one behind the other, so a later one leaves the earlier ones
alone. As long as the field sizes of `ffi_call` are the allocation sizes of the pass, the function
reads what was put there.
-/
namespace Bpfvm.Ffi

open FlatMemory LittleEndian List Option FfiType Signature

variable {byRef : FfiType → Bool} {t : FfiType} {v : Bytes} {a : Arg} {as : List Arg}
  {st : Filling} {m m' : Mem} {arena pack x : ℕ}

/-! ## Sizes -/

/-- The arena bytes that a parameter takes up. -/
def room (byRef : FfiType → Bool) (t : FfiType) : ℕ := if byRef t then (t.size + 7) / 8 * 8 else 0

def rooms (byRef : FfiType → Bool) (ts : List FfiType) : ℕ := (ts.map (room byRef)).sum

def fields (byRef : FfiType → Bool) (ts : List FfiType) : ℕ := (ts.map (irSize byRef)).sum

@[simp] theorem rooms_cons (ts : List FfiType) :
    rooms byRef (t :: ts) = room byRef t + rooms byRef ts := sum_cons

theorem rooms_append (ts us : List FfiType) :
    rooms byRef (ts ++ us) = rooms byRef ts + rooms byRef us := by
  simp [rooms]

@[simp] theorem fields_cons (ts : List FfiType) :
    fields byRef (t :: ts) = irSize byRef t + fields byRef ts := sum_cons

theorem size_le_room (h : byRef t = true) : t.size ≤ room byRef t := by
  rw [room, if_pos h]
  omega

variable {n nfixed i : ℕ} {ys : List U64} {ts : List FfiType} {cif : Cif} {vs : List Bytes}

theorem unsigned_of_lt (h : n < 2 ^ 32) : unsigned n = n := Nat.mod_eq_of_lt h

theorem round8_of_lt (h : (n + 7) / 8 * 8 < 2 ^ 32) : round8 n = (n + 7) / 8 * 8 := by
  have hn : n + 7 < 2 ^ 32 := by omega
  rw [round8, unsigned_of_lt (by omega : n < 2 ^ 32), unsigned_of_lt hn]

/-- Structs, and all big ones, are what may be passed by reference. -/
structure ByRef (byRef : FfiType → Bool) : Prop where
  struct : ∀ {t}, byRef t = true → t.isStruct = true
  big : ∀ {t}, t.isBigStruct = true → byRef t = true

theorem byRef_isBigStruct : ByRef isBigStruct := by
  refine ⟨fun {t} h => ?_, id⟩
  simp only [isBigStruct, Bool.and_eq_true] at h
  exact h.1

theorem byRef_isStruct : ByRef isStruct := ⟨id, fun h => byRef_isBigStruct.struct h⟩

theorem FfiType.Wf.cases (h : t.Wf) : t.isStruct = true ∧ 0 < t.size ∨
    t.isStruct = false ∧ (t.size = 1 ∨ t.size = 2 ∨ t.size = 4 ∨ t.size = 8) := by
  obtain ⟨size, type⟩ := t
  cases type <;> simp_all [FfiType.Wf, isStruct]

theorem FfiType.Wf.size_pos (h : t.Wf) : 0 < t.size := by
  have := h.cases
  omega

/-- What is not passed by reference fits a register. -/
theorem FfiType.Wf.size_le (h : t.Wf) (hb : ByRef byRef) (hr : byRef t = false) : t.size ≤ 8 := by
  rcases h.cases with ⟨hs, -⟩ | ⟨-, hsize⟩
  · by_contra hlt
    have hbig : t.isBigStruct = true := by
      have hs' : (t.type == .struct) = true := hs
      simp only [isBigStruct, hs', Bool.true_and, decide_eq_true_eq]
      omega
    rw [hb.big hbig] at hr
    cases hr
  · omega

theorem fieldSize_eq (h : t.Wf) (hb : ByRef byRef) : t.fieldSize byRef = irSize byRef t := by
  unfold fieldSize irSize
  split_ifs with hr
  · rfl
  · have := h.size_le hb (by simpa using hr)
    exact unsigned_of_lt (by omega)

/-! ## Values -/

theorem sextLe_eq_extend (h : t.Wf) (hi : t.isInt = true) (hv : v.length = t.size) :
    sextLe v t = extend t v := by
  obtain ⟨size, type⟩ := t
  cases type <;> simp only [FfiType.Wf] at h <;> (try subst h) <;>
    simp_all [isInt, isSigned, sextLe, extend]
  all_goals rw [take_of_length_le hv.le]

theorem sextLe_of_not_isInt (hi : t.isInt = false) (hv : v.length = t.size) :
    sextLe v t = BitVec.ofNat 64 (value v) := by
  obtain ⟨size, type⟩ := t
  cases type <;> simp_all [isInt, sextLe]
  all_goals rw [take_of_length_le hv.le]

theorem bytes_of_mod {y : ℕ} (hv : v.length = n) (h : y % 256 ^ n = value v) : bytes n y = v := by
  rw [← bytes_mod, h, ← hv]
  exact bytes_value v

theorem toNat_signExtend_mod {w : ℕ} (hw : w ≤ 64) (y : BitVec w) :
    (y.signExtend 64).toNat % 2 ^ w = y.toNat := by
  have h : (y.signExtend 64).setWidth w = y := by
    ext i hi
    rw [BitVec.getElem_setWidth, BitVec.getLsbD_signExtend]
    simp [hi, (by omega : i < 64)]
  rw [← BitVec.toNat_setWidth, h]

/-- The low bytes are the argument's own. -/
theorem bytes_sextLe (h : t.Wf) (hv : v.length = t.size) (hle : t.size ≤ 8) :
    bytes t.size (sextLe v t).toNat = v := by
  have hlt : value v < 256 ^ t.size := hv ▸ value_lt v
  have hpow : 256 ^ t.size ≤ 2 ^ 64 := by
    calc 256 ^ t.size ≤ 256 ^ 8 := Nat.pow_le_pow_right (by decide) hle
      _ = 2 ^ 64 := by decide
  have hplain : (BitVec.ofNat 64 (value v)).toNat % 256 ^ t.size = value v := by
    rw [BitVec.toNat_ofNat, Nat.mod_eq_of_lt (by omega : value v < 2 ^ 64), Nat.mod_eq_of_lt hlt]
  apply bytes_of_mod hv
  cases hi : t.isInt with
  | false => rwa [sextLe_of_not_isInt hi hv]
  | true =>
    rw [sextLe_eq_extend h hi hv, extend]
    split_ifs
    · have hwide : 256 ^ t.size = 2 ^ (8 * t.size) := by rw [Nat.pow_mul]
      rw [hwide] at hlt ⊢
      rw [toNat_signExtend_mod (by omega), BitVec.toNat_ofNat, Nat.mod_eq_of_lt hlt]
    · exact hplain

/-! ## One slot -/

theorem argSlot_packOff : (argSlot byRef arena a st).2.packOff = st.packOff := by
  unfold argSlot
  split_ifs <;> rfl

/-- Copies of `c` bytes and fields of `p` bytes have been laid out, and no other byte written. -/
structure Advances (arena pack c p : ℕ) (st st' : Filling) : Prop where
  copyOff : st'.copyOff = st.copyOff + c
  packOff : st'.packOff = st.packOff + p
  mem : ∀ x, (x < arena + st.copyOff ∨ arena + st.copyOff + c ≤ x) →
    (x < pack + st.packOff ∨ pack + st.packOff + p ≤ x) → st'.mem x = st.mem x

theorem Advances.refl : Advances arena pack 0 0 st st := ⟨rfl, rfl, fun _ _ _ => rfl⟩

theorem Advances.trans {c p c' p' : ℕ} {st₁ st₂ : Filling} (h : Advances arena pack c p st st₁)
    (h' : Advances arena pack c' p' st₁ st₂) : Advances arena pack (c + c') (p + p') st st₂ := by
  obtain ⟨hc, hp, hm⟩ := h
  refine ⟨by rw [h'.copyOff, hc, Nat.add_assoc], by rw [h'.packOff, hp, Nat.add_assoc], ?_⟩
  intro x hx hx'
  rw [h'.mem x (by omega) (by omega), hm x (by omega) (by omega)]

/-- A slot writes at most its room. -/
theorem advances_argSlot (pack : ℕ) (hv : a.2.length = a.1.size)
    (hc : st.copyOff + room byRef a.1 < 2 ^ 32) :
    Advances arena pack (room byRef a.1) 0 st (argSlot byRef arena a st).2 := by
  unfold argSlot
  unfold room at hc ⊢
  split_ifs at hc ⊢ with hr
  · rw [round8_of_lt (by omega), unsigned_of_lt hc]
    exact ⟨rfl, rfl, fun x hx _ => write_of_not_mem (by omega)⟩
  · exact .refl

/-- A copy that is still there is found through its pointer. -/
theorem argSlot_copy (hr : byRef a.1 = true) (hv : a.2.length = a.1.size)
    (hlt : arena + st.copyOff + room byRef a.1 ≤ 2 ^ 64) (hpos : 0 < a.1.size)
    (hm : ∀ x, arena + st.copyOff ≤ x → x < arena + st.copyOff + room byRef a.1 →
      m x = (argSlot byRef arena a st).2.mem x) :
    (argSlot byRef arena a st).1.toNat = arena + st.copyOff ∧
      read m (arena + st.copyOff) a.1.size = some a.2 := by
  have hle := size_le_room hr
  unfold argSlot at hm ⊢
  rw [if_pos hr] at hm ⊢
  refine ⟨?_, ?_⟩
  · rw [BitVec.toNat_ofNat]
    exact Nat.mod_eq_of_lt (by omega)
  · rw [← hv, ← read_write_self st.mem (arena + st.copyOff) a.2]
    exact read_congr fun i hi => hm _ (by omega) (by omega)

theorem paramValue_of_byRef (hb : ByRef byRef) (hr : byRef t = true) : paramValue t v = v := by
  have hs : t.type = .struct := by simpa [isStruct] using hb.struct hr
  simp [paramValue, isInt, hs]

/-- An argument with a value of its type. -/
structure Arg.Ok (a : Arg) : Prop where
  wf : a.1.Wf
  length : a.2.length = a.1.size

/-- The function finds the parameter in its register. -/
theorem readReg_argSlot (h : Arg.Ok a)
    (hlt : arena + st.copyOff + room isBigStruct a.1 ≤ 2 ^ 64)
    (hm : ∀ x, arena + st.copyOff ≤ x → x < arena + st.copyOff + room isBigStruct a.1 →
      m x = (argSlot isBigStruct arena a st).2.mem x) :
    readReg m a.1 (argSlot isBigStruct arena a st).1 = some (paramValue a.1 a.2) := by
  unfold readReg
  split_ifs with hr hi
  · obtain ⟨hp, hcopy⟩ := argSlot_copy hr h.length hlt h.wf.size_pos hm
    rw [hp, hcopy, paramValue_of_byRef byRef_isBigStruct hr]
  · rw [argSlot, if_neg hr, sextLe_eq_extend h.wf hi h.length, paramValue, if_pos hi]
  · have hle := h.wf.size_le byRef_isBigStruct (by simpa using hr)
    rw [argSlot, if_neg hr, bytes_sextLe h.wf h.length hle, paramValue, if_neg hi]

/-! ## The registers -/

/-- The types of the arguments. -/
def types (as : List Arg) : List FfiType := as.map Prod.fst

/-- The values of the arguments. -/
def vals (as : List Arg) : List Bytes := as.map fun a => paramValue a.1 a.2

@[simp] theorem types_cons : types (a :: as) = a.1 :: types as := rfl

@[simp] theorem vals_cons : vals (a :: as) = paramValue a.1 a.2 :: vals as := rfl

theorem vals_append (as bs : List Arg) : vals (as ++ bs) = vals as ++ vals bs := map_append

theorem length_fillRegs : (fillRegs arena as st).1.length = as.length := by
  induction as generalizing st with
  | nil => rfl
  | cons a as ih => simp [fillRegs, ih]

theorem advances_fillRegs (pack : ℕ) (hok : ∀ a ∈ as, Arg.Ok a)
    (hc : st.copyOff + rooms isBigStruct (types as) < 2 ^ 32) :
    Advances arena pack (rooms isBigStruct (types as)) 0 st (fillRegs arena as st).2 := by
  induction as generalizing st with
  | nil => exact .refl
  | cons a as ih =>
    rw [types_cons, rooms_cons] at hc ⊢
    obtain ⟨hoka, hoks⟩ := forall_mem_cons.mp hok
    have hslot : Advances arena pack _ 0 st (argSlot isBigStruct arena a st).2 :=
      advances_argSlot pack hoka.length (by omega)
    have hcopy := hslot.copyOff
    exact hslot.trans (ih hoks (by omega))

theorem readRegs_fillRegs (hok : ∀ a ∈ as, Arg.Ok a)
    (hc : st.copyOff + rooms isBigStruct (types as) < 2 ^ 32)
    (hlt : arena + st.copyOff + rooms isBigStruct (types as) ≤ 2 ^ 64)
    (hm : ∀ x, arena + st.copyOff ≤ x →
      x < arena + st.copyOff + rooms isBigStruct (types as) →
      m x = (fillRegs arena as st).2.mem x) :
    readRegs m (types as) ((fillRegs arena as st).1 ++ ys) = some (vals as) := by
  induction as generalizing st with
  | nil => rfl
  | cons a as ih =>
    rw [types_cons, rooms_cons] at hc hlt hm
    obtain ⟨hoka, hoks⟩ := forall_mem_cons.mp hok
    have hslot : (argSlot isBigStruct arena a st).2.copyOff = _ :=
      (advances_argSlot 0 hoka.length (by omega)).copyOff
    -- the later slots leave this copy alone
    have hfirst : readReg m a.1 (argSlot isBigStruct arena a st).1 =
        some (paramValue a.1 a.2) := by
      refine readReg_argSlot hoka (by omega) fun x hlo hhi => (hm x hlo (by omega)).trans ?_
      exact (advances_fillRegs 0 hoks (by omega)).mem x (by omega) (by omega)
    have hrest : readRegs m (types as)
        ((fillRegs arena as (argSlot isBigStruct arena a st).2).1 ++ ys) =
          some (vals as) :=
      ih hoks (by omega) (by omega) (fun x hlo hhi => hm x (by omega) (by omega))
    simp only [fillRegs, types_cons, vals_cons, cons_append, readRegs, hfirst, hrest,
      bind_eq_bind, bind_some, Option.pure_def]

/-! ## The pack buffer -/

/-- An argument for the pack buffer writes its copy and its field. -/
theorem advances_packArg (hb : ByRef byRef) (h : Arg.Ok a)
    (hc : st.copyOff + room byRef a.1 < 2 ^ 32) (hp : st.packOff + irSize byRef a.1 < 2 ^ 32) :
    Advances arena pack (room byRef a.1) (irSize byRef a.1) st
      (packArg byRef arena pack a st) := by
  have hslot : Advances arena pack _ 0 st _ := advances_argSlot pack h.length hc
  simp only [packArg, argSlot_packOff, fieldSize_eq h.wf hb]
  refine ⟨hslot.copyOff, unsigned_of_lt hp, fun x hx hx' => ?_⟩
  exact (write_of_not_mem (by rw [length_bytes]; exact hx')).trans (hslot.mem x hx (by omega))

theorem read_packArg (hb : ByRef byRef) (h : a.1.Wf) :
    read (packArg byRef arena pack a st).mem (pack + st.packOff) (irSize byRef a.1) =
      some (bytes (irSize byRef a.1) (argSlot byRef arena a st).1.toNat) := by
  simp only [packArg, argSlot_packOff, fieldSize_eq h hb]
  have := read_write_self (argSlot byRef arena a st).2.mem (pack + st.packOff)
    (bytes (irSize byRef a.1) (argSlot byRef arena a st).1.toNat)
  rwa [length_bytes] at this

/-- The function finds the parameter in its field. -/
theorem readField_packArg (hb : ByRef byRef) (h : Arg.Ok a)
    (hsep : arena + st.copyOff + room byRef a.1 ≤ pack + st.packOff)
    (hlt : pack + st.packOff ≤ 2 ^ 64)
    (hcopy : ∀ x, arena + st.copyOff ≤ x → x < arena + st.copyOff + room byRef a.1 →
      m x = (packArg byRef arena pack a st).mem x)
    (hfield : ∀ x, pack + st.packOff ≤ x → x < pack + st.packOff + irSize byRef a.1 →
      m x = (packArg byRef arena pack a st).mem x) :
    readField m byRef a.1 (pack + st.packOff) = some (paramValue a.1 a.2) := by
  have hread : read m (pack + st.packOff) (irSize byRef a.1) = _ :=
    (read_congr fun i hi => hfield _ (by omega) (by omega)).trans (read_packArg hb h.wf)
  unfold readField
  split_ifs with hr
  · have hslot : ∀ x, arena + st.copyOff ≤ x → x < arena + st.copyOff + room byRef a.1 →
        m x = (argSlot byRef arena a st).2.mem x := by
      intro x hlo hhi
      rw [hcopy x hlo hhi]
      simp only [packArg, argSlot_packOff]
      exact write_of_not_mem (by omega)
    obtain ⟨hp, hval⟩ := argSlot_copy hr h.length (by omega) h.wf.size_pos hslot
    have hroom := size_le_room hr
    have hpos := h.wf.size_pos
    rw [irSize, if_pos hr, hp] at hread
    rw [hread, bind_eq_bind, bind_some, value_bytes,
      Nat.mod_eq_of_lt (by norm_num; omega), hval, paramValue_of_byRef hb hr]
  · have hle := h.wf.size_le hb (by simpa using hr)
    rw [irSize, if_neg hr, argSlot, if_neg hr, bytes_sextLe h.wf h.length hle] at hread
    rw [hread, map_some]

theorem advances_fillPack (hb : ByRef byRef) (hok : ∀ a ∈ as, Arg.Ok a)
    (hc : st.copyOff + rooms byRef (types as) < 2 ^ 32)
    (hp : st.packOff + fields byRef (types as) < 2 ^ 32) :
    Advances arena pack (rooms byRef (types as)) (fields byRef (types as)) st
      (fillPack byRef arena pack as st) := by
  induction as generalizing st with
  | nil => exact .refl
  | cons a as ih =>
    simp only [types_cons, rooms_cons, fields_cons] at hc hp ⊢
    obtain ⟨hoka, hoks⟩ := forall_mem_cons.mp hok
    have hstep : Advances arena pack _ _ st (packArg byRef arena pack a st) :=
      advances_packArg hb hoka (by omega) (by omega)
    have hcopy := hstep.copyOff
    have hpack := hstep.packOff
    exact hstep.trans (ih hoks (by omega) (by omega))

/-- Every field but the last is as large as its allocation size. -/
def Tight (byRef : FfiType → Bool) (ts : List FfiType) : Prop :=
  ∀ t ∈ ts.dropLast, allocSize (irSize byRef t) = irSize byRef t

theorem Tight.tail {u : FfiType} (h : Tight byRef (t :: u :: ts)) :
    Tight byRef (u :: ts) := fun w hw => h w (mem_cons_of_mem t hw)

theorem readPack_fillPack (hb : ByRef byRef) (hok : ∀ a ∈ as, Arg.Ok a)
    (htight : Tight byRef (types as))
    (hc : st.copyOff + rooms byRef (types as) < 2 ^ 32)
    (hp : st.packOff + fields byRef (types as) < 2 ^ 32)
    (hsep : arena + st.copyOff + rooms byRef (types as) ≤ pack + st.packOff)
    (hlt : pack + st.packOff + fields byRef (types as) ≤ 2 ^ 64) :
    readPack (fillPack byRef arena pack as st).mem byRef (types as) (pack + st.packOff) =
      some (vals as) := by
  induction as generalizing st with
  | nil => rfl
  | cons a as ih =>
    rw [types_cons, rooms_cons] at hc hsep
    rw [types_cons, fields_cons] at hp hlt
    obtain ⟨hoka, hoks⟩ := forall_mem_cons.mp hok
    obtain ⟨hcopy, hpack, -⟩ : Advances arena pack _ _ st (packArg byRef arena pack a st) :=
      advances_packArg hb hoka (by omega) (by omega)
    -- the later arguments leave this copy and this field alone
    have hlater (x : ℕ) (hx : x < arena + st.copyOff + room byRef a.1 ∨
        pack + st.packOff ≤ x ∧ x < pack + st.packOff + irSize byRef a.1) :
        (fillPack byRef arena pack as (packArg byRef arena pack a st)).mem x =
          (packArg byRef arena pack a st).mem x :=
      (advances_fillPack hb hoks (by omega) (by omega)).mem x (by omega) (by omega)
    have hfirst : readField (fillPack byRef arena pack (a :: as) st).mem byRef a.1
        (pack + st.packOff) = some (paramValue a.1 a.2) :=
      readField_packArg hb hoka (by omega) (by omega)
        (fun x _ hhi => hlater x (Or.inl hhi)) (fun x hlo hhi => hlater x (Or.inr ⟨hlo, hhi⟩))
    have hrest : readPack (fillPack byRef arena pack (a :: as) st).mem byRef (types as)
        (pack + st.packOff + allocSize (irSize byRef a.1)) = some (vals as) := by
      cases as with
      | nil => rfl
      | cons b as =>
        have halloc := htight a.1 mem_cons_self
        rw [halloc, Nat.add_assoc, ← hpack]
        exact ih hoks htight.tail (by omega) (by omega) (by omega) (by omega)
    simp only [types_cons, vals_cons, readPack, hfirst, hrest, bind_eq_bind,
      bind_some, Option.pure_def]

/-! ## The counters of `prep` -/

theorem packSum_eq (hb : ByRef byRef) (hwf : ∀ t ∈ ts, t.Wf) (h : fields byRef ts < 2 ^ 32) :
    packSum byRef ts = fields byRef ts := by
  have hacc (acc : ℕ) (hacc : acc + fields byRef ts < 2 ^ 32) :
      ts.foldl (fun acc t => unsigned (acc + t.fieldSize byRef)) acc = acc + fields byRef ts := by
    induction ts generalizing acc with
    | nil => rfl
    | cons t ts ih =>
      rw [fields_cons] at h hacc ⊢
      rw [foldl_cons, fieldSize_eq (hwf t mem_cons_self) hb,
        unsigned_of_lt (by omega),
        ih (fun u hu => hwf u (mem_cons_of_mem t hu)) (by omega) _ (by omega), Nat.add_assoc]
  rw [packSum, hacc 0 (by omega), Nat.zero_add]

theorem copyBytes_append (nfixed i acc : ℕ) (ts us : List FfiType) :
    copyBytes nfixed i (ts ++ us) acc =
      copyBytes nfixed (i + ts.length) us (copyBytes nfixed i ts acc) := by
  induction ts generalizing i acc with
  | nil => rfl
  | cons t ts ih =>
    rw [cons_append, copyBytes, copyBytes, ih, length_cons, Nat.add_right_comm,
      Nat.add_assoc]

/-- The counter over parameters that are all passed by reference as `byRef` says. -/
theorem copyBytes_eq {acc : ℕ}
    (hc : ∀ j t, i ≤ j → j < i + ts.length → copied nfixed j t = byRef t)
    (h : acc + rooms byRef ts < 2 ^ 32) : copyBytes nfixed i ts acc = acc + rooms byRef ts := by
  induction ts generalizing i acc with
  | nil => rfl
  | cons t ts ih =>
    rw [length_cons] at hc
    rw [rooms_cons] at h ⊢
    have hstep : (if copied nfixed i t then unsigned (acc + round8 t.size) else acc) =
        acc + room byRef t := by
      rw [hc i t le_rfl (by omega)]
      unfold room at h ⊢
      split_ifs at h ⊢ with hr
      · rw [round8_of_lt (by omega)]
        exact unsigned_of_lt (by omega)
      · rfl
    rw [copyBytes, hstep, ih (fun j u hlo hhi => hc j u (by omega) (by omega)) (by omega),
      Nat.add_assoc]

theorem copied_named (h : nfixed = 0 ∨ i < nfixed) (t : FfiType) :
    copied nfixed i t = t.isBigStruct := by
  have hno : (nfixed != 0 && decide (nfixed ≤ i)) = false := by
    rcases h with h | h
    · simp [h]
    · simp [Nat.not_le.mpr h]
  rw [copied, hno, Bool.or_false, isBigStruct, isStruct, ← Bool.and_assoc,
    Bool.and_self]

theorem copied_va (h : nfixed ≠ 0) (hi : nfixed ≤ i) (t : FfiType) :
    copied nfixed i t = t.isStruct := by
  simp [copied, h, hi]

/-! ## Whole calls -/

/-- The bytes of all copies. -/
def Signature.copies (sig : Signature) : ℕ :=
  if sig.nfixed ≠ 0 then rooms isBigStruct (sig.argTypes.take sig.nfixed) +
    rooms isStruct (sig.argTypes.drop sig.nfixed)
  else rooms isBigStruct sig.argTypes

/-- The bytes of the pack buffer. -/
def Signature.packed (sig : Signature) : ℕ :=
  if sig.nfixed ≠ 0 then fields isStruct (sig.argTypes.drop sig.nfixed)
  else if 5 < sig.argTypes.length + sig.hidden then
    fields isBigStruct (sig.argTypes.drop (4 - sig.hidden))
  else 0

/-- The `unsigned` counters of `prep` and `ffi_call` do not wrap around. -/
def Signature.Fits (sig : Signature) : Prop := sig.copies + sig.packed < 2 ^ 32

/-- What `prep` makes of a signature that it accepts. -/
structure Prepared (sig : Signature) (cif : Cif) : Prop where
  sig_eq : cif.toSignature = sig
  nslots : cif.nslots = sig.argTypes.length + sig.hidden
  hasSret : cif.hasSret = sig.hidden
  bytes : sig.Fits → (∀ t ∈ sig.argTypes, t.Wf) → cif.bytes = sig.copies + sig.packed
  copies : sig.Fits → copyBytes sig.nfixed 0 sig.argTypes 0 = sig.copies
  nfixed : sig.nfixed ≤ 4 ∧ sig.nfixed ≤ sig.argTypes.length
  variadic : sig.nfixed ≠ 0 → sig.rtype.isStruct = false
  result : sig.rtype.isStruct = true ∨ sig.rtype.size ≤ 8

variable {sig : Signature}

theorem copyBytes_eq_copies (h : sig.nfixed ≤ sig.argTypes.length) (hfit : sig.Fits) :
    copyBytes sig.nfixed 0 sig.argTypes 0 = sig.copies := by
  unfold Signature.Fits at hfit
  unfold copies at hfit ⊢
  split_ifs at hfit ⊢ with hn
  · have hlen : (sig.argTypes.take sig.nfixed).length = sig.nfixed := by
      rw [length_take]
      omega
    have hnamed : copyBytes sig.nfixed 0 (sig.argTypes.take sig.nfixed) 0 =
        0 + rooms isBigStruct (sig.argTypes.take sig.nfixed) :=
      copyBytes_eq (fun j t _ hj => copied_named (Or.inr (by omega)) t) (by omega)
    have hva (acc : ℕ)
        (hacc : acc + rooms isStruct (sig.argTypes.drop sig.nfixed) < 2 ^ 32) :
        copyBytes sig.nfixed sig.nfixed (sig.argTypes.drop sig.nfixed) acc =
          acc + rooms isStruct (sig.argTypes.drop sig.nfixed) :=
      copyBytes_eq (fun j t hj _ => copied_va hn hj t) hacc
    calc copyBytes sig.nfixed 0 sig.argTypes 0
      _ = copyBytes sig.nfixed sig.nfixed (sig.argTypes.drop sig.nfixed)
          (copyBytes sig.nfixed 0 (sig.argTypes.take sig.nfixed) 0) := by
        have := copyBytes_append sig.nfixed 0 0 (sig.argTypes.take sig.nfixed)
          (sig.argTypes.drop sig.nfixed)
        rwa [take_append_drop, hlen, Nat.zero_add] at this
      _ = _ := by
        rw [hnamed, Nat.zero_add]
        exact hva _ (by omega)
  · have hall : copyBytes sig.nfixed 0 sig.argTypes 0 =
        0 + rooms isBigStruct sig.argTypes :=
      copyBytes_eq (fun j t _ _ => copied_named (Or.inl (by simpa using hn)) t) (by omega)
    rw [hall, Nat.zero_add]

theorem packBytes_eq_packed (hwf : ∀ t ∈ sig.argTypes, t.Wf) (hfit : sig.Fits) :
    packBytes sig = sig.packed := by
  have hdrop (n : ℕ) (t : FfiType) (ht : t ∈ sig.argTypes.drop n) : t.Wf :=
    hwf t (mem_of_mem_drop ht)
  unfold Signature.Fits at hfit
  unfold packBytes
  unfold packed at hfit ⊢
  split_ifs at hfit ⊢
  · exact packSum_eq byRef_isStruct (hdrop _) (by omega)
  · exact packSum_eq byRef_isBigStruct (hdrop _) (by omega)
  · rfl

theorem Prepared.of_prep {abi : ℕ} (h : prep abi sig = .ok cif) : Prepared sig cif := by
  unfold prep at h
  split_ifs at h with _ hr _ hn hs _
  cases h
  have hnfixed : sig.nfixed ≤ 4 ∧ sig.nfixed ≤ sig.argTypes.length := by
    simp only [Bool.and_eq_true, Bool.or_eq_true, bne_iff_ne, decide_eq_true_eq] at hn
    omega
  refine ⟨rfl, rfl, rfl, fun hfit hwf => ?_, copyBytes_eq_copies hnfixed.2, hnfixed, ?_, ?_⟩
  · rw [copyBytes_eq_copies hnfixed.2 hfit, packBytes_eq_packed hwf hfit]
    exact unsigned_of_lt hfit
  · intro hv
    simpa [hv] using hs
  · rw [isStruct]
    simp only [valid, Bool.not_eq_true', Bool.not_eq_false, Bool.and_eq_true,
      Bool.or_eq_true, decide_eq_true_eq] at hr
    exact hr.2

/-- In the pack buffer of a function with many parameters every field but the last is as large
as its allocation size. -/
def Signature.NoGap (sig : Signature) : Prop :=
  sig.nfixed = 0 → 5 < sig.argTypes.length + sig.hidden →
    Tight isBigStruct (sig.argTypes.drop (4 - sig.hidden))

theorem types_take (as : List Arg) (n : ℕ) : types (as.take n) = (types as).take n := map_take

theorem types_drop (as : List Arg) (n : ℕ) : types (as.drop n) = (types as).drop n := map_drop

theorem types_zip (h : ts.length = vs.length) : types (ts.zip vs) = ts := map_fst_zip h.le

theorem vals_zip (ts : List FfiType) (vs : List Bytes) :
    vals (ts.zip vs) = List.zipWith paramValue ts vs := map_zip_eq_zipWith

theorem ok_of_mem_zip (hwf : ∀ t ∈ ts, t.Wf)
    (h : List.Forall₂ (fun t (v : Bytes) => v.length = t.size) ts vs) :
    ∀ a ∈ ts.zip vs, Arg.Ok a := by
  intro a ha
  exact ⟨hwf a.1 (of_mem_zip ha).1, (List.forall₂_iff_zip.mp h).2 ha⟩

/-- Scalars are as large as their allocation sizes, so variadic arguments leave no gap. -/
theorem tight_isStruct (hwf : ∀ t ∈ ts, t.Wf) : Tight isStruct ts := by
  intro t ht
  have h := hwf t (mem_of_mem_dropLast ht)
  unfold irSize
  split_ifs with hs
  · rfl
  · have := h.cases
    rcases this with ⟨hst, -⟩ | ⟨-, h1 | h2 | h4 | h8⟩
    · exact absurd hst hs
    all_goals simp [allocSize, *]

/-- Registers and pack buffer together, for any split of the arguments. -/
theorem read_fill {bs : List Arg} (hb : ByRef byRef) (hok : ∀ a ∈ as ++ bs, Arg.Ok a)
    (htight : Tight byRef (types bs)) (hc₀ : st.copyOff = 0) (hp₀ : st.packOff = 0)
    (hc : rooms isBigStruct (types as) + rooms byRef (types bs) ≤ x)
    (hfit : x + fields byRef (types bs) < 2 ^ 32)
    (hlt : arena + x + fields byRef (types bs) ≤ 2 ^ 64)
    (hm : m = (fillPack byRef arena (arena + x) bs (fillRegs arena as st).2).mem) :
    readRegs m (types as) ((fillRegs arena as st).1 ++ ys) = some (vals as) ∧
      readPack m byRef (types bs) (arena + x) = some (vals bs) := by
  have hoka (a : Arg) (ha : a ∈ as) : Arg.Ok a := hok a (mem_append_left bs ha)
  have hokb (a : Arg) (ha : a ∈ bs) : Arg.Ok a := hok a (mem_append_right as ha)
  obtain ⟨hcopy, hpack, -⟩ : Advances arena 0 _ 0 st (fillRegs arena as st).2 :=
    advances_fillRegs 0 hoka (by omega)
  rw [hp₀, Nat.add_zero] at hpack
  constructor
  · refine readRegs_fillRegs hoka ?_ ?_ fun y hlo hhi => ?_
    · omega
    · omega
    · rw [hm]
      exact (advances_fillPack hb hokb (by omega) (by omega)).mem y (by omega) (by omega)
  · have hread : readPack m byRef (types bs) (arena + x + (fillRegs arena as st).2.packOff) =
        some (vals bs) := by
      rw [hm]
      exact readPack_fillPack hb hokb htight (by omega) (by omega) (by omega) (by omega)
    rwa [hpack, Nat.add_zero] at hread

theorem Prepared.pack_eq (h : Prepared sig cif) (hwf : ∀ t ∈ sig.argTypes, t.Wf) (hfit : sig.Fits)
    (arena : ℕ) :
    (if cif.bytes ≠ 0 then arena + copyBytes sig.nfixed 0 sig.argTypes 0 else 0) =
      (if cif.bytes ≠ 0 then arena else 0) + sig.copies := by
  have hbytes := h.bytes hfit hwf
  split_ifs with hb
  · rw [h.copies hfit]
  · omega

/-- The first `n` arguments go into registers, the others into the pack buffer. -/
theorem read_zip (m₀ : Mem) (ys : List U64) (hb : ByRef byRef) (hwf : ∀ t ∈ ts, t.Wf)
    (hfill : List.Forall₂ (fun t (v : Bytes) => v.length = t.size) ts vs)
    (htight : Tight byRef (ts.drop n))
    (hc : rooms isBigStruct (ts.take n) + rooms byRef (ts.drop n) ≤ x)
    (hfit : x + fields byRef (ts.drop n) < 2 ^ 32)
    (hlt : arena + x + fields byRef (ts.drop n) ≤ 2 ^ 64)
    (hm : m = (fillPack byRef arena (arena + x) ((ts.zip vs).drop n)
      (fillRegs arena ((ts.zip vs).take n) ⟨m₀, 0, 0⟩).2).mem) :
    ∃ first rest,
      readRegs m (ts.take n) ((fillRegs arena ((ts.zip vs).take n) ⟨m₀, 0, 0⟩).1 ++ ys) =
        some first ∧ readPack m byRef (ts.drop n) (arena + x) = some rest ∧
      first ++ rest = List.zipWith paramValue ts vs := by
  have htake := types_take (ts.zip vs) n
  have hdrop := types_drop (ts.zip vs) n
  rw [types_zip hfill.length_eq] at htake hdrop
  have hok : ∀ a ∈ (ts.zip vs).take n ++ (ts.zip vs).drop n, Arg.Ok a := by
    rw [take_append_drop]
    exact ok_of_mem_zip hwf hfill
  rw [← htake, ← hdrop] at hc
  rw [← hdrop] at htight hfit hlt
  obtain ⟨hfirst, hrest⟩ := read_fill hb hok htight rfl rfl hc hfit hlt hm
  rw [htake] at hfirst
  rw [hdrop] at hrest
  refine ⟨_, _, hfirst, hrest, ?_⟩
  rw [← vals_append, take_append_drop, vals_zip]

theorem getD_length {xs : List U64} {y : U64} (h : xs.length = n) :
    (xs ++ y :: ys).getD n 0 = y := by
  subst h
  simp

theorem length_fillRegs_take (hlen : ts.length = vs.length) (hn : n ≤ ts.length) :
    (fillRegs arena ((ts.zip vs).take n) st).1.length = n := by
  rw [length_fillRegs, length_take, length_zip]
  omega

theorem Signature.hidden_le (sig : Signature) : sig.hidden ≤ 1 := by
  unfold Signature.hidden
  split_ifs <;> omega

/-- The Signature.hidden result pointer comes first. -/
theorem length_sret (sig : Signature) (y : U64) :
    (if sig.hidden ≠ 0 then [y] else []).length = sig.hidden := by
  unfold Signature.hidden
  cases sig.rtype.isStruct <;> rfl

theorem drop_sret (sig : Signature) (y : U64) (ys : List U64) :
    ((if sig.hidden ≠ 0 then [y] else []) ++ ys).drop sig.hidden = ys :=
  drop_left' (length_sret sig y)

/-- The parameters of a function with more than five of them. -/
theorem params_many {rvalue : ℕ} {avalues : List Bytes} {base : ℕ}
    (h : Prepared cif.toSignature cif) (hwf : ∀ t ∈ cif.argTypes, t.Wf) (hfit : cif.Fits)
    (hn : cif.nfixed = 0) (hmany : 5 < cif.argTypes.length + cif.hidden)
    (hlen : cif.argTypes.length = avalues.length)
    (hbase : base = if cif.bytes ≠ 0 then arena else 0) (hlt : base + cif.copies < 2 ^ 64)
    (hm' : m' = (fillPack isBigStruct base (base + cif.copies)
      ((cif.argTypes.zip avalues).drop (4 - cif.hidden))
      (fillRegs base ((cif.argTypes.zip avalues).take (4 - cif.hidden)) ⟨m, 0, 0⟩).2).mem) :
    params cif.toSignature (callImage cif arena rvalue avalues m) = (do
      let first ← readRegs m' (cif.argTypes.take (4 - cif.hidden))
        ((fillRegs base ((cif.argTypes.zip avalues).take (4 - cif.hidden)) ⟨m, 0, 0⟩).1 ++
          [BitVec.ofNat 64 (base + cif.copies)])
      let rest ← readPack m' isBigStruct (cif.argTypes.drop (4 - cif.hidden))
        (base + cif.copies)
      return first ++ rest) := by
  have hpack := h.pack_eq hwf hfit arena
  rw [← hbase] at hpack
  have hhid := cif.hidden_le
  have haddr : (BitVec.ofNat 64 (base + cif.copies)).toNat = base + cif.copies := by
    rw [BitVec.toNat_ofNat]
    exact Nat.mod_eq_of_lt hlt
  have hslot (y : U64) : ((if cif.hidden ≠ 0 then [BitVec.ofNat 64 rvalue] else []) ++
      ((fillRegs base ((cif.argTypes.zip avalues).take (4 - cif.hidden)) ⟨m, 0, 0⟩).1 ++
        [y])).getD 4 0 = y := by
    rw [← append_assoc]
    apply getD_length
    rw [length_append, length_sret, length_fillRegs_take hlen (by omega)]
    omega
  unfold callImage params
  simp only [hpack, ← hbase, h.nslots, h.hasSret, if_neg (not_not.mpr hn), if_pos hmany, argLimit,
    keepRegs, append_assoc, hslot, haddr, drop_sret, ← hm']

/-- Every function of a signature without gaps reads the argument values. -/
theorem params_callImage {rvalue : ℕ} {avalues : List Bytes} (h : Prepared cif.toSignature cif)
    (hwf : ∀ t ∈ cif.argTypes, t.Wf) (hfit : cif.Fits) (hgap : cif.NoGap)
    (hfill : cif.Fills avalues) (hlt : arena + cif.bytes < 2 ^ 64) :
    params cif.toSignature (callImage cif arena rvalue avalues m) =
      some (cif.values avalues) := by
  have hbytes := h.bytes hfit hwf
  have hpack := h.pack_eq hwf hfit arena
  have hlen := hfill.length_eq
  have hbound : cif.copies + cif.packed < 2 ^ 32 := hfit
  obtain ⟨base, hbase⟩ : ∃ base, base = if cif.bytes ≠ 0 then arena else 0 := ⟨_, rfl⟩
  have hend : base + (cif.copies + cif.packed) < 2 ^ 64 := by
    rw [hbase, ← hbytes]
    split_ifs <;> omega
  have haddr : (BitVec.ofNat 64 (base + cif.copies)).toNat = base + cif.copies := by
    rw [BitVec.toNat_ofNat]
    exact Nat.mod_eq_of_lt (by omega)
  by_cases hn : cif.nfixed ≠ 0
  · rw [packed, if_pos hn] at hbound hend
    rw [← Nat.add_assoc] at hend
    have hc : rooms isBigStruct (cif.argTypes.take cif.nfixed) +
        rooms isStruct (cif.argTypes.drop cif.nfixed) ≤ cif.copies := by
      rw [copies, if_pos hn]
    obtain ⟨first, rest, hfirst, hrest, hval⟩ := read_zip m
      [BitVec.ofNat 64 (base + cif.copies)] byRef_isStruct hwf hfill
      (tight_isStruct fun t ht => hwf t (mem_of_mem_drop ht)) hc hbound hend.le rfl
    unfold callImage params
    simp only [hpack, ← hbase, if_pos hn, hfirst,
      getD_length (length_fillRegs_take hlen h.nfixed.2), haddr, hrest, bind_eq_bind,
      bind_some, Option.pure_def, hval, values]
  · have hcopies : cif.copies = rooms isBigStruct cif.argTypes := by
      rw [copies, if_neg hn]
    by_cases hmany : 5 < cif.argTypes.length + cif.hidden
    · rw [params_many h hwf hfit (not_not.mp hn) hmany hlen hbase (by omega) rfl]
      rw [packed, if_neg hn, if_pos hmany] at hbound hend
      rw [← Nat.add_assoc] at hend
      have hc : rooms isBigStruct (cif.argTypes.take (4 - cif.hidden)) +
          rooms isBigStruct (cif.argTypes.drop (4 - cif.hidden)) ≤ cif.copies := by
        rw [← rooms_append, take_append_drop, hcopies]
      obtain ⟨first, rest, hfirst, hrest, hval⟩ := read_zip m
        [BitVec.ofNat 64 (base + cif.copies)] byRef_isBigStruct hwf hfill
        (hgap (not_not.mp hn) hmany) hc hbound hend.le rfl
      simp only [hfirst, hrest, bind_eq_bind, bind_some, Option.pure_def, hval,
        values]
    · rw [packed, if_neg hn, if_neg hmany, Nat.add_zero] at hbound hend
      have htypes := types_zip hlen
      have hread : readRegs (fillRegs base (cif.argTypes.zip avalues) ⟨m, 0, 0⟩).2.mem
          (types (cif.argTypes.zip avalues))
          ((fillRegs base (cif.argTypes.zip avalues) ⟨m, 0, 0⟩).1 ++ []) =
            some (vals (cif.argTypes.zip avalues)) := by
        refine readRegs_fillRegs (ok_of_mem_zip hwf hfill) ?_ ?_ (fun _ _ _ => rfl)
        · rw [htypes, ← hcopies, Nat.zero_add]
          exact hbound
        · rw [htypes, ← hcopies]
          exact hend.le
      rw [htypes, vals_zip, append_nil] at hread
      unfold callImage params
      simp only [hpack, ← hbase, h.nslots, h.hasSret, if_neg hn, if_neg hmany, argLimit, drop_sret,
        hread, values]

end Bpfvm.Ffi
