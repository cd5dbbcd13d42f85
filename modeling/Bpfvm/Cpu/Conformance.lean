import Bpfvm.Cpu.Registers

/-!
# The interpreter conforms to the instruction set

The instructions that access memory, and one turn of `vm::run` on any instruction.
-/
namespace Bpfvm.Cpu
open Memory Isa LittleEndian FlatMemory Machine

variable {c : Setup} {w : World} {m : Machine}

/-! ## Loads and stores -/

theorem load_code (sz : Size) :
    (0x61 ||| sz.code) &&& 0x07 = 0x01 ∧ (0x61 ||| sz.code) &&& 0xe0 = 0x60 ∧
    accessSize (0x61 ||| sz.code) = sz.bytes := by
  cases sz <;> decide

theorem loadSigned_code (sz : Size) :
    (0x81 ||| sz.code) &&& 0x07 = 0x01 ∧ (0x81 ||| sz.code) &&& 0xe0 = 0x80 ∧
    accessSize (0x81 ||| sz.code) = sz.bytes := by
  cases sz <;> decide

theorem size_bytes_pos (sz : Size) : 0 < sz.bytes := by
  cases sz <;> decide

theorem subSize_bytes_ne (sz : SubSize) : sz.1.bytes ≠ 8 := by
  obtain ⟨sz, hsz⟩ := sz
  revert hsz
  cases sz <;> decide

variable {mem : State} {n : ℕ}

/-- An instruction that sets a register after a load. -/
theorem conforms_loaded (hr : Refilled m.mem mem c.vm) (k : ℕ) (x : U64) :
    Conforms c m (true, ({ m with mem := mem } : Machine).setReg k x)
      (some (((m.arch c).setReg k x).next 1)) := by
  refine ⟨rfl, ?_, hr.sound, rfl, rfl, rfl, rfl⟩
  simp only [arch, Arch.setReg, Arch.next, setReg, hr.view c.vm]
  rfl

theorem ldx_of_mapped (hs : Sound m.mem c.vm) (cur : BpfInsn) (dst : Fin 10) (src : Fin 11)
    (hdst : cur.dstReg = regField dst) (hsrc : cur.srcReg = regField src)
    (hsize : accessSize cur.code = n) (hn : 0 < n)
    (hm : Mapped m.mem c.vm ((m.arch c).addr src cur.off) n) :
    ∃ bs mem, (m.arch c).read ((m.arch c).addr src cur.off) n = some (value bs) ∧
      Refilled m.mem mem c.vm ∧
      m.ldx c cur = match (cur.code &&& 0xe0).toNat with
        | 0x60 => (true, ({ m with mem := mem } : Machine).setReg dst (ofBytes 64 bs))
        | 0x80 =>
          if n = 8 then (false, { m with mem := mem })
          else (true, ({ m with mem := mem } : Machine).setReg dst
            ((ofBytes (8 * n) bs).signExtend 64))
        | _ => (false, { m with mem := mem }) := by
  obtain ⟨bs, mem, hload, hread, hr⟩ :=
    load_of_mapped (x := m.reg src + cur.off.signExtend 64) hs hm hn
  refine ⟨bs, mem, congrArg (Option.map value) hread, hr, ?_⟩
  rw [ldx, hdst, hsrc, regField_dst, regField_src, if_neg (Nat.not_le.mpr dst.isLt),
    hsize]
  dsimp only
  exact hload ▸ rfl

theorem conforms_ldx (hs : Sound m.mem c.vm) (sz : Size) (dst : Fin 10) (src : Fin 11)
    (off : BitVec 16) (p : HostPtr)
    (hm : Mapped m.mem c.vm ((m.arch c).addr src off) sz.bytes) :
    Conforms c m (m.execute c w ⟨0x61 ||| sz.code, regField dst, regField src, off, 0⟩ p)
      ((Insn.ldx sz dst src off).exec (m.arch c)) := by
  obtain ⟨hclass, hmode, hsize⟩ := load_code sz
  obtain ⟨bs, mem, hread, hr, hldx⟩ := ldx_of_mapped hs
    ⟨0x61 ||| sz.code, regField dst, regField src, off, 0⟩ dst src rfl rfl hsize
    (size_bytes_pos sz) hm
  rw [execute_ldx c w m p hclass, hldx]
  dsimp only at hread ⊢
  rw [hmode, Insn.exec, hread]
  exact conforms_loaded hr dst (ofBytes 64 bs)

theorem conforms_ldxs (hs : Sound m.mem c.vm) (sz : SubSize) (dst : Fin 10) (src : Fin 11)
    (off : BitVec 16) (p : HostPtr)
    (hm : Mapped m.mem c.vm ((m.arch c).addr src off) sz.1.bytes) :
    Conforms c m (m.execute c w ⟨0x81 ||| sz.1.code, regField dst, regField src, off, 0⟩ p)
      ((Insn.ldxs sz dst src off).exec (m.arch c)) := by
  obtain ⟨hclass, hmode, hsize⟩ := loadSigned_code sz.1
  obtain ⟨bs, mem, hread, hr, hldx⟩ := ldx_of_mapped hs
    ⟨0x81 ||| sz.1.code, regField dst, regField src, off, 0⟩ dst src rfl rfl hsize
    (size_bytes_pos sz.1) hm
  have hne : sz.1.bytes ≠ 8 := subSize_bytes_ne sz
  rw [execute_ldx c w m p hclass, hldx]
  dsimp only at hread ⊢
  rw [hmode, Insn.exec, hread]
  simp only [if_neg hne]
  exact conforms_loaded hr dst ((ofBytes (8 * sz.1.bytes) bs).signExtend 64)

theorem store_code (sz : Size) :
    (0x62 ||| sz.code) &&& 0x07 = 0x02 ∧ accessSize (0x62 ||| sz.code) = sz.bytes := by
  cases sz <;> decide

theorem storeReg_code (sz : Size) :
    (0x63 ||| sz.code) &&& 0x07 = 0x03 ∧ (0x63 ||| sz.code) &&& 0xe0 ≠ 0xc0 ∧
    accessSize (0x63 ||| sz.code) = sz.bytes := by
  cases sz <;> decide

/-- A step that leaves the program the memory `f`. -/
theorem conforms_stored {f : ℕ → Option Byte} (h : Stored m.mem mem c.vm f) :
    Conforms c m (true, { m with mem := mem })
      (some (({ m.arch c with mem := f } : Arch).next 1)) := by
  refine ⟨rfl, ?_, h.sound, rfl, rfl, rfl, rfl⟩
  simp only [arch, Arch.next, h.view]
  rfl

theorem read_of_mapped (hs : Sound m.mem c.vm) {a : ℕ} (hm : Mapped m.mem c.vm a n) (hn : 0 < n) :
    ∃ x, (m.arch c).read a n = some x := by
  obtain ⟨bs, -, -, hread, -⟩ := loadBytes_of_mapped hs hm hn
  exact ⟨_, congrArg (Option.map value) hread⟩

theorem conforms_storeValue (hs : Sound m.mem c.vm) (cur : BpfInsn) (dst : Fin 11) (x : U64)
    (hdst : cur.dstReg = regField dst) (hsize : accessSize cur.code = n) (hn : 0 < n)
    (hm : Writable c.env m.mem c.vm ((m.arch c).addr dst cur.off) n) :
    Conforms c m (m.storeValue c cur x)
      (some (((m.arch c).write ((m.arch c).addr dst cur.off) n x.toNat).next 1)) := by
  have hlen : (bytes n x.toNat).length = n := length_bytes n x.toNat
  have hw : Writable c.env m.mem c.vm ((m.arch c).addr dst cur.off)
      (bytes n x.toNat).length := by rwa [hlen]
  obtain ⟨mem, hstore, hst⟩ := storeBytes_of_writable hs hw (by rwa [hlen])
  have hstore' : m.store c (m.reg dst + cur.off.signExtend 64) (bytes n x.toNat) =
      (true, { m with mem := mem }) := by
    rw [store]
    exact congrArg (fun r : Bool × State => (r.1, ({ m with mem := r.2 } : Machine))) hstore
  rw [storeValue, hdst, regField_src, hsize, hstore']
  exact conforms_stored hst

theorem conforms_st (hs : Sound m.mem c.vm) (sz : Size) (dst : Fin 11) (off : BitVec 16)
    (imm : U32) (p : HostPtr)
    (hm : Writable c.env m.mem c.vm ((m.arch c).addr dst off) sz.bytes) :
    Conforms c m (m.execute c w ⟨0x62 ||| sz.code, regField dst, 0, off, imm⟩ p)
      ((Insn.st sz dst off imm).exec (m.arch c)) := by
  obtain ⟨hclass, hsize⟩ := store_code sz
  obtain ⟨x, hread⟩ := read_of_mapped hs hm.mapped (size_bytes_pos sz)
  rw [execute_st c w m p hclass, st, Insn.exec, hread]
  exact conforms_storeValue hs _ dst _ rfl hsize (size_bytes_pos sz) hm

theorem conforms_stx (hs : Sound m.mem c.vm) (sz : Size) (dst src : Fin 11) (off : BitVec 16)
    (p : HostPtr) (hm : Writable c.env m.mem c.vm ((m.arch c).addr dst off) sz.bytes) :
    Conforms c m (m.execute c w ⟨0x63 ||| sz.code, regField dst, regField src, off, 0⟩ p)
      ((Insn.stx sz dst src off).exec (m.arch c)) := by
  obtain ⟨hclass, hmode, hsize⟩ := storeReg_code sz
  obtain ⟨x, hread⟩ := read_of_mapped hs hm.mapped (size_bytes_pos sz)
  rw [execute_stx c w m p hclass, stx, if_neg hmode, regField_src, Insn.exec, hread]
  exact conforms_storeValue hs _ dst _ rfl hsize (size_bytes_pos sz) hm

/-! ## Atomic operations -/

theorem atomic_code (wd : Width) :
    (0xc3 ||| wd.size.code) &&& 0x07 = 0x03 ∧ (0xc3 ||| wd.size.code) &&& 0xe0 = 0xc0 := by
  cases wd <;> decide

theorem stx_atomic (wd : Width) {cur : BpfInsn} (h : cur.code = 0xc3 ||| wd.size.code) :
    m.stx c cur = m.atomic c cur wd.bytes := by
  rw [stx, h, if_pos (atomic_code wd).2]
  cases wd with
  | w32 => rw [if_neg (by decide), if_pos (by decide)]; rfl
  | w64 => rw [if_pos (by decide)]; rfl

/-- The state after an atomic operation that replaces `old` by `x`. -/
def atomicResult (s : Arch) (a n src x old : ℕ) : Fetch → Arch
  | .nowhere => (s.write a n x).next 1
  | .src => ((s.write a n x).setReg src (BitVec.ofNat 64 old)).next 1
  | .r0 => ((s.write a n x).setReg 0 (BitVec.ofNat 64 old)).next 1

theorem zeroExtend_ofBytes {bs : List Byte} (h : bs.length = n) :
    (ofBytes (8 * n) bs).zeroExtend 64 = BitVec.ofNat 64 (value bs) := by
  have hlt : value bs < 2 ^ (8 * n) := by
    have := value_lt bs
    rwa [h, show (256 : ℕ) = 2 ^ 8 from rfl, ← Nat.pow_mul] at this
  apply BitVec.eq_of_toNat_eq
  rw [BitVec.zeroExtend_eq_setWidth, BitVec.toNat_setWidth, ofBytes, BitVec.toNat_ofNat,
    BitVec.toNat_ofNat, Nat.mod_eq_of_lt hlt]

/-- A step that writes memory and then a register. -/
theorem conforms_storedReg {f : ℕ → Option Byte} (h : Stored m.mem mem c.vm f) (k : ℕ)
    (x : U64) :
    Conforms c m (true, ({ m with mem := mem } : Machine).setReg k x)
      (some ((({ m.arch c with mem := f } : Arch).setReg k x).next 1)) := by
  refine ⟨rfl, ?_, h.sound, rfl, rfl, rfl, rfl⟩
  simp only [arch, Arch.next, Arch.setReg, setReg, h.view]
  rfl

/-- An atomic instruction with an entry in the table of `do_atomic`. -/
theorem conforms_atomicOp (hs : Sound m.mem c.vm) (wd : Width) (dst src : Fin 11)
    (off : BitVec 16) (imm : U32) (p : HostPtr)
    (hm : Writable c.env m.mem c.vm ((m.arch c).addr dst off) wd.bytes)
    {g : BitVec (8 * wd.bytes) → BitVec (8 * wd.bytes)} {into : Fetch} {i : Insn}
    (htable : ∀ old, atomicOp imm old ((m.reg src).truncate (8 * wd.bytes))
      ((m.reg 0).truncate (8 * wd.bytes)) = some (g old, into))
    (hexec : ∀ old, (m.arch c).read ((m.arch c).addr dst off) wd.bytes = some old →
      i.exec (m.arch c) = some (atomicResult (m.arch c) ((m.arch c).addr dst off) wd.bytes src
        (g (BitVec.ofNat (8 * wd.bytes) old)).toNat old into)) :
    Conforms c m (m.execute c w
      ⟨0xc3 ||| wd.size.code, regField dst, regField src, off, imm⟩ p) (i.exec (m.arch c)) := by
  have hpos : 0 < wd.bytes := by cases wd <;> decide
  obtain ⟨bs, mem, hrmw, hread, hst⟩ := rmwBytes_of_writable hs hm hpos
    (f := fun bs => bytes wd.bytes (g (ofBytes (8 * wd.bytes) bs)).toNat)
    fun bs _ => length_bytes _ _
  have hlen := (read_eq_some_iff.mp hread).1
  rw [hexec (value bs) (congrArg (Option.map value) hread)]
  have haddr : (m.reg dst + off.signExtend 64).toNat = (m.arch c).addr dst off := rfl
  rw [execute_stx c w m p (atomic_code wd).1, stx_atomic wd rfl, atomic, regField_src,
    regField_src]
  simp only [htable, haddr, hrmw, zeroExtend_ofBytes hlen]
  cases into with
  | nowhere => exact conforms_stored hst
  | src => exact conforms_storedReg hst src _
  | r0 => exact conforms_storedReg hst 0 _

theorem atomicOp_code {b : ℕ} (op : AtomicOp) (old src r0 : BitVec b) :
    atomicOp op.code old src r0 = some (op.eval old src, .nowhere) ∧
    atomicOp (op.code ||| 0x01) old src r0 = some (op.eval old src, .src) := by
  cases op <;> exact ⟨rfl, rfl⟩

/-! ## The two slots of `lddw` -/

theorem lddw_value (imm : U64) :
    ((imm >>> 32).truncate 32).signExtend 64 <<< 32 ||| (imm.truncate 32).zeroExtend 64 = imm := by
  ext i hi
  by_cases h : i < 32
  · simp [h, BitVec.getLsbD_eq_getElem hi]
  · have hlt : i - 32 < 32 := by omega
    have heq : 32 + (i - 32) = i := by omega
    simp [h, BitVec.getElem_signExtend, hlt, heq, BitVec.getLsbD_eq_getElem hi]

theorem conforms_lddw (hs : Sound m.mem c.vm) (dst : Fin 10) (imm : U64) (p : HostPtr)
    (hm : Mapped m.mem c.vm (m.pc + 8).toNat 8)
    (hnext : m.mem.host.load (p.add 8) 8 = BpfInsn.bytes ⟨0, 0, 0, 0, (imm >>> 32).truncate 32⟩) :
    Conforms c m (m.execute c w ⟨0x18, regField dst, 0, 0, imm.truncate 32⟩ p)
      ((Insn.lddw dst imm).exec (m.arch c)) := by
  obtain ⟨q, hq, -⟩ := mmu_of_mapped hs hm (k := 8) (by decide) le_rfl
  have hr := refilled_mmu hs (m.pc + 8).toNat 8
  rw [execute_ld c w m p (by simp), ld, regField_dst, if_neg (Nat.not_le.mpr dst.isLt)]
  simp only [hq, Option.isNone_some, Bool.false_eq_true, if_false, hr.host, hnext,
    BpfInsn.ofBytes_bytes, lddw_value]
  refine ⟨rfl, ?_, hr.sound, rfl, rfl, rfl, rfl⟩
  have hpc : m.pc + BitVec.ofNat 64 (8 * 2) = m.pc + 8 + 8 := by
    rw [BitVec.add_assoc]
    rfl
  simp only [Insn.exec, arch, Arch.setReg, Arch.next, setReg, hr.view c.vm, hpc]

/-! ## One turn of the interpreter -/

/-- The first slot of an instruction. -/
def Isa.Insn.slot (i : Insn) : BpfInsn := i.slots.headD ⟨0, 0, 0, 0, 0⟩

theorem slots_eq (i : Insn) : ∃ rest, i.slots = i.slot :: rest := by
  cases i <;> exact ⟨_, rfl⟩

theorem operand_srcReg_le (src : Operand) : src.srcReg.toNat ≤ 10 := by
  cases src with
  | reg k => exact (regField_src k).le.trans (by omega)
  | imm i => exact Nat.zero_le 10

theorem slot_regs (i : Insn) : i.slot.dstReg.toNat ≤ 10 ∧ i.slot.srcReg.toNat ≤ 10 := by
  have hdst (k : Fin 10) : (regField k).toNat ≤ 10 := (regField_dst k).le.trans (by omega)
  have hsrc (k : Fin 11) : (regField k).toNat ≤ 10 := (regField_src k).le.trans (by omega)
  have h0 : (0 : BitVec 4).toNat ≤ 10 := by decide
  cases i with
  | alu wd op dst src => exact ⟨hdst dst, operand_srcReg_le src⟩
  | neg wd dst | bytes o sz dst | lddw dst imm => exact ⟨hdst dst, h0⟩
  | movsx wd sz dst src | ldx sz dst src off | ldxs sz dst src off => exact ⟨hdst dst, hsrc src⟩
  | ja off => exact ⟨h0, h0⟩
  | jaLong imm => exact ⟨h0, h0⟩
  | jcond wd cond dst src off => exact ⟨hsrc dst, operand_srcReg_le src⟩
  | st sz dst off imm => exact ⟨hsrc dst, h0⟩
  | stx sz dst src off | atomic wd op dst src off | cmpxchg wd dst src off =>
    exact ⟨hsrc dst, hsrc src⟩
  | fetch wd op dst src off | xchg wd dst src off => exact ⟨hsrc dst, hdst src⟩

/-- The ranges an instruction loads from and writes are mapped with the permission it needs. -/
structure Accessible (c : Setup) (m : Machine) (i : Insn) : Prop where
  loads : ∀ a n, i.loads (m.arch c) = some (a, n) → Mapped m.mem c.vm a n
  stores : ∀ a n, i.stores (m.arch c) = some (a, n) → Writable c.env m.mem c.vm a n

/-- Executing a fetched instruction; `hnext` is about the second slot of `lddw`. -/
theorem conforms_execute (hs : Sound m.mem c.vm) (i : Insn) (p : HostPtr)
    (hacc : Accessible c m i)
    (hnext : ∀ slot, i.slots = [i.slot, slot] → Mapped m.mem c.vm (m.pc + 8).toNat 8 ∧
      m.mem.host.load (p.add 8) 8 = slot.bytes) :
    Conforms c m (m.execute c w i.slot p) (i.exec (m.arch c)) := by
  cases i with
  | alu wd op dst src => exact conforms_alu hs wd op dst src p
  | neg wd dst => exact conforms_neg hs wd dst p
  | movsx wd sz dst src => exact conforms_movsx hs wd sz dst src p
  | bytes o sz dst => exact conforms_bytes hs o sz dst p
  | ja off => exact conforms_ja hs off p
  | jaLong imm => exact conforms_jaLong hs imm p
  | jcond wd cond dst src off => exact conforms_jcond hs wd cond dst src off p
  | lddw dst imm => exact conforms_lddw hs dst imm p (hnext _ rfl).1 (hnext _ rfl).2
  | ldx sz dst src off => exact conforms_ldx hs sz dst src off p (hacc.loads _ _ rfl)
  | ldxs sz dst src off => exact conforms_ldxs hs sz dst src off p (hacc.loads _ _ rfl)
  | st sz dst off imm => exact conforms_st hs sz dst off imm p (hacc.stores _ _ rfl)
  | stx sz dst src off => exact conforms_stx hs sz dst src off p (hacc.stores _ _ rfl)
  | atomic wd op dst src off =>
    refine conforms_atomicOp hs wd dst src off op.code p (hacc.stores _ _ rfl)
      (fun old => (atomicOp_code op old _ _).1) fun old hread => ?_
    rw [Insn.exec, Arch.modify, hread]
    cases wd <;> rfl
  | fetch wd op dst src off =>
    refine conforms_atomicOp hs wd dst src.castSucc off (op.code ||| 0x01) p (hacc.stores _ _ rfl)
      (fun old => (atomicOp_code op old _ _).2) fun old hread => ?_
    rw [Insn.exec, Arch.modify, hread]
    cases wd <;> rfl
  | xchg wd dst src off =>
    refine conforms_atomicOp hs wd dst src.castSucc off 0xe1 p (hacc.stores _ _ rfl)
      (fun _ => rfl) fun old hread => ?_
    rw [Insn.exec, Arch.modify, hread]
    cases wd <;> rfl
  | cmpxchg wd dst src off =>
    refine conforms_atomicOp hs wd dst src off 0xf1 p (hacc.stores _ _ rfl)
      (fun _ => rfl) fun old hread => ?_
    rw [Insn.exec, Arch.modify, hread]
    cases wd <;> rfl

/-- The bytes behind a pointer to a part of the view. -/
theorem load_eq_of_read {a : ℕ} {p : HostPtr} {bs : List Byte}
    (hp : ∀ i < n, m.mem.view c.vm (a + i) = some (m.mem.host.byte (p.add i)))
    (hread : read (m.mem.view c.vm) a n = some bs) : m.mem.host.load p n = bs := by
  rw [read_load hp] at hread
  exact Option.some.inj hread

/-- What the fetch of an instruction in memory finds. -/
theorem fetched (hs : Sound m.mem c.vm) (i : Insn)
    (hm : Mapped m.mem c.vm m.pc.toNat i.encode.length)
    (hread : read (m.mem.view c.vm) m.pc.toNat i.encode.length = some i.encode) :
    ∃ p, (m.mem.mmu c.vm m.pc.toNat 8).1 = some p ∧
      BpfInsn.ofBytes (m.mem.host.load p 8) = i.slot ∧
      ∀ slot, i.slots = [i.slot, slot] → Mapped m.mem c.vm (m.pc + 8).toNat 8 ∧
        m.mem.host.load (p.add 8) 8 = slot.bytes := by
  obtain ⟨rest, hrest⟩ := slots_eq i
  have hencode : i.encode = i.slot.bytes ++ rest.flatMap BpfInsn.bytes := by
    rw [Insn.encode, hrest, List.flatMap_cons]
  have hlen : i.encode.length = 8 + (rest.flatMap BpfInsn.bytes).length := by
    rw [hencode, List.length_append, BpfInsn.length_bytes]
  obtain ⟨p, hp, hview⟩ := mmu_of_mapped hs hm (k := 8) (by decide) (by omega)
  have hbytes := load_eq_of_read hview hread
  rw [hlen, hencode, Host.load_add] at hbytes
  obtain ⟨hslot, hmore⟩ := List.append_inj hbytes (by simp [Host.load])
  refine ⟨p, hp, ?_, ?_⟩
  · rw [hslot, BpfInsn.ofBytes_bytes]
  · intro slot hslots
    obtain rfl : rest = [slot] := by
      rw [hrest] at hslots
      exact (List.cons.inj hslots).2
    simp only [List.flatMap_cons, List.flatMap_nil, List.append_nil, BpfInsn.length_bytes]
      at hmore hlen
    have hb := hs.bound hm
    have hpc : (m.pc + 8).toNat = m.pc.toNat + 8 := by
      exact BitVec.toNat_add_of_lt (show m.pc.toNat + 8 < 2 ^ 64 by omega)
    exact ⟨hm.sub (by omega) (by omega), hmore⟩

theorem Refilled.accessible (hr : Refilled m.mem mem c.vm) {i : Insn} (h : Accessible c m i) :
    Accessible c { m with mem := mem } i := by
  have harch : ({ m with mem := mem } : Machine).arch c = m.arch c := by
    simp only [arch, hr.view]
  refine ⟨?_, ?_⟩
  · intro a n ha
    rw [harch] at ha
    exact hr.mapped (h.loads a n ha)
  · intro a n ha
    rw [harch] at ha
    exact hr.writable (h.stores a n ha)

theorem conforms_fetchStep (hs : Sound m.mem c.vm) (i : Insn)
    (hm : Mapped m.mem c.vm m.pc.toNat i.encode.length)
    (hread : read (m.mem.view c.vm) m.pc.toNat i.encode.length = some i.encode)
    (hacc : Accessible c m i) : Conforms c m (m.fetch c w) (i.exec (m.arch c)) := by
  obtain ⟨p, hp, hslot, hnext⟩ := fetched hs i hm hread
  have hr := refilled_mmu hs m.pc.toNat 8
  have hregs := slot_regs i
  unfold fetch
  generalize m.mem.mmu c.vm m.pc.toNat 8 = r at hp hr ⊢
  obtain ⟨q, mem⟩ := r
  dsimp only at hp hr
  subst hp
  dsimp only
  rw [hr.host, hslot, if_neg (by omega)]
  have hconf : Conforms c { m with mem := mem } _ _ :=
    conforms_execute (w := w) hr.sound i p (Refilled.accessible hr hacc) fun slot hslots => by
      obtain ⟨hmap, hload⟩ := hnext slot hslots
      exact ⟨hr.mapped hmap, hr.host ▸ hload⟩
  have harch : ({ m with mem := mem } : Machine).arch c = m.arch c := by
    simp only [arch, hr.view]
  rw [harch] at hconf
  exact ⟨hconf.ok, hconf.arch, hconf.sound, hconf.flags, hconf.signalDepth, hconf.restartPc,
    hconf.sigmask⟩

/-- Every instruction of the instruction set, held in one segment and accessing memory that is
mapped with the permission it needs, takes one turn of the interpreter to the state the
instruction set prescribes. -/
theorem turn_conforms (i : Insn) (hs : Sound m.mem c.vm) (hflags : m.flags = 0)
    (hlimit : c.insnLimit = 0 ∨ m.insnCount + 1 < c.insnLimit)
    (hm : Mapped m.mem c.vm m.pc.toNat i.encode.length)
    (hread : read (m.mem.view c.vm) m.pc.toNat i.encode.length = some i.encode)
    (hacc : Accessible c m i) :
    ∃ m', m.turn c w = some m' ∧ i.exec (m.arch c) = some (m'.arch c) ∧
      Sound m'.mem c.vm ∧ m'.flags = 0 ∧ m'.signalDepth = m.signalDepth ∧
      m'.restartPc = m.restartPc ∧ m'.sigmask = m.sigmask := by
  have hconf := conforms_fetchStep (m := { m with insnCount := m.insnCount + 1 }) (w := w)
    hs i hm hread ⟨hacc.loads, hacc.stores⟩
  have hstep : m.step c w = ({ m with insnCount := m.insnCount + 1 } : Machine).fetch c w := by
    rw [step]
    dsimp only
    rw [if_neg (by omega), if_neg (not_not.mpr hflags)]
  refine ⟨_, ?_, hconf.arch, hconf.sound, hconf.flags.trans hflags, hconf.signalDepth,
    hconf.restartPc, hconf.sigmask⟩
  have hok := hconf.ok
  rw [turn, hstep]
  generalize ({ m with insnCount := m.insnCount + 1 } : Machine).fetch c w = r at hok ⊢
  obtain ⟨b, m'⟩ := r
  dsimp only at hok
  subst hok
  rfl

section Example

/-- A page that holds one instruction, readable, writable and executable. -/
def codePage (i : Insn) : BootSeg := ⟨0x1000, 0x1000, 7, fun k => i.encode.getD k 0⟩

/-- `r3 = atomic_fetch_add((u64 *)(r2 + 8), r3)`. -/
def fetchAdd : Insn := .fetch .w64 .add 2 3 8

def fetchAddStart : Machine :=
  boot [codePage fetchAdd] (fun k => if k = 2 then 0x1000 else 5) 0x1000

theorem bootOk_codePage (i : Insn) : BootOk [codePage i] := by
  refine ⟨?_, ?_, ?_⟩ <;> simp [codePage, BootSeg.stop]

theorem turn_conforms_fetchAdd :
    ∃ m', fetchAddStart.turn Setup.plain World.quiet = some m' ∧
      fetchAdd.exec (fetchAddStart.arch Setup.plain) = some (m'.arch Setup.plain) ∧
      Sound m'.mem 0 ∧ m'.flags = 0 ∧ m'.signalDepth = 0 ∧ m'.restartPc = 0 ∧ m'.sigmask = 0 := by
  refine turn_conforms (c := Setup.plain) fetchAdd (sound_boot (bootOk_codePage _)) rfl
    (Or.inl rfl) ⟨_, List.mem_singleton_self _, ?_, ?_⟩ ?_ ⟨?_, ?_⟩
  · decide
  · decide
  · decide
  · intro a n h
    simp [fetchAdd, Insn.loads] at h
  · intro a n h
    have hstores : fetchAdd.stores (fetchAddStart.arch Setup.plain) = some (0x1008, 8) := by decide
    rw [hstores] at h
    cases h
    exact ⟨_, List.mem_singleton_self _, by decide, by decide, by decide, Or.inl rfl⟩

/-- `r1 = *(u64 *)(r2 + 0)`. -/
def loadDouble : Insn := .ldx .dw 1 2 0

/-- Two segments side by side, and `r2` four bytes before the border between them. -/
def straddling : Machine :=
  boot [codePage loadDouble, ⟨0x2000, 0x1000, 7, fun _ => 0⟩]
    (fun k => if k = 2 then 0x1ffc else 0) 0x1000

/-- A load across two mapped segments stops the vm. -/
theorem load_across_segments_stops : ∃ (c : Setup) (w : World) (m : Machine) (i : Insn),
    Sound m.mem c.vm ∧ m.flags = 0 ∧ c.insnLimit = 0 ∧
    Mapped m.mem c.vm m.pc.toNat i.encode.length ∧
    read (m.mem.view c.vm) m.pc.toNat i.encode.length = some i.encode ∧
    (∀ a n, i.loads (m.arch c) = some (a, n) → ∀ k < n, Mapped m.mem c.vm (a + k) 1) ∧
    i.stores (m.arch c) = none ∧
    (i.exec (m.arch c)).isSome ∧ m.turn c w = none := by
  have hok : BootOk [codePage loadDouble, ⟨0x2000, 0x1000, 7, fun _ => 0⟩] := by
    refine ⟨?_, ?_, ?_⟩ <;> simp [codePage, BootSeg.stop]
  refine ⟨Setup.plain, World.quiet, straddling, loadDouble, sound_boot hok, rfl, rfl,
    ⟨_, List.mem_cons_self, by decide, by decide⟩, by decide, ?_, rfl, by decide, rfl⟩
  intro a n h k hk
  have hloads : loadDouble.loads (straddling.arch Setup.plain) = some (0x1ffc, 8) := by decide
  rw [hloads] at h
  cases h
  by_cases hlow : k < 4
  · exact ⟨_, List.mem_cons_self, by simp [codePage, BootSeg.segment]; omega, by
      simp [codePage, BootSeg.segment, Memmap.stop]; omega⟩
  · exact ⟨_, List.mem_cons_of_mem _ List.mem_cons_self, by simp [BootSeg.segment]; omega, by
      simp [BootSeg.segment, Memmap.stop]; omega⟩

end Example

end Bpfvm.Cpu
