import Bpfvm.Lib.FlatMemory
import Bpfvm.Lib.LittleEndian

/-!
# Calls through `ffi_call`

`ffi_prep_cif` and `ffi_prep_cif_var` accept a signature, and `ffi_call` puts argument values
where a function of that signature looks for them: into registers, into a pack buffer behind
the fifth register and into copies that are passed by reference. The function itself has been
compiled by clang and the `BpfWideArgs` pass; how such a function finds its parameters is
defined here on its own, from the pass.

Null type pointers and a failing `malloc` are left out.
-/
namespace Bpfvm.Ffi
open FlatMemory LittleEndian

/-- `FFI_TYPE_*` -/
inductive TypeCode where
  | void
  | int
  | float
  | double
  | longdouble
  | uint8
  | sint8
  | uint16
  | sint16
  | uint32
  | sint32
  | uint64
  | sint64
  | struct
  | pointer
  | complex
  deriving DecidableEq, Repr

structure FfiType where
  size : ℕ
  type : TypeCode
  deriving DecidableEq, Repr

abbrev Bytes := List (BitVec 8)

/-- An argument's type and the bytes that `avalues` points to. -/
abbrev Arg := FfiType × Bytes

abbrev Mem := ℕ → Option (BitVec 8)

/-- A value in an `unsigned`. -/
def unsigned (n : ℕ) : ℕ := n % 2 ^ 32

namespace FfiType

def isStruct (t : FfiType) : Bool := t.type == .struct

/-- `ffibpf_is_big_struct` -/
def isBigStruct (t : FfiType) : Bool := t.type == .struct && decide (8 < t.size)

/-- The bytes of a parameter in a pack buffer, where those with `byRef` are pointers:
`ffibpf_slot_size` with `isBigStruct`, `ffibpf_va_size` with `isStruct`. -/
def fieldSize (byRef : FfiType → Bool) (t : FfiType) : ℕ := if byRef t then 8 else unsigned t.size

/-- `type_valid` -/
def valid (t : FfiType) : Bool :=
  t.type != .complex && (t.type == .struct || decide (t.size ≤ 8))

/-- The types of C parameters: integers, floats, pointers and structs. -/
def Wf (t : FfiType) : Prop :=
  match t.type with
  | .uint8 | .sint8 => t.size = 1
  | .uint16 | .sint16 => t.size = 2
  | .int | .float | .uint32 | .sint32 => t.size = 4
  | .double | .longdouble | .uint64 | .sint64 | .pointer => t.size = 8
  | .struct => 0 < t.size
  | .void | .complex => False

end FfiType

/-- `ffibpf_round8` -/
def round8 (n : ℕ) : ℕ := unsigned (unsigned n + 7) / 8 * 8

/-! ## Preparing a call -/

/-- What the C declaration says. `nfixed` is 0 for a function without variadic arguments. -/
structure Signature where
  nfixed : ℕ
  rtype : FfiType
  argTypes : List FfiType
  deriving DecidableEq, Repr

structure Cif extends Signature where
  nargs : ℕ
  bytes : ℕ
  nslots : ℕ
  hasSret : ℕ
  deriving DecidableEq, Repr

inductive Status where
  | badTypedef
  | badAbi
  deriving DecidableEq, Repr

/-- `BPFFFI_MAX_ARGS` -/
def maxArgs : ℕ := 1024

/-- `FFI_LAST_ABI` -/
def lastAbi : ℕ := 2

/-- Whether the value of parameter `i` is copied into the arena. -/
def copied (nfixed i : ℕ) (t : FfiType) : Bool :=
  t.isStruct && (t.isBigStruct || nfixed != 0 && decide (nfixed ≤ i))

/-- The loop that sums up the copies, from parameter `i` on. -/
def copyBytes (nfixed : ℕ) : ℕ → List FfiType → ℕ → ℕ
  | _, [], acc => acc
  | i, t :: ts, acc =>
    copyBytes nfixed (i + 1) ts (if copied nfixed i t then unsigned (acc + round8 t.size) else acc)

/-- The loops that sum up the pack buffer. -/
def packSum (byRef : FfiType → Bool) (ts : List FfiType) : ℕ :=
  ts.foldl (fun acc t => unsigned (acc + t.fieldSize byRef)) 0

/-- The hidden result pointer, counted as a parameter. -/
def Signature.hidden (sig : Signature) : ℕ := if sig.rtype.isStruct then 1 else 0

/-- The size of the pack buffer. -/
def packBytes (sig : Signature) : ℕ :=
  if sig.nfixed ≠ 0 then packSum FfiType.isStruct (sig.argTypes.drop sig.nfixed)
  else if 5 < sig.argTypes.length + sig.hidden then
    packSum FfiType.isBigStruct (sig.argTypes.drop (4 - sig.hidden))
  else 0

def prep (abi : ℕ) (sig : Signature) : Except Status Cif :=
  if lastAbi ≤ abi then .error .badAbi
  else if !sig.rtype.valid then .error .badTypedef
  else if maxArgs < sig.argTypes.length then .error .badTypedef
  else if sig.nfixed != 0 && (decide (4 < sig.nfixed) || decide (sig.argTypes.length < sig.nfixed))
  then .error .badTypedef
  else if sig.nfixed != 0 && sig.rtype.isStruct then .error .badTypedef
  else if !sig.argTypes.all FfiType.valid then .error .badTypedef
  else .ok { sig with
    nargs := sig.argTypes.length
    bytes := unsigned (copyBytes sig.nfixed 0 sig.argTypes 0 + packBytes sig)
    nslots := sig.argTypes.length + sig.hidden
    hasSret := sig.hidden }

def ffiPrepCif (abi : ℕ) (rtype : FfiType) (atypes : List FfiType) : Except Status Cif :=
  prep abi ⟨0, rtype, atypes⟩

def ffiPrepCifVar (abi nfixed : ℕ) (rtype : FfiType) (atypes : List FfiType) :
    Except Status Cif :=
  if nfixed < 1 then .error .badTypedef else prep abi ⟨nfixed, rtype, atypes⟩

/-! ## Placing the arguments -/

/-- Narrow signed integers are extended for their register. -/
def sextLe (v : Bytes) (t : FfiType) : U64 :=
  let x := BitVec.ofNat 64 (value (v.take t.size))
  match t.type with
  | .int | .sint8 | .sint16 | .sint32 =>
    if t.size = 1 then (x.setWidth 8).signExtend 64
    else if t.size = 2 then (x.setWidth 16).signExtend 64
    else if t.size = 4 then (x.setWidth 32).signExtend 64
    else x
  | _ => x

/-- The state of the loops of `ffi_call`. -/
structure Filling where
  mem : Mem
  copyOff : ℕ
  packOff : ℕ

/-- `arg_slot`; in the variadic area every struct is passed by reference. -/
def argSlot (byRef : FfiType → Bool) (arena : ℕ) (a : Arg) (st : Filling) :
    U64 × Filling :=
  if byRef a.1 then
    (BitVec.ofNat 64 (arena + st.copyOff),
      { st with
        mem := write st.mem (arena + st.copyOff) a.2
        copyOff := unsigned (st.copyOff + round8 a.1.size) })
  else (sextLe a.2 a.1, st)

/-- The loop over the arguments that go into registers. -/
def fillRegs (arena : ℕ) : List Arg → Filling → List U64 × Filling
  | [], st => ([], st)
  | a :: as, st =>
    let slot := argSlot FfiType.isBigStruct arena a st
    let rest := fillRegs arena as slot.2
    (slot.1 :: rest.1, rest.2)

/-- One argument goes into the pack buffer. -/
def packArg (byRef : FfiType → Bool) (arena pack : ℕ) (a : Arg) (st : Filling) : Filling :=
  let slot := argSlot byRef arena a st
  { slot.2 with
    mem := write slot.2.mem (pack + slot.2.packOff)
      (bytes (a.1.fieldSize byRef) slot.1.toNat)
    packOff := unsigned (slot.2.packOff + a.1.fieldSize byRef) }

/-- The loops over the arguments that go into the pack buffer. -/
def fillPack (byRef : FfiType → Bool) (arena pack : ℕ) : List Arg → Filling → Filling
  | [], st => st
  | a :: as, st => fillPack byRef arena pack as (packArg byRef arena pack a st)

/-- Registers `r1` to `r5`, those beyond the list being 0, and memory at the call. -/
structure Image where
  regs : List U64
  mem : Mem

/-- `ffi_call` up to the call; `arena` is what `malloc` returns. -/
def callImage (cif : Cif) (arena rvalue : ℕ) (avalues : List Bytes) (mem : Mem) : Image :=
  let args := cif.argTypes.zip avalues
  let pack := if cif.bytes ≠ 0 then arena + copyBytes cif.nfixed 0 cif.argTypes 0 else 0
  let arena := if cif.bytes ≠ 0 then arena else 0
  let start : Filling := ⟨mem, 0, 0⟩
  if cif.nfixed ≠ 0 then
    let named := fillRegs arena (args.take cif.nfixed) start
    ⟨named.1 ++ [BitVec.ofNat 64 pack],
      (fillPack FfiType.isStruct arena pack (args.drop cif.nfixed) named.2).mem⟩
  else
    let sret := if cif.hasSret ≠ 0 then [BitVec.ofNat 64 rvalue] else []
    if 5 < cif.nslots then
      let first := fillRegs arena (args.take (4 - cif.hasSret)) start
      ⟨sret ++ first.1 ++ [BitVec.ofNat 64 pack],
        (fillPack FfiType.isBigStruct arena pack (args.drop (4 - cif.hasSret)) first.2).mem⟩
    else
      let all := fillRegs arena args start
      ⟨sret ++ all.1, all.2.mem⟩

/-- `ffi_call` after the call has returned `ret`. -/
def storeResult (cif : Cif) (rvalue : ℕ) (ret : U64) (mem : Mem) : Mem :=
  if cif.rtype.type != .void && cif.rtype.type != .struct then
    write mem rvalue (bytes 8 ret.toNat)
  else mem

/-! ## The compiled function -/

/-- Integer parameters; the code generator takes them from a register as extended. -/
def FfiType.isInt (t : FfiType) : Bool :=
  match t.type with
  | .int | .uint8 | .sint8 | .uint16 | .sint16 | .uint32 | .sint32 | .uint64 | .sint64
  | .pointer => true
  | _ => false

def FfiType.isSigned (t : FfiType) : Bool :=
  match t.type with
  | .int | .sint8 | .sint16 | .sint32 | .sint64 => true
  | _ => false

/-- The value of an integer parameter as 64 bits. -/
def extend (t : FfiType) (v : Bytes) : U64 :=
  if t.isSigned then (BitVec.ofNat (8 * t.size) (value v)).signExtend 64
  else BitVec.ofNat 64 (value v)

/-- The value of a parameter: 8 bytes for an integer, the bytes themselves otherwise. -/
def paramValue (t : FfiType) (v : Bytes) : Bytes :=
  if t.isInt then bytes 8 (extend t v).toNat else v

/-- `getTypeAllocSize` of a scalar type of `n` bytes: the size is rounded up to the alignment of
the next integer type that has one. -/
def allocSize (n : ℕ) : ℕ := if n ≤ 1 then n else if n ≤ 2 then 2 else if n ≤ 4 then 4 else 8

/-- The bytes of the IR type of a parameter: a pointer, or the scalar or `iN` of its size. -/
def irSize (byRef : FfiType → Bool) (t : FfiType) : ℕ := if byRef t then 8 else t.size

/-- A parameter in the pack buffer at `a`. -/
def readField (m : Mem) (byRef : FfiType → Bool) (t : FfiType) (a : ℕ) : Option Bytes :=
  if byRef t then do
    let p ← read m a 8
    read m (value p) t.size
  else (read m a t.size).map (paramValue t)

/-- The fields of the packed struct from `a` on, or of as many calls of `va_arg`. -/
def readPack (m : Mem) (byRef : FfiType → Bool) : List FfiType → ℕ → Option (List Bytes)
  | [], _ => some []
  | t :: ts, a => do
    let v ← readField m byRef t a
    let vs ← readPack m byRef ts (a + allocSize (irSize byRef t))
    return v :: vs

/-- A parameter in a register. -/
def readReg (m : Mem) (t : FfiType) (x : U64) : Option Bytes :=
  if t.isBigStruct then read m x.toNat t.size
  else if t.isInt then some (bytes 8 x.toNat)
  else some (bytes t.size x.toNat)

def readRegs (m : Mem) : List FfiType → List U64 → Option (List Bytes)
  | [], _ => some []
  | _ :: _, [] => none
  | t :: ts, x :: xs => do
    let v ← readReg m t x
    let vs ← readRegs m ts xs
    return v :: vs

/-- `KEEP_REGS` -/
def keepRegs : ℕ := 4

/-- `BPF_ARG_LIMIT` -/
def argLimit : ℕ := 5

/-- What a compiled function of the signature reads as its parameters. -/
def params (sig : Signature) (im : Image) : Option (List Bytes) :=
  if sig.nfixed ≠ 0 then do
    let named ← readRegs im.mem (sig.argTypes.take sig.nfixed) im.regs
    let rest ← readPack im.mem FfiType.isStruct (sig.argTypes.drop sig.nfixed)
      (im.regs.getD sig.nfixed 0).toNat
    return named ++ rest
  else if argLimit < sig.argTypes.length + sig.hidden then do
    let first ← readRegs im.mem (sig.argTypes.take (keepRegs - sig.hidden))
      (im.regs.drop sig.hidden)
    let rest ← readPack im.mem FfiType.isBigStruct (sig.argTypes.drop (keepRegs - sig.hidden))
      (im.regs.getD keepRegs 0).toNat
    return first ++ rest
  else readRegs im.mem sig.argTypes (im.regs.drop sig.hidden)

/-- A compiled function of the signature that computes `body`. A struct result is stored
through the first parameter; the high bits of another one in `r0` are `junk`. -/
def compiled (sig : Signature) (body : List Bytes → Bytes) (junk : ℕ) (im : Image) :
    Option (U64 × Mem) := do
  let vs ← params sig im
  let result := body vs
  if sig.rtype.isStruct then
    return (0, write im.mem (im.regs.getD 0 0).toNat result)
  else
    return (BitVec.ofNat 64 (value result + 256 ^ result.length * junk), im.mem)

/-- `ffi_call` of such a function. -/
def ffiCall (cif : Cif) (body : List Bytes → Bytes) (junk arena rvalue : ℕ)
    (avalues : List Bytes) (mem : Mem) : Option Mem := do
  let (ret, m) ← compiled cif.toSignature body junk (callImage cif arena rvalue avalues mem)
  return storeResult cif rvalue ret m

/-- The values of the arguments. -/
def Signature.values (sig : Signature) (avalues : List Bytes) : List Bytes :=
  List.zipWith paramValue sig.argTypes avalues

/-- `avalues` has a value of each argument's size. -/
def Signature.Fills (sig : Signature) (avalues : List Bytes) : Prop :=
  List.Forall₂ (fun t (v : Bytes) => v.length = t.size) sig.argTypes avalues

/-- Every function of the signature reads the argument values, and its result is stored to
`rvalue`. -/
def Matches (cif : Cif) : Prop :=
  ∀ (arena rvalue : ℕ) (avalues : List Bytes) (mem : Mem), cif.Fills avalues →
    arena + cif.bytes < 2 ^ 64 → rvalue < 2 ^ 64 →
    params cif.toSignature (callImage cif arena rvalue avalues mem) = some (cif.values avalues) ∧
    ∀ (body : List Bytes → Bytes) (junk : ℕ), (∀ vs, (body vs).length = cif.rtype.size) →
      cif.rtype.type ≠ .void →
      ∃ m, ffiCall cif body junk arena rvalue avalues mem = some m ∧
        read m rvalue cif.rtype.size = some (body (cif.values avalues))

end Bpfvm.Ffi
