import Bpfvm.Lib.LittleEndian
import Bpfvm.Lib.Segments
import Mathlib.Data.BitVec
import Mathlib.Data.PNat.Basic
import Mathlib.Logic.Function.Basic

/-!
# Guest address spaces over host pages

The model of `memmap`, the per-vm TLB, `vm::mmu`/`vm::mmu_w` and the address-space
system calls (`do_mmap`, `do_munmap`, `do_mprotect`, the memory part of `do_clone` and of
`fini`). A host pointer is a pair of an allocation and an offset into it: `mmap(nullptr, ..)`
returns a fresh allocation, so a pointer kept past its `munmap` can never be taken for a
newer one. `cow_data` is a `shared_ptr`; a control block is a number, and its `use_count`
is the number of `memmap`s that hold it, over all containers.

Guest addresses are natural numbers below `2 ^ 64`; every place where the source computes
in `uint64_t` is reduced explicitly.
-/
namespace Bpfvm.Memory
open Function

abbrev Byte := BitVec 8

/-! ## Machine words -/

def pageSize : ℕ := 0x1000

/-- `uint64_t` addition. -/
def uadd (a b : ℕ) : ℕ := (a + b) % 2 ^ 64

/-- `uint64_t` subtraction. -/
def usub (a b : ℕ) : ℕ := (a + (2 ^ 64 - b)) % 2 ^ 64

/-- `(x + PAGE - 1) & ~(PAGE - 1)` in `uint64_t`. -/
def roundUp (x : ℕ) : ℕ := uadd x (pageSize - 1) / pageSize * pageSize

def pfX : U32 := 1
def pfW : U32 := 2
def pfR : U32 := 4

def hasFlag (flags f : U32) : Bool := flags &&& f != 0

def protRead : U32 := 1
def protWrite : U32 := 2
def protExec : U32 := 4

def mapAnonymous : U32 := 0x20
def mapFixed : U32 := 0x10

/-- `PROT_*` bits to `PF_*` bits, as `do_mmap` and `do_mprotect` convert them. -/
def pfOfProt (prot : U32) : U32 :=
  (if hasFlag prot protRead then pfR else 0) |||
  (if hasFlag prot protWrite then pfW else 0) |||
  (if hasFlag prot protExec then pfX else 0)

/-- `PF_*` bits to `PROT_*` bits, as `mmu_w_slow` restores the source page. -/
def protOfPf (flags : U32) : U32 :=
  (if hasFlag flags pfR then protRead else 0) |||
  (if hasFlag flags pfW then protWrite else 0) |||
  (if hasFlag flags pfX then protExec else 0)

/-! ## The host -/

structure HostPtr where
  region : ℕ
  off : ℕ
deriving DecidableEq, Repr

def HostPtr.add (p : HostPtr) (k : ℕ) : HostPtr := ⟨p.region, p.off + k⟩

@[simp] theorem HostPtr.add_region (p : HostPtr) (k : ℕ) : (p.add k).region = p.region := rfl
@[simp] theorem HostPtr.add_off (p : HostPtr) (k : ℕ) : (p.add k).off = p.off + k := rfl

/-- Host memory: the bytes of each allocation, which of them are still mapped and with
which `PROT_*` bits, and the next unused allocation. -/
structure Host where
  bytes : ℕ → ℕ → Byte
  mapped : ℕ → ℕ → Bool
  prot : ℕ → ℕ → U32
  next : ℕ

/-- What the host answers during one operation: `none` is success, `some e` the `errno`. -/
structure HostEnv where
  mmapErr : Option ℕ+
  mprotectErr : HostPtr → ℕ → U32 → Option ℕ+

namespace Host

def byte (h : Host) (p : HostPtr) : Byte := h.bytes p.region p.off

/-- Bytes of the range `[p, p + size)`, extended to the end of the last page. -/
def inPages (p : HostPtr) (size : ℕ) (r o : ℕ) : Bool :=
  r == p.region && decide (p.off ≤ o) &&
    decide (o < (p.off + size + (pageSize - 1)) / pageSize * pageSize)

/-- `mmap(nullptr, len, prot, ..)` when it succeeds; `init` is the content of the mapped
object (zeros, or the file from `offset` on). -/
def mmap (h : Host) (len : ℕ) (prot : U32) (init : ℕ → Byte) : HostPtr × Host :=
  let p : HostPtr := ⟨h.next, 0⟩
  (p, { bytes := update h.bytes h.next init
        mapped := update h.mapped h.next (fun o => inPages p len h.next o)
        prot := update h.prot h.next (fun _ => prot)
        next := h.next + 1 })

/-- `munmap(p, size)`: fails without effect at an unaligned address. -/
def munmap (h : Host) (p : HostPtr) (size : ℕ) : Host :=
  if p.off % pageSize = 0 then
    { h with mapped := fun r o => h.mapped r o && !inPages p size r o }
  else h

/-- `mprotect(p, size, prot)`; an unaligned address is `EINVAL`. -/
def mprotect (h : Host) (env : HostEnv) (p : HostPtr) (size : ℕ) (prot : U32) :
    Option ℕ+ × Host :=
  if p.off % pageSize ≠ 0 then (some 22, h)
  else match env.mprotectErr p size prot with
    | some e => (some e, h)
    | none => (none, { h with prot := fun r o => if inPages p size r o then prot else h.prot r o })

/-- `memcpy(p, src, size)` between two allocations. -/
def memcpy (h : Host) (p src : HostPtr) (size : ℕ) : Host :=
  { h with bytes := fun r o =>
      if r = p.region ∧ p.off ≤ o ∧ o < p.off + size
        then h.bytes src.region (src.off + (o - p.off)) else h.bytes r o }

/-- A store of consecutive bytes through a host pointer. -/
def store (h : Host) (p : HostPtr) (bs : List Byte) : Host :=
  { h with bytes := fun r o =>
      if r = p.region ∧ p.off ≤ o ∧ o < p.off + bs.length
        then bs.getD (o - p.off) 0 else h.bytes r o }

/-- A load of consecutive bytes through a host pointer. -/
def load (h : Host) (p : HostPtr) (n : ℕ) : List Byte :=
  (List.range n).map fun i => h.byte (p.add i)

theorem load_add (h : Host) (p : HostPtr) (m n : ℕ) :
    h.load p (m + n) = h.load p m ++ h.load (p.add m) n := by
  simp [load, List.range_add, HostPtr.add, Nat.add_assoc]

end Host

/-! ## Segments, control blocks, TLB entries -/

/-- `struct memmap`. `owned` and `dsize` are the fields of the `DataDeleter` of `data`,
`cowData` the control block of `cow_data`; `path` is read by `/proc` only. -/
structure Memmap where
  paddr : ℕ
  size : ℕ
  flags : U32
  data : HostPtr
  owned : Bool
  dsize : ℕ
  cowData : Option ℕ
deriving DecidableEq

/-- End of the segment as the source computes it, in `uint64_t`. -/
def Memmap.uend (m : Memmap) : ℕ := uadd m.paddr m.size

/-- The pointer and the `DataDeleter` inside a `shared_ptr` control block. -/
structure CowBlock where
  ptr : HostPtr
  size : ℕ
  owned : Bool

structure TlbEntry where
  guestBase : ℕ
  guestEnd : ℕ
  hostBase : Option HostPtr
  flags : U32
  cow : Bool

def TlbEntry.zero : TlbEntry := ⟨0, 0, none, 0, false⟩

def TlbEntry.ofMap (m : Memmap) : TlbEntry :=
  ⟨m.paddr, m.uend, some m.data, m.flags, m.cowData.isSome⟩

def tlbSize : ℕ := 2048

def tlbIndex (addr : ℕ) : ℕ := ((addr >>> 12) ^^^ (addr >>> 20)) % tlbSize

/-- Host memory together with the control blocks of the shared pages. -/
structure Heap where
  host : Host
  cows : ℕ → CowBlock
  nextCow : ℕ

/-- The memory-related part of a `vm`: its container of segments, its TLB, its thread
group, the address `fini` clears, and whether its `run` loop is still going. -/
structure Vm where
  space : ℕ
  tlb : ℕ → TlbEntry
  group : ℕ
  tidAddress : ℕ
  running : Bool

structure State where
  heap : Heap
  spaces : ℕ → List Memmap
  nextSpace : ℕ
  vms : ℕ → Vm
  nextVm : ℕ

namespace State

def host (s : State) : Host := s.heap.host

def maps (s : State) (v : ℕ) : List Memmap := s.spaces (s.vms v).space

def setMaps (s : State) (v : ℕ) (ml : List Memmap) : State :=
  { s with spaces := update s.spaces (s.vms v).space ml }

def setHeap (s : State) (heap : Heap) : State := { s with heap := heap }

def setHost (s : State) (h : Host) : State := s.setHeap { s.heap with host := h }

def setVm (s : State) (v : ℕ) (x : Vm) : State := { s with vms := update s.vms v x }

/-- `vm::flush_tlb`. -/
def flushTlb (s : State) (v : ℕ) : State :=
  s.setVm v { s.vms v with tlb := fun _ => TlbEntry.zero }

def setTlb (s : State) (v i : ℕ) (e : TlbEntry) : State :=
  s.setVm v { s.vms v with tlb := update (s.vms v).tlb i e }

/-- All segments of all containers. -/
def segs (s : State) : List Memmap := (List.range s.nextSpace).flatMap s.spaces

/-- `shared_ptr::use_count` of a control block. -/
def useCount (s : State) (c : ℕ) : ℕ := s.segs.countP fun m => m.cowData == some c

/-- Destruction of a `memmap` that has left its container: the owning `data` unmaps its
pages, and the last reference to a control block runs the block's deleter. -/
def release (s : State) (m : Memmap) : State :=
  let s := if m.owned then s.setHost (s.host.munmap m.data m.dsize) else s
  match m.cowData with
  | none => s
  | some c =>
    if s.useCount c = 0 ∧ (s.heap.cows c).owned then
      s.setHeap { s.heap with
        host := s.host.munmap (s.heap.cows c).ptr (s.heap.cows c).size
        cows := update s.heap.cows c { s.heap.cows c with owned := false } }
    else s

end State
end Bpfvm.Memory
