import Bpfvm.Memory.Model

/-!
# Address translation and the address-space operations

`vm::mmu`, `vm::mmu_w` and their slow paths, `addmem`, `unmap`, `punch_hole`, `do_mmap`,
`do_munmap`, `do_mprotect`, and what `do_clone` and `fini` do to guest memory. Host calls
that can fail take their answer from a `HostEnv`.
-/
namespace Bpfvm.Memory
open Function

/-! ## Translation -/

/-- `vm::find_map_locked`. -/
def findMap (ml : List Memmap) (addr size : ℕ) : Option Memmap :=
  if uadd addr size < addr then none
  else match Segments.lastBelow Memmap.paddr ml addr with
    | none => none
    | some m => if uadd addr size ≤ m.uend then some m else none

/-- The segment after it has taken its pages over from the control block. -/
def Memmap.stolen (m : Memmap) : Memmap := { m with cowData := none, owned := true }

/-- The segment after it has moved to its own copy `p`. -/
def Memmap.copied (m : Memmap) (p : HostPtr) : Memmap :=
  { m with data := p, owned := true, dsize := m.size, cowData := none }

/-- `PROT_READ | PROT_WRITE`, with `PROT_EXEC` for an executable segment. -/
def Memmap.copyProt (m : Memmap) : U32 :=
  protRead ||| protWrite ||| (if hasFlag m.flags pfX then protExec else 0)

/-- The host calls of the copy branch of `mmu_w_slow`: new pages, then the source is made
readable for the copy, since its host protection may lag behind the guest's. -/
def Host.copySegment (env : HostEnv) (h : Host) (m : Memmap) : Option HostPtr × Host :=
  if env.mmapErr.isSome then (none, h)
  else
    let (p, h) := h.mmap m.size m.copyProt (fun _ => 0)
    match h.mprotect env m.data m.size protRead with
    | (some _, h) => (none, h.munmap p m.size)
    | (none, h) =>
      let h := h.memcpy p m.data m.size
      (some p, (h.mprotect env m.data m.size (protOfPf m.flags)).2)

namespace State

/-- `vm::mmu_slow`. -/
def mmuSlow (s : State) (v addr size : ℕ) : Option HostPtr × State :=
  match findMap (s.maps v) addr size with
  | none => (none, s)
  | some m => (some (m.data.add (addr - m.paddr)),
      s.setTlb v (tlbIndex addr) (TlbEntry.ofMap m))

/-- `vm::mmu`. -/
def mmu (s : State) (v addr size : ℕ) : Option HostPtr × State :=
  if uadd addr size < addr then (none, s)
  else
    let entry := (s.vms v).tlb (tlbIndex addr)
    if entry.guestBase ≤ addr ∧ uadd addr size ≤ entry.guestEnd then
      (entry.hostBase.map (·.add (addr - entry.guestBase)), s)
    else s.mmuSlow v addr size

/-- `mmu_w_slow`, unique reference: the block gives the pages up, `data` owns them. -/
def stealPages (s : State) (v addr : ℕ) (m : Memmap) (c : ℕ) : Option Memmap × State :=
  let heap := { s.heap with
    cows := update s.heap.cows c { s.heap.cows c with owned := false } }
  let ml := Segments.replaceBelow Memmap.paddr (s.maps v) addr m.stolen
  (some m.stolen, ((s.setHeap heap).setMaps v ml).flushTlb v)

/-- `mmu_w_slow`, shared pages: the segment moves to a copy. -/
def copyPages (env : HostEnv) (s : State) (v addr : ℕ) (m : Memmap) : Option Memmap × State :=
  match s.host.copySegment env m with
  | (none, h) => (none, s.setHost h)
  | (some p, h) =>
    let ml := Segments.replaceBelow Memmap.paddr (s.maps v) addr (m.copied p)
    (some (m.copied p), ((s.setHost h).setMaps v ml).flushTlb v)

/-- The copy-on-write part of `mmu_w_slow` for the segment `m` found at `addr`. -/
def resolveCow (env : HostEnv) (s : State) (v addr : ℕ) (m : Memmap) : Option Memmap × State :=
  match m.cowData with
  | none => (some m, s)
  | some c => if s.useCount c = 1 then s.stealPages v addr m c else s.copyPages env v addr m

/-- `vm::mmu_w_slow`. -/
def mmuWSlow (env : HostEnv) (s : State) (v addr size : ℕ) : Option HostPtr × State :=
  match findMap (s.maps v) addr size with
  | none => (none, s)
  | some m =>
    if hasFlag m.flags pfW then
      match s.resolveCow env v addr m with
      | (none, s) => (none, s)
      | (some m, s) => (some (m.data.add (addr - m.paddr)),
          s.setTlb v (tlbIndex addr) (TlbEntry.ofMap m))
    else (none, s)

/-- `vm::mmu_w`. -/
def mmuW (env : HostEnv) (s : State) (v addr size : ℕ) : Option HostPtr × State :=
  if uadd addr size < addr then (none, s)
  else
    let entry := (s.vms v).tlb (tlbIndex addr)
    if entry.guestBase ≤ addr ∧ uadd addr size ≤ entry.guestEnd ∧
        hasFlag entry.flags pfW = true ∧ entry.cow = false then
      (entry.hostBase.map (·.add (addr - entry.guestBase)), s)
    else s.mmuWSlow env v addr size

/-- A guest store: `mmu_w`, then the bytes through the host pointer. The flag tells
whether the translation succeeded. -/
def storeBytes (env : HostEnv) (s : State) (v addr : ℕ) (bs : List Byte) : Bool × State :=
  match s.mmuW env v addr bs.length with
  | (none, s) => (false, s)
  | (some p, s) => (true, s.setHost (s.host.store p bs))

/-! ## Editing the container -/

/-- `vm::addmem`. -/
def addmem (s : State) (v : ℕ) (m : Memmap) : State :=
  (s.setMaps v (Segments.insertBefore Memmap.paddr (s.maps v) m)).flushTlb v

/-- `vm::unmap`. -/
def unmap (s : State) (v addr : ℕ) : Bool × State :=
  match (s.maps v).find? (fun m => addr == m.paddr) with
  | none => (false, s)
  | some m =>
    let ml := (s.maps v).eraseP (fun m => addr == m.paddr)
    (true, ((s.setMaps v ml).release m).flushTlb v)

/-- `do_munmap`. -/
def doMunmap (s : State) (v addr : ℕ) : Int × State :=
  match s.unmap v addr with
  | (false, s) => (-22, s)
  | (true, s) => (0, s)

end State

/-- Ownership of the host pages of an owned segment moves into a new control block; the
block of code shared by `punch_hole`, `do_mprotect` and `do_clone`. -/
def shareHost (h : Heap) (m : Memmap) : Heap × Memmap :=
  if m.cowData = none ∧ m.owned = true then
    ({ h with
        cows := update h.cows h.nextCow ⟨m.data, m.dsize, true⟩
        nextCow := h.nextCow + 1 },
      { m with cowData := some h.nextCow, owned := false })
  else (h, m)

/-- A part of the segment that holds the same control block. -/
def Memmap.part (m : Memmap) (paddr size : ℕ) (flags : U32) : Memmap :=
  { paddr := paddr
    size := size
    flags := flags
    data := m.data.add (usub paddr m.paddr)
    owned := false
    dsize := size
    cowData := m.cowData }

/-- The parts of an overlapping segment that `punch_hole` keeps. -/
def punchParts (m : Memmap) (base stop : ℕ) : List Memmap :=
  (if m.paddr < base then [m.part m.paddr (usub base m.paddr) m.flags] else []) ++
  (if stop < m.uend then [m.part stop (usub m.uend stop) m.flags] else [])

/-- `punch_hole`: the kept segments and the ones destroyed. -/
def punchHole (base stop : ℕ) : Heap → List Memmap → Heap × List Memmap × List Memmap
  | h, [] => (h, [], [])
  | h, m :: ml =>
    if stop ≤ m.paddr ∨ m.uend ≤ base then
      let (h, out, dropped) := punchHole base stop h ml
      (h, m :: out, dropped)
    else
      let (h, m) := shareHost h m
      let (h, out, dropped) := punchHole base stop h ml
      (h, punchParts m base stop ++ out, m :: dropped)

/-- The arguments of `do_mmap`; `fdOk` says that `fd` is open, and `init` is the content
of the file from `offset` on (zeros for an anonymous mapping). -/
structure MmapArgs where
  addr : ℕ
  len : ℕ
  prot : U32
  flags : U32
  fdOk : Bool
  init : ℕ → Byte

def MmapArgs.fixed (a : MmapArgs) : Bool := hasFlag a.flags mapFixed

/-- The segment `do_mmap` creates at `paddr` over the fresh pages `p`. -/
def MmapArgs.segment (a : MmapArgs) (paddr : ℕ) (p : HostPtr) : Memmap :=
  { paddr := paddr
    size := roundUp a.len
    flags := pfOfProt a.prot
    data := p
    owned := true
    dsize := roundUp a.len
    cowData := none }

namespace State

/-- `do_mmap` with `MAP_FIXED`, once the host pages `p` exist. -/
def mapFixed (s : State) (v : ℕ) (a : MmapArgs) (p : HostPtr) : State :=
  let (heap, kept, dropped) := punchHole a.addr (uadd a.addr (roundUp a.len)) s.heap (s.maps v)
  let s := dropped.foldl release ((s.setHeap heap).setMaps v kept)
  ((s.flushTlb v).addmem v (a.segment a.addr p)).flushTlb v

/-- `do_mmap` without `MAP_FIXED`: the new segment goes behind the last one. On an empty
container `ml.back()` is undefined and there is no result. -/
def mapTail (s : State) (v : ℕ) (a : MmapArgs) (p : HostPtr) : Option (ℕ × State) :=
  match (s.maps v).getLast? with
  | none => none
  | some back =>
    let paddr := roundUp (uadd back.paddr back.size)
    let ml := Segments.insertBefore Memmap.paddr (s.maps v) (a.segment paddr p)
    some (paddr, (s.setMaps v ml).flushTlb v)

/-- `do_mmap`. -/
def doMmap (env : HostEnv) (s : State) (v : ℕ) (a : MmapArgs) :
    Option (Except Int ℕ × State) :=
  if roundUp a.len = 0 then some (.error (-22), s)
  else if a.fixed = true ∧ a.addr % pageSize ≠ 0 then some (.error (-22), s)
  else if hasFlag a.flags mapAnonymous = false ∧ a.fdOk = false then some (.error (-9), s)
  else match env.mmapErr with
    | some e => some (.error (-(e : ℕ)), s)
    | none =>
      let (p, h) := s.host.mmap (roundUp a.len) a.prot a.init
      let s := s.setHost h
      if a.fixed then some (.ok a.addr, s.mapFixed v a p)
      else (s.mapTail v a p).map fun (paddr, s) => (.ok paddr, s)

end State

/-- How the loop of `do_mprotect` ends: at the end of the container, with the `any` flag,
or at a `return` in the loop body. -/
inductive LoopEnd where
  | done (any : Bool)
  | failed (code : Int)
deriving DecidableEq

/-- `mprotect` on the host pages, called for owned pages only. -/
def hostProtect (env : HostEnv) (own : Bool) (h : Heap) (p : HostPtr) (size : ℕ)
    (prot : U32) : Option ℕ+ × Heap :=
  if own then
    let (e, host) := h.host.mprotect env p size prot
    (e, { h with host := host })
  else (none, h)

def kProtMask : U32 := pfR ||| pfW ||| pfX

def Memmap.withProt (m : Memmap) (newFlags : U32) : U32 :=
  (m.flags &&& ~~~kProtMask) ||| newFlags

/-- The parts `do_mprotect` puts in place of a segment that sticks out of the range. -/
def mprotectParts (m : Memmap) (subLo subHi : ℕ) (newFlags : U32) : List Memmap :=
  (if m.paddr < subLo then [m.part m.paddr (usub subLo m.paddr) m.flags] else []) ++
  m.part subLo (usub subHi subLo) (m.withProt newFlags) ::
  (if subHi < m.uend then [m.part subHi (usub m.uend subHi) m.flags] else [])

/-- The loop of `do_mprotect` over the container, restarting at `0` after a split. -/
def mprotectLoop (env : HostEnv) (lo hi : ℕ) (prot : U32) :
    ℕ → Heap → List Memmap → ℕ → Bool → Option (LoopEnd × Heap × List Memmap)
  | 0, _, _, _, _ => none
  | fuel + 1, h, ml, i, any =>
    match ml[i]? with
    | none => some (.done any, h, ml)
    | some m =>
      if hi ≤ m.paddr ∨ m.uend ≤ lo then mprotectLoop env lo hi prot fuel h ml (i + 1) any
      else
        let newFlags := pfOfProt prot
        let subLo := max lo m.paddr
        let subHi := min hi m.uend
        if hasFlag m.flags pfX = true ∧ hasFlag newFlags pfX = false then
          some (.failed (-13), h, ml)
        else if m.paddr < subLo ∨ subHi < m.uend then
          let (h, m') := shareHost h m
          match hostProtect env m.owned h (m'.data.add (usub subLo m.paddr))
              (usub subHi subLo) prot with
          | (some e, h) => some (.failed (-(e : ℕ)), h, ml.set i m')
          | (none, h) =>
            mprotectLoop env lo hi prot fuel h
              (ml.take i ++ (mprotectParts m' subLo subHi newFlags ++ ml.drop (i + 1))) 0 true
        else if newFlags = m.flags &&& kProtMask then
          mprotectLoop env lo hi prot fuel h ml (i + 1) true
        else match hostProtect env m.owned h m.data m.size prot with
          | (some e, h) => some (.failed (-(e : ℕ)), h, ml)
          | (none, h) =>
            mprotectLoop env lo hi prot fuel h
              (ml.set i { m with flags := m.withProt newFlags }) (i + 1) true

namespace State

/-- `do_mprotect`. A `return` inside the loop leaves the TLB as it is. -/
def doMprotect (env : HostEnv) (fuel : ℕ) (s : State) (v addr len : ℕ) (prot : U32) :
    Option (Int × State) :=
  match mprotectLoop env addr (uadd addr len) prot fuel s.heap (s.maps v) 0 false with
  | none => none
  | some (.failed code, h, ml) => some (code, (s.setHeap h).setMaps v ml)
  | some (.done any, h, ml) =>
    some (if any then 0 else -12, ((s.setHeap h).setMaps v ml).flushTlb v)

end State

/-! ## Processes -/

/-- The segment a forked child gets for a (shared) segment of its parent. -/
def Memmap.forked (m : Memmap) : Memmap := { m with owned := false, dsize := m.size }

/-- The loop of `do_clone` over the parent's container: every segment becomes shared. -/
def cloneMaps : Heap → List Memmap → Heap × List Memmap
  | h, [] => (h, [])
  | h, m :: ml =>
    let (h, m) := shareHost h m
    let (h, out) := cloneMaps h ml
    (h, m :: out)

/-- The arguments of `do_clone` that matter to guest memory. `parentSettid`, `childSettid`
and `childCleartid` hold the address when the flag is given, `tid` is the value written
there, and `started` says whether the host thread could be created. -/
structure CloneArgs where
  shareVm : Bool
  isThread : Bool
  stack : ℕ
  parentSettid : Option ℕ
  childSettid : Option ℕ
  childCleartid : Option ℕ
  tid : List Byte
  started : Bool

namespace State

/-- `flush_tlb` on every member of the thread group. -/
def flushGroup (s : State) (g : ℕ) : State :=
  { s with vms := fun u =>
      if (s.vms u).group = g then { s.vms u with tlb := fun _ => TlbEntry.zero } else s.vms u }

/-- A new container. -/
def addSpace (s : State) (ml : List Memmap) : State :=
  { s with spaces := update s.spaces s.nextSpace ml, nextSpace := s.nextSpace + 1 }

/-- The new vm of `do_clone`, with its container. -/
def spawn (s : State) (v : ℕ) (a : CloneArgs) (space : ℕ) : State :=
  { s with
    vms := update s.vms s.nextVm
      { space := space
        tlb := fun _ => TlbEntry.zero
        group := if a.isThread then (s.vms v).group else s.nextVm
        tidAddress := a.childCleartid.getD 0
        running := true }
    nextVm := s.nextVm + 1 }

/-- The address-space part of `do_clone`: share the container, or copy it on write. -/
def cloneSpace (s : State) (v : ℕ) (a : CloneArgs) : State :=
  if a.shareVm then (s.spawn v a (s.vms v).space).flushTlb v
  else
    let (heap, parent) := cloneMaps s.heap (s.maps v)
    let child := (parent.map Memmap.forked).foldl (Segments.insertBefore Memmap.paddr) []
    let s₁ := ((s.setHeap heap).setMaps v parent).addSpace child
    (s₁.spawn v a s.nextSpace).flushGroup (s.vms v).group

/-- The guest stores of `do_clone`, all through the parent: the sentinel frame on a new
stack and the two tids. A store whose translation fails is skipped. -/
def cloneStores (a : CloneArgs) : List (ℕ × List Byte) :=
  (if a.stack ≠ 0 then [(a.stack, List.replicate 8 (0 : Byte))] else []) ++
  (a.parentSettid.map (·, a.tid)).toList ++ (a.childSettid.map (·, a.tid)).toList

/-- Stores one after the other; the log holds the ones whose translation succeeded. -/
def storeAll (v : ℕ) (s : State) :
    List (HostEnv × ℕ × List Byte) → List (ℕ × List Byte) × State
  | [] => ([], s)
  | (env, addr, bs) :: rest =>
    let (ok, s) := s.storeBytes env v addr bs
    let (log, s) := storeAll v s rest
    (if ok then (addr, bs) :: log else log, s)

/-- Whether some vm still refers to the container. -/
def spaceInUse (s : State) (space : ℕ) : Bool :=
  (List.range s.nextVm).any fun u => (s.vms u).space == space

/-- The vm stops and lets go of its container: it gets an empty one, and the old one is
destroyed with its last holder. -/
def dropSpace (s : State) (v : ℕ) : State :=
  let old := (s.vms v).space
  let s₁ := (s.addSpace []).setVm v { s.vms v with space := s.nextSpace, running := false }
  if s₁.spaceInUse old then s₁
  else (s₁.spaces old).foldl release { s₁ with spaces := update s₁.spaces old [] }

/-- `do_clone`, with one host answer per guest store, and the stores it made. -/
def doClone (envs : ℕ → HostEnv) (s : State) (v : ℕ) (a : CloneArgs) :
    List (ℕ × List Byte) × State :=
  let child := s.nextVm
  let stores := (cloneStores a).mapIdx fun i w => (envs i, w)
  let (log, s) := (s.cloneSpace v a).storeAll v stores
  (log, if a.started then s else s.dropSpace child)

/-- `clear_child_tid`. -/
def clearChildTid (env : HostEnv) (s : State) (v : ℕ) : List (ℕ × List Byte) × State :=
  if (s.vms v).tidAddress = 0 then ([], s)
  else s.storeAll v [(env, (s.vms v).tidAddress, List.replicate 4 (0 : Byte))]

/-- `fini`: `clear_child_tid`, then the container is given back. -/
def fini (env : HostEnv) (s : State) (v : ℕ) : List (ℕ × List Byte) × State :=
  let (log, s) := s.clearChildTid env v
  (log, s.dropSpace v)

end State
end Bpfvm.Memory
