import Bpfvm.Memory.Access
import Bpfvm.Lib.LittleEndian

/-!
# The virtual machine and its stack frames

The registers, the program counter, the flags word and the restart and signal bookkeeping of
a `vm`, over the address spaces of `Bpfvm.Memory`; `push_frame`, `pop_frame` and
`frame_size_of`. What is outside one vm during a step (host calls, pending signals, system
calls) comes from a `World`.
-/
namespace Bpfvm.Cpu
open Memory

/-- One instruction slot, `bpf_insn`. -/
structure BpfInsn where
  code : BitVec 8
  dstReg : BitVec 4
  srcReg : BitVec 4
  off : BitVec 16
  imm : U32
  deriving DecidableEq, Repr

/-- The slot as it lies in memory; `dst_reg` is the low half of its byte. -/
def BpfInsn.bytes (i : BpfInsn) : List Byte :=
  [i.code, i.srcReg ++ i.dstReg] ++ LittleEndian.bytes 2 i.off.toNat ++
    LittleEndian.bytes 4 i.imm.toNat

def BpfInsn.ofBytes (bs : List Byte) : BpfInsn where
  code := bs.getD 0 0
  dstReg := (bs.getD 1 0).truncate 4
  srcReg := (bs.getD 1 0 >>> 4).truncate 4
  off := BitVec.ofNat 16 (LittleEndian.value ((bs.drop 2).take 2))
  imm := BitVec.ofNat 32 (LittleEndian.value ((bs.drop 4).take 4))

@[simp] theorem BpfInsn.length_bytes (i : BpfInsn) : i.bytes.length = 8 := by
  simp [BpfInsn.bytes]

theorem truncate_nibbles : ∀ hi lo : BitVec 4, (hi ++ lo : Byte).truncate 4 = lo ∧
    ((hi ++ lo : Byte) >>> 4).truncate 4 = hi := by
  decide

theorem BpfInsn.ofBytes_bytes (i : BpfInsn) : BpfInsn.ofBytes i.bytes = i := by
  obtain ⟨code, dst, src, off, imm⟩ := i
  have hoff : LittleEndian.value (LittleEndian.bytes 2 off.toNat) = off.toNat := by
    rw [LittleEndian.value_bytes]
    exact Nat.mod_eq_of_lt off.isLt
  have himm : LittleEndian.value (LittleEndian.bytes 4 imm.toNat) = imm.toNat := by
    rw [LittleEndian.value_bytes]
    exact Nat.mod_eq_of_lt imm.isLt
  obtain ⟨hdst, hsrc⟩ := truncate_nibbles src dst
  simp only [BpfInsn.ofBytes, BpfInsn.bytes, BpfInsn.mk.injEq]
  refine ⟨rfl, hdst, hsrc, ?_, ?_⟩
  · rw [show ((([code, src ++ dst] ++ LittleEndian.bytes 2 off.toNat ++
        LittleEndian.bytes 4 imm.toNat).drop 2).take 2) = LittleEndian.bytes 2 off.toNat from rfl,
      hoff]
    exact BitVec.ofNat_toNat 16 off
  · rw [show ((([code, src ++ dst] ++ LittleEndian.bytes 2 off.toNat ++
        LittleEndian.bytes 4 imm.toNat).drop 4).take 4) = LittleEndian.bytes 4 imm.toNat from rfl,
      himm]
    exact BitVec.ofNat_toNat 32 imm

/-! ## The machine -/

def vmExited : U32 := 0x1
def vmStopped : U32 := 0x2
def vmKilled : U32 := 0x4
def vmBudgetExceeded : U32 := 0x10
def vmJitAbort : U32 := 0x100

theorem or_vmJitAbort (f : U32) : (f ||| vmJitAbort) &&& vmJitAbort ≠ 0 := by
  intro h
  have hbit := congrArg (fun x => x.getLsbD 8) h
  simp [vmJitAbort] at hbit

/-- The state of one vm: `r0` .. `r10`, `pc_`, `flags`, `signal_depth`, the pending restart
(`restart_syscall_pc_`, 0 for none), the signal mask, the instruction count and the memory of
all vms. -/
structure Machine where
  reg : ℕ → U64
  pc : U64
  flags : U32
  signalDepth : U64
  restartPc : U64
  restartNohand : Bool
  sigmask : U64
  insnCount : ℕ
  mem : Memory.State

/-- The vm's number, its options, and what the host answers. -/
structure Setup where
  vm : ℕ
  env : HostEnv
  stackLimit : U64
  insnLimit : ℕ

namespace Machine

def setReg (m : Machine) (k : ℕ) (x : U64) : Machine :=
  { m with reg := Function.update m.reg k x }

/-- `mmu`, and the bytes behind the pointer. -/
def load (c : Setup) (m : Machine) (a : U64) (n : ℕ) : Option (List Byte) × Machine :=
  let r := m.mem.loadBytes c.vm a.toNat n
  (r.1, { m with mem := r.2 })

/-- `mmu_w`, and a store through the pointer. -/
def store (c : Setup) (m : Machine) (a : U64) (bs : List Byte) : Bool × Machine :=
  let r := m.mem.storeBytes c.env c.vm a.toNat bs
  (r.1, { m with mem := r.2 })

end Machine

section
variable {c : Setup} {m : Machine}

theorem load_refilled (hs : Sound m.mem c.vm) (x : U64) (n : ℕ) :
    ∃ mem, (m.load c x n).2 = { m with mem := mem } ∧ Refilled m.mem mem c.vm := by
  refine ⟨(m.mem.loadBytes c.vm x.toNat n).2, rfl, ?_⟩
  have hr := refilled_mmu hs x.toNat n
  unfold State.loadBytes
  generalize m.mem.mmu c.vm x.toNat n = r at hr ⊢
  obtain ⟨_ | p, mem⟩ := r
  · exact hr
  · exact hr

/-- The bytes a load finds depend on the segments and the host memory only. -/
theorem load_fst (hs : Sound m.mem c.vm) (x : U64) {n : ℕ} (hn : 0 < n)
    (hn' : n < 2 ^ 64) : (m.load c x n).1 =
      (lookup (m.mem.maps c.vm) x.toNat n).map fun p => m.mem.host.load p n := by
  have hfst := mmu_fst hs.mapsOk hs.tlb x.isLt hn hn'
  have hr := refilled_mmu hs x.toNat n
  rw [← hfst, Machine.load, State.loadBytes]
  generalize m.mem.mmu c.vm x.toNat n = r at hr ⊢
  obtain ⟨_ | p, mem⟩ := r
  · rfl
  · simp [hr.host]

theorem load_fst_of_refilled {mem : State} (hs : Sound m.mem c.vm)
    (hr : Refilled m.mem mem c.vm) (x : U64) {n : ℕ} (hn : 0 < n) (hn' : n < 2 ^ 64) :
    (({ m with mem := mem } : Machine).load c x n).1 = (m.load c x n).1 := by
  rw [load_fst hs x hn hn', load_fst (m := { m with mem := mem }) hr.sound x hn hn']
  simp only [hr.maps, hr.host]

theorem load_of_mapped (hs : Sound m.mem c.vm) {x : U64} {n : ℕ}
    (hm : Mapped m.mem c.vm x.toNat n) (hn : 0 < n) :
    ∃ bs mem, m.load c x n = (some bs, { m with mem := mem }) ∧
      FlatMemory.read (m.mem.view c.vm) x.toNat n = some bs ∧ Refilled m.mem mem c.vm := by
  obtain ⟨bs, mem, hload, hread, hr⟩ := loadBytes_of_mapped hs hm hn
  refine ⟨bs, mem, ?_, hread, hr⟩
  rw [Machine.load, hload]

end

/-- The 64-bit word at byte offset `k`. -/
def word (bs : List Byte) (k : ℕ) : U64 :=
  BitVec.ofNat 64 (LittleEndian.value ((bs.drop k).take 8))

/-! ## Frame headers -/

def stackBase : U64 := 0x10000000
def normalFrameSize : ℕ := 64
def signalFrameSize : ℕ := 128
def siginfoFrameSiOff : ℕ := signalFrameSize
def siginfoFrameUcOff : ℕ := siginfoFrameSiOff + 128
def signalFrameSiginfoSize : ℕ := siginfoFrameUcOff + 264

def frameFlagSignal : U64 := 1 <<< 48
def frameFlagSiginfo : U64 := 1 <<< 49
def frameSizeMask : U64 := 0xFFFFFF
def frameAllocaMask : U64 := 0xFFFFFF

/-- `frame_flags_make`. -/
def frameFlagsMake (isSignal : Bool) (stackSize allocaLen : U64) : U64 :=
  (stackSize &&& frameSizeMask) ||| ((allocaLen <<< 24) &&& (frameAllocaMask <<< 24)) |||
    (if isSignal then frameFlagSignal else 0)

def frameIsSignal (flags : U64) : Bool := flags &&& frameFlagSignal != 0
def frameHasSiginfo (flags : U64) : Bool := flags &&& frameFlagSiginfo != 0
def frameStackSize (flags : U64) : U64 := flags &&& frameSizeMask
def frameAllocaLen (flags : U64) : U64 := (flags >>> 24) &&& frameAllocaMask
def frameTotalLen (flags : U64) : U64 := frameStackSize flags + frameAllocaLen flags

/-- The total length in a frame header, 0 for an unreadable one. -/
def headerLen : Option (List Byte) → U64
  | none => 0
  | some bs => frameTotalLen (word bs 0)

/-- The size of the frame that `push_frame` makes. -/
def frameSize (isSignal saSiginfo : Bool) : ℕ :=
  if isSignal then (if saSiginfo then signalFrameSiginfoSize else signalFrameSize)
  else normalFrameSize

def frameSlotMagic : U64 := 0x6270766D
def frameSlotSizeMask : U64 := 0xFFFFFFFF
def frameSlotFallback : U64 := 0xFFFFFFFF

namespace Machine

/-- The loop of `log_mem_violation` that walks up the frames; only its translations are
visible later. -/
def backtrace (c : Setup) : ℕ → U64 → Machine → Machine
  | 0, _, m => m
  | fuel + 1, sp, m =>
    if sp = 0 then m
    else match m.load c sp 128 with
      | (none, m) => m
      | (some frame, m) =>
        let oldSp := word frame 8
        if oldSp = 0 ∨ oldSp.toNat ≤ sp.toNat ∨ word frame 16 = 0 then m
        else backtrace c fuel oldSp m

/-- `log_mem_violation`: every violation is fatal. -/
def logMemViolation (c : Setup) (m : Machine) : Machine :=
  let m := backtrace c 64 (m.reg 10) m
  ({ m with flags := m.flags ||| vmKilled } : Machine).setReg 0 (128 + 9)

/-- `frame_size_of`: the size in the slot before the callee's entry. -/
def frameSizeOf (c : Setup) (m : Machine) (entry : U64) : U64 × Machine :=
  if entry.toNat < 8 then (c.stackLimit, m)
  else
    let slot := entry - 8
    match m.load c slot 8 with
    | (none, m) => (c.stackLimit, m)
    | (some bs, m) =>
      let e := (m.mem.vms c.vm).tlb (tlbIndex slot.toNat)
      if e.guestEnd ≤ entry.toNat then (c.stackLimit, m)
      else if !hasFlag e.flags pfX then (c.stackLimit, m)
      else
        let x := word bs 0
        if x >>> 32 ≠ frameSlotMagic ∨ x &&& frameSlotSizeMask = frameSlotFallback then
          (c.stackLimit, m)
        else (x &&& frameSlotSizeMask, m)

/-- The words `push_frame` writes from the frame base on. -/
def frameWords (m : Machine) (isSignal saSiginfo : Bool) (limit ret : U64) :
    List U64 :=
  [frameFlagsMake isSignal limit 0 ||| (if saSiginfo then frameFlagSiginfo else 0),
    m.reg 10, ret, m.reg 6, m.reg 7, m.reg 8, m.reg 9] ++
  if isSignal then [m.reg 0, m.reg 1, m.reg 2, m.reg 3, m.reg 4, m.reg 5] else []

/-- `push_frame`. -/
def pushFrame (c : Setup) (m : Machine) (ret entry : U64) (isSignal saSiginfo : Bool) :
    Bool × Machine :=
  let (header, m) := m.load c (m.reg 10) 8
  let sp := m.reg 10 - headerLen header
  let base := sp - BitVec.ofNat 64 (frameSize isSignal saSiginfo)
  if base.toNat < stackBase.toNat then (false, logMemViolation c m)
  else match m.mem.mmuW c.env c.vm base.toNat (frameSize isSignal saSiginfo) with
    | (none, mem) => (false, logMemViolation c { m with mem := mem })
    | (some p, mem) =>
      let m := { m with mem := mem }
      let (limit, m) := frameSizeOf c m entry
      let ws := m.frameWords isSignal saSiginfo limit ret
      let mem := m.mem.setHost (m.mem.host.store p (ws.flatMap wordBytes))
      (true, ({ m with
          mem := mem
          signalDepth := if isSignal then m.signalDepth + 1 else m.signalDepth } :
          Machine).setReg 10 base)

end Machine

end Bpfvm.Cpu
