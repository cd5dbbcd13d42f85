import Bpfvm.Cpu.Machine

/-!
# Signal delivery and return

`deliver_signal` with `build_siginfo`, `pop_frame` with `sigreturn`, and `safepoint`. Which
signal `handle_signals` picks is part of the surroundings.
-/
namespace Bpfvm.Cpu
open Memory

/-- `sig_info`, as `handle_signals` fills it for a caught signal. -/
structure SigInfo where
  sig : U32
  handler : U64
  saFlags : U64
  siPid : U64
  siValue : U64
  siCode : U32
  siStatus : U32

def saRestart : U64 := 0x10000000
def saSiginfo : U64 := 4
def sigchld : U32 := 17
def eintr : U64 := 4

def SigInfo.restarts (i : SigInfo) : Bool := i.saFlags &&& saRestart != 0
def SigInfo.wantsSiginfo (i : SigInfo) : Bool := i.saFlags &&& saSiginfo != 0

/-- The answer of `handle_signals`: the group is terminated, there is nothing to deliver, or
a handler is to run. -/
inductive Handled where
  | fatal
  | none
  | handler (info : SigInfo)

def zeros (n : ℕ) : List Byte := List.replicate n 0

/-- `guest_siginfo` as `build_siginfo` fills it; `si_status` and `si_value` share offset 24. -/
def siginfoBytes (i : SigInfo) : List Byte :=
  LittleEndian.bytes 4 i.sig.toNat ++ zeros 4 ++ LittleEndian.bytes 4 i.siCode.toNat ++ zeros 4 ++
    LittleEndian.bytes 4 i.siPid.toNat ++ zeros 4 ++
    (if i.sig = sigchld then LittleEndian.bytes 4 i.siStatus.toNat ++ zeros 4
      else wordBytes i.siValue) ++ zeros 96

/-- `guest_ucontext`: 40 zero bytes, `gregs`, `uc_sigmask`. -/
def ucontextBytes (m : Machine) (pc sp : U64) : List Byte :=
  zeros 40 ++ ([m.reg 0, m.reg 1, m.reg 2, m.reg 3, m.reg 4, m.reg 5, m.reg 6, m.reg 7, m.reg 8,
    m.reg 9, sp, pc] : List U64).flatMap wordBytes ++ wordBytes m.sigmask ++ zeros 120

namespace Machine

/-- `build_siginfo`. Both pointers are taken before the first store; they are not tested. -/
def buildSiginfo (c : Setup) (m : Machine) (base : U64) (info : SigInfo)
    (pc sp : U64) : Machine :=
  let si := base + BitVec.ofNat 64 siginfoFrameSiOff
  let uc := base + BitVec.ofNat 64 siginfoFrameUcOff
  match m.mem.mmuW c.env c.vm si.toNat 128 with
  | (none, mem) => { m with mem := mem }
  | (some p, mem) =>
    match mem.mmuW c.env c.vm uc.toNat 264 with
    | (none, mem) => { m with mem := mem }
    | (some q, mem) =>
      let mem := mem.setHost (mem.host.store p (siginfoBytes info))
      { m with mem := mem.setHost (mem.host.store q (ucontextBytes m pc sp)) }

/-- The address a handler returns to, with the pending restart used up. -/
def takeRestart (m : Machine) (info : SigInfo) : U64 × Machine :=
  if m.restartPc = 0 then (m.pc, m)
  else
    let m' := { m with restartPc := 0, restartNohand := false }
    if info.restarts && !m.restartNohand then (m.restartPc, m')
    else (m.restartPc + 8, m'.setReg 0 (-eintr))

/-- The registers of a handler's entry. -/
def enterHandler (m : Machine) (info : SigInfo) : Machine :=
  let m := if info.wantsSiginfo then
      (m.setReg 2 (m.reg 10 + BitVec.ofNat 64 siginfoFrameSiOff)).setReg 3
        (m.reg 10 + BitVec.ofNat 64 siginfoFrameUcOff)
    else m
  { m.setReg 1 (info.sig.signExtend 64) with pc := info.handler }

/-- `deliver_signal`. -/
def deliverSignal (c : Setup) (m : Machine) : Handled → Bool × Machine
  | .fatal => (false, m)
  | .none =>
    (true, if m.restartPc = 0 then m
      else { m with pc := m.restartPc, restartPc := 0, restartNohand := false })
  | .handler info =>
    match m.load c info.handler 8 with
    | (none, m) => (false, m)
    | (some _, m) =>
      let (ret, m) := m.takeRestart info
      let sp := m.reg 10
      match pushFrame c m ret info.handler true info.wantsSiginfo with
      | (false, m) => (false, m)
      | (true, m) =>
        let m := if info.wantsSiginfo then buildSiginfo c m (m.reg 10) info ret sp else m
        (true, m.enterHandler info)

def sigkillBit : U64 := 1 <<< 8
def sigstopBit : U64 := 1 <<< 18

/-- `sigreturn`: everything comes from the `ucontext` on the frame, if it is readable. -/
def sigreturn (c : Setup) (m : Machine) (base fallback : U64) : U64 × Machine :=
  match m.load c (base + BitVec.ofNat 64 siginfoFrameUcOff) 264 with
  | (none, m) => (fallback, m)
  | (some uc, m) =>
    (word uc 128, { m with
      reg := fun k => if k ≤ 10 then word uc (40 + 8 * k) else m.reg k
      sigmask := word uc 136 &&& ~~~(sigkillBit ||| sigstopBit) })

/-- The registers `pop_frame` restores from the frame itself. -/
def restoreFrame (m : Machine) (frame : List Byte) : Machine :=
  let isSignal := frameIsSignal (word frame 0)
  { m with
    reg := fun k =>
      if 6 ≤ k ∧ k ≤ 9 then word frame (24 + 8 * (k - 6))
      else if k ≤ 5 ∧ isSignal then word frame (56 + 8 * k)
      else if k = 10 then word frame 8
      else m.reg k
    signalDepth := if isSignal then m.signalDepth - 1 else m.signalDepth }

/-- `pop_frame`; 0 is also the return address of the bottom frame. -/
def popFrame (c : Setup) (m : Machine) : U64 × Machine :=
  let sp := m.reg 10
  match m.load c sp 104 with
  | (none, m) => (0, m)
  | (some frame, m) =>
    let m := m.restoreFrame frame
    if frameIsSignal (word frame 0) && frameHasSiginfo (word frame 0) then
      sigreturn c m sp (word frame 16)
    else (word frame 16, m)

end Machine

/-- What happens around one safepoint: the answers of `handle_signals` and the flags with
which the stop loop is left. -/
structure SafepointWorld where
  first : Handled
  flags : U32
  second : Handled

/-- `safepoint`. -/
def Machine.safepoint (c : Setup) (w : SafepointWorld) (m : Machine) : Bool × Machine :=
  let m := { m with flags := m.flags &&& ~~~vmJitAbort }
  match (if m.signalDepth = 0 then m.deliverSignal c w.first else (true, m)) with
  | (false, m) => (false, m)
  | (true, m) =>
    let m := { m with flags := w.flags }
    if m.flags &&& (vmExited ||| vmKilled ||| vmBudgetExceeded) ≠ 0 then
      (false, if m.flags &&& vmKilled ≠ 0 then m.setReg 0 (128 + 9) else m)
    else m.deliverSignal c w.second

end Bpfvm.Cpu
