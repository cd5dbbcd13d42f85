import Bpfvm.Cpu.Native
import Bpfvm.Cpu.Transparency
import Bpfvm.Signal.Model

/-!
# The calls that set the mask

`do_sigprocmask`, `do_sigsetjmp`, `do_siglongjmp` and `do_sigsuspend` with what they read from guest
memory. The parameter `queued` tells whether there is an event in the queue of the thread.
-/
namespace Bpfvm.Signal
open Cpu

def einval : U64 := 22
def efault : U64 := 14

/-- `SIG_BLOCK`, `SIG_UNBLOCK` or `SIG_SETMASK`. -/
def How.ofArg (x : U64) : Option How :=
  match (x.truncate 32).toNat with
  | 0 => some .block
  | 1 => some .unblock
  | 2 => some .setmask
  | _ => none

/-- `parse_guest_sigset`. With `NSIG` at 65 all bits are valid. -/
def parseGuestSigset (c : Setup) (m : Machine) (set : U64) : Option U64 × Machine :=
  if set = 0 then (some 0, m)
  else
    match m.load c set 8 with
    | (none, m) => (none, m)
    | (some bs, m) => (some (word bs 0), m)

/-- The new mask is stored; events that were blocked may now be delivered. -/
def storeMask (m : Machine) (queued : Bool) (mask : U64) : Machine :=
  { m with
    sigmask := mask
    flags := if queued then m.flags ||| Machine.vmSignalPending else m.flags }

/-- The old mask, as a `sigset_t` of two words. -/
def storeOld (c : Setup) (m : Machine) (old : U64) : Bool × Machine :=
  if old = 0 then (true, m) else m.store c old (wordBytes m.sigmask ++ wordBytes 0)

def doSigprocmask (c : Setup) (queued : Bool) (m : Machine) : U64 × Machine :=
  match How.ofArg (m.reg 1) with
  | none => (-einval, m)
  | some how =>
    match parseGuestSigset c m (m.reg 2) with
    | (none, m) => (-efault, m)
    | (some bits, m) =>
      match storeOld c m (m.reg 3) with
      | (false, m) => (-efault, m)
      | (true, m) =>
        (0, if m.reg 2 = 0 then m else storeMask m queued (sigprocmask how m.sigmask bits))

/-- The words of a `sigjmp_buf`; the last one is written with `savemask` only. -/
def jmpBuf (m : Machine) (savemask : Bool) : List U64 :=
  [m.reg 6, m.reg 7, m.reg 8, m.reg 9, m.reg 10, m.pc, m.signalDepth, 0,
    if savemask then 1 else 0] ++
    if savemask then [m.sigmask] else []

def doSigsetjmp (c : Setup) (m : Machine) : U64 × Machine :=
  match m.mem.mmuW c.env c.vm (m.reg 1).toNat 80 with
  | (none, mem) => (-efault, { m with mem := mem })
  | (some p, mem) =>
    let savemask := (m.reg 2).truncate 32 != 0
    (0, { m with mem := mem.setHost (mem.host.store p ((jmpBuf m savemask).flatMap wordBytes)) })

/-- The registers, `pc_` and `signal_depth` from the buffer. -/
def restoreJmp (m : Machine) (env : List Memory.Byte) : Machine :=
  { m with
    reg := fun k =>
      if 6 ≤ k ∧ k ≤ 10 then word env (8 * (k - 6))
      else if k = 1 ∧ word env 56 ≠ 0 then word env 56
      else m.reg k
    pc := word env 40
    signalDepth := word env 48 }

def doSiglongjmp (c : Setup) (queued : Bool) (m : Machine) : U64 × Machine :=
  let x : U32 := (m.reg 2).truncate 32
  match m.load c (m.reg 1) 80 with
  | (none, m) => (-efault, m)
  | (some env, m) =>
    let m := restoreJmp m env
    (if x = 0 then 1 else x.signExtend 64,
      if word env 64 ≠ 0 then storeMask m queued (word env 72) else m)

/-- `do_sigsuspend`; its loop leaves the flags as `flags`. -/
def doSigsuspend (c : Setup) (flags : U32) (m : Machine) : U64 × Machine :=
  match parseGuestSigset c m (m.reg 1) with
  | (none, m) => (-efault, m)
  | (some mask, m) => (syscallRestartNohand, { m with sigmask := mask, flags := flags })

/-! ## The mask and the depth in delivery and return -/

section
variable {c : Setup} {m : Machine}

/-- Delivery leaves the mask, and adds one to the depth when it enters a handler. -/
theorem deliverSignal_sig (c : Setup) (m : Machine) (h : Handled) :
    (m.deliverSignal c h).2.sigmask = m.sigmask ∧
      ((m.deliverSignal c h).2.signalDepth = m.signalDepth ∨
        (∃ info, h = .handler info) ∧ (m.deliverSignal c h).1 = true ∧
        (m.deliverSignal c h).2.signalDepth = m.signalDepth + 1) := by
  cases h with
  | fatal => exact ⟨rfl, .inl rfl⟩
  | none =>
    simp only [Machine.deliverSignal]
    split <;> exact ⟨rfl, .inl rfl⟩
  | handler info =>
    rcases deliverSignal_handler c m info with
      ⟨-, hout⟩ | ⟨-, hmask, ⟨hok, -, hdepth⟩ | ⟨-, -, hdepth⟩⟩
    · rw [hout]
      exact ⟨rfl, .inl rfl⟩
    · exact ⟨hmask, .inr ⟨⟨info, rfl⟩, hok, hdepth⟩⟩
    · exact ⟨hmask, .inl hdepth⟩

end

end Bpfvm.Signal
