import Mathlib.Tactic.Common

/-!
# Bytes and errors of the system calls
-/
namespace Bpfvm.Posix

abbrev Byte := BitVec 8

/-- An error that `open` or `dup` of the host answers with; `ENOEXEC` is none of theirs. -/
abbrev HostErrno := { e : ℕ // e ≠ 0 ∧ e ≠ 8 }

/-- A handler that fails returns one of these, negated. -/
inductive Errno where
  | EPERM
  | ENOENT
  | ESRCH
  | EINTR
  | ENOEXEC
  | EBADF
  | ENOMEM
  | EFAULT
  | EINVAL
  | ENOTTY
  | ELOOP
  | host (e : HostErrno)
  deriving DecidableEq, Repr

def Errno.code : Errno → ℕ
  | EPERM => 1
  | ENOENT => 2
  | ESRCH => 3
  | EINTR => 4
  | ENOEXEC => 8
  | EBADF => 9
  | ENOMEM => 12
  | EFAULT => 14
  | EINVAL => 22
  | ENOTTY => 25
  | ELOOP => 40
  | host e => e

theorem Errno.code_ne_zero (e : Errno) : e.code ≠ 0 := by
  cases e with
  | host e => exact e.2.1
  | _ => exact Nat.succ_ne_zero _

end Bpfvm.Posix
