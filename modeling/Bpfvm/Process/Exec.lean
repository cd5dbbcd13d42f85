import Bpfvm.Cpu.Restart
import Bpfvm.Posix.Shebang

/-!
# `execveat`

`exec_common` behind its walk through the interpreters of scripts, and `setup_stack`. Opening a
path and `load_elf` are answers of the surroundings; everything they produce lives in the fresh vm
until the commit. The process is modelled with a single address space, in which it is vm 0.
-/
namespace Bpfvm.Exec
open Memory Cpu

abbrev Str := List Byte

/-- `std::map`, in the order of its keys. -/
abbrev Env := List (Str × Str)

def ofString (s : String) : Str := s.toList.map fun ch => BitVec.ofNat 8 ch.toNat

/-! ## Surroundings -/

/-- `ElfLoadInfo` with the segments that were added; `entry` is 0 after a failure. -/
structure ElfLoad where
  segs : List BootSeg
  entry : U64
  phdr : U64
  phent : U64
  phnum : U64
  ldsoBase : U64
  appEntry : U64
  err : ℕ

/-- What `exec_common` reads of an open host file: its bytes, and what `load_elf` makes of it for a
host path and an environment. -/
structure HostFile where
  content : Str
  load : Str → Env → ElfLoad

/-- The answer of `Path::open`. -/
inductive Opened where
  | host (file : HostFile) (path : Str)
  /-- A directory or a node of `/proc`. -/
  | virtual
  | failed (errno : Posix.HostErrno)

/-- The answers of the host during one `execveat`. -/
structure ExecWorld where
  env : HostEnv
  openAt : ℤ → Str → Opened
  dupErr : Option Posix.HostErrno
  lexicallyNormal : Str → Str
  stackMapped : Bool
  random : Option (List Byte)
  /-- The siblings have left before a signal interrupts the wait for them. -/
  gathered : Bool

/-! ## The process -/

structure Fd where
  cloexec : Bool
  path : Str
  host : Option HostFile

structure SignalAction where
  handler : U64
  mask : U64
  flags : U32

def sigDfl : U64 := 0
def sigIgn : U64 := 1

structure Image where
  entry : U64
  exe : Str

/-- A sibling thread, and whether `SIGKILL` has been queued for it. -/
structure Sibling where
  tid : ℕ
  killed : Bool
  deriving DecidableEq

/-- The calling thread and the state of its process. `jit` lists the addresses of compiled code. -/
structure Proc where
  m : Machine
  stackLimit : U64
  rawStack : Bool
  root : Str
  fds : List (ℤ × Fd)
  actions : ℕ → SignalAction
  image : Image
  argv : List Str
  envp : Env
  exePath : Str
  comm : Str
  jit : List U64
  siblings : List Sibling

def Proc.setup (w : ExecWorld) (p : Proc) : Setup := ⟨0, w.env, p.stackLimit, 0⟩

/-! ## `setup_stack` -/

def stackSize : ℕ := 16 * 1024 * 1024

/-- The initial `r10`. -/
def stackTop : U64 := stackBase + BitVec.ofNat 64 stackSize - 8

def stackSeg : BootSeg := ⟨stackBase.toNat, stackSize, pfW, fun _ => 0⟩

def cstr (s : Str) : Str := s ++ [0]

/-- `"KEY=VALUE"`. -/
def envStr (e : Str × Str) : Str := cstr (e.1 ++ [0x3d] ++ e.2)

def platform : Str := cstr (ofString "bpf")

/-- The addresses of strings that are written one after the other from `cursor` on. -/
def addresses : U64 → List Str → List U64
  | _, [] => []
  | cursor, s :: rest => cursor :: addresses (cursor + BitVec.ofNat 64 s.length) rest

def auxvCount : ℕ := 16

/-- The `auxv` entries in their order, with the pointers filled in. -/
def auxv (info : ElfLoad) (platformAt execfn randomAt : U64) :
    List (U64 × U64) :=
  [(6, 4096), (17, 100), (11, 0), (12, 0), (13, 0), (14, 0), (23, 0), (7, info.ldsoBase),
    (3, info.phdr), (4, info.phent), (5, info.phnum),
    (9, if info.appEntry ≠ 0 then info.appEntry else info.entry), (15, platformAt), (31, execfn),
    (25, randomAt), (0, 0)]

/-- The strings of the block, without the random bytes. -/
def blockStrings (argv : List Str) (envp : Env) : List Str :=
  argv.map cstr ++ envp.map envStr ++ [platform]

def headerBytes (argv : List Str) (envp : Env) : ℕ :=
  8 * (1 + (argv.length + 1) + (envp.length + 1) + 2 * auxvCount)

def totalBytes (argv : List Str) (envp : Env) : ℕ :=
  headerBytes argv envp + (blockStrings argv envp).flatten.length + 16

/-- The block at the foot of the stack: `argc`, the pointers, `auxv`, the strings, 16 random
bytes. -/
def argumentBlock (argv : List Str) (envp : Env) (info : ElfLoad) (random : List Byte) :
    List Byte :=
  let at₀ := stackBase + BitVec.ofNat 64 (headerBytes argv envp)
  let ptrs := addresses at₀ (blockStrings argv envp)
  let platformAt := ptrs.getLastD 0
  let execfn := if argv = [] then platformAt else at₀
  let randomAt := platformAt + BitVec.ofNat 64 platform.length
  let words := [BitVec.ofNat 64 argv.length] ++ ptrs.take argv.length ++ [0] ++
    (ptrs.drop argv.length).take envp.length ++ [0] ++
    (auxv info platformAt execfn randomAt).flatMap fun e => [e.1, e.2]
  words.flatMap wordBytes ++ (blockStrings argv envp).flatten ++ random

/-- The host address of the foot of the stack, which is mapped if nothing is there. -/
def stackFoot (w : ExecWorld) (s : State) : Option (HostPtr × State) :=
  match s.mmu 0 stackBase.toNat 1 with
  | (some foot, s) => some (foot, s)
  | (none, s) => if w.stackMapped then some (⟨s.host.next, 0⟩, s.bootMap stackSeg) else none

/-- `setup_stack`: the memory of the fresh vm and its `r1`. -/
def setupStack (w : ExecWorld) (p : Proc) (s : State) (argv : List Str) (envp : Env)
    (info : ElfLoad) : Option (State × U64) :=
  match stackFoot w s with
  | none => none
  | some (foot, s) =>
    match s.mmuW w.env 0 stackTop.toNat 8 with
    | (none, _) => none
    | (some sentinel, s) =>
      let s := s.setHost (s.host.store sentinel (wordBytes (frameFlagsMake false p.stackLimit 0)))
      if p.rawStack then some (s, 0)
      else if stackSize < totalBytes argv envp then none
      else match s.mmu 0 stackBase.toNat (totalBytes argv envp) with
        | (none, _) => none
        | (some _, s) => w.random.map fun random =>
          (s.setHost (s.host.store foot (argumentBlock argv envp info random)), stackBase)

/-! ## The commit -/

/-- The fresh vm when everything that can fail has succeeded. -/
structure Fresh where
  mem : State
  r1 : U64
  info : ElfLoad
  guestAbs : Str
  hostPath : Str
  argv : List Str
  envp : Env

def Fresh.entry (fr : Fresh) : U64 := fr.info.entry

def vmBlocked : U32 := 0x20

/-- `make_comm`. -/
def makeComm (path : Str) : Str :=
  ((path.reverse.takeWhile (· ≠ 0x2f)).reverse).take 15

def newAction (a : SignalAction) : SignalAction :=
  ⟨if a.handler = sigIgn then sigIgn else sigDfl, 0, 0⟩

/-- The registers, the `pc_` and the address space of the new image, before its first frame. -/
def Proc.enter (p : Proc) (fr : Fresh) : Machine :=
  { p.m with
    mem := fr.mem.flushTlb 0
    flags := p.m.flags &&& ~~~vmBlocked
    signalDepth := 0
    pc := fr.entry
    reg := Function.update (Function.update p.m.reg 1 fr.r1) 10 stackTop }

/-- What `exec_common` does once the siblings are gone. The answer of `push_frame` is dropped. -/
def Proc.commit (w : ExecWorld) (p : Proc) (fr : Fresh) : Proc :=
  let m := ((p.enter fr).pushFrame (p.setup w) 0 fr.entry false false).2
  { p with
    m := { m with pc := m.pc - 8 }
    fds := p.fds.filter fun e => !e.2.cloexec
    actions := fun k => newAction (p.actions k)
    image := ⟨fr.entry, fr.hostPath⟩
    argv := fr.argv
    envp := fr.envp
    exePath := fr.guestAbs
    comm := makeComm fr.guestAbs
    jit := []
    siblings := [] }

/-! ## `exec_common` -/

def atEmptyPath : U32 := 0x1000

def e2big : ℕ := 7
def enoexec : ℕ := 8
def eacces : Posix.HostErrno := ⟨13, by decide⟩

def restartCode : ℤ := -512

/-- The file behind a descriptor, with its guest path. -/
def Fd.exe (w : ExecWorld) (fd : Fd) : Except Posix.HostErrno (HostFile × Str) :=
  match fd.host, w.dupErr with
  | none, _ => .error eacces
  | some _, some e => .error e
  | some file, none => .ok (file, fd.path)

/-- The files that the process can execute. -/
def Proc.files (w : ExecWorld) (p : Proc) : Posix.Files (HostFile × Str) where
  findFd := fun dirfd => (p.fds.find? (·.1 == dirfd)).map fun e => ⟨e.2.exe w, e.2.cloexec⟩
  openPath := fun dirfd path => match w.openAt dirfd path with
    | .failed e => .error e
    | .virtual => .error eacces
    | .host file path => .ok (file, path)

/-- The arguments of `exec_common`; `left` is how many more interpreters it may go through. -/
structure ExecArgs where
  left : ℕ
  dirfd : ℤ
  path : Str
  argv : List Str
  envp : Env
  flags : U32

/-- The program at the end of the chain of scripts with its guest path, and its arguments. -/
def ExecArgs.target (w : ExecWorld) (p : Proc) (a : ExecArgs) :
    Except Posix.Errno ((HostFile × Str) × List Str) :=
  Posix.execChain (fun f => Posix.readHead f.1.content) (p.files w) a.left a.dirfd a.path a.argv
    (a.flags &&& atEmptyPath ≠ 0)

def Proc.hostPath (w : ExecWorld) (p : Proc) (guestAbs : Str) : Str :=
  if p.root = [] then guestAbs else w.lexicallyNormal (p.root ++ guestAbs)

/-- The part of `exec_common` behind the test for a script. -/
def execImage (w : ExecWorld) (p : Proc) (file : HostFile) (guestAbs : Str) (argv : List Str)
    (envp : Env) : ℤ × Proc :=
  let info := file.load (p.hostPath w guestAbs) envp
  if info.entry = 0 then (-(if info.err ≠ 0 then info.err else enoexec : ℕ), p)
  else match setupStack w p (State.boot info.segs) argv envp info with
    | none => (-e2big, p)
    | some (mem, r1) =>
      if (mem.mmu 0 info.entry.toNat 8).1.isNone then (-enoexec, p)
      else if p.siblings = [] ∨ w.gathered then
        (0, p.commit w ⟨mem, r1, info, guestAbs, p.hostPath w guestAbs, argv, envp⟩)
      else (restartCode, { p with siblings := p.siblings.map fun t => { t with killed := true } })

/-- `exec_common`. -/
def execCommon (w : ExecWorld) (p : Proc) (a : ExecArgs) : ℤ × Proc :=
  match a.target w p with
  | .error e => (-e.code, p)
  | .ok ((file, guestAbs), argv) => execImage w p file guestAbs argv a.envp

end Bpfvm.Exec
