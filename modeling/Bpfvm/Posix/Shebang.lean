import Mathlib.Data.List.DropRight
import Mathlib.Data.List.TakeWhile
import Mathlib.Data.Int.Notation
import Bpfvm.Posix.Basic

/-!
# Executing scripts

`execveat` reads the start of a file into a buffer of 128 bytes. If it begins with `#!`, the
rest of its first line names an interpreter, which is executed with the script as an argument.
The interpreter may be a script again, up to a limit. The first line as it stands in the file
and as much of it as is in the buffer are read by the same walk along the chain of scripts.
-/
namespace Bpfvm.Posix
open List

def isBlank (b : Byte) : Bool := b = 32 || b = 9

def newline : Byte := 10

/-- `parse_shebang`: the interpreter and its argument, from a line without its newline. -/
def parseShebang (buf : List Byte) : Option (List Byte × List Byte) :=
  if buf.take 2 ≠ [35, 33] then none
  else
    let name := (buf.drop 2).dropWhile isBlank
    let interp := name.takeWhile (!isBlank ·)
    if interp = [] then none
    else some (interp, (name.dropWhile (!isBlank ·)).dropWhile isBlank)

/-- What a file is to `exec`: a program for `load_elf`, a script that cannot be executed, or one
with an interpreter and an argument. -/
inductive Header where
  | program
  | malformed
  | script (interp arg : List Byte)
  deriving DecidableEq, Repr

/-- What `exec_common` finds in the first 128 bytes of a file. -/
def readHead (content : List Byte) : Header :=
  let head := content.take 128
  if head.take 2 ≠ [35, 33] then .program
  else
    match parseShebang (head.takeWhile (· ≠ newline)) with
    | none => .malformed
    | some (interp, arg) => .script interp arg

/-- A descriptor as `execveat` needs it: the file, or why it cannot be executed. -/
structure ExecFd (α : Type*) where
  file : Except HostErrno α
  cloexec : Bool

/-- What the files are: behind a descriptor, and behind a path relative to a descriptor. -/
structure Files (α : Type*) where
  findFd : ℤ → Option (ExecFd α)
  openPath : ℤ → List Byte → Except HostErrno α

def AT_FDCWD : ℤ := -100

/-- `"/dev/fd/" + std::to_string(dirfd)`. -/
def devFd (dirfd : ℤ) : List Byte :=
  [47, 100, 101, 118, 47, 102, 100, 47] ++
    (toString dirfd).toList.map fun c => BitVec.ofNat 8 c.toNat

section Chain

variable {α : Type*} (parse : α → Header) (fs : Files α)

/-- The file that is executed and the name the script gets for itself. With an empty path it is
the descriptor's. -/
def execFile (dirfd : ℤ) (path : List Byte) (emptyPath : Bool) :
    Except Errno (α × Bool × List Byte) :=
  if dirfd = AT_FDCWD then
    if emptyPath then .error .EINVAL
    else ((fs.openPath dirfd path).map fun file => (file, false, path)).mapError .host
  else
    match fs.findFd dirfd with
    | none => .error .EBADF
    | some fd =>
      (if emptyPath then fd.file.map fun file => (file, fd.cloexec, devFd dirfd)
        else (fs.openPath dirfd path).map fun file => (file, false, path)).mapError .host

/-- The argument vector of an interpreter. -/
def scriptArgv (interp arg script : List Byte) (argv : List (List Byte)) : List (List Byte) :=
  interp :: ((if arg = [] then [] else [arg]) ++ script :: argv.tail)

/-- `PosixSyscall::exec_common` with what is left of the limit on its depth: the program that is
loaded and its arguments. -/
def execChain : ℕ → ℤ → List Byte → List (List Byte) → Bool →
    Except Errno (α × List (List Byte))
  | 0, _, _, _, _ => .error .ELOOP
  | left + 1, dirfd, path, argv, emptyPath =>
    match execFile fs dirfd path emptyPath with
    | .error e => .error e
    | .ok (file, cloexec, script) =>
      match parse file with
      | .program => .ok (file, argv)
      | .malformed => .error .ENOEXEC
      | .script interp arg =>
        if cloexec then .error .ENOENT
        else execChain left AT_FDCWD interp (scriptArgv interp arg script argv) false

end Chain

/-- `PosixSyscall::do_execveat`. -/
def doExecveat (fs : Files (List Byte)) (dirfd : ℤ) (path : List Byte) (argv : List (List Byte))
    (emptyPath : Bool) : Except Errno (List Byte × List (List Byte)) :=
  execChain readHead fs 4 dirfd path argv emptyPath

/-! ## The whole first line -/

/-- The parts of the first line of a script behind the `#!`. -/
structure FirstLine where
  lead : List Byte
  interp : List Byte
  gap : List Byte
  rest : List Byte

def firstLine (content : List Byte) : FirstLine :=
  let body := (content.takeWhile (· ≠ newline)).drop 2
  let name := body.dropWhile isBlank
  let tail := name.dropWhile (!isBlank ·)
  ⟨body.takeWhile isBlank, name.takeWhile (!isBlank ·), tail.takeWhile isBlank,
    tail.dropWhile isBlank⟩

namespace FirstLine

/-- Where the argument begins. -/
def offset (l : FirstLine) : ℕ := 2 + l.lead.length + l.interp.length + l.gap.length

/-- The interpreter's name lies within the header. -/
def NameFits (l : FirstLine) : Prop := 2 + l.lead.length + l.interp.length ≤ 128

instance (l : FirstLine) : Decidable l.NameFits := inferInstanceAs (Decidable (_ ≤ _))

/-- The rest of the line without blanks around it. -/
def arg (l : FirstLine) : List Byte := l.rest.rdropWhile isBlank

/-- What of the rest lies within the header is the rest without the blanks at its end. -/
def Tidy (l : FirstLine) : Prop := l.rest.take (128 - l.offset) = l.arg

instance (l : FirstLine) : Decidable l.Tidy := inferInstanceAs (Decidable (_ = _))

end FirstLine

/-- What a file is by its first line, which may be of any length: the interpreter is the first
word, and must lie within the header; the argument is the rest without blanks around it. -/
def lineHead (content : List Byte) : Header :=
  if content.take 2 ≠ [35, 33] then .program
  else
    let l := firstLine content
    if l.interp = [] ∨ ¬ l.NameFits then .malformed else .script l.interp l.arg

/-- What `execveat` is to do. -/
def scriptExec (fs : Files (List Byte)) (dirfd : ℤ) (path : List Byte) (argv : List (List Byte))
    (emptyPath : Bool) : Except Errno (List Byte × List (List Byte)) :=
  execChain lineHead fs 4 dirfd path argv emptyPath

/-! ## The header and the line -/

section Take

variable {α : Type*} (q : α → Bool) (n : ℕ) (l : List α)

theorem takeWhile_take : (l.take n).takeWhile q = (l.takeWhile q).take n := by
  induction l generalizing n with
  | nil => simp
  | cons a l ih =>
    cases n with
    | zero => simp
    | succ n =>
      rw [take_succ_cons, takeWhile_cons, takeWhile_cons, ih]
      split_ifs <;> simp

theorem dropWhile_take :
    (l.take n).dropWhile q = (l.dropWhile q).take (n - (l.takeWhile q).length) := by
  induction l generalizing n with
  | nil => simp
  | cons a l ih =>
    cases n with
    | zero => simp
    | succ n =>
      rw [take_succ_cons, dropWhile_cons, dropWhile_cons, takeWhile_cons, ih]
      split_ifs
      · rw [length_cons, Nat.add_sub_add_right]
      · rfl

end Take

/-- The first line can be executed as far as its interpreter goes. -/
def Named (content : List Byte) : Prop :=
  (firstLine content).interp = [] ∨ (firstLine content).NameFits

instance (content : List Byte) : Decidable (Named content) := inferInstanceAs (Decidable (_ ∨ _))

variable {content path c : List Byte} {emptyPath : Bool} {dirfd : ℤ} {left : ℕ}
  {a : List (List Byte)}

theorem take_two_eq (h : content.take 2 = [35, 33]) : ∃ rest, content = 35 :: 33 :: rest := by
  match content with
  | [] => cases h
  | [a] => cases h
  | a :: b :: rest =>
    simp only [take_succ_cons, take_zero, List.cons.injEq, and_true] at h
    exact ⟨rest, by rw [h.1, h.2]⟩

/-- What the header holds of the line. -/
theorem readHead_of_script (h : content.take 2 = [35, 33]) :
    readHead content =
      let l := firstLine content
      if l.interp.take (126 - l.lead.length) = [] then .malformed
      else .script (l.interp.take (126 - l.lead.length))
        (l.rest.take (126 - l.lead.length - l.interp.length - l.gap.length)) := by
  obtain ⟨rest, rfl⟩ := take_two_eq h
  have hline : ((35 :: 33 :: rest).take 128).takeWhile (· ≠ newline)
      = 35 :: 33 :: (rest.takeWhile (· ≠ newline)).take 126 := by
    rw [takeWhile_take]
    rfl
  have hbody : ((35 :: 33 :: rest).takeWhile (· ≠ newline)).drop 2
      = rest.takeWhile (· ≠ newline) := rfl
  rw [readHead, hline, parseShebang, firstLine, hbody]
  generalize rest.takeWhile (· ≠ newline) = body
  simp only [take_succ_cons, take_zero, ne_eq, not_true_eq_false, if_false,
    drop_succ_cons, drop_zero, dropWhile_take, takeWhile_take]
  split_ifs <;> rfl

theorem lineHead_of_script (h : content.take 2 = [35, 33]) :
    lineHead content =
      let l := firstLine content
      if l.interp = [] ∨ ¬ l.NameFits then .malformed else .script l.interp l.arg := by
  rw [lineHead, if_neg (not_not.mpr h)]

/-- The same kind of file with the same interpreter, and an argument only if the other has. -/
inductive Header.Alike : Header → Header → Prop where
  | program : Alike .program .program
  | malformed : Alike .malformed .malformed
  | script {interp arg arg' : List Byte} (h : arg' = [] → arg = []) :
      Alike (.script interp arg) (.script interp arg')

theorem rest_eq_nil_of_interp (h : (firstLine content).interp = []) :
    (firstLine content).rest = [] := by
  rw [firstLine] at h ⊢
  dsimp only at h ⊢
  generalize (content.takeWhile (· ≠ newline)).drop 2 = body at h ⊢
  cases hname : body.dropWhile isBlank with
  | nil => rfl
  | cons b name =>
    have hfirst := head_dropWhile_not isBlank (by rw [hname]; simp)
    simp only [hname, head_cons] at hfirst
    simp [hname, hfirst] at h

theorem rest_eq_nil_of_arg (h : (firstLine content).arg = []) : (firstLine content).rest = [] := by
  rw [FirstLine.arg, rdropWhile_eq_nil_iff] at h
  have hdrop := dropWhile_eq_nil_iff.mpr h
  rw [firstLine] at hdrop ⊢
  rwa [dropWhile_idempotent] at hdrop

theorem readHead_of_not_script (h : content.take 2 ≠ [35, 33]) :
    readHead content = .program ∧ lineHead content = .program := by
  refine ⟨?_, if_pos h⟩
  rw [readHead, take_take]
  exact if_pos h

/-- A script whose interpreter's name lies within the header. -/
theorem heads_of_nameFits (h : content.take 2 = [35, 33]) (hfits : (firstLine content).NameFits)
    (hne : (firstLine content).interp ≠ []) :
    readHead content = .script (firstLine content).interp
        ((firstLine content).rest.take (128 - (firstLine content).offset)) ∧
      lineHead content = .script (firstLine content).interp (firstLine content).arg := by
  rw [readHead_of_script h, lineHead_of_script h]
  generalize firstLine content = l at hfits hne
  have hfits' : 2 + l.lead.length + l.interp.length ≤ 128 := hfits
  have hinterp : l.interp.take (126 - l.lead.length) = l.interp :=
    take_of_length_le (by omega)
  have hoffset : 126 - l.lead.length - l.interp.length - l.gap.length = 128 - l.offset := by
    rw [FirstLine.offset]
    omega
  simp only [hinterp, hoffset, hne, hfits, not_true_eq_false, or_self, if_false, and_self]

theorem heads_of_no_interp (h : content.take 2 = [35, 33])
    (hnil : (firstLine content).interp = []) :
    readHead content = .malformed ∧ lineHead content = .malformed := by
  rw [readHead_of_script h, lineHead_of_script h]
  simp [hnil]

theorem alike_of_named (h : Named content) : (readHead content).Alike (lineHead content) := by
  by_cases hscript : content.take 2 = [35, 33]
  · by_cases hnil : (firstLine content).interp = []
    · obtain ⟨hread, hline⟩ := heads_of_no_interp hscript hnil
      rw [hread, hline]
      exact .malformed
    · obtain ⟨hread, hline⟩ := heads_of_nameFits hscript (h.resolve_left hnil) hnil
      rw [hread, hline]
      refine .script fun harg => ?_
      rw [rest_eq_nil_of_arg harg, take_nil]
  · obtain ⟨hread, hline⟩ := readHead_of_not_script hscript
    rw [hread, hline]
    exact .program

theorem heads_eq_iff (hscript : content.take 2 = [35, 33]) (h : Named content) :
    readHead content = lineHead content ↔ (firstLine content).Tidy := by
  by_cases hnil : (firstLine content).interp = []
  · obtain ⟨hread, hline⟩ := heads_of_no_interp hscript hnil
    rw [hread, hline, FirstLine.Tidy, FirstLine.arg, rest_eq_nil_of_interp hnil]
    simp
  · obtain ⟨hread, hline⟩ := heads_of_nameFits hscript (h.resolve_left hnil) hnil
    rw [hread, hline, FirstLine.Tidy]
    simp

/-! ## Chains of scripts -/

section Walk

variable {α : Type*} {p q : α → Header} {fs : Files α} {c : α}

/-- The scripts that are read on the way, by the reading `q` of their headers. -/
def reached (q : α → Header) (fs : Files α) : ℕ → ℤ → List Byte → Bool → List α
  | 0, _, _, _ => []
  | left + 1, dirfd, path, emptyPath =>
    match execFile fs dirfd path emptyPath with
    | .error _ => []
    | .ok (file, cloexec, _) =>
      match q file with
      | .program => []
      | .malformed => [file]
      | .script interp _ =>
        file :: if cloexec then [] else reached q fs left AT_FDCWD interp false

/-- Two readings that agree on all scripts on the way. -/
theorem execChain_congr (hprog : ∀ c, q c = .program → p c = .program) {argv : List (List Byte)}
    (h : ∀ c ∈ reached q fs left dirfd path emptyPath, p c = q c) :
    execChain p fs left dirfd path argv emptyPath
      = execChain q fs left dirfd path argv emptyPath := by
  fun_induction reached q fs left dirfd path emptyPath generalizing argv with
  | case1 => rfl
  | case2 _ _ _ _ _ hfile => simp only [execChain, hfile]
  | case3 _ _ _ _ content _ _ hfile hq => simp only [execChain, hfile, hq, hprog content hq]
  | case4 _ _ _ _ _ _ _ hfile hq =>
    simp only [execChain, hfile, forall_mem_singleton.mp h, hq]
  | case5 _ _ _ _ _ _ _ hfile _ _ hq ih =>
    rw [forall_mem_cons] at h
    simp only [execChain, hfile, h.1, hq]
    split_ifs at h ⊢
    · rfl
    · exact ih h.2

/-- Two readings that find the same interpreters come to the same end. -/
theorem execChain_end (hprog : ∀ c, q c = .program → p c = .program) {b : List (List Byte)}
    (h : ∀ c ∈ reached q fs left dirfd path emptyPath, (p c).Alike (q c)) :
    (execChain p fs left dirfd path a emptyPath).map Prod.fst
      = (execChain q fs left dirfd path b emptyPath).map Prod.fst := by
  fun_induction reached q fs left dirfd path emptyPath generalizing a b with
  | case1 => rfl
  | case2 _ _ _ _ _ hfile => simp only [execChain, hfile]
  | case3 _ _ _ _ content _ _ hfile hq =>
    simp only [execChain, hfile, hq, hprog content hq]
    rfl
  | case4 _ _ _ _ content _ _ hfile hq =>
    have halike := hq ▸ forall_mem_singleton.mp h
    simp only [execChain, hfile, hq]
    generalize p content = head at halike
    cases halike
    rfl
  | case5 _ _ _ _ content _ _ hfile _ _ hq ih =>
    obtain ⟨halike, h⟩ := forall_mem_cons.mp h
    simp only [execChain, hfile, hq] at halike ⊢
    generalize p content = head at halike
    cases halike with
    | script harg =>
      dsimp only
      split_ifs at h ⊢
      · rfl
      · exact ih h

/-- The arguments that a script adds. -/
theorem optional_arg_inj {arg arg' : List Byte}
    (h : (if arg = [] then [] else [arg]) = if arg' = [] then [] else [arg']) : arg = arg' := by
  split_ifs at h with harg harg' harg'
  · rw [harg, harg']
  · cases h
    rfl

theorem length_optional_arg {arg arg' : List Byte} (h : arg' = [] → arg = []) :
    (if arg = [] then ([] : List (List Byte)) else [arg]).length
      ≤ (if arg' = [] then ([] : List (List Byte)) else [arg']).length := by
  by_cases harg' : arg' = []
  · rw [if_pos harg', if_pos (h harg')]
  · rw [if_neg harg']
    split_ifs <;> simp

/-- Where both readings come to a program with the same arguments, they agree on every script on
the way: a script's argument stays in the vector, and one that is lost is not made up for. -/
theorem execChain_argv (hprog : ∀ c, q c = .program → p c = .program) {b : List (List Byte)}
    {r : α × List (List Byte)}
    (h : ∀ c ∈ reached q fs left dirfd path emptyPath, (p c).Alike (q c))
    (hlen : a.tail.length ≤ b.tail.length)
    (ha : execChain p fs left dirfd path a emptyPath = .ok r)
    (hb : execChain q fs left dirfd path b emptyPath = .ok r) :
    a.tail = b.tail ∧ ∀ c ∈ reached q fs left dirfd path emptyPath, p c = q c := by
  fun_induction reached q fs left dirfd path emptyPath generalizing a b with
  | case1 => cases ha
  | case2 _ _ _ _ _ hfile => simp [execChain, hfile] at ha
  | case3 _ _ _ _ content _ _ hfile hq =>
    simp only [execChain, hfile, hq, hprog content hq] at ha hb
    cases ha
    cases hb
    exact ⟨rfl, by simp⟩
  | case4 _ _ _ _ _ _ _ hfile hq => simp [execChain, hfile, hq] at hb
  | case5 _ _ _ _ content _ _ hfile _ arg hq ih =>
    obtain ⟨halike, h⟩ := forall_mem_cons.mp h
    simp only [execChain, hfile, hq] at halike ha hb
    rw [forall_mem_cons, hq]
    generalize p content = head at halike ha ⊢
    cases halike with
    | script harg =>
      dsimp only at ha
      split_ifs at ha hb h ⊢
      have hopt := length_optional_arg harg
      obtain ⟨htail, hrest⟩ := ih h (by
        simp only [scriptArgv, tail_cons, length_append, length_cons]
        omega) ha hb
      simp only [scriptArgv, tail_cons] at htail
      have htotal := congrArg List.length htail
      simp only [length_append, length_cons] at htotal
      obtain ⟨hargs, hscript⟩ := append_inj htail (by omega)
      rw [optional_arg_inj hargs]
      exact ⟨(List.cons.inj hscript).2, rfl, hrest⟩

theorem execFile_ne_noexec (fs : Files α) (dirfd : ℤ) (path : List Byte) (emptyPath : Bool) :
    execFile fs dirfd path emptyPath ≠ .error .ENOEXEC := by
  have hhost (x : Except HostErrno (α × Bool × List Byte)) :
      x.mapError Errno.host ≠ .error .ENOEXEC := by
    cases x <;> simp [Except.mapError]
  unfold execFile
  split_ifs
  · simp
  · exact hhost _
  · split
    · simp
    · exact hhost _
  · split
    · simp
    · exact hhost _

/-- A chain ends in `ENOEXEC` exactly at a script that cannot be executed. -/
theorem execChain_noexec_iff : execChain q fs left dirfd path a emptyPath = .error .ENOEXEC ↔
    ∃ c ∈ reached q fs left dirfd path emptyPath, q c = .malformed := by
  fun_induction reached q fs left dirfd path emptyPath generalizing a with
  | case1 => simp [execChain]
  | case2 _ dirfd path emptyPath e hfile =>
    have hne := hfile ▸ execFile_ne_noexec fs dirfd path emptyPath
    simpa [execChain, hfile] using hne
  | case3 _ _ _ _ _ _ _ hfile hq => simp [execChain, hfile, hq]
  | case4 _ _ _ _ _ _ _ hfile hq => simp [execChain, hfile, hq]
  | case5 _ _ _ _ _ cloexec _ hfile _ _ hq ih =>
    cases cloexec with
    | false => simpa [execChain, hfile, hq] using ih
    | true => simp [execChain, hfile, hq]

theorem reached_ne_program (hc : c ∈ reached q fs left dirfd path emptyPath) : q c ≠ .program := by
  fun_induction reached q fs left dirfd path emptyPath with
  | case1 | case2 | case3 => cases hc
  | case4 _ _ _ _ _ _ _ _ hq =>
    rw [mem_singleton.mp hc, hq]
    exact Header.noConfusion
  | case5 _ _ _ _ _ _ _ _ _ _ hq ih =>
    rcases mem_cons.mp hc with rfl | hc
    · rw [hq]
      exact Header.noConfusion
    · split_ifs at hc
      · cases hc
      · exact ih hc

end Walk

variable {fs : Files (List Byte)}

theorem script_of_reached (hc : c ∈ reached lineHead fs left dirfd path emptyPath) :
    c.take 2 = [35, 33] := by
  by_contra h
  exact reached_ne_program hc (readHead_of_not_script h).2

theorem program_of_lineHead (c : List Byte) (h : lineHead c = .program) :
    readHead c = .program := by
  by_cases hscript : c.take 2 = [35, 33]
  · rw [lineHead_of_script hscript] at h
    dsimp only at h
    split_ifs at h
  · exact (readHead_of_not_script hscript).1

/-- The header of a script holds nothing but blanks if the whole line does, or if the blanks
before the interpreter fill it. -/
theorem readHead_malformed_iff (h : readHead c ≠ .program) :
    readHead c = .malformed ↔ (firstLine c).interp = [] ∨ 126 ≤ (firstLine c).lead.length := by
  have hscript : c.take 2 = [35, 33] := by
    by_contra hne
    exact h (readHead_of_not_script hne).1
  rw [readHead_of_script hscript]
  dsimp only
  rw [ite_eq_left_iff, take_eq_nil_iff]
  simp only [reduceCtorEq, imp_false, not_not]
  rw [Nat.sub_eq_zero_iff_le]
  exact or_comm

/-- What `execveat` does is what it is to do, for a chain of scripts, exactly if every
interpreter's name lies within the header of its script, and the chain ends in an error or the
argument in each header is the rest of the line without the blanks at its end. Where a name does
not lie within the header, only if the names that are executed instead lead to a script without
an interpreter in its header. -/
theorem execveat_eq_scriptExec_iff (fs : Files (List Byte)) (dirfd : ℤ) (path : List Byte)
    (argv : List (List Byte)) (emptyPath : Bool) :
    doExecveat fs dirfd path argv emptyPath = scriptExec fs dirfd path argv emptyPath ↔
      (∀ c ∈ reached lineHead fs 4 dirfd path emptyPath, Named c) ∧
        ((∃ e, scriptExec fs dirfd path argv emptyPath = .error e) ∨
          ∀ c ∈ reached lineHead fs 4 dirfd path emptyPath, (firstLine c).Tidy) ∨
      (∃ c ∈ reached lineHead fs 4 dirfd path emptyPath, ¬ Named c) ∧
        ∃ c ∈ reached readHead fs 4 dirfd path emptyPath,
          (firstLine c).interp = [] ∨ 126 ≤ (firstLine c).lead.length := by
  by_cases hnamed : ∀ c ∈ reached lineHead fs 4 dirfd path emptyPath, Named c
  · have halike := fun c hc => alike_of_named (hnamed c hc)
    have hnone : ¬ ∃ c ∈ reached lineHead fs 4 dirfd path emptyPath, ¬ Named c :=
      fun ⟨c, hc, hnot⟩ => hnot (hnamed c hc)
    simp only [hnone, false_and, or_false]
    constructor
    · intro heq
      refine ⟨hnamed, ?_⟩
      cases hspec : scriptExec fs dirfd path argv emptyPath with
      | error e => exact Or.inl ⟨e, rfl⟩
      | ok r =>
        right
        intro c hc
        have hheads := (execChain_argv program_of_lineHead halike (Nat.le_refl _)
          (heq.trans hspec) hspec).2 c hc
        exact (heads_eq_iff (script_of_reached hc) (hnamed c hc)).mp hheads
    · rintro ⟨-, ⟨e, herr⟩ | htidy⟩
      · have hend := execChain_end (a := argv) (b := argv) program_of_lineHead halike
        rw [← scriptExec, ← doExecveat, herr] at hend
        rw [herr]
        cases hdo : doExecveat fs dirfd path argv emptyPath with
        | error e' =>
          rw [hdo] at hend
          cases hend
          rfl
        | ok r =>
          rw [hdo] at hend
          cases hend
      · exact execChain_congr program_of_lineHead fun c hc =>
          (heads_eq_iff (script_of_reached hc) (hnamed c hc)).mpr (htidy c hc)
  · have hsome : ∃ c ∈ reached lineHead fs 4 dirfd path emptyPath, ¬ Named c := by
      simpa only [not_forall, exists_prop] using hnamed
    simp only [hnamed, false_and, false_or, hsome, true_and]
    obtain ⟨c, hc, hnot⟩ := hsome
    have hmalformed : lineHead c = .malformed := by
      rw [lineHead_of_script (script_of_reached hc)]
      exact if_pos (Or.inr fun hfits => hnot (Or.inr hfits))
    have hspec : scriptExec fs dirfd path argv emptyPath = .error .ENOEXEC :=
      execChain_noexec_iff.mpr ⟨c, hc, hmalformed⟩
    rw [hspec, doExecveat, execChain_noexec_iff]
    exact exists_congr fun c => and_congr_right fun hc =>
      readHead_malformed_iff (reached_ne_program hc)

/-- One script, by its path `/s`; every other path is that of a program. -/
def oneScript (content : List Byte) : Files (List Byte) where
  findFd := fun _ => none
  openPath := fun _ path => .ok (if path = [47, 115] then content else [127])

set_option maxRecDepth 4000 in
/-- The line `#!/i -e ` with a blank at its end, and a name of 130 bytes of which 126 are
executed. -/
theorem execveat_reads_header :
    (doExecveat (oneScript [35, 33, 47, 105, 32, 45, 101, 32, 10]) AT_FDCWD [47, 115] [[115]] false
        = .ok ([127], [[47, 105], [45, 101, 32], [47, 115]]) ∧
      scriptExec (oneScript [35, 33, 47, 105, 32, 45, 101, 32, 10]) AT_FDCWD [47, 115] [[115]]
        false = .ok ([127], [[47, 105], [45, 101], [47, 115]])) ∧
    doExecveat (oneScript (35 :: 33 :: List.replicate 130 97)) AT_FDCWD [47, 115] [[115]] false
        = .ok ([127], [List.replicate 126 97, [47, 115]]) ∧
      scriptExec (oneScript (35 :: 33 :: List.replicate 130 97)) AT_FDCWD [47, 115] [[115]] false
        = .error .ENOEXEC := by
  refine ⟨⟨rfl, rfl⟩, rfl, rfl⟩

end Bpfvm.Posix
