import Bpfvm.Cpu.FrameStack
import Bpfvm.Lib.MemoryImage

/-!
# The synthesized call-frame information

`synthesize_debug_frame` writes one CIE, whose rules read the caller's `r10` and the return address
from the frame header, and an FDE for each function; the return address of the entry's is
undefined. The records are kept as such, without their bytes in `.debug_frame`. A column without a
rule keeps its value, except for the stack pointer `r10`, which in the caller is the CFA.
-/
namespace Bpfvm.Linker
open Cpu Memory FlatMemory List

/-- What `synthesize_debug_frame` reads of a symbol: `addr` is its value in the layout. -/
structure FrameSym where
  isLocal : Bool
  defined : Bool
  isFunc : Bool
  addr : U64
  size : U64

/-- The operations of location expressions. -/
inductive DwOp where
  | breg10 (n : U64)
  | deref

/-- The instructions of call-frame information: the CFA is the value of an expression, a column is
stored at the value of an expression, or has no value. -/
inductive CfaOp where
  | defCfaExpression (e : List DwOp)
  | expression (col : ℕ) (e : List DwOp)
  | undefined (col : ℕ)

def inRange (addr size pc : U64) : Bool := addr ≤ pc && pc < addr + size

structure Fde where
  addr : U64
  size : U64
  ops : List CfaOp

def Fde.covers (pc : U64) (f : Fde) : Bool := inRange f.addr f.size pc

/-- The section: the initial instructions of its CIE, and the FDEs in their order. -/
structure DebugFrame where
  cie : List CfaOp
  fdes : List Fde

/-- The column of the return address. -/
def raColumn : ℕ := 11

/-- The arguments of a call of `emit_fde`. -/
structure FrameFun where
  addr : U64
  size : U64
  isEntry : Bool

def FrameFun.covers (pc : U64) (f : FrameFun) : Bool := inRange f.addr f.size pc

def FrameFun.fde (f : FrameFun) : Fde :=
  ⟨f.addr, f.size, if f.isEntry then [.undefined raColumn] else []⟩

def emitFde (d : List Fde) (f : FrameFun) : List Fde :=
  if f.size = 0 ∨ (f.addr, f.size) ∈ d.map fun g => (g.addr, g.size) then d
  else d ++ [f.fde]

/-- The function symbols in their order: the local ones of each object, then the global ones. Only
a global one is marked as the entry. -/
def functions (objects : List (List FrameSym)) (globals : List FrameSym) (entry : U64) :
    List FrameFun :=
  (objects.flatMap fun obj => (obj.drop 1).filter fun sym =>
    sym.isLocal && sym.defined && sym.isFunc).map (fun sym => ⟨sym.addr, sym.size, false⟩) ++
  (globals.filter fun sym => sym.defined && sym.isFunc).map fun sym =>
    ⟨sym.addr, sym.size, sym.addr == entry⟩

def synthesizeDebugFrame (objects : List (List FrameSym)) (globals : List FrameSym)
    (entry : U64) : DebugFrame :=
  let d := (functions objects globals entry).foldl emitFde []
  ⟨[.defCfaExpression [.breg10 8, .deref], .expression raColumn [.breg10 16]],
    -- an entry without a symbol
    if entry ≠ 0 && !d.any (·.covers entry) then emitFde d ⟨entry, 8, true⟩ else d⟩

/-! ## Unwinding -/

/-- What an unwinder knows of a frame. -/
structure FrameRegs where
  pc : U64
  r10 : U64
  r6 : U64
  r7 : U64
  r8 : U64
  r9 : U64

def calleeSaved (m : Machine) : List U64 := [m.reg 6, m.reg 7, m.reg 8, m.reg 9]

def frameRegs (pc : U64) (m : Machine) : FrameRegs :=
  ⟨pc, m.reg 10, m.reg 6, m.reg 7, m.reg 8, m.reg 9⟩

/-- The registers of the caller at the call. -/
def callerRegs (a : Activation) : FrameRegs := frameRegs a.ret a.saved

inductive Rule where
  | unspecified
  | stored (e : List DwOp)
  | undefined

/-- The rules for one address. -/
structure Row where
  cfa : List DwOp
  col : ℕ → Rule

def Row.apply (row : Row) : CfaOp → Row
  | .defCfaExpression e => { row with cfa := e }
  | .expression col e => { row with col := Function.update row.col col (.stored e) }
  | .undefined col => { row with col := Function.update row.col col .undefined }

/-- The value of an expression, with the stack on which it is computed. -/
def evalExpr (mem : ℕ → Option Byte) (r10 : U64) :
    List DwOp → List U64 → Option U64
  | [], stack => stack.head?
  | .breg10 n :: e, stack => evalExpr mem r10 e ((r10 + n) :: stack)
  | .deref :: e, a :: stack =>
    (readWord mem a.toNat).bind fun x => evalExpr mem r10 e (x :: stack)
  | .deref :: _, [] => none

/-- A column of the caller; `same` is its value where it has no rule. -/
def Row.column (row : Row) (mem : ℕ → Option Byte) (r10 : U64) (col : ℕ)
    (same : U64) : Option U64 :=
  match row.col col with
  | .unspecified => some same
  | .stored e => (evalExpr mem r10 e []).bind fun a => readWord mem a.toNat
  | .undefined => none

/-- The caller's frame, by the rules of the first FDE that covers `pc`. -/
def unwind (d : DebugFrame) (mem : ℕ → Option Byte) (r : FrameRegs) : Option FrameRegs := do
  let f ← d.fdes.find? (·.covers r.pc)
  let row := (d.cie ++ f.ops).foldl Row.apply ⟨[], fun _ => .unspecified⟩
  let cfa ← evalExpr mem r.r10 row.cfa []
  return ⟨← row.column mem r.r10 raColumn r.pc, ← row.column mem r.r10 10 cfa,
    ← row.column mem r.r10 6 r.r6, ← row.column mem r.r10 7 r.r7, ← row.column mem r.r10 8 r.r8,
    ← row.column mem r.r10 9 r.r9⟩

/-- The frames that an unwinder finds from `r` on until it stops. -/
def Unwinds (d : DebugFrame) (mem : ℕ → Option Byte) (r : FrameRegs) : List FrameRegs → Prop
  | [] => unwind d mem r = none
  | r' :: rs => unwind d mem r = some r' ∧ Unwinds d mem r' rs

/-- The first function symbol that covers `pc` is not marked as the entry. -/
def hasCaller (fs : List FrameFun) (pc : U64) : Bool :=
  (fs.find? (·.covers pc)).any (!·.isEntry)

/-! ## The FDE of an address -/

section
variable (objects : List (List FrameSym)) (globals : List FrameSym) (entry pc : U64)

/-- What is not emitted covers nothing, or only what an earlier FDE covers. -/
theorem find_emitFde (d : List Fde) (f : FrameFun) : (emitFde d f).find? (·.covers pc) =
    (d.find? (·.covers pc)).or (if f.covers pc then some f.fde else none) := by
  unfold emitFde
  split_ifs with h hc hc
  · obtain hz | hmem := h
    · simp [FrameFun.covers, inRange, hz, BitVec.le_def, BitVec.lt_def] at hc
      omega
    · obtain ⟨g, hg, heq⟩ := mem_map.mp hmem
      have hcov : g.covers pc = true := by
        rw [Fde.covers, (Prod.mk.inj heq).1, (Prod.mk.inj heq).2]
        exact hc
      obtain ⟨x, hx⟩ := Option.isSome_iff_exists.mp (List.find?_isSome.mpr ⟨g, hg, hcov⟩)
      rw [hx]
      rfl
  · exact Option.or_none.symm
  · rw [List.find?_append, List.find?_singleton]
    exact congrArg _ (if_pos hc)
  · rw [List.find?_append, List.find?_singleton]
    exact congrArg _ (if_neg hc)

theorem find_foldl_emitFde (fs : List FrameFun) (d : List Fde) :
    (fs.foldl emitFde d).find? (·.covers pc) =
      (d.find? (·.covers pc)).or ((fs.find? (·.covers pc)).map FrameFun.fde) := by
  induction fs generalizing d with
  | nil => simp
  | cons f fs ih =>
    rw [foldl_cons, ih, find_emitFde, Option.or_assoc, List.find?_cons]
    cases f.covers pc with
    | true => simp
    | false => simp

/-- The FDE that an unwinder finds is that of a symbol, or it has no return address. -/
theorem find_synthesize :
    (synthesizeDebugFrame objects globals entry).fdes.find? (·.covers pc) =
      ((functions objects globals entry).find? (·.covers pc)).map FrameFun.fde ∨
    (functions objects globals entry).find? (·.covers pc) = none ∧
      (synthesizeDebugFrame objects globals entry).fdes.find? (·.covers pc) =
        some (FrameFun.fde ⟨entry, 8, true⟩) := by
  have hfold := find_foldl_emitFde pc (functions objects globals entry) []
  rw [List.find?_nil, Option.none_or] at hfold
  unfold synthesizeDebugFrame
  dsimp only
  split_ifs with h
  · rw [find_emitFde, hfold]
    cases (functions objects globals entry).find? (·.covers pc) with
    | some f => exact .inl rfl
    | none =>
      split_ifs
      · exact .inr ⟨rfl, rfl⟩
      · exact .inl rfl
  · exact .inl hfold

end

variable {s : State} {v : ℕ} {r : FrameRegs} {a : Activation} {acts : List Activation}
  {objects : List (List FrameSym)} {globals : List FrameSym} {entry : U64}

/-- The words that the rules read. -/
theorem readWord_header (hs : Sound s v) (h : a.Intact v s) :
    readWord (s.view v) (a.base + 8).toNat = some (a.saved.reg 10) ∧
      readWord (s.view v) (a.base + 16).toNat = some a.ret := by
  have hfit := a.words_fit
  have hbound := hs.bound h.mapped
  have hlen : 24 ≤ (a.words.flatMap wordBytes).length := by
    rw [length_flatMap_wordBytes, a.length_words]
    split_ifs <;> decide
  have hhas := has_iff_read.mpr h.frame
  rw [Activation.words, flatMap_cons, has_append] at hhas
  have hrest := hhas.2
  rw [Machine.frameWords, cons_append, tail_cons, cons_append, flatMap_cons,
    has_append, cons_append, flatMap_cons, has_append] at hrest
  rw [length_wordBytes, length_wordBytes, Nat.add_assoc] at hrest
  have h8 : (a.base + 8).toNat = a.base.toNat + 8 := BitVec.toNat_add_of_lt (by simp; omega)
  have h16 : (a.base + 16).toNat = a.base.toNat + (8 + 8) :=
    BitVec.toNat_add_of_lt (by simp; omega)
  rw [h8, h16, readWord_eq_some_iff, readWord_eq_some_iff]
  exact ⟨hrest.1, hrest.2.1⟩

theorem unwind_intact (hs : Sound s v) (h : a.Intact v s) (h10 : r.r10 = a.base) :
    unwind (synthesizeDebugFrame objects globals entry) (s.view v) r =
      if hasCaller (functions objects globals entry) r.pc
        then some { r with pc := a.ret, r10 := a.saved.reg 10 } else none := by
  obtain ⟨hold, hra⟩ := readWord_header hs h
  rw [← h10] at hold hra
  have hcfa : evalExpr (s.view v) r.r10 [.breg10 8, .deref] [] = some (a.saved.reg 10) :=
    congrArg (·.bind some) hold
  unfold unwind hasCaller
  obtain hfind | ⟨hnone, hfind⟩ := find_synthesize objects globals entry r.pc
  · rw [hfind]
    cases (functions objects globals entry).find? (·.covers r.pc) with
    | none => rfl
    | some f =>
      obtain ⟨addr, size, isEntry⟩ := f
      cases isEntry with
      | true => simp [synthesizeDebugFrame, FrameFun.fde, Row.apply, Row.column]
      | false =>
        change ((evalExpr (s.view v) r.r10 [.breg10 8, .deref] []).bind fun cfa =>
          (readWord (s.view v) (r.r10 + 16).toNat).bind fun ra =>
            some { r with pc := ra, r10 := cfa }) = _
        rw [hcfa, hra]
        rfl
  · rw [hfind, hnone]
    simp [synthesizeDebugFrame, FrameFun.fde, Row.apply, Row.column]

/-- The frames that an unwinder should find, against those it does. -/
theorem unwinds_frames_iff {m : Machine} (pc : U64) (hs : Sound s v)
    (hint : ∀ b ∈ a :: acts, b.Intact v s)
    (hlink : (a :: acts).IsChain fun a b => a.saved.reg 10 = b.base) (h10 : m.reg 10 = a.base) :
    Unwinds (synthesizeDebugFrame objects globals entry) (s.view v) (frameRegs pc m)
        ((a :: acts).dropLast.map callerRegs) ↔
      (∀ b ∈ (a :: acts).dropLast, calleeSaved b.saved = calleeSaved m) ∧
      (pc :: (a :: acts).dropLast.map (·.ret)).map
          (hasCaller (functions objects globals entry)) =
        List.replicate acts.length true ++ [false] := by
  induction acts generalizing a m pc with
  | nil =>
    simp only [dropLast_singleton, map_nil, Unwinds,
      unwind_intact (r := frameRegs pc m) hs (hint a mem_cons_self) h10]
    cases hasCaller (functions objects globals entry) pc <;> simp [frameRegs, *]
  | cons b acts ih =>
    obtain ⟨hab, hlink⟩ := isChain_cons_cons.mp hlink
    have hrest := ih a.ret (fun x hx => hint x (mem_cons_of_mem _ hx)) hlink hab
    have hunwind : unwind (synthesizeDebugFrame objects globals entry) (s.view v) (frameRegs pc m) =
        some (callerRegs a) ↔ hasCaller (functions objects globals entry) pc = true ∧
          calleeSaved m = calleeSaved a.saved := by
      rw [unwind_intact (r := frameRegs pc m) hs (hint a mem_cons_self) h10,
        Option.ite_none_right_eq_some]
      simp [frameRegs, callerRegs, calleeSaved]
    rw [dropLast_cons_cons, map_cons, Unwinds, hunwind, callerRegs, hrest]
    simp only [forall_mem_cons, map_cons, length_cons, replicate_succ,
      cons_append, List.cons.injEq]
    constructor
    · rintro ⟨⟨hc, hsaved⟩, hregs, hpcs⟩
      exact ⟨⟨hsaved.symm, fun x hx => (hregs x hx).trans hsaved.symm⟩, hc, hpcs⟩
    · rintro ⟨⟨hsaved, hregs⟩, hc, hpcs⟩
      exact ⟨⟨hc, hsaved.symm⟩, fun x hx => (hregs x hx).trans hsaved.symm, hpcs⟩

/-- In any state of any run, unwinding gives back the registers of every call and stops at the
first frame exactly if `r6` .. `r9` are still those of the calls, the `pc` of each later frame lies
in a function of which the first symbol is not marked as the entry, and that of the first does
not. -/
theorem unwinds_iff {c : Setup} {w : World} {m₀ m : Machine} {l : List FrameEvent}
    (objects : List (List FrameSym)) (globals : List FrameSym) (entry : U64)
    (hs : Sound m₀.mem c.vm) (h : Run (FrameStep c w) (m₀, []) l (m, a :: acts)) :
    Unwinds (synthesizeDebugFrame objects globals entry) (m.mem.view c.vm) (frameRegs m.pc m)
        ((a :: acts).dropLast.map callerRegs) ↔
      (∀ b ∈ (a :: acts).dropLast, calleeSaved b.saved = calleeSaved m) ∧
      (m.pc :: (a :: acts).dropLast.map (·.ret)).map
          (hasCaller (functions objects globals entry)) =
        List.replicate acts.length true ++ [false] := by
  have hok := framesOk_of_run hs h
  exact unwinds_frames_iff m.pc hok.sound hok.intact hok.link (hok.top a rfl)

/-! ## A callee that uses `r6` -/

/-- `call +1`, `exit` and the callee. -/
def callerCode : List Byte :=
  [⟨0x85, 0, 1, 0, 1⟩, exitHere, ⟨0xb7, 6, 0, 0, 1⟩, exitHere].flatMap BpfInsn.bytes

def callerStart : Machine :=
  Machine.boot [⟨0x1000, 0x1000, 5, fun k => callerCode.getD k 0⟩,
    ⟨0x10000000, 0x1000, 6, fun _ => 0⟩] (fun k => if k = 10 then 0x10000800 else 0) 0x1000

def callerEntry : Machine := (callerStart.pushFrame Setup.plain 0 0x1000 false false).2

def callerJump : Machine :=
  (callerEntry.jmp Setup.plain World.quiet ⟨0x85, 0, 1, 0, 1⟩).2

def calleeStart : Machine := { callerJump with pc := callerJump.pc + 8 }

/-- The symbols of the two functions. -/
def callerSyms : List FrameSym :=
  [⟨false, true, true, 0x1000, 16⟩, ⟨false, true, true, 0x1010, 16⟩]

theorem sound_callerStart : Sound callerStart.mem Setup.plain.vm := by
  refine sound_boot ⟨?_, ?_, ?_⟩ <;> simp [BootSeg.stop]

theorem run_calleeStart : ∃ l b a, Run (FrameStep Setup.plain World.quiet) (callerStart, []) l
    (calleeStart, [b, a]) ∧ b.ret = 0x1008 ∧ b.saved = callerEntry := by
  have henter : FrameStep Setup.plain World.quiet (callerStart, []) (.enter 0x1000)
      (callerEntry, _) :=
    .enter (Prod.ext (by decide +kernel) rfl) (by decide +kernel)
  have hcall (acts : List Activation) : FrameStep Setup.plain World.quiet (callerEntry, acts)
      (.call ⟨0x85, 0, 1, 0, 1⟩) (calleeStart, _ :: acts) :=
    .call ⟨by decide, .inr rfl⟩ (Prod.ext (by decide +kernel) rfl) (by decide +kernel)
  exact ⟨_, _, _, (Run.single henter).snoc (hcall _), by decide +kernel, rfl⟩

theorem unwinds_calleeStart : ∃ b : Activation, b.ret = 0x1008 ∧
    Unwinds (synthesizeDebugFrame [] callerSyms 0x1000) (calleeStart.mem.view 0)
      (frameRegs calleeStart.pc calleeStart) [callerRegs b] := by
  obtain ⟨l, b, a, hrun, hret, hsaved⟩ := run_calleeStart
  refine ⟨b, hret, (unwinds_iff [] callerSyms 0x1000 sound_callerStart hrun).mpr ⟨?_, ?_⟩⟩
  · intro x hx
    rw [mem_singleton.mp hx, hsaved]
    decide +kernel
  · simp only [dropLast_cons_cons, dropLast_singleton, map_cons, map_nil, hret,
      length_singleton]
    decide +kernel

/-- Once the callee has set `r6`, its value is taken for the caller's. -/
theorem not_unwinds_changed : ∃ l b a, Run (FrameStep Setup.plain World.quiet) (callerStart, []) l
    (calleeStart.setReg 6 1, [b, a]) ∧ b.saved.reg 6 = 0 ∧
    ¬Unwinds (synthesizeDebugFrame [] callerSyms 0x1000) (calleeStart.mem.view 0)
      (frameRegs calleeStart.pc (calleeStart.setReg 6 1)) [callerRegs b] := by
  obtain ⟨l, b, a, hrun, hret, hsaved⟩ := run_calleeStart
  have hok := framesOk_of_run sound_callerStart hrun
  have hset : FrameStep Setup.plain World.quiet (calleeStart, [b, a]) .other
      (calleeStart.setReg 6 1, [b, a]) :=
    .other hok.sound rfl (fun x hx => (hok.intact x hx).mapped) fun x hx i hi => rfl
  refine ⟨_, b, a, hrun.snoc hset, by rw [hsaved]; decide +kernel, fun hu => ?_⟩
  have hregs := ((unwinds_frames_iff (m := calleeStart.setReg 6 1) _ hok.sound hok.intact
    hok.link (hok.top b rfl)).mp hu).1 b mem_cons_self
  rw [hsaved] at hregs
  revert hregs
  decide +kernel

end Bpfvm.Linker
