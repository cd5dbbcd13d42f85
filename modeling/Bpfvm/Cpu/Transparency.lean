import Bpfvm.Cpu.Frames
import Bpfvm.Cpu.Control

/-!
# Signal transparency

A handler that leaves its frame alone and ends with `EXIT` gives the interrupted code back
what it had, at any depth of nesting.
-/
namespace Bpfvm.Cpu
open Memory FlatMemory BitVec Machine

/-! ## What the interrupted code should find -/

namespace Machine

/-- Whether the system call a signal interrupted is to be executed again. -/
def restarts (m : Machine) (info : SigInfo) : Bool := info.restarts && !m.restartNohand

def resumePc (m : Machine) (info : SigInfo) : U64 :=
  if m.restartPc = 0 then m.pc
  else if m.restarts info then m.restartPc
  else m.restartPc + 8

def resumeReg (m : Machine) (info : SigInfo) (k : ℕ) : U64 :=
  if k = 0 ∧ m.restartPc ≠ 0 ∧ m.restarts info = false then -eintr else m.reg k

/-- The registers and the mask that the handler's frame is to bring back. -/
def resumed (m : Machine) (info : SigInfo) : Machine := { m with reg := m.resumeReg info }

theorem resumeReg_of_ne {m : Machine} {info : SigInfo} {k : ℕ} (hk : k ≠ 0) :
    m.resumeReg info k = m.reg k := if_neg fun h => hk h.1

theorem takeRestart_eq (m : Machine) (info : SigInfo) (mem : State) :
    ∃ m', ({ m with mem := mem } : Machine).takeRestart info = (m.resumePc info, m') ∧
      m'.reg = m.resumeReg info ∧ m'.mem = mem ∧
      m'.signalDepth = m.signalDepth ∧ m'.sigmask = m.sigmask := by
  unfold takeRestart resumePc
  dsimp only
  split_ifs with h hr hr' hr'
  · exact ⟨_, rfl, funext fun k => (if_neg fun hk => hk.2.1 h).symm, rfl, rfl, rfl⟩
  · exact ⟨_, rfl, funext fun k => (if_neg fun hk => by simp [restarts, hr] at hk).symm, rfl,
      rfl, rfl⟩
  · exact absurd hr hr'
  · exact absurd hr' hr
  · refine ⟨_, rfl, ?_, rfl, rfl, rfl⟩
    have hno : m.restarts info = false := by simpa [restarts] using hr
    funext k
    by_cases hk : k = 0
    · simp [resumeReg, setReg, hk, hno]
      exact fun h' => absurd h' h
    · rw [resumeReg_of_ne hk, setReg]
      exact Function.update_of_ne hk _ _

end Machine

/-! ## Delivery -/

variable {m₂ : Machine} {n : ℕ}

section
variable {c : Setup} {m m₁ : Machine} {info : SigInfo}

/-- The outcome of pushing a frame in `m`: the registers of `saved`, the return address and the
size of the locals are in it, and everything outside the frame is as before. -/
structure Pushed (c : Setup) (m m₁ saved : Machine) (ret size : U64)
    (isSignal saSiginfo : Bool) : Prop where
  base : m₁.reg 10 = m.frameBase c isSignal saSiginfo
  floor : stackBase.toNat ≤ (m₁.reg 10).toNat
  updated : Updated m.mem m₁.mem c.vm (m₁.mem.view c.vm)
  mapped : Mapped m₁.mem c.vm (m₁.reg 10).toNat (frameSize isSignal saSiginfo)
  frame : read (m₁.mem.view c.vm) (m₁.reg 10).toNat
      ((saved.frameWords isSignal saSiginfo size ret).flatMap wordBytes).length =
    some ((saved.frameWords isSignal saSiginfo size ret).flatMap wordBytes)
  ucontext : isSignal = true → saSiginfo = true →
    read (m₁.mem.view c.vm) ((m₁.reg 10).toNat + 256) 264 =
      some (ucontextBytes saved ret (m.reg 10))
  outside : ∀ a, a < (m₁.reg 10).toNat ∨
    (m₁.reg 10).toNat + frameSize isSignal saSiginfo ≤ a →
    m₁.mem.view c.vm a = m.mem.view c.vm a

theorem pushFrame_pushed {ret entry : U64} (hs : Sound m.mem c.vm)
    (h : m.pushFrame c ret entry false false = (true, m₁)) :
    Pushed c m m₁ m ret (m.calleeSize c entry false false) false false := by
  obtain ⟨seg, mem, rfl, hown, hup, hfloor⟩ := pushFrame_spec hs h
  have h10 : (m.pushed c mem false false).reg 10 = m.frameBase c false false := rfl
  have hmem : (m.pushed c mem false false).mem = mem := rfl
  have hfit := frameWords_fit m false false (m.calleeSize c entry false false) ret
  refine ⟨h10, ?_, ?_, ?_, ?_, by simp, fun a ha => ?_⟩
  · rw [h10]
    exact hfloor
  · rw [hmem, hup.view]
    exact hup
  · rw [hmem, h10]
    exact hown.mapped
  · rw [hmem, h10, hup.view]
    exact read_write_self _ _ _
  · rw [h10] at ha
    rw [hmem, hup.view]
    exact write_of_not_mem (by omega)

theorem enterHandler_keeps (m : Machine) (info : SigInfo) :
    (m.enterHandler info).mem = m.mem ∧ (m.enterHandler info).reg 10 = m.reg 10 ∧
    (m.enterHandler info).signalDepth = m.signalDepth := by
  unfold enterHandler
  cases info.wantsSiginfo <;> exact ⟨rfl, rfl, rfl⟩

theorem frameWords_congr {m' : Machine} (h : m.reg = m'.reg) (isSignal saSiginfo : Bool)
    (limit ret : U64) :
    m.frameWords isSignal saSiginfo limit ret = m'.frameWords isSignal saSiginfo limit ret := by
  simp only [frameWords, h]

theorem ucontextBytes_congr {m' : Machine} (h : ∀ k < 10, m.reg k = m'.reg k)
    (hmask : m.sigmask = m'.sigmask) (pc sp : U64) :
    ucontextBytes m pc sp = ucontextBytes m' pc sp := by
  simp only [ucontextBytes, hmask, h 0 (by decide), h 1 (by decide), h 2 (by decide),
    h 3 (by decide), h 4 (by decide), h 5 (by decide), h 6 (by decide), h 7 (by decide),
    h 8 (by decide), h 9 (by decide)]

/-- The size of a handler's locals, as the delivery of the signal looks it up. -/
def Machine.handlerSize (c : Setup) (m : Machine) (info : SigInfo) : U64 :=
  ((m.load c info.handler 8).2.takeRestart info).2.calleeSize c info.handler true
    info.wantsSiginfo

/-- `build_siginfo`, if it is asked for, on the frame that has just been pushed. -/
theorem siginfo_updated (m' : Machine) (info : SigInfo) {seg : Memmap} {base : U64}
    (hs : Sound m'.mem c.vm)
    (hown : Owned m'.mem c.vm seg base.toNat (frameSize true info.wantsSiginfo))
    (pc sp : U64) :
    ∃ mem, (if info.wantsSiginfo then m'.buildSiginfo c base info pc sp else m') =
        { m' with mem := mem } ∧ Updated m'.mem mem c.vm (mem.view c.vm) ∧
      (∀ a, a < base.toNat + 128 ∨ base.toNat + frameSize true info.wantsSiginfo ≤ a →
        mem.view c.vm a = m'.mem.view c.vm a) ∧
      (info.wantsSiginfo = true → read (mem.view c.vm) (base.toNat + 256) 264 =
        some (ucontextBytes m' pc sp)) := by
  by_cases hw : info.wantsSiginfo = true
  · have hsize : frameSize true info.wantsSiginfo = 520 := by
      rw [hw]
      rfl
    obtain ⟨mem, hbuild, hup⟩ := buildSiginfo_spec hs (hsize ▸ hown) info pc sp
    have hsi := length_siginfoBytes info
    have hul := length_ucontextBytes m' pc sp
    refine ⟨mem, (if_pos hw).trans hbuild, by rw [hup.view]; exact hup, fun a ha => ?_,
      fun _ => ?_⟩
    · rw [hup.view, write_of_not_mem (by omega),
        write_of_not_mem (by omega)]
    · rw [hup.view, ← hul]
      exact read_write_self _ _ _
  · exact ⟨m'.mem, if_neg hw, (Refilled.refl hs).updated, fun _ _ => rfl, fun h => absurd h hw⟩

/-- A caught signal pushes a frame like a call, with all registers in it. -/
theorem deliverSignal_pushed (hs : Sound m.mem c.vm)
    (h : m.deliverSignal c (.handler info) = (true, m₁)) :
    Pushed c m m₁ (m.resumed info) (m.resumePc info) (m.handlerSize c info) true
      info.wantsSiginfo ∧ m₁.signalDepth = m.signalDepth + 1 := by
  obtain ⟨mem₀, hmem₀, hr₀⟩ := load_refilled hs info.handler 8
  rw [deliverSignal] at h
  unfold handlerSize
  generalize m.load c info.handler 8 = r at h hmem₀ ⊢
  obtain ⟨_ | bs, m₀⟩ := r
  · simp at h
  dsimp only at hmem₀
  subst hmem₀
  obtain ⟨m', htake, hreg, hmem, hdepth, hmask⟩ := takeRestart_eq m info mem₀
  dsimp only at h ⊢
  rw [htake] at h ⊢
  dsimp only at h ⊢
  generalize hpush : m'.pushFrame c (m.resumePc info) info.handler true info.wantsSiginfo = r at h
  obtain ⟨_ | _, m₂⟩ := r
  · simp at h
  have hs' : Sound m'.mem c.vm := hmem ▸ hr₀.sound
  have h10 : m'.reg 10 = m.reg 10 := by rw [hreg, resumeReg_of_ne (by decide)]
  have hbase : m'.frameBase c true info.wantsSiginfo = m.frameBase c true info.wantsSiginfo := by
    have hload : (m'.load c (m.reg 10) 8).1 = (m.load c (m.reg 10) 8).1 := by
      rw [← load_fst_of_refilled hs hr₀ (m.reg 10) (by decide) (by decide), load,
        load, hmem]
    rw [frameBase, frameBase, callerLen, callerLen, h10, hload]
  obtain ⟨seg, mem, rfl, hown, hup, hfloor⟩ := pushFrame_spec hs' hpush
  generalize m'.calleeSize c info.handler true info.wantsSiginfo = size at hup ⊢
  rw [frameWords_congr (show m'.reg = (m.resumed info).reg from hreg), hmem, hr₀.view] at hup
  have hup₀ := hr₀.updated.trans hup
  rw [hbase] at hown hup₀ hfloor
  have hp10 : (m'.pushed c mem true info.wantsSiginfo).reg 10 =
      m.frameBase c true info.wantsSiginfo := hbase
  dsimp only at h
  rw [hp10] at h
  obtain ⟨mem', hif, hup', hout, huc⟩ := siginfo_updated
    (m'.pushed c mem true info.wantsSiginfo) info hup.sound hown (m.resumePc info) (m'.reg 10)
  rw [hif] at h
  obtain rfl := (Prod.mk.inj h).2
  obtain ⟨hmem₁, hreg₁, hd₁⟩ := enterHandler_keeps
    ({ m'.pushed c mem true info.wantsSiginfo with mem := mem' } : Machine) info
  have hmem₁ : (enterHandler { m'.pushed c mem true info.wantsSiginfo with mem := mem' }
    info).mem = mem' := hmem₁
  have hreg₁ : (enterHandler { m'.pushed c mem true info.wantsSiginfo with mem := mem' }
    info).reg 10 = m.frameBase c true info.wantsSiginfo := hreg₁.trans hp10
  have hlen : (((m.resumed info).frameWords true info.wantsSiginfo size
      (m.resumePc info)).flatMap wordBytes).length = 104 := by
    rw [length_flatMap_wordBytes, length_frameWords]
    rfl
  have hfit := frameWords_fit (m.resumed info) true info.wantsSiginfo size (m.resumePc info)
  refine ⟨⟨hreg₁, ?_, ?_, ?_, ?_, fun _ hw => ?_, fun a ha => ?_⟩,
    hd₁.trans (congrArg (· + 1) hdepth)⟩
  · rw [hreg₁]
    exact hfloor
  · rw [hmem₁]
    exact hup₀.trans hup'
  · rw [hmem₁, hreg₁]
    exact hup'.mapped hown.mapped
  · rw [hmem₁, hreg₁]
    refine (read_congr fun i hi => hout _ (.inl (by omega))).trans ?_
    change read (mem.view c.vm) _ _ = _
    rw [hup.view, hbase]
    exact read_write_self _ _ _
  · rw [hmem₁, hreg₁, huc hw, h10]
    apply congrArg some
    apply ucontextBytes_congr
    · intro k hk
      exact (Function.update_of_ne (by omega) _ _).trans (congrFun hreg k)
    · exact hmask
  · rw [hreg₁] at ha
    rw [hmem₁, hout a (by omega)]
    change mem.view c.vm a = _
    rw [hup₀.view]
    exact write_of_not_mem (by omega)

/-- The outcome of delivering a caught signal. -/
structure Delivered (c : Setup) (m m₁ : Machine) (info : SigInfo) : Prop where
  base : m₁.reg 10 = m.frameBase c true info.wantsSiginfo
  signalDepth : m₁.signalDepth = m.signalDepth + 1
  sound : Sound m₁.mem c.vm
  bound : (m₁.reg 10).toNat + frameSize true info.wantsSiginfo < 2 ^ 64
  frame : ∃ limit, read (m₁.mem.view c.vm) (m₁.reg 10).toNat 104 =
    some (((m.resumed info).frameWords true info.wantsSiginfo limit
      (m.resumePc info)).flatMap wordBytes)
  ucontext : info.wantsSiginfo = true →
    read (m₁.mem.view c.vm) ((m₁.reg 10).toNat + 256) 264 =
      some (ucontextBytes (m.resumed info) (m.resumePc info) (m.reg 10))
  outside : ∀ a, a < (m₁.reg 10).toNat ∨
    (m₁.reg 10).toNat + frameSize true info.wantsSiginfo ≤ a →
    m₁.mem.view c.vm a = m.mem.view c.vm a

theorem deliverSignal_spec (hs : Sound m.mem c.vm)
    (h : m.deliverSignal c (.handler info) = (true, m₁)) : Delivered c m m₁ info := by
  obtain ⟨hp, hdepth⟩ := deliverSignal_pushed hs h
  have hlen : (((m.resumed info).frameWords true info.wantsSiginfo (m.handlerSize c info)
      (m.resumePc info)).flatMap wordBytes).length = 104 := by
    rw [length_flatMap_wordBytes, length_frameWords]
    rfl
  have hframe := hp.frame
  rw [hlen] at hframe
  exact ⟨hp.base, hdepth, hp.updated.sound, hp.updated.sound.bound hp.mapped, ⟨_, hframe⟩,
    hp.ucontext rfl, hp.outside⟩

/-! ## Return -/

/-- From `m₁` to `m₂` the `n` bytes of the frame at `r10` of `m₁` stay as they are, in one
segment, and `m₂` is back at that frame. -/
structure FrameKept (c : Setup) (m₁ m₂ : Machine) (n : ℕ) : Prop where
  sound : Sound m₂.mem c.vm
  base : m₂.reg 10 = m₁.reg 10
  mapped : Mapped m₂.mem c.vm (m₁.reg 10).toNat n
  bytes : ∀ i < n, m₂.mem.view c.vm ((m₁.reg 10).toNat + i) =
    m₁.mem.view c.vm ((m₁.reg 10).toNat + i)

theorem FrameKept.read (h : FrameKept c m₁ m₂ n) {k l : ℕ} (hk : k + l ≤ n) :
    read (m₂.mem.view c.vm) ((m₁.reg 10).toNat + k) l =
      read (m₁.mem.view c.vm) ((m₁.reg 10).toNat + k) l := by
  apply read_congr
  intro i hi
  rw [Nat.add_assoc]
  exact h.bytes (k + i) (by omega)

theorem FrameKept.refilled {mem : State} (h : FrameKept c m₁ m₂ n) (hr : Refilled m₂.mem mem c.vm) :
    FrameKept c m₁ { m₂ with mem := mem } n := by
  refine ⟨hr.sound, h.base, hr.mapped h.mapped, ?_⟩
  intro i hi
  rw [hr.view]
  exact h.bytes i hi

/-- `pop_frame` on the frame of a delivered signal. -/
theorem popFrame_spec (hd : Delivered c m m₁ info)
    (hk : FrameKept c m₁ m₂ (frameSize true info.wantsSiginfo)) :
    ∃ m₃, m₂.popFrame c = (m.resumePc info, m₃) ∧
      (∀ k ≤ 10, m₃.reg k = m.resumeReg info k) ∧ m₃.signalDepth = m₂.signalDepth - 1 ∧
      (info.wantsSiginfo = true → m₃.sigmask =
        m.sigmask &&& ~~~(sigkillBit ||| sigstopBit)) := by
  have hfit : 104 ≤ frameSize true info.wantsSiginfo := by
    rw [frameSize_eq, if_pos rfl]
    split_ifs <;> omega
  obtain ⟨limit, hframe⟩ := hd.frame
  have hread := hk.read (k := 0) (l := 104) (by omega)
  rw [Nat.add_zero, hframe, ← hk.base] at hread
  have hm : Mapped m₂.mem c.vm (m₂.reg 10).toNat 104 := by
    rw [hk.base]
    exact hk.mapped.sub le_rfl (by omega)
  obtain ⟨frame, mem, hload, hload', hr⟩ := load_of_mapped hk.sound hm (by decide)
  obtain rfl := Option.some.inj (hread.symm.trans hload')
  have hflags := word_frame (m.resumed info) info.wantsSiginfo limit (m.resumePc info) (i := 0) rfl
  have hret : word _ 16 = _ :=
    word_frame (m.resumed info) info.wantsSiginfo limit (m.resumePc info) (i := 2) rfl
  rw [Nat.mul_zero] at hflags
  have hsig := frameIsSignal_make limit info.wantsSiginfo
  have hsi := frameHasSiginfo_make limit info.wantsSiginfo
  rw [← hflags] at hsig hsi
  rw [popFrame, hload]
  dsimp only
  rw [hsig, hsi, Bool.true_and, hret]
  have hreg (k : ℕ) (hk : k ≤ 10) := restoreFrame_reg { m₂ with mem := mem } (m.resumed info)
    info.wantsSiginfo limit (m.resumePc info) hk
  have hdepth : (({ m₂ with mem := mem } : Machine).restoreFrame (((m.resumed info).frameWords true
      info.wantsSiginfo limit (m.resumePc info)).flatMap wordBytes)).signalDepth =
      m₂.signalDepth - 1 := if_pos hsig
  by_cases hw : info.wantsSiginfo = true
  · have hn : frameSize true info.wantsSiginfo = 520 := by
      rw [hw]
      rfl
    have hb := hd.bound
    rw [hn, ← hk.base] at hb
    have huc := hk.read (k := 256) (l := 264) (by omega)
    rw [hd.ucontext hw, ← hk.base, ← hr.view] at huc
    have hm' : Mapped mem c.vm ((m₂.reg 10).toNat + 256) 264 := by
      rw [hk.base]
      exact hr.mapped (hk.mapped.sub (by omega) (by omega))
    rw [if_pos hw]
    obtain ⟨m₃, hpop, hregs, hd₃, hmask⟩ := sigreturn_spec
      (m := ({ m₂ with mem := mem } : Machine).restoreFrame (((m.resumed info).frameWords true
        info.wantsSiginfo limit (m.resumePc info)).flatMap wordBytes))
      (m₂.reg 10) (m.resumePc info) hr.sound (by omega) hm' huc
    refine ⟨m₃, hpop, ?_, hd₃.trans hdepth, fun _ => hmask⟩
    intro k hk'
    rw [hregs k hk']
    split_ifs with h10
    · rw [h10, resumeReg_of_ne (by decide)]
    · rfl
  · rw [if_neg hw]
    exact ⟨_, rfl, hreg, hdepth, fun h => absurd h hw⟩

/-- The next instruction is an `EXIT`. -/
def Machine.AtExit (c : Setup) (m : Machine) : Prop :=
  ∃ cur, m.insn c = some cur ∧ cur.IsExit ∧ cur.dstReg.toNat ≤ 10 ∧ cur.srcReg.toNat ≤ 10

theorem execute_exit {cur : BpfInsn} (w : World) (p : HostPtr) (h : cur.IsExit) :
    m.execute c w cur p = if (m.popFrame c).1 = 0 then (false, (m.popFrame c).2)
      else (true, { (m.popFrame c).2 with pc := (m.popFrame c).1 - 8 }) := by
  calc m.execute c w cur p
    _ = m.jmp c w cur := by
      rw [execute, h.1]
      rfl
    _ = _ := by
      rw [jmp, h.2]
      rfl

theorem advance_of_atExit (w : World) (h : m.AtExit c) :
    m.advance c w =
      if ((m.afterFetch c).popFrame c).1 = 0 then none
      else some { ((m.afterFetch c).popFrame c).2 with
        pc := ((m.afterFetch c).popFrame c).1 } := by
  obtain ⟨cur, hcur, hexit, hdst, hsrc⟩ := h
  unfold insn at hcur
  unfold advance fetch afterFetch
  generalize m.mem.mmu c.vm m.pc.toNat 8 = r at hcur
  obtain ⟨_ | p, mem⟩ := r
  · simp at hcur
  · obtain rfl := Option.some.inj hcur
    dsimp only at hexit hdst hsrc ⊢
    rw [if_neg (by omega), execute_exit w p hexit]
    split_ifs
    · rfl
    · simp only [sub_add_cancel]

/-- The `EXIT` of a handler whose frame was left alone. -/
theorem return_spec (w : World) (hd : Delivered c m m₁ info)
    (hk : FrameKept c m₁ m₂ (frameSize true info.wantsSiginfo)) (hexit : m₂.AtExit c) :
    ∃ m₃, m₂.advance c w = (if m.resumePc info = 0 then none else some m₃) ∧
      (∀ k ≤ 10, m₃.reg k = m.resumeReg info k) ∧ m₃.pc = m.resumePc info ∧
      m₃.signalDepth = m₂.signalDepth - 1 ∧
      (info.wantsSiginfo = true → m₃.sigmask =
        m.sigmask &&& ~~~(sigkillBit ||| sigstopBit)) := by
  have hk' := hk.refilled (refilled_mmu hk.sound m₂.pc.toNat 8)
  obtain ⟨m₃, hpop, hreg, hdepth, hmask⟩ := popFrame_spec hd hk'
  rw [advance_of_atExit w hexit]
  unfold afterFetch
  rw [hpop]
  exact ⟨{ m₃ with pc := m.resumePc info }, rfl, hreg, rfl, hdepth, hmask⟩

/-! ## Nesting -/

/-- The run of a handler: its instructions and what it calls, what other threads do to memory
and flags in between, restarted system calls, and further signals, each of which ends with the
`EXIT` of a handler that left its frame alone. -/
inductive HandlerRun (c : Setup) : Machine → Machine → Prop
  | done (m : Machine) : HandlerRun c m m
  | insn {w : World} {m m' m'' : Machine} (hw : w.KeepsDepth) (hexit : ¬ m.LeavesSignal c)
      (h : m.advance c w = some m') (hrest : HandlerRun c m' m'') : HandlerRun c m m''
  | other {m m' : Machine} (mem : State) (flags : U32) (insnCount : ℕ)
      (hrest : HandlerRun c { m with mem := mem, flags := flags, insnCount := insnCount } m') :
      HandlerRun c m m'
  | resume {m m' m'' : Machine} (h : m.deliverSignal c .none = (true, m'))
      (hrest : HandlerRun c m' m'') : HandlerRun c m m''
  | signal {w : World} {m m₁ m₂ m₃ m' : Machine} {info : SigInfo} (hs : Sound m.mem c.vm)
      (hdel : m.deliverSignal c (.handler info) = (true, m₁)) (hrun : HandlerRun c m₁ m₂)
      (hkept : FrameKept c m₁ m₂ (frameSize true info.wantsSiginfo)) (hexit : m₂.AtExit c)
      (h : m₂.advance c w = some m₃) (hrest : HandlerRun c m₃ m') : HandlerRun c m m'

theorem HandlerRun.signalDepth (h : HandlerRun c m₁ m₂) : m₂.signalDepth = m₁.signalDepth := by
  induction h with
  | done m => rfl
  | insn hw hexit h _ ih => exact ih.trans (advance_signalDepth hw hexit h)
  | other mem flags insnCount _ ih => exact ih
  | resume h _ ih =>
    rw [ih, ← (Prod.mk.inj h).2]
    split_ifs <;> rfl
  | @signal w m m₁ m₂ m₃ m' info hs hdel hrun hkept hexit h hrest ihrun ihrest =>
    have hd := deliverSignal_spec hs hdel
    obtain ⟨m₃', hadv, -, -, hdepth, -⟩ := return_spec w hd hkept hexit
    rw [h] at hadv
    split_ifs at hadv
    obtain rfl := Option.some.inj hadv
    rw [ihrest, hdepth, ihrun, hd.signalDepth, add_sub_cancel]

theorem callerLen_lt (c : Setup) (m : Machine) : (m.callerLen c).toNat < 2 ^ 25 := by
  rw [callerLen]
  cases (m.load c (m.reg 10) 8).1 with
  | none => exact Nat.two_pow_pos 25
  | some bs =>
    have hstack : (frameStackSize (word bs 0)).toNat ≤ 0xFFFFFF := by
      rw [frameStackSize, toNat_and]
      exact Nat.and_le_right
    have halloca : (frameAllocaLen (word bs 0)).toNat ≤ 0xFFFFFF := by
      rw [frameAllocaLen, toNat_and]
      exact Nat.and_le_right
    rw [headerLen, frameTotalLen, toNat_add]
    omega

/-- The addresses of locals and alloca area of the interrupted frame are outside the frame of
the signal. -/
theorem Delivered.locals (hd : Delivered c m m₁ info) {i : ℕ} (hi : i < (m.callerLen c).toNat) :
    m₁.mem.view c.vm (m.reg 10 - m.callerLen c + BitVec.ofNat 64 i).toNat =
      m.mem.view c.vm (m.reg 10 - m.callerLen c + BitVec.ofNat 64 i).toNat := by
  apply hd.outside
  have hlen := callerLen_lt c m
  have hfs := (frameSize_pos true info.wantsSiginfo).2
  have hb := hd.bound
  have hsp : m.reg 10 - m.callerLen c =
      m₁.reg 10 + BitVec.ofNat 64 (frameSize true info.wantsSiginfo) := by
    rw [hd.base, frameBase, sub_add_cancel]
  rw [hsp, toNat_add, toNat_add, toNat_ofNat, toNat_ofNat]
  omega

theorem and_not_of_and_eq_zero {x y : BitVec n} (h : x &&& y = 0) : x &&& ~~~y = x := by
  ext i hi
  have hbit : (x &&& y)[i] = false := by simp [h]
  rw [getElem_and, getElem_not]
  rw [getElem_and] at hbit
  cases hx : x[i] <;> cases hy : y[i] <;> simp_all

/-- A signal is transparent to the code it interrupts. -/
theorem signal_transparent {m₂ : Machine} {w : World} (hs : Sound m.mem c.vm)
    (hmask : m.sigmask &&& (sigkillBit ||| sigstopBit) = 0)
    (hdel : m.deliverSignal c (.handler info) = (true, m₁)) (hrun : HandlerRun c m₁ m₂)
    (hkept : FrameKept c m₁ m₂ (frameSize true info.wantsSiginfo)) (hexit : m₂.AtExit c)
    (hpc : m.resumePc info ≠ 0) :
    (∃ m₃, m₂.advance c w = some m₃ ∧ (∀ k ≤ 10, m₃.reg k = m.resumeReg info k) ∧
      m₃.pc = m.resumePc info ∧ m₃.signalDepth = m.signalDepth ∧
      (info.wantsSiginfo = true → m₃.sigmask = m.sigmask)) ∧
    ∀ i < (m.callerLen c).toNat,
      m₁.mem.view c.vm (m.reg 10 - m.callerLen c + BitVec.ofNat 64 i).toNat =
        m.mem.view c.vm (m.reg 10 - m.callerLen c + BitVec.ofNat 64 i).toNat := by
  have hd := deliverSignal_spec hs hdel
  refine ⟨?_, fun i hi => hd.locals hi⟩
  obtain ⟨m₃, hadv, hreg, hpc₃, hdepth, hmask₃⟩ := return_spec w hd hkept hexit
  rw [if_neg hpc] at hadv
  refine ⟨m₃, hadv, hreg, hpc₃, ?_, ?_⟩
  · rw [hdepth, hrun.signalDepth, hd.signalDepth, add_sub_cancel]
  · intro hw
    rw [hmask₃ hw]
    exact and_not_of_and_eq_zero hmask

end

section Example

/-- `EXIT`. -/
def exitInsn : BpfInsn := ⟨0x95, 0, 0, 0, 0⟩

/-- A code segment at `base` of `EXIT` instructions, and a stack of two pages. -/
def handlerImage (base : ℕ) : List BootSeg :=
  [⟨base, 0x1000, 5, fun k => exitInsn.bytes.getD (k % 8) 0⟩,
    ⟨0x10000000, 0x2000, 6, fun _ => 0⟩]

theorem bootOk_handlerImage {base : ℕ} (h : base ≤ 0x100000) : BootOk (handlerImage base) := by
  refine ⟨?_, ?_, ?_⟩ <;> simp [handlerImage, BootSeg.stop] <;> omega

/-- Interrupted at `pc`, with `r10` in the stack and `SIGUSR1` blocked. -/
def interrupted (base : ℕ) (pc : U64) : Machine :=
  { boot (handlerImage base)
      (fun k => if k = 10 then 0x100011c8 else BitVec.ofNat 64 k) pc with sigmask := 0x200 }

/-- `SIGUSR2` with a handler installed with `SA_SIGINFO`. -/
def usr2 (handler : U64) : SigInfo := ⟨12, handler, saSiginfo, 1, 7, 0, 0⟩

/-- In the handler at the second instruction, with the frame across the two pages. -/
def inHandler (base : ℕ) (pc : U64) : Machine :=
  ((interrupted base pc).deliverSignal Setup.plain (.handler (usr2 (BitVec.ofNat 64 (base + 8))))).2

theorem deliver_interrupted (base : ℕ) (pc : U64)
    (h : ((interrupted base pc).deliverSignal Setup.plain
      (.handler (usr2 (BitVec.ofNat 64 (base + 8))))).1 = true) :
    (interrupted base pc).deliverSignal Setup.plain
      (.handler (usr2 (BitVec.ofNat 64 (base + 8)))) = (true, inHandler base pc) := Prod.ext h rfl

theorem atExit_of_insn {c : Setup} {m : Machine} (h : m.insn c = some exitInsn) : m.AtExit c :=
  ⟨exitInsn, h, by decide, by decide, by decide⟩

theorem frameKept_self {c : Setup} {m : Machine} (hs : Sound m.mem c.vm)
    (hm : Mapped m.mem c.vm (m.reg 10).toNat n) : FrameKept c m m n :=
  ⟨hs, rfl, hm, fun _ _ => rfl⟩

theorem signal_transparent_usr2 :
    (∃ m₃, (inHandler 0x1000 0x1008).advance Setup.plain World.quiet = some m₃ ∧
      (∀ k ≤ 10, m₃.reg k = (interrupted 0x1000 0x1008).resumeReg (usr2 0x1008) k) ∧
      m₃.pc = 0x1008 ∧ m₃.signalDepth = 0 ∧
      ((usr2 0x1008).wantsSiginfo = true → m₃.sigmask = 0x200)) ∧
    ∀ i < ((interrupted 0x1000 0x1008).callerLen Setup.plain).toNat,
      (inHandler 0x1000 0x1008).mem.view 0 ((interrupted 0x1000 0x1008).reg 10 -
        (interrupted 0x1000 0x1008).callerLen Setup.plain + BitVec.ofNat 64 i).toNat =
      (interrupted 0x1000 0x1008).mem.view 0 ((interrupted 0x1000 0x1008).reg 10 -
        (interrupted 0x1000 0x1008).callerLen Setup.plain + BitVec.ofNat 64 i).toNat := by
  have hs : Sound (interrupted 0x1000 0x1008).mem 0 := sound_boot (bootOk_handlerImage (by decide))
  have hdel := deliver_interrupted 0x1000 0x1008 (by decide)
  have hm : Mapped (inHandler 0x1000 0x1008).mem 0
      ((inHandler 0x1000 0x1008).reg 10).toNat 520 :=
    ⟨_, List.mem_cons_of_mem _ List.mem_cons_self, by decide, by decide⟩
  exact signal_transparent hs (by decide) hdel (.done _)
    (frameKept_self (deliverSignal_spec hs hdel).sound hm)
    (atExit_of_insn (by decide)) (by decide)

/-- A handler for `info` runs from `m₁`, where it interrupts `m`, to its `EXIT` in `m₂` and leaves
the bytes of its frame alone. -/
structure HandlerEnds (c : Setup) (m m₁ m₂ : Machine) (info : SigInfo) : Prop where
  caught : info.handler ≠ 0 ∧ info.handler ≠ 1
  header : (m.load c (m.reg 10) 8).1 ≠ none
  mask : m.sigmask &&& (sigkillBit ||| sigstopBit) = 0
  delivered : m.deliverSignal c (.handler info) = (true, m₁)
  run : HandlerRun c m₁ m₂
  base : m₂.reg 10 = m₁.reg 10
  bytes : ∀ i < frameSize true info.wantsSiginfo,
    m₂.mem.view c.vm ((m₁.reg 10).toNat + i) = m₁.mem.view c.vm ((m₁.reg 10).toNat + i)
  exit : m₂.AtExit c

/-- Another thread has made the second page of the stack a segment of its own. -/
def splitStack : State :=
  ((inHandler 0x1000 0x1000).mem.doMprotect Setup.plain.env 9 0 0x10001000 0x1000 3).elim
    State.empty Prod.snd

def secondThread : Setup := { Setup.plain with vm := 1 }

/-- The second thread has used the stack, which the first one then replaces. -/
def replacedStack : State :=
  (State.doMmap Setup.plain.env (((State.boot (handlerImage 0x1000)).cloneSpace 0
    ⟨true, true, 0, none, none, none, [], true⟩).mmu 1 0x10000fc0 1).2 0
    ⟨0x10000000, 0x2000, 3, 0x32, false, fun _ => 0⟩).elim State.empty Prod.snd

def staleVm : Machine := { interrupted 0x1000 0x1000 with mem := replacedStack }

def staleHandler : Machine := (staleVm.deliverSignal secondThread (.handler (usr2 0x1008))).2

/-- Code at address 0 is not resumed: its address is the return address that ends the vm. Nor is
any code if the frame no longer lies in one segment, or if it went through a stale entry of the TLB
to pages that are no longer mapped. -/
theorem handler_end_stops :
    (∃ (c : Setup) (m m₁ m₂ : Machine) (info : SigInfo), HandlerEnds c m m₁ m₂ info ∧
      Sound m.mem c.vm ∧ FrameKept c m₁ m₂ (frameSize true info.wantsSiginfo) ∧
      m₂.advance c World.quiet = none) ∧
    (∃ (c : Setup) (m m₁ m₂ : Machine) (info : SigInfo), HandlerEnds c m m₁ m₂ info ∧
      Sound m.mem c.vm ∧ m.resumePc info ≠ 0 ∧ m₂.advance c World.quiet = none) ∧
    ∃ (c : Setup) (m m₁ m₂ : Machine) (info : SigInfo), HandlerEnds c m m₁ m₂ info ∧
      Mapped m₂.mem c.vm (m₁.reg 10).toNat (frameSize true info.wantsSiginfo) ∧
      m.resumePc info ≠ 0 ∧ m₂.advance c World.quiet = none := by
  refine ⟨⟨Setup.plain, interrupted 0 0, inHandler 0 0, inHandler 0 0, usr2 8, ?_⟩,
    ⟨Setup.plain, interrupted 0x1000 0x1000, inHandler 0x1000 0x1000,
      { inHandler 0x1000 0x1000 with mem := splitStack }, usr2 0x1008, ?_⟩,
    ⟨secondThread, staleVm, staleHandler,
      { staleHandler with mem := staleHandler.mem.flushTlb 1 }, usr2 0x1008, ?_⟩⟩
  · have hs : Sound (interrupted 0 0).mem 0 := sound_boot (bootOk_handlerImage (by decide))
    have hdel := deliver_interrupted 0 0 (by decide +kernel)
    have hm : Mapped (inHandler 0 0).mem 0 ((inHandler 0 0).reg 10).toNat 520 :=
      ⟨_, List.mem_cons_of_mem _ List.mem_cons_self, by decide, by decide⟩
    exact ⟨⟨by decide, by decide, by decide, hdel, .done _, rfl, fun _ _ => rfl,
      atExit_of_insn (by decide +kernel)⟩, hs,
      frameKept_self (deliverSignal_spec hs hdel).sound hm, by decide +kernel⟩
  · have hdel := deliver_interrupted 0x1000 0x1000 (by decide +kernel)
    exact ⟨⟨by decide, by decide, by decide, hdel, .other _ _ _ (.done _), rfl, by decide +kernel,
      atExit_of_insn (by decide +kernel)⟩,
      sound_boot (bootOk_handlerImage (by decide)), by decide, by decide +kernel⟩
  · have hdel : staleVm.deliverSignal secondThread (.handler (usr2 0x1008)) =
        (true, staleHandler) := Prod.ext (by decide +kernel) rfl
    have hm : Mapped (staleHandler.mem.flushTlb 1) 1 (staleHandler.reg 10).toNat 520 :=
      ⟨_, List.mem_cons_of_mem _ List.mem_cons_self, by decide +kernel, by decide +kernel⟩
    exact ⟨⟨by decide, by decide +kernel, by decide, hdel, .other _ _ _ (.done _), rfl,
      fun _ _ => by simp [State.view], atExit_of_insn (by decide +kernel)⟩, hm, by decide,
      by decide +kernel⟩

end Example

end Bpfvm.Cpu
