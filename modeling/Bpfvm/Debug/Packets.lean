import Mathlib.Data.UInt

/-!
# Packets of the debug server

`recv_packet` takes the next packet off the byte stream of the debugger, and the packet loop of
`server_loop` hands it to `handle_packet`. In acknowledged mode `recv_packet` answers `-` to a
packet with a wrong checksum but returns it all the same, so that the loop carries it out; the
packet that the debugger then sends again is carried out a second time.

`handle_packet` is a parameter but for `QStartNoAckMode`, which ends the acknowledged mode, and the
`D` that ends the session, after which it is on again.
-/
namespace Bpfvm.Debug

def bytes (s : String) : List UInt8 := s.toList.map Char.toUInt8

/-- A hexadecimal digit; `none` is the `-1` of the source. -/
def hexVal (c : UInt8) : Option UInt8 :=
  if '0'.toUInt8 ≤ c ∧ c ≤ '9'.toUInt8 then some (c - '0'.toUInt8)
  else if 'a'.toUInt8 ≤ c ∧ c ≤ 'f'.toUInt8 then some (c - 'a'.toUInt8 + 10)
  else if 'A'.toUInt8 ≤ c ∧ c ≤ 'F'.toUInt8 then some (c - 'A'.toUInt8 + 10)
  else none

/-- What is received of a packet: the bytes between `$` and `#`, and the two after. -/
structure Frame where
  data : List UInt8
  hi : UInt8
  lo : UInt8

def Frame.cksum (f : Frame) : UInt8 := f.data.foldl (· + ·) 0

/-- The checksum matches. -/
def Frame.intact (f : Frame) : Bool :=
  match hexVal f.hi, hexVal f.lo with
  | some hi, some lo => hi <<< 4 ||| lo == f.cksum
  | _, _ => false

/-- What the server sends, and the packets that it carries out. -/
inductive Event where
  | ack (c : Char)
  | exec (pkt : List UInt8)
  | reply (pkt : List UInt8)
  deriving DecidableEq

/-- The next packet of the stream, with the acknowledgement that is sent for it; `none` at the
end of the stream. -/
def recvPacket (noAck : Bool) (input : List UInt8) : Option (List Event × Frame × List UInt8) :=
  match input.dropWhile (· ≠ '$'.toUInt8) with
  | [] => none
  | _ :: body =>
    match body.dropWhile (· ≠ '#'.toUInt8) with
    | _ :: hi :: lo :: rest =>
      let f : Frame := ⟨body.takeWhile (· ≠ '#'.toUInt8), hi, lo⟩
      some (if noAck then [] else [.ack (if f.intact then '+' else '-')], f, rest)
    | _ => none

/-- One turn of the packet loop, in the mode that it began in. -/
structure Round where
  frame : Frame
  noAck : Bool
  events : List Event

/-- The server: its mode, and what its other commands work on. -/
structure GdbServer (σ : Type*) where
  noAck : Bool
  rest : σ

/-- The other commands, and whether `decode_tid` finds a vm. -/
structure Commands (σ : Type*) where
  run : σ → List UInt8 → σ × Option (List UInt8)
  decodeTid : σ → List UInt8 → Bool

variable {σ : Type*} (handle : Commands σ)

/-- The packet is `D` and detaches no vm that it names, so that `end_session` is called. -/
def Commands.endsSession (s : σ) (pkt : List UInt8) : Bool :=
  pkt.head? == some 'D'.toUInt8 &&
    match pkt.dropWhile (· ≠ ';'.toUInt8) with
    | [] => true
    | _ :: tid => !handle.decodeTid s tid

namespace GdbServer

/-- The reply is `none` where the command has sent its own. -/
def handlePacket (s : GdbServer σ) (pkt : List UInt8) : GdbServer σ × Option (List UInt8) :=
  if pkt = bytes "QStartNoAckMode" then ({ s with noAck := true }, some (bytes "OK"))
  else
    let x := handle.run s.rest pkt
    (⟨s.noAck && !handle.endsSession s.rest pkt, x.1⟩, x.2)

/-- What the loop does with a packet that is received. -/
def turn (s : GdbServer σ) (acks : List Event) (f : Frame) : Round × GdbServer σ :=
  if f.data = [] then (⟨f, s.noAck, acks ++ [.reply []]⟩, s)
  else
    let x := s.handlePacket handle f.data
    (⟨f, s.noAck, acks ++ .exec f.data :: (x.2.map .reply).toList⟩, x.1)

/-- The packet loop, until the stream ends or the server is stopped after `n` packets. -/
def serverLoop : ℕ → GdbServer σ → List UInt8 → List Round
  | 0, _, _ => []
  | n + 1, s, input =>
    match recvPacket s.noAck input with
    | none => []
    | some (acks, f, rest) =>
      (s.turn handle acks f).1 :: serverLoop n (s.turn handle acks f).2 rest

end GdbServer

/-- A damaged packet is refused and not carried out; a packet that is carried out was accepted
before, and is carried out once. -/
structure Round.Framed (r : Round) : Prop where
  refused : r.frame.intact = false → .ack '-' ∈ r.events ∧ ∀ p, .exec p ∉ r.events
  executed : ∀ p, .exec p ∈ r.events →
    ∃ l, r.events = .ack '+' :: .exec p :: l ∧ ∀ q, .exec q ∉ l

theorem recvPacket_acks {input rest : List UInt8} {acks : List Event} {f : Frame}
    (h : recvPacket false input = some (acks, f, rest)) :
    acks = [.ack (if f.intact then '+' else '-')] := by
  unfold recvPacket at h
  split at h
  · cases h
  · split at h
    · cases h
      rfl
    · cases h

section

variable {n : ℕ} {s : GdbServer σ} {input : List UInt8} {r : Round}

theorem turn_round (s : GdbServer σ) (acks : List Event) (f : Frame) :
    ∃ reply : Option (List UInt8), (s.turn handle acks f).1 = ⟨f, s.noAck, acks ++
      ((if f.data = [] then [] else [.exec f.data]) ++ (reply.map .reply).toList)⟩ := by
  unfold GdbServer.turn
  by_cases hd : f.data = []
  · exact ⟨some [], by simp [hd]⟩
  · exact ⟨(s.handlePacket handle f.data).2, by simp [hd]⟩

theorem round_events (h : r ∈ s.serverLoop handle n input) (hr : r.noAck = false) :
    ∃ reply : Option (List UInt8), r.events = .ack (if r.frame.intact then '+' else '-') ::
      ((if r.frame.data = [] then [] else [.exec r.frame.data]) ++ (reply.map .reply).toList) := by
  induction n generalizing s input with
  | zero => cases h
  | succ n ih =>
    rw [GdbServer.serverLoop] at h
    split at h
    · cases h
    next acks f rest hrecv =>
      rcases List.mem_cons.mp h with he | h
      · obtain ⟨reply, hround⟩ := turn_round handle s acks f
        obtain rfl := he.trans hround
        rw [show s.noAck = false from hr] at hrecv
        exact ⟨reply, congrArg (· ++ _) (recvPacket_acks hrecv)⟩
      · exact ih h

/-- A round in acknowledged mode goes by the acknowledgement exactly if its packet is intact, or
is empty and so not carried out. -/
theorem framed_iff_intact (h : r ∈ s.serverLoop handle n input) (hr : r.noAck = false) :
    r.Framed ↔ r.frame.intact = true ∨ r.frame.data = [] := by
  obtain ⟨reply, he⟩ := round_events handle h hr
  have hreply : ∀ q, Event.exec q ∉ (reply.map .reply).toList := by simp
  by_cases hd : r.frame.data = []
  · have hno : ∀ p, .exec p ∉ r.events := by simp [he, hd]
    refine iff_of_true ⟨fun hbad => ⟨?_, hno⟩, fun p hp => absurd hp (hno p)⟩ (Or.inr hd)
    rw [he, hbad]
    exact List.mem_cons_self
  · rw [if_neg hd] at he
    constructor
    · intro hF
      refine Or.inl (Bool.not_eq_false _ ▸ fun hbad => ?_)
      exact (hF.refused hbad).2 r.frame.data (by simp [he])
    · intro hok
      have hgood := hok.resolve_right hd
      rw [if_pos hgood] at he
      refine ⟨fun hbad => absurd hgood (by simp [hbad]), fun p hp => ?_⟩
      obtain rfl : p = r.frame.data := by simpa [he] using hp
      exact ⟨_, he, hreply⟩

end

/-- Acknowledged mode keeps its promise on a stream exactly if every packet of it that is received
in that mode, the empty ones apart, has its checksum right. -/
theorem framing_iff (n : ℕ) (s : GdbServer σ) (input : List UInt8) :
    (∀ r ∈ s.serverLoop handle n input, r.noAck = false → r.Framed) ↔
      ∀ r ∈ s.serverLoop handle n input, r.noAck = false → r.frame.data ≠ [] →
        r.frame.intact = true := by
  refine forall₃_congr fun r h hr => ?_
  rw [framed_iff_intact handle h hr, or_iff_not_imp_right]

/-- A damaged `c`, and the same packet sent again: the server continues the vms twice. -/
theorem damaged_packet_executed :
    (GdbServer.serverLoop ⟨fun (n : ℕ) _ => (n + 1, none), fun _ _ => false⟩ 3 ⟨false, 0⟩
      (bytes "$c#64$c#63")).map Round.events =
      [[.ack '-', .exec (bytes "c")], [.ack '+', .exec (bytes "c")]] := by
  decide +kernel

end Bpfvm.Debug
