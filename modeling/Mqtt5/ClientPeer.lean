import Mqtt5.ClientWire
import Mqtt5.WireFidelity
import Mqtt5.WirePacketReader
import Mqtt5.WireTruncation

/-!
# What the peer reads

The bytes that a client puts on the wire, read at the other end by readers like its own.
Every packet that any run submits is one frame of a type that clients send; if the parts of
the packets are transmitted in turn, the peer gets these packets, one after the other.
-/
namespace Mqtt5.ClientPeer
open ByteParser ByteWriter WirePrimitives WirePublish WireConnect WireControlPacket WireHeader
open WireFraming WireStreams WirePacketReader WireRoundTrip WireFidelity WireTruncation
open CallMachine ClientState ClientSession ClientActs ClientStream ClientWire OutstandingWrites

/-! ## Frames of encoded packets -/

/-- The types of the packets that a client may send. -/
def fromClient : List BodyType :=
  [.connect, .publish, .puback, .pubrec, .pubrel, .pubcomp, .subscribe, .unsubscribe, .pingreq,
    .disconnect]

/-- The flags that each type of packet is written with. -/
def headerFlags : ControlPacket → UInt8
  | .publish p => p.headerFlags
  | .pubrel _ | .subscribe _ | .unsubscribe _ => 2
  | _ => 0

theorem serialize_writePacket (p : ControlPacket) :
    p.serialize = writePacket (packetType p) (headerFlags p) (bodyOf p) := by
  cases p <;> rfl

theorem typeValue_lt (T : BodyType) : T.typeValue.toNat < 16 := by
  cases T <;> decide

/-- An encoded packet is one frame, under a header that says what it is. -/
theorem frameWord_of_emit {p : ControlPacket} {frame : Bytes} (h : p.serialize = .emit frame)
    (hlen : frame.length < 2 ^ 32) : ∃ header body, FrameWord header body frame ∧
      bodyOf p = .emit body ∧ header.typeFlags = typeFlagsByte (packetType p) (headerFlags p) := by
  rw [serialize_writePacket] at h
  obtain ⟨body, hbody, hrun⟩ := writePacket_emit h hlen
  obtain ⟨hread, hsize⟩ := hrun []
  rw [List.append_nil, List.append_nil] at hread
  obtain ⟨enc, hsplit, hw⟩ := (Header.deserialize_parses _ _ _).mp hread
  refine ⟨_, body, ⟨enc, hsplit, hw, ?_⟩, hbody, rfl⟩
  rw [UInt32.toNat_ofNat', Nat.mod_eq_of_lt hsize]

/-- A packet that fits its wire format is a frame of what its decoder makes of it. -/
theorem frame_received {p : ControlPacket} {frame : Bytes} (hp : WellFormed p)
    (h : p.serialize = .emit frame) (hlen : frame.length < 2 ^ 32) : Frame frame (received p) := by
  obtain ⟨header, body, ⟨enc, hsplit, hw, hsize⟩, -, -⟩ := frameWord_of_emit h hlen
  have hheader := Header.deserialize_parses.decodes hw (body ++ [])
  have hpacket := reads_controlPacket hp h hlen []
  rw [List.append_nil] at hpacket
  rw [List.append_nil, ← hsplit] at hheader
  refine ⟨header, body, ⟨enc, hsplit, hw, hsize⟩, ?_⟩
  apply decodeBody_of_deserialize hsize _ hpacket
  rw [hheader, List.append_nil]

/-! ## The packets of a run -/

/-- A packet that is given to the stream is one that a client sends, and was encoded. -/
def Outbound : Effect → Prop
  | .sent packet _ => alternative packet ∈ fromClient ∧ Encodes packet
  | _ => True

/-- The first half of it. -/
def FromClient (e : Effect) : Prop :=
  ∀ packet receiver, e = .sent packet receiver → alternative packet ∈ fromClient

theorem fromClient_of_sending {e : Effect} (h : e.Sending) : FromClient e := by
  rintro packet receiver rfl
  cases packet <;> first | exact h.elim | simp [alternative, fromClient]

theorem fromClient_of_receiving {e : Effect} (h : e.Receiving) : FromClient e := by
  rintro packet receiver rfl
  cases packet <;> first | exact h.elim | simp [alternative, fromClient]

theorem fromClient_of_quiet {e : Effect} (h : e.Quiet) : FromClient e := by
  rintro packet receiver rfl
  cases packet <;> first | exact h.elim | simp [alternative, fromClient]

theorem fromClient_of_requested {e : Effect} (h : Requested e) : FromClient e := by
  obtain h | ⟨reason, rfl⟩ | rfl := h
  · exact fromClient_of_sending h
  · rintro packet receiver ⟨⟩
    simp [alternative, fromClient]
  · rintro packet receiver ⟨⟩

theorem fromClient_main {c : Client} {e : Event} {r : Reaction} (h : c.MainTurn e r) :
    ∀ e ∈ r.effects, FromClient e := by
  intro e he
  cases h with
  | packet p =>
    obtain hside | hside := c.handlePacket_side p
    · exact fromClient_of_receiving (hside.effects e he)
    · exact fromClient_of_sending (hside.effects e he)
  | pubackSent => exact fromClient_of_receiving (c.handlePubackSent_receives.effects e he)
  | connack p =>
    obtain ⟨_, _, hack⟩ := { c with main := .connected }.handleConnack_eq p
    rw [hack] at he
    cases he
  | disconnect =>
    rw [List.mem_singleton.mp he]
    rintro packet receiver ⟨⟩
  | handshake | ignored => cases he

theorem fromClient_respond {c : Client} {call : Call} {a : Action} {r : Reaction}
    (h : c.respond call a = some r) : ∀ e ∈ r.effects, FromClient e := by
  intro e he
  cases Client.respond_turn h with
  | main event r hturn =>
    obtain he | he := List.mem_append.mp he
    · exact fromClient_main hturn e he
    · rw [List.mem_singleton.mp he]
      rintro packet receiver ⟨⟩
  | anonymous hmain =>
    rw [(Client.anonymous_same hmain).2.2 e he]
    rintro packet receiver ⟨⟩
    simp [alternative, fromClient]
  | maybeSend => exact fromClient_of_sending (c.maybeSend_sends.effects e he)
  | operate op => exact fromClient_of_requested (operate_effects c op e he)
  | close =>
    rw [List.mem_singleton.mp he]
    rintro packet receiver ⟨⟩
  | quiet _ _ _ hquiet => exact fromClient_of_quiet (hquiet.effects e he)

theorem encodes_acts {Other : Client → Client → Prop} {c d : Client} {effects : List Effect}
    (h : Acts Other c d effects) {packet : ControlPacket} {receiver : WriteReceiver}
    (hsent : .sent packet receiver ∈ effects) : Encodes packet := by
  induction h with
  | nothing => cases hsent
  | write _ packet' receiver' buffer hbuffer ih =>
    obtain heq | hsent := List.mem_cons.mp hsent
    · cases heq
      exact encodes_iff.mpr ⟨buffer, Written.result_ok_iff.mp hbuffer⟩
    · exact ih hsent
  | exchange _ ih => exact ih hsent
  | note _ he ih =>
    obtain rfl | hsent := List.mem_cons.mp hsent
    · exact he.elim
    · exact ih hsent
  | other _ _ ih => exact ih hsent

theorem encodes_respond {c : Client} {call : Call} {a : Action} {r : Reaction}
    (h : c.respond call a = some r) {packet : ControlPacket} {receiver : WriteReceiver}
    (hsent : .sent packet receiver ∈ r.effects) : Encodes packet := by
  cases respond_acts h with
  | filterSubscribe => cases hsent
  | waiter => cases List.mem_singleton.mp hsent
  | rx e =>
    have hturn := dispatch_rx c e
    generalize c.dispatch e .rx = r at hturn hsent
    cases hturn with
    | disconnect => cases List.mem_singleton.mp hsent
    | handshake | packet | ignored => cases hsent
  | performs _ _ _ hperforms =>
    cases hperforms with
    | acts _ hacts => exact encodes_acts hacts hsent
    | delivers hacts =>
      obtain heq | hsent := List.mem_cons.mp hsent
      · cases heq
      · exact encodes_acts hacts hsent

theorem outbound_run {ok : Config → Action → Prop} {c : Config} (run : client.Run ok initial c) :
    ∀ e ∈ c.log, Outbound e := by
  refine run.logged (by simp [initial]) ?_ ?_
  · intro c a r hr e he
    cases e with
    | sent packet receiver =>
      have hquiet := (Client.arrive_quiet hr).effects _ he
      cases packet with
      | pingreq => exact ⟨by decide, encodes_pingreq⟩
      | _ => exact hquiet.elim
    | _ => trivial
  · intro c call a r hr e he
    cases e with
    | sent packet receiver =>
      exact ⟨fromClient_respond hr _ he packet receiver rfl, encodes_respond hr he⟩
    | _ => trivial

/-- A step of the client and its stream is one of the client, or none. -/
theorem run_of_wired {ok : Wired → WireAction → Bool} {w : Wired} (run : Wired.Run ok w) :
    client.Run (fun _ _ => True) initial w.config := by
  induction run with
  | refl => exact .refl
  | tail _ hstep ih =>
    obtain ⟨a, -, hstep⟩ := hstep
    cases a with
    | client a =>
      rw [Wired.step] at hstep
      split at hstep
      case isTrue =>
        obtain ⟨config, hconfig, rfl⟩ := Option.map_eq_some_iff.mp hstep
        exact .tail a ih trivial hconfig
      case isFalse => cases hstep
    | transmit write n =>
      obtain ⟨place, -, hstep⟩ := Option.bind_eq_some_iff.mp hstep
      obtain ⟨stream, -, hstep⟩ := Option.bind_eq_some_iff.mp hstep
      cases hstep
      exact ih

def sentPacket : Effect → Option ControlPacket
  | .sent packet _ => some packet
  | _ => none

/-- The packets that were given to the stream, the first one first. -/
def sentPackets (log : List Effect) : List ControlPacket := (log.filterMap sentPacket).reverse

theorem encoded_sentPackets {log : List Effect} (h : ∀ e ∈ log, Outbound e) :
    List.Forall₂ (fun p frame => p.serialize = .emit frame) (sentPackets log)
      (encodedPackets log) := by
  rw [sentPackets, encodedPackets, List.forall₂_reverse_iff]
  induction log with
  | nil => exact .nil
  | cons e log ih =>
    have hlog := ih fun e he => h e (List.mem_cons_of_mem _ he)
    cases e with
    | sent packet receiver =>
      obtain ⟨frame, hframe⟩ := encodes_iff.mp (h _ List.mem_cons_self).2
      have hencoded : encoded (.sent packet receiver) = some frame := by
        rw [encoded, Written.result_ok_iff.mpr hframe]
        rfl
      rw [List.filterMap_cons_some (show sentPacket (.sent packet receiver) = some packet from rfl),
        List.filterMap_cons_some hencoded]
      exact .cons hframe hlog
    | _ => exact hlog

theorem sent_fromClient {log : List Effect} (h : ∀ e ∈ log, Outbound e) :
    ∀ p ∈ sentPackets log, alternative p ∈ fromClient := by
  intro p hp
  obtain ⟨e, he, hsent⟩ := List.mem_filterMap.mp (List.mem_reverse.mp hp)
  cases e with
  | sent packet receiver =>
    cases hsent
    exact (h _ he).1
  | _ => cases hsent

/-- The packet that is written in a buffer, unless it is larger than a length can count. -/
structure WritesFrame (p : ControlPacket) (frame : Bytes) : Prop where
  fromClient : alternative p ∈ fromClient
  framed : frame.length < 2 ^ 32 → ∃ header body, FrameWord header body frame ∧
    bodyOf p = .emit body ∧ header.type = packetType p ∧ header.flags = headerFlags p &&& 0x0F

/-- What is given to the stream, in whatever order it is transmitted, is one frame for each
packet, with the type and the flags of the packet and a length that counts its body. -/
theorem submitted_are_frames {ok : Wired → WireAction → Bool} {w : Wired} (run : Wired.Run ok w) :
    List.Forall₂ WritesFrame (sentPackets w.config.log) w.stream.buffers := by
  have hout := outbound_run (run_of_wired run)
  have hboth := (List.forall₂_and_left _ _).mpr ⟨sent_fromClient hout, encoded_sentPackets hout⟩
  rw [(Wired.onTheWire_run run).packets]
  refine hboth.imp ?_
  intro p frame ⟨hclient, hframe⟩
  refine ⟨hclient, fun hlen => ?_⟩
  obtain ⟨header, body, hword, hbody, htype⟩ := frameWord_of_emit hframe hlen
  refine ⟨header, body, hword, hbody, header_type htype (typeValue_lt _), ?_⟩
  rw [Header.flags, htype, typeFlagsByte_flags]

/-! ## The peer's readers -/

/-- A packet that fits its wire format, and whose frame a 32-bit number can count. -/
structure Sendable (p : ControlPacket) : Prop where
  wellFormed : WellFormed p
  sized : ∀ frame, p.serialize = .emit frame → frame.length < 2 ^ 32

theorem exists_received {packets : List ControlPacket} {encoded : List Bytes}
    (h : List.Forall₂ (fun p frame => p.serialize = .emit frame) packets encoded)
    (hpackets : ∀ p ∈ packets, Sendable p) : ∃ frames : List (Bytes × ControlPacket),
      (∀ f ∈ frames, Frame f.1 f.2) ∧ frames.map (·.1) = encoded ∧
      frames.map (·.2) = packets.map received := by
  induction h with
  | nil => exact ⟨[], by simp, rfl, rfl⟩
  | @cons p frame packets encoded hframe _ ih =>
    obtain ⟨frames, hall, hencoded, hreceived⟩ :=
      ih fun q hq => hpackets q (List.mem_cons_of_mem _ hq)
    have hp := hpackets p List.mem_cons_self
    refine ⟨(frame, received p) :: frames, ?_, ?_, ?_⟩
    · exact List.forall_mem_cons.mpr
        ⟨frame_received hp.wellFormed hframe (hp.sized frame hframe), hall⟩
    · rw [List.map_cons, hencoded]
    · rw [List.map_cons, List.map_cons, hreceived]

/-- All that a stream was given has been transmitted. -/
def Drained (w : Wired) : Prop := ∀ write ∈ w.stream.writes, write.rest = []

theorem Drained.bytes {w : Wired} (h : Drained w) (hconsecutive : w.stream.Consecutive) :
    w.stream.bytes = w.stream.buffers.flatten := by
  rw [hconsecutive.bytes, Stream.buffers]
  congr 1
  apply List.map_congr_left
  intro write hwrite
  rw [Write.buffer, h write hwrite, List.append_nil]

/-- A peer that reads what was transmitted so far, in chunks of any sizes, gets some of the
packets that were sent, the first ones, as the codec hands them on, and waits for the rest of
the next one; when all has been transmitted it gets all of them. -/
theorem peer_reads_sent {ok : Wired → WireAction → Bool} {w : Wired} (run : Wired.Run ok w)
    (hturn : ∀ v a, ok v a = true → v.inTurn a = true)
    (hsent : ∀ p ∈ sentPackets w.config.log, Sendable p) {chunks : List Bytes}
    (hchunks : chunks.flatten = w.stream.bytes) {readers : ℕ}
    (hreaders : (sentPackets w.config.log).length < readers) :
    ∃ packets tail outcome, readAll readers ⟨[], chunks⟩ = some (packets, outcome) ∧
      packets <+: (sentPackets w.config.log).map received ∧
      Incomplete tail ∧ Holds outcome tail ∧
      (Drained w → packets = (sentPackets w.config.log).map received ∧ outcome = .waiting none []) := by
  have hconsecutive := Wired.consecutive_run run hturn
  have hpackets := (Wired.onTheWire_run run).packets
  obtain ⟨frames, hf, hencoded, hreceived⟩ :=
    exists_received (encoded_sentPackets (outbound_run (run_of_wired run))) hsent
  have hbuffers : w.stream.buffers.flatten = (frames.map (·.1)).flatten := by
    rw [hpackets, hencoded]
  have hlength : frames.length = (sentPackets w.config.log).length := by
    rw [← List.length_map, hreceived, List.length_map]
  obtain ⟨taken, left, tail, rfl, hsplit, htail⟩ :=
    exists_frames hf (hbuffers ▸ hconsecutive.isPrefix)
  have hrest : (⟨[], chunks⟩ : ChunkedInput.Input UInt8).rest =
      (taken.map (·.1)).flatten ++ tail := hchunks.trans hsplit
  rw [List.length_append] at hlength
  obtain ⟨outcome, hall, hholds⟩ := readAll_frames
    (fun f hmem => hf f (List.mem_append_left _ hmem)) htail hrest
    (show taken.length < readers by omega)
  refine ⟨taken.map (·.2), tail, outcome, hall, ?_, htail, hholds, ?_⟩
  · rw [← hreceived, List.map_append]
    exact List.prefix_append _ _
  · intro hdrained
    have hwhole : (⟨[], chunks⟩ : ChunkedInput.Input UInt8).rest =
        ((taken ++ left).map (·.1)).flatten ++ [] := by
      rw [List.append_nil, ← hbuffers, ← hdrained.bytes hconsecutive]
      exact hchunks
    obtain ⟨outcome', hall', hnil⟩ := readAll_frames hf incomplete_nil hwhole
      (show (taken ++ left).length < readers by rw [List.length_append]; omega)
    rw [hall] at hall'
    obtain ⟨hsame, rfl⟩ := Prod.mk.inj (Option.some.inj hall')
    exact ⟨hsame.trans hreceived, holds_nil hnil⟩

/-- The first publish and two bytes of the second have been transmitted. -/
def twoSent : List WireAction := twoPublishes ++ [.transmit 0 6, .transmit 1 2]

def publishedTwice : List ControlPacket := [.publish { topic := [97] }, .publish { topic := [98] }]

theorem exists_twoSent : ∃ w, Wired.Run Wired.inTurn w ∧
    w.stream.bytes = [48, 4, 0, 1, 97, 0, 48, 4] ∧ sentPackets w.config.log = publishedTwice ∧
    w.stream.buffers = [[48, 4, 0, 1, 97, 0], [48, 4, 0, 1, 98, 0]] := by
  have hsteps : (({} : Wired).stepsWhile Wired.inTurn twoSent).map
      (fun w => (w.stream.bytes, sentPackets w.config.log, w.stream.buffers)) =
        some ([48, 4, 0, 1, 97, 0, 48, 4], publishedTwice,
          [[48, 4, 0, 1, 97, 0], [48, 4, 0, 1, 98, 0]]) := by
    decide +kernel
  obtain ⟨w, hw, hfacts⟩ := Option.map_eq_some_iff.mp hsteps
  simp only [Prod.mk.injEq] at hfacts
  obtain ⟨hbytes, hsent, hbuffers⟩ := hfacts
  exact ⟨w, Wired.run_of_stepsWhile .refl hw, hbytes, hsent, hbuffers⟩

theorem submitted_frames_two : ∃ w, Wired.Run Wired.inTurn w ∧ List.Forall₂ WritesFrame
    publishedTwice [[48, 4, 0, 1, 97, 0], [48, 4, 0, 1, 98, 0]] := by
  obtain ⟨w, run, -, hsent, hbuffers⟩ := exists_twoSent
  refine ⟨w, run, ?_⟩
  rw [← hsent, ← hbuffers]
  exact submitted_are_frames run

theorem sendable_plain {topic : Bytes} (frame : Bytes) (htopic : Sized topic)
    (hframe : (ControlPacket.publish { topic }).serialize = .emit frame)
    (hlen : frame.length < 2 ^ 32) : Sendable (.publish { topic }) where
  wellFormed :=
    { topic := htopic
      identifier := iff_of_false (not_not.mpr rfl) (not_not.mpr
        (show Publish.qualityOfService {} = qos0 by decide))
      properties := (⟨by decide, by decide, nofun, nofun⟩ :
        PublishProperties.asSection.WellFormed {}) }
  sized other hother := by
    rw [hframe] at hother
    cases hother
    exact hlen

theorem sendable_publishedTwice : ∀ p ∈ publishedTwice, Sendable p := by
  intro p hp
  simp only [publishedTwice, List.mem_cons, List.not_mem_nil, or_false] at hp
  obtain rfl | rfl := hp
  · exact sendable_plain [48, 4, 0, 1, 97, 0] (by decide) (by decide) (by decide)
  · exact sendable_plain [48, 4, 0, 1, 98, 0] (by decide) (by decide) (by decide)

theorem exists_allSent : ∃ w, Wired.Run Wired.inTurn w ∧
    w.stream.bytes = [48, 4, 0, 1, 97, 0, 48, 4, 0, 1, 98, 0] ∧
    sentPackets w.config.log = publishedTwice ∧ Drained w := by
  have hsteps : (({} : Wired).stepsWhile Wired.inTurn (twoSent ++ [.transmit 1 4])).map
      (fun w => (w.stream.bytes, sentPackets w.config.log, w.stream.writes.map (·.rest))) =
        some ([48, 4, 0, 1, 97, 0, 48, 4, 0, 1, 98, 0], publishedTwice, [[], []]) := by
    decide +kernel
  obtain ⟨w, hw, hfacts⟩ := Option.map_eq_some_iff.mp hsteps
  simp only [Prod.mk.injEq] at hfacts
  obtain ⟨hbytes, hsent, hrest⟩ := hfacts
  refine ⟨w, Wired.run_of_stepsWhile .refl hw, hbytes, hsent, ?_⟩
  intro write hwrite
  have hmem : write.rest ∈ w.stream.writes.map (·.rest) := List.mem_map_of_mem hwrite
  rw [hrest] at hmem
  simpa using hmem

/-- The peer reads what came so far in three chunks, and all of it when the rest has come. -/
theorem peer_reads_two : (∃ packets tail outcome,
    readAll 3 ⟨[], [[48, 4, 0], [1, 97, 0], [48, 4]]⟩ = some (packets, outcome) ∧
      packets <+: publishedTwice.map received ∧ Incomplete tail ∧ Holds outcome tail) ∧
    readAll 3 ⟨[], [[48, 4, 0], [1, 97, 0], [48, 4], [0, 1, 98, 0]]⟩ =
      some (publishedTwice.map received, .waiting none []) := by
  constructor
  · obtain ⟨w, run, hbytes, hsent, -⟩ := exists_twoSent
    obtain ⟨packets, tail, outcome, hall, hprefix, htail, hholds, -⟩ := @peer_reads_sent
      Wired.inTurn w run (fun _ _ h => h) (hsent ▸ sendable_publishedTwice)
      [[48, 4, 0], [1, 97, 0], [48, 4]] hbytes.symm 3 (by rw [hsent]; decide)
    exact ⟨packets, tail, outcome, hall, hsent ▸ hprefix, htail, hholds⟩
  · obtain ⟨w, run, hbytes, hsent, hdrained⟩ := exists_allSent
    obtain ⟨packets, -, outcome, hall, -, -, -, hdone⟩ := @peer_reads_sent
      Wired.inTurn w run (fun _ _ h => h) (hsent ▸ sendable_publishedTwice)
      [[48, 4, 0], [1, 97, 0], [48, 4], [0, 1, 98, 0]] hbytes.symm 3 (by rw [hsent]; decide)
    obtain ⟨hpackets, houtcome⟩ := hdone hdrained
    rw [hall, hpackets, houtcome, hsent]

end Mqtt5.ClientPeer
