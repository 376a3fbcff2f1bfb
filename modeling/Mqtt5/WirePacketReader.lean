import Mqtt5.WireStreams

/-!
# Readers of one type of packet

`connection::packet_reader<T>` reads whatever packet comes next and then asks it for a body
of type `T`. A packet of another type is read all the same, and is lost.
-/
namespace Mqtt5.WirePacketReader
open ByteParser WirePrimitives WireHeader WireControlPacket ChunkedInput WireFraming WireStreams
open WirePublish WireConnect WireSubscribe

/-- The types that `control_packet::is_body_type` accepts. -/
inductive BodyType
  | connect | connack | publish | puback | pubrec | pubrel | pubcomp | subscribe | suback
  | unsubscribe | unsuback | disconnect | pingreq | pingresp
  deriving DecidableEq, Repr

namespace BodyType

def Body : BodyType → Type
  | connect => Connect
  | connack => Connack
  | publish => Publish
  | puback | pubrec | pubrel | pubcomp => Ack
  | subscribe => Subscribe
  | suback | unsuback => ReasonCodes
  | unsubscribe => Unsubscribe
  | disconnect => Disconnect
  | pingreq | pingresp => Unit

/-- The `type_value` of each type. -/
def typeValue : BodyType → UInt8
  | connect => Connect.typeValue
  | connack => Connack.typeValue
  | publish => Publish.typeValue
  | puback => Puback.typeValue
  | pubrec => Pubrec.typeValue
  | pubrel => Pubrel.typeValue
  | pubcomp => Pubcomp.typeValue
  | subscribe => Subscribe.typeValue
  | suback => Suback.typeValue
  | unsubscribe => Unsubscribe.typeValue
  | unsuback => Unsuback.typeValue
  | disconnect => Disconnect.typeValue
  | pingreq => Pingreq.typeValue
  | pingresp => Pingresp.typeValue

/-- The constructor `control_packet(Packet p)`. -/
def packet : (T : BodyType) → T.Body → ControlPacket
  | connect, p => .connect p
  | connack, p => .connack p
  | publish, p => .publish p
  | puback, p => .puback p
  | pubrec, p => .pubrec p
  | pubrel, p => .pubrel p
  | pubcomp, p => .pubcomp p
  | subscribe, p => .subscribe p
  | suback, p => .suback p
  | unsubscribe, p => .unsubscribe p
  | unsuback, p => .unsuback p
  | disconnect, p => .disconnect p
  | pingreq, _ => .pingreq
  | pingresp, _ => .pingresp

end BodyType

/-- The alternative that a packet's `body_` holds. -/
def alternative : ControlPacket → BodyType
  | .connect _ => .connect
  | .connack _ => .connack
  | .publish _ => .publish
  | .puback _ => .puback
  | .pubrec _ => .pubrec
  | .pubrel _ => .pubrel
  | .pubcomp _ => .pubcomp
  | .subscribe _ => .subscribe
  | .suback _ => .suback
  | .unsubscribe _ => .unsubscribe
  | .unsuback _ => .unsuback
  | .disconnect _ => .disconnect
  | .pingreq => .pingreq
  | .pingresp => .pingresp

/-- `control_packet::body` -/
def body : (p : ControlPacket) → (alternative p).Body
  | .connect p => p
  | .connack p => p
  | .publish p => p
  | .puback p => p
  | .pubrec p => p
  | .pubrel p => p
  | .pubcomp p => p
  | .subscribe p => p
  | .suback p => p
  | .unsubscribe p => p
  | .unsuback p => p
  | .disconnect p => p
  | .pingreq => ()
  | .pingresp => ()

/-- `control_packet::body_as`; `std::get_if` compares the alternatives. -/
def bodyAs (T : BodyType) (p : ControlPacket) : Option T.Body :=
  if h : alternative p = T then some (h ▸ body p) else none

/-- `control_packet::is`, and `is_type`. -/
def is (T : BodyType) (p : ControlPacket) : Bool := (bodyAs T p).isSome

/-- `control_packet::packet_type` -/
def packetType (p : ControlPacket) : UInt8 := (alternative p).typeValue

theorem packet_body (p : ControlPacket) : (alternative p).packet (body p) = p := by
  cases p <;> rfl

theorem bodyAs_packet (T : BodyType) (b : T.Body) : bodyAs T (T.packet b) = some b := by
  cases T <;> rfl

theorem bodyAs_iff {T : BodyType} {p : ControlPacket} {b : T.Body} :
    bodyAs T p = some b ↔ p = T.packet b := by
  constructor
  · intro h
    rw [bodyAs] at h
    split at h
    case isTrue halternative =>
      subst halternative
      rw [← Option.some.inj h]
      exact (packet_body p).symm
    case isFalse => cases h
  · rintro rfl
    exact bodyAs_packet T b

theorem typeValue_injective {S T : BodyType} (h : S.typeValue = T.typeValue) : S = T := by
  cases S <;> cases T <;> first | rfl | cases h

theorem is_iff {T : BodyType} {p : ControlPacket} : is T p = true ↔ packetType p = T.typeValue := by
  rw [is, bodyAs, packetType]
  split
  case isTrue h => simp [h]
  case isFalse h => simpa using fun htype => h (typeValue_injective htype)

/-- All that the reader makes of any bytes has the header's type. -/
def Typed (hdr : Header) (reader : Reader ControlPacket) : Prop :=
  ∀ data p rest, reader.run data = .ok (p, rest) → packetType p = hdr.type

theorem Typed.ite {hdr : Header} {c : Prop} [Decidable c] {reader other : Reader ControlPacket}
    (h : c → Typed hdr reader) (hother : Typed hdr other) :
    Typed hdr (if c then reader else other) := by
  split
  case isTrue hc => exact h hc
  case isFalse => exact hother

theorem typed_map {hdr : Header} {α : Type} {type : UInt8} {c : α → ControlPacket}
    (hc : ∀ a, packetType (c a) = type) (reader : Reader α) (h : hdr.type = type) :
    Typed hdr (c <$> reader) := by
  intro data p rest hrun
  obtain ⟨a, -, rfl⟩ := run_map_ok.mp hrun
  rw [hc a, h]

theorem typed_pure {hdr : Header} {type : UInt8} {q : ControlPacket} (hq : packetType q = type)
    (h : hdr.type = type) : Typed hdr (pure q) := by
  intro data p rest hrun
  cases hrun
  rw [hq, h]

theorem typed_deserializeBody (hdr : Header) : Typed hdr (ControlPacket.deserializeBody hdr) := by
  rw [ControlPacket.deserializeBody]
  iterate 12 refine .ite (fun h => typed_map (fun _ => by rfl) _ h) ?_
  iterate 2 refine .ite (fun h => typed_pure (by rfl) h) ?_
  intro data p rest hrun
  cases hrun

/-- A packet is of the type that its header names. -/
theorem packetType_decoded {hdr : Header} {data : Bytes} {p : ControlPacket}
    (h : ControlPacket.decodeBody hdr data = .ok p) : packetType p = hdr.type := by
  obtain ⟨⟨q, rest⟩, hrun, hq⟩ := bind_ok.mp h
  cases hq
  exact typed_deserializeBody hdr data p rest hrun

/-! ## Readers one after the other -/

/-- How a reader of one type ends. -/
inductive Transformed (β : Type)
  | value (b : β) (left : Input UInt8)
  | waiting (header : Option Header) (buffer : Bytes)
  | failed (e : Fault)

/-- `p0443_v2::transform` of a packet that has been read. -/
def transform {β : Type} (f : ControlPacket → β) : Outcome → Transformed β
  | .packet p left => .value (f p) left
  | .waiting header buffer => .waiting header buffer
  | .failed e => .failed e

/-- `connection::packet_reader` -/
def packetReader (T : BodyType) (input : Input UInt8) : Transformed (Option T.Body) :=
  transform (bodyAs T) (controlPacketReader input)

/-- One reader after another, each of a type of its own, if all of them get a packet. -/
def readEach : List BodyType → Input UInt8 →
    Option (List (Σ T : BodyType, Option T.Body) × Input UInt8)
  | [], input => some ([], input)
  | T :: types, input =>
      match packetReader T input with
      | .value body left => (readEach types left).map fun r => (⟨T, body⟩ :: r.1, r.2)
      | _ => none

/-- What a reader's value says of the packet it has taken, and of its first byte. -/
structure Tells (r : Σ T : BodyType, Option T.Body) (frame : Bytes × ControlPacket) : Prop where
  body : ∀ b, r.2 = some b ↔ frame.2 = r.1.packet b
  type : r.2.isSome ↔ ∃ t tail, frame.1 = t :: tail ∧ t >>> 4 = r.1.typeValue

theorem tells_bodyAs (T : BodyType) {frame : Bytes} {p : ControlPacket} (hf : Frame frame p) :
    Tells ⟨T, bodyAs T p⟩ (frame, p) := by
  refine ⟨fun b => bodyAs_iff, ?_⟩
  obtain ⟨header, data, ⟨_, rfl, ⟨lengthEnc, rfl, -⟩, -⟩, hp⟩ := hf
  change is T p = true ↔ _
  rw [is_iff, packetType_decoded hp]
  constructor
  · intro htype
    exact ⟨_, _, rfl, htype⟩
  · rintro ⟨t, tail, hsplit, htype⟩
    rw [List.cons_append] at hsplit
    rw [Header.type, (List.cons.inj hsplit).1, htype]

/-- A reader takes one frame, whatever its type, and however the stream is cut into chunks;
it yields a body just if the first byte of the frame names the type it was made for. -/
theorem readers_take_one_frame_each {frames : List (Bytes × ControlPacket)} {rest : Bytes}
    (hf : ∀ f ∈ frames, Frame f.1 f.2) {types : List BodyType}
    (htypes : types.length = frames.length) {input : Input UInt8}
    (hinput : input.rest = (frames.map (·.1)).flatten ++ rest) :
    ∃ values left, readEach types input = some (values, left) ∧ left.rest = rest ∧
      values.map (·.1) = types ∧ List.Forall₂ Tells values frames := by
  induction frames generalizing types input with
  | nil =>
    obtain rfl := List.eq_nil_of_length_eq_zero htypes
    exact ⟨[], input, rfl, hinput, rfl, .nil⟩
  | cons f frames ih =>
    obtain ⟨T, types, rfl⟩ : ∃ T tail, types = T :: tail :=
      List.exists_cons_of_length_eq_add_one htypes
    rw [List.map_cons, List.flatten_cons, List.append_assoc] at hinput
    have hframe := hf f List.mem_cons_self
    obtain ⟨mid, hread, hmid⟩ := controlPacketReader_packet hframe hinput
    obtain ⟨values, left, hall, hleft, hvalues, htells⟩ :=
      ih (fun g hg => hf g (List.mem_cons_of_mem _ hg)) (Nat.succ.inj htypes) hmid
    refine ⟨⟨T, bodyAs T f.2⟩ :: values, left, ?_, hleft, ?_, .cons (tells_bodyAs T hframe) htells⟩
    · rw [readEach, packetReader, hread]
      simp only [transform, hall]
      rfl
    · rw [List.map_cons, hvalues]

/-- A reader of CONNACKs and one of PINGRESPs, and two PINGRESPs in three chunks. -/
theorem readers_take_pings : ∃ values left,
    readEach [.connack, .pingresp] ⟨[], [[0xD0], [0, 0xD0], [0]]⟩ = some (values, left) ∧
      left.rest = [] ∧ values.map (·.1) = [.connack, .pingresp] ∧
      List.Forall₂ Tells values [([0xD0, 0], .pingresp), ([0xD0, 0], .pingresp)] := by
  have hword : HeaderWord [0xD0, 0] ⟨0xD0, 0⟩ :=
    ⟨[0], rfl, Base128.Word.last (b := 0) (by decide), by decide⟩
  have hping : Frame [0xD0, 0] .pingresp := ⟨⟨0xD0, 0⟩, [], ⟨_, rfl, hword, rfl⟩, rfl⟩
  exact readers_take_one_frame_each (by simp [hping]) rfl rfl

end Mqtt5.WirePacketReader
