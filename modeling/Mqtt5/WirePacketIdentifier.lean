import Mqtt5.WireRoundTrip
import Mqtt5.WireTruncation

/-!
# The packet identifier of a PUBLISH

The writer puts the identifier on the wire when it is not zero, and the reader takes it off
when the quality of service asks for one.
-/
namespace Mqtt5.WirePacketIdentifier
open ByteParser ByteWriter WirePrimitives WireProperties WireHeader WirePublish WireReads
open WireControlPacket WireLimits WireTruncation WireRoundTrip

def readIdentifier (headerFlags : UInt8) : Reader UInt16 :=
  if ({ headerFlags } : Publish).qualityOfService ≠ qos0 then fixedInt16 else pure 0

/-- `publish::deserialize` as far as the properties. -/
def readFront (headerFlags : UInt8) : Reader (Bytes × UInt16) := do
  let topic ← readString
  let packetIdentifier ← readIdentifier headerFlags
  return (topic, packetIdentifier)

theorem deserialize_front (header : Header) :
    Publish.deserialize header = onSpan header.remainingLength.toNat do
      let (topic, packetIdentifier) ← readFront header.flags
      let properties ← PublishProperties.deserialize
      let payload ← cspan
      return { headerFlags := header.flags, topic, packetIdentifier, properties, payload } := by
  simp only [Publish.deserialize, readFront, readIdentifier, bind_assoc, pure_bind]
  split
  · rfl
  · simp only [pure_bind]

/-- A value that the wire can carry, whatever its identifier. -/
structure WithinLimits (p : Publish) : Prop where
  flags : p.headerFlags &&& 0x0F = p.headerFlags
  topic : Sized p.topic
  properties : PublishProperties.asSection.WellFormed p.properties
  unknown : Counted p.properties.unknownProperties
  size : publishSize p ≤ maxLength

/-- The frame is decoded to the message that was encoded, and what is read before the
properties is what was written before them. -/
structure ReadAs (p : Publish) (frame : Bytes) (q : Publish) : Prop where
  decodes : Decodes ControlPacket.deserialize frame (.publish q)
  flags : q.headerFlags = p.headerFlags
  topic : q.topic = p.topic
  payload : q.payload = p.payload
  identifier : q.packetIdentifier = if p.qualityOfService ≠ qos0 then p.packetIdentifier else 0
  front : ∃ body properties, p.serializeBody = .emit body ∧
    p.properties.serialize = .emit properties ∧
    (readFront q.headerFlags).run body =
      .ok ((q.topic, q.packetIdentifier), properties ++ q.payload)

def Agrees (p : Publish) : Prop :=
  p.serialize.thrown.isSome ∨ ∃ frame q, p.serialize = .emit frame ∧ ReadAs p frame q

/-- The identifier is there just when the quality of service asks for it. -/
def Identified (p : Publish) : Prop := p.packetIdentifier ≠ 0 ↔ p.qualityOfService ≠ qos0

/-! ## What is written and read before the properties -/

theorem readFront_length {headerFlags : UInt8} {zs rest : Bytes} {topic : Bytes} {id : UInt16}
    (h : (readFront headerFlags).run zs = .ok ((topic, id), rest)) :
    zs.length = stringSize topic +
      (if ({ headerFlags } : Publish).qualityOfService ≠ qos0 then 2 else 0) + rest.length := by
  obtain ⟨topic', mid, hstring, hrest⟩ := run_bind_ok.mp h
  obtain ⟨id', left, hidentifier, hpair⟩ := run_bind_ok.mp hrest
  cases hpair
  obtain ⟨enc, rfl, rfl, -⟩ := (readString_parses _ _ _).mp hstring
  rw [readIdentifier] at hidentifier
  by_cases asked : ({ headerFlags } : Publish).qualityOfService ≠ qos0
  · rw [if_pos asked] at hidentifier ⊢
    obtain ⟨enc, rfl, rfl⟩ := (fixedInt16_parses _ _ _).mp hidentifier
    simp only [List.length_append, sizedBytes_length, fixedIntBytes_length]
    omega
  · rw [if_neg asked] at hidentifier ⊢
    cases hidentifier
    rw [List.length_append, sizedBytes_length, Nat.add_zero]

theorem reads_front {p : Publish} (h : Sized p.topic) (hid : Identified p) :
    Reads (readFront p.headerFlags)
      (writeString p.topic ++
        (if p.packetIdentifier ≠ 0 then writeInt16 p.packetIdentifier else .emit []))
      (p.topic, p.packetIdentifier) := by
  apply (reads_string h).bind
  apply Reads.last
  by_cases present : p.packetIdentifier ≠ 0
  · have asked : ({ headerFlags := p.headerFlags } : Publish).qualityOfService ≠ qos0 :=
      hid.mp present
    rw [readIdentifier, if_pos asked, if_pos present]
    exact reads_int16 _
  · have asked : ¬({ headerFlags := p.headerFlags } : Publish).qualityOfService ≠ qos0 :=
      fun asked => present (hid.mpr asked)
    rw [readIdentifier, if_neg asked, if_neg present, not_not.mp present]
    exact Reads.pure 0

theorem serializeBody_length {p : Publish} (h : Sized p.topic) {body properties : Bytes}
    (hbody : p.serializeBody = .emit body) (hproperties : p.properties.serialize = .emit properties) :
    body.length = stringSize p.topic + (if p.packetIdentifier ≠ 0 then 2 else 0) +
      (properties ++ p.payload).length := by
  rw [Publish.serializeBody, writeString_eq h, hproperties] at hbody
  by_cases present : p.packetIdentifier ≠ 0
  · rw [if_pos present, writeInt16] at hbody
    simp only [Written.emit_append_emit] at hbody
    cases hbody
    simp only [List.length_append, sizedBytes_length, fixedIntBytes_length, if_pos present]
    omega
  · rw [if_neg present] at hbody
    simp only [Written.emit_append_emit] at hbody
    cases hbody
    simp only [List.length_append, sizedBytes_length, List.length_nil, if_neg present]
    omega

/-! ## The writer and the reader -/

/-- The library gives a subscription identifier the type of binary data, and then refuses it. -/
theorem serialize_thrown {p : Publish} (h : p.properties.subscriptionIdentifier ≠ 0) :
    p.serialize.thrown.isSome := by
  let add : MaybeAdd := ⟨p.properties.subscriptionIdentifier != 0, Ids.subscriptionIdentifier,
    .integral p.properties.subscriptionIdentifier⟩
  have mem : add ∈ p.properties.adds := by simp [PublishProperties.adds, add]
  have present : add.present = true := by simpa [add] using h
  obtain ⟨e, he⟩ := addPresent_error mem present (e := _) rfl []
  have properties : p.properties.serialize.thrown.isSome := by
    rw [PublishProperties.serialize, he]
    rfl
  apply writePacket_thrown
  exact Written.thrown_append_left (Written.thrown_append_right _ properties) _

theorem serialize_emit {p : Publish} (h : WithinLimits p)
    (hsub : p.properties.subscriptionIdentifier = 0) :
    ∃ frame, p.serialize = .emit frame ∧ frame.length < 2 ^ 32 := by
  have weighs := weighs_publish h.topic h.properties hsub h.unknown
  exact writePacket_within weighs h.size Publish.typeValue p.headerFlags

theorem readAs_received {p : Publish} (h : WithinLimits p) (hid : Identified p)
    {frame : Bytes} (hframe : p.serialize = .emit frame) (hlen : frame.length < 2 ^ 32) :
    ReadAs p frame p.received where
  decodes := reads_controlPacket (p := .publish p) ⟨h.topic, hid, h.properties⟩ hframe hlen
  flags := h.flags
  topic := rfl
  payload := rfl
  identifier := by
    split
    · rfl
    · rename_i asked
      exact not_not.mp fun present => asked (hid.mp present)
  front := by
    obtain ⟨body, hbody, hdecode⟩ := writePacket_emit hframe hlen
    obtain ⟨front, payload, hfront, hpayload, rfl⟩ := Written.append_eq_emit.mp hbody
    cases hpayload
    obtain ⟨head, properties, hhead, hproperties, rfl⟩ := Written.append_eq_emit.mp hfront
    have size : head.length < 2 ^ 32 := by
      have whole := (hdecode []).2
      simp only [List.length_append] at whole
      omega
    refine ⟨_, properties, hbody, hproperties, ?_⟩
    have decodes := reads_front h.topic hid hhead size (properties ++ p.payload)
    change (readFront (p.headerFlags &&& 0x0F)).run _ = _
    rw [h.flags, List.append_assoc]
    exact decodes

theorem identified_of_front {p : Publish} (h : WithinLimits p) {frame : Bytes} {q : Publish}
    (read : ReadAs p frame q) : Identified p := by
  obtain ⟨body, properties, hbody, hproperties, hfront⟩ := read.front
  have written := serializeBody_length h.topic hbody hproperties
  have taken := readFront_length hfront
  have asked : ({ headerFlags := q.headerFlags } : Publish).qualityOfService =
      p.qualityOfService := by
    rw [read.flags]
    rfl
  rw [asked, read.topic, read.payload] at taken
  constructor
  · intro present
    by_contra unasked
    rw [if_pos present] at written
    rw [if_neg (not_not.mpr unasked)] at taken
    omega
  · intro asks
    by_contra absent
    rw [if_neg (not_not.mpr absent)] at written
    rw [if_pos asks] at taken
    omega

/-- The two agree on the identifier just when the message has one for the quality of service
that asks for one, or is not written at all. -/
theorem agrees_iff {p : Publish} (h : WithinLimits p) :
    Agrees p ↔ p.properties.subscriptionIdentifier ≠ 0 ∨
      (p.packetIdentifier ≠ 0 ↔ p.qualityOfService ≠ qos0) := by
  by_cases hsub : p.properties.subscriptionIdentifier = 0
  · obtain ⟨frame, hframe, hlen⟩ := serialize_emit h hsub
    rw [or_iff_right (not_not.mpr hsub)]
    constructor
    · intro agrees
      obtain thrown | ⟨frame, q, -, read⟩ := agrees
      · rw [hframe] at thrown
        cases thrown
      · exact identified_of_front h read
    · intro hid
      exact .inr ⟨frame, p.received, hframe, readAs_received h hid hframe hlen⟩
  · exact iff_of_true (.inl (serialize_thrown hsub)) (.inl hsub)

def acknowledged : Publish :=
  { headerFlags := 2, topic := [97], packetIdentifier := 7, payload := [9] }

theorem agrees_acknowledged : WithinLimits acknowledged ∧
    (Agrees acknowledged ↔ acknowledged.properties.subscriptionIdentifier ≠ 0 ∨
      (acknowledged.packetIdentifier ≠ 0 ↔ acknowledged.qualityOfService ≠ qos0)) := by
  have limits : WithinLimits acknowledged :=
    ⟨by decide, by decide, by decide, by decide, by decide +kernel⟩
  exact ⟨limits, agrees_iff limits⟩

/-- Of quality of service 0, and with an identifier. -/
def overidentified : Publish := { topic := [97], packetIdentifier := 1 }

/-- Of quality of service 1, and without an identifier. -/
def unidentified : Publish := { headerFlags := 2, topic := [97], payload := [7, 0, 9] }

theorem payload_of_agrees {p q : Publish} {frame rest : Bytes} (h : Agrees p)
    (hs : p.serialize = .emit frame)
    (hd : ControlPacket.deserialize.run frame = .ok (.publish q, rest)) : q.payload = p.payload := by
  obtain thrown | ⟨frame', q', hframe, read⟩ := h
  · rw [hs] at thrown
    cases thrown
  · rw [hs] at hframe
    cases hframe
    have decodes := read.decodes []
    rw [List.append_nil, hd] at decodes
    cases decodes
    exact read.payload

/-- The identifier is read as an empty block and a payload, and the block and a part of the
payload as an identifier. -/
theorem identifiers_misread :
    overidentified.serialize = .emit [48, 6, 0, 1, 97, 0, 1, 0] ∧
      ControlPacket.deserialize.run [48, 6, 0, 1, 97, 0, 1, 0] =
        .ok (.publish { topic := [97], payload := [1, 0] }, []) ∧
      ¬Agrees overidentified ∧
    unidentified.serialize = .emit [50, 7, 0, 1, 97, 0, 7, 0, 9] ∧
      ControlPacket.deserialize.run [50, 7, 0, 1, 97, 0, 7, 0, 9] =
        .ok (.publish { headerFlags := 2, topic := [97], packetIdentifier := 7, payload := [9] },
          []) ∧
      ¬Agrees unidentified := by
  have twoMore : overidentified.serialize = .emit [48, 6, 0, 1, 97, 0, 1, 0] := by decide +kernel
  have twoMoreRead : ControlPacket.deserialize.run [48, 6, 0, 1, 97, 0, 1, 0] =
      .ok (.publish { topic := [97], payload := [1, 0] }, []) := rfl
  have twoFewer : unidentified.serialize = .emit [50, 7, 0, 1, 97, 0, 7, 0, 9] := by decide +kernel
  have twoFewerRead : ControlPacket.deserialize.run [50, 7, 0, 1, 97, 0, 7, 0, 9] = .ok (.publish
      { headerFlags := 2, topic := [97], packetIdentifier := 7, payload := [9] }, []) := rfl
  refine ⟨twoMore, twoMoreRead, fun agrees => ?_, twoFewer, twoFewerRead, fun agrees => ?_⟩
  · exact absurd (payload_of_agrees agrees twoMore twoMoreRead) (by decide)
  · exact absurd (payload_of_agrees agrees twoFewer twoFewerRead) (by decide)

end Mqtt5.WirePacketIdentifier
