import Mqtt5.WireLimits

/-!
# Decoding an encoded packet

`ControlPacket.received` is the packet that the decoder makes of an encoded one, for
every packet that fits its own wire format.
-/
namespace Mqtt5.WireRoundTrip
open ByteParser ByteWriter WirePrimitives WireProperties WireHeader WirePublish WireConnect
open WireSubscribe WireControlPacket WireReads WireLimits

theorem header_type {hdr : Header} {type flags : UInt8}
    (h : hdr.typeFlags = typeFlagsByte type flags) (ht : type.toNat < 16) : hdr.type = type := by
  rw [Header.type, h, typeFlagsByte_type ht]

/-- The body of a packet is read as `q` behind a header that counts it. -/
def ReadsBody (type flags : UInt8) (body : Writer) (q : ControlPacket) : Prop :=
  ∀ ⦃hdr zs⦄, hdr.typeFlags = typeFlagsByte type flags → hdr.remainingLength.toNat = zs.length →
    zs.length < 2 ^ 32 → body = .emit zs → ∃ rest, (ControlPacket.deserializeBody hdr).run zs = .ok (q, rest)

theorem reads_packet {type flags : UInt8} {body : Writer} {q : ControlPacket}
    (h : ReadsBody type flags body q) :
    Reads ControlPacket.deserialize (writePacket type flags body) q := by
  intro frame hw hlen rest
  obtain ⟨zs, hz, hdecode⟩ := writePacket_emit hw hlen
  obtain ⟨hrun, hzs⟩ := hdecode rest
  have hcount : (UInt32.ofNat zs.length).toNat = zs.length := by
    rw [UInt32.toNat_ofNat', Nat.mod_eq_of_lt hzs]
  obtain ⟨left, hbody⟩ := @h ⟨typeFlagsByte type flags, UInt32.ofNat zs.length⟩ zs rfl hcount hzs hz
  rw [ControlPacket.deserialize, run_bind_of_ok hrun, hcount]
  rw [run_bind_of_ok (a := zs) (m := zs ++ rest) (by rw [run_cspanN]; simp)]
  rw [run_bind_of_ok (a := q) (m := zs ++ rest)
    (by rw [ControlPacket.decodeBody, hbody]; rfl), run_bind_of_ok (run_consume _ _)]
  rw [List.drop_left]
  rfl

/-- The fields of a packet fit its wire format. -/
def WellFormed : ControlPacket → Prop
  | .connect p => p.WellFormed
  | .connack p => ConnackProperties.asSection.WellFormed p.properties
  | .publish p => p.WellFormed
  | .puback p | .pubrec p | .pubrel p | .pubcomp p =>
      ReasonProperties.asSection.WellFormed p.properties
  | .subscribe p => p.WellFormed
  | .suback p | .unsuback p => ReasonProperties.asSection.WellFormed p.properties
  | .unsubscribe p => p.WellFormed
  | .disconnect p => DisconnectProperties.asSection.WellFormed p.properties
  | .pingreq | .pingresp => True

/-- The packet that the decoder makes of an encoded one. -/
def received : ControlPacket → ControlPacket
  | .connect p => .connect p.received
  | .connack p => .connack p.received
  | .publish p => .publish p.received
  | .puback p => .puback p.received
  | .pubrec p => .pubrec p.received
  | .pubrel p => .pubrel p.received
  | .pubcomp p => .pubcomp p.received
  | .subscribe p => .subscribe p.received
  | .suback p => .suback p.received
  | .unsubscribe p => .unsubscribe p.received
  | .unsuback p => .unsuback p.received
  | .disconnect p => .disconnect p.received
  | .pingreq => .pingreq
  | .pingresp => .pingresp

theorem readsBody_of_reader {α : Type} {type flags : UInt8} {body : Writer} {p : Header → Reader α}
    {c : α → ControlPacket} {a : α}
    (hdispatch : ∀ hdr, hdr.type = type → ControlPacket.deserializeBody hdr = c <$> p hdr)
    (ht : type.toNat < 16)
    (h : ∀ hdr zs, hdr.flags = flags &&& 0x0F → hdr.remainingLength.toNat = zs.length →
      zs.length < 2 ^ 32 → body = .emit zs → ∃ rest, (p hdr).run zs = .ok (a, rest)) :
    ReadsBody type flags body (c a) := by
  intro hdr zs htype hsize hlen hw
  have hflags : hdr.flags = flags &&& 0x0F := by rw [Header.flags, htype, typeFlagsByte_flags]
  obtain ⟨rest, hr⟩ := h hdr zs hflags hsize hlen hw
  rw [hdispatch hdr (header_type htype ht)]
  exact ⟨rest, run_map_ok.mpr ⟨a, hr, rfl⟩⟩

/-- Every packet that fits its wire format and is written without an exception is decoded
to `received p`, whatever follows its frame. -/
theorem reads_controlPacket {p : ControlPacket} (h : WellFormed p) :
    Reads ControlPacket.deserialize p.serialize (received p) := by
  have hack : ∀ {type flags : UInt8} {c : Ack → ControlPacket} {p : Ack},
      (∀ hdr, hdr.type = type →
        ControlPacket.deserializeBody hdr = c <$> Ack.deserialize hdr.remainingLength) →
      type.toNat < 16 → ReasonProperties.asSection.WellFormed p.properties →
      Reads ControlPacket.deserialize (p.serialize type flags) (c p.received) :=
    fun hd ht h => reads_packet (readsBody_of_reader hd ht fun _ _ _ hsize hlen hw =>
      Ack.reads h hsize hlen hw)
  have hping : ∀ {type : UInt8} {p : ControlPacket},
      (∀ hdr, hdr.type = type → ControlPacket.deserializeBody hdr = pure p) → type.toNat < 16 →
      Reads ControlPacket.deserialize (writePacket type 0 (.emit [])) p := by
    intro type p hd ht
    refine reads_packet fun hdr zs htype _ _ _ => ⟨zs, ?_⟩
    rw [hd hdr (header_type htype ht)]
    rfl
  cases p with
  | connect p =>
    exact reads_packet (readsBody_of_reader (p := fun _ => Connect.deserialize) (c := .connect)
      (fun hdr ht => by rw [ControlPacket.deserializeBody, ht]; rfl) (by decide)
      fun _ _ _ _ hlen hw => Connect.reads h hw hlen)
  | connack p =>
    exact reads_packet (readsBody_of_reader (p := fun _ => Connack.deserialize) (c := .connack)
      (fun hdr ht => by rw [ControlPacket.deserializeBody, ht]; rfl) (by decide)
      fun _ _ _ _ hlen hw => Connack.reads h hw hlen)
  | publish p =>
    exact reads_packet (readsBody_of_reader (p := Publish.deserialize) (c := .publish)
      (fun hdr ht => by rw [ControlPacket.deserializeBody, ht]; rfl) (by decide)
      fun _ _ hf hsize hlen hw => ⟨_, Publish.reads h hf hsize hlen hw⟩)
  | puback p => exact hack (fun hdr ht => by rw [ControlPacket.deserializeBody, ht]; rfl) (by decide) h
  | pubrec p => exact hack (fun hdr ht => by rw [ControlPacket.deserializeBody, ht]; rfl) (by decide) h
  | pubrel p => exact hack (fun hdr ht => by rw [ControlPacket.deserializeBody, ht]; rfl) (by decide) h
  | pubcomp p => exact hack (fun hdr ht => by rw [ControlPacket.deserializeBody, ht]; rfl) (by decide) h
  | subscribe p =>
    exact reads_packet (readsBody_of_reader (p := Subscribe.deserialize) (c := .subscribe)
      (fun hdr ht => by rw [ControlPacket.deserializeBody, ht]; rfl) (by decide)
      fun _ _ _ hsize hlen hw => ⟨_, Subscribe.reads h hsize hlen hw⟩)
  | suback p =>
    exact reads_packet (readsBody_of_reader (p := ReasonCodes.deserialize) (c := .suback)
      (fun hdr ht => by rw [ControlPacket.deserializeBody, ht]; rfl) (by decide)
      fun _ _ _ hsize hlen hw => ⟨_, ReasonCodes.reads h hsize hlen hw⟩)
  | unsubscribe p =>
    exact reads_packet (readsBody_of_reader (p := Unsubscribe.deserialize) (c := .unsubscribe)
      (fun hdr ht => by rw [ControlPacket.deserializeBody, ht]; rfl) (by decide)
      fun _ _ _ hsize hlen hw => ⟨_, Unsubscribe.reads h hsize hlen hw⟩)
  | unsuback p =>
    exact reads_packet (readsBody_of_reader (p := ReasonCodes.deserialize) (c := .unsuback)
      (fun hdr ht => by rw [ControlPacket.deserializeBody, ht]; rfl) (by decide)
      fun _ _ _ hsize hlen hw => ⟨_, ReasonCodes.reads h hsize hlen hw⟩)
  | disconnect p =>
    exact reads_packet (readsBody_of_reader (p := Disconnect.deserialize) (c := .disconnect)
      (fun hdr ht => by rw [ControlPacket.deserializeBody, ht]; rfl) (by decide)
      fun _ _ _ hsize hlen hw => ⟨_, Disconnect.reads h hsize hlen hw⟩)
  | pingreq => exact @hping 12 _ (fun hdr ht => by rw [ControlPacket.deserializeBody, ht]; rfl) (by decide)
  | pingresp => exact @hping 13 _ (fun hdr ht => by rw [ControlPacket.deserializeBody, ht]; rfl) (by decide)

/-! ## PUBLISH -/

theorem publishProperties_decoded {p : PublishProperties} (huser : p.userProperty = [])
    (hsub : p.subscriptionIdentifier = 0)
    (hdistinct : p.unknownProperties.Pairwise fun a b => a.identifier ≠ b.identifier) :
    PublishProperties.asSection.decoded p =
      { p with messageExpiryInterval := p.messageExpiryInterval.toUInt16.toUInt32 } := by
  obtain ⟨⟨users, unknown⟩, response, content, correlation, sub, expiry, topicAlias, format⟩ := p
  cases huser
  cases hsub
  simp only [PropertySection.decoded, PublishProperties.asSection, PublishProperties.received,
    merged_distinct hdistinct, List.append_nil, List.nil_append]
  rfl

/-- Without user properties, the expiry interval is the only field that can change. -/
theorem publish_received_iff {p : Publish} (hflags : p.headerFlags < 16)
    (huser : p.properties.userProperty = []) (hsub : p.properties.subscriptionIdentifier = 0)
    (hdistinct : p.properties.unknownProperties.Pairwise fun a b => a.identifier ≠ b.identifier) :
    p.received = p ↔ p.properties.messageExpiryInterval.toNat < 65536 := by
  have hexpiry : p.properties.messageExpiryInterval.toUInt16.toUInt32 =
      p.properties.messageExpiryInterval ↔ p.properties.messageExpiryInterval.toNat < 65536 := by
    rw [← UInt32.toNat_inj, UInt16.toNat_toUInt32, UInt32.toNat_toUInt16]
    omega
  have hlow : p.headerFlags &&& 0x0F = p.headerFlags := by
    have := UInt8.lt_iff_toNat_lt.mp hflags
    rw [← UInt8.toNat_inj, low_toNat]
    exact Nat.mod_eq_of_lt this
  rw [← hexpiry, Publish.received, publishProperties_decoded huser hsub hdistinct, hlow]
  constructor
  · intro h
    exact congrArg (·.properties.messageExpiryInterval) h
  · intro h
    rw [h]

/-- A PUBLISH of at most `maxLength` bytes is written, and read back unchanged just when its
expiry interval has 16 bits. -/
theorem publish_round_trip {p : Publish} (h : p.WellFormed) (hflags : p.headerFlags < 16)
    (huser : p.properties.userProperty = []) (hsub : p.properties.subscriptionIdentifier = 0)
    (hdistinct : p.properties.unknownProperties.Pairwise fun a b => a.identifier ≠ b.identifier)
    (hcounted : Counted p.properties.unknownProperties) (hsize : publishSize p ≤ maxLength) :
    ∃ frame, p.serialize = .emit frame ∧
      (ControlPacket.deserialize.run frame = .ok (.publish p, []) ↔
        p.properties.messageExpiryInterval.toNat < 65536) := by
  have hweighs := weighs_publish h.topic h.properties hsub hcounted
  obtain ⟨frame, hframe, hlen⟩ := writePacket_within hweighs hsize Publish.typeValue p.headerFlags
  have hread := reads_controlPacket (p := .publish p) h hframe hlen []
  rw [List.append_nil] at hread
  refine ⟨frame, hframe, ?_⟩
  rw [hread, ← publish_received_iff hflags huser hsub hdistinct]
  simp [received]

/-- A retained duplicate of quality of service 2, with a payload, every property that comes
back, and one that PUBLISH does not know. -/
def fullPublish : Publish :=
  { headerFlags := 13
    topic := [116]
    packetIdentifier := 7
    properties :=
      { responseTopic := [114], contentType := [99], correlationData := [1, 2]
        messageExpiryInterval := 65535, topicAlias := 3, payloadFormatIndicator := 1
        unknownProperties := [⟨17, .int32 7⟩] }
    payload := [9, 8] }

theorem fullPublish_wellFormed : fullPublish.WellFormed where
  topic := by decide
  identifier := by decide
  properties := by decide +kernel

theorem fullPublish_round_trip : ∃ frame, fullPublish.serialize = .emit frame ∧
    ControlPacket.deserialize.run frame = .ok (.publish fullPublish, []) := by
  obtain ⟨frame, hframe, hread⟩ := publish_round_trip fullPublish_wellFormed (by decide) rfl rfl
    (by decide) (by decide) (by decide +kernel)
  exact ⟨frame, hframe, hread.mpr (by decide)⟩

/-- A message that stays on the server for 65536 seconds. -/
def longLived : Publish :=
  { topic := [116], properties := { messageExpiryInterval := 65536 } }

def longLivedFrame : Bytes := [48, 9, 0, 1, 116, 5, 2, 0, 1, 0, 0]

theorem longLived_wellFormed : longLived.WellFormed where
  topic := by decide
  identifier := by decide
  properties :=
    { own := by decide
      users := by decide
      unknown := nofun
      foreign := nofun }

theorem longLived_not_read_back : longLived.WellFormed ∧ longLived.headerFlags < 16 ∧
    longLived.serialize = .emit longLivedFrame ∧
    ControlPacket.deserialize.run longLivedFrame ≠ .ok (.publish longLived, []) := by
  refine ⟨longLived_wellFormed, by decide, by decide, ?_⟩
  have : ControlPacket.deserialize.run longLivedFrame =
    .ok (.publish { topic := [116] }, []) := rfl
  rw [this]
  decide

end Mqtt5.WireRoundTrip
