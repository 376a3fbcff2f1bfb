import Mqtt5.WireLimits
import Mqtt5.WireRoundTrip

/-!
# Packets that come back as they were sent

`WireRoundTrip.received` says what the decoder makes of an encoded packet. Here is when
that is the packet itself: a section of properties loses nothing but authentication data
without a method and unknown properties that share an identifier.
-/
namespace Mqtt5.WireFidelity
open ByteParser ByteWriter WirePrimitives WireProperties WireHeader WirePublish WireConnect
open WireSubscribe WireControlPacket WireReads WireRoundTrip WireSizes WireLimits

/-- The frame of a packet is a header that counts a body, and the body; the decoder gives
the packet back and stops where the frame ends. -/
def RoundTrips (p : ControlPacket) : Prop :=
  ∃ frame hdr body, p.serialize = .emit frame ∧ hdr.remainingLength.toNat = body.length ∧
    ControlPacket.decodeBody hdr body = .ok p ∧
    ∀ rest, Header.deserialize.run (frame ++ rest) = .ok (hdr, body ++ rest) ∧
      ControlPacket.deserialize.run (frame ++ rest) = .ok (p, rest)

theorem decodeBody_of_deserialize {frame body rest : Bytes} {hdr : Header} {p : ControlPacket}
    (hsize : hdr.remainingLength.toNat = body.length)
    (hdr_run : Header.deserialize.run frame = .ok (hdr, body ++ rest))
    (h : ControlPacket.deserialize.run frame = .ok (p, rest)) :
    ControlPacket.decodeBody hdr body = .ok p := by
  have hspan : (cspanN hdr.remainingLength.toNat).run (body ++ rest) =
      .ok (body, body ++ rest) := by
    rw [run_cspanN, hsize]
    simp
  rw [ControlPacket.deserialize, run_bind_of_ok hdr_run, run_bind_of_ok hspan] at h
  obtain ⟨q, mid, hq, hrest⟩ := run_bind_ok.mp h
  have hsame : q = p := (Prod.mk.inj (Except.ok.inj hrest)).1
  rw [(run_liftM_ok.mp hq).1, hsame]

/-- A packet round trips just when it is small enough to be written and the decoder makes
of it what it is. -/
theorem roundTrips_iff {p : ControlPacket} {type flags : UInt8} {body : Writer} {n : ℕ}
    (hs : p.serialize = writePacket type flags body) (h : WellFormed p) (hbody : Weighs body n)
    (hn : n < 2 ^ 32) : RoundTrips p ↔ n ≤ maxLength ∧ received p = p := by
  have hframe : n ≤ maxLength → ∃ frame, p.serialize = .emit frame ∧ frame.length < 2 ^ 32 := by
    intro hle
    rw [hs]
    exact writePacket_within hbody hle type flags
  have hreads : ∀ {frame}, p.serialize = .emit frame → frame.length < 2 ^ 32 → ∀ rest,
      ControlPacket.deserialize.run (frame ++ rest) = .ok (received p, rest) :=
    fun hw hlen => reads_controlPacket h hw hlen
  constructor
  · rintro ⟨frame, hdr, zs, hw, -, -, hrun⟩
    have hle : n ≤ maxLength := (writePacket_emit_iff hbody hn).mp ⟨frame, hs ▸ hw⟩
    obtain ⟨frame', hw', hlen⟩ := hframe hle
    obtain rfl : frame = frame' := by
      rw [hw] at hw'
      cases hw'
      rfl
    have hgot := (hrun []).2
    rw [hreads hw hlen] at hgot
    exact ⟨hle, (Prod.mk.inj (Except.ok.inj hgot)).1⟩
  · rintro ⟨hle, hsame⟩
    obtain ⟨frame, hw, hlen⟩ := hframe hle
    obtain ⟨zs, hzs, hheader⟩ := writePacket_emit (hs ▸ hw) hlen
    have hsize : (UInt32.ofNat zs.length).toNat = zs.length := toNat_ofNat (hheader []).2
    have hrun : ∀ rest, ControlPacket.deserialize.run (frame ++ rest) = .ok (p, rest) := by
      intro rest
      rw [hreads hw hlen, hsame]
    exact ⟨frame, _, zs, hw, hsize, decodeBody_of_deserialize hsize (hheader []).1 (hrun []),
      fun rest => ⟨(hheader rest).1, hrun rest⟩⟩

/-! ## Sections -/

/-- No two properties share an identifier. -/
def Distinct (props : List Property) : Prop :=
  props.Pairwise fun p q => p.identifier ≠ q.identifier

instance (props : List Property) : Decidable (Distinct props) :=
  inferInstanceAs (Decidable (List.Pairwise _ _))

theorem distinct_merged {props : List Property} (h : ∀ p ∈ props, p.identifier ≠ 38) :
    Distinct (merged props) := by
  have hput : KeyedList.Distinct Property.identifier Repeats (merged props) := by
    rw [merged, foldl_addProperty_eq]
    exact KeyedList.distinct_putAll props
  exact hput.imp_of_mem fun hp _ hdistinct => hdistinct.resolve_left (h _ (mem_merged hp))

/-- Merging leaves a list as it is just when it has nothing to merge. -/
theorem merged_eq_iff {props : List Property} (h : ∀ p ∈ props, p.identifier ≠ 38) :
    merged props = props ↔ Distinct props := by
  constructor
  · intro he
    rw [← he]
    exact distinct_merged h
  · exact merged_distinct

variable {σ : Type} {S : PropertySection σ} {s : σ}

/-- A section comes back as it was just when its own fields do and no two of its unknown
properties share an identifier. -/
theorem decoded_eq_iff (h : S.WellFormed s) (hbase : S.base (S.received s) = {}) :
    S.decoded s = s ↔
      S.received s = S.withBase s {} ∧ Distinct (S.base s).unknownProperties := by
  have hmerged := merged_eq_iff fun p hp => (h.foreign p hp).1
  have hdecoded : S.decoded s = S.withBase (S.received s)
      ⟨(S.base s).userProperty, merged (S.base s).unknownProperties⟩ := by
    rw [PropertySection.decoded, hbase]
    rfl
  rw [hdecoded, ← hmerged]
  constructor
  · intro he
    have hunknown : merged (S.base s).unknownProperties = (S.base s).unknownProperties := by
      have hb := congrArg (fun t => (S.base t).unknownProperties) he
      rwa [S.base_withBase] at hb
    refine ⟨?_, hunknown⟩
    calc S.received s = S.withBase (S.received s) {} := by rw [← hbase, S.withBase_base]
      _ = S.withBase s {} := by rw [← S.withBase_withBase (S.received s), he]
  · rintro ⟨hown, hunknown⟩
    rw [hown, hunknown, S.withBase_withBase]
    exact S.withBase_base s

/-- Authentication data is only there for a method. -/
def MethodGiven (p : ConnectConnackProperties) : Prop :=
  p.authenticationMethod = [] → p.authenticationData = []

theorem connectConnack_received_iff (p : ConnectConnackProperties) :
    p.received = { p with toPropertiesBase := {} } ↔ MethodGiven p := by
  unfold MethodGiven ConnectConnackProperties.received
  constructor
  · intro h hmethod
    have hdata := congrArg ConnectConnackProperties.authenticationData h
    simp only [if_pos hmethod] at hdata
    exact hdata.symm
  · intro h
    by_cases hmethod : p.authenticationMethod = []
    · rw [if_pos hmethod, h hmethod]
    · rw [if_neg hmethod]

theorem connectProperties_decoded_iff {p : ConnectProperties}
    (h : ConnectProperties.asSection.WellFormed p) :
    ConnectProperties.asSection.decoded p = p ↔
      MethodGiven p.toConnectConnackProperties ∧ Distinct p.unknownProperties := by
  rw [decoded_eq_iff h rfl, ← connectConnack_received_iff]
  apply and_congr_left'
  constructor
  · exact congrArg ConnectProperties.toConnectConnackProperties
  · exact congrArg fun b => ({ p with toConnectConnackProperties := b } : ConnectProperties)

theorem connackProperties_decoded_iff {p : ConnackProperties}
    (h : ConnackProperties.asSection.WellFormed p) :
    ConnackProperties.asSection.decoded p = p ↔
      MethodGiven p.toConnectConnackProperties ∧ Distinct p.unknownProperties := by
  rw [decoded_eq_iff h rfl, ← connectConnack_received_iff]
  apply and_congr_left'
  constructor
  · exact congrArg ConnackProperties.toConnectConnackProperties
  · exact congrArg fun b => ({ p with toConnectConnackProperties := b } : ConnackProperties)

theorem will_decoded_iff {p : WillProperties} (h : WillProperties.asSection.WellFormed p) :
    WillProperties.asSection.decoded p = p ↔ Distinct p.unknownProperties := by
  rw [decoded_eq_iff h rfl]
  exact and_iff_right rfl

theorem disconnectProperties_decoded_iff {p : DisconnectProperties}
    (h : DisconnectProperties.asSection.WellFormed p) :
    DisconnectProperties.asSection.decoded p = p ↔ Distinct p.unknownProperties := by
  rw [decoded_eq_iff h rfl]
  exact and_iff_right rfl

theorem reason_decoded_iff {p : ReasonProperties} (h : ReasonProperties.asSection.WellFormed p) :
    ReasonProperties.asSection.decoded p = p ↔ Distinct p.unknownProperties := by
  rw [decoded_eq_iff h rfl]
  exact and_iff_right rfl

theorem unsubscribeProperties_decoded_iff {p : UnsubscribeProperties}
    (h : UnsubscribeProperties.asSection.WellFormed p) :
    UnsubscribeProperties.asSection.decoded p = p ↔ Distinct p.unknownProperties := by
  rw [decoded_eq_iff h rfl]
  exact and_iff_right rfl

theorem subscribeProperties_decoded_iff {p : SubscribeProperties}
    (h : SubscribeProperties.asSection.WellFormed p) (hsub : p.subscriptionIdentifier = 0) :
    SubscribeProperties.asSection.decoded p = p ↔ Distinct p.unknownProperties := by
  rw [decoded_eq_iff h rfl]
  apply and_iff_right
  change ({} : SubscribeProperties) = { p with toPropertiesBase := {} }
  rw [hsub]

/-! ## CONNECT -/

/-- Without its flag there is no will. -/
def WillGiven (p : Connect) : Prop :=
  p.flags &&& Connect.willFlag = 0 →
    p.willProperties = {} ∧ p.willTopic = [] ∧ p.willPayload = []

theorem receivedWill_eq_iff {p : Connect} (h : p.WellFormed) (hwill : WillGiven p) :
    p.receivedWill = (p.willProperties, p.willTopic, p.willPayload) ↔
      Distinct p.willProperties.unknownProperties := by
  rw [Connect.receivedWill]
  by_cases hflag : p.flags &&& Connect.willFlag = 0
  · obtain ⟨hproperties, htopic, hpayload⟩ := hwill hflag
    rw [if_neg (not_not.mpr hflag), hproperties, htopic, hpayload]
    exact iff_of_true rfl .nil
  · rw [if_pos hflag, ← will_decoded_iff (h.will hflag).1]
    simp

theorem connect_received_iff {p : Connect} (h : p.WellFormed) (hwill : WillGiven p) :
    p.received = p ↔
      MethodGiven p.connectProperties.toConnectConnackProperties ∧
        Distinct p.connectProperties.unknownProperties ∧
        Distinct p.willProperties.unknownProperties := by
  rw [← and_assoc, ← connectProperties_decoded_iff h.properties, ← receivedWill_eq_iff h hwill]
  constructor
  · intro he
    refine ⟨congrArg Connect.connectProperties he, ?_⟩
    have hproperties := congrArg Connect.willProperties he
    have htopic := congrArg Connect.willTopic he
    have hpayload := congrArg Connect.willPayload he
    exact Prod.ext hproperties (Prod.ext htopic hpayload)
  · rintro ⟨hproperties, hreceived⟩
    rw [Connect.received, hproperties, hreceived]

theorem connect_roundTrips_iff {p : Connect} (h : p.WellFormed) (hwill : WillGiven p)
    (hid : Counted p.connectProperties.unknownProperties)
    (hwillId : Counted p.willProperties.unknownProperties) (hn : connectSize p < 2 ^ 32) :
    RoundTrips (.connect p) ↔ connectSize p ≤ maxLength ∧
      MethodGiven p.connectProperties.toConnectConnackProperties ∧
        Distinct p.connectProperties.unknownProperties ∧
        Distinct p.willProperties.unknownProperties := by
  have hweighs := weighs_connect h.clientId h.properties h.will h.username h.password hid
    fun _ => hwillId
  rw [roundTrips_iff (p := .connect p) rfl h hweighs hn, ← connect_received_iff h hwill]
  simp [WireRoundTrip.received]

/-- Unknown properties that a block carries one by one. -/
structure Separate (props : List Property) : Prop where
  distinct : Distinct props
  counted : Counted props

instance (props : List Property) : Decidable (Separate props) :=
  decidable_of_iff (Distinct props ∧ Counted props)
    ⟨fun h => ⟨h.1, h.2⟩, fun h => ⟨h.distinct, h.counted⟩⟩

/-- What a sender has to see to: the flags agree with the optional parts, and nothing is
set that has no place in the encoding. -/
structure Coherent (p : Connect) : Prop where
  fields : p.WellFormed
  willGiven : WillGiven p
  methodGiven : MethodGiven p.connectProperties.toConnectConnackProperties
  unknown : Separate p.connectProperties.unknownProperties
  willUnknown : Separate p.willProperties.unknownProperties

/-- A coherent CONNECT of at most `maxLength` bytes comes back as it was sent, from the
decoder of all packets as well as from its own. -/
theorem connect_round_trip {p : Connect} (h : Coherent p) (hsize : connectSize p ≤ maxLength) :
    RoundTrips (.connect p) ∧ ∃ frame, p.serialize = .emit frame ∧ ∀ rest,
      (do let _ ← Header.deserialize; Connect.deserialize).run (frame ++ rest) = .ok (p, rest) := by
  have hlt := lt_of_le_maxLength hsize
  have hround : RoundTrips (.connect p) := by
    rw [connect_roundTrips_iff h.fields h.willGiven h.unknown.counted h.willUnknown.counted hlt]
    exact ⟨hsize, h.methodGiven, h.unknown.distinct, h.willUnknown.distinct⟩
  have hsame : p.received = p := (connect_received_iff h.fields h.willGiven).mpr
    ⟨h.methodGiven, h.unknown.distinct, h.willUnknown.distinct⟩
  refine ⟨hround, ?_⟩
  have hweighs := weighs_connect h.fields.clientId h.fields.properties h.fields.will
    h.fields.username h.fields.password h.unknown.counted fun _ => h.willUnknown.counted
  obtain ⟨frame, hframe, hlen⟩ := writePacket_within hweighs hsize Connect.typeValue 0
  obtain ⟨zs, hzs, hheader⟩ := writePacket_emit hframe hlen
  refine ⟨frame, hframe, fun rest => ?_⟩
  rw [run_bind_of_ok (hheader rest).1, Connect.decodes h.fields hzs (hheader []).2 rest, hsame]

/-- A CONNECT with a will, credentials, and an unknown property in each of its blocks. -/
def fullConnect : Connect :=
  { flags := 0xC6
    connectProperties :=
      { authenticationMethod := [109], authenticationData := [1, 2], receiveMaximum := 10
        userProperty := [⟨[107], [118]⟩], unknownProperties := [⟨278, .binary [9]⟩] }
    clientId := [99]
    willProperties := { delayInterval := 5, unknownProperties := [⟨17, .int32 7⟩] }
    willTopic := [119]
    willPayload := [1]
    username := some [117]
    password := some [112] }

theorem fullConnect_coherent : Coherent fullConnect where
  fields :=
    { clientId := by decide +kernel
      properties := by decide +kernel
      will := fun _ => by decide +kernel
      usernameFlag := by decide +kernel
      passwordFlag := by decide +kernel
      username := by decide +kernel
      password := by decide +kernel }
  willGiven := nofun
  methodGiven := nofun
  unknown := by decide +kernel
  willUnknown := by decide +kernel

theorem fullConnect_round_trip : RoundTrips (.connect fullConnect) :=
  (connect_round_trip fullConnect_coherent (by decide +kernel)).1

/-! ## CONNACK and DISCONNECT -/

theorem connack_roundTrips_iff {p : Connack}
    (h : ConnackProperties.asSection.WellFormed p.properties)
    (hid : Counted p.properties.unknownProperties) (hn : connackSize p < 2 ^ 32) :
    RoundTrips (.connack p) ↔ connackSize p ≤ maxLength ∧
      MethodGiven p.properties.toConnectConnackProperties ∧
        Distinct p.properties.unknownProperties := by
  rw [roundTrips_iff (p := .connack p) rfl h (weighs_connack h hid) hn,
    ← connackProperties_decoded_iff h]
  apply and_congr_right'
  constructor
  · intro he
    exact congrArg Connack.properties (ControlPacket.connack.inj he)
  · intro he
    rw [WireRoundTrip.received, Connack.received, he]

/-- The short form without a body stands for the default packet. -/
theorem disconnect_roundTrips_iff {p : Disconnect}
    (h : DisconnectProperties.asSection.WellFormed p.properties)
    (hid : Counted p.properties.unknownProperties) (hn : disconnectSize p < 2 ^ 32) :
    RoundTrips (.disconnect p) ↔
      disconnectSize p ≤ maxLength ∧ Distinct p.properties.unknownProperties := by
  rw [roundTrips_iff (p := .disconnect p) rfl h (weighs_disconnect h hid) hn,
    ← disconnectProperties_decoded_iff h]
  apply and_congr_right'
  constructor
  · intro he
    exact congrArg Disconnect.properties (ControlPacket.disconnect.inj he)
  · intro he
    rw [WireRoundTrip.received, Disconnect.received, he]

theorem connack_disconnect_round_trip :
    (∀ p : Connack, ConnackProperties.asSection.WellFormed p.properties →
      MethodGiven p.properties.toConnectConnackProperties →
      Separate p.properties.unknownProperties → connackSize p ≤ maxLength →
      RoundTrips (.connack p)) ∧
    ∀ p : Disconnect, DisconnectProperties.asSection.WellFormed p.properties →
      Separate p.properties.unknownProperties → disconnectSize p ≤ maxLength →
      RoundTrips (.disconnect p) := by
  constructor
  · intro p h hmethod hunknown hsize
    rw [connack_roundTrips_iff h hunknown.counted (lt_of_le_maxLength hsize)]
    exact ⟨hsize, hmethod, hunknown.distinct⟩
  · intro p h hunknown hsize
    rw [disconnect_roundTrips_iff h hunknown.counted (lt_of_le_maxLength hsize)]
    exact ⟨hsize, hunknown.distinct⟩

theorem refusal_and_goodbye_round_trip :
    RoundTrips (.connack
      { flags := 1, reasonCode := 0x87
        properties :=
          { maximumQos := qos1, retainAvailable := false, serverKeepAlive := 60
            userProperty := [⟨[107], [118]⟩], unknownProperties := [⟨1, .byte 3⟩] } }) ∧
    RoundTrips (.disconnect {}) ∧
    RoundTrips (.disconnect { reason := 4 }) ∧
    RoundTrips (.disconnect
      { properties := { reasonString := [98], unknownProperties := [⟨33, .int16 9⟩] } }) :=
  ⟨connack_disconnect_round_trip.1 _ (by decide +kernel) (fun _ => rfl) (by decide +kernel)
      (by decide +kernel),
    connack_disconnect_round_trip.2 _ (by decide +kernel) (by decide +kernel) (by decide +kernel),
    connack_disconnect_round_trip.2 _ (by decide +kernel) (by decide +kernel) (by decide +kernel),
    connack_disconnect_round_trip.2 _ (by decide +kernel) (by decide +kernel) (by decide +kernel)⟩

/-! ## Acknowledgements -/

/-- The encoder takes the short form, although there are properties to be written. -/
def Dropped (p : Ack) : Prop :=
  p.reasonCode = 0 ∧ p.properties.userProperty = [] ∧ p.properties.reasonString = [] ∧
    p.properties.unknownProperties ≠ []

instance (p : Ack) : Decidable (Dropped p) :=
  inferInstanceAs (Decidable (_ ∧ _ ∧ _ ∧ _))

theorem ack_received_iff {p : Ack} (h : ReasonProperties.asSection.WellFormed p.properties)
    (hdistinct : Distinct p.properties.unknownProperties) : p.received = p ↔ ¬ Dropped p := by
  rw [Ack.received]
  by_cases hs : p.reasonCode = 0 ∧ p.properties.userProperty = [] ∧ p.properties.reasonString = []
  · obtain ⟨hreason, husers, hstring⟩ := hs
    rw [if_pos ⟨hreason, husers, hstring⟩]
    constructor
    · intro he hdropped
      apply hdropped.2.2.2
      rw [← he]
    · intro hkept
      have hunknown : p.properties.unknownProperties = [] := by
        by_contra hne
        exact hkept ⟨hreason, husers, hstring, hne⟩
      obtain ⟨packetIdentifier, reasonCode, ⟨⟨users, unknown⟩, reasonString⟩⟩ := p
      simp_all
  · rw [if_neg hs, (reason_decoded_iff h).mpr hdistinct]
    exact iff_of_true rfl fun hdropped => hs ⟨hdropped.1, hdropped.2.1, hdropped.2.2.1⟩

/-- An acknowledgement comes back as it was sent unless it tells of success and has
nothing but unknown properties: these are left out. -/
theorem ack_round_trip {c : Ack → ControlPacket}
    (hc : c ∈ [ControlPacket.puback, .pubrec, .pubrel, .pubcomp]) {p : Ack}
    (h : ReasonProperties.asSection.WellFormed p.properties)
    (hunknown : Separate p.properties.unknownProperties) (hsize : ackSize p ≤ maxLength) :
    RoundTrips (c p) ↔ ¬ Dropped p := by
  have hlt := lt_of_le_maxLength hsize
  have hweighs := weighs_ack h hunknown.counted
  simp only [List.mem_cons, List.not_mem_nil, or_false] at hc
  rw [← ack_received_iff h hunknown.distinct]
  rcases hc with rfl | rfl | rfl | rfl
  · rw [roundTrips_iff (p := .puback p) rfl h hweighs hlt, and_iff_right hsize]
    simp [WireRoundTrip.received]
  · rw [roundTrips_iff (p := .pubrec p) rfl h hweighs hlt, and_iff_right hsize]
    simp [WireRoundTrip.received]
  · rw [roundTrips_iff (p := .pubrel p) rfl h hweighs hlt, and_iff_right hsize]
    simp [WireRoundTrip.received]
  · rw [roundTrips_iff (p := .pubcomp p) rfl h hweighs hlt, and_iff_right hsize]
    simp [WireRoundTrip.received]

theorem ack_round_trip_user_property :
    RoundTrips (.pubrec { packetIdentifier := 7, properties :=
      { userProperty := [⟨[107], [118]⟩], unknownProperties := [⟨1, .byte 3⟩] } }) :=
  (ack_round_trip (by simp) (by decide +kernel) (by decide +kernel) (by decide +kernel)).mpr
    (by decide +kernel)

/-- A PUBACK for a message that was taken, with a property this side does not know. -/
def annotated : Ack :=
  { packetIdentifier := 1, properties := { unknownProperties := [⟨1, .byte 7⟩] } }

theorem annotated_loses_property :
    ReasonProperties.asSection.WellFormed annotated.properties ∧
    Separate annotated.properties.unknownProperties ∧ ackSize annotated ≤ maxLength ∧
    (ControlPacket.puback annotated).serialize = .emit [64, 2, 0, 1] ∧
    ControlPacket.deserialize.run [64, 2, 0, 1] =
      .ok (.puback { packetIdentifier := 1 }, []) ∧
    ¬ RoundTrips (.puback annotated) := by
  have hframe : (ControlPacket.puback annotated).serialize = .emit [64, 2, 0, 1] := by decide +kernel
  have hrun : ControlPacket.deserialize.run [64, 2, 0, 1] =
    .ok (.puback { packetIdentifier := 1 }, []) := rfl
  refine ⟨by decide +kernel, by decide +kernel, by decide +kernel, hframe, hrun, ?_⟩
  rintro ⟨frame, hdr, body, hw, -, -, hgot⟩
  rw [hframe] at hw
  cases hw
  have hsame := (hgot []).2
  rw [List.append_nil, hrun] at hsame
  revert hsame
  decide

/-! ## Subscriptions -/

theorem reasonCodes_received_iff {p : ReasonCodes}
    (h : ReasonProperties.asSection.WellFormed p.properties) :
    p.received = p ↔ Distinct p.properties.unknownProperties := by
  rw [← reason_decoded_iff h]
  constructor
  · exact congrArg ReasonCodes.properties
  · intro he
    rw [ReasonCodes.received, he]

theorem suback_roundTrips_iff {p : ReasonCodes}
    (h : ReasonProperties.asSection.WellFormed p.properties)
    (hid : Counted p.properties.unknownProperties) (hn : reasonCodesSize p < 2 ^ 32) :
    RoundTrips (.suback p) ↔
      reasonCodesSize p ≤ maxLength ∧ Distinct p.properties.unknownProperties := by
  rw [roundTrips_iff (p := .suback p) rfl h (weighs_reasonCodes h hid) hn,
    ← reasonCodes_received_iff h]
  simp [WireRoundTrip.received]

theorem unsuback_roundTrips_iff {p : ReasonCodes}
    (h : ReasonProperties.asSection.WellFormed p.properties)
    (hid : Counted p.properties.unknownProperties) (hn : reasonCodesSize p < 2 ^ 32) :
    RoundTrips (.unsuback p) ↔
      reasonCodesSize p ≤ maxLength ∧ Distinct p.properties.unknownProperties := by
  rw [roundTrips_iff (p := .unsuback p) rfl h (weighs_reasonCodes h hid) hn,
    ← reasonCodes_received_iff h]
  simp [WireRoundTrip.received]

theorem unsubscribe_roundTrips_iff {p : Unsubscribe} (h : p.WellFormed)
    (hid : Counted p.properties.unknownProperties) (hn : unsubscribeSize p < 2 ^ 32) :
    RoundTrips (.unsubscribe p) ↔
      unsubscribeSize p ≤ maxLength ∧ Distinct p.properties.unknownProperties := by
  rw [roundTrips_iff (p := .unsubscribe p) rfl h (weighs_unsubscribe h hid) hn,
    ← unsubscribeProperties_decoded_iff h.properties]
  apply and_congr_right'
  constructor
  · intro he
    exact congrArg Unsubscribe.properties (ControlPacket.unsubscribe.inj he)
  · intro he
    rw [WireRoundTrip.received, Unsubscribe.received, he]

theorem subscribe_roundTrips_iff {p : Subscribe} (h : p.WellFormed)
    (hsub : p.properties.subscriptionIdentifier = 0)
    (hid : Counted p.properties.unknownProperties) (hn : subscribeSize p < 2 ^ 32) :
    RoundTrips (.subscribe p) ↔
      subscribeSize p ≤ maxLength ∧ Distinct p.properties.unknownProperties := by
  rw [roundTrips_iff (p := .subscribe p) rfl h (weighs_subscribe h hsub hid) hn,
    ← subscribeProperties_decoded_iff h.properties hsub]
  apply and_congr_right'
  constructor
  · intro he
    exact congrArg Subscribe.properties (ControlPacket.subscribe.inj he)
  · intro he
    rw [WireRoundTrip.received, Subscribe.received, he]

theorem subscription_round_trip :
    (∀ p : Subscribe, p.WellFormed → p.properties.subscriptionIdentifier = 0 →
      Separate p.properties.unknownProperties → subscribeSize p ≤ maxLength →
      RoundTrips (.subscribe p)) ∧
    (∀ p : ReasonCodes, ReasonProperties.asSection.WellFormed p.properties →
      Separate p.properties.unknownProperties → reasonCodesSize p ≤ maxLength →
      RoundTrips (.suback p) ∧ RoundTrips (.unsuback p)) ∧
    ∀ p : Unsubscribe, p.WellFormed → Separate p.properties.unknownProperties →
      unsubscribeSize p ≤ maxLength → RoundTrips (.unsubscribe p) := by
  refine ⟨?_, ?_, ?_⟩
  · intro p h hsub hunknown hsize
    rw [subscribe_roundTrips_iff h hsub hunknown.counted (lt_of_le_maxLength hsize)]
    exact ⟨hsize, hunknown.distinct⟩
  · intro p h hunknown hsize
    rw [suback_roundTrips_iff h hunknown.counted (lt_of_le_maxLength hsize),
      unsuback_roundTrips_iff h hunknown.counted (lt_of_le_maxLength hsize)]
    exact ⟨⟨hsize, hunknown.distinct⟩, hsize, hunknown.distinct⟩
  · intro p h hunknown hsize
    rw [unsubscribe_roundTrips_iff h hunknown.counted (lt_of_le_maxLength hsize)]
    exact ⟨hsize, hunknown.distinct⟩

theorem subscription_round_trip_lists :
    RoundTrips (.subscribe { packetIdentifier := 1, topics := [⟨[97], 1⟩, ⟨[], 0⟩] }) ∧
    RoundTrips (.subscribe {}) ∧
    RoundTrips (.suback { packetIdentifier := 1, reasonCodes := [0, 135] }) ∧
    RoundTrips (.unsuback { packetIdentifier := 1, properties := { reasonString := [98] } }) ∧
    RoundTrips (.unsubscribe { packetIdentifier := 2, topics := [[97, 47], []] }) :=
  ⟨subscription_round_trip.1 _ ⟨by decide +kernel, by decide +kernel⟩ rfl (by decide +kernel)
      (by decide +kernel),
    subscription_round_trip.1 _ ⟨by decide +kernel, by decide +kernel⟩ rfl (by decide +kernel)
      (by decide +kernel),
    (subscription_round_trip.2.1 _ (by decide +kernel) (by decide +kernel) (by decide +kernel)).1,
    (subscription_round_trip.2.1 _ (by decide +kernel) (by decide +kernel) (by decide +kernel)).2,
    subscription_round_trip.2.2 _ ⟨by decide +kernel, by decide +kernel⟩ (by decide +kernel)
      (by decide +kernel)⟩

end Mqtt5.WireFidelity
