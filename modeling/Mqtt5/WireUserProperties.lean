import Mqtt5.WireRoundTrip

/-!
# User properties across the wire

Each section writes its user properties, and PUBLISH writes them twice. They come back where
the reader finds what the writer wrote: a CONNECT whose flags ask for no more credentials than
there are, and a PUBLISH whose identifier is there for its quality of service.
-/
namespace Mqtt5.WireUserProperties
open ByteParser ByteWriter WirePrimitives WireProperties WireHeader WirePublish WireConnect
open WireSubscribe WireControlPacket WireReads WireLimits WireRoundTrip

/-- The user properties of every property section that a packet writes. -/
def userProperties : ControlPacket → List (List KeyValuePair)
  | .connect p => p.connectProperties.userProperty ::
      if p.flags &&& Connect.willFlag ≠ 0 then [p.willProperties.userProperty] else []
  | .connack p => [p.properties.userProperty]
  | .publish p => [p.properties.userProperty]
  | .puback p | .pubrec p | .pubrel p | .pubcomp p => [p.properties.userProperty]
  | .subscribe p => [p.properties.userProperty]
  | .suback p | .unsuback p => [p.properties.userProperty]
  | .unsubscribe p => [p.properties.userProperty]
  | .disconnect p => [p.properties.userProperty]
  | .pingreq | .pingresp => []

theorem ack_received_userProperty (p : Ack) :
    p.received.properties.userProperty = p.properties.userProperty := by
  rw [Ack.received]
  split
  case isTrue h => exact h.2.1.symm
  case isFalse => rfl

/-- Only PUBLISH changes its user properties: it adds the whole list twice. -/
theorem userProperties_received (p : ControlPacket) :
    userProperties (received p) = userProperties p ↔
      ∀ publish, p = .publish publish → publish.properties.userProperty = [] := by
  cases p with
  | publish p =>
    change [p.properties.userProperty ++ p.properties.userProperty] = _ ↔ _
    simp [userProperties]
  | connect p =>
    have hwill : userProperties (received (.connect p)) = userProperties (.connect p) := by
      simp only [userProperties, received, Connect.received, Connect.receivedWill]
      split <;> rfl
    simp [hwill]
  | puback p => simp [userProperties, received, ack_received_userProperty]
  | pubrec p => simp [userProperties, received, ack_received_userProperty]
  | pubrel p => simp [userProperties, received, ack_received_userProperty]
  | pubcomp p => simp [userProperties, received, ack_received_userProperty]
  | connack p => exact iff_of_true rfl (by simp)
  | subscribe p => exact iff_of_true rfl (by simp)
  | suback p => exact iff_of_true rfl (by simp)
  | unsubscribe p => exact iff_of_true rfl (by simp)
  | unsuback p => exact iff_of_true rfl (by simp)
  | disconnect p => exact iff_of_true rfl (by simp)
  | pingreq => simp [received]
  | pingresp => simp [received]

/-! ## Credentials -/

/-- One for a flag that is set. -/
def bit (flags flag : UInt8) : ℕ := if flags &&& flag ≠ 0 then 1 else 0

/-- The credentials that the flags ask for. -/
def announced (flags : UInt8) : ℕ := bit flags Connect.usernameFlag + bit flags Connect.passwordFlag

/-- The credentials that are there, in the order in which they are written. -/
def credentials (p : Connect) : List Bytes := p.username.toList ++ p.password.toList

def sizedAll (data : List Bytes) : Bytes := data.flatMap sizedBytes

theorem writeOptional_eq {w : Bytes → Writer} {o : Option Bytes}
    (h : ∀ data ∈ o, w data = .emit (sizedBytes data)) :
    Connect.writeOptional w o = .emit (sizedAll o.toList) := by
  cases o with
  | none => rfl
  | some data =>
    rw [Connect.writeOptional, h data rfl]
    simp [sizedAll]

/-- A flagged string is the first of those that are there, if there is one. -/
theorem readFlagged_iff {flags flag : UInt8} {p : Reader Bytes}
    (hp : Parses p fun enc s => enc = sizedBytes s ∧ Sized s) {data : List Bytes}
    (hdata : ∀ s ∈ data, Sized s) {rest : Bytes} :
    (∃ o, (Connect.readFlagged flags flag p).run (sizedAll data) = .ok (o, rest)) ↔
      bit flags flag ≤ data.length ∧ rest = sizedAll (data.drop (bit flags flag)) := by
  rw [Connect.readFlagged, bit]
  by_cases hflag : flags &&& flag ≠ 0
  · rw [if_pos hflag, if_pos hflag]
    constructor
    · rintro ⟨o, hrun⟩
      obtain ⟨s, hs, -⟩ := run_map_ok.mp hrun
      cases data with
      | nil =>
        obtain ⟨enc, hnil, rfl, -⟩ := (hp _ _ _).mp hs
        exact absurd (List.append_eq_nil_iff.mp hnil.symm).1 (sizedBytes_ne_nil s)
      | cons first data =>
        have hfirst := hp.decodes ⟨rfl, hdata first List.mem_cons_self⟩ (sizedAll data)
        change p.run (sizedBytes first ++ sizedAll data) = _ at hs
        rw [hfirst] at hs
        cases hs
        exact ⟨by simp, rfl⟩
    · rintro ⟨hle, rfl⟩
      cases data with
      | nil => cases hle
      | cons first data =>
        have hfirst := hp.decodes ⟨rfl, hdata first List.mem_cons_self⟩ (sizedAll data)
        exact ⟨some first, run_map_ok.mpr ⟨first, hfirst, rfl⟩⟩
  · rw [if_neg hflag, if_neg hflag]
    constructor
    · rintro ⟨o, hrun⟩
      cases hrun
      exact ⟨Nat.zero_le _, rfl⟩
    · rintro ⟨-, rfl⟩
      exact ⟨none, rfl⟩

/-- What `connect::deserialize` reads last. -/
def readCredentials (flags : UInt8) : Reader (Option Bytes × Option Bytes) := do
  let username ← Connect.readFlagged flags Connect.usernameFlag readString
  let password ← Connect.readFlagged flags Connect.passwordFlag readBinary
  return (username, password)

theorem readCredentials_iff {flags : UInt8} {data : List Bytes} (hdata : ∀ s ∈ data, Sized s) :
    (∃ o rest, (readCredentials flags).run (sizedAll data) = .ok (o, rest)) ↔
      announced flags ≤ data.length := by
  have hdrop : ∀ n, ∀ s ∈ data.drop n, Sized s := fun n s hs => hdata s (List.mem_of_mem_drop hs)
  rw [announced]
  constructor
  · rintro ⟨o, rest, hrun⟩
    obtain ⟨username, mid, husername, hrun⟩ := run_bind_ok.mp hrun
    obtain ⟨hfirst, rfl⟩ := (readFlagged_iff readString_parses hdata).mp ⟨username, husername⟩
    obtain ⟨password, left, hpassword, -⟩ := run_bind_ok.mp hrun
    obtain ⟨hsecond, -⟩ := (readFlagged_iff readBinary_parses (hdrop _)).mp ⟨password, hpassword⟩
    rw [List.length_drop] at hsecond
    omega
  · intro hle
    have hsecond : bit flags Connect.passwordFlag ≤
        (data.drop (bit flags Connect.usernameFlag)).length := by
      rw [List.length_drop]
      omega
    obtain ⟨username, husername⟩ := (readFlagged_iff readString_parses hdata).mpr
      ⟨(Nat.le_add_right _ _).trans hle, rfl⟩
    obtain ⟨password, hpassword⟩ := (readFlagged_iff readBinary_parses (hdrop _)).mpr
      ⟨hsecond, rfl⟩
    refine ⟨(username, password), sizedAll ((data.drop (bit flags Connect.usernameFlag)).drop
      (bit flags Connect.passwordFlag)), ?_⟩
    rw [readCredentials, run_bind_of_ok husername, run_bind_of_ok hpassword]
    rfl

/-! ## CONNECT -/

/-- What the length fields of a CONNECT can count; its flags may say what they want of the
credentials. -/
structure ConnectFits (p : Connect) : Prop where
  clientId : Sized p.clientId
  properties : ConnectProperties.asSection.WellFormed p.connectProperties
  will : p.flags &&& Connect.willFlag ≠ 0 → WillProperties.asSection.WellFormed p.willProperties ∧
    Sized p.willTopic ∧ Sized p.willPayload
  credentials : ∀ data ∈ WireUserProperties.credentials p, Sized data

/-- A reader goes on with the rest of what was written, as another reader. -/
def Leads {α : Type} (p : Reader α) (w : Writer) (q : Reader α) (v : Writer) : Prop :=
  ∀ ⦃zs⦄, w = .emit zs → zs.length < 2 ^ 32 → ∃ ys, v = .emit ys ∧ p.run zs = q.run ys

theorem leads_bind {α β : Type} {p : Reader α} {f : α → Reader β} {q : Reader β} {w v u : Writer}
    {a : α} (h₁ : Reads p w a) (h₂ : Leads (f a) v q u) : Leads (p >>= f) (w ++ v) q u := by
  intro zs hw hlen
  obtain ⟨xs, ys, hx, hy, rfl⟩ := Written.append_eq_emit.mp hw
  rw [List.length_append] at hlen
  rw [(h₁ hx (by omega)).bind_run]
  exact h₂ hy (by omega)

/-- All but the credentials is read as it was written. -/
theorem connect_leads {p : Connect} (h : ConnectFits p) : Leads Connect.deserialize p.serializeBody
    ((fun o => { p.received with username := o.1, password := o.2 }) <$> readCredentials p.flags)
    (Connect.writeOptional writeString p.username ++
      Connect.writeOptional writeBinary p.password) := by
  rw [Connect.serializeBody]
  simp only [Written.append_assoc]
  apply leads_bind Connect.reads_protocolName
  apply leads_bind (reads_int8 p.version)
  apply leads_bind (reads_int8 p.flags)
  apply leads_bind (reads_int16 p.keepAlive)
  apply leads_bind (reads_section h.properties)
  apply leads_bind (reads_string h.clientId)
  apply leads_bind (Connect.reads_will h.will)
  intro zs hw _
  refine ⟨zs, hw, ?_⟩
  rw [readCredentials]
  simp only [map_bind, map_pure]
  rfl

theorem credentials_written {p : Connect} (h : ConnectFits p) :
    Connect.writeOptional writeString p.username ++ Connect.writeOptional writeBinary p.password =
      .emit (sizedAll (credentials p)) := by
  have husername := writeOptional_eq (w := writeString) (o := p.username) fun data hdata =>
    writeString_eq (h.credentials data (List.mem_append_left _ (Option.mem_toList.mpr hdata)))
  have hpassword := writeOptional_eq (w := writeBinary) (o := p.password) fun data hdata =>
    writeBinary_eq (h.credentials data (List.mem_append_right _ (Option.mem_toList.mpr hdata)))
  rw [husername, hpassword, Written.emit_append_emit, credentials, sizedAll, sizedAll, sizedAll,
    List.flatMap_append]

/-- The decoder of all packets does on a frame what it does on the body. -/
theorem deserialize_iff {type flags : UInt8} {body : Writer} {frame : Bytes}
    (hs : writePacket type flags body = .emit frame) (hlen : frame.length < 2 ^ 32)
    (htype : type.toNat < 16) :
    ∃ hdr zs, body = .emit zs ∧ zs.length < 2 ^ 32 ∧ hdr.type = type ∧
      ∀ q, ControlPacket.deserialize.run frame = .ok (q, []) ↔
        ∃ rest, (ControlPacket.deserializeBody hdr).run zs = .ok (q, rest) := by
  obtain ⟨zs, hz, hheader⟩ := writePacket_emit hs hlen
  obtain ⟨hrun, hzs⟩ := hheader []
  rw [List.append_nil, List.append_nil] at hrun
  refine ⟨⟨typeFlagsByte type flags, UInt32.ofNat zs.length⟩, zs, hz, hzs,
    header_type (by rfl) htype, fun q => ?_⟩
  have hcount : (UInt32.ofNat zs.length).toNat = zs.length := by
    rw [UInt32.toNat_ofNat', Nat.mod_eq_of_lt hzs]
  have hspan : (cspanN zs.length).run zs = .ok (zs, zs) := by
    rw [run_cspanN]
    simp
  rw [ControlPacket.deserialize, run_bind_of_ok hrun, hcount, run_bind_of_ok hspan]
  constructor
  · intro h
    obtain ⟨packet, mid, hpacket, hrest⟩ := run_bind_ok.mp h
    obtain ⟨hdecode, rfl⟩ := run_liftM_ok.mp hpacket
    obtain ⟨⟨q', rest⟩, hbody, hq⟩ := bind_ok.mp hdecode
    cases hq
    rw [run_bind_of_ok (run_consume _ _), List.drop_length] at hrest
    cases hrest
    exact ⟨rest, hbody⟩
  · rintro ⟨rest, hbody⟩
    have hdecode : ControlPacket.decodeBody ⟨typeFlagsByte type flags, UInt32.ofNat zs.length⟩ zs =
        .ok q := by
      rw [ControlPacket.decodeBody, hbody]
      rfl
    rw [run_bind_of_ok (run_liftM_ok.mpr ⟨hdecode, rfl⟩), run_bind_of_ok (run_consume _ _),
      List.drop_length]
    rfl

theorem userProperties_credentials (p : Connect) (username password : Option Bytes) :
    userProperties (.connect { p.received with username, password }) =
      userProperties (.connect p) := by
  simp only [userProperties, Connect.received, Connect.receivedWill]
  split <;> rfl

/-- The decoded packet has the user properties that the packet had. -/
def Returns (p : ControlPacket) (frame : Bytes) : Prop :=
  ∃ q, ControlPacket.deserialize.run frame = .ok (q, []) ∧ userProperties q = userProperties p

/-- A CONNECT comes back when its flags ask for no more credentials than there are. -/
theorem connect_returns_iff {p : Connect} (h : ConnectFits p) {frame : Bytes}
    (hs : p.serialize = .emit frame) (hlen : frame.length < 2 ^ 32) :
    Returns (.connect p) frame ↔ announced p.flags ≤ (credentials p).length := by
  obtain ⟨hdr, zs, hz, hzs, htype, hdecode⟩ := deserialize_iff hs hlen (by decide)
  obtain ⟨ys, hy, hrun⟩ := connect_leads h hz hzs
  rw [credentials_written h] at hy
  cases hy
  have hbody : ControlPacket.deserializeBody hdr = .connect <$> Connect.deserialize := by
    rw [ControlPacket.deserializeBody, if_pos htype]
  rw [← readCredentials_iff h.credentials]
  constructor
  · rintro ⟨q, hq, -⟩
    obtain ⟨rest, hq⟩ := (hdecode q).mp hq
    rw [hbody] at hq
    obtain ⟨connect, hconnect, -⟩ := run_map_ok.mp hq
    rw [hrun] at hconnect
    obtain ⟨o, ho, -⟩ := run_map_ok.mp hconnect
    exact ⟨o, rest, ho⟩
  · rintro ⟨o, rest, ho⟩
    have hconnect : Connect.deserialize.run zs =
        .ok ({ p.received with username := o.1, password := o.2 }, rest) := by
      rw [hrun]
      exact run_map_ok.mpr ⟨o, ho, rfl⟩
    refine ⟨_, (hdecode _).mpr ⟨rest, ?_⟩, userProperties_credentials p o.1 o.2⟩
    rw [hbody]
    exact run_map_ok.mpr ⟨_, hconnect, rfl⟩

/-! ## Every packet -/

/-- The length fields can count what they are for, and unknown properties have the type of their
identifiers, which are not ones of the packet itself. -/
def Fits : ControlPacket → Prop
  | .connect p => ConnectFits p
  | .publish p => Sized p.topic ∧ PublishProperties.asSection.WellFormed p.properties
  | p => WellFormed p

/-- What the encoder asks for beside that: no subscription identifier, which it refuses, unknown
properties whose identifiers it can write, and a body whose length the header can announce. -/
def Writable : ControlPacket → Prop
  | .connect p => Counted p.connectProperties.unknownProperties ∧
      (p.flags &&& Connect.willFlag ≠ 0 → Counted p.willProperties.unknownProperties) ∧
      connectSize p ≤ maxLength
  | .connack p => Counted p.properties.unknownProperties ∧ connackSize p ≤ maxLength
  | .publish p => p.properties.subscriptionIdentifier = 0 ∧
      Counted p.properties.unknownProperties ∧ publishSize p ≤ maxLength
  | .puback p | .pubrec p | .pubrel p | .pubcomp p =>
      Counted p.properties.unknownProperties ∧ ackSize p ≤ maxLength
  | .subscribe p => p.properties.subscriptionIdentifier = 0 ∧
      Counted p.properties.unknownProperties ∧ subscribeSize p ≤ maxLength
  | .suback p | .unsuback p =>
      Counted p.properties.unknownProperties ∧ reasonCodesSize p ≤ maxLength
  | .unsubscribe p => Counted p.properties.unknownProperties ∧ unsubscribeSize p ≤ maxLength
  | .disconnect p => Counted p.properties.unknownProperties ∧ disconnectSize p ≤ maxLength
  | .pingreq | .pingresp => True

theorem weighs_fitting {p : Connect} (h : ConnectFits p)
    (hid : Counted p.connectProperties.unknownProperties)
    (hwillId : p.flags &&& Connect.willFlag ≠ 0 → Counted p.willProperties.unknownProperties) :
    Weighs p.serializeBody (connectSize p) := by
  have hcredentials := h.credentials
  rw [credentials, List.forall_mem_append] at hcredentials
  apply weighs_connect h.clientId h.properties h.will _ _ hid hwillId
  · exact fun username hmem => hcredentials.1 username (Option.mem_toList.mpr hmem)
  · exact fun password hmem => hcredentials.2 password (Option.mem_toList.mpr hmem)

/-- Such a packet is written. -/
theorem exists_frame {p : ControlPacket} (h : Fits p) (hw : Writable p) :
    ∃ frame, p.serialize = .emit frame ∧ frame.length < 2 ^ 32 := by
  cases p with
  | connect p =>
    obtain ⟨hid, hwillId, hsize⟩ := hw
    exact writePacket_within (weighs_fitting h hid hwillId) hsize _ _
  | connack p => exact writePacket_within (weighs_connack h hw.1) hw.2 _ _
  | publish p =>
    obtain ⟨hsub, hid, hsize⟩ := hw
    exact writePacket_within (weighs_publish h.1 h.2 hsub hid) hsize _ _
  | puback p | pubrec p | pubrel p | pubcomp p =>
    exact writePacket_within (weighs_ack h hw.1) hw.2 _ _
  | subscribe p =>
    obtain ⟨hsub, hid, hsize⟩ := hw
    exact writePacket_within (weighs_subscribe h hsub hid) hsize _ _
  | suback p | unsuback p => exact writePacket_within (weighs_reasonCodes h hw.1) hw.2 _ _
  | unsubscribe p => exact writePacket_within (weighs_unsubscribe h hw.1) hw.2 _ _
  | disconnect p => exact writePacket_within (weighs_disconnect h hw.1) hw.2 _ _
  | pingreq | pingresp => exact ⟨_, rfl, by decide⟩

/-- A PUBLISH has an identifier just when its quality of service asks for one. -/
def Identified (p : ControlPacket) : Prop :=
  ∀ publish, p = .publish publish → (publish.packetIdentifier ≠ 0 ↔ publish.qualityOfService ≠ qos0)

/-- What it takes for the user properties to survive. -/
structure Survives (p : ControlPacket) : Prop where
  fits : Fits p
  identified : Identified p
  announced : ∀ connect, p = .connect connect →
    WireUserProperties.announced connect.flags ≤ (credentials connect).length
  untagged : ∀ publish, p = .publish publish → publish.properties.userProperty = []

theorem wellFormed_of_fits {p : ControlPacket} (h : Fits p) (hid : Identified p)
    (hconnect : ∀ connect, p ≠ .connect connect) : WellFormed p := by
  cases p with
  | connect connect => exact absurd rfl (hconnect connect)
  | publish publish => exact ⟨h.1, hid publish rfl, h.2⟩
  | _ => exact h

theorem returns_iff {p : ControlPacket} (h : Fits p) (hid : Identified p) {frame : Bytes}
    (hs : p.serialize = .emit frame) (hlen : frame.length < 2 ^ 32) :
    Returns p frame ↔ Survives p := by
  by_cases hconnect : ∃ connect, p = .connect connect
  · obtain ⟨connect, rfl⟩ := hconnect
    rw [connect_returns_iff h hs hlen]
    constructor
    · intro hle
      refine ⟨h, hid, ?_, by simp⟩
      intro connect' heq
      cases heq
      exact hle
    · exact fun hsurvives => hsurvives.announced connect rfl
  · have hother : ∀ connect, p ≠ .connect connect := fun connect heq => hconnect ⟨connect, heq⟩
    have hread := reads_controlPacket (wellFormed_of_fits h hid hother) hs hlen []
    rw [List.append_nil] at hread
    have hreceived : Returns p frame ↔ userProperties (received p) = userProperties p := by
      rw [Returns, hread]
      simp
    rw [hreceived, userProperties_received]
    constructor
    · exact fun huntagged => ⟨h, hid, fun connect heq => absurd heq (hother connect), huntagged⟩
    · exact fun hsurvives => hsurvives.untagged

/-- Without a quality of service that asks for one, an identifier is read as the start of the
block; this one makes it end after the first copy of the pair. -/
example : Returns
    (.publish
      { topic := [116]
        packetIdentifier := 0x0901
        properties := { userProperty := [⟨[107], [118]⟩] } })
    [48, 20, 0, 1, 116, 9, 1, 14, 38, 0, 1, 107, 0, 1, 118, 38, 0, 1, 107, 0, 1, 118] :=
  ⟨_, rfl, by decide⟩

def tagged : Publish :=
  { topic := [116], properties := { userProperty := [⟨[107], [118]⟩] } }

def taggedFrame : Bytes :=
  [48, 18, 0, 1, 116, 14, 38, 0, 1, 107, 0, 1, 118, 38, 0, 1, 107, 0, 1, 118]

theorem tagged_wellFormed : tagged.WellFormed where
  topic := by decide
  identifier := by decide
  properties := ⟨by decide, by decide, nofun, nofun⟩

/-- A CONNECT with a pair that is there twice, a will, and a user name that no flag asks for. -/
def taggedConnect : Connect :=
  { flags := 4
    connectProperties :=
      { userProperty := [⟨[107], [118]⟩, ⟨[107], [118]⟩, ⟨[107], [119]⟩] }
    clientId := [99]
    willProperties := { userProperty := [⟨[97], [98]⟩] }
    willTopic := [116]
    username := some [117] }

def taggedConnectFrame : Bytes :=
  [16, 51, 0, 4, 77, 81, 84, 84, 5, 4, 0, 240, 21, 38, 0, 1, 107, 0, 1, 118, 38, 0, 1, 107, 0, 1,
    118, 38, 0, 1, 107, 0, 1, 119, 0, 1, 99, 7, 38, 0, 1, 97, 0, 1, 98, 0, 1, 116, 0, 0, 0, 1, 117]

theorem taggedConnect_survives : Survives (.connect taggedConnect) where
  fits :=
    { clientId := by decide
      properties := by decide +kernel
      will := fun _ => by decide +kernel
      credentials := by decide }
  identified publish heq := by cases heq
  announced connect heq := by
    cases heq
    decide
  untagged publish heq := by cases heq

end Mqtt5.WireUserProperties
