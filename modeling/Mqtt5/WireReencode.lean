import Mqtt5.WireFidelity
import Mqtt5.WireReceived

/-!
# Encoding a received packet again

Whatever bytes a decoder accepted, the packet it made of them is fit for the wire, and in
all but one case takes no more bytes than were read. It comes back from a second round
unless the encoder drops a part of it.
-/
namespace Mqtt5.WireReencode
open ByteParser ByteWriter WirePrimitives WireProperties WireHeader WirePublish WireConnect
open WireSubscribe WireControlPacket WireRoundTrip WireLimits WireFidelity WireReceived

variable {α : Type}

/-! ## Bytes that were read -/

theorem length_of_int8 {xs rest : Bytes} {v : UInt8} (h : fixedInt8.run xs = .ok (v, rest)) :
    xs.length = 1 + rest.length := by
  obtain ⟨enc, rfl, rfl⟩ := (fixedInt8_parses _ _ _).mp h
  rw [List.length_append, List.length_singleton]

theorem length_of_int16 {xs rest : Bytes} {v : UInt16} (h : fixedInt16.run xs = .ok (v, rest)) :
    xs.length = 2 + rest.length := by
  obtain ⟨enc, rfl, rfl⟩ := (fixedInt16_parses _ _ _).mp h
  rw [List.length_append, fixedIntBytes_length]

theorem length_of_string {xs rest s : Bytes} (h : readString.run xs = .ok (s, rest)) :
    xs.length = stringSize s + rest.length ∧ Sized s := by
  obtain ⟨enc, rfl, rfl, hs⟩ := (readString_parses _ _ _).mp h
  exact ⟨by rw [List.length_append, sizedBytes_length], hs⟩

theorem length_of_binary {xs rest s : Bytes} (h : readBinary.run xs = .ok (s, rest)) :
    xs.length = stringSize s + rest.length ∧ Sized s := by
  obtain ⟨enc, rfl, rfl, hs⟩ := (readBinary_parses _ _ _).mp h
  exact ⟨by rw [List.length_append, sizedBytes_length], hs⟩

theorem length_of_section {σ : Type} {S : PropertySection σ} (A : Account S) {s : σ}
    {xs rest : Bytes} (h : S.deserialize.run xs = .ok (s, rest)) :
    ∃ n, A.Holds s n ∧ framedSize n + rest.length ≤ xs.length := by
  obtain ⟨enc, n, rfl, hs, hn⟩ := Account.holds_of_run (A := A) h
  refine ⟨n, hs, ?_⟩
  rw [List.length_append]
  omega

/-- A section that is accounted by the additions it makes gets no larger. -/
theorem size_of_section {σ : Type} {S : PropertySection σ} (A : Account S)
    (hcost : ∀ s, A.cost s = S.adds s) {s : σ} {xs rest : Bytes}
    (h : S.deserialize.run xs = .ok (s, rest)) :
    S.WellFormed s ∧ Counted (S.base s).unknownProperties ∧
      sectionSize S s + rest.length ≤ xs.length := by
  obtain ⟨n, hs, hn⟩ := length_of_section A h
  have hsize := sectionSize_le (k := 0) hs (by rw [hcost]; exact le_rfl)
  exact ⟨hs.wellFormed, hs.counted, by rw [Nat.add_zero] at hsize; omega⟩

/-- Empty data for a method takes three bytes, and the length field may take one more. -/
theorem size_of_authentication {σ : Type} {S : PropertySection σ} (A : Account S)
    (p : σ → ConnectConnackProperties)
    (hcost : ∀ s, additionsSize (S.adds s) ≤
      additionsSize (A.cost s) + if MethodAlone (p s) then 3 else 0)
    {s : σ} {xs rest : Bytes} (hxs : xs.length ≤ maxLength)
    (h : S.deserialize.run xs = .ok (s, rest)) :
    S.WellFormed s ∧ Counted (S.base s).unknownProperties ∧
      sectionSize S s + rest.length ≤ xs.length + if MethodAlone (p s) then 8 else 0 := by
  obtain ⟨n, hs, hn⟩ := length_of_section A h
  have hsize := sectionSize_le hs (hcost s)
  refine ⟨hs.wellFormed, hs.counted, ?_⟩
  by_cases halone : MethodAlone (p s)
  · rw [if_pos halone] at hsize ⊢
    have hle := le_framedSize n
    have hvarlen : varlenSize (n + 3) ≤ 5 := by
      apply Base128.digits_length_le
      unfold maxLength at hxs
      norm_num
      omega
    unfold framedSize at hsize hn
    omega
  · rw [if_neg halone] at hsize ⊢
    rw [Nat.add_zero] at hsize
    omega

theorem run_onSpan {p : Reader α} {xs rest : Bytes} {a : α} {size : ℕ} (hsize : size = xs.length)
    (h : (onSpan size p).run xs = .ok (a, rest)) : ∃ left, p.run xs = .ok (a, left) := by
  obtain ⟨span, mid, hspan, h⟩ := run_bind_ok.mp h
  rw [run_cspanN, if_neg (by omega), hsize, List.take_length] at hspan
  cases hspan
  obtain ⟨⟨b, left⟩, mid, hb, h⟩ := run_bind_ok.mp h
  cases h
  exact ⟨left, (run_liftM_ok.mp hb).1⟩

/-- The body that the decoder handed to the packet's own deserializer. -/
theorem body_of_deserialize {frame rest : Bytes} {p : ControlPacket}
    (h : ControlPacket.deserialize.run frame = .ok (p, rest)) :
    ∃ hdr body left, hdr.remainingLength.toNat = body.length ∧ body.length ≤ maxLength ∧
      (ControlPacket.deserializeBody hdr).run body = .ok (p, left) := by
  obtain ⟨hdr, mid, hhdr, h⟩ := run_bind_ok.mp h
  obtain ⟨enc, -, lengthEnc, -, hword, hlen⟩ := (Header.deserialize_parses _ _ _).mp hhdr
  obtain ⟨body, mid', hspan, h⟩ := run_bind_ok.mp h
  rw [run_cspanN] at hspan
  split_ifs at hspan with hshort
  cases hspan
  obtain ⟨q, mid'', hq, h⟩ := run_bind_ok.mp h
  have hsize : (mid.take hdr.remainingLength.toNat).length = hdr.remainingLength.toNat := by
    rw [List.length_take]
    omega
  obtain ⟨⟨_, left⟩, hbody, hpacket⟩ := bind_ok.mp (run_liftM_ok.mp hq).1
  cases hpacket
  have hsame : q = p := (Prod.mk.inj (Except.ok.inj h)).1
  rw [hsame] at hbody
  refine ⟨hdr, mid.take hdr.remainingLength.toNat, left, ?_⟩
  rw [hsize]
  exact ⟨rfl, le_maxLength_of_word hword hlen, hbody⟩

/-- The reader that a packet came from, for the packets that are encoded again here. -/
def ReadFrom (hdr : Header) (body left : Bytes) : ControlPacket → Prop
  | .connect p => Connect.deserialize.run body = .ok (p, left)
  | .connack p => Connack.deserialize.run body = .ok (p, left)
  | .suback p | .unsuback p => (ReasonCodes.deserialize hdr).run body = .ok (p, left)
  | .unsubscribe p => (Unsubscribe.deserialize hdr).run body = .ok (p, left)
  | .disconnect p => (Disconnect.deserialize hdr).run body = .ok (p, left)
  | _ => True

/-- A branch of the dispatch on the type. -/
def Leads (hdr : Header) (body : Bytes) (r : Reader ControlPacket) : Prop :=
  ∀ ⦃p left⦄, r.run body = .ok (p, left) → ReadFrom hdr body left p

theorem Leads.ite {hdr : Header} {body : Bytes} {c : Prop} [Decidable c]
    {q r : Reader ControlPacket} (hq : Leads hdr body q) (hr : Leads hdr body r) :
    Leads hdr body (if c then q else r) := by
  split
  · exact hq
  · exact hr

theorem Leads.map {hdr : Header} {body : Bytes} {c : α → ControlPacket} {r : Reader α}
    (h : ∀ a left, r.run body = .ok (a, left) → ReadFrom hdr body left (c a)) :
    Leads hdr body (c <$> r) := by
  intro p left hp
  obtain ⟨a, ha, rfl⟩ := run_map_ok.mp hp
  exact h a left ha

theorem Leads.other {hdr : Header} {body : Bytes} {c : α → ControlPacket} {r : Reader α}
    (h : ∀ left a, ReadFrom hdr body left (c a)) : Leads hdr body (c <$> r) :=
  .map fun a left _ => h left a

theorem leads_deserializeBody (hdr : Header) (body : Bytes) :
    Leads hdr body (ControlPacket.deserializeBody hdr) := by
  refine .ite (.map fun _ _ h => h) (.ite (.map fun _ _ h => h) ?_)
  refine .ite (.other fun _ _ => trivial) (.ite (.other fun _ _ => trivial) ?_)
  refine .ite (.other fun _ _ => trivial) (.ite (.other fun _ _ => trivial) ?_)
  refine .ite (.other fun _ _ => trivial) (.ite (.other fun _ _ => trivial) ?_)
  refine .ite (.map fun _ _ h => h) (.ite (.map fun _ _ h => h) ?_)
  refine .ite (.map fun _ _ h => h) (.ite (.map fun _ _ h => h) ?_)
  refine .ite (fun _ _ h => by cases h; trivial) (.ite (fun _ _ h => by cases h; trivial) ?_)
  intro p left h
  cases h

/-! ## Each packet -/

theorem size_of_flagged {flags flag : UInt8} {r : Reader Bytes} {xs rest : Bytes}
    {o : Option Bytes} (h : (Connect.readFlagged flags flag r).run xs = .ok (o, rest))
    (hr : ∀ {s}, r.run xs = .ok (s, rest) → xs.length = stringSize s + rest.length ∧ Sized s) :
    (flags &&& flag ≠ 0 ↔ o ≠ none) ∧ (∀ s ∈ o, Sized s) ∧
      xs.length = optionalSize o + rest.length := by
  rw [Connect.readFlagged] at h
  split at h
  case isTrue hflag =>
    obtain ⟨s, hs, rfl⟩ := run_map_ok.mp h
    obtain ⟨hlen, hsized⟩ := hr hs
    exact ⟨iff_of_true hflag (Option.some_ne_none s), fun t ht => Option.some.inj ht ▸ hsized, hlen⟩
  case isFalse hflag =>
    cases h
    exact ⟨iff_of_false hflag (· rfl), by simp, (Nat.zero_add _).symm⟩

theorem length_of_protocolName {xs rest : Bytes} {u : Unit}
    (h : Connect.readProtocolName.run xs = .ok (u, rest)) :
    xs.length = stringSize Connect.alwaysMqtt + rest.length := by
  obtain ⟨s, mid, hs, h⟩ := run_bind_ok.mp h
  split at h
  case isTrue => cases h
  case isFalse hname =>
    cases h
    rw [(length_of_string hs).1, not_not.mp hname]

/-- What a will that was read holds, and how many bytes it takes. -/
structure WillRead (flags : UInt8) (w : WillProperties × Bytes × Bytes) : Prop where
  fields : flags &&& Connect.willFlag ≠ 0 →
    WillProperties.asSection.WellFormed w.1 ∧ Sized w.2.1 ∧ Sized w.2.2
  absent : flags &&& Connect.willFlag = 0 → w = ({}, [], [])
  counted : Counted w.1.unknownProperties

theorem size_of_will {flags : UInt8} {xs rest : Bytes} {w : WillProperties × Bytes × Bytes}
    (h : (Connect.readWill flags).run xs = .ok (w, rest)) :
    WillRead flags w ∧
      (if flags &&& Connect.willFlag ≠ 0 then
        sectionSize WillProperties.asSection w.1 + stringSize w.2.1 + stringSize w.2.2
      else 0) + rest.length ≤ xs.length := by
  rw [Connect.readWill] at h
  split at h
  case isTrue hflag =>
    obtain ⟨properties, m₁, hproperties, h⟩ := run_bind_ok.mp h
    obtain ⟨topic, m₂, htopic, h⟩ := run_bind_ok.mp h
    obtain ⟨payload, m₃, hpayload, h⟩ := run_bind_ok.mp h
    cases h
    obtain ⟨hwell, hcounted, hsize⟩ := size_of_section willAccount (fun _ => rfl) hproperties
    obtain ⟨htopicLen, htopicSized⟩ := length_of_string htopic
    obtain ⟨hpayloadLen, hpayloadSized⟩ := length_of_binary hpayload
    refine ⟨⟨fun _ => ⟨hwell, htopicSized, hpayloadSized⟩, fun h => absurd h hflag, hcounted⟩, ?_⟩
    rw [if_pos hflag]
    dsimp only
    omega
  case isFalse hflag =>
    cases h
    refine ⟨⟨fun h => absurd h hflag, fun _ => rfl, by simp [Counted]⟩, ?_⟩
    rw [if_neg hflag, Nat.zero_add]

theorem connect_of_run {body left : Bytes} {p : Connect} (hbody : body.length ≤ maxLength)
    (h : Connect.deserialize.run body = .ok (p, left)) :
    p.WellFormed ∧ WillGiven p ∧ Counted p.connectProperties.unknownProperties ∧
      Counted p.willProperties.unknownProperties ∧
      connectSize p ≤ body.length +
        if MethodAlone p.connectProperties.toConnectConnackProperties then 8 else 0 := by
  obtain ⟨_, m₁, hname, h⟩ := run_bind_ok.mp h
  obtain ⟨version, m₂, hversion, h⟩ := run_bind_ok.mp h
  obtain ⟨flags, m₃, hflags, h⟩ := run_bind_ok.mp h
  obtain ⟨keepAlive, m₄, hkeepAlive, h⟩ := run_bind_ok.mp h
  obtain ⟨connectProperties, m₅, hproperties, h⟩ := run_bind_ok.mp h
  obtain ⟨clientId, m₆, hclientId, h⟩ := run_bind_ok.mp h
  obtain ⟨⟨willProperties, willTopic, willPayload⟩, m₇, hwill, h⟩ := run_bind_ok.mp h
  obtain ⟨username, m₈, husername, h⟩ := run_bind_ok.mp h
  obtain ⟨password, m₉, hpassword, h⟩ := run_bind_ok.mp h
  cases h
  have hnameLen := length_of_protocolName hname
  have hversionLen := length_of_int8 hversion
  have hflagsLen := length_of_int8 hflags
  have hkeepAliveLen := length_of_int16 hkeepAlive
  obtain ⟨hwell, hcounted, hsize⟩ := size_of_authentication connectAccount
    ConnectProperties.toConnectConnackProperties
    (fun s => by
      have hle := connectConnack_adds_le s.toConnectConnackProperties
      change additionsSize s.adds ≤ additionsSize (connectCost s) + _
      simp only [ConnectProperties.adds, connectCost, additionsSize_cons]
      omega)
    (by omega) hproperties
  obtain ⟨hclientIdLen, hclientIdSized⟩ := length_of_string hclientId
  obtain ⟨hwillRead, hwillSize⟩ := size_of_will hwill
  obtain ⟨husernameFlag, husernameSized, husernameLen⟩ := size_of_flagged husername
    fun hs => length_of_string hs
  obtain ⟨hpasswordFlag, hpasswordSized, hpasswordLen⟩ := size_of_flagged hpassword
    fun hs => length_of_binary hs
  refine ⟨⟨hclientIdSized, hwell, hwillRead.fields, husernameFlag, hpasswordFlag, husernameSized,
    hpasswordSized⟩, ?_, hcounted, hwillRead.counted, ?_⟩
  · intro hflag
    have habsent := hwillRead.absent hflag
    rw [Prod.mk.injEq, Prod.mk.injEq] at habsent
    exact habsent
  · simp only [connectSize, willSize]
    dsimp only at hwillSize
    omega

theorem connack_of_run {body left : Bytes} {p : Connack} (hbody : body.length ≤ maxLength)
    (h : Connack.deserialize.run body = .ok (p, left)) :
    ConnackProperties.asSection.WellFormed p.properties ∧
      Counted p.properties.unknownProperties ∧
      connackSize p ≤ body.length +
        if MethodAlone p.properties.toConnectConnackProperties then 8 else 0 := by
  obtain ⟨flags, m₁, hflags, h⟩ := run_bind_ok.mp h
  obtain ⟨reasonCode, m₂, hreasonCode, h⟩ := run_bind_ok.mp h
  obtain ⟨properties, m₃, hproperties, h⟩ := run_bind_ok.mp h
  cases h
  have hflagsLen := length_of_int8 hflags
  have hreasonCodeLen := length_of_int8 hreasonCode
  obtain ⟨hwell, hcounted, hsize⟩ := size_of_authentication connackAccount
    ConnackProperties.toConnectConnackProperties
    (fun s => by
      have hle := connectConnack_adds_le s.toConnectConnackProperties
      change additionsSize s.adds ≤ additionsSize (connackCost s) + _
      simp only [ConnackProperties.adds, connackCost, additionsSize_cons]
      omega)
    (by omega) hproperties
  refine ⟨hwell, hcounted, ?_⟩
  simp only [connackSize]
  omega

theorem reasonCodes_of_run {hdr : Header} {body left : Bytes} {p : ReasonCodes}
    (hsize : hdr.remainingLength.toNat = body.length)
    (h : (ReasonCodes.deserialize hdr).run body = .ok (p, left)) :
    ReasonProperties.asSection.WellFormed p.properties ∧
      Counted p.properties.unknownProperties ∧ reasonCodesSize p ≤ body.length := by
  obtain ⟨left, h⟩ := run_onSpan hsize h
  obtain ⟨packetIdentifier, m₁, hid, h⟩ := run_bind_ok.mp h
  obtain ⟨properties, m₂, hproperties, h⟩ := run_bind_ok.mp h
  cases h
  have hidLen := length_of_int16 hid
  obtain ⟨hwell, hcounted, hsection⟩ := size_of_section reasonAccount (fun _ => rfl) hproperties
  refine ⟨hwell, hcounted, ?_⟩
  simp only [reasonCodesSize]
  omega

theorem strings_of_star {xs : Bytes} {strings : List Bytes}
    (h : Star (fun enc s => enc = sizedBytes s ∧ Sized s) xs strings) :
    (∀ s ∈ strings, Sized s) ∧ xs.length = (strings.map stringSize).sum := by
  induction h with
  | nil => exact ⟨nofun, rfl⟩
  | @cons e es s strings head tail ih =>
    refine ⟨List.forall_mem_cons.mpr ⟨head.2, ih.1⟩, ?_⟩
    rw [List.length_append, head.1, sizedBytes_length, ih.2, List.map_cons, List.sum_cons]

theorem unsubscribe_of_run {hdr : Header} {body left : Bytes} {p : Unsubscribe}
    (hsize : hdr.remainingLength.toNat = body.length)
    (h : (Unsubscribe.deserialize hdr).run body = .ok (p, left)) :
    p.WellFormed ∧ Counted p.properties.unknownProperties ∧ unsubscribeSize p ≤ body.length := by
  obtain ⟨left, h⟩ := run_onSpan hsize h
  obtain ⟨packetIdentifier, m₁, hid, h⟩ := run_bind_ok.mp h
  obtain ⟨properties, m₂, hproperties, h⟩ := run_bind_ok.mp h
  obtain ⟨topics, m₃, htopics, h⟩ := run_bind_ok.mp h
  cases h
  have hidLen := length_of_int16 hid
  obtain ⟨hwell, hcounted, hsection⟩ := size_of_section unsubscribeAccount (fun _ => rfl)
    hproperties
  have hstar := ((untilEmpty_ok_iff readString_parses (fun _ s h => h.1 ▸ sizedBytes_ne_nil s)
    _ _ _).mp htopics).2
  obtain ⟨hsized, hlen⟩ := strings_of_star hstar
  refine ⟨⟨hwell, hsized⟩, hcounted, ?_⟩
  simp only [unsubscribeSize]
  omega

theorem disconnectSize_le (p : Disconnect) :
    disconnectSize p ≤ 1 + sectionSize DisconnectProperties.asSection p.properties := by
  rw [disconnectSize]
  split
  · exact Nat.zero_le _
  · exact le_rfl

/-- A reason alone, or with one byte after it, is written with an empty block. -/
theorem disconnect_of_run {hdr : Header} {body left : Bytes} {p : Disconnect}
    (hbody : body.length ≤ maxLength) (hsize : hdr.remainingLength.toNat = body.length)
    (h : (Disconnect.deserialize hdr).run body = .ok (p, left)) :
    DisconnectProperties.asSection.WellFormed p.properties ∧
      Counted p.properties.unknownProperties ∧ disconnectSize p ≤ maxLength := by
  obtain ⟨left, h⟩ := run_onSpan hsize h
  rw [run_bind_of_ok (run_cspan body)] at h
  split at h
  · cases h
    exact ⟨by decide, nofun, Nat.zero_le _⟩
  · obtain ⟨reason, m₁, hreason, h⟩ := run_bind_ok.mp h
    have hreasonLen := length_of_int8 hreason
    rw [run_bind_of_ok (run_cspan m₁)] at h
    dsimp only at h
    by_cases hlong : m₁.length > 1
    · rw [if_pos hlong] at h
      obtain ⟨properties, m₂, hproperties, h⟩ := run_bind_ok.mp h
      cases h
      obtain ⟨hwell, hcounted, hsection⟩ := size_of_section disconnectAccount (fun _ => rfl)
        hproperties
      have hle := disconnectSize_le ⟨reason, properties⟩
      dsimp only at hle
      exact ⟨hwell, hcounted, by omega⟩
    · rw [if_neg hlong] at h
      cases h
      have hempty : sectionSize DisconnectProperties.asSection {} ≤ 1 := by decide +kernel
      have hdefault : DisconnectProperties.asSection.WellFormed {} := by decide
      have hle : disconnectSize ⟨reason, {}⟩ ≤
          1 + sectionSize DisconnectProperties.asSection {} := disconnectSize_le ⟨reason, {}⟩
      have hmax : 2 ≤ maxLength := by decide
      exact ⟨hdefault, nofun, by omega⟩

/-! ## The second round -/

/-- The packets whose codecs are told apart here from those that lose more. -/
def Covered : ControlPacket → Prop
  | .connect _ | .connack _ | .suback _ | .unsubscribe _ | .unsuback _ | .disconnect _ => True
  | _ => False

/-- Authentication data that the encoder neither drops nor has no room to make up. -/
def DataKept (p : ConnectConnackProperties) (size : ℕ) : Prop :=
  MethodGiven p ∧ (MethodAlone p → size ≤ maxLength)

/-- No two unknown properties of a block share an identifier, and authentication data has
a method; where a method has no data, there is room for empty data. -/
def Stable : ControlPacket → Prop
  | .connect p => Distinct p.connectProperties.unknownProperties ∧
      Distinct p.willProperties.unknownProperties ∧
      DataKept p.connectProperties.toConnectConnackProperties (connectSize p)
  | .connack p => Distinct p.properties.unknownProperties ∧
      DataKept p.properties.toConnectConnackProperties (connackSize p)
  | .suback p | .unsuback p => Distinct p.properties.unknownProperties
  | .unsubscribe p => Distinct p.properties.unknownProperties
  | .disconnect p => Distinct p.properties.unknownProperties
  | _ => True

theorem dataKept_iff {p : ConnectConnackProperties} {size n : ℕ} (hn : n ≤ maxLength)
    (hsize : size ≤ n + if MethodAlone p then 8 else 0) :
    size ≤ maxLength ∧ MethodGiven p ↔ DataKept p size := by
  rw [DataKept, and_comm]
  apply and_congr_right'
  constructor
  · exact fun h _ => h
  · intro h
    by_cases halone : MethodAlone p
    · exact h halone
    · rw [if_neg halone] at hsize
      omega

/-- A packet that was decoded is encoded again, and comes back from a second decoding as
it is, just when it is stable. -/
theorem reencode_iff {frame rest : Bytes} {p : ControlPacket}
    (h : ControlPacket.deserialize.run frame = .ok (p, rest)) (hcovered : Covered p) :
    RoundTrips p ↔ Stable p := by
  obtain ⟨hdr, body, left, hsize, hbody, hrun⟩ := body_of_deserialize h
  have hread := leads_deserializeBody hdr body hrun
  have hmax : maxLength + 8 < 2 ^ 32 := by decide
  cases p with
  | connect p =>
    obtain ⟨hwell, hwill, hcounted, hwillCounted, hle⟩ := connect_of_run hbody hread
    have hlt : connectSize p < 2 ^ 32 := by split at hle <;> omega
    have hdata := dataKept_iff hbody hle
    rw [connect_roundTrips_iff hwell hwill hcounted hwillCounted hlt, Stable, ← hdata]
    tauto
  | connack p =>
    obtain ⟨hwell, hcounted, hle⟩ := connack_of_run hbody hread
    have hlt : connackSize p < 2 ^ 32 := by split at hle <;> omega
    have hdata := dataKept_iff hbody hle
    rw [connack_roundTrips_iff hwell hcounted hlt, Stable, ← hdata]
    tauto
  | suback p =>
    obtain ⟨hwell, hcounted, hle⟩ := reasonCodes_of_run hsize hread
    rw [suback_roundTrips_iff hwell hcounted (by omega)]
    exact and_iff_right (hle.trans hbody)
  | unsuback p =>
    obtain ⟨hwell, hcounted, hle⟩ := reasonCodes_of_run hsize hread
    rw [unsuback_roundTrips_iff hwell hcounted (by omega)]
    exact and_iff_right (hle.trans hbody)
  | unsubscribe p =>
    obtain ⟨hwell, hcounted, hle⟩ := unsubscribe_of_run hsize hread
    rw [unsubscribe_roundTrips_iff hwell hcounted (by omega)]
    exact and_iff_right (hle.trans hbody)
  | disconnect p =>
    obtain ⟨hwell, hcounted, hle⟩ := disconnect_of_run hbody hsize hread
    rw [disconnect_roundTrips_iff hwell hcounted (by omega)]
    exact and_iff_right hle
  | publish p => exact hcovered.elim
  | puback p => exact hcovered.elim
  | pubrec p => exact hcovered.elim
  | pubrel p => exact hcovered.elim
  | pubcomp p => exact hcovered.elim
  | subscribe p => exact hcovered.elim
  | pingreq => exact hcovered.elim
  | pingresp => exact hcovered.elim

/-- A CONNACK with a length field that is longer than it has to be, the maximum quality of
service twice and a property of another packet. -/
def wordyFrame : Bytes := [32, 10, 0, 0, 0x86, 0, 36, 1, 36, 0, 1, 7]

theorem wordy_reencoded : ∃ p, ControlPacket.deserialize.run wordyFrame = .ok (p, []) ∧
    RoundTrips p := by
  have hrun : ControlPacket.deserialize.run wordyFrame = .ok (.connack
      { flags := 0, reasonCode := 0
        properties := { maximumQos := 0, unknownProperties := [⟨1, .byte 7⟩] } }, []) := rfl
  exact ⟨_, hrun, (reencode_iff hrun trivial).mpr
    ⟨by decide, fun _ => rfl, fun halone => absurd rfl halone.1⟩⟩

/-- A SUBACK with a property twice that it does not interpret. -/
def repeatedFrame : Bytes := [144, 8, 0, 1, 4, 1, 5, 1, 6, 0]

/-- A CONNACK with authentication data and no method. -/
def methodlessFrame : Bytes := [32, 7, 0, 0, 4, 22, 0, 1, 9]

/-- The encoder keeps the last value of a repeated property, and drops authentication data
that has no method. -/
theorem reencoded_differs :
    (∃ p q, ControlPacket.deserialize.run repeatedFrame = .ok (.suback p, []) ∧
      (ControlPacket.suback p).serialize = .emit [144, 6, 0, 1, 2, 1, 6, 0] ∧
      ControlPacket.deserialize.run [144, 6, 0, 1, 2, 1, 6, 0] = .ok (.suback q, []) ∧
      p.properties.unknownProperties = [⟨1, .byte 5⟩, ⟨1, .byte 6⟩] ∧
      q.properties.unknownProperties = [⟨1, .byte 6⟩]) ∧
    ∃ p q, ControlPacket.deserialize.run methodlessFrame = .ok (.connack p, []) ∧
      (ControlPacket.connack p).serialize = .emit [32, 3, 0, 0, 0] ∧
      ControlPacket.deserialize.run [32, 3, 0, 0, 0] = .ok (.connack q, []) ∧
      p.properties.authenticationData = [9] ∧ q.properties.authenticationData = [] := by
  constructor
  · exact ⟨⟨1, { unknownProperties := [⟨1, .byte 5⟩, ⟨1, .byte 6⟩] }, [0]⟩,
      ⟨1, { unknownProperties := [⟨1, .byte 6⟩] }, [0]⟩, rfl, by decide, rfl, rfl, rfl⟩
  · exact ⟨⟨0, 0, { authenticationData := [9] }⟩, ⟨0, 0, {}⟩, rfl, by decide, rfl, rfl, rfl⟩

end Mqtt5.WireReencode
