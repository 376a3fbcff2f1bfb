import Mqtt5.WireSizes
import Mqtt5.WireControlPacket

/-!
# Sizes within the limits of the wire

What an encoding takes is counted here in natural numbers, which the encoder's own 16-bit
and 32-bit counts agree with up to their limits. `Weighs` is what the two have to do with
each other: up to `maxLength` bytes a packet is written, and in exactly as many bytes.
-/
namespace Mqtt5.WireLimits
open ByteWriter WirePrimitives WireProperties WireHeader WirePublish WireConnect WireSubscribe
open WireControlPacket WireSizes

/-- The largest number that a variable byte integer holds. -/
def maxLength : ℕ := 268435455

theorem lt_of_le_maxLength {n : ℕ} (h : n ≤ maxLength) : n < 2 ^ 32 := by
  unfold maxLength at h
  omega

/-- Up to `maxLength` bytes everything is written; and what is written takes `n` bytes,
where 32 bits can count them. -/
structure Weighs (w : Writer) (n : ℕ) : Prop where
  written : n ≤ maxLength → ∃ zs, w = .emit zs
  length : n < 2 ^ 32 → ∀ zs, w = .emit zs → zs.length = n

theorem weighs_emit (zs : Bytes) : Weighs (.emit zs) zs.length where
  written _ := ⟨zs, rfl⟩
  length := by
    intro _ ys h
    cases h
    rfl

theorem weighs_nil : Weighs (.emit []) 0 := weighs_emit []

theorem Weighs.append {w v : Writer} {m n : ℕ} (hw : Weighs w m) (hv : Weighs v n) :
    Weighs (w ++ v) (m + n) where
  written := by
    intro hle
    obtain ⟨xs, rfl⟩ := hw.written (by omega)
    obtain ⟨ys, rfl⟩ := hv.written (by omega)
    exact ⟨xs ++ ys, rfl⟩
  length := by
    intro hlt zs h
    obtain ⟨xs, ys, hx, hy, rfl⟩ := Written.append_eq_emit.mp h
    rw [List.length_append, hw.length (by omega) xs hx, hv.length (by omega) ys hy]

theorem Weighs.of_emit {w : Writer} {zs : Bytes} {n : ℕ} (h : w = .emit zs)
    (hn : zs.length = n) : Weighs w n := by
  rw [h, ← hn]
  exact weighs_emit zs

theorem weighs_forEach {α : Type} {f : α → Writer} {size : α → ℕ} {as : List α}
    (h : ∀ a ∈ as, Weighs (f a) (size a)) :
    Weighs (Written.forEach f as) (as.map size).sum := by
  induction as with
  | nil => exact weighs_nil
  | cons a as ih =>
    have hrest := ih fun b hb => h b (List.mem_cons_of_mem a hb)
    rw [Written.forEach_cons, List.map_cons, List.sum_cons]
    exact (h a List.mem_cons_self).append hrest

theorem weighs_int8 (v : UInt8) : Weighs (writeInt8 v) 1 := .of_emit rfl (by simp)
theorem weighs_int16 (v : UInt16) : Weighs (writeInt16 v) 2 := .of_emit rfl (by simp)
theorem weighs_int32 (v : UInt32) : Weighs (writeInt32 v) 4 := .of_emit rfl (by simp)

/-! ## Fields -/

def varlenSize (n : ℕ) : ℕ := (Base128.digits n).length

def stringSize (data : Bytes) : ℕ := 2 + data.length

/-- A length field and what it counts. -/
def framedSize (n : ℕ) : ℕ := varlenSize n + n

theorem le_framedSize (n : ℕ) : n ≤ framedSize n := Nat.le_add_left n (varlenSize n)

theorem sizedBytes_length (data : Bytes) : (sizedBytes data).length = stringSize data := by
  rw [sizedBytes, List.length_append, fixedIntBytes_length, stringSize]

theorem writeVarlen_emit {v : UInt32} (h : v.toNat ≤ maxLength) :
    writeVarlen v = .emit (Base128.digits v.toNat) := by
  have hmax : v.toNat ≤ 268435455 := h
  rw [writeVarlen_eq, if_pos hmax]

theorem weighs_varlen {v : UInt32} (h : v.toNat ≤ maxLength) :
    Weighs (writeVarlen v) (varlenSize v.toNat) := by
  rw [writeVarlen_emit h]
  exact weighs_emit _

theorem toNat_ofNat {n : ℕ} (h : n < 2 ^ 32) : (UInt32.ofNat n).toNat = n := by
  rw [UInt32.toNat_ofNat', Nat.mod_eq_of_lt h]

/-- A count that 32 bits hold is written just when 28 bits hold it. -/
theorem writeCount_emit_iff {n : ℕ} (hn : n < 2 ^ 32) {zs : Bytes} :
    writeVarlen (UInt32.ofNat n) = .emit zs ↔ n ≤ maxLength ∧ zs = Base128.digits n := by
  rw [writeVarlen_eq, toNat_ofNat hn]
  change (if n ≤ maxLength then _ else _) = _ ↔ _
  by_cases hle : n ≤ maxLength
  · rw [if_pos hle, and_iff_right hle]
    constructor
    · intro h
      cases h
      rfl
    · intro h
      rw [h]
  · rw [if_neg hle, iff_false_right (fun h => hle h.1)]
    intro h
    cases h

theorem weighs_string {data : Bytes} (h : Sized data) :
    Weighs (writeString data) (stringSize data) :=
  .of_emit (writeString_eq h) (sizedBytes_length data)

theorem weighs_binary {data : Bytes} (h : Sized data) :
    Weighs (writeBinary data) (stringSize data) := weighs_string h

/-! ## Property blocks -/

def valueSize : Value → ℕ
  | .byte _ => 1
  | .int16 _ => 2
  | .int32 _ => 4
  | .varlen v => varlenSize v.toNat
  | .string v => stringSize v
  | .binary v => stringSize v
  | .pair v => stringSize v.key + stringSize v.value

def propertySize (prop : Property) : ℕ := varlenSize prop.identifier.toNat + valueSize prop.value

/-- What the length field of a block has to count. -/
def blockSize (props : List Property) : ℕ := (props.map propertySize).sum

@[simp] theorem blockSize_nil : blockSize [] = 0 := rfl

@[simp] theorem blockSize_cons (p : Property) (ps : List Property) :
    blockSize (p :: ps) = propertySize p + blockSize ps := rfl

@[simp] theorem blockSize_append (ps qs : List Property) :
    blockSize (ps ++ qs) = blockSize ps + blockSize qs := by
  simp [blockSize]

/-- The identifiers are numbers that a variable byte integer holds. -/
def Counted (props : List Property) : Prop := ∀ p ∈ props, p.identifier.toNat ≤ maxLength

instance (props : List Property) : Decidable (Counted props) :=
  inferInstanceAs (Decidable (∀ p ∈ props, p.identifier.toNat ≤ maxLength))

theorem weighs_value {v : Value} (h : v.Sized) (hkind : v.kind ≠ .varlen) :
    Weighs (writeValue v) (valueSize v) := by
  cases v with
  | byte v => exact weighs_int8 v
  | int16 v => exact weighs_int16 v
  | int32 v => exact weighs_int32 v
  | varlen v => exact absurd rfl hkind
  | string v => exact weighs_string h
  | binary v => exact weighs_binary h
  | pair v => exact (weighs_string h.1).append (weighs_string h.2)

theorem weighs_property {prop : Property} (h : prop.WellTyped)
    (hid : prop.identifier.toNat ≤ maxLength) :
    Weighs (writeProperty prop) (propertySize prop) := by
  have hkind : prop.value.kind ≠ .varlen := by
    rw [h.kind]
    exact selectedKind_ne_varlen prop.identifier
  exact (weighs_varlen hid).append (weighs_value h.sized hkind)

theorem weighs_properties {props : List Property} (h : ∀ p ∈ props, p.WellTyped)
    (hid : Counted props) : Weighs (writeProperties props) (framedSize (blockSize props)) := by
  have hblock : Weighs (Written.forEach writeProperty props) (blockSize props) :=
    weighs_forEach fun p hp => weighs_property (h p hp) (hid p hp)
  have hle := le_framedSize (blockSize props)
  constructor
  · intro hmax
    obtain ⟨ys, hys⟩ := hblock.written (by omega)
    have hlt : blockSize props < 2 ^ 32 := hle.trans_lt (lt_of_le_maxLength hmax)
    have hlen := hblock.length hlt ys hys
    rw [writeProperties_of_emit hys, hlen,
      (writeCount_emit_iff hlt).mpr ⟨by omega, rfl⟩]
    exact ⟨_, rfl⟩
  · intro hlt zs hzs
    obtain ⟨ys, hys⟩ := properties_of_writeProperties hzs
    have hlen := hblock.length (by omega) ys hys
    rw [writeProperties_of_emit hys, hlen] at hzs
    obtain ⟨xs, ys', hx, hy, rfl⟩ := Written.append_eq_emit.mp hzs
    cases hy
    rw [((writeCount_emit_iff (by omega)).mp hx).2, List.length_append, hlen]
    rfl

/-! ## Sections -/

variable {σ : Type} {S : PropertySection σ}

/-- Every addition that is made hands over an argument of the right type. -/
def Fitting (S : PropertySection σ) (s : σ) : Prop := ∀ a ∈ S.adds s, a.present → a.Fits

def sectionSize (S : PropertySection σ) (s : σ) : ℕ := framedSize (blockSize (S.block s))

theorem counted_made (adds : List MaybeAdd) : Counted (presentProperties adds) := by
  intro p hp
  obtain ⟨a, -, rfl⟩ := List.mem_map.mp hp
  have hlt := a.id.toNat_lt
  rw [made_identifier, UInt8.toNat_toUInt32, maxLength]
  omega

theorem counted_block {s : σ} (h : Counted (S.base s).unknownProperties) :
    Counted (S.block s) := by
  intro p hp
  rcases List.mem_append.mp hp with hp | hp
  · rcases List.mem_append.mp hp with hp | hp
    · exact counted_made (S.adds s) p hp
    · obtain ⟨kv, -, rfl⟩ := List.mem_map.mp hp
      change (38 : ℕ) ≤ 268435455
      omega
  · exact h p (mem_merged hp)

theorem weighs_section {s : σ} (h : S.WellFormed s) (hf : Fitting S s)
    (hid : Counted (S.base s).unknownProperties) :
    Weighs (S.serialize s) (sectionSize S s) := by
  rw [PropertySection.serialize, PropertySection.build_eq h hf]
  exact weighs_properties (PropertySection.block_wellTyped h hf) (counted_block hid)

theorem connectConnack_fits (p : ConnectConnackProperties) :
    ∀ a ∈ p.adds, a.present → a.Fits := by
  intro a ha _
  simp only [ConnectConnackProperties.adds, List.mem_cons, List.not_mem_nil, or_false] at ha
  rcases ha with rfl | rfl | rfl | rfl | rfl | rfl
  all_goals rfl

theorem connect_fitting (p : ConnectProperties) : Fitting ConnectProperties.asSection p := by
  intro a ha hpresent
  change a ∈ ConnectProperties.adds p at ha
  simp only [ConnectProperties.adds, List.mem_cons] at ha
  rcases ha with rfl | rfl | ha
  · rfl
  · rfl
  · exact connectConnack_fits _ a ha hpresent

theorem connack_fitting (p : ConnackProperties) : Fitting ConnackProperties.asSection p := by
  intro a ha hpresent
  change a ∈ ConnackProperties.adds p at ha
  simp only [ConnackProperties.adds, List.mem_cons] at ha
  rcases ha with rfl | rfl | rfl | rfl | rfl | rfl | rfl | rfl | rfl | rfl | ha
  case inr.inr.inr.inr.inr.inr.inr.inr.inr.inr => exact connectConnack_fits _ a ha hpresent
  all_goals rfl

theorem will_fitting (p : WillProperties) : Fitting WillProperties.asSection p := by
  intro a ha _
  change a ∈ WillProperties.adds p at ha
  simp only [WillProperties.adds, List.mem_cons, List.not_mem_nil, or_false] at ha
  rcases ha with rfl | rfl | rfl | rfl | rfl | rfl
  all_goals rfl

theorem disconnect_fitting (p : DisconnectProperties) :
    Fitting DisconnectProperties.asSection p := by
  intro a ha _
  change a ∈ DisconnectProperties.adds p at ha
  simp only [DisconnectProperties.adds, List.mem_cons, List.not_mem_nil, or_false] at ha
  rcases ha with rfl | rfl | rfl
  all_goals rfl

theorem reason_fitting (p : ReasonProperties) : Fitting ReasonProperties.asSection p := by
  intro a ha _
  rw [List.mem_singleton.mp ha]
  rfl

theorem unsubscribe_fitting (p : UnsubscribeProperties) :
    Fitting UnsubscribeProperties.asSection p :=
  fun _ ha => absurd ha List.not_mem_nil

/-- An argument of the wrong type is handed over for a subscription identifier only. -/
theorem subscribe_fitting {p : SubscribeProperties} (h : p.subscriptionIdentifier = 0) :
    Fitting SubscribeProperties.asSection p := by
  intro a ha hpresent
  rw [List.mem_singleton.mp ha] at hpresent
  simp [h] at hpresent

theorem publish_fitting {p : PublishProperties} (h : p.subscriptionIdentifier = 0) :
    Fitting PublishProperties.asSection p := by
  intro a ha hpresent
  change a ∈ PublishProperties.adds p at ha
  simp only [PublishProperties.adds, List.mem_cons, List.mem_append, List.not_mem_nil,
    or_false] at ha
  rcases ha with rfl | rfl | rfl | ha | rfl | rfl | rfl | rfl
  case inr.inr.inr.inl => exact addUserProperties_fits _ a ha hpresent
  case inr.inr.inr.inr.inl => simp [h] at hpresent
  all_goals rfl

/-! ## Packets -/

def optionalSize : Option Bytes → ℕ
  | some data => stringSize data
  | none => 0

def willSize (p : Connect) : ℕ :=
  if p.flags &&& Connect.willFlag ≠ 0 then
    sectionSize WillProperties.asSection p.willProperties + stringSize p.willTopic +
      stringSize p.willPayload
  else 0

def connectSize (p : Connect) : ℕ :=
  stringSize Connect.alwaysMqtt + 1 + 1 + 2 +
    sectionSize ConnectProperties.asSection p.connectProperties + stringSize p.clientId +
    willSize p + optionalSize p.username + optionalSize p.password

def connackSize (p : Connack) : ℕ :=
  1 + 1 + sectionSize ConnackProperties.asSection p.properties

def publishSize (p : Publish) : ℕ :=
  stringSize p.topic + (if p.packetIdentifier ≠ 0 then 2 else 0) +
    sectionSize PublishProperties.asSection p.properties + p.payload.length

/-- Without a reason and properties that the encoder asks for, the identifier is all. -/
def ackSize (p : Ack) : ℕ :=
  2 + if p.reasonCode = 0 ∧ p.properties.userProperty = [] ∧ p.properties.reasonString = [] then 0
    else 1 + sectionSize ReasonProperties.asSection p.properties

def subscribeSize (p : Subscribe) : ℕ :=
  2 + sectionSize SubscribeProperties.asSection p.properties +
    (p.topics.map fun f => stringSize f.topic + 1).sum

def reasonCodesSize (p : ReasonCodes) : ℕ :=
  2 + sectionSize ReasonProperties.asSection p.properties + p.reasonCodes.length

def unsubscribeSize (p : Unsubscribe) : ℕ :=
  2 + sectionSize UnsubscribeProperties.asSection p.properties + (p.topics.map stringSize).sum

def disconnectSize (p : Disconnect) : ℕ :=
  if p.reason = DisconnectReason.normal ∧ p.properties = {} then 0
  else 1 + sectionSize DisconnectProperties.asSection p.properties

theorem weighs_optional {w : Bytes → Writer} {o : Option Bytes}
    (h : ∀ data ∈ o, Weighs (w data) (stringSize data)) :
    Weighs (Connect.writeOptional w o) (optionalSize o) := by
  cases o with
  | none => exact weighs_nil
  | some data => exact h data rfl

theorem weighs_will {p : Connect} (h : p.flags &&& Connect.willFlag ≠ 0 →
      WillProperties.asSection.WellFormed p.willProperties ∧ Sized p.willTopic ∧ Sized p.willPayload)
    (hid : p.flags &&& Connect.willFlag ≠ 0 → Counted p.willProperties.unknownProperties) :
    Weighs p.writeWill (willSize p) := by
  rw [Connect.writeWill, willSize]
  split
  case isTrue hflag =>
    obtain ⟨hwill, htopic, hpayload⟩ := h hflag
    exact ((weighs_section hwill (will_fitting _) (hid hflag)).append
      (weighs_string htopic)).append (weighs_binary hpayload)
  case isFalse => exact weighs_nil

theorem weighs_connect {p : Connect} (hclient : Sized p.clientId)
    (h : ConnectProperties.asSection.WellFormed p.connectProperties)
    (hwill : p.flags &&& Connect.willFlag ≠ 0 →
      WillProperties.asSection.WellFormed p.willProperties ∧ Sized p.willTopic ∧ Sized p.willPayload)
    (husername : ∀ username ∈ p.username, Sized username)
    (hpassword : ∀ password ∈ p.password, Sized password)
    (hid : Counted p.connectProperties.unknownProperties)
    (hwillId : p.flags &&& Connect.willFlag ≠ 0 → Counted p.willProperties.unknownProperties) :
    Weighs p.serializeBody (connectSize p) := by
  have hname : Weighs (writeString Connect.alwaysMqtt) (stringSize Connect.alwaysMqtt) :=
    weighs_string (by decide)
  have husernames := weighs_optional fun data hdata => weighs_string (husername data hdata)
  have hpasswords := weighs_optional fun data hdata => weighs_binary (hpassword data hdata)
  have hproperties := weighs_section h (connect_fitting _) hid
  apply Weighs.append _ hpasswords
  apply Weighs.append _ husernames
  apply Weighs.append _ (weighs_will hwill hwillId)
  apply Weighs.append _ (weighs_string hclient)
  apply Weighs.append _ hproperties
  exact ((hname.append (weighs_int8 _)).append (weighs_int8 _)).append (weighs_int16 _)

theorem weighs_connack {p : Connack} (h : ConnackProperties.asSection.WellFormed p.properties)
    (hid : Counted p.properties.unknownProperties) : Weighs p.serializeBody (connackSize p) :=
  ((weighs_int8 _).append (weighs_int8 _)).append (weighs_section h (connack_fitting _) hid)

theorem weighs_publish {p : Publish} (htopic : Sized p.topic)
    (h : PublishProperties.asSection.WellFormed p.properties)
    (hsub : p.properties.subscriptionIdentifier = 0)
    (hid : Counted p.properties.unknownProperties) :
    Weighs p.serializeBody (publishSize p) := by
  have hidentifier : Weighs (if p.packetIdentifier ≠ 0 then writeInt16 p.packetIdentifier
      else .emit []) (if p.packetIdentifier ≠ 0 then 2 else 0) := by
    split
    · exact weighs_int16 _
    · exact weighs_nil
  exact (((weighs_string htopic).append hidentifier).append
    (weighs_section h (publish_fitting hsub) hid)).append (weighs_emit _)

theorem weighs_ack {p : Ack} (h : ReasonProperties.asSection.WellFormed p.properties)
    (hid : Counted p.properties.unknownProperties) : Weighs p.serializeBody (ackSize p) := by
  rw [Ack.serializeBody, ackSize]
  apply (weighs_int16 _).append
  by_cases hs : p.reasonCode = 0 ∧ p.properties.userProperty = [] ∧ p.properties.reasonString = []
  · rw [if_neg (by simp [hs]), if_pos hs]
    exact weighs_nil
  · rw [if_pos (by simpa [or_iff_not_imp_left] using hs), if_neg hs]
    exact (weighs_int8 _).append (weighs_section h (reason_fitting _) hid)

theorem weighs_subscribe {p : Subscribe} (h : p.WellFormed)
    (hsub : p.properties.subscriptionIdentifier = 0)
    (hid : Counted p.properties.unknownProperties) :
    Weighs p.serializeBody (subscribeSize p) := by
  apply ((weighs_int16 _).append (weighs_section h.properties (subscribe_fitting hsub) hid)).append
  exact weighs_forEach fun f hf => (weighs_string (h.topics f hf)).append (weighs_int8 _)

theorem weighs_reasonCodes {p : ReasonCodes}
    (h : ReasonProperties.asSection.WellFormed p.properties)
    (hid : Counted p.properties.unknownProperties) :
    Weighs p.serializeBody (reasonCodesSize p) :=
  ((weighs_int16 _).append (weighs_section h (reason_fitting _) hid)).append (weighs_emit _)

theorem weighs_unsubscribe {p : Unsubscribe} (h : p.WellFormed)
    (hid : Counted p.properties.unknownProperties) :
    Weighs p.serializeBody (unsubscribeSize p) := by
  apply ((weighs_int16 _).append (weighs_section h.properties (unsubscribe_fitting _) hid)).append
  exact weighs_forEach fun t ht => weighs_string (h.topics t ht)

theorem weighs_disconnect {p : Disconnect}
    (h : DisconnectProperties.asSection.WellFormed p.properties)
    (hid : Counted p.properties.unknownProperties) :
    Weighs p.serializeBody (disconnectSize p) := by
  rw [Disconnect.serializeBody, disconnectSize]
  split
  · exact weighs_nil
  · exact (weighs_int8 _).append (weighs_section h (disconnect_fitting _) hid)

/-- Behind a header, a body of at most `maxLength` bytes is written. -/
theorem writePacket_within {body : Writer} {n : ℕ} (h : Weighs body n) (hn : n ≤ maxLength)
    (type flags : UInt8) :
    ∃ frame, writePacket type flags body = .emit frame ∧ frame.length < 2 ^ 32 := by
  obtain ⟨zs, hzs⟩ := h.written hn
  have hbody := h.length (lt_of_le_maxLength hn) zs hzs
  obtain ⟨frame, hframe, hlen⟩ := emits_packet ⟨zs, hzs, hbody.le⟩ hn type flags
  refine ⟨frame, hframe, ?_⟩
  unfold maxLength at hn
  omega

/-- Behind a header, a body is written just when 28 bits hold its size. -/
theorem writePacket_emit_iff {type flags : UInt8} {body : Writer} {n : ℕ} (h : Weighs body n)
    (hn : n < 2 ^ 32) :
    (∃ frame, writePacket type flags body = .emit frame) ↔ n ≤ maxLength := by
  constructor
  · rintro ⟨frame, hf⟩
    obtain ⟨zs, rfl⟩ := body_of_writePacket hf
    rw [writePacket_of_emit, h.length hn zs rfl] at hf
    obtain ⟨xs, -, hx, -⟩ := Written.append_eq_emit.mp hf
    obtain ⟨-, ys, -, hy, -⟩ := Written.append_eq_emit.mp hx
    exact ((writeCount_emit_iff hn).mp hy).1
  · intro hle
    obtain ⟨frame, hframe, -⟩ := writePacket_within h hle type flags
    exact ⟨frame, hframe⟩

end Mqtt5.WireLimits
