import Mqtt5.WireReads
import Mqtt5.WireHeader

/-!
# PUBLISH and its acknowledgements

`publish`, and the four packets that share `detail::puback_base`.
-/
namespace Mqtt5.WirePublish
open ByteParser ByteWriter WirePrimitives WireProperties WireReads WireHeader

/-- `enum class quality_of_service : std::uint8_t`; two header bits can also hold 3. -/
abbrev QualityOfService := UInt8

def qos0 : QualityOfService := 0
def qos1 : QualityOfService := 1
def qos2 : QualityOfService := 2

/-- `publish::properties_t` -/
structure PublishProperties extends PropertiesBase where
  responseTopic : Bytes := []
  contentType : Bytes := []
  correlationData : Bytes := []
  subscriptionIdentifier : UInt32 := 0
  messageExpiryInterval : UInt32 := 0
  topicAlias : UInt16 := 0
  payloadFormatIndicator : UInt8 := 0
  deriving DecidableEq, Repr

namespace PublishProperties

/-- The body of the loop in `publish::properties_t::deserialize`. -/
def handle (retval : PublishProperties) (prop : Property) : Except Fault PublishProperties := do
  if prop.identifier = Ids.responseTopic.toUInt32 then
    return { retval with responseTopic := ← prop.value.asString }
  else if prop.identifier = Ids.contentType.toUInt32 then
    return { retval with contentType := ← prop.value.asString }
  else if prop.identifier = Ids.correlationData.toUInt32 then
    return { retval with correlationData := ← prop.value.asBinary }
  else if prop.identifier = Ids.subscriptionIdentifier.toUInt32 then
    return { retval with subscriptionIdentifier := ← prop.value.asIntegral }
  else if prop.identifier = Ids.messageExpiryInterval.toUInt32 then
    -- read with `value_as<std::uint16_t>`
    return { retval with messageExpiryInterval := (← prop.value.asIntegral).toUInt16.toUInt32 }
  else if prop.identifier = Ids.topicAlias.toUInt32 then
    return { retval with topicAlias := (← prop.value.asIntegral).toUInt16 }
  else if prop.identifier = Ids.payloadFormatIndicator.toUInt32 then
    return { retval with payloadFormatIndicator := (← prop.value.asIntegral).toUInt8 }
  else
    return { retval with
      toPropertiesBase := ← retval.toPropertiesBase.handleProperty prop }

/-- The additions of `publish::properties_t::serialize` before those of its base. The
user properties are among them, and the base adds them again. -/
def adds (p : PublishProperties) : List MaybeAdd :=
  ⟨p.responseTopic != [], Ids.responseTopic, .string p.responseTopic⟩ ::
  ⟨p.contentType != [], Ids.contentType, .string p.contentType⟩ ::
  ⟨p.correlationData != [], Ids.correlationData, .binary p.correlationData⟩ ::
  (addUserProperties p.userProperty ++
  [⟨p.subscriptionIdentifier != 0, Ids.subscriptionIdentifier,
      .integral p.subscriptionIdentifier⟩,
    ⟨p.messageExpiryInterval != 0, Ids.messageExpiryInterval, .integral p.messageExpiryInterval⟩,
    ⟨p.topicAlias != 0, Ids.topicAlias, .integral p.topicAlias.toUInt32⟩,
    ⟨p.payloadFormatIndicator != 0, Ids.payloadFormatIndicator,
      .integral p.payloadFormatIndicator.toUInt32⟩])

def deserialize : Reader PublishProperties := readHandled {} handle

def serialize (p : PublishProperties) : Writer :=
  writeBuilt (do
    let props ← addPresent p.adds []
    p.toPropertiesBase.addBaseProperties props)

/-- What the reader makes of the fields: the expiry interval keeps its low 16 bits. -/
def received (p : PublishProperties) : PublishProperties :=
  { p with
    unknownProperties := []
    subscriptionIdentifier := 0
    messageExpiryInterval := p.messageExpiryInterval.toUInt16.toUInt32 }

/-- The table gives the subscription identifier the type of binary data. -/
theorem subscriptionIdentifier_eq {p : PublishProperties}
    (h : ∀ a ∈ p.adds, a.present → a.Fits) : p.subscriptionIdentifier = 0 := by
  by_contra hne
  have hfit := h ⟨p.subscriptionIdentifier != 0, Ids.subscriptionIdentifier,
    .integral p.subscriptionIdentifier⟩ (by simp [adds]) (by simpa using hne)
  cases hfit

theorem handled (p : PublishProperties) (h : ∀ a ∈ p.adds, a.present → a.Fits) :
    p.adds.foldlM (handlePresent PublishProperties.handle) {} = .ok p.received := by
  apply foldlM_field (fun _ => rfl) (fun h => by rw [bne_eq_false_iff_eq.mp h])
  apply foldlM_field (fun _ => rfl) (fun h => by rw [bne_eq_false_iff_eq.mp h])
  apply foldlM_field (fun _ => rfl) (fun h => by rw [bne_eq_false_iff_eq.mp h])
  refine foldlM_users (fun s us => { s with userProperty := s.userProperty ++ us })
    (fun _ _ => rfl) (fun _ => by simp) (fun _ _ _ => by simp) ?_
  apply foldlM_absent (by simp [subscriptionIdentifier_eq h])
  apply foldlM_field (fun _ => rfl) (fun h => by simp [bne_eq_false_iff_eq.mp h])
  apply foldlM_field (fun _ => rfl) (fun h => by simp [bne_eq_false_iff_eq.mp h])
  apply foldlM_field (fun _ => rfl) (fun h => by simp [bne_eq_false_iff_eq.mp h])
  simp [received]
  rfl

def asSection : PropertySection PublishProperties where
  dflt := {}
  handle := handle
  adds := adds
  base := toPropertiesBase
  withBase p b := { p with toPropertiesBase := b }
  received := received
  ids := [Ids.responseTopic, Ids.contentType, Ids.correlationData, Ids.subscriptionIdentifier,
    Ids.messageExpiryInterval, Ids.topicAlias, Ids.payloadFormatIndicator]
  ids_nodup := by decide
  base_withBase _ _ := rfl
  withBase_withBase _ _ _ := rfl
  withBase_base _ := rfl
  adds_ids p := by
    have huser : ((addUserProperties p.userProperty).map (·.id)).filter (· ≠ 38) = [] := by
      simp [addUserProperties, Ids.userProperty]
    simp only [adds, List.map_cons, List.map_append, List.filter_cons, List.filter_append, huser]
    rfl
  handled := handled
  passes p prop h := by
    simp only [List.mem_cons, List.not_mem_nil, or_false, forall_eq_or_imp, forall_eq] at h
    simp only [handle, h, ↓reduceIte]
    rfl

end PublishProperties

structure Publish where
  headerFlags : UInt8 := 0
  topic : Bytes := []
  packetIdentifier : UInt16 := 0
  properties : PublishProperties := {}
  payload : Bytes := []
  deriving DecidableEq, Repr

namespace Publish

def typeValue : UInt8 := 3

def setDuplicate (p : Publish) (dup : Bool) : Publish :=
  let bit : UInt8 := if dup then 1 else 0
  { p with headerFlags := (p.headerFlags &&& (0x07 : UInt8)) + (bit <<< 3) }

def qualityOfService (p : Publish) : QualityOfService := (p.headerFlags >>> 1) &&& 0x03

def setQualityOfService (p : Publish) (qos : QualityOfService) : Publish :=
  let p := if qos = qos0 then p.setDuplicate false else p
  { p with headerFlags := (p.headerFlags &&& (0x09 : UInt8)) + (qos <<< 1) }

def setRetain (p : Publish) (retain : Bool) : Publish :=
  { p with headerFlags := (p.headerFlags &&& 14) + (if retain then 1 else 0) }

/-- The packet identifier is read when the header flags ask for one. -/
def deserialize (hdr : Header) : Reader Publish := onSpan hdr.remainingLength.toNat do
  let headerFlags := hdr.flags
  let topic ← readString
  let packetIdentifier ←
    if ({ headerFlags } : Publish).qualityOfService ≠ qos0 then fixedInt16 else pure 0
  let properties ← PublishProperties.deserialize
  let payload ← cspan
  return { headerFlags, topic, packetIdentifier, properties, payload }

/-- The packet identifier is written when it is not zero. -/
def serializeBody (p : Publish) : Writer :=
  writeString p.topic ++
  (if p.packetIdentifier ≠ 0 then writeInt16 p.packetIdentifier else .emit []) ++
  p.properties.serialize ++ .emit p.payload

def serialize (p : Publish) : Writer := writePacket typeValue p.headerFlags p.serializeBody

/-- The fields fit the wire, and the identifier is there when the quality of service asks
for one. -/
structure WellFormed (p : Publish) : Prop where
  topic : Sized p.topic
  identifier : p.packetIdentifier ≠ 0 ↔ p.qualityOfService ≠ qos0
  properties : PublishProperties.asSection.WellFormed p.properties

/-- The packet a reader makes of an encoded one. -/
def received (p : Publish) : Publish :=
  { p with
    headerFlags := p.headerFlags &&& 0x0F
    properties := PublishProperties.asSection.decoded p.properties }

/-- The header keeps the bits that hold the quality of service. -/
theorem qualityOfService_received (p : Publish) :
    ({ headerFlags := p.headerFlags &&& 0x0F } : Publish).qualityOfService = p.qualityOfService := by
  have hlow : ∀ b : UInt8, (b &&& 0x03).toNat = b.toNat % 4 := by
    intro b
    rw [UInt8.toNat_and]
    exact Nat.and_two_pow_sub_one_eq_mod b.toNat 2
  have hshift : ∀ b : UInt8, (b >>> 1).toNat = b.toNat / 2 := by
    intro b
    rw [UInt8.toNat_shiftRight, Nat.shiftRight_eq_div_pow]
    rfl
  rw [qualityOfService, qualityOfService, ← UInt8.toNat_inj, hlow, hlow, hshift, hshift, low_toNat]
  omega

theorem reads {p : Publish} (h : p.WellFormed) {hdr : Header} {zs : Bytes}
    (hflags : hdr.flags = p.headerFlags &&& 0x0F) (hsize : hdr.remainingLength.toNat = zs.length)
    (hlen : zs.length < 2 ^ 32) (hw : p.serializeBody = .emit zs) :
    (deserialize hdr).run zs = .ok (p.received, zs) := by
  rw [serializeBody, Written.append_assoc, Written.append_assoc] at hw
  refine readsAll_onSpan ((reads_string h.topic).bindAll ?_) hw hsize hlen
  simp only [hflags, qualityOfService_received]
  have htail : ∀ packetIdentifier, ReadsAll (do
      let properties ← PublishProperties.deserialize
      let payload ← cspan
      return ⟨p.headerFlags &&& 0x0F, p.topic, packetIdentifier, properties, payload⟩)
      (p.properties.serialize ++ .emit p.payload)
      { p.received with packetIdentifier := packetIdentifier } := fun _ =>
    (reads_section h.properties).bindAll ((readsAll_cspan p.payload).last _)
  by_cases hid : p.packetIdentifier = 0
  · rw [if_neg (fun hq => h.identifier.mpr hq hid), if_neg (not_not.mpr hid), ← hid]
    exact (Reads.pure _).bindAll (htail _)
  · rw [if_pos (h.identifier.mp hid), if_pos hid]
    exact (reads_int16 _).bindAll (htail _)

end Publish

/-! ## `detail::puback_base` -/

/-- The `properties_t` of `puback_base`, `suback` and `unsuback`. -/
structure ReasonProperties extends PropertiesBase where
  reasonString : Bytes := []
  deriving DecidableEq, Repr

namespace ReasonProperties

def handle (retval : ReasonProperties) (p : Property) : Except Fault ReasonProperties := do
  if p.identifier = Ids.reasonString.toUInt32 then
    return { retval with reasonString := ← p.value.asString }
  else
    return { retval with toPropertiesBase := ← retval.toPropertiesBase.handleProperty p }

def adds (p : ReasonProperties) : List MaybeAdd :=
  [⟨p.reasonString != [], Ids.reasonString, .string p.reasonString⟩]

def deserialize : Reader ReasonProperties := readHandled {} handle

def serialize (p : ReasonProperties) : Writer :=
  writeBuilt (do
    let props ← addPresent p.adds []
    p.toPropertiesBase.addBaseProperties props)

theorem handled (p : ReasonProperties) :
    p.adds.foldlM (handlePresent handle) {} = .ok { reasonString := p.reasonString } :=
  foldlM_field (fun _ => rfl) (fun h => by rw [bne_eq_false_iff_eq.mp h]) rfl

def asSection : PropertySection ReasonProperties where
  dflt := {}
  handle := handle
  adds := adds
  base := toPropertiesBase
  withBase p b := { p with toPropertiesBase := b }
  received p := { reasonString := p.reasonString }
  ids := [Ids.reasonString]
  ids_nodup := by decide
  base_withBase _ _ := rfl
  withBase_withBase _ _ _ := rfl
  withBase_base _ := rfl
  adds_ids _ := rfl
  handled p _ := p.handled
  passes p prop h := by
    rw [handle, if_neg (h _ (by simp))]
    rfl

end ReasonProperties

/-- `detail::puback_base`; a reason code of any of its enums is one byte, and success is 0. -/
structure Ack where
  packetIdentifier : UInt16
  reasonCode : UInt8 := 0
  properties : ReasonProperties := {}
  deriving DecidableEq, Repr

namespace Ack

/-- `puback_base::deserialize(remaining_length, data)` -/
def deserialize (remainingLength : UInt32) : Reader Ack := do
  let packetIdentifier ← fixedInt16
  let reasonCode ← if remainingLength > 2 then fixedInt8 else pure 0
  let properties ← if remainingLength ≥ 4 then ReasonProperties.deserialize else pure {}
  return { packetIdentifier, reasonCode, properties }

/-- Unknown properties alone do not make the long form. -/
def serializeBody (p : Ack) : Writer :=
  let serializeProperties := p.properties.userProperty != [] || p.properties.reasonString != []
  writeInt16 p.packetIdentifier ++
  (if p.reasonCode != 0 || serializeProperties then
    writeInt8 p.reasonCode ++ p.properties.serialize
  else .emit [])

/-- The short form stands for a success without properties, and loses the unknown ones. -/
def received (p : Ack) : Ack :=
  if p.reasonCode = 0 ∧ p.properties.userProperty = [] ∧ p.properties.reasonString = [] then
    { packetIdentifier := p.packetIdentifier }
  else { p with properties := ReasonProperties.asSection.decoded p.properties }

theorem reads {p : Ack} (h : ReasonProperties.asSection.WellFormed p.properties)
    {remainingLength : UInt32} {zs : Bytes} (hsize : remainingLength.toNat = zs.length)
    (hlen : zs.length < 2 ^ 32) (hw : p.serializeBody = .emit zs) :
    ∃ rest, (deserialize remainingLength).run zs = .ok (p.received, rest) := by
  have hgt : remainingLength > 2 ↔ 2 < zs.length := by
    rw [gt_iff_lt, UInt32.lt_iff_toNat_lt, hsize]
    rfl
  have hge : remainingLength ≥ 4 ↔ 4 ≤ zs.length := by
    rw [ge_iff_le, UInt32.le_iff_toNat_le, hsize]
    rfl
  have hid : ∀ {xs}, writeInt16 p.packetIdentifier = .emit xs → xs.length = 2 := by
    rintro xs ⟨⟩
    simp
  rw [serializeBody] at hw
  rw [received]
  by_cases hs : p.reasonCode = 0 ∧ p.properties.userProperty = [] ∧ p.properties.reasonString = []
  · rw [if_neg (by simp [hs])] at hw
    have hshort : zs.length = 2 := by
      obtain ⟨xs, ys, hx, hy, rfl⟩ := Written.append_eq_emit.mp hw
      cases hy
      simpa using hid hx
    have h2 : ¬ remainingLength > 2 := by rw [hgt]; omega
    have h4 : ¬ remainingLength ≥ 4 := by rw [hge]; omega
    simp only [deserialize, h2, h4, hs, and_self, ↓reduceIte, pure_bind]
    refine (?_ : ReadsAll _ _ _) hw hlen
    exact (reads_int16 _).bindAll (Reads.pure (⟨p.packetIdentifier, 0, {}⟩ : Ack)).all
  · rw [if_pos (by simpa [or_iff_not_imp_left] using hs)] at hw
    have hlong : 4 ≤ zs.length := by
      obtain ⟨xs, ys, hx, hy, rfl⟩ := Written.append_eq_emit.mp hw
      obtain ⟨us, vs, hu, hv, rfl⟩ := Written.append_eq_emit.mp hy
      have hvs := List.length_pos_iff.mpr
        (PropertySection.serialize_ne_nil (S := ReasonProperties.asSection) hv)
      rw [writeInt8_eq] at hu
      cases hu
      simp only [List.length_append, List.length_singleton, hid hx]
      omega
    have h2 : remainingLength > 2 := by rw [hgt]; omega
    have h4 : remainingLength ≥ 4 := by rw [hge]; omega
    simp only [deserialize, h2, h4, hs, ↓reduceIte]
    exact ((reads_int16 _).bindAll ((reads_int8 _).bindAll ((reads_section h).all.last _))) hw hlen

/-- `puback_base<CodeT, TypeValue, Flags>::serialize` -/
def serialize (typeValue flags : UInt8) (p : Ack) : Writer :=
  writePacket typeValue flags p.serializeBody

theorem reasonProperties_empty : ({} : ReasonProperties).serialize = .emit [0] := by decide

/-- An acknowledgement without properties is always written. -/
theorem serialize_emits (typeValue flags : UInt8) (packetIdentifier : UInt16)
    (reasonCode : UInt8) :
    ∃ frame, Ack.serialize typeValue flags { packetIdentifier, reasonCode } = .emit frame := by
  have hbody : ∃ zs : Bytes, zs.length ≤ 4 ∧
      Ack.serializeBody { packetIdentifier, reasonCode } = .emit zs := by
    rw [Ack.serializeBody, reasonProperties_empty, writeInt8_eq, writeInt16]
    split
    · exact ⟨_, by simp [fixedIntBytes], rfl⟩
    · exact ⟨_, by simp [fixedIntBytes], rfl⟩
  obtain ⟨zs, hlen, hzs⟩ := hbody
  rw [Ack.serialize, hzs]
  exact writePacket_emits _ _ (by omega)

end Ack

namespace Puback
def typeValue : UInt8 := 4
def serialize (p : Ack) : Writer := p.serialize typeValue 0
end Puback

namespace Pubrec
def typeValue : UInt8 := 5
def serialize (p : Ack) : Writer := p.serialize typeValue 0
end Pubrec

namespace Pubrel
def typeValue : UInt8 := 6
def serialize (p : Ack) : Writer := p.serialize typeValue 2
end Pubrel

namespace Pubcomp
def typeValue : UInt8 := 7
def serialize (p : Ack) : Writer := p.serialize typeValue 0
end Pubcomp

end Mqtt5.WirePublish
