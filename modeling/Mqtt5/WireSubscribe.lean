import Mqtt5.WirePublish

/-!
# SUBSCRIBE, UNSUBSCRIBE and their acknowledgements
-/
namespace Mqtt5.WireSubscribe
open ByteParser ByteWriter WirePrimitives WireProperties WireReads WireHeader WirePublish

/-- `subscribe::properties_t` -/
structure SubscribeProperties extends PropertiesBase where
  subscriptionIdentifier : UInt32 := 0
  deriving DecidableEq, Repr

namespace SubscribeProperties

def handle (retval : SubscribeProperties) (prop : Property) : Except Fault SubscribeProperties := do
  if prop.identifier = Ids.subscriptionIdentifier.toUInt32 then
    return { retval with subscriptionIdentifier := ← prop.value.asIntegral }
  else
    return { retval with
      toPropertiesBase := ← retval.toPropertiesBase.handleProperty prop }

def adds (p : SubscribeProperties) : List MaybeAdd :=
  [⟨p.subscriptionIdentifier != 0, Ids.subscriptionIdentifier,
    .integral p.subscriptionIdentifier⟩]

def deserialize : Reader SubscribeProperties := readHandled {} handle

def serialize (p : SubscribeProperties) : Writer :=
  writeBuilt (do
    let props ← addPresent p.adds []
    p.toPropertiesBase.addBaseProperties props)

theorem subscriptionIdentifier_eq {p : SubscribeProperties}
    (h : ∀ a ∈ p.adds, a.present → a.Fits) : p.subscriptionIdentifier = 0 := by
  by_contra hne
  have hfit := h ⟨p.subscriptionIdentifier != 0, Ids.subscriptionIdentifier,
    .integral p.subscriptionIdentifier⟩ (by simp [adds]) (by simpa using hne)
  cases hfit

def asSection : PropertySection SubscribeProperties where
  dflt := {}
  handle := handle
  adds := adds
  base := toPropertiesBase
  withBase p b := { p with toPropertiesBase := b }
  received _ := {}
  ids := [Ids.subscriptionIdentifier]
  ids_nodup := by decide
  base_withBase _ _ := rfl
  withBase_withBase _ _ _ := rfl
  withBase_base _ := rfl
  adds_ids _ := rfl
  handled p h := foldlM_absent (by simp [subscriptionIdentifier_eq h]) rfl
  passes p prop h := by
    rw [handle, if_neg (h _ (by simp))]
    rfl

end SubscribeProperties

/-- `subscribe::topic_filter` -/
structure TopicFilter where
  topic : Bytes
  options : UInt8
  deriving DecidableEq, Repr

def readTopicFilter : Reader TopicFilter := do
  let topic ← readString
  let options ← fixedInt8
  return ⟨topic, options⟩

def writeTopicFilter (f : TopicFilter) : Writer := writeString f.topic ++ writeInt8 f.options

theorem reads_topicFilter {f : TopicFilter} (h : Sized f.topic) :
    Reads readTopicFilter (writeTopicFilter f) f :=
  (reads_string h).bind ((reads_int8 f.options).last _)

theorem readTopicFilter_parses : Parses readTopicFilter
    (fun enc f => enc = sizedBytes f.topic ++ [f.options] ∧ Sized f.topic) := by
  refine (readString_parses.bind fun topic => fixedInt8_parses.map (TopicFilter.mk topic)).congr
    fun _ f => ?_
  constructor
  · rintro ⟨_, topic, _, rfl, ⟨rfl, hs⟩, options, rfl, rfl⟩
    exact ⟨rfl, hs⟩
  · rintro ⟨rfl, hs⟩
    exact ⟨_, f.topic, _, rfl, ⟨rfl, hs⟩, f.options, rfl, rfl⟩

theorem readTopicFilter_progress : Progress readTopicFilter :=
  readTopicFilter_parses.progress fun _ _ h => by simp [h.1]

theorem readString_progress : Progress readString :=
  readString_parses.progress fun _ s h => h.1 ▸ sizedBytes_ne_nil s

structure Subscribe where
  packetIdentifier : UInt16 := 0
  properties : SubscribeProperties := {}
  topics : List TopicFilter := []
  deriving DecidableEq, Repr

namespace Subscribe

def typeValue : UInt8 := 8

def deserialize (hdr : Header) : Reader Subscribe := onSpan hdr.remainingLength.toNat do
  let packetIdentifier ← fixedInt16
  let properties ← SubscribeProperties.deserialize
  let topics ← untilEmpty .unfinished readTopicFilter
  return ⟨packetIdentifier, properties, topics⟩

def serializeBody (p : Subscribe) : Writer :=
  writeInt16 p.packetIdentifier ++ p.properties.serialize ++
  Written.forEach writeTopicFilter p.topics

def serialize (p : Subscribe) : Writer := writePacket typeValue 2 p.serializeBody

/-- The fields fit the wire. -/
structure WellFormed (p : Subscribe) : Prop where
  properties : SubscribeProperties.asSection.WellFormed p.properties
  topics : ∀ f ∈ p.topics, Sized f.topic

/-- The packet a reader makes of an encoded one. -/
def received (p : Subscribe) : Subscribe :=
  { p with properties := SubscribeProperties.asSection.decoded p.properties }

theorem reads {p : Subscribe} (h : p.WellFormed) {hdr : Header} {zs : Bytes}
    (hsize : hdr.remainingLength.toNat = zs.length) (hlen : zs.length < 2 ^ 32)
    (hw : p.serializeBody = .emit zs) : (deserialize hdr).run zs = .ok (p.received, zs) := by
  rw [serializeBody, Written.append_assoc] at hw
  refine readsAll_onSpan ((reads_int16 _).bindAll ((reads_section h.properties).bindAll ?_))
    hw hsize hlen
  exact (readsAll_untilEmpty readTopicFilter_progress fun f hf =>
    reads_topicFilter (h.topics f hf)).last _

end Subscribe

/-- The members of `suback` and of `unsuback`, whose codecs do the same. -/
structure ReasonCodes where
  packetIdentifier : UInt16
  properties : ReasonProperties := {}
  reasonCodes : List UInt8 := []
  deriving DecidableEq, Repr

namespace ReasonCodes

def deserialize (hdr : Header) : Reader ReasonCodes := onSpan hdr.remainingLength.toNat do
  let packetIdentifier ← fixedInt16
  let properties ← ReasonProperties.deserialize
  let reasonCodes ← cspan
  return ⟨packetIdentifier, properties, reasonCodes⟩

def serializeBody (p : ReasonCodes) : Writer :=
  writeInt16 p.packetIdentifier ++ p.properties.serialize ++ .emit p.reasonCodes

/-- The packet a reader makes of an encoded one. -/
def received (p : ReasonCodes) : ReasonCodes :=
  { p with properties := ReasonProperties.asSection.decoded p.properties }

theorem reads {p : ReasonCodes} (h : ReasonProperties.asSection.WellFormed p.properties)
    {hdr : Header} {zs : Bytes} (hsize : hdr.remainingLength.toNat = zs.length)
    (hlen : zs.length < 2 ^ 32) (hw : p.serializeBody = .emit zs) :
    (deserialize hdr).run zs = .ok (p.received, zs) := by
  rw [serializeBody, Written.append_assoc] at hw
  refine readsAll_onSpan ((reads_int16 _).bindAll ((reads_section h).bindAll ?_)) hw hsize hlen
  exact (readsAll_cspan p.reasonCodes).last _

end ReasonCodes

namespace Suback
def typeValue : UInt8 := 9
def serialize (p : ReasonCodes) : Writer := writePacket typeValue 0 p.serializeBody
end Suback

namespace Unsuback
def typeValue : UInt8 := 11
def serialize (p : ReasonCodes) : Writer := writePacket typeValue 0 p.serializeBody
end Unsuback

/-- `unsubscribe::properties_t` adds nothing to its base. -/
structure UnsubscribeProperties extends PropertiesBase
  deriving DecidableEq, Repr

namespace UnsubscribeProperties

def handle (retval : UnsubscribeProperties) (prop : Property) :
    Except Fault UnsubscribeProperties := do
  return { retval with toPropertiesBase := ← retval.toPropertiesBase.handleProperty prop }

def deserialize : Reader UnsubscribeProperties := readHandled {} handle

def serialize (p : UnsubscribeProperties) : Writer :=
  writeBuilt (p.toPropertiesBase.addBaseProperties [])

def asSection : PropertySection UnsubscribeProperties where
  dflt := {}
  handle := handle
  adds _ := []
  base := toPropertiesBase
  withBase p b := { p with toPropertiesBase := b }
  received _ := {}
  ids := []
  ids_nodup := by decide
  base_withBase _ _ := rfl
  withBase_withBase _ _ _ := rfl
  withBase_base _ := rfl
  adds_ids _ := rfl
  handled _ _ := rfl
  passes _ _ _ := rfl

end UnsubscribeProperties

structure Unsubscribe where
  packetIdentifier : UInt16
  properties : UnsubscribeProperties := {}
  topics : List Bytes := []
  deriving DecidableEq, Repr

namespace Unsubscribe

def typeValue : UInt8 := 10

def deserialize (hdr : Header) : Reader Unsubscribe := onSpan hdr.remainingLength.toNat do
  let packetIdentifier ← fixedInt16
  let properties ← UnsubscribeProperties.deserialize
  let topics ← untilEmpty .unfinished readString
  return ⟨packetIdentifier, properties, topics⟩

def serializeBody (p : Unsubscribe) : Writer :=
  writeInt16 p.packetIdentifier ++ p.properties.serialize ++ Written.forEach writeString p.topics

def serialize (p : Unsubscribe) : Writer := writePacket typeValue 2 p.serializeBody

/-- The fields fit the wire. -/
structure WellFormed (p : Unsubscribe) : Prop where
  properties : UnsubscribeProperties.asSection.WellFormed p.properties
  topics : ∀ t ∈ p.topics, Sized t

/-- The packet a reader makes of an encoded one. -/
def received (p : Unsubscribe) : Unsubscribe :=
  { p with properties := UnsubscribeProperties.asSection.decoded p.properties }

theorem reads {p : Unsubscribe} (h : p.WellFormed) {hdr : Header} {zs : Bytes}
    (hsize : hdr.remainingLength.toNat = zs.length) (hlen : zs.length < 2 ^ 32)
    (hw : p.serializeBody = .emit zs) : (deserialize hdr).run zs = .ok (p.received, zs) := by
  rw [serializeBody, Written.append_assoc] at hw
  refine readsAll_onSpan ((reads_int16 _).bindAll ((reads_section h.properties).bindAll ?_))
    hw hsize hlen
  exact (readsAll_untilEmpty readString_progress fun t ht => reads_string (h.topics t ht)).last _

end Unsubscribe
end Mqtt5.WireSubscribe
