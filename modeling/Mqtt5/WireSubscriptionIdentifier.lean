import Mqtt5.WireSubscribe

/-!
# Subscription identifiers

The table of wire types makes a subscription identifier binary data. A SUBSCRIBE that has
one is not written, and a PUBLISH that has one is not read.
-/
namespace Mqtt5.WireSubscriptionIdentifier
open ByteParser ByteWriter WirePrimitives WireProperties WireHeader WirePublish WireSubscribe

/-! ## Writing a SUBSCRIBE -/

def mismatchedSet : Fault := .runtimeError "Mismatched attempt to set property types"

theorem subscribe_throws {p : Subscribe} (h : p.properties.subscriptionIdentifier ≠ 0) :
    p.serialize.result = .error mismatchedSet := by
  have hpresent : (p.properties.subscriptionIdentifier != 0) = true := by simpa using h
  have hproperties : p.properties.serialize = .throw mismatchedSet := by
    rw [SubscribeProperties.serialize, SubscribeProperties.adds, addPresent, List.foldlM_cons,
      hpresent]
    rfl
  rw [Subscribe.serialize, Subscribe.serializeBody, hproperties]
  rfl

/-! ## Reading a PUBLISH -/

/-- A property block with the property of identifier 11 and value `v` behind the properties
`before`, whatever follows it. -/
structure IdentifiedBlock (v : UInt32) where
  before : List Property
  beforeEnc : Bytes
  before_star : Star PropertyWord beforeEnc before
  valueEnc : Bytes
  value_word : Base128.Word valueEnc v.toNat
  after : Bytes
  lengthEnc : Bytes
  length_word : Base128.Word lengthEnc (beforeEnc ++ 11 :: (valueEnc ++ after)).length
  length_le : lengthEnc.length ≤ 4

def IdentifiedBlock.bytes {v : UInt32} (block : IdentifiedBlock v) : Bytes :=
  block.lengthEnc ++ (block.beforeEnc ++ 11 :: (block.valueEnc ++ block.after))

/-- The body of a PUBLISH with such a block, behind header flags that say whether it has a
packet identifier. -/
structure IdentifiedBody (headerFlags : UInt8) (v : UInt32) where
  topic : Bytes
  topic_sized : Sized topic
  packetIdentifier : UInt16
  block : IdentifiedBlock v
  payload : Bytes

def IdentifiedBody.bytes {headerFlags : UInt8} {v : UInt32} (body : IdentifiedBody headerFlags v) :
    Bytes :=
  sizedBytes body.topic ++
    ((if ({ headerFlags } : Publish).qualityOfService ≠ qos0 then
        fixedIntBytes 2 body.packetIdentifier.toNat else []) ++
      (body.block.bytes ++ body.payload))

/-- A property that begins with the byte 11 has binary data. -/
theorem binary_of_identified {enc rest tail : Bytes} {prop : Property} (h : PropertyWord enc prop)
    (heq : enc ++ rest = 11 :: tail) : ∃ data, prop = ⟨11, .binary data⟩ := by
  obtain ⟨idEnc, valueEnc, rfl, ⟨hid, -⟩, hkind, -⟩ := h
  rw [List.append_assoc] at heq
  have heleven : Base128.Word [11] 11 := .last (by decide)
  obtain ⟨-, hidentifier, -⟩ := hid.append_inj heleven heq
  obtain ⟨identifier, value⟩ := prop
  obtain rfl : identifier = 11 := UInt32.toNat_inj.mp hidentifier
  cases value with
  | binary data => exact ⟨data, rfl⟩
  | _ => cases hkind

/-- Whatever is read from such a block has binary data under identifier 11. -/
theorem identified_property {v : UInt32} (block : IdentifiedBlock v) {rest left : Bytes}
    {props : List Property} (hr : readProperties.run (block.bytes ++ rest) = .ok (props, left)) :
    ∃ data, ⟨11, .binary data⟩ ∈ props := by
  obtain ⟨_, heq, lengthEnc, body, rfl, ⟨hlength, -⟩, hstar⟩ := (readProperties_parses _ _ _).mp hr
  rw [IdentifiedBlock.bytes, List.append_assoc, List.append_assoc lengthEnc] at heq
  obtain ⟨-, hsize, hbody⟩ := block.length_word.append_inj hlength heq
  obtain ⟨rfl, -⟩ := List.append_inj hbody hsize
  obtain ⟨others, rfl, htail⟩ :=
    block.before_star.split readProperty_parses propertyWord_ne_nil hstar
  generalize hxs : 11 :: (block.valueEnc ++ block.after) = xs at htail
  cases htail with
  | nil => cases hxs
  | @cons enc rest prop props head =>
    obtain ⟨data, rfl⟩ := binary_of_identified head hxs.symm
    exact ⟨data, by simp⟩

/-- The handler of a PUBLISH takes an integer from the property of identifier 11. -/
theorem handle_rejects (data : Bytes) (props : List Property) (h : ⟨11, .binary data⟩ ∈ props)
    (dflt result : PublishProperties) : props.foldlM PublishProperties.handle dflt ≠ .ok result := by
  induction props generalizing dflt with
  | nil => cases h
  | cons prop props ih =>
    rw [List.foldlM_cons]
    intro hfold
    obtain ⟨retval, hprop, hrest⟩ := bind_ok.mp hfold
    rcases List.mem_cons.mp h with rfl | h
    · cases hprop
    · exact ih h retval hrest

theorem deserialize_rejects {v : UInt32} (block : IdentifiedBlock v) (rest : Bytes)
    (result : PublishProperties × Bytes) :
    PublishProperties.deserialize.run (block.bytes ++ rest) ≠ .ok result := by
  intro hrun
  obtain ⟨props, left, hread, hhandle⟩ := run_bind_ok.mp hrun
  obtain ⟨data, hmem⟩ := identified_property block hread
  exact handle_rejects data props hmem {} _ (run_liftM_ok.mp hhandle).1

theorem publish_rejects {v : UInt32} {hdr : Header} (body : IdentifiedBody hdr.flags v)
    (hsize : hdr.remainingLength.toNat = body.bytes.length) (result : Publish × Bytes) :
    (Publish.deserialize hdr).run body.bytes ≠ .ok result := by
  intro hrun
  obtain ⟨span, rest, hspan, hrun⟩ := run_bind_ok.mp hrun
  rw [run_cspanN, hsize, if_neg (lt_irrefl _), List.take_length] at hspan
  cases hspan
  obtain ⟨p, rest, hbody, -⟩ := run_bind_ok.mp hrun
  replace hbody := (run_liftM_ok.mp hbody).1
  have htopic : Decodes readString (sizedBytes body.topic) body.topic :=
    readString_parses.decodes ⟨rfl, body.topic_sized⟩
  have htail : ∀ (f : PublishProperties → Reader Publish) result,
      (PublishProperties.deserialize >>= f).run (body.block.bytes ++ body.payload) ≠ .ok result := by
    intro f result hrun
    obtain ⟨properties, rest, hproperties, -⟩ := run_bind_ok.mp hrun
    exact deserialize_rejects body.block body.payload _ hproperties
  rw [IdentifiedBody.bytes, htopic.bind_run] at hbody
  by_cases hqos : ({ headerFlags := hdr.flags } : Publish).qualityOfService ≠ qos0
  · have hid : Decodes fixedInt16 (fixedIntBytes 2 body.packetIdentifier.toNat)
        body.packetIdentifier := fixedInt16_parses.decodes rfl
    simp only [if_pos hqos] at hbody
    rw [hid.bind_run] at hbody
    exact htail _ _ hbody
  · simp only [if_neg hqos] at hbody
    rw [(Decodes.pure (0 : UInt16)).bind_run] at hbody
    exact htail _ _ hbody

/-- No subscription identifier is carried: a SUBSCRIBE with one throws when it is written,
and a PUBLISH whose property block has one throws when it is read. -/
theorem subscriptionIdentifier_lost {v : UInt32} (hv : v ≠ 0) :
    (∀ p : Subscribe, p.properties.subscriptionIdentifier = v →
      p.serialize.result = .error mismatchedSet) ∧
    (∀ (hdr : Header) (body : IdentifiedBody hdr.flags v),
      hdr.remainingLength.toNat = body.bytes.length →
        ∀ result, (Publish.deserialize hdr).run body.bytes ≠ .ok result) := by
  constructor
  · intro p hp
    rw [← hp] at hv
    exact subscribe_throws hv
  · intro hdr body hsize result
    exact publish_rejects body hsize result

/-- A subscription to one topic with the identifier 1. -/
def identified : Subscribe :=
  { packetIdentifier := 1, properties := { subscriptionIdentifier := 1 }, topics := [⟨[116], 0⟩] }

/-- An empty message to the topic, of quality of service 0, with the identifier 1. -/
def identifiedBody : IdentifiedBody 0 1 where
  topic := [116]
  topic_sized := by decide
  packetIdentifier := 0
  block :=
    { before := []
      beforeEnc := []
      before_star := .nil
      valueEnc := [1]
      value_word := .last (b := 1) (by decide)
      after := []
      lengthEnc := [2]
      length_word := .last (b := 2) (by decide)
      length_le := by decide }
  payload := []

theorem subscriptionIdentifier_lost_one : identified.serialize.result = .error mismatchedSet ∧
    ∀ result, (Publish.deserialize ⟨0x30, 6⟩).run [0, 1, 116, 2, 11, 1] ≠ .ok result :=
  have hlost := subscriptionIdentifier_lost (v := 1) (by decide)
  ⟨hlost.1 identified rfl, hlost.2 ⟨0x30, 6⟩ identifiedBody (by decide)⟩

theorem identified_wellFormed : identified.WellFormed where
  properties := ⟨by decide, by decide, fun _ hp => absurd hp List.not_mem_nil,
    fun _ hp => absurd hp List.not_mem_nil⟩
  topics := by decide

/-- The subscription is not written, and the message to it is not read. -/
theorem identified_not_carried :
    (¬ ∀ p : Subscribe, p.WellFormed → 0 < p.properties.subscriptionIdentifier →
      p.properties.subscriptionIdentifier ≤ varlenMax → ∃ frame, p.serialize.result = .ok frame) ∧
    (Publish.deserialize ⟨0x30, 6⟩).run [0, 1, 116, 2, 11, 1] =
      .error (.runtimeError "Not enough data") := by
  constructor
  · intro hcarried
    obtain ⟨frame, hframe⟩ := hcarried identified identified_wellFormed (by decide) (by decide)
    cases hframe
  · rfl

end Mqtt5.WireSubscriptionIdentifier
