import Mqtt5.WirePublish

/-!
# CONNECT and CONNACK

Both share `detail::connect_connack_properties_t`, whose additions come between a
packet's own and those of `properties_t_base`.
-/
namespace Mqtt5.WireConnect
open ByteParser ByteWriter WirePrimitives WireProperties WireReads WireHeader WirePublish

/-- `detail::connect_connack_properties_t` -/
structure ConnectConnackProperties extends PropertiesBase where
  authenticationMethod : Bytes := []
  authenticationData : Bytes := []
  sessionExpiryInterval : UInt32 := 0
  maximumPacketSize : UInt32 := 0xFFFFFFFF
  topicAliasMaximum : UInt16 := 0
  receiveMaximum : UInt16 := 0xFFFF
  deriving DecidableEq, Repr

namespace ConnectConnackProperties

/-- `handle_property` -/
def handle (retval : ConnectConnackProperties) (prop : Property) :
    Except Fault ConnectConnackProperties := do
  if prop.identifier = Ids.authenticationMethod.toUInt32 then
    return { retval with authenticationMethod := ← prop.value.asString }
  else if prop.identifier = Ids.authenticationData.toUInt32 then
    return { retval with authenticationData := ← prop.value.asBinary }
  else if prop.identifier = Ids.sessionExpiryInterval.toUInt32 then
    return { retval with sessionExpiryInterval := ← prop.value.asIntegral }
  else if prop.identifier = Ids.maximumPacketSize.toUInt32 then
    return { retval with maximumPacketSize := ← prop.value.asIntegral }
  else if prop.identifier = Ids.topicAliasMaximum.toUInt32 then
    return { retval with topicAliasMaximum := (← prop.value.asIntegral).toUInt16 }
  else if prop.identifier = Ids.receiveMaximum.toUInt32 then
    return { retval with receiveMaximum := (← prop.value.asIntegral).toUInt16 }
  else
    return { retval with
      toPropertiesBase := ← retval.toPropertiesBase.handleProperty prop }

/-- `add_base_properties`, before it calls the one of its base. -/
def adds (p : ConnectConnackProperties) : List MaybeAdd :=
  [⟨p.authenticationMethod != [], Ids.authenticationMethod, .string p.authenticationMethod⟩,
    -- the data follows the method, also when it is empty
    ⟨p.authenticationMethod != [], Ids.authenticationData, .binary p.authenticationData⟩,
    ⟨p.sessionExpiryInterval != 0, Ids.sessionExpiryInterval, .integral p.sessionExpiryInterval⟩,
    ⟨p.maximumPacketSize != 0xFFFFFFFF, Ids.maximumPacketSize, .integral p.maximumPacketSize⟩,
    ⟨p.topicAliasMaximum != 0, Ids.topicAliasMaximum, .integral p.topicAliasMaximum.toUInt32⟩,
    ⟨p.receiveMaximum != 0xFFFF, Ids.receiveMaximum, .integral p.receiveMaximum.toUInt32⟩]

/-- Authentication data without a method is not written. -/
def received (p : ConnectConnackProperties) : ConnectConnackProperties :=
  { p with
    userProperty := []
    unknownProperties := []
    authenticationData := if p.authenticationMethod = [] then [] else p.authenticationData }

def ids : List UInt8 :=
  [Ids.authenticationMethod, Ids.authenticationData, Ids.sessionExpiryInterval,
    Ids.maximumPacketSize, Ids.topicAliasMaximum, Ids.receiveMaximum]

theorem handled (p : ConnectConnackProperties) :
    p.adds.foldlM (handlePresent handle) {} = .ok p.received := by
  apply foldlM_field (fun _ => rfl) (fun h => by rw [bne_eq_false_iff_eq.mp h])
  refine foldlM_field
    (t := { p.received with
      sessionExpiryInterval := 0
      maximumPacketSize := 0xFFFFFFFF
      topicAliasMaximum := 0
      receiveMaximum := 0xFFFF })
    (fun h => ?_) (fun h => ?_) ?_
  · have hm : p.authenticationMethod ≠ [] := by simpa using h
    rw [received, if_neg hm]
    rfl
  · rw [received, if_pos (bne_eq_false_iff_eq.mp h)]
  apply foldlM_field (fun _ => rfl) (fun h => by rw [bne_eq_false_iff_eq.mp h])
  apply foldlM_field (fun _ => rfl) (fun h => by rw [bne_eq_false_iff_eq.mp h])
  apply foldlM_field (fun _ => rfl) (fun h => by simp [bne_eq_false_iff_eq.mp h])
  apply foldlM_field (fun _ => rfl) (fun h => by simp [bne_eq_false_iff_eq.mp h])
  simp [received]
  rfl

theorem passes (p : ConnectConnackProperties) (prop : Property)
    (h : ∀ id ∈ ids, prop.identifier ≠ id.toUInt32) :
    p.handle prop = (fun b => { p with toPropertiesBase := b }) <$>
      p.toPropertiesBase.handleProperty prop := by
  simp only [ids, List.mem_cons, List.not_mem_nil, or_false, forall_eq_or_imp, forall_eq] at h
  simp only [handle, h, ↓reduceIte]
  rfl

end ConnectConnackProperties

/-- `connect::properties_t` -/
structure ConnectProperties extends ConnectConnackProperties where
  requestResponseInformation : Bool := false
  requestProblemInformation : Bool := false
  deriving DecidableEq, Repr

def boolArgument (b : Bool) : Argument := .integral (if b then 1 else 0)

/-- `value_as<std::uint8_t>` converted to `bool` -/
def asBool (v : UInt32) : Bool := v.toUInt8 != 0

@[simp] theorem asBool_argument (b : Bool) :
    asBool (if b then 1 else 0 : UInt32).toUInt8.toUInt32 = b := by
  cases b <;> rfl

namespace ConnectProperties

def handle (retval : ConnectProperties) (prop : Property) : Except Fault ConnectProperties := do
  if prop.identifier = Ids.requestResponseInformation.toUInt32 then
    return { retval with requestResponseInformation := asBool (← prop.value.asIntegral) }
  else if prop.identifier = Ids.requestProblemInformation.toUInt32 then
    return { retval with requestProblemInformation := asBool (← prop.value.asIntegral) }
  else
    return { retval with
      toConnectConnackProperties := ← retval.toConnectConnackProperties.handle prop }

def adds (p : ConnectProperties) : List MaybeAdd :=
  ⟨p.requestResponseInformation != false, Ids.requestResponseInformation,
    boolArgument p.requestResponseInformation⟩ ::
  ⟨p.requestProblemInformation != false, Ids.requestProblemInformation,
    boolArgument p.requestProblemInformation⟩ ::
  p.toConnectConnackProperties.adds

def deserialize : Reader ConnectProperties := readHandled {} handle

def serialize (p : ConnectProperties) : Writer :=
  writeBuilt (do
    let props ← addPresent p.adds []
    p.toPropertiesBase.addBaseProperties props)

def received (p : ConnectProperties) : ConnectProperties :=
  { p with toConnectConnackProperties := p.toConnectConnackProperties.received }

/-- What the section leaves to the part that it shares with CONNACK. -/
theorem leaves (s : ConnectProperties) {prop : Property} {id : UInt8}
    (hid : id ∈ ConnectConnackProperties.ids) (he : prop.identifier = id.toUInt32) :
    s.handle prop = (fun b => { s with toConnectConnackProperties := b }) <$>
      s.toConnectConnackProperties.handle prop := by
  obtain ⟨identifier, value⟩ := prop
  change identifier = _ at he
  subst he
  simp only [ConnectConnackProperties.ids, List.mem_cons, List.not_mem_nil, or_false] at hid
  rcases hid with rfl | rfl | rfl | rfl | rfl | rfl
  all_goals rfl

theorem handled (p : ConnectProperties) :
    p.adds.foldlM (handlePresent handle) {} = .ok p.received := by
  apply foldlM_field (fun _ => rfl) (fun h => by simp [bne_eq_false_iff_eq.mp h, asBool])
  apply foldlM_field (fun _ => rfl) (fun h => by simp [bne_eq_false_iff_eq.mp h, asBool])
  rw [foldlM_part toConnectConnackProperties (fun s b => { s with toConnectConnackProperties := b })
    (fun _ _ => rfl) (fun _ _ _ => rfl) (fun _ => rfl)
    (fun a ha s => leaves s (List.mem_map_of_mem ha) (made_identifier a))]
  simp only [ConnectConnackProperties.handled, asBool_argument]
  rfl

def asSection : PropertySection ConnectProperties where
  dflt := {}
  handle := handle
  adds := adds
  base := fun p => p.toPropertiesBase
  withBase p b := { p with toPropertiesBase := b }
  received := received
  ids := Ids.requestResponseInformation :: Ids.requestProblemInformation ::
    ConnectConnackProperties.ids
  ids_nodup := by decide
  base_withBase _ _ := rfl
  withBase_withBase _ _ _ := rfl
  withBase_base _ := rfl
  adds_ids _ := rfl
  handled p _ := p.handled
  passes p prop h := by
    simp only [List.mem_cons, forall_eq_or_imp] at h
    obtain ⟨h₁, h₂, h₃⟩ := h
    rw [handle, if_neg h₁, if_neg h₂, ConnectConnackProperties.passes _ _ h₃]
    cases p.toPropertiesBase.handleProperty prop <;> rfl

end ConnectProperties

/-- `connect::will_properties_t` -/
structure WillProperties extends PropertiesBase where
  contentType : Bytes := []
  responseTopic : Bytes := []
  correlationData : Bytes := []
  delayInterval : UInt32 := 0
  messageExpiryInterval : UInt32 := 0
  payloadFormatIndicator : UInt8 := 0
  deriving DecidableEq, Repr

namespace WillProperties

def handle (retval : WillProperties) (prop : Property) : Except Fault WillProperties := do
  if prop.identifier = Ids.contentType.toUInt32 then
    return { retval with contentType := ← prop.value.asString }
  else if prop.identifier = Ids.responseTopic.toUInt32 then
    return { retval with responseTopic := ← prop.value.asString }
  else if prop.identifier = Ids.correlationData.toUInt32 then
    return { retval with correlationData := ← prop.value.asBinary }
  else if prop.identifier = Ids.willDelayInterval.toUInt32 then
    return { retval with delayInterval := ← prop.value.asIntegral }
  else if prop.identifier = Ids.messageExpiryInterval.toUInt32 then
    return { retval with messageExpiryInterval := ← prop.value.asIntegral }
  else if prop.identifier = Ids.payloadFormatIndicator.toUInt32 then
    return { retval with payloadFormatIndicator := (← prop.value.asIntegral).toUInt8 }
  else
    return { retval with
      toPropertiesBase := ← retval.toPropertiesBase.handleProperty prop }

def adds (p : WillProperties) : List MaybeAdd :=
  [⟨p.contentType != [], Ids.contentType, .string p.contentType⟩,
    ⟨p.correlationData != [], Ids.correlationData, .binary p.correlationData⟩,
    ⟨p.responseTopic != [], Ids.responseTopic, .string p.responseTopic⟩,
    ⟨p.payloadFormatIndicator != 0, Ids.payloadFormatIndicator,
      .integral p.payloadFormatIndicator.toUInt32⟩,
    ⟨p.delayInterval != 0, Ids.willDelayInterval, .integral p.delayInterval⟩,
    ⟨p.messageExpiryInterval != 0, Ids.messageExpiryInterval, .integral p.messageExpiryInterval⟩]

def deserialize : Reader WillProperties := readHandled {} handle

def serialize (p : WillProperties) : Writer :=
  writeBuilt (do
    let props ← addPresent p.adds []
    p.toPropertiesBase.addBaseProperties props)

def received (p : WillProperties) : WillProperties := { p with toPropertiesBase := {} }

theorem handled (p : WillProperties) :
    p.adds.foldlM (handlePresent handle) {} = .ok p.received := by
  apply foldlM_field (fun _ => rfl) (fun h => by rw [bne_eq_false_iff_eq.mp h])
  apply foldlM_field (fun _ => rfl) (fun h => by rw [bne_eq_false_iff_eq.mp h])
  apply foldlM_field (fun _ => rfl) (fun h => by rw [bne_eq_false_iff_eq.mp h])
  apply foldlM_field (fun _ => rfl) (fun h => by simp [bne_eq_false_iff_eq.mp h])
  apply foldlM_field (fun _ => rfl) (fun h => by rw [bne_eq_false_iff_eq.mp h])
  apply foldlM_field (fun _ => rfl) (fun h => by rw [bne_eq_false_iff_eq.mp h])
  simp [received]
  rfl

def asSection : PropertySection WillProperties where
  dflt := {}
  handle := handle
  adds := adds
  base := toPropertiesBase
  withBase p b := { p with toPropertiesBase := b }
  received := received
  ids := [Ids.contentType, Ids.correlationData, Ids.responseTopic, Ids.payloadFormatIndicator,
    Ids.willDelayInterval, Ids.messageExpiryInterval]
  ids_nodup := by decide
  base_withBase _ _ := rfl
  withBase_withBase _ _ _ := rfl
  withBase_base _ := rfl
  adds_ids _ := rfl
  handled p _ := p.handled
  passes p prop h := by
    simp only [List.mem_cons, List.not_mem_nil, or_false, forall_eq_or_imp, forall_eq] at h
    simp only [handle, h, ↓reduceIte]
    rfl

end WillProperties

structure Connect where
  version : UInt8 := 5
  flags : UInt8 := 0
  keepAlive : UInt16 := 240
  connectProperties : ConnectProperties := {}
  clientId : Bytes := []
  willProperties : WillProperties := {}
  willTopic : Bytes := []
  willPayload : Bytes := []
  username : Option Bytes := none
  password : Option Bytes := none
  deriving DecidableEq, Repr

namespace Connect

def typeValue : UInt8 := 1

def cleanStartFlag : UInt8 := 2
def willFlag : UInt8 := 4
def willRetainFlag : UInt8 := 0x20
def passwordFlag : UInt8 := 0x40
def usernameFlag : UInt8 := 0x80

def willQos1 : UInt8 := 0x08
def willQos2 : UInt8 := 0x10

/-- The text `"MQTT"` -/
def alwaysMqtt : Bytes := [77, 81, 84, 84]

def readProtocolName : Reader Unit := do
  let always ← readString
  if always ≠ alwaysMqtt then throw (.protocolError "Unexpected MQTT string value")

def readWill (flags : UInt8) : Reader (WillProperties × Bytes × Bytes) :=
  if flags &&& willFlag ≠ 0 then do
    let willProperties ← WillProperties.deserialize
    let willTopic ← readString
    let willPayload ← readBinary
    return (willProperties, willTopic, willPayload)
  else return ({}, [], [])

def readFlagged (flags flag : UInt8) (p : Reader Bytes) : Reader (Option Bytes) :=
  if flags &&& flag ≠ 0 then some <$> p else return none

/-- What follows the client identifier depends on the flags that were read. -/
def deserialize : Reader Connect := do
  readProtocolName
  let version ← fixedInt8
  let flags ← fixedInt8
  let keepAlive ← fixedInt16
  let connectProperties ← ConnectProperties.deserialize
  let clientId ← readString
  let (willProperties, willTopic, willPayload) ← readWill flags
  let username ← readFlagged flags usernameFlag readString
  let password ← readFlagged flags passwordFlag readBinary
  return ⟨version, flags, keepAlive, connectProperties, clientId, willProperties, willTopic,
    willPayload, username, password⟩

def writeWill (p : Connect) : Writer :=
  if p.flags &&& willFlag ≠ 0 then
    p.willProperties.serialize ++ writeString p.willTopic ++ writeBinary p.willPayload
  else .emit []

def writeOptional (w : Bytes → Writer) : Option Bytes → Writer
  | some data => w data
  | none => .emit []

/-- The will is written for its flag, the credentials when they are there. -/
def serializeBody (p : Connect) : Writer :=
  writeString alwaysMqtt ++
  writeInt8 p.version ++
  writeInt8 p.flags ++
  writeInt16 p.keepAlive ++
  p.connectProperties.serialize ++
  writeString p.clientId ++
  p.writeWill ++
  writeOptional writeString p.username ++
  writeOptional writeBinary p.password

def serialize (p : Connect) : Writer := writePacket typeValue 0 p.serializeBody

/-- The fields fit the wire, and the flags tell which of the optional ones are there. -/
structure WellFormed (p : Connect) : Prop where
  clientId : Sized p.clientId
  properties : ConnectProperties.asSection.WellFormed p.connectProperties
  will : p.flags &&& willFlag ≠ 0 → WillProperties.asSection.WellFormed p.willProperties ∧
    Sized p.willTopic ∧ Sized p.willPayload
  usernameFlag : p.flags &&& usernameFlag ≠ 0 ↔ p.username ≠ none
  passwordFlag : p.flags &&& passwordFlag ≠ 0 ↔ p.password ≠ none
  username : ∀ username ∈ p.username, Sized username
  password : ∀ password ∈ p.password, Sized password

/-- A will without its flag is not written. -/
def receivedWill (p : Connect) : WillProperties × Bytes × Bytes :=
  if p.flags &&& willFlag ≠ 0 then
    (WillProperties.asSection.decoded p.willProperties, p.willTopic, p.willPayload)
  else ({}, [], [])

/-- The packet a reader makes of an encoded one. -/
def received (p : Connect) : Connect :=
  { p with
    connectProperties := ConnectProperties.asSection.decoded p.connectProperties
    willProperties := p.receivedWill.1
    willTopic := p.receivedWill.2.1
    willPayload := p.receivedWill.2.2 }

theorem reads_protocolName : Reads readProtocolName (writeString alwaysMqtt) () := by
  have h := reads_string (s := alwaysMqtt) (by decide)
  intro zs hw hlen rest
  rw [readProtocolName, (h hw hlen).bind_run]
  rfl

theorem reads_flagged {flags flag : UInt8} {p : Reader Bytes} {w : Bytes → Writer}
    {o : Option Bytes} (hf : flags &&& flag ≠ 0 ↔ o ≠ none) (h : ∀ s ∈ o, Reads p (w s) s) :
    Reads (readFlagged flags flag p) (writeOptional w o) o := by
  cases o with
  | none => rw [readFlagged, if_neg (fun h => hf.mp h rfl)]; exact .pure none
  | some s => rw [readFlagged, if_pos (hf.mpr (by simp))]; exact (h s rfl).map some

theorem reads_will {p : Connect} (h : p.flags &&& willFlag ≠ 0 →
    WillProperties.asSection.WellFormed p.willProperties ∧ Sized p.willTopic ∧
      Sized p.willPayload) : Reads (readWill p.flags) p.writeWill p.receivedWill := by
  rw [readWill, writeWill, receivedWill]
  by_cases hw : p.flags &&& willFlag ≠ 0
  · obtain ⟨hp, ht, hl⟩ := h hw
    rw [if_pos hw, if_pos hw, if_pos hw, Written.append_assoc]
    exact (reads_section hp).bind ((reads_string ht).bind ((reads_binary hl).last _))
  · rw [if_neg hw, if_neg hw, if_neg hw]
    exact .pure _

/-- CONNECT is read to its last byte, whatever follows it. -/
theorem decodes {p : Connect} (h : p.WellFormed) :
    Reads deserialize p.serializeBody p.received := by
  have husername := reads_flagged h.usernameFlag fun _ hs => reads_string (h.username _ hs)
  have hpassword := reads_flagged h.passwordFlag fun _ hs => reads_binary (h.password _ hs)
  rw [serializeBody]
  simp only [Written.append_assoc]
  apply reads_protocolName.bind
  apply (reads_int8 p.version).bind
  apply (reads_int8 p.flags).bind
  apply (reads_int16 p.keepAlive).bind
  apply (reads_section h.properties).bind
  apply (reads_string h.clientId).bind
  apply (reads_will h.will).bind
  exact husername.bind (hpassword.last _)

theorem reads {p : Connect} (h : p.WellFormed) : ReadsAll deserialize p.serializeBody p.received :=
  (decodes h).all

end Connect

/-- `connack::properties_t` -/
structure ConnackProperties extends ConnectConnackProperties where
  assignedClientId : Bytes := []
  reasonString : Bytes := []
  responseInformation : Bytes := []
  serverReference : Bytes := []
  serverKeepAlive : UInt16 := 0
  maximumQos : QualityOfService := qos2
  retainAvailable : Bool := true
  wildcardSubscriptionsAvailable : Bool := true
  subscriptionIdentifiersAvailable : Bool := true
  sharedSubscriptionAvailable : Bool := true
  deriving DecidableEq, Repr

namespace ConnackProperties

def handle (retval : ConnackProperties) (prop : Property) : Except Fault ConnackProperties := do
  if prop.identifier = Ids.maximumQos.toUInt32 then
    return { retval with maximumQos := (← prop.value.asIntegral).toUInt8 }
  else if prop.identifier = Ids.retainAvailable.toUInt32 then
    return { retval with retainAvailable := asBool (← prop.value.asIntegral) }
  else if prop.identifier = Ids.assignedClientId.toUInt32 then
    return { retval with assignedClientId := ← prop.value.asString }
  else if prop.identifier = Ids.reasonString.toUInt32 then
    return { retval with reasonString := ← prop.value.asString }
  else if prop.identifier = Ids.wildcardSubscriptionsAvailable.toUInt32 then
    return { retval with wildcardSubscriptionsAvailable := asBool (← prop.value.asIntegral) }
  else if prop.identifier = Ids.subscriptionIdentifiersAvailable.toUInt32 then
    return { retval with subscriptionIdentifiersAvailable := asBool (← prop.value.asIntegral) }
  else if prop.identifier = Ids.sharedSubscriptionAvailable.toUInt32 then
    return { retval with sharedSubscriptionAvailable := asBool (← prop.value.asIntegral) }
  else if prop.identifier = Ids.serverKeepAlive.toUInt32 then
    return { retval with serverKeepAlive := (← prop.value.asIntegral).toUInt16 }
  else if prop.identifier = Ids.responseInformation.toUInt32 then
    return { retval with responseInformation := ← prop.value.asString }
  else if prop.identifier = Ids.serverReference.toUInt32 then
    return { retval with serverReference := ← prop.value.asString }
  else
    return { retval with
      toConnectConnackProperties := ← retval.toConnectConnackProperties.handle prop }

def adds (p : ConnackProperties) : List MaybeAdd :=
  ⟨p.retainAvailable != true, Ids.retainAvailable, boolArgument p.retainAvailable⟩ ::
  ⟨p.maximumQos != qos2, Ids.maximumQos, .integral p.maximumQos.toUInt32⟩ ::
  ⟨p.assignedClientId != [], Ids.assignedClientId, .string p.assignedClientId⟩ ::
  ⟨p.reasonString != [], Ids.reasonString, .string p.reasonString⟩ ::
  ⟨p.wildcardSubscriptionsAvailable != true, Ids.wildcardSubscriptionsAvailable,
    boolArgument p.wildcardSubscriptionsAvailable⟩ ::
  ⟨p.subscriptionIdentifiersAvailable != true, Ids.subscriptionIdentifiersAvailable,
    boolArgument p.subscriptionIdentifiersAvailable⟩ ::
  ⟨p.sharedSubscriptionAvailable != true, Ids.sharedSubscriptionAvailable,
    boolArgument p.sharedSubscriptionAvailable⟩ ::
  ⟨p.serverKeepAlive != 0, Ids.serverKeepAlive, .integral p.serverKeepAlive.toUInt32⟩ ::
  ⟨p.responseInformation != [], Ids.responseInformation, .string p.responseInformation⟩ ::
  ⟨p.serverReference != [], Ids.serverReference, .string p.serverReference⟩ ::
  p.toConnectConnackProperties.adds

def deserialize : Reader ConnackProperties := readHandled {} handle

def serialize (p : ConnackProperties) : Writer :=
  writeBuilt (do
    let props ← addPresent p.adds []
    p.toPropertiesBase.addBaseProperties props)

def received (p : ConnackProperties) : ConnackProperties :=
  { p with toConnectConnackProperties := p.toConnectConnackProperties.received }

/-- What the section leaves to the part that it shares with CONNECT. -/
theorem leaves (s : ConnackProperties) {prop : Property} {id : UInt8}
    (hid : id ∈ ConnectConnackProperties.ids) (he : prop.identifier = id.toUInt32) :
    s.handle prop = (fun b => { s with toConnectConnackProperties := b }) <$>
      s.toConnectConnackProperties.handle prop := by
  obtain ⟨identifier, value⟩ := prop
  change identifier = _ at he
  subst he
  simp only [ConnectConnackProperties.ids, List.mem_cons, List.not_mem_nil, or_false] at hid
  rcases hid with rfl | rfl | rfl | rfl | rfl | rfl
  all_goals rfl

theorem handled (p : ConnackProperties) :
    p.adds.foldlM (handlePresent handle) {} = .ok p.received := by
  apply foldlM_field (fun _ => rfl) (fun h => by simp [bne_eq_false_iff_eq.mp h, asBool])
  apply foldlM_field (fun _ => rfl) (fun h => by simp [bne_eq_false_iff_eq.mp h])
  apply foldlM_field (fun _ => rfl) (fun h => by simp [bne_eq_false_iff_eq.mp h])
  apply foldlM_field (fun _ => rfl) (fun h => by simp [bne_eq_false_iff_eq.mp h])
  apply foldlM_field (fun _ => rfl) (fun h => by simp [bne_eq_false_iff_eq.mp h, asBool])
  apply foldlM_field (fun _ => rfl) (fun h => by simp [bne_eq_false_iff_eq.mp h, asBool])
  apply foldlM_field (fun _ => rfl) (fun h => by simp [bne_eq_false_iff_eq.mp h, asBool])
  apply foldlM_field (fun _ => rfl) (fun h => by simp [bne_eq_false_iff_eq.mp h])
  apply foldlM_field (fun _ => rfl) (fun h => by simp [bne_eq_false_iff_eq.mp h])
  apply foldlM_field (fun _ => rfl) (fun h => by simp [bne_eq_false_iff_eq.mp h])
  rw [foldlM_part toConnectConnackProperties (fun s b => { s with toConnectConnackProperties := b })
    (fun _ _ => rfl) (fun _ _ _ => rfl) (fun _ => rfl)
    (fun a ha s => leaves s (List.mem_map_of_mem ha) (made_identifier a))]
  simp only [ConnectConnackProperties.handled, asBool_argument, UInt8.toUInt8_toUInt32,
    UInt16.toUInt16_toUInt32]
  rfl

def asSection : PropertySection ConnackProperties where
  dflt := {}
  handle := handle
  adds := adds
  base := fun p => p.toPropertiesBase
  withBase p b := { p with toPropertiesBase := b }
  received := received
  ids := Ids.retainAvailable :: Ids.maximumQos :: Ids.assignedClientId :: Ids.reasonString ::
    Ids.wildcardSubscriptionsAvailable :: Ids.subscriptionIdentifiersAvailable ::
    Ids.sharedSubscriptionAvailable :: Ids.serverKeepAlive :: Ids.responseInformation ::
    Ids.serverReference :: ConnectConnackProperties.ids
  ids_nodup := by decide
  base_withBase _ _ := rfl
  withBase_withBase _ _ _ := rfl
  withBase_base _ := rfl
  adds_ids _ := rfl
  handled p _ := p.handled
  passes p prop h := by
    simp only [List.mem_cons, forall_eq_or_imp] at h
    obtain ⟨h₁, h₂, h₃, h₄, h₅, h₆, h₇, h₈, h₉, h₁₀, hbase⟩ := h
    simp only [handle, h₁, h₂, h₃, h₄, h₅, h₆, h₇, h₈, h₉, h₁₀, ↓reduceIte,
      ConnectConnackProperties.passes _ _ hbase]
    cases p.toPropertiesBase.handleProperty prop <;> rfl

end ConnackProperties

structure Connack where
  flags : UInt8
  reasonCode : UInt8
  properties : ConnackProperties := {}
  deriving DecidableEq, Repr

namespace Connack

def typeValue : UInt8 := 2

def deserialize : Reader Connack := do
  let flags ← fixedInt8
  let reasonCode ← fixedInt8
  let properties ← ConnackProperties.deserialize
  return { flags, reasonCode, properties }

def serializeBody (p : Connack) : Writer :=
  writeInt8 p.flags ++ writeInt8 p.reasonCode ++ p.properties.serialize

def serialize (p : Connack) : Writer := writePacket typeValue 0 p.serializeBody

/-- The packet a reader makes of an encoded one. -/
def received (p : Connack) : Connack :=
  { p with properties := ConnackProperties.asSection.decoded p.properties }

theorem decodes {p : Connack} (h : ConnackProperties.asSection.WellFormed p.properties) :
    Reads deserialize p.serializeBody p.received := by
  rw [serializeBody, Written.append_assoc]
  exact (reads_int8 _).bind ((reads_int8 _).bind ((reads_section h).last _))

theorem reads {p : Connack} (h : ConnackProperties.asSection.WellFormed p.properties) :
    ReadsAll deserialize p.serializeBody p.received :=
  (decodes h).all

end Connack
end Mqtt5.WireConnect
