import Mqtt5.WirePrimitivesCodec

/-!
# Properties

A property is an identifier and a value whose wire type the identifier selects. The
block of a packet is a list of them behind a length field; the `properties_t` of each
packet is filled from a block and builds one.
-/
namespace Mqtt5.WireProperties
open ByteParser ByteWriter WirePrimitives

/-- The alternatives of `property::value_storage`, in its order. -/
inductive Kind
  | byte | int16 | int32 | varlen | string | binary | pair
  deriving DecidableEq, Repr

inductive Value
  | byte (v : UInt8)
  | int16 (v : UInt16)
  | int32 (v : UInt32)
  | varlen (v : UInt32)
  | string (v : Bytes)
  | binary (v : Bytes)
  | pair (v : KeyValuePair)
  deriving DecidableEq, Repr

def Value.kind : Value → Kind
  | .byte _ => .byte
  | .int16 _ => .int16
  | .int32 _ => .int32
  | .varlen _ => .varlen
  | .string _ => .string
  | .binary _ => .binary
  | .pair _ => .pair

structure Property where
  identifier : UInt32
  value : Value
  deriving DecidableEq, Repr

namespace Ids

def payloadFormatIndicator : UInt8 := 1
def messageExpiryInterval : UInt8 := 2
def contentType : UInt8 := 3
def responseTopic : UInt8 := 8
def correlationData : UInt8 := 9
def subscriptionIdentifier : UInt8 := 11
def sessionExpiryInterval : UInt8 := 17
def assignedClientId : UInt8 := 18
def serverKeepAlive : UInt8 := 19
def authenticationMethod : UInt8 := 21
def authenticationData : UInt8 := 22
def requestProblemInformation : UInt8 := 23
def willDelayInterval : UInt8 := 24
def requestResponseInformation : UInt8 := 25
def responseInformation : UInt8 := 26
def serverReference : UInt8 := 28
def reasonString : UInt8 := 31
def receiveMaximum : UInt8 := 33
def topicAliasMaximum : UInt8 := 34
def topicAlias : UInt8 := 35
def maximumQos : UInt8 := 36
def retainAvailable : UInt8 := 37
def userProperty : UInt8 := 38
def maximumPacketSize : UInt8 := 39
def wildcardSubscriptionsAvailable : UInt8 := 40
def subscriptionIdentifiersAvailable : UInt8 := 41
def sharedSubscriptionAvailable : UInt8 := 42

end Ids

/-- The table of `property::activate_id`. -/
def activatedKind (id : UInt8) : Option Kind :=
  match id.toNat with
  | 1 => some .byte
  | 2 => some .int32
  | 3 => some .string
  | 8 => some .string
  | 9 => some .binary
  | 11 => some .binary
  | 17 => some .int32
  | 18 => some .string
  | 19 => some .int16
  | 21 => some .string
  | 22 => some .binary
  | 23 => some .byte
  | 24 => some .int32
  | 25 => some .byte
  | 26 => some .string
  | 28 => some .string
  | 31 => some .string
  | 33 => some .int16
  | 34 => some .int16
  | 35 => some .int16
  | 36 => some .byte
  | 37 => some .byte
  | 38 => some .pair
  | 39 => some .int32
  | 40 => some .byte
  | 41 => some .byte
  | 42 => some .byte
  | _ => none

/-- The alternative a new property holds after `activate_id`: the first one, a byte,
unless the table names another. The identifier is narrowed to its low byte. -/
def selectedKind (identifier : UInt32) : Kind := (activatedKind identifier.toUInt8).getD .byte

/-- `property::deserializer` -/
def readValue : Kind → Reader Value
  | .byte => Value.byte <$> fixedInt8
  | .int16 => Value.int16 <$> fixedInt16
  | .int32 => Value.int32 <$> fixedInt32
  | .varlen => Value.varlen <$> varlenInt
  | .string => Value.string <$> readString
  | .binary => Value.binary <$> readBinary
  | .pair => Value.pair <$> readPair

/-- `property::serializer` -/
def writeValue : Value → Writer
  | .byte v => writeInt8 v
  | .int16 v => writeInt16 v
  | .int32 v => writeInt32 v
  | .varlen v => writeVarlen v
  | .string v => writeString v
  | .binary v => writeBinary v
  | .pair v => writePair v

/-- `property::deserialize` -/
def readProperty : Reader Property := do
  let identifier ← varlenInt
  let value ← readValue (selectedKind identifier)
  return ⟨identifier, value⟩

/-- `property::serialize` -/
def writeProperty (prop : Property) : Writer :=
  writeVarlen prop.identifier ++ writeValue prop.value

/-- The C++ value handed to `property::set_value`; every integral type used has at most
32 bits. -/
inductive Argument
  | integral (v : UInt32)
  | string (v : Bytes)
  | binary (v : Bytes)
  | pair (v : KeyValuePair)
  deriving DecidableEq, Repr

/-- The `assign_value` overload that is chosen for the stored alternative. -/
def assignValue : Kind → Argument → Except Fault Value
  | .byte, .integral v => .ok (.byte v.toUInt8)
  | .int16, .integral v => .ok (.int16 v.toUInt16)
  | .int32, .integral v => .ok (.int32 v)
  | .varlen, .integral v => .ok (.varlen v)
  | .string, .string v => .ok (.string v)
  | .binary, .binary v => .ok (.binary v)
  | .pair, .pair v => .ok (.pair v)
  | _, _ => .error (.runtimeError "Mismatched attempt to set property types")

/-- The constructor `property(id, val)` -/
def Property.ofValue (id : UInt8) (val : Argument) : Except Fault Property := do
  let value ← assignValue (selectedKind id.toUInt32) val
  return ⟨id.toUInt32, value⟩

def mismatchedGet : Fault := .runtimeError "Mismatched attempt to get property types"

/-- `value_as<T>` for an unsigned `T` of at most 32 bits, before it is narrowed to `T`. -/
def Value.asIntegral : Value → Except Fault UInt32
  | .byte v => .ok v.toUInt32
  | .int16 v => .ok v.toUInt32
  | .int32 v => .ok v
  | .varlen v => .ok v
  | _ => .error mismatchedGet

def Value.asString : Value → Except Fault Bytes
  | .string v => .ok v
  | _ => .error mismatchedGet

def Value.asBinary : Value → Except Fault Bytes
  | .binary v => .ok v
  | _ => .error mismatchedGet

def Value.asPair : Value → Except Fault KeyValuePair
  | .pair v => .ok v
  | _ => .error mismatchedGet

/-! ## Blocks -/

/-- `properties::deserialize`; the loop reads from a span of the declared length. -/
def readProperties : Reader (List Property) := do
  let propertyDataLength ← varlenInt
  let dataSpan ← cspanN propertyDataLength.toNat
  let (properties, _) ←
    ((untilEmpty .unfinished readProperty).run dataSpan : Except Fault (List Property × Bytes))
  consume propertyDataLength.toNat
  return properties

/-- `properties::serialize`; the length is a 32-bit count of a dry run. -/
def writeProperties (properties : List Property) : Writer :=
  let dryRun := Written.forEach writeProperty properties
  match dryRun.thrown with
  | some e => .throw e
  | none => writeVarlen (UInt32.ofNat dryRun.tokens.length) ++ dryRun

/-- Only user properties may be repeated; any other identifier replaces its value. -/
def addProperty (properties : List Property) (prop : Property) : List Property :=
  if prop.identifier = 38 then properties ++ [prop]
  else if properties.any (fun p => p.identifier == prop.identifier) then
    replaceFirst properties
  else properties ++ [prop]
where
  replaceFirst : List Property → List Property
    | [] => []
    | p :: ps =>
        if p.identifier = prop.identifier then { p with value := prop.value } :: ps
        else p :: replaceFirst ps

/-- One conditional `add_property(id, value)` of a packet's serializer. -/
structure MaybeAdd where
  present : Bool
  id : UInt8
  value : Argument

/-- The calls of `add_property` whose conditions hold, in order. -/
def addPresent (adds : List MaybeAdd) (properties : List Property) :
    Except Fault (List Property) :=
  adds.foldlM (fun props add => do
    if add.present then return addProperty props (← Property.ofValue add.id add.value)
    else return props) properties

/-- `properties_t_base` -/
structure PropertiesBase where
  userProperty : List KeyValuePair := []
  unknownProperties : List Property := []
  deriving DecidableEq, Repr

/-- `properties_t_base::handle_property` -/
def PropertiesBase.handleProperty (base : PropertiesBase) (prop : Property) :
    Except Fault PropertiesBase := do
  if prop.identifier = Ids.userProperty.toUInt32 then
    return { base with userProperty := base.userProperty ++ [← prop.value.asPair] }
  else
    return { base with unknownProperties := base.unknownProperties ++ [prop] }

def addUserProperties (pairs : List KeyValuePair) : List MaybeAdd :=
  pairs.map fun kv => ⟨true, Ids.userProperty, .pair kv⟩

/-- `properties_t_base::add_base_properties` -/
def PropertiesBase.addBaseProperties (base : PropertiesBase) (props : List Property) :
    Except Fault (List Property) := do
  let props ← addPresent (addUserProperties base.userProperty) props
  return base.unknownProperties.foldl addProperty props

/-- `properties_t::serialize`: build the block, then write it. -/
def writeBuilt (built : Except Fault (List Property)) : Writer :=
  match built with
  | .ok props => writeProperties props
  | .error e => .throw e

/-- `properties_t::deserialize`: read a block, then handle its properties in order. -/
def readHandled {σ : Type} (dflt : σ) (handle : σ → Property → Except Fault σ) : Reader σ := do
  let props ← readProperties
  (props.foldlM handle dflt : Except Fault σ)

end Mqtt5.WireProperties
