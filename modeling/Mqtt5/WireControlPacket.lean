import Mqtt5.WireConnect
import Mqtt5.WireSubscribe

/-!
# Control packets

DISCONNECT and the pings, the variant over all packets, and the dispatch on the type in
the header.
-/
namespace Mqtt5.WireControlPacket
open ByteParser ByteWriter WirePrimitives WireProperties WireHeader WirePublish WireConnect
open WireSubscribe WireReads

/-- `disconnect::properties_t` -/
structure DisconnectProperties extends PropertiesBase where
  sessionExpiryInterval : UInt32 := 0
  reasonString : Bytes := []
  serverReference : Bytes := []
  deriving DecidableEq, Repr

namespace DisconnectProperties

def handle (retval : DisconnectProperties) (p : Property) : Except Fault DisconnectProperties := do
  if p.identifier = Ids.sessionExpiryInterval.toUInt32 then
    return { retval with sessionExpiryInterval := ← p.value.asIntegral }
  else if p.identifier = Ids.reasonString.toUInt32 then
    return { retval with reasonString := ← p.value.asString }
  else if p.identifier = Ids.serverReference.toUInt32 then
    return { retval with serverReference := ← p.value.asString }
  else
    return { retval with toPropertiesBase := ← retval.toPropertiesBase.handleProperty p }

def adds (p : DisconnectProperties) : List MaybeAdd :=
  [⟨p.sessionExpiryInterval != 0, Ids.sessionExpiryInterval, .integral p.sessionExpiryInterval⟩,
    ⟨p.reasonString != [], Ids.reasonString, .string p.reasonString⟩,
    ⟨p.serverReference != [], Ids.serverReference, .string p.serverReference⟩]

def deserialize : Reader DisconnectProperties := readHandled {} handle

def serialize (p : DisconnectProperties) : Writer :=
  writeBuilt (do
    let props ← addPresent p.adds []
    p.toPropertiesBase.addBaseProperties props)

def received (p : DisconnectProperties) : DisconnectProperties := { p with toPropertiesBase := {} }

theorem handled (p : DisconnectProperties) :
    p.adds.foldlM (handlePresent handle) {} = .ok p.received := by
  apply foldlM_field (fun _ => rfl) (fun h => by rw [bne_eq_false_iff_eq.mp h])
  apply foldlM_field (fun _ => rfl) (fun h => by rw [bne_eq_false_iff_eq.mp h])
  exact foldlM_field (fun _ => rfl) (fun h => by rw [bne_eq_false_iff_eq.mp h]) rfl

def asSection : PropertySection DisconnectProperties where
  dflt := {}
  handle := handle
  adds := adds
  base := toPropertiesBase
  withBase p b := { p with toPropertiesBase := b }
  received := received
  ids := [Ids.sessionExpiryInterval, Ids.reasonString, Ids.serverReference]
  ids_nodup := by decide
  base_withBase _ _ := rfl
  withBase_withBase _ _ _ := rfl
  withBase_base _ := rfl
  adds_ids _ := rfl
  handled p _ := p.handled
  passes p prop h := by
    simp only [List.mem_cons, List.not_mem_nil, or_false, forall_eq_or_imp, forall_eq] at h
    simp only [handle, h, ↓reduceIte]
    rfl

end DisconnectProperties

/-- `enum class disconnect_reason : std::uint8_t` -/
abbrev DisconnectReason := UInt8

namespace DisconnectReason
def normal : DisconnectReason := 0
def protocolError : DisconnectReason := 130
def quotaExceeded : DisconnectReason := 151
end DisconnectReason

structure Disconnect where
  reason : DisconnectReason := DisconnectReason.normal
  properties : DisconnectProperties := {}
  deriving DecidableEq, Repr

namespace Disconnect

def typeValue : UInt8 := 14

/-- One byte after the reason is not enough for the properties to be read. -/
def deserialize (hdr : Header) : Reader Disconnect := onSpan hdr.remainingLength.toNat do
  let data ← cspan
  if data.isEmpty then return {}
  let reason ← fixedInt8
  let data ← cspan
  let properties ← if data.length > 1 then DisconnectProperties.deserialize else pure {}
  return ⟨reason, properties⟩

def serializeBody (p : Disconnect) : Writer :=
  if p.reason = DisconnectReason.normal ∧ p.properties = {} then .emit []
  else writeInt8 p.reason ++ p.properties.serialize

def serialize (p : Disconnect) : Writer := writePacket typeValue 0 p.serializeBody

/-- The packet a reader makes of an encoded one. -/
def received (p : Disconnect) : Disconnect :=
  { p with properties := DisconnectProperties.asSection.decoded p.properties }

theorem reads {p : Disconnect} (h : DisconnectProperties.asSection.WellFormed p.properties)
    {hdr : Header} {zs : Bytes} (hsize : hdr.remainingLength.toNat = zs.length)
    (hlen : zs.length < 2 ^ 32) (hw : p.serializeBody = .emit zs) :
    (deserialize hdr).run zs = .ok (p.received, zs) := by
  refine readsAll_onSpan (w := p.serializeBody) ?_ hw hsize hlen
  intro zs hw hlen
  rw [serializeBody] at hw
  split at hw
  case isTrue hdefault =>
    cases hw
    refine ⟨[], ?_⟩
    rw [received, hdefault.1, hdefault.2]
    rfl
  case isFalse =>
    obtain ⟨xs, vs, hx, hv, rfl⟩ := Written.append_eq_emit.mp hw
    rw [List.length_append] at hlen
    have hreason := reads_int8 p.reason hx (by omega)
    rw [writeInt8_eq] at hx
    cases hx
    rw [run_bind_of_ok (run_cspan _), if_neg (by simp), hreason.bind_run,
      run_bind_of_ok (run_cspan vs)]
    by_cases hlong : vs.length > 1
    · rw [if_pos hlong]
      exact ((reads_section h).all.last (Disconnect.mk p.reason)) hv (by omega)
    · rw [if_neg hlong, received, PropertySection.decoded_of_short h hv (by omega)]
      exact ⟨vs, rfl⟩

end Disconnect

namespace Pingreq
def typeValue : UInt8 := 12
def serialize : Writer := .emit [typeValue <<< 4, 0]
end Pingreq

namespace Pingresp
def typeValue : UInt8 := 13
def serialize : Writer := .emit [typeValue <<< 4, 0]
end Pingresp

/-- The alternatives of `control_packet::body_storage_type`, in its order. -/
inductive ControlPacket
  | connect (p : Connect)
  | connack (p : Connack)
  | publish (p : Publish)
  | puback (p : Ack)
  | pubrec (p : Ack)
  | pubrel (p : Ack)
  | pubcomp (p : Ack)
  | subscribe (p : Subscribe)
  | suback (p : ReasonCodes)
  | unsubscribe (p : Unsubscribe)
  | unsuback (p : ReasonCodes)
  | disconnect (p : Disconnect)
  | pingreq
  | pingresp
  deriving DecidableEq, Repr

namespace ControlPacket

/-- `control_packet::serialize` -/
def serialize : ControlPacket → Writer
  | connect p => p.serialize
  | connack p => p.serialize
  | publish p => p.serialize
  | puback p => Puback.serialize p
  | pubrec p => Pubrec.serialize p
  | pubrel p => Pubrel.serialize p
  | pubcomp p => Pubcomp.serialize p
  | subscribe p => p.serialize
  | suback p => Suback.serialize p
  | unsubscribe p => p.serialize
  | unsuback p => Unsuback.serialize p
  | disconnect p => p.serialize
  | pingreq => Pingreq.serialize
  | pingresp => Pingresp.serialize

/-- The tests on the header's type, in their order. -/
def deserializeBody (hdr : Header) : Reader ControlPacket :=
  if hdr.type = Connect.typeValue then connect <$> Connect.deserialize
  else if hdr.type = Connack.typeValue then connack <$> Connack.deserialize
  else if hdr.type = Publish.typeValue then publish <$> Publish.deserialize hdr
  else if hdr.type = Puback.typeValue then puback <$> Ack.deserialize hdr.remainingLength
  else if hdr.type = Pubrec.typeValue then pubrec <$> Ack.deserialize hdr.remainingLength
  else if hdr.type = Pubrel.typeValue then pubrel <$> Ack.deserialize hdr.remainingLength
  else if hdr.type = Pubcomp.typeValue then pubcomp <$> Ack.deserialize hdr.remainingLength
  else if hdr.type = Subscribe.typeValue then subscribe <$> Subscribe.deserialize hdr
  else if hdr.type = Suback.typeValue then suback <$> ReasonCodes.deserialize hdr
  else if hdr.type = Unsubscribe.typeValue then unsubscribe <$> Unsubscribe.deserialize hdr
  else if hdr.type = Unsuback.typeValue then unsuback <$> ReasonCodes.deserialize hdr
  else if hdr.type = Disconnect.typeValue then disconnect <$> Disconnect.deserialize hdr
  else if hdr.type = Pingreq.typeValue then pure pingreq
  else if hdr.type = Pingresp.typeValue then pure pingresp
  else throw (.runtimeError "Received unknown control packet type")

/-- Everything that the dispatch on the type can do. -/
inductive Dispatches (hdr : Header) : Reader ControlPacket → Prop
  | connect (h : hdr.type = Connect.typeValue) : Dispatches hdr (connect <$> Connect.deserialize)
  | connack (h : hdr.type = Connack.typeValue) : Dispatches hdr (connack <$> Connack.deserialize)
  | publish (h : hdr.type = Publish.typeValue) :
      Dispatches hdr (publish <$> Publish.deserialize hdr)
  | ack (c : Ack → ControlPacket) (h : hdr.type ∈
        [Puback.typeValue, Pubrec.typeValue, Pubrel.typeValue, Pubcomp.typeValue]) :
      Dispatches hdr (c <$> Ack.deserialize hdr.remainingLength)
  | subscribe (h : hdr.type = Subscribe.typeValue) :
      Dispatches hdr (subscribe <$> Subscribe.deserialize hdr)
  | reasonCodes (c : ReasonCodes → ControlPacket)
      (h : hdr.type ∈ [Suback.typeValue, Unsuback.typeValue]) :
      Dispatches hdr (c <$> ReasonCodes.deserialize hdr)
  | unsubscribe (h : hdr.type = Unsubscribe.typeValue) :
      Dispatches hdr (unsubscribe <$> Unsubscribe.deserialize hdr)
  | disconnect (h : hdr.type = Disconnect.typeValue) :
      Dispatches hdr (disconnect <$> Disconnect.deserialize hdr)
  | ping (p : ControlPacket) (h : hdr.type ∈ [Pingreq.typeValue, Pingresp.typeValue]) :
      Dispatches hdr (pure p)
  | unknown (h : hdr.type ∉ [Connect.typeValue, Connack.typeValue, Publish.typeValue,
        Subscribe.typeValue, Suback.typeValue, Unsubscribe.typeValue, Unsuback.typeValue]) :
      Dispatches hdr (throw (.runtimeError "Received unknown control packet type"))

theorem Dispatches.ite {hdr : Header} {c : Prop} [Decidable c] {p q : Reader ControlPacket}
    (hp : c → Dispatches hdr p) (hq : ¬ c → Dispatches hdr q) :
    Dispatches hdr (if c then p else q) := by
  split
  case isTrue h => exact hp h
  case isFalse h => exact hq h

theorem dispatches (hdr : Header) : Dispatches hdr (deserializeBody hdr) := by
  refine .ite .connect fun h₁ => .ite .connack fun h₂ => .ite .publish fun h₃ => ?_
  refine .ite (fun h => .ack _ (by simp [h])) fun _ => .ite (fun h => .ack _ (by simp [h])) fun _ =>
    .ite (fun h => .ack _ (by simp [h])) fun _ => .ite (fun h => .ack _ (by simp [h])) fun _ => ?_
  refine .ite .subscribe fun h₈ => .ite (fun h => .reasonCodes _ (by simp [h])) fun h₉ => ?_
  refine .ite .unsubscribe fun h₁₀ => .ite (fun h => .reasonCodes _ (by simp [h])) fun h₁₁ => ?_
  refine .ite .disconnect fun _ => .ite (fun h => .ping _ (by simp [h])) fun _ => ?_
  refine .ite (fun h => .ping _ (by simp [h])) fun _ => .unknown ?_
  simp [h₁, h₂, h₃, h₈, h₉, h₁₀, h₁₁]

/-- The body deserializer works on a fetcher of its own over the packet's bytes. -/
def decodeBody (hdr : Header) (packetData : Bytes) : Except Fault ControlPacket := do
  let (packet, _) ← (deserializeBody hdr).run packetData
  return packet

/-- The stages of `control_packet::inplace_deserializer` when all bytes are there. -/
def deserialize : Reader ControlPacket := do
  let header ← Header.deserialize
  let packetData ← cspanN header.remainingLength.toNat
  let packet ← (decodeBody header packetData : Except Fault ControlPacket)
  consume header.remainingLength.toNat
  return packet

end ControlPacket
end Mqtt5.WireControlPacket
