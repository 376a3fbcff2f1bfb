import Mqtt5.WireControlPacket
import Mqtt5.TopicMatching
import Mqtt5.CallMachine

/-!
# The state of a client

The members of `mqtt5::client`, the states of the four regions of its connection state
machine, and what a client leaves for the outside world to finish: reads and writes on
the stream, and waits on the two timers.
-/
namespace Mqtt5.ClientState
open WirePrimitives WirePublish WireConnect WireControlPacket
open WireSubscribe hiding TopicFilter
open TopicMatching

/-- `last_will_t` -/
structure LastWill where
  topic : Bytes := []
  payload : Bytes := []
  contentType : Bytes := []
  responseTopic : Bytes := []
  correlationData : Bytes := []
  userProperty : List KeyValuePair := []
  delayInterval : UInt32 := 0
  messageExpiryInterval : UInt32 := 0
  retain : Bool := false
  qualityOfService : QualityOfService := qos0
  payloadFormatIndicator : UInt8 := 0
  deriving DecidableEq, Repr

structure ConnectOptions where
  lastWill : Option LastWill := none
  clientId : Bytes := []
  keepAlive : UInt16 := 0
  username : Bytes := []
  password : Bytes := []
  receiveMaximum : UInt16 := 65535
  cleanStart : Bool := true
  deriving DecidableEq, Repr

/-- A receiver of the library's user, by the name the user gave it or, for operations that
draw a packet identifier, by the number of the draw. -/
abbrev Receiver := ℕ

/-- `in_flight_publish::state_type` -/
inductive PublishState
  | waitingPuback | waitingPubrec | waitiingPubcomp
  deriving DecidableEq, Repr

structure InFlightPublish where
  message : Publish
  receiver : Receiver
  state : PublishState := .waitingPuback
  deriving DecidableEq, Repr

/-- `in_flight_subscribe` and `in_flight_unsubscribe`, and what the starter of a queued
publish has captured. -/
structure InFlight (μ : Type) where
  message : μ
  receiver : Receiver
  deriving DecidableEq, Repr

abbrev InFlightSubscribe := InFlight Subscribe
abbrev InFlightUnsubscribe := InFlight Unsubscribe
abbrev PublishOpStarter := InFlight Publish

structure FilteredSubscription where
  filter : TopicFilter
  receivers : List Receiver
  deriving DecidableEq, Repr

/-- `packet_identifier_generator_t`; how many identifiers it gave out is not a member of
the source. -/
structure PacketIdentifierGenerator where
  next : UInt16 := 1
  drawn : ℕ := 0
  next_eq : next.toNat = 1 + drawn % 65535 := by rfl
  deriving DecidableEq, Repr

namespace PacketIdentifierGenerator

/-- The generator after one call of its `operator()`, which returns `next`. -/
def advance (g : PacketIdentifierGenerator) : PacketIdentifierGenerator where
  next := if g.next + 1 = 0 then 1 else g.next + 1
  drawn := g.drawn + 1
  next_eq := by
    have hnext := g.next_eq
    have hlt := g.next.toNat_lt
    have hmod := Nat.mod_lt g.drawn (show 65535 > 0 by omega)
    have hsucc : (g.next + 1).toNat = (g.next.toNat + 1) % 65536 := by simp
    split
    case isTrue h =>
      rw [h] at hsucc
      change 1 = _
      change 0 = _ at hsucc
      omega
    case isFalse h =>
      have hne : (g.next + 1).toNat ≠ 0 := fun h0 => h (UInt16.toNat_inj.mp h0)
      omega

end PacketIdentifierGenerator

/-! ## The state machine's regions and events -/

inductive MainState
  | idle | startHandshake | handshaking | connected
  deriving DecidableEq, Repr

inductive RxState
  | idle | receiving
  deriving DecidableEq, Repr

inductive PingState
  | idle | waiting
  deriving DecidableEq, Repr

inductive KeepAliveState
  | idle | waiting
  deriving DecidableEq, Repr

inductive Region
  | main | rx | ping | keepAlive
  deriving DecidableEq, Repr

inductive Event
  | handshake
  | disconnect
  | handshakeDone
  | packetReceived (packet : ControlPacket)
  | packetWritten
  | pingTimeout
  | keepAliveTimeout
  | pubackSent
  deriving DecidableEq, Repr

/-! ## What is left to the outside world -/

/-- The receiver a write was submitted with: `send_message` raises events for both
outcomes, a PUBACK for its value only, the client's own DISCONNECT closes the socket, and
the user's one closes it and then calls the user back. -/
inductive WriteReceiver
  | message | puback | disconnect | disconnector
  deriving DecidableEq, Repr

structure PendingWrite where
  buffer : Bytes
  receiver : WriteReceiver
  deriving DecidableEq, Repr

/-- A wait on a timer, in seconds, for one of the events that timers raise. -/
structure PendingWait where
  delay : ℕ
  event : Event
  timed : event ∈ [Event.disconnect, .pingTimeout, .keepAliveTimeout] := by simp
  deriving DecidableEq, Repr

structure Client where
  connectReceivers : List Receiver := []
  connectOpts : ConnectOptions := {}
  keepAliveUsed : UInt16 := 0
  clientId : Bytes := []
  publishedMessages : List InFlightPublish := []
  subscribeMessages : List InFlightSubscribe := []
  unsubscribeMessages : List InFlightUnsubscribe := []
  publishWaiters : List FilteredSubscription := []
  /-- A `received_qos2_state` has one state only, `pubrec_sent`. -/
  receivedQos2States : List Publish := []
  queuedPublishes : List PublishOpStarter := []
  serverMaxSendQuota : UInt16 := 65535
  serverSendQuota : UInt16 := 65535
  clientReceiveQuota : UInt16 := 65535
  nextPacketIdentifier : PacketIdentifierGenerator := {}
  main : MainState := .idle
  rx : RxState := .idle
  ping : PingState := .idle
  keepAlive : KeepAliveState := .idle
  connectAndPingTimer : Option PendingWait := none
  keepAliveTimer : Option PendingWait := none
  pendingReads : ℕ := 0
  pendingWrites : List PendingWrite := []

namespace Client

def isConnected (c : Client) : Bool := c.main = .connected

end Client

/-- What the receiver of a publish, a subscribe or an unsubscribe is completed with. -/
inductive Completion
  | value (codes : List UInt8)
  | done
  deriving DecidableEq, Repr

/-- What an observer of the client sees it do. -/
inductive Effect
  /-- The main region got an event in a state. -/
  | event (e : Event) (main : MainState)
  /-- A packet was encoded and its bytes given to the stream. -/
  | sent (packet : ControlPacket) (receiver : WriteReceiver)
  /-- A publish entered `published_messages_`. -/
  | started (receiver : Receiver) (message : Publish)
  /-- A publish was moved to waiting for PUBCOMP. -/
  | advanced (receiver : Receiver)
  | completed (receiver : Receiver) (completion : Completion)
  /-- A publish without acknowledgement was completed with success. -/
  | published (message : Publish)
  /-- A publish was handed to `deliver_to_publish_waiters`. -/
  | delivered (publish : Publish)
  | waiter (receiver : Receiver) (publish : Publish)
  | connector (receiver : Receiver) (success : Bool)
  | closed
  deriving DecidableEq, Repr

/-- What is still to be run. -/
inductive Call
  /-- Code of the library's user. -/
  | user
  /-- An event on its way to one region, or to the transitions that need none. -/
  | dispatch (region : Region) (e : Event)
  | anonymous
  | close
  /-- The reader has been submitted; a packet may be complete in the buffer. -/
  | receiveOneMessage
  | maybeSendQueuedPublish
  | notifyConnectorReceivers (success : Bool)
  | connectorReceiver (receiver : Receiver) (success : Bool)
  | publishWaiter (receiver : Receiver) (publish : Publish)
  deriving DecidableEq, Repr

abbrev Reaction := CallMachine.Reaction Client Call Effect

end Mqtt5.ClientState
