import Mqtt5.ClientState

/-!
# What the client does with packets and requests

The member functions of `mqtt5::client` and the `start` functions of its senders, each as
a reaction. A receiver's `set_value` or `set_done` is code of the user: where it is called,
the reaction ends, and what the function does after it stays behind as a call.
-/
namespace Mqtt5.ClientState
open WirePrimitives WirePublish WireConnect WireControlPacket CallMachine
open WireSubscribe hiding TopicFilter
open TopicMatching

/-- Change the first element that `p` holds of. -/
def modifyFirst {α : Type} (p : α → Bool) (f : α → α) : List α → List α
  | [] => []
  | a :: as => if p a then f a :: as else a :: modifyFirst p f as

theorem length_modifyFirst {α : Type} (p : α → Bool) (f : α → α) (as : List α) :
    (modifyFirst p f as).length = as.length := by
  induction as with
  | nil => rfl
  | cons a as ih =>
    rw [modifyFirst]
    split
    · rfl
    · rw [List.length_cons, List.length_cons, ih]

theorem map_modifyFirst {α β : Type} (p : α → Bool) {f : α → α} {g : α → β}
    (h : ∀ a, g (f a) = g a) (as : List α) : (modifyFirst p f as).map g = as.map g := by
  induction as with
  | nil => rfl
  | cons a as ih =>
    rw [modifyFirst]
    split
    · rw [List.map_cons, List.map_cons, h]
    · rw [List.map_cons, List.map_cons, ih]

namespace InFlightPublish

/-- What the searches through `published_messages_` test. -/
def named (id : UInt16) (msg : InFlightPublish) : Bool := msg.message.packetIdentifier = id

/-- The state a publish of this quality of service starts in. -/
def startState (message : Publish) : PublishState :=
  if message.qualityOfService = qos2 then .waitingPubrec else .waitingPuback

end InFlightPublish

namespace Client

/-- `control_packet_writer` encodes the packet before there is a write to submit. -/
def controlPacketWriter (c : Client) (packet : ControlPacket) (receiver : WriteReceiver) :
    Reaction :=
  match packet.serialize.result with
  | .ok buffer =>
      { state := { c with pendingWrites := c.pendingWrites ++ [⟨buffer, receiver⟩] }
        effects := [.sent packet receiver] }
  | .error _ => { state := c, threw := true }

def sendMessage (c : Client) (message : ControlPacket) : Reaction :=
  c.controlPacketWriter message .message

/-- `client::close` closes the socket and swallows what that throws. -/
def close (c : Client) : Reaction := { state := c, effects := [.closed] }

/-! ## The send side -/

/-- The `start_fn` of a publish with acknowledgement. -/
def startFn (c : Client) (op : PublishOpStarter) : Reaction :=
  let c := { c with serverSendQuota := c.serverSendQuota - 1 }
  (c.sendMessage (.publish op.message)).andThen fun c =>
    let stored := ⟨op.message, op.receiver, InFlightPublish.startState op.message⟩
    { state := { c with publishedMessages := c.publishedMessages ++ [stored] }
      effects := [.started op.receiver op.message] }

def maybeSendQueuedPublish (c : Client) : Reaction :=
  if c.serverSendQuota < c.serverMaxSendQuota then
    let c := { c with serverSendQuota := c.serverSendQuota + 1 }
    match c.queuedPublishes with
    | [] => { state := c }
    | next :: queued => { c with queuedPublishes := queued }.startFn next
  else { state := c }

/-- `publish_sender::operation::start`, after the modifying function. -/
def startPublish (c : Client) (message : Publish) : Reaction :=
  if message.qualityOfService = qos0 then
    (c.sendMessage (.publish message)).andThen fun c =>
      { state := c, calls := [.user], effects := [.published message] }
  else
    let id := c.nextPacketIdentifier
    let c := { c with nextPacketIdentifier := id.advance }
    let op := ⟨{ message with packetIdentifier := id.next }, id.drawn⟩
    if c.serverSendQuota > 0 then c.startFn op
    else { state := { c with queuedPublishes := c.queuedPublishes ++ [op] } }

/-- `single_subscription`; the retain handling is the position in its enum. -/
structure SingleSubscription where
  topic : TopicFilter
  qualityOfService : QualityOfService := qos1
  noLocal : Bool := false
  retainAsPublished : Bool := false
  subscriptionRetainHandling : UInt8 := 0
  deriving DecidableEq, Repr

def SingleSubscription.flags (s : SingleSubscription) : UInt8 :=
  let flags := s.qualityOfService
  let flags := if s.noLocal then flags + (0x04 : UInt8) else flags
  let flags := if s.retainAsPublished then flags + (0x08 : UInt8) else flags
  flags + (s.subscriptionRetainHandling <<< (4 : UInt8))

/-- `subscribe_sender::operation::start` -/
def startSubscribe (c : Client) (subscriptions : List SingleSubscription)
    (modifier : Subscribe → Subscribe) : Reaction :=
  let message := modifier { topics := subscriptions.map fun s => ⟨s.topic.toString, s.flags⟩ }
  let id := c.nextPacketIdentifier
  let message := { message with packetIdentifier := id.next }
  let c := { c with nextPacketIdentifier := id.advance }
  (c.sendMessage (.subscribe message)).andThen fun c =>
    { state := { c with subscribeMessages := c.subscribeMessages ++ [⟨message, id.drawn⟩] } }

/-- `unsubscribe_sender::operation::start` -/
def startUnsubscribe (c : Client) (unsub : Unsubscribe) : Reaction :=
  let id := c.nextPacketIdentifier
  let message := { unsub with packetIdentifier := id.next }
  let c := { c with nextPacketIdentifier := id.advance }
  (c.sendMessage (.unsubscribe message)).andThen fun c =>
    { state := { c with unsubscribeMessages := c.unsubscribeMessages ++ [⟨message, id.drawn⟩] } }

/-- `filter_subscribe_sender::operation::start` -/
def startFilterSubscribe (c : Client) (filter : TopicFilter) (receiver : Receiver) : Reaction :=
  let sameFilter (item : FilteredSubscription) : Bool := item.filter = filter
  let publishWaiters :=
    if c.publishWaiters.any sameFilter then
      modifyFirst sameFilter (fun item => { item with receivers := item.receivers ++ [receiver] })
        c.publishWaiters
    else c.publishWaiters ++ [⟨filter, [receiver]⟩]
  { state := { c with publishWaiters } }

/-! ## Connecting -/

/-- What the last will sets in a CONNECT. -/
def addWill (connect : Connect) (will : LastWill) : Connect :=
  let flags := connect.flags ||| Connect.willFlag
  let flags := if will.retain then flags ||| Connect.willRetainFlag else flags
  let flags :=
    if will.qualityOfService = qos1 then flags ||| Connect.willQos1
    else if will.qualityOfService = qos2 then flags ||| Connect.willQos2
    else flags
  { connect with
    flags
    willTopic := will.topic
    willPayload := will.payload
    willProperties :=
      { connect.willProperties with
        contentType := will.contentType
        responseTopic := will.responseTopic
        correlationData := will.correlationData
        delayInterval := will.delayInterval
        messageExpiryInterval := will.messageExpiryInterval
        payloadFormatIndicator := will.payloadFormatIndicator } }

/-- The CONNECT that `send_connect` builds from the options. -/
def connectMessage (opts : ConnectOptions) : Connect :=
  let connect : Connect := {}
  let connect := match opts.lastWill with
    | some will => addWill connect will
    | none => connect
  let connect := { connect with
    keepAlive := opts.keepAlive
    clientId := opts.clientId
    connectProperties := { connect.connectProperties with receiveMaximum := opts.receiveMaximum }
    flags := connect.flags ||| (if opts.cleanStart then 0 else Connect.cleanStartFlag) }
  let connect :=
    if opts.username ≠ [] then
      { connect with
        username := some opts.username
        flags := connect.flags ||| Connect.usernameFlag }
    else connect
  if opts.password ≠ [] then
    { connect with
      password := some opts.password
      flags := connect.flags ||| Connect.passwordFlag }
  else connect

def sendConnect (c : Client) : Reaction :=
  let opts := c.connectOpts
  let c := { c with keepAliveUsed := opts.keepAlive, clientId := opts.clientId }
  c.sendMessage (.connect (connectMessage opts))

def sendPing (c : Client) : Reaction := c.sendMessage .pingreq

/-- A new wait on a timer takes the place of the one that is pending. -/
def startConnectTimer (c : Client) : Reaction :=
  { state := { c with connectAndPingTimer := some { delay := 5, event := .disconnect } } }

def startPingTimer (c : Client) : Reaction :=
  if c.keepAliveUsed > 0 then
    { state := { c with
        connectAndPingTimer :=
          some { delay := c.keepAliveUsed.toNat / 2, event := .pingTimeout } } }
  else { state := c }

def stopPingTimer (c : Client) : Reaction := { state := { c with connectAndPingTimer := none } }

def startKeepAliveTimer (c : Client) : Reaction :=
  if c.keepAliveUsed > 0 then
    { state := { c with
      keepAliveTimer := some { delay := c.keepAliveUsed.toNat, event := .keepAliveTimeout } } }
  else { state := c }

def stopKeepAliveTimer (c : Client) : Reaction := { state := { c with keepAliveTimer := none } }

/-- `control_packet_reader` submitted to a receiver that raises events. -/
def receiveOneMessage (c : Client) : Reaction := { state := c, calls := [.receiveOneMessage] }

def notifyConnectorReceivers (c : Client) (success : Bool) : Reaction :=
  { state := { c with connectReceivers := [] }
    calls := c.connectReceivers.map (.connectorReceiver · success) }

/-- `process_event` brings an event to the four regions in their order, and then takes the
transitions that need no event. -/
def processEvent (c : Client) (e : Event) : Reaction :=
  { state := c
    calls := [.dispatch .main e, .dispatch .rx e, .dispatch .ping e, .dispatch .keepAlive e,
      .anonymous] }

/-- `connect_sender::operation::start` -/
def startConnect (c : Client) : Reaction :=
  if c.isConnected then c.notifyConnectorReceivers true else c.processEvent .handshake

/-! ## The overloads of `handle_packet` -/

def handleConnack (c : Client) (connack : Connack) : Reaction :=
  let c := if connack.properties.serverKeepAlive ≠ 0 then
    { c with keepAliveUsed := connack.properties.serverKeepAlive } else c
  let c := if connack.properties.assignedClientId ≠ [] then
    { c with clientId := connack.properties.assignedClientId } else c
  let c := { c with
    serverMaxSendQuota := connack.properties.receiveMaximum
    serverSendQuota := connack.properties.receiveMaximum
    clientReceiveQuota := c.connectOpts.receiveMaximum }
  (c.processEvent .handshakeDone).andThen fun c =>
    { state := c, calls := [.notifyConnectorReceivers true] }

/-- Complete the publish an acknowledgement names; `after` is what the handler does once
the receiver returns. -/
def finishPublish (c : Client) (id : UInt16) (toFinish : InFlightPublish)
    (completion : Completion) (after : List Call) : Reaction :=
  { state := { c with publishedMessages := c.publishedMessages.eraseP (·.named id) }
    calls := .user :: after
    effects := [.completed toFinish.receiver completion] }

def handlePuback (c : Client) (puback : Ack) : Reaction :=
  let id := puback.packetIdentifier
  match c.publishedMessages.find? (·.named id) with
  | some toFinish =>
      if toFinish.state = .waitingPuback then
        c.finishPublish id toFinish (.value [puback.reasonCode]) [.maybeSendQueuedPublish]
      else c.finishPublish id toFinish .done [.close, .maybeSendQueuedPublish]
  | none => c.maybeSendQueuedPublish

def handleSuback (c : Client) (suback : ReasonCodes) : Reaction :=
  let named (msg : InFlightSubscribe) : Bool :=
    suback.packetIdentifier = msg.message.packetIdentifier
  match c.subscribeMessages.find? named with
  | some toFinish =>
      { state := { c with subscribeMessages := c.subscribeMessages.eraseP named }
        calls := [.user]
        effects := [.completed toFinish.receiver (.value suback.reasonCodes)] }
  | none => { state := c }

def handleUnsuback (c : Client) (unsuback : ReasonCodes) : Reaction :=
  let named (msg : InFlightUnsubscribe) : Bool :=
    unsuback.packetIdentifier = msg.message.packetIdentifier
  match c.unsubscribeMessages.find? named with
  | some toFinish =>
      { state := { c with unsubscribeMessages := c.unsubscribeMessages.eraseP named }
        calls := [.user]
        effects := [.completed toFinish.receiver (.value unsuback.reasonCodes)] }
  | none => { state := c }

def deliverToPublishWaiters (c : Client) (publish : Publish) : Reaction :=
  let isMatch (item : FilteredSubscription) : Bool := item.filter.«matches» publish.topic
  { state := { c with publishWaiters := c.publishWaiters.filter (!isMatch ·) }
    calls := (c.publishWaiters.filter isMatch).flatMap fun item =>
      item.receivers.map (.publishWaiter · publish)
    effects := [.delivered publish] }

/-- `puback_reason_code::no_matching_subscribers` -/
def noMatchingSubscribers : UInt8 := 16

/-- `pubrel_reason_code::packet_identifier_not_found`, also of PUBCOMP -/
def packetIdentifierNotFound : UInt8 := 146

/-- The DISCONNECT that answers a publish beyond the receive quota closes the socket when
it has been written. -/
def takeReceiveQuota (c : Client) : Reaction :=
  if c.clientReceiveQuota > 0 then
    { state := { c with clientReceiveQuota := c.clientReceiveQuota - 1 } }
  else c.controlPacketWriter (.disconnect { reason := DisconnectReason.quotaExceeded }) .disconnect

/-- What the searches through `received_qos2_states_` test. -/
def storedAs (id : UInt16) (publish : Publish) : Bool := publish.packetIdentifier = id

/-- A publish of quality of service 2 waits for its PUBREL unless its identifier is taken. -/
def storeQos2 (c : Client) (publish : Publish) : Client :=
  if c.receivedQos2States.any (storedAs publish.packetIdentifier) then c
  else { c with receivedQos2States := c.receivedQos2States ++ [publish] }

def handlePublish (c : Client) (publish : Publish) : Reaction :=
  let ack : Ack := { packetIdentifier := publish.packetIdentifier }
  (if publish.qualityOfService ≠ qos0 then c.takeReceiveQuota else { state := c }).andThen fun c =>
    if publish.qualityOfService = qos1 then
      (c.controlPacketWriter (.puback ack) .puback).andThen (·.deliverToPublishWaiters publish)
    else if publish.qualityOfService = qos2 then (c.storeQos2 publish).sendMessage (.pubrec ack)
    else c.deliverToPublishWaiters publish

/-- A success or a warning in any state but the first moves the publish on. -/
def handlePubrec (c : Client) (pubrec : Ack) : Reaction :=
  let id := pubrec.packetIdentifier
  match c.publishedMessages.find? (·.named id) with
  | none =>
      c.sendMessage (.pubrel { packetIdentifier := id, reasonCode := packetIdentifierNotFound })
  | some msg =>
      if pubrec.reasonCode > noMatchingSubscribers then
        c.finishPublish id msg (.value [pubrec.reasonCode]) []
      else if msg.state = .waitingPuback then c.finishPublish id msg .done [.close]
      else
        ({ state := { c with
            publishedMessages := modifyFirst (·.named id)
              (fun msg => { msg with state := .waitiingPubcomp }) c.publishedMessages }
           effects := [.advanced msg.receiver] } : Reaction).andThen fun c =>
            c.sendMessage (.pubrel { packetIdentifier := id })

def handlePubrel (c : Client) (pubrel : Ack) : Reaction :=
  let id := pubrel.packetIdentifier
  match c.receivedQos2States.find? (storedAs id) with
  | none =>
      c.sendMessage (.pubcomp { packetIdentifier := id, reasonCode := packetIdentifierNotFound })
  | some publish =>
      let c := { c with receivedQos2States := c.receivedQos2States.eraseP (storedAs id) }
      (c.sendMessage (.pubcomp { packetIdentifier := id })).andThen
        (·.deliverToPublishWaiters publish)

def handlePubcomp (c : Client) (pubcomp : Ack) : Reaction :=
  let id := pubcomp.packetIdentifier
  match c.publishedMessages.find? (·.named id) with
  | none => { state := c }
  | some toFinish => c.finishPublish id toFinish (.value [pubcomp.reasonCode]) []

/-- `puback_sent_handler` -/
def handlePubackSent (c : Client) : Reaction :=
  if c.clientReceiveQuota < c.connectOpts.receiveMaximum then
    { state := { c with clientReceiveQuota := c.clientReceiveQuota + 1 } }
  else { state := c }

end Client
end Mqtt5.ClientState
