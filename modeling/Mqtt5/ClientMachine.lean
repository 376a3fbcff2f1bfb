import Mqtt5.ClientHandlers

/-!
# The client as a program that is called back

The transition table of `connection_sm_t`, what the library's user and the outside world
can do, and the program they make together. The state machine library is taken to enter a
transition's target before it runs the action, to run a nested `process_event` at once,
and to leave a region alone that has no transition for an event.
-/
namespace Mqtt5.ClientState
open WirePrimitives WirePublish WireConnect WireControlPacket CallMachine
open WireSubscribe hiding TopicFilter
open TopicMatching

/-! ## The transition table -/

/-- The rows of the main region, a transition without action doing nothing. -/
def mainTable : MainState → Event → Option (MainState × (Client → Reaction))
  | .idle, .handshake => some (.startHandshake, fun c => { state := c })
  | .handshaking, .packetReceived (.connack p) => some (.connected, (·.handleConnack p))
  | .handshaking, .disconnect => some (.idle, (·.close))
  | .connected, .packetReceived (.puback p) => some (.connected, (·.handlePuback p))
  | .connected, .packetReceived (.suback p) => some (.connected, (·.handleSuback p))
  | .connected, .packetReceived (.unsuback p) => some (.connected, (·.handleUnsuback p))
  | .connected, .packetReceived (.publish p) => some (.connected, (·.handlePublish p))
  | .connected, .packetReceived (.pubrec p) => some (.connected, (·.handlePubrec p))
  | .connected, .packetReceived (.pubrel p) => some (.connected, (·.handlePubrel p))
  | .connected, .packetReceived (.pubcomp p) => some (.connected, (·.handlePubcomp p))
  | .connected, .pubackSent => some (.connected, (·.handlePubackSent))
  | _, _ => none

def rxTable : RxState → Event → Option (RxState × (Client → Reaction))
  | .idle, .handshake => some (.receiving, (·.receiveOneMessage))
  | .receiving, .packetReceived _ => some (.receiving, (·.receiveOneMessage))
  | .receiving, .disconnect => some (.idle, (·.close))
  | _, _ => none

def pingTable : PingState → Event → Option (PingState × (Client → Reaction))
  | .idle, .handshakeDone => some (.waiting, (·.startPingTimer))
  | .waiting, .disconnect => some (.idle, (·.stopPingTimer))
  | .waiting, .pingTimeout => some (.waiting, fun c => c.sendPing.andThen (·.startPingTimer))
  | _, _ => none

def keepAliveTable : KeepAliveState → Event → Option (KeepAliveState × (Client → Reaction))
  | .idle, .handshakeDone => some (.waiting, (·.startKeepAliveTimer))
  | .waiting, .packetReceived _ => some (.waiting, (·.startKeepAliveTimer))
  | .waiting, .keepAliveTimeout => some (.idle, (·.close))
  | .waiting, .disconnect => some (.idle, (·.stopKeepAliveTimer))
  | _, _ => none

namespace Client

/-- A region takes the transition its table has, if any; the main region's turn is what an
observer sees of an event. -/
def dispatch (c : Client) (e : Event) : Region → Reaction
  | .main =>
      ({ state := c, effects := [.event e c.main] } : Reaction).andThen fun c =>
        match mainTable c.main e with
        | some (main, action) => action { c with main }
        | none => { state := c }
  | .rx => match rxTable c.rx e with
    | some (rx, action) => action { c with rx }
    | none => { state := c }
  | .ping => match pingTable c.ping e with
    | some (ping, action) => action { c with ping }
    | none => { state := c }
  | .keepAlive => match keepAliveTable c.keepAlive e with
    | some (keepAlive, action) => action { c with keepAlive }
    | none => { state := c }

/-- The transition from `start_handshake`, tried again after it was taken. -/
def anonymous (c : Client) : Reaction :=
  if c.main = .startHandshake then
    ({ c with main := .handshaking }.startConnectTimer.andThen (·.sendConnect)).andThen fun c =>
      { state := c, calls := [.anonymous] }
  else { state := c }

end Client

/-! ## Actions -/

/-- What the library's user can call. -/
inductive Operation
  /-- `client::handshaker` keeps the options. -/
  | handshaker (opts : ConnectOptions)
  /-- `connect_sender::connect` keeps the receiver. -/
  | connect (receiver : Receiver)
  /-- `connect_sender::operation::start` -/
  | startConnect
  | publish (message : Publish)
  | subscribe (subscriptions : List Client.SingleSubscription) (modifier : Subscribe → Subscribe)
  | unsubscribe (unsub : Unsubscribe)
  | filterSubscribe (filter : TopicFilter) (receiver : Receiver)
  | disconnect (reason : DisconnectReason)
  | close

inductive Action
  /-- Go on with the call on top. -/
  | run
  | operate (op : Operation)
  /-- The user's code returns. -/
  | return
  /-- The reader finds a packet in the buffer, or has to wait for one. -/
  | buffered (packet : ControlPacket)
  | suspend
  /-- The user's code is run by the event loop. -/
  | enter
  | readValue (packet : ControlPacket)
  | readDone
  | writeValue (i : ℕ)
  | writeDone (i : ℕ)
  | connectAndPingTimer
  | keepAliveTimer

namespace Client

def operate (c : Client) : Operation → Reaction
  | .handshaker opts => { state := { c with connectOpts := opts } }
  | .connect receiver =>
      { state := { c with connectReceivers := c.connectReceivers ++ [receiver] } }
  | .startConnect => c.startConnect
  | .publish message => c.startPublish message
  | .subscribe subscriptions modifier => c.startSubscribe subscriptions modifier
  | .unsubscribe unsub => c.startUnsubscribe unsub
  | .filterSubscribe filter receiver => c.startFilterSubscribe filter receiver
  | .disconnect reason => c.controlPacketWriter (.disconnect { reason }) .disconnector
  | .close => c.close

/-- The user's code goes on after a call it made, and catches what the call throws. -/
def operateFrom (c : Client) (op : Operation) : Reaction :=
  let r := c.operate op
  { r with calls := (if r.threw then [] else r.calls) ++ [.user], threw := false }

/-- A call whose course the program decides. -/
def exec (c : Client) : Call → Option Reaction
  | .dispatch region e => some (c.dispatch e region)
  | .anonymous => some c.anonymous
  | .close => some c.close
  | .maybeSendQueuedPublish => some c.maybeSendQueuedPublish
  | .notifyConnectorReceivers success => some (c.notifyConnectorReceivers success)
  | .connectorReceiver receiver success =>
      some { state := c, calls := [.user], effects := [.connector receiver success] }
  | .publishWaiter receiver publish =>
      some { state := c, calls := [.user], effects := [.waiter receiver publish] }
  | .user | .receiveOneMessage => none

def respond (c : Client) : Call → Action → Option Reaction
  | call, .run => c.exec call
  | .user, .operate op => some (c.operateFrom op)
  | .user, .return => some { state := c }
  | .receiveOneMessage, .buffered packet => some (c.processEvent (.packetReceived packet))
  | .receiveOneMessage, .suspend =>
      some { state := { c with pendingReads := c.pendingReads + 1 } }
  | _, _ => none

/-- The value of a write's receiver. -/
def writeCompleted (c : Client) : WriteReceiver → Reaction
  | .message => c.processEvent .packetWritten
  | .puback => c.processEvent .pubackSent
  | .disconnect => c.close
  | .disconnector => c.close.andThen fun c => { state := c, calls := [.user] }

/-- A write that was stopped raises an event only where the receiver has one for it. -/
def writeStopped (c : Client) : WriteReceiver → Reaction
  | .message => c.processEvent .disconnect
  | .puback | .disconnect => { state := c }
  | .disconnector => { state := c, calls := [.user] }

/-- What the event loop can deliver. An error of a read or of a write ends the program. -/
def arrive (c : Client) : Action → Option Reaction
  | .enter => some { state := c, calls := [.user] }
  | .readValue packet =>
      if c.pendingReads = 0 then none
      else some ({ c with pendingReads := c.pendingReads - 1 }.processEvent
        (.packetReceived packet))
  | .readDone =>
      if c.pendingReads = 0 then none
      else some ({ c with pendingReads := c.pendingReads - 1 }.processEvent .disconnect)
  | .writeValue i => c.pendingWrites[i]?.map fun write =>
      { c with pendingWrites := c.pendingWrites.eraseIdx i }.writeCompleted write.receiver
  | .writeDone i => c.pendingWrites[i]?.map fun write =>
      { c with pendingWrites := c.pendingWrites.eraseIdx i }.writeStopped write.receiver
  | .connectAndPingTimer => c.connectAndPingTimer.map fun wait =>
      { c with connectAndPingTimer := none }.processEvent wait.event
  | .keepAliveTimer => c.keepAliveTimer.map fun wait =>
      { c with keepAliveTimer := none }.processEvent wait.event
  | _ => none

end Client

/-- An exception passes through the library to the user's code that called it, or out of what
the event loop runs. There the program may end: an exception out of a packet's handler is caught
by the reader, whose `set_error` calls `std::terminate`. The model drops the calls that the
exception skips and lets the run go on, so it has all runs of the program and more. -/
def client : Program Client Call Action Effect where
  respond := Client.respond
  arrive := Client.arrive
  catches call := call = .user

abbrev Config := CallMachine.Config Client Call Effect

def initial : Config := { state := {} }

end Mqtt5.ClientState
