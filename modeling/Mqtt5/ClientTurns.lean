import Mqtt5.ClientMachine

/-!
# What one turn of the client can do

Most of what the client runs leaves its exchanges alone: the publishes, subscribes and
unsubscribes under way, the quotas, the identifiers. `Turn` names the calls that do not,
and `MainTurn` what the main region makes of an event.
-/
namespace Mqtt5.ClientState
open WirePrimitives WirePublish WireConnect WireControlPacket CallMachine ByteWriter
open WireSubscribe hiding TopicFilter
open TopicMatching

namespace Client

/-- What the client's own requests are tracked by. -/
structure SameSendSide (c d : Client) : Prop where
  publishedMessages : d.publishedMessages = c.publishedMessages
  subscribeMessages : d.subscribeMessages = c.subscribeMessages
  unsubscribeMessages : d.unsubscribeMessages = c.unsubscribeMessages
  queuedPublishes : d.queuedPublishes = c.queuedPublishes
  serverMaxSendQuota : d.serverMaxSendQuota = c.serverMaxSendQuota
  serverSendQuota : d.serverSendQuota = c.serverSendQuota
  nextPacketIdentifier : d.nextPacketIdentifier = c.nextPacketIdentifier
  main : d.main = c.main

/-- What the server's publishes are tracked by. -/
structure SameReceiveSide (c d : Client) : Prop where
  receivedQos2States : d.receivedQos2States = c.receivedQos2States
  clientReceiveQuota : d.clientReceiveQuota = c.clientReceiveQuota
  connectOpts : d.connectOpts = c.connectOpts
  main : d.main = c.main

theorem SameSendSide.trans {c d e : Client} (h : c.SameSendSide d) (h' : d.SameSendSide e) :
    c.SameSendSide e where
  publishedMessages := h'.publishedMessages.trans h.publishedMessages
  subscribeMessages := h'.subscribeMessages.trans h.subscribeMessages
  unsubscribeMessages := h'.unsubscribeMessages.trans h.unsubscribeMessages
  queuedPublishes := h'.queuedPublishes.trans h.queuedPublishes
  serverMaxSendQuota := h'.serverMaxSendQuota.trans h.serverMaxSendQuota
  serverSendQuota := h'.serverSendQuota.trans h.serverSendQuota
  nextPacketIdentifier := h'.nextPacketIdentifier.trans h.nextPacketIdentifier
  main := h'.main.trans h.main

theorem SameReceiveSide.trans {c d e : Client} (h : c.SameReceiveSide d)
    (h' : d.SameReceiveSide e) : c.SameReceiveSide e where
  receivedQos2States := h'.receivedQos2States.trans h.receivedQos2States
  clientReceiveQuota := h'.clientReceiveQuota.trans h.clientReceiveQuota
  connectOpts := h'.connectOpts.trans h.connectOpts
  main := h'.main.trans h.main

/-- All that messages are exchanged by. -/
structure SameExchanges (c d : Client) : Prop where
  send : c.SameSendSide d
  receive : c.SameReceiveSide d

theorem SameExchanges.refl (c : Client) : c.SameExchanges c := by
  constructor <;> constructor <;> rfl

theorem SameExchanges.trans {c d e : Client} (h : c.SameExchanges d) (h' : d.SameExchanges e) :
    c.SameExchanges e :=
  ⟨h.send.trans h'.send, h.receive.trans h'.receive⟩

theorem SameExchanges.main {c d : Client} (h : c.SameExchanges d) : d.main = c.main := h.send.main

/-- The fields that exchanges do not look at. -/
theorem SameExchanges.aside (c : Client) {connectReceivers : List Receiver} {keepAliveUsed : UInt16}
    {clientId : Bytes} {publishWaiters : List FilteredSubscription} {rx : RxState}
    {ping : PingState} {keepAlive : KeepAliveState}
    {connectAndPingTimer keepAliveTimer : Option PendingWait} {pendingReads : ℕ}
    {pendingWrites : List PendingWrite} :
    c.SameExchanges { c with
      connectReceivers, keepAliveUsed, clientId, publishWaiters, rx, ping, keepAlive
      connectAndPingTimer, keepAliveTimer, pendingReads, pendingWrites } := by
  constructor <;> constructor <;> rfl

end Client

/-! ## Writes -/

/-- A packet whose encoding does not throw. -/
def Encodes (packet : ControlPacket) : Prop := packet.serialize.thrown = none

instance (packet : ControlPacket) : Decidable (Encodes packet) :=
  inferInstanceAs (Decidable (_ = none))

theorem encodes_iff {packet : ControlPacket} :
    Encodes packet ↔ ∃ frame, packet.serialize = .emit frame := by
  constructor
  · intro h
    have hthrown : packet.serialize.thrown = none := h
    exact ⟨packet.serialize.tokens, by rw [Written.emit, ← hthrown]⟩
  · rintro ⟨frame, h⟩
    rw [Encodes, h]
    rfl

theorem encodes_puback (packetIdentifier : UInt16) : Encodes (.puback { packetIdentifier }) :=
  encodes_iff.mpr (Ack.serialize_emits _ _ _ 0)

theorem encodes_pubrec (packetIdentifier : UInt16) : Encodes (.pubrec { packetIdentifier }) :=
  encodes_iff.mpr (Ack.serialize_emits _ _ _ 0)

theorem encodes_pubrel (packetIdentifier : UInt16) (reasonCode : UInt8) :
    Encodes (.pubrel { packetIdentifier, reasonCode }) :=
  encodes_iff.mpr (Ack.serialize_emits _ _ _ _)

theorem encodes_pubcomp (packetIdentifier : UInt16) (reasonCode : UInt8) :
    Encodes (.pubcomp { packetIdentifier, reasonCode }) :=
  encodes_iff.mpr (Ack.serialize_emits _ _ _ _)

theorem encodes_quotaExceeded :
    Encodes (.disconnect { reason := DisconnectReason.quotaExceeded }) := rfl

theorem encodes_pingreq : Encodes .pingreq := rfl

namespace Client

theorem controlPacketWriter_of_encodes (c : Client) {packet : ControlPacket} (h : Encodes packet)
    (receiver : WriteReceiver) : ∃ pendingWrites, c.controlPacketWriter packet receiver =
      { state := { c with pendingWrites }, effects := [.sent packet receiver] } := by
  obtain ⟨frame, hframe⟩ := encodes_iff.mp h
  rw [controlPacketWriter, Written.result_ok_iff.mpr hframe]
  exact ⟨_, rfl⟩

theorem controlPacketWriter_of_not_encodes (c : Client) {packet : ControlPacket}
    (h : ¬ Encodes packet) (receiver : WriteReceiver) :
    c.controlPacketWriter packet receiver = { state := c, threw := true } := by
  rw [controlPacketWriter]
  split
  case h_1 frame hframe => exact absurd (encodes_iff.mpr ⟨frame, Written.result_ok_iff.mp hframe⟩) h
  case h_2 => rfl

theorem sendMessage_of_encodes (c : Client) {packet : ControlPacket} (h : Encodes packet) :
    ∃ pendingWrites, c.sendMessage packet =
      { state := { c with pendingWrites }, effects := [.sent packet .message] } :=
  c.controlPacketWriter_of_encodes h .message

theorem sendMessage_of_not_encodes (c : Client) {packet : ControlPacket} (h : ¬ Encodes packet) :
    c.sendMessage packet = { state := c, threw := true } :=
  c.controlPacketWriter_of_not_encodes h .message

theorem startFn_of_encodes (c : Client) {op : PublishOpStarter} (h : Encodes (.publish op.message)) :
    ∃ pendingWrites, c.startFn op =
      { state := { c with
          serverSendQuota := c.serverSendQuota - 1
          publishedMessages := c.publishedMessages ++
            [⟨op.message, op.receiver, InFlightPublish.startState op.message⟩]
          pendingWrites }
        effects := [.started op.receiver op.message, .sent (.publish op.message) .message] } := by
  obtain ⟨pendingWrites, hsend⟩ :=
    { c with serverSendQuota := c.serverSendQuota - 1 }.sendMessage_of_encodes h
  rw [startFn, hsend]
  exact ⟨pendingWrites, rfl⟩

/-- The slot stays taken, and the receiver is gone with the closure that held it. -/
theorem startFn_of_not_encodes (c : Client) {op : PublishOpStarter}
    (h : ¬ Encodes (.publish op.message)) : c.startFn op =
      { state := { c with serverSendQuota := c.serverSendQuota - 1 }, threw := true } := by
  rw [startFn, sendMessage_of_not_encodes _ h]
  rfl

theorem maybeSend_of_empty {c : Client} (h : c.serverSendQuota < c.serverMaxSendQuota)
    (hqueue : c.queuedPublishes = []) : c.maybeSendQueuedPublish =
      { state := { c with serverSendQuota := c.serverSendQuota + 1 } } := by
  simp only [maybeSendQueuedPublish, if_pos h, hqueue]

theorem maybeSend_of_queued {c : Client} (h : c.serverSendQuota < c.serverMaxSendQuota)
    {next : PublishOpStarter} {queued : List PublishOpStarter}
    (hqueue : c.queuedPublishes = next :: queued) : c.maybeSendQueuedPublish =
      { c with serverSendQuota := c.serverSendQuota + 1, queuedPublishes := queued }.startFn
        next := by
  simp only [maybeSendQueuedPublish, if_pos h, hqueue]

theorem maybeSend_of_full {c : Client} (h : ¬ c.serverSendQuota < c.serverMaxSendQuota) :
    c.maybeSendQueuedPublish = { state := c } := by
  rw [maybeSendQueuedPublish, if_neg h]

/-- All slots are free already, or one becomes free and the next queued publish takes it. -/
theorem maybeSend_cases (c : Client) :
    c.maybeSendQueuedPublish = { state := c } ∨
      c.maybeSendQueuedPublish = { state := { c with serverSendQuota := c.serverSendQuota + 1 } } ∨
      ∃ next queued, c.queuedPublishes = next :: queued ∧ c.maybeSendQueuedPublish =
        { c with serverSendQuota := c.serverSendQuota + 1, queuedPublishes := queued }.startFn
          next := by
  by_cases h : c.serverSendQuota < c.serverMaxSendQuota
  · by_cases hempty : c.queuedPublishes = []
    · exact .inr (.inl (maybeSend_of_empty h hempty))
    · obtain ⟨next, queued, hqueue⟩ := List.exists_cons_of_ne_nil hempty
      exact .inr (.inr ⟨next, queued, hqueue, maybeSend_of_queued h hqueue⟩)
  · exact .inl (maybeSend_of_full h)

/-! ### Requests -/

/-- The starter of a publish, with the identifier it draws. -/
def nextStarter (c : Client) (message : Publish) : PublishOpStarter :=
  ⟨{ message with packetIdentifier := c.nextPacketIdentifier.next }, c.nextPacketIdentifier.drawn⟩

theorem startPublish_of_qos0 (c : Client) {message : Publish}
    (hqos : message.qualityOfService = qos0) : c.startPublish message =
      (c.sendMessage (.publish message)).andThen fun c =>
        { state := c, calls := [.user], effects := [.published message] } := by
  rw [startPublish, if_pos hqos]

theorem startPublish_of_free (c : Client) {message : Publish}
    (hqos : message.qualityOfService ≠ qos0) (hfree : c.serverSendQuota > 0) :
    c.startPublish message =
      { c with nextPacketIdentifier := c.nextPacketIdentifier.advance }.startFn
        (c.nextStarter message) := by
  rw [startPublish, if_neg hqos]
  exact if_pos hfree

theorem startPublish_of_taken (c : Client) {message : Publish}
    (hqos : message.qualityOfService ≠ qos0) (htaken : ¬ c.serverSendQuota > 0) :
    c.startPublish message =
      { state := { c with
          nextPacketIdentifier := c.nextPacketIdentifier.advance
          queuedPublishes := c.queuedPublishes ++ [c.nextStarter message] } } := by
  rw [startPublish, if_neg hqos]
  exact if_neg htaken

/-- A subscribe is sent and kept, or its encoding throws; the identifier is drawn. -/
theorem startSubscribe_cases (c : Client) (subscriptions : List SingleSubscription)
    (modifier : Subscribe → Subscribe) :
    (∃ message pendingWrites, message.packetIdentifier = c.nextPacketIdentifier.next ∧
      c.startSubscribe subscriptions modifier =
        { state := { c with
            nextPacketIdentifier := c.nextPacketIdentifier.advance
            pendingWrites
            subscribeMessages := c.subscribeMessages ++ [⟨message, c.nextPacketIdentifier.drawn⟩] }
          effects := [.sent (.subscribe message) .message] }) ∨
      c.startSubscribe subscriptions modifier =
        { state := { c with nextPacketIdentifier := c.nextPacketIdentifier.advance }
          threw := true } := by
  unfold startSubscribe
  dsimp only
  set message : Subscribe := { modifier _ with packetIdentifier := c.nextPacketIdentifier.next }
  set d := { c with nextPacketIdentifier := c.nextPacketIdentifier.advance }
  by_cases hencodes : Encodes (.subscribe message)
  · obtain ⟨pendingWrites, hsend⟩ := d.sendMessage_of_encodes hencodes
    rw [hsend]
    exact .inl ⟨message, pendingWrites, rfl, rfl⟩
  · rw [d.sendMessage_of_not_encodes hencodes]
    exact .inr rfl

/-- The same of an unsubscribe. -/
theorem startUnsubscribe_cases (c : Client) (unsub : Unsubscribe) :
    (∃ message pendingWrites, message.packetIdentifier = c.nextPacketIdentifier.next ∧
      c.startUnsubscribe unsub =
        { state := { c with
            nextPacketIdentifier := c.nextPacketIdentifier.advance
            pendingWrites
            unsubscribeMessages :=
              c.unsubscribeMessages ++ [⟨message, c.nextPacketIdentifier.drawn⟩] }
          effects := [.sent (.unsubscribe message) .message] }) ∨
      c.startUnsubscribe unsub =
        { state := { c with nextPacketIdentifier := c.nextPacketIdentifier.advance }
          threw := true } := by
  unfold startUnsubscribe
  dsimp only
  set message : Unsubscribe := { unsub with packetIdentifier := c.nextPacketIdentifier.next }
  set d := { c with nextPacketIdentifier := c.nextPacketIdentifier.advance }
  by_cases hencodes : Encodes (.unsubscribe message)
  · obtain ⟨pendingWrites, hsend⟩ := d.sendMessage_of_encodes hencodes
    rw [hsend]
    exact .inl ⟨message, pendingWrites, rfl, rfl⟩
  · rw [d.sendMessage_of_not_encodes hencodes]
    exact .inr rfl

end Client

/-! ## The two sides of the handlers -/

/-- The effects of answering the server's publishes. -/
def Effect.Receiving : Effect → Prop
  | .sent (.puback _) receiver => receiver = .puback
  | .sent (.pubrec _) receiver | .sent (.pubcomp _) receiver => receiver = .message
  | .sent (.disconnect _) receiver => receiver = .disconnect
  | .delivered _ => True
  | _ => False

/-- The effects of the client's own requests. -/
def Effect.Sending : Effect → Prop
  | .sent (.publish _) receiver | .sent (.subscribe _) receiver | .sent (.unsubscribe _) receiver
  | .sent (.pubrel _) receiver => receiver = .message
  | .started _ _ | .advanced _ | .completed _ _ | .published _ => True
  | _ => False

/-- The user's receiver, and what a handler has still to do once it returns. -/
def Call.After : Call → Prop := (· ∈ [.user, .close, .maybeSendQueuedPublish])

/-- The calls of user code that a delivery makes. -/
def Call.Waiter : Call → Prop
  | .publishWaiter _ _ => True
  | _ => False

namespace Client

/-- A reaction of the receive side. -/
abbrev Receives (c : Client) (r : Reaction) : Prop :=
  r.Ensures c.SameSendSide Call.Waiter Effect.Receiving

theorem controlPacketWriter_ensures (c : Client) (packet : ControlPacket)
    (receiver : WriteReceiver) (K : Call → Prop) :
    (c.controlPacketWriter packet receiver).Ensures c.SameExchanges K
      (· = .sent packet receiver) := by
  by_cases h : Encodes packet
  · obtain ⟨pendingWrites, hwriter⟩ := c.controlPacketWriter_of_encodes h receiver
    rw [hwriter]
    exact ⟨.aside c, by simp, by simp⟩
  · rw [c.controlPacketWriter_of_not_encodes h]
    exact ⟨.refl c, by simp, by simp⟩

theorem receives_writer {c d : Client} (h : c.SameSendSide d) {packet : ControlPacket}
    {receiver : WriteReceiver} (he : (Effect.sent packet receiver).Receiving) :
    c.Receives (d.controlPacketWriter packet receiver) := by
  have hwriter := d.controlPacketWriter_ensures packet receiver Call.Waiter
  refine ⟨h.trans hwriter.state.send, hwriter.calls, ?_⟩
  intro e hmem
  rw [hwriter.effects e hmem]
  exact he

theorem receives_deliver {c d : Client} (h : c.SameSendSide d) (publish : Publish) :
    c.Receives (d.deliverToPublishWaiters publish) := by
  refine ⟨h.trans (SameExchanges.aside d).send, ?_, by simp [deliverToPublishWaiters, Effect.Receiving]⟩
  intro call hcall
  simp only [deliverToPublishWaiters, List.mem_flatMap, List.mem_map] at hcall
  obtain ⟨item, -, receiver, -, rfl⟩ := hcall
  trivial

theorem receives_takeQuota (c : Client) : c.Receives c.takeReceiveQuota := by
  rw [takeReceiveQuota]
  split
  · refine ⟨?_, by simp, by simp⟩
    constructor <;> rfl
  · exact receives_writer (SameExchanges.refl c).send rfl

theorem storeQos2_send (c : Client) (publish : Publish) : c.SameSendSide (c.storeQos2 publish) := by
  rw [storeQos2]
  split <;> constructor <;> rfl

theorem handlePublish_receives (c : Client) (publish : Publish) :
    c.Receives (c.handlePublish publish) := by
  rw [handlePublish]
  apply Reaction.Ensures.andThen
  · split
    · exact c.receives_takeQuota
    · exact ⟨(SameExchanges.refl c).send, by simp, by simp⟩
  · intro d h
    split
    · exact (receives_writer h (by rfl)).andThen fun e he => receives_deliver he publish
    · split
      · exact receives_writer (h.trans (d.storeQos2_send publish)) rfl
      · exact receives_deliver h publish

theorem handlePubrel_receives (c : Client) (pubrel : Ack) : c.Receives (c.handlePubrel pubrel) := by
  have hrefl := (SameExchanges.refl c).send
  unfold handlePubrel
  dsimp only
  split
  · exact receives_writer hrefl rfl
  · refine (receives_writer ?_ (by rfl)).andThen fun e he => receives_deliver he _
    constructor <;> rfl

theorem handlePubackSent_eq (c : Client) : ∃ clientReceiveQuota,
    c.handlePubackSent = { state := { c with clientReceiveQuota } } := by
  rw [handlePubackSent]
  split <;> exact ⟨_, rfl⟩

theorem handlePubackSent_receives (c : Client) : c.Receives c.handlePubackSent := by
  obtain ⟨_, hsent⟩ := c.handlePubackSent_eq
  rw [hsent]
  refine ⟨?_, by simp, by simp⟩
  constructor <;> rfl

theorem controlPacketWriter_threw (c : Client) {packet : ControlPacket} (h : Encodes packet)
    (receiver : WriteReceiver) : (c.controlPacketWriter packet receiver).threw = false := by
  obtain ⟨pendingWrites, hwriter⟩ := c.controlPacketWriter_of_encodes h receiver
  rw [hwriter]

/-- The answers of the receive side can always be encoded. -/
theorem handlePublish_threw (c : Client) (publish : Publish) :
    (c.handlePublish publish).threw = false := by
  rw [handlePublish]
  refine Reaction.andThen_threw ?_ fun d => ?_
  · split
    · rw [takeReceiveQuota]
      split
      · rfl
      · exact c.controlPacketWriter_threw encodes_quotaExceeded .disconnect
    · rfl
  · split
    · exact Reaction.andThen_threw (d.controlPacketWriter_threw (encodes_puback _) .puback)
        fun _ => rfl
    · split
      · exact controlPacketWriter_threw _ (encodes_pubrec _) .message
      · rfl

theorem handlePubrel_threw (c : Client) (pubrel : Ack) : (c.handlePubrel pubrel).threw = false := by
  unfold handlePubrel
  dsimp only
  split
  · exact c.controlPacketWriter_threw (encodes_pubcomp _ _) .message
  · exact Reaction.andThen_threw (controlPacketWriter_threw _ (encodes_pubcomp _ _) .message)
      fun _ => rfl

/-- A reaction of the send side, and what it may leave behind. -/
abbrev Sends (c : Client) (K : Call → Prop) (r : Reaction) : Prop :=
  r.Ensures c.SameReceiveSide K Effect.Sending

variable {K : Call → Prop}

theorem sends_message {c d : Client} (h : c.SameReceiveSide d) {packet : ControlPacket}
    (he : (Effect.sent packet .message).Sending) : c.Sends K (d.sendMessage packet) := by
  have hwriter := d.controlPacketWriter_ensures packet .message K
  refine ⟨h.trans hwriter.state.receive, hwriter.calls, ?_⟩
  intro e hmem
  rw [hwriter.effects e hmem]
  exact he

theorem sends_of_state {c d : Client} (h : c.SameReceiveSide d) : c.Sends K { state := d } :=
  ⟨h, by simp, by simp⟩

theorem sends_startFn {c d : Client} (h : c.SameReceiveSide d) (op : PublishOpStarter) :
    c.Sends K (d.startFn op) := by
  rw [startFn]
  refine (sends_message (h.trans ?_) (by rfl)).andThen fun e he => ⟨he.trans ?_, by simp, ?_⟩
  · constructor <;> rfl
  · constructor <;> rfl
  · simp [Effect.Sending]

theorem sends_maybeSend {c d : Client} (h : c.SameReceiveSide d) :
    c.Sends K d.maybeSendQueuedPublish := by
  rcases d.maybeSend_cases with hfull | hempty | ⟨next, queued, -, hnext⟩
  · rw [hfull]
    exact sends_of_state h
  · rw [hempty]
    refine sends_of_state (h.trans ?_)
    constructor <;> rfl
  · rw [hnext]
    refine sends_startFn (h.trans ?_) next
    constructor <;> rfl

theorem maybeSend_sends (c : Client) : c.Sends (fun _ => False) c.maybeSendQueuedPublish :=
  sends_maybeSend (SameExchanges.refl c).receive

theorem sends_finishPublish (c : Client) (id : UInt16) (msg : InFlightPublish)
    (completion : Completion) {after : List Call}
    (hafter : ∀ call ∈ after, call ∈ [.close, .maybeSendQueuedPublish]) :
    c.Sends Call.After (c.finishPublish id msg completion after) := by
  refine ⟨?_, ?_, by simp [finishPublish, Effect.Sending]⟩
  · constructor <;> rfl
  · intro call hcall
    rcases List.mem_cons.mp hcall with rfl | hcall
    · simp [Call.After]
    · exact List.mem_cons_of_mem _ (hafter call hcall)

/-- An acknowledged subscribe is forgotten and its receiver is told the reason codes. -/
theorem handleSuback_cases (c : Client) (suback : ReasonCodes) :
    (∃ msg, c.subscribeMessages.find? (fun msg => suback.packetIdentifier = msg.message.packetIdentifier) =
        some msg ∧
      c.handleSuback suback =
        { state := { c with
            subscribeMessages := c.subscribeMessages.eraseP fun msg =>
              suback.packetIdentifier = msg.message.packetIdentifier }
          calls := [.user]
          effects := [.completed msg.receiver (.value suback.reasonCodes)] }) ∨
      c.handleSuback suback = { state := c } := by
  unfold handleSuback
  dsimp only
  split
  case h_1 msg hfind => exact .inl ⟨msg, hfind, rfl⟩
  case h_2 => exact .inr rfl

/-- The same of an unsubscribe. -/
theorem handleUnsuback_cases (c : Client) (unsuback : ReasonCodes) :
    (∃ msg, c.unsubscribeMessages.find? (fun msg => unsuback.packetIdentifier = msg.message.packetIdentifier) =
        some msg ∧
      c.handleUnsuback unsuback =
        { state := { c with
            unsubscribeMessages := c.unsubscribeMessages.eraseP fun msg =>
              unsuback.packetIdentifier = msg.message.packetIdentifier }
          calls := [.user]
          effects := [.completed msg.receiver (.value unsuback.reasonCodes)] }) ∨
      c.handleUnsuback unsuback = { state := c } := by
  unfold handleUnsuback
  dsimp only
  split
  case h_1 msg hfind => exact .inl ⟨msg, hfind, rfl⟩
  case h_2 => exact .inr rfl

theorem startPublish_sends (c : Client) (message : Publish) :
    c.Sends (· = .user) (c.startPublish message) := by
  by_cases hqos : message.qualityOfService = qos0
  · rw [c.startPublish_of_qos0 hqos]
    exact (sends_message (SameExchanges.refl c).receive (by rfl)).andThen fun d hd =>
      ⟨hd, by simp, by simp [Effect.Sending]⟩
  · by_cases hfree : c.serverSendQuota > 0
    · rw [c.startPublish_of_free hqos hfree]
      refine sends_startFn ?_ _
      constructor <;> rfl
    · rw [c.startPublish_of_taken hqos hfree]
      apply sends_of_state
      constructor <;> rfl

theorem startSubscribe_sends (c : Client) (subscriptions : List SingleSubscription)
    (modifier : Subscribe → Subscribe) :
    c.Sends (· = .user) (c.startSubscribe subscriptions modifier) := by
  rcases c.startSubscribe_cases subscriptions modifier with
    ⟨message, pendingWrites, -, hstart⟩ | hstart
  · rw [hstart]
    refine ⟨?_, by simp, by simp [Effect.Sending]⟩
    constructor <;> rfl
  · rw [hstart]
    refine ⟨?_, by simp, by simp⟩
    constructor <;> rfl

theorem startUnsubscribe_sends (c : Client) (unsub : Unsubscribe) :
    c.Sends (· = .user) (c.startUnsubscribe unsub) := by
  rcases c.startUnsubscribe_cases unsub with ⟨message, pendingWrites, -, hstart⟩ | hstart
  · rw [hstart]
    refine ⟨?_, by simp, by simp [Effect.Sending]⟩
    constructor <;> rfl
  · rw [hstart]
    refine ⟨?_, by simp, by simp⟩
    constructor <;> rfl

/-! ### What a packet of the receive side does -/

/-- The receive quota's share in handling a publish: a slot is taken, or none was left and
a DISCONNECT has been sent. -/
inductive QuotaTaken (c : Client) : Client → List Effect → Prop
  | free (h : c.clientReceiveQuota > 0) :
      QuotaTaken c { c with clientReceiveQuota := c.clientReceiveQuota - 1 } []
  | spent (h : ¬ c.clientReceiveQuota > 0) (pendingWrites : List PendingWrite) :
      QuotaTaken c { c with pendingWrites }
        [.sent (.disconnect { reason := DisconnectReason.quotaExceeded }) .disconnect]

theorem takeReceiveQuota_taken (c : Client) : ∃ d effects, QuotaTaken c d effects ∧
    c.takeReceiveQuota = { state := d, effects } := by
  rw [takeReceiveQuota]
  split
  case isTrue hfree => exact ⟨_, _, .free hfree, rfl⟩
  case isFalse hspent =>
    obtain ⟨pendingWrites, hwriter⟩ :=
      c.controlPacketWriter_of_encodes encodes_quotaExceeded .disconnect
    exact ⟨_, _, .spent hspent pendingWrites, hwriter⟩

/-- The client with some waiters gone, and some writes more. -/
def Delivered (c d : Client) : Prop :=
  ∃ publishWaiters pendingWrites, d = { c with publishWaiters, pendingWrites }

theorem handlePublish_of_qos0 (c : Client) {publish : Publish}
    (hqos : publish.qualityOfService = qos0) : ∃ d calls, Delivered c d ∧
      c.handlePublish publish = { state := d, calls, effects := [.delivered publish] } := by
  have hqos1 : publish.qualityOfService ≠ qos1 := by rw [hqos]; decide
  have hqos2 : publish.qualityOfService ≠ qos2 := by rw [hqos]; decide
  rw [handlePublish, if_neg (not_not.mpr hqos), Reaction.andThen_of_not_threw rfl, if_neg hqos1,
    if_neg hqos2]
  exact ⟨_, _, ⟨_, _, rfl⟩, rfl⟩

theorem handlePublish_of_qos1 (c : Client) {publish : Publish}
    (hqos : publish.qualityOfService = qos1) : ∃ d e effects calls, QuotaTaken c d effects ∧
      Delivered d e ∧ c.handlePublish publish =
        { state := e, calls
          effects := .delivered publish ::
            .sent (.puback { packetIdentifier := publish.packetIdentifier }) .puback :: effects } := by
  have hqos0 : publish.qualityOfService ≠ qos0 := by rw [hqos]; decide
  obtain ⟨d, effects, htaken, hquota⟩ := c.takeReceiveQuota_taken
  obtain ⟨pendingWrites, hwriter⟩ :=
    d.controlPacketWriter_of_encodes (encodes_puback publish.packetIdentifier) .puback
  rw [handlePublish, if_pos hqos0, hquota, Reaction.andThen_of_not_threw rfl, if_pos hqos, hwriter,
    Reaction.andThen_of_not_threw rfl]
  exact ⟨d, _, effects, _, htaken, ⟨_, _, rfl⟩, rfl⟩

theorem handlePublish_of_qos2 (c : Client) {publish : Publish}
    (hqos : publish.qualityOfService = qos2) : ∃ d effects pendingWrites, QuotaTaken c d effects ∧
      c.handlePublish publish =
        { state := { d.storeQos2 publish with pendingWrites }
          effects := .sent (.pubrec { packetIdentifier := publish.packetIdentifier }) .message ::
            effects } := by
  have hqos0 : publish.qualityOfService ≠ qos0 := by rw [hqos]; decide
  have hqos1 : publish.qualityOfService ≠ qos1 := by rw [hqos]; decide
  obtain ⟨d, effects, htaken, hquota⟩ := c.takeReceiveQuota_taken
  obtain ⟨pendingWrites, hwriter⟩ :=
    (d.storeQos2 publish).sendMessage_of_encodes (encodes_pubrec publish.packetIdentifier)
  rw [handlePublish, if_pos hqos0, hquota, Reaction.andThen_of_not_threw rfl, if_neg hqos1,
    if_pos hqos, hwriter]
  exact ⟨d, effects, pendingWrites, htaken, rfl⟩

/-- The two header bits hold a value that is not a quality of service. -/
theorem handlePublish_of_reserved (c : Client) {publish : Publish}
    (hqos : publish.qualityOfService ∉ [qos0, qos1, qos2]) : ∃ d e effects calls,
      QuotaTaken c d effects ∧ Delivered d e ∧ c.handlePublish publish =
        { state := e, calls, effects := .delivered publish :: effects } := by
  simp only [List.mem_cons, List.not_mem_nil, or_false, not_or] at hqos
  obtain ⟨d, effects, htaken, hquota⟩ := c.takeReceiveQuota_taken
  rw [handlePublish, if_pos hqos.1, hquota, Reaction.andThen_of_not_threw rfl, if_neg hqos.2.1,
    if_neg hqos.2.2]
  exact ⟨d, _, effects, _, htaken, ⟨_, _, rfl⟩, rfl⟩

/-- A publish that is not kept is delivered at once, after a PUBACK or a DISCONNECT or neither. -/
theorem handlePublish_delivers (c : Client) {publish : Publish}
    (hqos : publish.qualityOfService ≠ qos2) : ∃ d calls effects,
      d.receivedQos2States = c.receivedQos2States ∧
      (∀ e ∈ effects, e = .sent (.puback { packetIdentifier := publish.packetIdentifier }) .puback ∨
        e = .sent (.disconnect { reason := DisconnectReason.quotaExceeded }) .disconnect) ∧
      c.handlePublish publish = { state := d, calls, effects := .delivered publish :: effects } := by
  have hquota : ∀ {d : Client} {effects : List Effect}, QuotaTaken c d effects →
      d.receivedQos2States = c.receivedQos2States ∧ ∀ e ∈ effects,
        e = .sent (.disconnect { reason := DisconnectReason.quotaExceeded }) .disconnect := by
    intro d effects htaken
    cases htaken with
    | free => exact ⟨rfl, by simp⟩
    | spent => exact ⟨rfl, by simp⟩
  by_cases hqos0 : publish.qualityOfService = qos0
  · obtain ⟨d, calls, ⟨_, _, hd⟩, hhandle⟩ := c.handlePublish_of_qos0 hqos0
    exact ⟨d, calls, [], by rw [hd], by simp, hhandle⟩
  · by_cases hqos1 : publish.qualityOfService = qos1
    · obtain ⟨d, e, effects, calls, htaken, ⟨_, _, he⟩, hhandle⟩ := c.handlePublish_of_qos1 hqos1
      obtain ⟨hstored, hsent⟩ := hquota htaken
      refine ⟨e, calls, _, by rw [he, ← hstored], ?_, hhandle⟩
      intro e' he'
      obtain first | older := List.mem_cons.mp he'
      · exact .inl first
      · exact .inr (hsent e' older)
    · have hreserved : publish.qualityOfService ∉ [qos0, qos1, qos2] := by
        simp [hqos0, hqos1, hqos]
      obtain ⟨d, e, effects, calls, htaken, ⟨_, _, he⟩, hhandle⟩ :=
        c.handlePublish_of_reserved hreserved
      obtain ⟨hstored, hsent⟩ := hquota htaken
      exact ⟨e, calls, effects, by rw [he, ← hstored], fun e' he' => .inr (hsent e' he'), hhandle⟩

theorem handlePubrel_of_none (c : Client) {pubrel : Ack}
    (h : c.receivedQos2States.find? (storedAs pubrel.packetIdentifier) = none) :
    ∃ pendingWrites, c.handlePubrel pubrel =
      { state := { c with pendingWrites }
        effects := [.sent (.pubcomp { packetIdentifier := pubrel.packetIdentifier
                                      reasonCode := packetIdentifierNotFound }) .message] } := by
  simp only [handlePubrel, h]
  exact c.sendMessage_of_encodes (encodes_pubcomp _ _)

theorem handlePubrel_of_some (c : Client) {pubrel : Ack} {publish : Publish}
    (h : c.receivedQos2States.find? (storedAs pubrel.packetIdentifier) = some publish) :
    ∃ d calls, Delivered { c with receivedQos2States :=
        c.receivedQos2States.eraseP (storedAs pubrel.packetIdentifier) } d ∧
      c.handlePubrel pubrel =
        { state := d, calls
          effects := [.delivered publish,
            .sent (.pubcomp { packetIdentifier := pubrel.packetIdentifier }) .message] } := by
  simp only [handlePubrel, h]
  obtain ⟨pendingWrites, hsend⟩ := sendMessage_of_encodes
    { c with receivedQos2States :=
        c.receivedQos2States.eraseP (storedAs pubrel.packetIdentifier) }
    (encodes_pubcomp pubrel.packetIdentifier 0)
  rw [hsend, Reaction.andThen_of_not_threw rfl]
  exact ⟨_, _, ⟨_, _, rfl⟩, rfl⟩

/-! ### What an acknowledgement does, by what it names -/

section Acknowledgement
variable {c : Client} {ack : Ack} {msg : InFlightPublish}

theorem handlePuback_of_none
    (h : c.publishedMessages.find? (·.named ack.packetIdentifier) = none) :
    c.handlePuback ack = c.maybeSendQueuedPublish := by
  simp only [handlePuback, h]

theorem handlePuback_of_some
    (h : c.publishedMessages.find? (·.named ack.packetIdentifier) = some msg) :
    c.handlePuback ack =
      if msg.state = .waitingPuback then
        c.finishPublish ack.packetIdentifier msg (.value [ack.reasonCode]) [.maybeSendQueuedPublish]
      else c.finishPublish ack.packetIdentifier msg .done [.close, .maybeSendQueuedPublish] := by
  simp only [handlePuback, h]

theorem handlePubrec_of_none
    (h : c.publishedMessages.find? (·.named ack.packetIdentifier) = none) :
    ∃ pendingWrites, c.handlePubrec ack =
      { state := { c with pendingWrites }
        effects := [.sent (.pubrel { packetIdentifier := ack.packetIdentifier
                                     reasonCode := packetIdentifierNotFound }) .message] } := by
  simp only [handlePubrec, h]
  exact c.sendMessage_of_encodes (encodes_pubrel _ _)

theorem handlePubrec_of_error
    (h : c.publishedMessages.find? (·.named ack.packetIdentifier) = some msg)
    (hcode : ack.reasonCode > noMatchingSubscribers) :
    c.handlePubrec ack =
      c.finishPublish ack.packetIdentifier msg (.value [ack.reasonCode]) [] := by
  simp only [handlePubrec, h, if_pos hcode]

theorem handlePubrec_of_violation
    (h : c.publishedMessages.find? (·.named ack.packetIdentifier) = some msg)
    (hcode : ¬ ack.reasonCode > noMatchingSubscribers) (hstate : msg.state = .waitingPuback) :
    c.handlePubrec ack = c.finishPublish ack.packetIdentifier msg .done [.close] := by
  simp only [handlePubrec, h, if_neg hcode, if_pos hstate]

theorem handlePubrec_of_success
    (h : c.publishedMessages.find? (·.named ack.packetIdentifier) = some msg)
    (hcode : ¬ ack.reasonCode > noMatchingSubscribers) (hstate : msg.state ≠ .waitingPuback) :
    ∃ pendingWrites, c.handlePubrec ack =
      { state := { c with
          publishedMessages := modifyFirst (·.named ack.packetIdentifier)
            (fun msg => { msg with state := .waitiingPubcomp }) c.publishedMessages
          pendingWrites }
        effects := [.sent (.pubrel { packetIdentifier := ack.packetIdentifier }) .message,
          .advanced msg.receiver] } := by
  simp only [handlePubrec, h, if_neg hcode, if_neg hstate]
  obtain ⟨pendingWrites, hsend⟩ := sendMessage_of_encodes
    { c with
      publishedMessages := modifyFirst (·.named ack.packetIdentifier)
        (fun msg => { msg with state := .waitiingPubcomp }) c.publishedMessages }
    (encodes_pubrel ack.packetIdentifier 0)
  rw [Reaction.andThen_of_not_threw rfl, hsend]
  exact ⟨pendingWrites, rfl⟩

theorem handlePubcomp_of_none
    (h : c.publishedMessages.find? (·.named ack.packetIdentifier) = none) :
    c.handlePubcomp ack = { state := c } := by
  simp only [handlePubcomp, h]

theorem handlePubcomp_of_some
    (h : c.publishedMessages.find? (·.named ack.packetIdentifier) = some msg) :
    c.handlePubcomp ack =
      c.finishPublish ack.packetIdentifier msg (.value [ack.reasonCode]) [] := by
  simp only [handlePubcomp, h]

end Acknowledgement

end Client

/-! ## The main region -/

namespace Client

/-- The overload of `handle_packet` for a packet that comes while connected, or nothing. -/
def handlePacket (c : Client) : ControlPacket → Reaction
  | .puback p => c.handlePuback p
  | .suback p => c.handleSuback p
  | .unsuback p => c.handleUnsuback p
  | .publish p => c.handlePublish p
  | .pubrec p => c.handlePubrec p
  | .pubrel p => c.handlePubrel p
  | .pubcomp p => c.handlePubcomp p
  | _ => { state := c }

/-- What a publish that an acknowledgement names is completed with, and what is called then. -/
inductive Finishes (ack : Ack) (msg : InFlightPublish) :
    ControlPacket → Completion → List Call → Prop
  | puback (h : msg.state = .waitingPuback) :
      Finishes ack msg (.puback ack) (.value [ack.reasonCode]) [.maybeSendQueuedPublish]
  | pubackEarly (h : msg.state ≠ .waitingPuback) :
      Finishes ack msg (.puback ack) .done [.close, .maybeSendQueuedPublish]
  | pubrecError (h : ack.reasonCode > noMatchingSubscribers) :
      Finishes ack msg (.pubrec ack) (.value [ack.reasonCode]) []
  | pubrecEarly (hcode : ¬ ack.reasonCode > noMatchingSubscribers)
      (h : msg.state = .waitingPuback) : Finishes ack msg (.pubrec ack) .done [.close]
  | pubcomp : Finishes ack msg (.pubcomp ack) (.value [ack.reasonCode]) []

theorem Finishes.after {ack : Ack} {msg : InFlightPublish} {p : ControlPacket}
    {completion : Completion} {after : List Call} (h : Finishes ack msg p completion after) :
    ∀ call ∈ after, call ∈ [.close, .maybeSendQueuedPublish] := by
  cases h <;> simp

/-- What the send side makes of a packet. -/
inductive SendTurn (c : Client) : ControlPacket → Reaction → Prop
  | idle (p : ControlPacket) : SendTurn c p { state := c }
  | puback (ack : Ack) (h : c.publishedMessages.find? (·.named ack.packetIdentifier) = none) :
      SendTurn c (.puback ack) c.maybeSendQueuedPublish
  | pubrec (ack : Ack) (h : c.publishedMessages.find? (·.named ack.packetIdentifier) = none)
      (pendingWrites : List PendingWrite) :
      SendTurn c (.pubrec ack)
        { state := { c with pendingWrites }
          effects := [.sent (.pubrel { packetIdentifier := ack.packetIdentifier
                                       reasonCode := packetIdentifierNotFound }) .message] }
  | finished (ack : Ack) (msg : InFlightPublish) (p : ControlPacket) (completion : Completion)
      (after : List Call)
      (hfind : c.publishedMessages.find? (·.named ack.packetIdentifier) = some msg)
      (h : Finishes ack msg p completion after) :
      SendTurn c p (c.finishPublish ack.packetIdentifier msg completion after)
  | advanced (ack : Ack) (msg : InFlightPublish)
      (hfind : c.publishedMessages.find? (·.named ack.packetIdentifier) = some msg)
      (hcode : ¬ ack.reasonCode > noMatchingSubscribers) (h : msg.state ≠ .waitingPuback)
      (pendingWrites : List PendingWrite) :
      SendTurn c (.pubrec ack)
        { state := { c with
            publishedMessages := modifyFirst (·.named ack.packetIdentifier)
              (fun msg => { msg with state := .waitiingPubcomp }) c.publishedMessages
            pendingWrites }
          effects := [.sent (.pubrel { packetIdentifier := ack.packetIdentifier }) .message,
            .advanced msg.receiver] }
  | subscribed (suback : ReasonCodes) (msg : InFlightSubscribe)
      (h : c.subscribeMessages.find?
        (fun msg => suback.packetIdentifier = msg.message.packetIdentifier) = some msg) :
      SendTurn c (.suback suback)
        { state := { c with
            subscribeMessages := c.subscribeMessages.eraseP fun msg =>
              suback.packetIdentifier = msg.message.packetIdentifier }
          calls := [.user]
          effects := [.completed msg.receiver (.value suback.reasonCodes)] }
  | unsubscribed (unsuback : ReasonCodes) (msg : InFlightUnsubscribe)
      (h : c.unsubscribeMessages.find?
        (fun msg => unsuback.packetIdentifier = msg.message.packetIdentifier) = some msg) :
      SendTurn c (.unsuback unsuback)
        { state := { c with
            unsubscribeMessages := c.unsubscribeMessages.eraseP fun msg =>
              unsuback.packetIdentifier = msg.message.packetIdentifier }
          calls := [.user]
          effects := [.completed msg.receiver (.value unsuback.reasonCodes)] }

/-- The send side handles all but the server's publishes and what releases them. -/
theorem handlePacket_sendTurn (c : Client) {p : ControlPacket}
    (hpublish : ∀ publish, p ≠ .publish publish) (hpubrel : ∀ pubrel, p ≠ .pubrel pubrel) :
    c.SendTurn p (c.handlePacket p) := by
  cases p with
  | publish publish => exact absurd rfl (hpublish publish)
  | pubrel pubrel => exact absurd rfl (hpubrel pubrel)
  | puback ack =>
    change c.SendTurn _ (c.handlePuback ack)
    cases hfind : c.publishedMessages.find? (·.named ack.packetIdentifier) with
    | none =>
      rw [handlePuback_of_none hfind]
      exact .puback ack hfind
    | some msg =>
      rw [handlePuback_of_some hfind]
      split
      case isTrue hstate => exact .finished ack msg _ _ _ hfind (.puback hstate)
      case isFalse hstate => exact .finished ack msg _ _ _ hfind (.pubackEarly hstate)
  | pubrec ack =>
    change c.SendTurn _ (c.handlePubrec ack)
    cases hfind : c.publishedMessages.find? (·.named ack.packetIdentifier) with
    | none =>
      obtain ⟨pendingWrites, hrec⟩ := handlePubrec_of_none hfind
      rw [hrec]
      exact .pubrec ack hfind pendingWrites
    | some msg =>
      by_cases hcode : ack.reasonCode > noMatchingSubscribers
      · rw [handlePubrec_of_error hfind hcode]
        exact .finished ack msg _ _ _ hfind (.pubrecError hcode)
      · by_cases hstate : msg.state = .waitingPuback
        · rw [handlePubrec_of_violation hfind hcode hstate]
          exact .finished ack msg _ _ _ hfind (.pubrecEarly hcode hstate)
        · obtain ⟨pendingWrites, hrec⟩ := handlePubrec_of_success hfind hcode hstate
          rw [hrec]
          exact .advanced ack msg hfind hcode hstate pendingWrites
  | pubcomp ack =>
    change c.SendTurn _ (c.handlePubcomp ack)
    cases hfind : c.publishedMessages.find? (·.named ack.packetIdentifier) with
    | none =>
      rw [handlePubcomp_of_none hfind]
      exact .idle _
    | some msg =>
      rw [handlePubcomp_of_some hfind]
      exact .finished ack msg _ _ _ hfind .pubcomp
  | suback ack =>
    change c.SendTurn _ (c.handleSuback ack)
    obtain ⟨msg, hfind, hack⟩ | hack := c.handleSuback_cases ack
    · rw [hack]
      exact .subscribed ack msg hfind
    · rw [hack]
      exact .idle _
  | unsuback ack =>
    change c.SendTurn _ (c.handleUnsuback ack)
    obtain ⟨msg, hfind, hack⟩ | hack := c.handleUnsuback_cases ack
    · rw [hack]
      exact .unsubscribed ack msg hfind
    · rw [hack]
      exact .idle _
  | _ => exact .idle _

theorem SendTurn.sends {c : Client} {p : ControlPacket} {r : Reaction} (h : c.SendTurn p r) :
    c.Sends Call.After r := by
  cases h with
  | idle => exact sends_of_state (SameExchanges.refl c).receive
  | puback => exact sends_maybeSend (SameExchanges.refl c).receive
  | finished _ _ _ _ _ _ h => exact c.sends_finishPublish _ _ _ h.after
  | pubrec | advanced | subscribed | unsubscribed =>
    refine ⟨?_, by simp [Call.After], by simp [Effect.Sending]⟩
    constructor <;> rfl

theorem handlePacket_sends (c : Client) {p : ControlPacket} (hpublish : ∀ publish, p ≠ .publish publish)
    (hpubrel : ∀ pubrel, p ≠ .pubrel pubrel) : c.Sends Call.After (c.handlePacket p) :=
  (c.handlePacket_sendTurn hpublish hpubrel).sends

/-- Every packet is one side's. -/
theorem handlePacket_turn (c : Client) (p : ControlPacket) :
    c.Receives (c.handlePacket p) ∨ c.SendTurn p (c.handlePacket p) := by
  cases p with
  | publish publish => exact .inl (c.handlePublish_receives publish)
  | pubrel pubrel => exact .inl (c.handlePubrel_receives pubrel)
  | _ => exact .inr (c.handlePacket_sendTurn (by simp) (by simp))

theorem handlePacket_side (c : Client) (p : ControlPacket) :
    c.Receives (c.handlePacket p) ∨ c.Sends Call.After (c.handlePacket p) :=
  (c.handlePacket_turn p).imp id SendTurn.sends

/-- A CONNACK sets the quotas, and perhaps the keep alive and the client's identifier. -/
theorem handleConnack_eq (c : Client) (connack : Connack) : ∃ keepAliveUsed clientId,
    c.handleConnack connack =
      { state := { c with
          keepAliveUsed, clientId
          serverMaxSendQuota := connack.properties.receiveMaximum
          serverSendQuota := connack.properties.receiveMaximum
          clientReceiveQuota := c.connectOpts.receiveMaximum }
        calls := [.dispatch .main .handshakeDone, .dispatch .rx .handshakeDone,
          .dispatch .ping .handshakeDone, .dispatch .keepAlive .handshakeDone, .anonymous,
          .notifyConnectorReceivers true] } := by
  unfold handleConnack
  split <;> split <;> exact ⟨_, _, rfl⟩

/-- What the main region makes of an event. -/
inductive MainTurn (c : Client) : Event → Reaction → Prop
  | packet (p : ControlPacket) (h : c.main = .connected) :
      MainTurn c (.packetReceived p) (c.handlePacket p)
  | pubackSent (h : c.main = .connected) : MainTurn c .pubackSent c.handlePubackSent
  | connack (p : Connack) (h : c.main = .handshaking) :
      MainTurn c (.packetReceived (.connack p)) ({ c with main := .connected }.handleConnack p)
  | handshake (h : c.main = .idle) :
      MainTurn c .handshake { state := { c with main := .startHandshake } }
  | disconnect (h : c.main = .handshaking) : MainTurn c .disconnect { c with main := .idle }.close
  | ignored (e : Event) (hpacket : ∀ p, c.main = .connected → e ≠ .packetReceived p)
      (hsent : c.main = .connected → e ≠ .pubackSent)
      (hhandshake : c.main = .idle → e ≠ .handshake)
      (hdisconnect : c.main = .handshaking → e ≠ .disconnect) : MainTurn c e { state := c }

theorem with_main {c : Client} {main : MainState} (h : c.main = main) :
    { c with main := main } = c := by
  rw [← h]

theorem mainTable_turn (c : Client) (e : Event) : c.MainTurn e
    (match mainTable c.main e with
      | some (main, action) => action { c with main }
      | none => { state := c }) := by
  cases hmain : c.main with
  | idle =>
    cases e with
    | handshake => exact .handshake hmain
    | _ => exact .ignored _ (by simp [hmain]) (by simp [hmain]) (by simp) (by simp [hmain])
  | startHandshake =>
    exact .ignored _ (by simp [hmain]) (by simp [hmain]) (by simp [hmain]) (by simp [hmain])
  | handshaking =>
    cases e with
    | disconnect => exact .disconnect hmain
    | packetReceived p =>
      cases p with
      | connack p => exact .connack p hmain
      | _ => exact .ignored _ (by simp [hmain]) (by simp [hmain]) (by simp [hmain]) (by simp)
    | _ => exact .ignored _ (by simp [hmain]) (by simp [hmain]) (by simp [hmain]) (by simp)
  | connected =>
    have hself := with_main hmain
    cases e with
    | pubackSent =>
      simp only [mainTable, hself]
      exact .pubackSent hmain
    | packetReceived p =>
      cases p <;> simp only [mainTable, hself] <;> exact .packet _ hmain
    | _ => exact .ignored _ (by simp) (by simp) (by simp [hmain]) (by simp [hmain])

/-- The main region's turn comes after its entry in the log. -/
theorem dispatch_main (c : Client) (e : Event) : ∃ r, c.MainTurn e r ∧
    c.dispatch e .main = { r with effects := r.effects ++ [.event e c.main] } :=
  ⟨_, c.mainTable_turn e, rfl⟩

end Client

/-! ## Turns that leave the exchanges alone -/

/-- The effects of what leaves the exchanges alone. -/
def Effect.Quiet : Effect → Prop
  | .sent .pingreq receiver => receiver = .message
  | .waiter _ _ | .connector _ _ | .closed => True
  | _ => False

/-- What a handler leaves to be done after the receiver it completes. -/
def Call.Deferred : Call → Prop := (· ∈ [.maybeSendQueuedPublish, .close])

/-- A reaction that leaves the exchanges alone. -/
structure Client.Quiet (c : Client) (r : Reaction) : Prop where
  same : c.SameExchanges r.state
  calls : ∀ call, call.Deferred → call ∉ r.calls
  effects : ∀ e ∈ r.effects, e.Quiet
  threw : r.threw = false

namespace Client

variable {c d : Client}

theorem quiet_idle (h : c.SameExchanges d) : c.Quiet { state := d } := ⟨h, by simp, by simp, rfl⟩

theorem quiet_close (h : c.SameExchanges d) : c.Quiet d.close :=
  ⟨h, by simp [close], by simp [close, Effect.Quiet], rfl⟩

theorem quiet_user (h : c.SameExchanges d) : c.Quiet { state := d, calls := [.user] } :=
  ⟨h, by simp [Call.Deferred], by simp, rfl⟩

theorem quiet_processEvent (h : c.SameExchanges d) (e : Event) : c.Quiet (d.processEvent e) :=
  ⟨h, by simp [processEvent, Call.Deferred], by simp [processEvent], rfl⟩

theorem quiet_receiveOneMessage (h : c.SameExchanges d) : c.Quiet d.receiveOneMessage :=
  ⟨h, by simp [receiveOneMessage, Call.Deferred], by simp [receiveOneMessage], rfl⟩

theorem quiet_notify (h : c.SameExchanges d) (success : Bool) :
    c.Quiet (d.notifyConnectorReceivers success) where
  same := h.trans (.aside d)
  calls := by simp [notifyConnectorReceivers, Call.Deferred]
  effects := by simp [notifyConnectorReceivers]
  threw := rfl

theorem quiet_startConnect (h : c.SameExchanges d) : c.Quiet d.startConnect := by
  rw [startConnect]
  split
  · exact quiet_notify h true
  · exact quiet_processEvent h .handshake

/-- The requests other than publishes, subscribes and unsubscribes. -/
theorem operate_aside (c : Client) (op : Operation) (hpublish : ∀ message, op ≠ .publish message)
    (hsubscribe : ∀ subscriptions modifier, op ≠ .subscribe subscriptions modifier)
    (hunsubscribe : ∀ unsub, op ≠ .unsubscribe unsub) :
    (c.operate op).Ensures c.SameSendSide (fun call => ¬ call.Deferred)
      (fun e => (∃ reason, e = .sent (.disconnect { reason }) .disconnector) ∨ e = .closed) := by
  cases op with
  | publish message => exact absurd rfl (hpublish message)
  | subscribe subscriptions modifier => exact absurd rfl (hsubscribe subscriptions modifier)
  | unsubscribe unsub => exact absurd rfl (hunsubscribe unsub)
  | startConnect =>
    have hquiet := quiet_startConnect (.refl c)
    have heffects : c.startConnect.effects = [] := by
      rw [startConnect]
      split <;> rfl
    refine ⟨hquiet.same.send, fun call hmem hcall => hquiet.calls call hcall hmem, ?_⟩
    change ∀ e ∈ c.startConnect.effects, _
    simp [heffects]
  | disconnect reason =>
    have hwriter := c.controlPacketWriter_ensures (.disconnect { reason }) .disconnector
      (fun call => ¬ call.Deferred)
    exact ⟨hwriter.state.send, hwriter.calls, fun e he => .inl ⟨reason, hwriter.effects e he⟩⟩
  | close => exact ⟨(SameExchanges.refl c).send, by simp [operate, close], by simp [operate, close]⟩
  | handshaker | connect | filterSubscribe =>
    refine ⟨?_, by simp [operate, startFilterSubscribe], by simp [operate, startFilterSubscribe]⟩
    constructor <;> rfl

theorem quiet_startPingTimer (h : c.SameExchanges d) : c.Quiet d.startPingTimer := by
  rw [startPingTimer]
  split
  · exact quiet_idle (h.trans (.aside d))
  · exact quiet_idle h

theorem quiet_startKeepAliveTimer (h : c.SameExchanges d) : c.Quiet d.startKeepAliveTimer := by
  rw [startKeepAliveTimer]
  split
  · exact quiet_idle (h.trans (.aside d))
  · exact quiet_idle h

theorem quiet_sendPing (h : c.SameExchanges d) :
    c.Quiet (d.sendPing.andThen (·.startPingTimer)) := by
  obtain ⟨pendingWrites, hsend⟩ := d.sendMessage_of_encodes encodes_pingreq
  have hnext : c.SameExchanges { d with pendingWrites } := h.trans (.aside d)
  have hquiet := quiet_startPingTimer hnext
  rw [sendPing, hsend, Reaction.andThen_of_not_threw rfl]
  refine ⟨hquiet.same, hquiet.calls, ?_, hquiet.threw⟩
  intro e he
  rcases List.mem_append.mp he with he | he
  · exact hquiet.effects e he
  · rw [List.mem_singleton.mp he]
    rfl

theorem quiet_rx (c : Client) (e : Event) : c.Quiet (c.dispatch e .rx) := by
  rw [dispatch]
  split
  case h_1 rx action htable =>
    have hsame : c.SameExchanges { c with rx } := .aside _
    unfold rxTable at htable
    split at htable
    · cases htable; exact quiet_receiveOneMessage hsame
    · cases htable; exact quiet_receiveOneMessage hsame
    · cases htable; exact quiet_close hsame
    · cases htable
  case h_2 => exact quiet_idle (.refl c)

theorem quiet_ping (c : Client) (e : Event) : c.Quiet (c.dispatch e .ping) := by
  rw [dispatch]
  split
  case h_1 ping action htable =>
    have hsame : c.SameExchanges { c with ping } := .aside _
    unfold pingTable at htable
    split at htable
    · cases htable; exact quiet_startPingTimer hsame
    · cases htable; exact quiet_idle (hsame.trans (.aside _))
    · cases htable; exact quiet_sendPing hsame
    · cases htable
  case h_2 => exact quiet_idle (.refl c)

theorem quiet_keepAlive (c : Client) (e : Event) : c.Quiet (c.dispatch e .keepAlive) := by
  rw [dispatch]
  split
  case h_1 keepAlive action htable =>
    have hsame : c.SameExchanges { c with keepAlive } := .aside _
    unfold keepAliveTable at htable
    split at htable
    · cases htable; exact quiet_startKeepAliveTimer hsame
    · cases htable; exact quiet_startKeepAliveTimer hsame
    · cases htable; exact quiet_close hsame
    · cases htable; exact quiet_idle (hsame.trans (.aside _))
    · cases htable
  case h_2 => exact quiet_idle (.refl c)

/-- Everything a call on top of the stack can do. -/
inductive Turn (c : Client) : Call → Action → Reaction → Prop
  | main (e : Event) (r : Reaction) (h : c.MainTurn e r) : Turn c (.dispatch .main e) .run
      { r with effects := r.effects ++ [.event e c.main] }
  | anonymous (h : c.main = .startHandshake) : Turn c .anonymous .run c.anonymous
  | maybeSend : Turn c .maybeSendQueuedPublish .run c.maybeSendQueuedPublish
  | operate (op : Operation) : Turn c .user (.operate op) (c.operateFrom op)
  | close : Turn c .close .run c.close
  | quiet (call : Call) (a : Action) (r : Reaction) (hr : c.Quiet r)
      (hcall : call ≠ .maybeSendQueuedPublish ∧ call ≠ .close ∧ ∀ e, call ≠ .dispatch .main e) :
      Turn c call a r

theorem exec_turn {call : Call} {r : Reaction} (h : c.exec call = some r) : c.Turn call .run r := by
  cases call with
  | dispatch region e =>
    cases h
    cases region with
    | main =>
      obtain ⟨r, hturn, hr⟩ := c.dispatch_main e
      rw [hr]
      exact .main e r hturn
    | rx => exact .quiet _ _ _ (c.quiet_rx e) (by simp)
    | ping => exact .quiet _ _ _ (c.quiet_ping e) (by simp)
    | keepAlive => exact .quiet _ _ _ (c.quiet_keepAlive e) (by simp)
  | anonymous =>
    cases h
    by_cases hmain : c.main = .startHandshake
    · exact .anonymous hmain
    · rw [anonymous, if_neg hmain]
      exact .quiet _ _ _ (quiet_idle (.refl c)) (by simp)
  | close => cases h; exact .close
  | maybeSendQueuedPublish => cases h; exact .maybeSend
  | notifyConnectorReceivers success =>
    cases h
    exact .quiet _ _ _ (quiet_notify (.refl c) success) (by simp)
  | connectorReceiver receiver success =>
    cases h
    exact .quiet _ _ _ ⟨.refl c, by simp [Call.Deferred], by simp [Effect.Quiet], rfl⟩ (by simp)
  | publishWaiter receiver publish =>
    cases h
    exact .quiet _ _ _ ⟨.refl c, by simp [Call.Deferred], by simp [Effect.Quiet], rfl⟩ (by simp)
  | user => cases h
  | receiveOneMessage => cases h

theorem respond_turn {call : Call} {a : Action} {r : Reaction} (h : c.respond call a = some r) :
    c.Turn call a r := by
  cases a with
  | run => exact exec_turn h
  | operate op =>
    cases call <;> cases h
    exact .operate op
  | «return» =>
    cases call <;> cases h
    exact .quiet _ _ _ (quiet_idle (.refl c)) (by simp)
  | buffered packet =>
    cases call <;> cases h
    exact .quiet _ _ _ (quiet_processEvent (.refl c) _) (by simp)
  | suspend =>
    cases call <;> cases h
    exact .quiet _ _ _ (quiet_idle (.aside c)) (by simp)
  | _ => cases call <;> cases h

theorem quiet_writeCompleted (h : c.SameExchanges d) (receiver : WriteReceiver) :
    c.Quiet (d.writeCompleted receiver) := by
  cases receiver with
  | message => exact quiet_processEvent h _
  | puback => exact quiet_processEvent h _
  | disconnect => exact quiet_close h
  | disconnector =>
    refine ⟨h, ?_, ?_, rfl⟩
    · simp [writeCompleted, close, Reaction.andThen, Call.Deferred]
    · simp [writeCompleted, close, Reaction.andThen, Effect.Quiet]

theorem quiet_writeStopped (h : c.SameExchanges d) (receiver : WriteReceiver) :
    c.Quiet (d.writeStopped receiver) := by
  cases receiver with
  | message => exact quiet_processEvent h _
  | puback => exact quiet_idle h
  | disconnect => exact quiet_idle h
  | disconnector => exact quiet_user h

/-- What the event loop delivers only starts something. -/
theorem arrive_quiet {a : Action} {r : Reaction} (h : c.arrive a = some r) : c.Quiet r := by
  cases a with
  | enter =>
    cases h
    exact quiet_user (.refl c)
  | readValue packet =>
    simp only [arrive, Option.ite_none_left_eq_some] at h
    obtain ⟨-, h⟩ := h
    cases h
    exact quiet_processEvent (.aside c) _
  | readDone =>
    simp only [arrive, Option.ite_none_left_eq_some] at h
    obtain ⟨-, h⟩ := h
    cases h
    exact quiet_processEvent (.aside c) _
  | writeValue i =>
    obtain ⟨write, -, rfl⟩ := Option.map_eq_some_iff.mp h
    exact quiet_writeCompleted (.aside c) _
  | writeDone i =>
    obtain ⟨write, -, rfl⟩ := Option.map_eq_some_iff.mp h
    exact quiet_writeStopped (.aside c) _
  | connectAndPingTimer =>
    obtain ⟨wait, -, rfl⟩ := Option.map_eq_some_iff.mp h
    exact quiet_processEvent (.aside c) _
  | keepAliveTimer =>
    obtain ⟨wait, -, rfl⟩ := Option.map_eq_some_iff.mp h
    exact quiet_processEvent (.aside c) _
  | _ => cases h

/-- The transition from `start_handshake`, once the timer has been started. -/
theorem anonymous_eq (h : c.main = .startHandshake) : ∃ started : Client,
    { c with main := .handshaking }.SameExchanges started ∧
      c.anonymous = (started.sendMessage (.connect (connectMessage c.connectOpts))).andThen
        fun c => { state := c, calls := [.anonymous] } := by
  let started : Client := { c with
    main := .handshaking, connectAndPingTimer := some { delay := 5, event := .disconnect }
    keepAliveUsed := c.connectOpts.keepAlive, clientId := c.connectOpts.clientId }
  have hsend : { c with main := .handshaking }.startConnectTimer.andThen (·.sendConnect) =
      started.sendMessage (.connect (connectMessage c.connectOpts)) := by
    rw [startConnectTimer, Reaction.andThen_of_not_threw rfl]
    simp only [List.nil_append, List.append_nil]
    rfl
  rw [anonymous, if_pos h, hsend]
  exact ⟨started, .aside _, rfl⟩

/-- It sends the CONNECT and is tried again. -/
theorem anonymous_of_encodes (h : c.main = .startHandshake)
    (hencodes : Encodes (.connect (connectMessage c.connectOpts))) : ∃ d : Client,
      { c with main := .handshaking }.SameExchanges d ∧ c.anonymous =
        { state := d, calls := [.anonymous]
          effects := [.sent (.connect (connectMessage c.connectOpts)) .message] } := by
  obtain ⟨started, hstarted, hanonymous⟩ := anonymous_eq h
  obtain ⟨pendingWrites, hsent⟩ := started.sendMessage_of_encodes hencodes
  rw [hanonymous, hsent, Reaction.andThen_of_not_threw rfl]
  exact ⟨_, hstarted.trans (.aside started), rfl⟩

/-- Sending the CONNECT leaves the exchanges alone, and may throw. -/
theorem anonymous_same (h : c.main = .startHandshake) :
    { c with main := .handshaking }.SameExchanges c.anonymous.state ∧
      (∀ call ∈ c.anonymous.calls, call = .anonymous) ∧
      ∀ e ∈ c.anonymous.effects, e = .sent (.connect (connectMessage c.connectOpts)) .message := by
  by_cases hencodes : Encodes (.connect (connectMessage c.connectOpts))
  · obtain ⟨d, hsame, hsent⟩ := anonymous_of_encodes h hencodes
    rw [hsent]
    exact ⟨hsame, by simp, by simp⟩
  · obtain ⟨started, hstarted, hanonymous⟩ := anonymous_eq h
    rw [hanonymous, started.sendMessage_of_not_encodes hencodes, Reaction.andThen_of_threw rfl]
    exact ⟨hstarted, by simp, by simp⟩

end Client
end Mqtt5.ClientState
