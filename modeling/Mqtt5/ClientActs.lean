import Mqtt5.ClientTurns

/-!
# The acts that a turn is made of

Whatever the client does with a packet, a request or an event is a sequence of a few acts:
a packet is given to the stream, the members change that messages are exchanged by, and at
the end of a turn a publish may be handed to the receivers that wait for it. What holds of
every act holds of every turn.
-/
namespace Mqtt5.ClientActs
open WirePrimitives WirePublish WireConnect WireControlPacket CallMachine ClientState
open WireSubscribe hiding TopicFilter
open TopicMatching

/-- Effects that neither give a packet to the stream nor a publish to its receivers. -/
def Noted : Effect → Prop
  | .sent _ _ | .delivered _ | .waiter _ _ => False
  | _ => True

/-- The acts that lead from one client to another, and their effects. `Other` is what else
they may change. -/
inductive Acts (Other : Client → Client → Prop) (c : Client) : Client → List Effect → Prop
  | nothing : Acts Other c c []
  /-- A packet was encoded and its bytes given to the stream. -/
  | write {d : Client} {effects : List Effect} (h : Acts Other c d effects)
      (packet : ControlPacket) (receiver : WriteReceiver) (buffer : Bytes)
      (hbuffer : packet.serialize.result = .ok buffer) :
      Acts Other c { d with pendingWrites := d.pendingWrites ++ [⟨buffer, receiver⟩] }
        (.sent packet receiver :: effects)
  | exchange {d : Client} {effects : List Effect} (h : Acts Other c d effects)
      {publishedMessages : List InFlightPublish} {subscribeMessages : List InFlightSubscribe}
      {unsubscribeMessages : List InFlightUnsubscribe} {receivedQos2States : List Publish}
      {queuedPublishes : List PublishOpStarter} {serverSendQuota clientReceiveQuota : UInt16}
      {nextPacketIdentifier : PacketIdentifierGenerator} :
      Acts Other c { d with
        publishedMessages, subscribeMessages, unsubscribeMessages, receivedQos2States
        queuedPublishes, serverSendQuota, clientReceiveQuota, nextPacketIdentifier } effects
  | note {d : Client} {effects : List Effect} (h : Acts Other c d effects) {e : Effect}
      (he : Noted e) : Acts Other c d (e :: effects)
  | other {d e : Client} {effects : List Effect} (h : Acts Other c d effects) (he : Other d e) :
      Acts Other c e effects

namespace Acts
variable {Other : Client → Client → Prop} {c d e : Client} {newer older : List Effect}

theorem trans (h : Acts Other c d older) (h' : Acts Other d e newer) :
    Acts Other c e (newer ++ older) := by
  induction h' with
  | nothing => exact h
  | write _ packet receiver buffer hbuffer ih => exact ih.write packet receiver buffer hbuffer
  | exchange _ ih => exact ih.exchange
  | note _ he ih => exact ih.note he
  | other _ he ih => exact ih.other he

theorem andThen {r : Reaction} {next : Client → Reaction} (h : Acts Other c r.state r.effects)
    (hnext : ∀ d, Acts Other d (next d).state (next d).effects) :
    Acts Other c (r.andThen next).state (r.andThen next).effects := by
  cases hthrew : r.threw with
  | true =>
    rw [Reaction.andThen_of_threw hthrew]
    exact h
  | false =>
    rw [Reaction.andThen_of_not_threw hthrew]
    exact h.trans (hnext r.state)

/-- Acts that come after a change to what messages are exchanged by. -/
theorem after {effects : List Effect} (h : Acts Other d e effects)
    (hd : Acts Other c d []) : Acts Other c e effects := by
  have hacts := hd.trans h
  rw [List.append_nil] at hacts
  exact hacts

end Acts

/-- Acts that change nothing but what messages are exchanged by. -/
abbrev Exchanges (c : Client) (r : Reaction) : Prop :=
  Acts (fun _ _ => False) c r.state r.effects

theorem Acts.mono {Other Other' : Client → Client → Prop} {c d : Client} {effects : List Effect}
    (h : Acts Other c d effects) (hother : ∀ c d, Other c d → Other' c d) :
    Acts Other' c d effects := by
  induction h with
  | nothing => exact .nothing
  | write _ packet receiver buffer hbuffer ih => exact ih.write packet receiver buffer hbuffer
  | exchange _ ih => exact ih.exchange
  | note _ he ih => exact ih.note he
  | other _ he ih => exact ih.other (hother _ _ he)

/-! ## Handlers and requests -/

section Handlers
variable (c : Client)

theorem exchanges_writer (packet : ControlPacket) (receiver : WriteReceiver) :
    Exchanges c (c.controlPacketWriter packet receiver) := by
  rw [Client.controlPacketWriter]
  split
  case h_1 buffer hbuffer => exact Acts.nothing.write packet receiver buffer hbuffer
  case h_2 => exact .nothing

theorem exchanges_startFn (op : PublishOpStarter) : Exchanges c (c.startFn op) := by
  rw [Client.startFn]
  apply Acts.andThen
  · exact (exchanges_writer _ _ .message).after Acts.nothing.exchange
  · intro d
    exact Acts.nothing.exchange.note trivial

theorem exchanges_maybeSend : Exchanges c c.maybeSendQueuedPublish := by
  rcases c.maybeSend_cases with hfull | hempty | ⟨next, queued, -, hnext⟩
  · rw [hfull]
    exact .nothing
  · rw [hempty]
    exact Acts.nothing.exchange
  · rw [hnext]
    exact (exchanges_startFn _ next).after Acts.nothing.exchange

theorem exchanges_takeReceiveQuota : Exchanges c c.takeReceiveQuota := by
  rw [Client.takeReceiveQuota]
  split
  · exact Acts.nothing.exchange
  · exact exchanges_writer c _ _

theorem exchanges_storeQos2 (publish : Publish) :
    Acts (fun _ _ => False) c (c.storeQos2 publish) [] := by
  rw [Client.storeQos2]
  split
  · exact .nothing
  · exact Acts.nothing.exchange

theorem exchanges_finishPublish (id : UInt16) (msg : InFlightPublish) (completion : Completion)
    (after : List Call) : Exchanges c (c.finishPublish id msg completion after) :=
  Acts.nothing.exchange.note trivial

theorem exchanges_puback (ack : Ack) : Exchanges c (c.handlePuback ack) := by
  unfold Client.handlePuback
  dsimp only
  split
  · split <;> exact exchanges_finishPublish c _ _ _ _
  · exact exchanges_maybeSend c

theorem exchanges_pubrec (ack : Ack) : Exchanges c (c.handlePubrec ack) := by
  unfold Client.handlePubrec
  dsimp only
  split
  · exact exchanges_writer c _ _
  · split
    · exact exchanges_finishPublish c _ _ _ _
    · split
      · exact exchanges_finishPublish c _ _ _ _
      · apply Acts.andThen
        · exact Acts.nothing.exchange.note trivial
        · exact fun d => exchanges_writer d _ _

theorem exchanges_pubcomp (ack : Ack) : Exchanges c (c.handlePubcomp ack) := by
  unfold Client.handlePubcomp
  dsimp only
  split
  · exact .nothing
  · exact exchanges_finishPublish c _ _ _ _

theorem exchanges_suback (suback : ReasonCodes) : Exchanges c (c.handleSuback suback) := by
  rcases c.handleSuback_cases suback with ⟨msg, -, hack⟩ | hack
  · rw [hack]
    exact Acts.nothing.exchange.note trivial
  · rw [hack]
    exact .nothing

theorem exchanges_unsuback (unsuback : ReasonCodes) : Exchanges c (c.handleUnsuback unsuback) := by
  rcases c.handleUnsuback_cases unsuback with ⟨msg, -, hack⟩ | hack
  · rw [hack]
    exact Acts.nothing.exchange.note trivial
  · rw [hack]
    exact .nothing

theorem exchanges_pubackSent : Exchanges c c.handlePubackSent := by
  obtain ⟨_, hsent⟩ := c.handlePubackSent_eq
  rw [hsent]
  exact Acts.nothing.exchange

theorem exchanges_startPublish (message : Publish) : Exchanges c (c.startPublish message) := by
  unfold Client.startPublish
  dsimp only
  split
  · apply Acts.andThen
    · exact exchanges_writer c _ _
    · exact fun d => Acts.nothing.note trivial
  · split
    · exact (exchanges_startFn _ _).after Acts.nothing.exchange
    · exact Acts.nothing.exchange

theorem exchanges_startSubscribe (subscriptions : List Client.SingleSubscription)
    (modifier : Subscribe → Subscribe) : Exchanges c (c.startSubscribe subscriptions modifier) := by
  unfold Client.startSubscribe
  apply Acts.andThen
  · exact (exchanges_writer _ _ .message).after Acts.nothing.exchange
  · exact fun d => Acts.nothing.exchange

theorem exchanges_startUnsubscribe (unsub : Unsubscribe) :
    Exchanges c (c.startUnsubscribe unsub) := by
  unfold Client.startUnsubscribe
  apply Acts.andThen
  · exact (exchanges_writer _ _ .message).after Acts.nothing.exchange
  · exact fun d => Acts.nothing.exchange

end Handlers

/-! ## Turns -/

/-- A turn is a sequence of acts, and it may end by handing a publish to its receivers. -/
inductive Performs (Other : Client → Client → Prop) (c : Client) : Reaction → Prop
  | acts (r : Reaction) (h : Acts Other c r.state r.effects)
      (hcalls : ∀ call ∈ r.calls, ¬ call.Waiter) : Performs Other c r
  | delivers {d : Client} {effects : List Effect} (h : Acts Other c d effects) (publish : Publish) :
      Performs Other c
        { d.deliverToPublishWaiters publish with effects := .delivered publish :: effects }

theorem Performs.mono {Other Other' : Client → Client → Prop} {c : Client} {r : Reaction}
    (h : Performs Other c r) (hother : ∀ c d, Other c d → Other' c d) : Performs Other' c r := by
  cases h with
  | acts _ h hcalls => exact .acts r (h.mono hother) hcalls
  | delivers h publish => exact .delivers (h.mono hother) publish

/-- A turn that sends something first. -/
theorem performs_delivery {Other : Client → Client → Prop} {c : Client} {r : Reaction}
    (h : Acts Other c r.state r.effects) (hcalls : r.calls = []) (hthrew : r.threw = false)
    (publish : Publish) : Performs Other c (r.andThen (·.deliverToPublishWaiters publish)) := by
  rw [Reaction.andThen_of_not_threw hthrew, hcalls]
  exact .delivers h publish

/-- A member that exchanging messages has no part in. -/
def Apart {α : Type} (f : Client → α) : Prop :=
  ∀ (d : Client) publishedMessages subscribeMessages unsubscribeMessages publishWaiters
    receivedQos2States queuedPublishes serverSendQuota clientReceiveQuota nextPacketIdentifier
    pendingWrites,
    f { d with
      publishedMessages, subscribeMessages, unsubscribeMessages, publishWaiters
      receivedQos2States, queuedPublishes, serverSendQuota, clientReceiveQuota
      nextPacketIdentifier, pendingWrites } = f d

theorem Apart.acts {α : Type} {f : Client → α} (hf : Apart f) {c d : Client}
    {effects : List Effect} (h : Acts (fun _ _ => False) c d effects) : f d = f c := by
  induction h with
  | nothing => rfl
  | write _ _ _ _ _ ih => exact (hf _ _ _ _ _ _ _ _ _ _ _).trans ih
  | exchange _ ih => exact (hf _ _ _ _ _ _ _ _ _ _ _).trans ih
  | note _ _ ih => exact ih
  | other _ hother => exact hother.elim

theorem Apart.performs {α : Type} {f : Client → α} (hf : Apart f) {c : Client} {r : Reaction}
    (h : Performs (fun _ _ => False) c r) : f r.state = f c := by
  cases h with
  | acts _ h => exact hf.acts h
  | delivers h => exact (hf _ _ _ _ _ _ _ _ _ _ _).trans (hf.acts h)

theorem writer_calls (c : Client) (packet : ControlPacket) (receiver : WriteReceiver) :
    (c.controlPacketWriter packet receiver).calls = [] := by
  rw [Client.controlPacketWriter]
  split <;> rfl

section Turns
variable (c : Client)

theorem performs_publish (publish : Publish) :
    Performs (fun _ _ => False) c (c.handlePublish publish) := by
  have hquota : ∃ d effects, Acts (fun _ _ => False) c d effects ∧
      (if publish.qualityOfService ≠ qos0 then c.takeReceiveQuota else { state := c }) =
        { state := d, effects } := by
    split
    · obtain ⟨d, effects, -, htaken⟩ := c.takeReceiveQuota_taken
      have hacts := exchanges_takeReceiveQuota c
      rw [Exchanges, htaken] at hacts
      exact ⟨d, effects, hacts, htaken⟩
    · exact ⟨c, [], .nothing, rfl⟩
  obtain ⟨d, effects, hacts, hquota⟩ := hquota
  rw [Client.handlePublish, hquota, Reaction.andThen_of_not_threw rfl, List.nil_append]
  split
  · have hencodes := encodes_puback publish.packetIdentifier
    have hwriter := exchanges_writer d (.puback { packetIdentifier := publish.packetIdentifier })
      .puback
    rw [Reaction.andThen_of_not_threw (d.controlPacketWriter_threw hencodes .puback),
      writer_calls, List.nil_append]
    exact .delivers (hacts.trans hwriter) publish
  · split
    · have hstore := (exchanges_storeQos2 d publish).trans
        (exchanges_writer _ (.pubrec { packetIdentifier := publish.packetIdentifier }) .message)
      rw [List.append_nil] at hstore
      refine .acts _ (hacts.trans hstore) ?_
      rw [Client.sendMessage, writer_calls]
      simp
    · exact .delivers hacts publish

theorem performs_pubrel (ack : Ack) : Performs (fun _ _ => False) c (c.handlePubrel ack) := by
  unfold Client.handlePubrel
  dsimp only
  split
  · refine .acts _ (exchanges_writer c _ _) ?_
    rw [Client.sendMessage, writer_calls]
    simp
  · apply performs_delivery
    · exact (exchanges_writer _ _ .message).after Acts.nothing.exchange
    · exact writer_calls _ _ _
    · exact Client.controlPacketWriter_threw _ (encodes_pubcomp _ _) .message

theorem performs_handlePacket (p : ControlPacket) :
    Performs (fun _ _ => False) c (c.handlePacket p) := by
  have hafter : ∀ call : Call, call.After → ¬ call.Waiter := by
    intro call hcall hwaiter
    cases call with
    | publishWaiter => simp [Call.After] at hcall
    | _ => exact hwaiter
  have hsends : ∀ {r : Reaction}, Exchanges c r → c.Sends Call.After r →
      Performs (fun _ _ => False) c r := fun hacts hsends =>
    .acts _ hacts fun call hcall => hafter call (hsends.calls call hcall)
  have hside := c.handlePacket_sends (p := p)
  cases p with
  | puback ack => exact hsends (exchanges_puback c ack) (hside (by simp) (by simp))
  | pubrec ack => exact hsends (exchanges_pubrec c ack) (hside (by simp) (by simp))
  | pubcomp ack => exact hsends (exchanges_pubcomp c ack) (hside (by simp) (by simp))
  | suback ack => exact hsends (exchanges_suback c ack) (hside (by simp) (by simp))
  | unsuback ack => exact hsends (exchanges_unsuback c ack) (hside (by simp) (by simp))
  | publish publish => exact performs_publish c publish
  | pubrel ack => exact performs_pubrel c ack
  | _ => exact .acts _ .nothing (by simp [Client.handlePacket])

end Turns

/-! ## Everything that is run -/

/-- A change to neither the receivers that wait for publishes, nor the writes, nor the
receive region. -/
structure Aside (c d : Client) : Prop where
  publishWaiters : d.publishWaiters = c.publishWaiters
  pendingWrites : d.pendingWrites = c.pendingWrites
  rx : d.rx = c.rx

theorem aside_acts {c d : Client} (h : Aside c d) : Acts Aside c d [] := Acts.nothing.other h

theorem dispatch_ping_calls (c : Client) (e : Event) : (c.dispatch e .ping).calls = [] := by
  have htimer : ∀ d : Client, d.startPingTimer.calls = [] := by
    intro d
    rw [Client.startPingTimer]
    split <;> rfl
  rw [Client.dispatch]
  split
  case h_1 ping action htable =>
    unfold pingTable at htable
    split at htable
    · cases htable
      exact htimer _
    · cases htable
      rfl
    · cases htable
      obtain ⟨pendingWrites, hsend⟩ := { c with ping := .waiting }.sendMessage_of_encodes
        encodes_pingreq
      dsimp only [Client.sendPing]
      rw [hsend, Reaction.andThen_of_not_threw rfl, htimer]
      rfl
    · cases htable
  case h_2 => rfl

theorem dispatch_keepAlive_calls (c : Client) (e : Event) :
    (c.dispatch e .keepAlive).calls = [] := by
  have htimer : ∀ d : Client, d.startKeepAliveTimer.calls = [] := by
    intro d
    rw [Client.startKeepAliveTimer]
    split <;> rfl
  rw [Client.dispatch]
  split
  case h_1 keepAlive action htable =>
    unfold keepAliveTable at htable
    split at htable
    · cases htable
      exact htimer _
    · cases htable
      exact htimer _
    · cases htable
      rfl
    · cases htable
      rfl
    · cases htable
  case h_2 => rfl

theorem acts_startPingTimer (c : Client) :
    Acts Aside c c.startPingTimer.state c.startPingTimer.effects := by
  rw [Client.startPingTimer]
  split
  · exact aside_acts ⟨rfl, rfl, rfl⟩
  · exact .nothing

theorem acts_ping (c : Client) (e : Event) :
    Acts Aside c (c.dispatch e .ping).state (c.dispatch e .ping).effects := by
  rw [Client.dispatch]
  split
  case h_1 ping action htable =>
    have hstate : Acts Aside c { c with ping } [] := aside_acts ⟨rfl, rfl, rfl⟩
    unfold pingTable at htable
    split at htable
    · cases htable
      exact (acts_startPingTimer _).after hstate
    · cases htable
      exact aside_acts ⟨rfl, rfl, rfl⟩
    · cases htable
      refine Acts.after ?_ hstate
      exact ((exchanges_writer _ .pingreq .message).mono fun _ _ => False.elim).andThen
        acts_startPingTimer
    · cases htable
  case h_2 => exact .nothing

theorem acts_keepAlive (c : Client) (e : Event) :
    Acts Aside c (c.dispatch e .keepAlive).state (c.dispatch e .keepAlive).effects := by
  have htimer : ∀ d : Client,
      Acts Aside d d.startKeepAliveTimer.state d.startKeepAliveTimer.effects := by
    intro d
    rw [Client.startKeepAliveTimer]
    split
    · exact aside_acts ⟨rfl, rfl, rfl⟩
    · exact .nothing
  rw [Client.dispatch]
  split
  case h_1 keepAlive action htable =>
    have hstate : Acts Aside c { c with keepAlive } [] := aside_acts ⟨rfl, rfl, rfl⟩
    unfold keepAliveTable at htable
    split at htable
    · cases htable
      exact (htimer _).after hstate
    · cases htable
      exact (htimer _).after hstate
    · cases htable
      exact hstate.note trivial
    · cases htable
      exact aside_acts ⟨rfl, rfl, rfl⟩
    · cases htable
  case h_2 => exact .nothing

theorem acts_anonymous (c : Client) : Acts Aside c c.anonymous.state c.anonymous.effects := by
  rw [Client.anonymous]
  split
  · apply Acts.andThen
    · apply Acts.andThen
      · exact aside_acts ⟨rfl, rfl, rfl⟩
      · intro d
        exact ((exchanges_writer _ _ .message).mono fun _ _ => False.elim).after
          (aside_acts ⟨rfl, rfl, rfl⟩)
    · exact fun d => .nothing
  · exact .nothing

theorem performs_main {c : Client} {e : Event} {r : Reaction} (h : c.MainTurn e r) :
    Performs Aside c r := by
  cases h with
  | packet p => exact (performs_handlePacket c p).mono fun _ _ => False.elim
  | pubackSent =>
    refine .acts _ ((exchanges_pubackSent c).mono fun _ _ => False.elim) ?_
    obtain ⟨_, hsent⟩ := c.handlePubackSent_eq
    simp [hsent]
  | connack p =>
    obtain ⟨_, _, hack⟩ := { c with main := .connected }.handleConnack_eq p
    rw [hack]
    exact .acts _ (aside_acts ⟨rfl, rfl, rfl⟩) (by simp [Call.Waiter])
  | handshake => exact .acts _ (aside_acts ⟨rfl, rfl, rfl⟩) (by simp)
  | disconnect =>
    have hstate : Acts Aside c { c with main := .idle } [] := aside_acts ⟨rfl, rfl, rfl⟩
    exact .acts _ (hstate.note trivial) (by simp [Client.close])
  | ignored => exact .acts _ .nothing (by simp)

/-- Every event has its entry before what comes of it. -/
theorem Performs.withEntry {c : Client} {r : Reaction} (h : Performs Aside c r) (e : Event)
    (main : MainState) :
    Performs Aside c { r with effects := r.effects ++ [.event e main] } := by
  have hentry : Acts Aside c c [.event e main] := Acts.nothing.note trivial
  cases h with
  | acts _ h hcalls => exact .acts _ (hentry.trans h) hcalls
  | delivers h publish => exact .delivers (hentry.trans h) publish

/-- A request other than a filtered subscription. -/
theorem performs_operate (c : Client) {op : Operation}
    (hop : ∀ filter receiver, op ≠ .filterSubscribe filter receiver) :
    Acts Aside c (c.operate op).state (c.operate op).effects ∧
      ∀ call ∈ (c.operate op).calls, ¬ call.Waiter := by
  have huser : ∀ call : Call, call = .user → ¬ call.Waiter := by
    rintro _ rfl
    exact id
  cases op with
  | publish message =>
    exact ⟨(exchanges_startPublish c message).mono fun _ _ => False.elim,
      fun call hcall => huser call ((c.startPublish_sends message).calls call hcall)⟩
  | subscribe subscriptions modifier =>
    exact ⟨(exchanges_startSubscribe c subscriptions modifier).mono fun _ _ => False.elim,
      fun call hcall => huser call ((c.startSubscribe_sends subscriptions modifier).calls call hcall)⟩
  | unsubscribe unsub =>
    exact ⟨(exchanges_startUnsubscribe c unsub).mono fun _ _ => False.elim,
      fun call hcall => huser call ((c.startUnsubscribe_sends unsub).calls call hcall)⟩
  | disconnect reason =>
    refine ⟨(exchanges_writer c _ .disconnector).mono fun _ _ => False.elim, ?_⟩
    change ∀ call ∈ (c.controlPacketWriter _ _).calls, _
    rw [writer_calls]
    simp
  | startConnect =>
    change Acts Aside c c.startConnect.state c.startConnect.effects ∧ ∀ call ∈ c.startConnect.calls, _
    rw [Client.startConnect]
    split
    · refine ⟨aside_acts ⟨rfl, rfl, rfl⟩, ?_⟩
      simp [Client.notifyConnectorReceivers, Call.Waiter]
    · exact ⟨.nothing, by simp [Client.processEvent, Call.Waiter]⟩
  | filterSubscribe filter receiver => exact absurd rfl (hop filter receiver)
  | handshaker | connect => exact ⟨aside_acts ⟨rfl, rfl, rfl⟩, by simp [Client.operate]⟩
  | close => exact ⟨Acts.nothing.note trivial, by simp [Client.operate, Client.close]⟩

/-- Everything a call on top of the stack can do, by its acts. -/
inductive ActTurn (c : Client) : Call → Action → Reaction → Prop
  | filterSubscribe (filter : TopicFilter) (receiver : Receiver) :
      ActTurn c .user (.operate (.filterSubscribe filter receiver))
        (c.operateFrom (.filterSubscribe filter receiver))
  | waiter (receiver : Receiver) (publish : Publish) :
      ActTurn c (.publishWaiter receiver publish) .run
        { state := c, calls := [.user], effects := [.waiter receiver publish] }
  | rx (e : Event) : ActTurn c (.dispatch .rx e) .run (c.dispatch e .rx)
  | performs (call : Call) (a : Action) (r : Reaction) (h : Performs Aside c r)
      (hcall : ¬ call.Waiter)
      (ha : ∀ filter receiver, a ≠ .operate (.filterSubscribe filter receiver)) :
      ActTurn c call a r

theorem exec_acts {c : Client} {call : Call} {r : Reaction} (h : c.exec call = some r) :
    ActTurn c call .run r := by
  cases call with
  | dispatch region e =>
    cases h
    cases region with
    | main =>
      obtain ⟨r, hturn, hr⟩ := c.dispatch_main e
      rw [hr]
      exact .performs _ _ _ ((performs_main hturn).withEntry e c.main) id (by simp)
    | rx => exact .rx e
    | ping =>
      refine .performs _ _ _ (.acts _ (acts_ping c e) ?_) id (by simp)
      rw [dispatch_ping_calls]
      simp
    | keepAlive =>
      refine .performs _ _ _ (.acts _ (acts_keepAlive c e) ?_) id (by simp)
      rw [dispatch_keepAlive_calls]
      simp
  | anonymous =>
    cases h
    refine .performs _ _ _ (.acts _ (acts_anonymous c) ?_) id (by simp)
    intro call hcall hwaiter
    by_cases hmain : c.main = .startHandshake
    · rw [(Client.anonymous_same hmain).2.1 call hcall] at hwaiter
      exact hwaiter
    · rw [Client.anonymous, if_neg hmain] at hcall
      cases hcall
  | maybeSendQueuedPublish =>
    cases h
    refine .performs _ _ _ (.acts _ ((exchanges_maybeSend c).mono fun _ _ => False.elim) ?_) id (by simp)
    exact fun call hcall _ => c.maybeSend_sends.calls call hcall
  | notifyConnectorReceivers success =>
    cases h
    refine .performs _ _ _ (.acts _ (aside_acts ⟨rfl, rfl, rfl⟩) ?_) id (by simp)
    simp [Client.notifyConnectorReceivers, Call.Waiter]
  | connectorReceiver receiver success =>
    cases h
    exact .performs _ _ _ (.acts _ (Acts.nothing.note trivial) (by simp [Call.Waiter])) id (by simp)
  | close =>
    cases h
    exact .performs _ _ _ (.acts _ (Acts.nothing.note trivial) (by simp [Client.close])) id (by simp)
  | publishWaiter receiver publish =>
    cases h
    exact .waiter receiver publish
  | user | receiveOneMessage => cases h

theorem respond_acts {c : Client} {call : Call} {a : Action} {r : Reaction}
    (h : c.respond call a = some r) : ActTurn c call a r := by
  cases a with
  | run => exact exec_acts h
  | operate op =>
    cases call <;> cases h
    by_cases hop : ∃ filter receiver, op = .filterSubscribe filter receiver
    · obtain ⟨filter, receiver, rfl⟩ := hop
      exact .filterSubscribe filter receiver
    · have hother : ∀ filter receiver, op ≠ .filterSubscribe filter receiver :=
        fun filter receiver heq => hop ⟨filter, receiver, heq⟩
      obtain ⟨hacts, hcalls⟩ := performs_operate c hother
      refine .performs _ _ _ (.acts _ hacts ?_) id (by simpa using hother)
      intro call hmem
      rw [Client.operateFrom] at hmem
      rcases List.mem_append.mp hmem with hmem | hmem
      · split at hmem
        · cases hmem
        · exact hcalls call hmem
      · rw [List.mem_singleton.mp hmem]
        exact id
  | «return» =>
    cases call <;> cases h
    exact .performs _ _ _ (.acts _ .nothing (by simp)) id (by simp)
  | buffered packet =>
    cases call <;> cases h
    exact .performs _ _ _ (.acts _ .nothing (by simp [Client.processEvent, Call.Waiter])) id (by simp)
  | suspend =>
    cases call <;> cases h
    exact .performs _ _ _ (.acts _ (aside_acts ⟨rfl, rfl, rfl⟩) (by simp)) id (by simp)
  | _ => cases call <;> cases h

end Mqtt5.ClientActs
