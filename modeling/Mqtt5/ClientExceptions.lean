import Mqtt5.ClientActs

/-!
# Exceptions

An encoder is the only part of the client that throws, and the client encodes few packets
whose contents it has not chosen itself: what its user asks it to send, and the CONNECT with
the user's options. If these can be encoded, no packet that the server sends and no order of
events makes any call throw.
-/
namespace Mqtt5.ClientExceptions
open WirePrimitives WirePublish WireConnect WireControlPacket CallMachine ClientState
open ClientActs
open WireSubscribe hiding TopicFilter
open TopicMatching

/-- A request whose packet can be encoded, under whatever identifier it gets. -/
def Encodable : Operation → Prop
  | .handshaker opts => Encodes (.connect (Client.connectMessage opts))
  | .publish message => ∀ id, Encodes (.publish { message with packetIdentifier := id })
  | .subscribe subscriptions modifier => ∀ id, Encodes (.subscribe
      { modifier { topics := subscriptions.map fun s => ⟨s.topic.toString, s.flags⟩ } with
        packetIdentifier := id })
  | .unsubscribe unsub => ∀ id, Encodes (.unsubscribe { unsub with packetIdentifier := id })
  | _ => True

/-- All that the client has been given to send can be encoded. -/
structure Ready (c : Client) : Prop where
  connect : Encodes (.connect (Client.connectMessage c.connectOpts))
  queued : ∀ op ∈ c.queuedPublishes, Encodes (.publish op.message)

/-- A reaction that does not throw, and leaves nothing behind that will. -/
structure Safe (r : Reaction) : Prop where
  ready : Ready r.state
  threw : r.threw = false

theorem Ready.of_eq {c d : Client} (h : Ready c) (hopts : d.connectOpts = c.connectOpts)
    (hqueue : d.queuedPublishes = c.queuedPublishes) : Ready d where
  connect := hopts ▸ h.connect
  queued := hqueue ▸ h.queued

theorem Ready.same {c d : Client} (h : Ready c) (hsame : c.SameExchanges d) : Ready d :=
  h.of_eq hsame.receive.connectOpts hsame.send.queuedPublishes

/-! ## Handlers and requests -/

theorem safe_startFn {c : Client} (h : Ready c) {op : PublishOpStarter}
    (hop : Encodes (.publish op.message)) : Safe (c.startFn op) := by
  obtain ⟨pendingWrites, hstart⟩ := c.startFn_of_encodes hop
  rw [hstart]
  exact ⟨h.of_eq rfl rfl, rfl⟩

theorem safe_maybeSend {c : Client} (h : Ready c) : Safe c.maybeSendQueuedPublish := by
  obtain hfull | hempty | ⟨next, queued, hqueue, hnext⟩ := c.maybeSend_cases
  · rw [hfull]
    exact ⟨h, rfl⟩
  · rw [hempty]
    exact ⟨h.of_eq rfl rfl, rfl⟩
  · rw [hnext]
    have hall := h.queued
    rw [hqueue] at hall
    obtain ⟨hfirst, hothers⟩ := List.forall_mem_cons.mp hall
    have hready : Ready { c with
        serverSendQuota := c.serverSendQuota + 1, queuedPublishes := queued } :=
      ⟨h.connect, hothers⟩
    exact safe_startFn hready hfirst

theorem safe_sendTurn {c : Client} (h : Ready c) {p : ControlPacket} {r : Reaction}
    (hturn : c.SendTurn p r) : Safe r := by
  cases hturn with
  | idle => exact ⟨h, rfl⟩
  | puback => exact safe_maybeSend h
  | pubrec | finished | advanced | subscribed | unsubscribed => exact ⟨h.of_eq rfl rfl, rfl⟩

/-- Whatever packet the server sends. -/
theorem safe_handlePacket {c : Client} (h : Ready c) (p : ControlPacket) :
    Safe (c.handlePacket p) := by
  have hreceives : ∀ {r : Reaction}, c.Receives r → r.state.connectOpts = c.connectOpts →
      r.threw = false → Safe r := fun hside hopts hthrew =>
    ⟨h.of_eq hopts hside.state.queuedPublishes, hthrew⟩
  have hapart : Apart Client.connectOpts := fun _ _ _ _ _ _ _ _ _ _ _ => rfl
  have hopts := hapart.performs (performs_handlePacket c p)
  cases p with
  | publish publish =>
    exact hreceives (c.handlePublish_receives publish) hopts (c.handlePublish_threw publish)
  | pubrel pubrel =>
    exact hreceives (c.handlePubrel_receives pubrel) hopts (c.handlePubrel_threw pubrel)
  | _ => exact safe_sendTurn h (c.handlePacket_sendTurn (by simp) (by simp))

theorem encodes_disconnect (reason : DisconnectReason) :
    Encodes (.disconnect { reason }) := by
  have hproperties : ({} : DisconnectProperties).serialize = .emit [0] := by decide
  have hbody : ∃ zs : Bytes, zs.length ≤ 2 ∧ Disconnect.serializeBody { reason } = .emit zs := by
    rw [Disconnect.serializeBody, hproperties, writeInt8_eq]
    split
    · exact ⟨_, by simp, rfl⟩
    · exact ⟨_, by simp, rfl⟩
  obtain ⟨zs, hlen, hzs⟩ := hbody
  apply encodes_iff.mpr
  change ∃ frame, Disconnect.serialize { reason } = .emit frame
  rw [Disconnect.serialize, hzs]
  exact WireHeader.writePacket_emits _ _ (by omega)

theorem safe_startPublish {c : Client} (h : Ready c) {message : Publish}
    (hencodes : ∀ id, Encodes (.publish { message with packetIdentifier := id })) :
    Safe (c.startPublish message) := by
  by_cases hqos : message.qualityOfService = qos0
  · have hmessage : Encodes (.publish message) := hencodes message.packetIdentifier
    obtain ⟨pendingWrites, hsend⟩ := c.sendMessage_of_encodes hmessage
    rw [c.startPublish_of_qos0 hqos, hsend, Reaction.andThen_of_not_threw rfl]
    exact ⟨h.of_eq rfl rfl, rfl⟩
  · have hstarter : Encodes (.publish (c.nextStarter message).message) :=
      hencodes c.nextPacketIdentifier.next
    by_cases hfree : c.serverSendQuota > 0
    · have hready : Ready { c with nextPacketIdentifier := c.nextPacketIdentifier.advance } :=
        ⟨h.connect, h.queued⟩
      rw [c.startPublish_of_free hqos hfree]
      exact safe_startFn hready hstarter
    · rw [c.startPublish_of_taken hqos hfree]
      refine ⟨⟨h.connect, ?_⟩, rfl⟩
      intro op hop
      obtain hop | hop := List.mem_append.mp hop
      · exact h.queued op hop
      · rw [List.mem_singleton.mp hop]
        exact hstarter

/-- A subscribe and an unsubscribe are sent at once. -/
theorem safe_sent {c d : Client} (h : Ready c) (hopts : d.connectOpts = c.connectOpts)
    (hqueue : d.queuedPublishes = c.queuedPublishes) {packet : ControlPacket}
    (hencodes : Encodes packet) {next : Client → Reaction}
    (hnext : ∀ d, (next d).threw = false ∧ (next d).state.connectOpts = d.connectOpts ∧
      (next d).state.queuedPublishes = d.queuedPublishes) :
    Safe ((d.sendMessage packet).andThen next) := by
  obtain ⟨pendingWrites, hsend⟩ := d.sendMessage_of_encodes hencodes
  rw [hsend, Reaction.andThen_of_not_threw rfl]
  obtain ⟨hthrew, hsame, hsameQueue⟩ := hnext { d with pendingWrites }
  exact ⟨h.of_eq (hsame.trans hopts) (hsameQueue.trans hqueue), hthrew⟩

theorem safe_operate {c : Client} (h : Ready c) {op : Operation} (hop : Encodable op) :
    Safe (c.operate op) := by
  cases op with
  | handshaker opts => exact ⟨⟨hop, h.queued⟩, rfl⟩
  | publish message => exact safe_startPublish h hop
  | subscribe subscriptions modifier =>
    change Safe (c.startSubscribe subscriptions modifier)
    rw [Client.startSubscribe]
    refine safe_sent h ?_ ?_ (hop _) fun d => ⟨rfl, rfl, rfl⟩ <;> rfl
  | unsubscribe unsub =>
    change Safe (c.startUnsubscribe unsub)
    rw [Client.startUnsubscribe]
    refine safe_sent h ?_ ?_ (hop _) fun d => ⟨rfl, rfl, rfl⟩ <;> rfl
  | startConnect =>
    have hquiet := Client.quiet_startConnect (.refl c)
    exact ⟨h.same hquiet.same, hquiet.threw⟩
  | disconnect reason =>
    obtain ⟨pendingWrites, hwriter⟩ :=
      c.controlPacketWriter_of_encodes (encodes_disconnect reason) .disconnector
    change Safe (c.controlPacketWriter _ .disconnector)
    rw [hwriter]
    exact ⟨h.of_eq rfl rfl, rfl⟩
  | connect | filterSubscribe | close => exact ⟨h.of_eq rfl rfl, rfl⟩

/-! ## Runs -/

theorem safe_main {c : Client} (h : Ready c) {e : Event} {r : Reaction} (hturn : c.MainTurn e r) :
    Safe r := by
  cases hturn with
  | packet p => exact safe_handlePacket h p
  | pubackSent =>
    obtain ⟨_, hsent⟩ := c.handlePubackSent_eq
    rw [hsent]
    exact ⟨h.of_eq rfl rfl, rfl⟩
  | connack p =>
    obtain ⟨_, _, hack⟩ := { c with main := .connected }.handleConnack_eq p
    rw [hack]
    exact ⟨h.of_eq rfl rfl, rfl⟩
  | handshake | disconnect | ignored => exact ⟨h.of_eq rfl rfl, rfl⟩

theorem safe_respond {c : Client} (h : Ready c) {call : Call} {a : Action} {r : Reaction}
    (hr : c.respond call a = some r) (ha : ∀ op, a = .operate op → Encodable op) : Safe r := by
  cases Client.respond_turn hr with
  | main e r hturn =>
    have hsafe := safe_main h hturn
    exact ⟨hsafe.ready, hsafe.threw⟩
  | anonymous hmain =>
    obtain ⟨d, hsame, hsent⟩ := Client.anonymous_of_encodes hmain h.connect
    rw [hsent]
    exact ⟨(h.of_eq rfl rfl : Ready { c with main := .handshaking }).same hsame, rfl⟩
  | maybeSend => exact safe_maybeSend h
  | operate op => exact ⟨(safe_operate h (ha op rfl)).ready, rfl⟩
  | close => exact ⟨h, rfl⟩
  | quiet _ _ _ hquiet => exact ⟨h.same hquiet.same, hquiet.threw⟩

theorem ready_run {ok : Config → Action → Prop} {c : Config} (run : client.Run ok initial c)
    (hok : ∀ c a, ok c a → ∀ op, a = .operate op → Encodable op) : Ready c.state := by
  refine run.invariant (I := fun c => Ready c.state) ⟨by decide, by simp [initial]⟩ ?_ ?_
  · intro c a r hc _ _ hr
    exact hc.same (Client.arrive_quiet hr).same
  · intro c a call rest r hc ha _ hr
    exact (safe_respond hc hr (hok c a ha)).ready

/-- Nothing that can happen next throws. -/
structure Smooth (c : Config) (a : Action) : Prop where
  arrive : ∀ r, c.state.arrive a = some r → r.threw = false
  respond : ∀ call r, c.state.respond call a = some r → r.threw = false
  /-- Nor does the request that the user's code makes, before that code could catch it. -/
  operate : ∀ op, a = .operate op → (c.state.operate op).threw = false

/-- If the user's requests can be encoded, no handler, call or request throws in any run, whatever
decoded packets the server sends and however the events are ordered. -/
theorem nothing_throws {ok : Config → Action → Prop} {c : Config} (run : client.Run ok initial c)
    (hok : ∀ c a, ok c a → ∀ op, a = .operate op → Encodable op) {a : Action} (ha : ok c a) :
    Smooth c a := by
  have hready := ready_run run hok
  constructor
  · intro r hr
    exact (Client.arrive_quiet hr).threw
  · intro call r hr
    exact (safe_respond hready hr (hok c a ha)).threw
  · intro op hop
    exact (safe_operate hready (hok c a ha op hop)).threw

/-- The only request is to connect. -/
def connectsOnly (_ : Config) : Action → Bool
  | .operate .startConnect => true
  | .operate _ => false
  | _ => true

theorem encodable_of_connectsOnly {c : Config} {op : Operation}
    (h : connectsOnly c (.operate op) = true) : Encodable op := by
  cases op with
  | startConnect => trivial
  | _ => cases h

/-- A client about to send its CONNECT. -/
theorem nothing_throws_connecting : ∃ c : Config, c.stack = [.anonymous, .user] ∧
    c.state.main = .startHandshake ∧ Smooth c .run := by
  have hsteps : (client.stepsWhile connectsOnly initial
      [.enter, .operate .startConnect, .run, .run, .suspend, .run, .run]).map
        (fun c => (c.stack, c.state.main)) = some ([.anonymous, .user], .startHandshake) := by
    decide +kernel
  obtain ⟨c, hc, hfacts⟩ := Option.map_eq_some_iff.mp hsteps
  obtain ⟨hstack, hmain⟩ := Prod.mk.inj hfacts
  have hok : ∀ (c : Config) (a : Action), connectsOnly c a = true →
      ∀ op, a = .operate op → Encodable op := by
    rintro c _ hop op rfl
    exact encodable_of_connectsOnly hop
  exact ⟨c, hstack, hmain, nothing_throws (Program.Run.of_stepsWhile _ hc) hok (a := .run) rfl⟩

end Mqtt5.ClientExceptions
