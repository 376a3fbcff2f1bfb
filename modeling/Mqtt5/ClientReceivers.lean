import Mqtt5.ClientInFlight

/-!
# The receiver of a publish

Receivers are numbered in the order of their draws. The one that a publish hands over when it
starts is never that of a subscribe or an unsubscribe, and what is moved on or completed with
it is that publish, while it is under way.
-/
namespace Mqtt5.ClientReceivers
open WirePrimitives WirePublish WireConnect WireControlPacket CallMachine ClientState ClientSession
open ClientInFlight ClientIdentifiers

/-- The receivers of subscribes and unsubscribes. -/
def others (c : Client) : List Receiver :=
  c.subscribeMessages.map (·.receiver) ++ c.unsubscribeMessages.map (·.receiver)

/-- A publish that waits in the queue, or that an action starts with the next draw. -/
def Offered (c : Client) (a : Action) (d : Client) (op : PublishOpStarter) : Prop :=
  op ∈ c.queuedPublishes ∨ ∃ message, a = .operate (.publish message) ∧
    op = c.nextStarter message ∧ d.nextPacketIdentifier = c.nextPacketIdentifier.advance

/-- Only what is in a table is moved on or completed, before anything else happens. -/
def Settles (c : Client) : List Effect → Prop
  | [] => True
  | e :: older =>
      (∀ receiver, settles e = some receiver → (∀ e ∈ older, Untracked e) ∧
        (receiver ∈ others c ∨ ∃ msg ∈ c.publishedMessages, msg.receiver = receiver)) ∧
      Settles c older

/-- What a reaction to an action does with receivers. -/
structure Names (c : Client) (a : Action) (r : Reaction) : Prop where
  queued : ∀ op ∈ r.state.queuedPublishes, Offered c a r.state op
  others : ∀ receiver ∈ others r.state, receiver ∈ ClientReceivers.others c ∨
    receiver = c.nextPacketIdentifier.drawn ∧ ∀ message, a ≠ .operate (.publish message)
  started : ∀ receiver message, .started receiver message ∈ r.effects →
    ∃ op, Offered c a r.state op ∧ op.receiver = receiver ∧ op.message = message
  settled : Settles c r.effects

theorem settles_nothing {c : Client} {effects : List Effect}
    (h : ∀ e ∈ effects, settles e = none) : Settles c effects := by
  induction effects with
  | nil => trivial
  | cons e effects ih =>
    refine ⟨?_, ih fun e he => h e (List.mem_cons_of_mem _ he)⟩
    intro receiver hreceiver
    rw [h e List.mem_cons_self] at hreceiver
    cases hreceiver

/-- The event that the main region takes is in the log before what it does. -/
theorem Settles.entry {c : Client} {effects : List Effect} (h : Settles c effects) (e : Event)
    (main : MainState) : Settles c (effects ++ [.event e main]) := by
  induction effects with
  | nil => exact settles_nothing (by simp [settles])
  | cons first effects ih =>
    refine ⟨?_, ih h.2⟩
    intro receiver hreceiver
    obtain ⟨holder, hmem⟩ := h.1 receiver hreceiver
    refine ⟨?_, hmem⟩
    intro e' he'
    rcases List.mem_append.mp he' with he' | he'
    · exact holder e' he'
    · rw [List.mem_singleton.mp he']
      exact ⟨rfl, by simp⟩

theorem others_eq {c d : Client} (h : c.SameSendSide d) : others d = others c := by
  rw [others, h.subscribeMessages, h.unsubscribeMessages, others]

/-- The queue and the tables stay as they are. -/
theorem names_aside {c : Client} {a : Action} {r : Reaction}
    (hqueue : r.state.queuedPublishes = c.queuedPublishes) (hothers : others r.state = others c)
    (heffects : ∀ e ∈ r.effects, Untracked e) : Names c a r where
  queued op hop := by
    rw [hqueue] at hop
    exact .inl hop
  others receiver hmem := by
    rw [hothers] at hmem
    exact .inl hmem
  started receiver message hmem := absurd rfl ((heffects _ hmem).2 receiver message)
  settled := settles_nothing fun e he => (heffects e he).1

theorem names_same {c : Client} {a : Action} {r : Reaction} (h : c.SameSendSide r.state)
    (heffects : ∀ e ∈ r.effects, Untracked e) : Names c a r :=
  names_aside h.queuedPublishes (others_eq h) heffects

theorem Names.entry {c : Client} {a : Action} {r : Reaction} (h : Names c a r) (e : Event)
    (main : MainState) : Names c a (withEntry r e main) where
  queued := h.queued
  others := h.others
  started receiver message hmem := by
    rcases List.mem_append.mp hmem with hmem | hmem
    · exact h.started receiver message hmem
    · cases List.mem_singleton.mp hmem
  settled := h.settled.entry e main

theorem names_startFn {c d : Client} {a : Action} {op : PublishOpStarter}
    (hop : Offered c a d op) (hqueue : ∀ q ∈ d.queuedPublishes, Offered c a d q)
    (hothers : others d = others c) : Names c a (d.startFn op) := by
  have hsame : ∀ receiver ∈ others d, receiver ∈ others c ∨
      receiver = c.nextPacketIdentifier.drawn ∧ ∀ message, a ≠ .operate (.publish message) := by
    intro receiver hmem
    rw [hothers] at hmem
    exact .inl hmem
  by_cases hencodes : Encodes (.publish op.message)
  · obtain ⟨_, hstart⟩ := d.startFn_of_encodes hencodes
    rw [hstart]
    refine ⟨hqueue, hsame, ?_, settles_nothing (by simp [settles])⟩
    intro receiver message hmem
    have hstarted : receiver = op.receiver ∧ message = op.message := by simpa using hmem
    exact ⟨op, hop, hstarted.1.symm, hstarted.2.symm⟩
  · rw [d.startFn_of_not_encodes hencodes]
    exact ⟨hqueue, hsame, by simp, trivial⟩

theorem names_maybeSend (c : Client) (a : Action) : Names c a c.maybeSendQueuedPublish := by
  rcases c.maybeSend_cases with hfull | hempty | ⟨next, queued, hqueue, hnext⟩
  · rw [hfull]
    exact names_aside rfl rfl (by simp)
  · rw [hempty]
    exact names_aside rfl rfl (by simp)
  · have hwaited : ∀ op ∈ next :: queued, op ∈ c.queuedPublishes := by
      intro op hop
      rwa [hqueue]
    rw [hnext]
    refine names_startFn (.inl (hwaited next List.mem_cons_self)) ?_ rfl
    exact fun op hop => .inl (hwaited op (List.mem_cons_of_mem _ hop))

/-- Nothing is new in the tables, and one entry of them is settled. -/
theorem names_settled {c d : Client} {a : Action} (newer : List Effect) {e : Effect}
    {receiver : Receiver} {calls : List Call} (hqueue : d.queuedPublishes = c.queuedPublishes)
    (hothers : ∀ receiver ∈ others d, receiver ∈ others c) (hnewer : ∀ e ∈ newer, Untracked e)
    (he : settles e = some receiver)
    (hmem : receiver ∈ others c ∨ ∃ msg ∈ c.publishedMessages, msg.receiver = receiver) :
    Names c a { state := d, calls, effects := newer ++ [e] } where
  queued op hop := by
    change op ∈ d.queuedPublishes at hop
    rw [hqueue] at hop
    exact .inl hop
  others receiver hmem := .inl (hothers receiver hmem)
  started receiver message hstarted := by
    rcases List.mem_append.mp hstarted with hstarted | hstarted
    · exact absurd rfl ((hnewer _ hstarted).2 receiver message)
    · rw [← List.mem_singleton.mp hstarted] at he
      cases he
  settled := by
    change Settles c (newer ++ [e])
    induction newer with
    | nil =>
      refine ⟨?_, trivial⟩
      intro other hother
      rw [he] at hother
      cases hother
      exact ⟨by simp, hmem⟩
    | cons first newer ih =>
      refine ⟨?_, ih fun e he => hnewer e (List.mem_cons_of_mem _ he)⟩
      intro other hother
      rw [(hnewer first List.mem_cons_self).1] at hother
      cases hother

theorem mem_map_of_eraseP {α : Type} {p : α → Bool} {f : α → Receiver} {as : List α}
    {receiver : Receiver} (h : receiver ∈ (as.eraseP p).map f) : receiver ∈ as.map f :=
  (List.eraseP_sublist.map f).subset h

theorem names_sendTurn {c : Client} {a : Action} {p : ControlPacket} {r : Reaction}
    (h : c.SendTurn p r) : Names c a r := by
  have hfound : ∀ {id : UInt16} {msg : InFlightPublish},
      c.publishedMessages.find? (·.named id) = some msg →
        ∃ msg' ∈ c.publishedMessages, msg'.receiver = msg.receiver :=
    fun hfind => ⟨_, List.mem_of_find?_eq_some hfind, rfl⟩
  cases h with
  | idle => exact names_aside rfl rfl (by simp)
  | puback => exact names_maybeSend c a
  | pubrec =>
    exact names_aside rfl rfl (by simp [Untracked, settles])
  | finished _ _ _ _ _ hfind =>
    exact names_settled [] rfl (fun _ h => h) (by simp) rfl (.inr (hfound hfind))
  | advanced _ _ hfind =>
    exact names_settled [_] rfl (fun _ h => h) (by simp [Untracked, settles]) rfl
      (.inr (hfound hfind))
  | subscribed ack msg hfind =>
    refine names_settled [] rfl ?_ (by simp) rfl (.inl ?_)
    · intro receiver hmem
      rw [others, List.mem_append] at hmem ⊢
      exact hmem.imp_left fun h => mem_map_of_eraseP h
    · exact List.mem_append_left _ (List.mem_map_of_mem (List.mem_of_find?_eq_some hfind))
  | unsubscribed ack msg hfind =>
    refine names_settled [] rfl ?_ (by simp) rfl (.inl ?_)
    · intro receiver hmem
      rw [others, List.mem_append] at hmem ⊢
      exact hmem.imp_right fun h => mem_map_of_eraseP h
    · exact List.mem_append_right _ (List.mem_map_of_mem (List.mem_of_find?_eq_some hfind))

theorem names_handlePacket (c : Client) (a : Action) (p : ControlPacket) :
    Names c a (c.handlePacket p) := by
  obtain hreceives | hsends := c.handlePacket_turn p
  · exact names_same hreceives.state fun e he => untracked_of_receiving (hreceives.effects e he)
  · exact names_sendTurn hsends

theorem names_main {c : Client} {a : Action} {e : Event} {r : Reaction} (h : c.MainTurn e r) :
    Names c a r := by
  cases h with
  | packet p => exact names_handlePacket c a p
  | pubackSent =>
    have hreceives := c.handlePubackSent_receives
    exact names_same hreceives.state fun e he => untracked_of_receiving (hreceives.effects e he)
  | connack p =>
    obtain ⟨_, _, hack⟩ := { c with main := .connected }.handleConnack_eq p
    rw [hack]
    exact names_aside rfl rfl (by simp)
  | handshake | ignored => exact names_aside rfl rfl (by simp)
  | disconnect =>
    exact names_aside rfl rfl (by simp [Client.close, Untracked, settles])

/-! ## Requests -/

theorem names_startPublish (c : Client) (message : Publish) :
    Names c (.operate (.publish message)) (c.startPublish message) := by
  by_cases hqos : message.qualityOfService = qos0
  · rw [c.startPublish_of_qos0 hqos]
    by_cases hencodes : Encodes (.publish message)
    · obtain ⟨_, hsend⟩ := c.sendMessage_of_encodes hencodes
      rw [hsend, Reaction.andThen_of_not_threw rfl]
      exact names_aside rfl rfl (by simp [Untracked, settles])
    · rw [c.sendMessage_of_not_encodes hencodes, Reaction.andThen_of_threw rfl]
      exact names_aside rfl rfl (by simp)
  by_cases hfree : c.serverSendQuota > 0
  · rw [c.startPublish_of_free hqos hfree]
    exact names_startFn (.inr ⟨message, rfl, rfl, rfl⟩) (fun _ h => .inl h) rfl
  · rw [c.startPublish_of_taken hqos hfree]
    refine ⟨?_, fun _ h => .inl h, by simp, trivial⟩
    intro op hop
    rcases List.mem_append.mp hop with hop | hop
    · exact .inl hop
    · rw [List.mem_singleton.mp hop]
      exact .inr ⟨message, rfl, rfl, rfl⟩

theorem names_operate (c : Client) (op : Operation) :
    Names c (.operate op) (c.operate op) := by
  have haside := c.operate_aside op
  cases op with
  | publish message => exact names_startPublish c message
  | subscribe subscriptions modifier =>
    change Names c _ (c.startSubscribe subscriptions modifier)
    obtain ⟨message, _, -, hstart⟩ | hstart := c.startSubscribe_cases subscriptions modifier
    · rw [hstart]
      refine ⟨fun _ h => .inl h, ?_, by simp, settles_nothing (by simp [settles])⟩
      intro receiver hmem
      simp only [others, List.map_append, List.mem_append] at hmem ⊢
      rcases hmem with (hmem | hmem) | hmem
      · exact .inl (.inl hmem)
      · exact .inr ⟨List.mem_singleton.mp hmem, by simp⟩
      · exact .inl (.inr hmem)
    · rw [hstart]
      exact names_aside rfl rfl (by simp)
  | unsubscribe unsub =>
    change Names c _ (c.startUnsubscribe unsub)
    obtain ⟨message, _, -, hstart⟩ | hstart := c.startUnsubscribe_cases unsub
    · rw [hstart]
      refine ⟨fun _ h => .inl h, ?_, by simp, settles_nothing (by simp [settles])⟩
      intro receiver hmem
      simp only [others, List.map_append, List.mem_append] at hmem ⊢
      rcases hmem with hmem | hmem | hmem
      · exact .inl (.inl hmem)
      · exact .inl (.inr hmem)
      · exact .inr ⟨List.mem_singleton.mp hmem, by simp⟩
    · rw [hstart]
      exact names_aside rfl rfl (by simp)
  | _ =>
    have haside := haside (by simp) (by simp) (by simp)
    refine names_same haside.state fun e he => ?_
    rcases haside.effects e he with ⟨reason, rfl⟩ | rfl <;> exact ⟨rfl, by simp⟩

theorem names_respond {c : Client} {call : Call} {a : Action} {r : Reaction}
    (hr : c.respond call a = some r) : Names c a r := by
  cases Client.respond_turn hr with
  | main e r hturn => exact (names_main hturn).entry e c.main
  | anonymous hstart =>
    obtain ⟨hsame, -, heffects⟩ := Client.anonymous_same hstart
    have hothers := others_eq hsame.send
    refine names_aside hsame.send.queuedPublishes hothers fun e he => ?_
    rw [heffects e he]
    exact ⟨rfl, by simp⟩
  | maybeSend => exact names_maybeSend c _
  | operate op =>
    have hnames := names_operate c op
    exact ⟨hnames.queued, hnames.others, hnames.started, hnames.settled⟩
  | close =>
    exact names_aside rfl rfl (by simp [Client.close, Untracked, settles])
  | quiet _ _ _ hquiet =>
    exact names_same hquiet.same.send fun e he => untracked_of_quiet (hquiet.effects e he)

/-! ## Receivers that were not drawn yet -/

/-- The receivers in the log have been drawn. -/
structure Drawn (c : Config) : Prop where
  started : ∀ receiver message, .started receiver message ∈ c.log →
    receiver < c.state.nextPacketIdentifier.drawn
  settled : ∀ e ∈ c.log, ∀ receiver, settles e = some receiver →
    receiver < c.state.nextPacketIdentifier.drawn

theorem drawn_le {c d : Client} (h : Draws c d) :
    c.nextPacketIdentifier.drawn ≤ d.nextPacketIdentifier.drawn := by
  obtain ⟨hsame, -⟩ | ⟨hnext, -⟩ := h
  · rw [hsame]
  · rw [hnext]
    exact Nat.le_succ _

theorem published_lt {c : Client} (h : Accounted c) {msg : InFlightPublish}
    (hmsg : msg ∈ c.publishedMessages) : msg.receiver < c.nextPacketIdentifier.drawn := by
  apply h.draw_lt (heldByPublished msg)
  exact mem_held.mpr (.inl (List.mem_map_of_mem hmsg))

theorem queued_lt {c : Client} (h : Accounted c) {op : PublishOpStarter}
    (hop : op ∈ c.queuedPublishes) : op.receiver < c.nextPacketIdentifier.drawn := by
  apply h.draw_lt (heldByQueued op)
  exact mem_held.mpr (.inr (.inl (List.mem_map_of_mem hop)))

theorem others_lt {c : Client} (h : Accounted c) {receiver : Receiver}
    (hmem : receiver ∈ others c) : receiver < c.nextPacketIdentifier.drawn := by
  obtain hmem | hmem := List.mem_append.mp hmem
  · obtain ⟨msg, hmsg, rfl⟩ := List.mem_map.mp hmem
    apply h.draw_lt (heldBySubscribe msg)
    exact mem_held.mpr (.inr (.inr (.inl (List.mem_map_of_mem hmsg))))
  · obtain ⟨msg, hmsg, rfl⟩ := List.mem_map.mp hmem
    apply h.draw_lt (heldByUnsubscribe msg)
    exact mem_held.mpr (.inr (.inr (.inr (List.mem_map_of_mem hmsg))))

theorem Settles.lt {c : Client} (h : Accounted c) {effects : List Effect}
    (hsettles : Settles c effects) {e : Effect} (he : e ∈ effects) {receiver : Receiver}
    (hreceiver : settles e = some receiver) : receiver < c.nextPacketIdentifier.drawn := by
  induction effects with
  | nil => cases he
  | cons first effects ih =>
    obtain rfl | he := List.mem_cons.mp he
    · obtain ⟨-, hother | ⟨msg, hmsg, rfl⟩⟩ := hsettles.1 receiver hreceiver
      · exact others_lt h hother
      · exact published_lt h hmsg
    · exact ih hsettles.2 he

theorem drawn_react {c : Config} (hc : Drawn c) (h : Accounted c.state) {a : Action} {r : Reaction}
    {rest : List Call} (hnames : Names c.state a r) (hdraws : Draws c.state r.state) :
    Drawn (client.react c rest r) := by
  have hle := drawn_le hdraws
  constructor
  · intro receiver message hmem
    obtain hmem | hmem := List.mem_append.mp hmem
    · obtain ⟨op, hoffered, rfl, rfl⟩ := hnames.started receiver message hmem
      obtain hqueued | ⟨original, -, rfl, hgen⟩ := hoffered
      · exact (queued_lt h hqueued).trans_le hle
      · change c.state.nextPacketIdentifier.drawn < r.state.nextPacketIdentifier.drawn
        rw [hgen]
        exact Nat.lt_succ_self _
    · exact (hc.started receiver message hmem).trans_le hle
  · intro e he receiver hreceiver
    obtain he | he := List.mem_append.mp he
    · exact (hnames.settled.lt h he hreceiver).trans_le hle
    · exact (hc.settled e he receiver hreceiver).trans_le hle

theorem drawn_run {ok : Config → Action → Prop} {c : Config} (run : client.Run ok initial c) :
    Drawn c := by
  have hrun := run.assume (J := fun c => Accounted c.state) fun _ run => accounted_run run
  apply hrun.invariant (I := Drawn)
  · exact ⟨by simp [initial], by simp [initial]⟩
  · intro c a r hc hok _ hr
    have hquiet := Client.arrive_quiet hr
    have hnames : Names c.state a r := names_same hquiet.same.send fun e he =>
      untracked_of_quiet (hquiet.effects e he)
    exact drawn_react hc hok.2 hnames (.of_same hquiet.same.send)
  · intro c a call rest r hc hok _ hr
    exact drawn_react hc hok.2 (names_respond hr) (draws_respond hr)

/-! ## The receiver of one publish -/

/-- A publish that asks for an acknowledgement was started on a run to `c`, with this receiver
and this message. -/
inductive Started (ok : Config → Action → Prop) (op : PublishOpStarter) (c : Config) : Prop
  | operate (d e : Config) (message : Publish) (before : client.Run ok initial d)
      (hqos : message.qualityOfService ≠ qos0)
      (hstep : client.step d (.operate (.publish message)) = some e)
      (hop : op = d.state.nextStarter message) (after : client.Run ok e c) : Started ok op c

/-- What holds of the receiver of a publish from its start on. -/
structure Owned (op : PublishOpStarter) (c : Config) : Prop where
  drawn : op.receiver < c.state.nextPacketIdentifier.drawn
  queued : ∀ q ∈ c.state.queuedPublishes, q.receiver = op.receiver → q.message = op.message
  others : op.receiver ∉ others c.state
  started : ∀ message, .started op.receiver message ∈ c.log → message = op.message
  settled : ∀ e older, e :: older <:+ c.log → settles e = some op.receiver →
    ∃ msg ∈ inFlight older, msg.receiver = op.receiver

theorem settled_append {c : Client} {effects log : List Effect} {receiver : Receiver}
    (hsettles : Settles c effects) (hlog : c.publishedMessages = inFlight log)
    (hothers : receiver ∉ others c)
    (hold : ∀ e older, e :: older <:+ log → settles e = some receiver →
      ∃ msg ∈ inFlight older, msg.receiver = receiver) :
    ∀ e older, e :: older <:+ effects ++ log → settles e = some receiver →
      ∃ msg ∈ inFlight older, msg.receiver = receiver := by
  induction effects with
  | nil => exact hold
  | cons first effects ih =>
    intro e older hsuffix hreceiver
    obtain heq | hsuffix := List.suffix_cons_iff.mp hsuffix
    · injection heq with he holder
      subst he holder
      obtain ⟨huntracked, hmem⟩ := hsettles.1 receiver hreceiver
      change ∃ msg ∈ inFlight (effects ++ log), msg.receiver = receiver
      rw [inFlight_append huntracked, ← hlog]
      exact hmem.resolve_left hothers
    · exact ih hsettles.2 e older hsuffix hreceiver

theorem owned_react {op : PublishOpStarter} {c : Config} (hc : Owned op c)
    (hlog : c.state.publishedMessages = inFlight c.log) {a : Action} {r : Reaction}
    {rest : List Call} (hnames : Names c.state a r) (hdraws : Draws c.state r.state) :
    Owned op (client.react c rest r) := by
  have hoffered : ∀ q, Offered c.state a r.state q → q.receiver = op.receiver →
      q.message = op.message := by
    intro q hq hreceiver
    obtain hqueued | ⟨message, -, rfl, -⟩ := hq
    · exact hc.queued q hqueued hreceiver
    · have hlt := hc.drawn
      rw [← hreceiver] at hlt
      exact absurd hlt (Nat.lt_irrefl _)
  constructor
  · exact hc.drawn.trans_le (drawn_le hdraws)
  · exact fun q hq => hoffered q (hnames.queued q hq)
  · intro hmem
    obtain hmem | hnext := hnames.others op.receiver hmem
    · exact hc.others hmem
    · exact absurd hnext.1 hc.drawn.ne
  · intro message hmem
    obtain hmem | hmem := List.mem_append.mp hmem
    · obtain ⟨q, hq, hreceiver, rfl⟩ := hnames.started op.receiver message hmem
      exact hoffered q hq hreceiver
    · exact hc.started message hmem
  · exact settled_append hnames.settled hlog hc.others hc.settled

theorem startPublish_advances (c : Client) {message : Publish}
    (hqos : message.qualityOfService ≠ qos0) :
    (c.startPublish message).state.nextPacketIdentifier = c.nextPacketIdentifier.advance := by
  by_cases hfree : c.serverSendQuota > 0
  · rw [c.startPublish_of_free hqos hfree]
    exact (held_startFn _ _).1
  · rw [c.startPublish_of_taken hqos hfree]

/-- A start draws a receiver that nothing in the tables and in the log has. -/
theorem owned_start {c : Config} (hc : Drawn c) (h : Accounted c.state) {message : Publish}
    (hqos : message.qualityOfService ≠ qos0) {rest : List Call} {r : Reaction}
    (hr : c.state.respond .user (.operate (.publish message)) = some r) :
    Owned (c.state.nextStarter message) (client.react c rest r) := by
  have hnames := names_respond hr
  have hoffered : ∀ q, Offered c.state (.operate (.publish message)) r.state q →
      q.receiver = c.state.nextPacketIdentifier.drawn →
        q.message = (c.state.nextStarter message).message := by
    intro q hq hreceiver
    obtain hqueued | ⟨original, heq, rfl, -⟩ := hq
    · exact absurd hreceiver (queued_lt h hqueued).ne
    · cases heq
      rfl
  constructor
  · cases hr
    change _ < (c.state.startPublish message).state.nextPacketIdentifier.drawn
    rw [startPublish_advances c.state hqos]
    exact Nat.lt_succ_self _
  · exact fun q hq => hoffered q (hnames.queued q hq)
  · intro hmem
    obtain hmem | ⟨-, hnot⟩ := hnames.others _ hmem
    · exact Nat.lt_irrefl _ (others_lt h hmem)
    · exact hnot message rfl
  · intro other hmem
    obtain hmem | hmem := List.mem_append.mp hmem
    · obtain ⟨q, hq, hreceiver, rfl⟩ := hnames.started _ other hmem
      exact hoffered q hq hreceiver
    · exact absurd (hc.started _ other hmem) (Nat.lt_irrefl _)
  · intro e older hsuffix hreceiver
    obtain he | he := List.mem_append.mp (hsuffix.subset List.mem_cons_self)
    · exact absurd (hnames.settled.lt h he hreceiver) (Nat.lt_irrefl _)
    · exact absurd (hc.settled e he _ hreceiver) (Nat.lt_irrefl _)

theorem owned_run {ok : Config → Action → Prop} {op : PublishOpStarter} {c : Config}
    (hstarted : Started ok op c) : Owned op c := by
  obtain ⟨d, e, message, before, hqos, hstep, rfl, after⟩ := hstarted
  have hbefore : client.Run (fun _ _ => True) initial e :=
    .tail _ (before.mono fun _ _ _ => trivial) trivial hstep
  have hstart : Owned (d.state.nextStarter message) e := by
    cases Program.step_stepped hstep with
    | arrive r hstack hr => cases hr
    | respond call rest r hstack hr =>
      cases call with
      | user => exact owned_start (drawn_run before) (accounted_run before) hqos hr
      | _ => cases hr
  have hafter := after.assume (J := fun c => c.state.publishedMessages = inFlight c.log)
    fun _ run => inFlight_run (hbefore.trans (run.mono fun _ _ _ => trivial))
  apply hafter.invariant hstart
  · intro c a r hc hok _ hr
    have hquiet := Client.arrive_quiet hr
    have hnames : Names c.state a r := names_same hquiet.same.send fun e he =>
      untracked_of_quiet (hquiet.effects e he)
    exact owned_react hc hok.2 hnames (.of_same hquiet.same.send)
  · intro c a call rest r hc hok _ hr
    exact owned_react hc hok.2 (names_respond hr) (draws_respond hr)

theorem started_of_stepsWhile {ok : Config → Action → Bool} {before after : List Action}
    {message : Publish} (hqos : message.qualityOfService ≠ qos0) {c : Config}
    (h : client.stepsWhile ok initial (before ++ .operate (.publish message) :: after) = some c) :
    ∃ d, client.stepsWhile ok initial before = some d ∧
      Started (fun c a => ok c a) (d.state.nextStarter message) c := by
  rw [Program.stepsWhile_append] at h
  obtain ⟨d, hd, hrest⟩ := Option.bind_eq_some_iff.mp h
  refine ⟨d, hd, ?_⟩
  rw [Program.stepsWhile] at hrest
  split at hrest
  case isTrue =>
    obtain ⟨e, hstep, hafter⟩ := Option.bind_eq_some_iff.mp hrest
    exact .operate d e message (.of_stepsWhile before hd) hqos hstep rfl (.of_stepsWhile after hafter)
  case isFalse => cases hrest

/-- What is under way was started with its message. -/
theorem started_of_inFlight {log : List Effect} : ∀ msg ∈ inFlight log,
    .started msg.receiver msg.message ∈ log := by
  induction log with
  | nil => simp [inFlight]
  | cons e log ih =>
    intro msg hmsg
    cases e with
    | started receiver message =>
      obtain hmsg | hmsg := List.mem_append.mp hmsg
      · exact List.mem_cons_of_mem _ (ih msg hmsg)
      · rw [List.mem_singleton.mp hmsg]
        exact List.mem_cons_self
    | advanced receiver =>
      obtain ⟨before, hbefore, rfl | rfl⟩ := mem_modifyFirst hmsg
      · exact List.mem_cons_of_mem _ (ih _ hbefore)
      · have hstarted := ih before hbefore
        rw [advance]
        split <;> exact List.mem_cons_of_mem _ hstarted
    | completed receiver completion =>
      exact List.mem_cons_of_mem _ (ih msg (List.mem_of_mem_eraseP hmsg))
    | _ => exact List.mem_cons_of_mem _ (ih msg hmsg)

/-- From its start on, the publish under way that has the receiver is the one that handed it
over. -/
theorem Owned.message {op : PublishOpStarter} {c : Config} (h : Owned op c) {older : List Effect}
    (hsuffix : older <:+ c.log) {msg : InFlightPublish} (hmsg : msg ∈ inFlight older)
    (hreceiver : msg.receiver = op.receiver) : msg.message = op.message := by
  have hstarted := started_of_inFlight msg hmsg
  rw [hreceiver] at hstarted
  exact h.started _ (hsuffix.subset hstarted)

end Mqtt5.ClientReceivers
