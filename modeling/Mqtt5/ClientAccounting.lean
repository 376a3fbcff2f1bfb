import Mathlib.Algebra.Order.Group.Multiset
import Mathlib.Data.Multiset.Range
import Mathlib.Tactic.Abel
import Mqtt5.ClientSession

/-!
# Where the receivers of started operations are

A publish that asks for an acknowledgement, a subscribe and an unsubscribe hand their
receiver over when they start. It is queued or in a table until an acknowledgement that
carries its packet identifier completes it.
-/
namespace Mqtt5.ClientAccounting
open WirePrimitives WirePublish WireConnect WireControlPacket CallMachine ClientState ClientSession
open WireSubscribe hiding TopicFilter
open TopicMatching

/-! ## Operations and places -/

/-- The message that `subscribe_sender::operation::start` builds. -/
def subscribeMessage (c : Client) (subscriptions : List Client.SingleSubscription)
    (modifier : Subscribe → Subscribe) : Subscribe :=
  { modifier { topics := subscriptions.map fun s => ⟨s.topic.toString, s.flags⟩ } with
    packetIdentifier := c.nextPacketIdentifier.next }

/-- The packet of an operation that hands its receiver over. -/
def started (c : Client) : Operation → Option ControlPacket
  | .publish message =>
      if message.qualityOfService = qos0 then none else some (.publish (c.nextStarter message).message)
  | .subscribe subscriptions modifier =>
      some (.subscribe (subscribeMessage c subscriptions modifier))
  | .unsubscribe unsub =>
      some (.unsubscribe { unsub with packetIdentifier := c.nextPacketIdentifier.next })
  | _ => none

/-- The operations in the order of their start, the last one first; a receiver is the number
of those that started before it. -/
def note (c : Config) (a : Action) (_ : Config) : List ControlPacket :=
  match c.stack, a with
  | .user :: _, .operate op => (started c.state op).toList
  | _, _ => []

/-- A receiver that waits, with the packet of its operation. -/
structure Entry where
  receiver : Receiver
  packet : ControlPacket
  deriving DecidableEq, Repr

def publishedEntry (msg : InFlightPublish) : Entry := ⟨msg.receiver, .publish msg.message⟩
def subscribeEntry (msg : InFlightSubscribe) : Entry := ⟨msg.receiver, .subscribe msg.message⟩
def unsubscribeEntry (msg : InFlightUnsubscribe) : Entry := ⟨msg.receiver, .unsubscribe msg.message⟩
def queuedEntry (op : PublishOpStarter) : Entry := ⟨op.receiver, .publish op.message⟩

/-- What the in-flight tables hold. -/
def tabled (c : Client) : Multiset Entry :=
  ↑(c.publishedMessages.map publishedEntry) + ↑(c.subscribeMessages.map subscribeEntry) +
    ↑(c.unsubscribeMessages.map unsubscribeEntry)

def queued (c : Client) : Multiset Entry := ↑(c.queuedPublishes.map queuedEntry)

def completedBy : Effect → Option Receiver
  | .completed receiver _ => some receiver
  | _ => none

def completed (log : List Effect) : Multiset Receiver := ↑(log.filterMap completedBy)

/-- The packet is an acknowledgement that carries this identifier. -/
def carries (id : UInt16) : ControlPacket → Bool
  | .puback ack | .pubrec ack | .pubcomp ack => ack.packetIdentifier = id
  | .suback ack | .unsuback ack => ack.packetIdentifier = id
  | _ => false

/-- The identifier of an operation's packet. -/
def identifier : ControlPacket → UInt16
  | .publish p => p.packetIdentifier
  | .subscribe p => p.packetIdentifier
  | .unsubscribe p => p.packetIdentifier
  | _ => 0

/-- The packet acknowledges the operation: it is of its kind and carries its identifier. -/
def acknowledges : ControlPacket → ControlPacket → Bool
  | .puback ack, .publish p | .pubrec ack, .publish p | .pubcomp ack, .publish p =>
      ack.packetIdentifier = p.packetIdentifier
  | .suback ack, .subscribe p => ack.packetIdentifier = p.packetIdentifier
  | .unsuback ack, .unsubscribe p => ack.packetIdentifier = p.packetIdentifier
  | _, _ => false

theorem carries_of_acknowledges {p packet : ControlPacket} (h : acknowledges p packet = true) :
    carries (identifier packet) p = true := by
  unfold acknowledges at h
  split at h
  case h_6 => cases h
  all_goals exact h

/-- Every operation that was started is in one place: the queue, the table for its kind, or
completed, right when the main region got an acknowledgement of it. -/
structure ExactlyOnce (operations : List ControlPacket) (c : Config) : Prop where
  once : (tabled c.state).map Entry.receiver + (queued c.state).map Entry.receiver +
    completed c.log = Multiset.range operations.length
  known : ∀ entry ∈ tabled c.state + queued c.state,
    operations.reverse[entry.receiver]? = some entry.packet
  acknowledged : ∀ receiver completion older, .completed receiver completion :: older <:+ c.log →
    ∃ p before packet, older = .event (.packetReceived p) .connected :: before ∧
      operations.reverse[receiver]? = some packet ∧ acknowledges p packet = true

/-! ## What keeps the receivers in their places -/

theorem perm_eraseP {α : Type} {p : α → Bool} {as : List α} {a : α} (h : as.find? p = some a) :
    as.Perm (a :: as.eraseP p) := by
  induction as with
  | nil => cases h
  | cons b as ih =>
    by_cases hb : p b = true
    · rw [List.find?_cons_of_pos hb] at h
      cases h
      rw [List.eraseP_cons_of_pos hb]
    · rw [List.find?_cons_of_neg hb] at h
      rw [List.eraseP_cons_of_neg hb]
      exact ((ih h).cons b).trans (.swap a b _)

/-- A reaction that starts and completes nothing; a queued publish may go to its table. -/
structure Undisturbed (c : Client) (r : Reaction) : Prop where
  places : tabled r.state + queued r.state = tabled c + queued c
  queue : ∀ op ∈ r.state.queuedPublishes, op ∈ c.queuedPublishes
  drawn : r.state.nextPacketIdentifier = c.nextPacketIdentifier
  effects : ∀ e ∈ r.effects, completedBy e = none

theorem places_eq {c d : Client} (h : c.SameSendSide d) :
    tabled d + queued d = tabled c + queued c := by
  rw [tabled, queued, h.publishedMessages, h.subscribeMessages, h.unsubscribeMessages,
    h.queuedPublishes, tabled, queued]

theorem Undisturbed.of_same {c : Client} {r : Reaction} (h : c.SameSendSide r.state)
    (heffects : ∀ e ∈ r.effects, completedBy e = none) : Undisturbed c r where
  places := places_eq h
  queue op hop := by rwa [h.queuedPublishes] at hop
  drawn := h.nextPacketIdentifier
  effects := heffects

theorem receiving_completes {e : Effect} (h : e.Receiving) : completedBy e = none := by
  cases e with
  | completed => exact h.elim
  | _ => rfl

theorem quiet_completes {e : Effect} (h : e.Quiet) : completedBy e = none := by
  cases e with
  | completed => exact h.elim
  | _ => rfl

/-- The handler of an acknowledgement completes an operation that the acknowledgement is
for, or none. -/
inductive Handled (c : Client) (p : ControlPacket) (r : Reaction) : Prop
  | nothing (h : Undisturbed c r)
  | completes (entry : Entry) (completion : Completion) (hentry : entry ∈ tabled c)
      (hack : acknowledges p entry.packet = true)
      (htabled : tabled c = entry ::ₘ tabled r.state)
      (hqueue : r.state.queuedPublishes = c.queuedPublishes)
      (hdrawn : r.state.nextPacketIdentifier = c.nextPacketIdentifier)
      (heffects : r.effects = [.completed entry.receiver completion])

theorem handled_finishPublish {c : Client} {id : UInt16} {msg : InFlightPublish}
    (hfind : c.publishedMessages.find? (·.named id) = some msg) {p : ControlPacket}
    (hack : acknowledges p (.publish msg.message) = true) (completion : Completion)
    (after : List Call) : Handled c p (c.finishPublish id msg completion after) := by
  have hperm := (perm_eraseP hfind).map publishedEntry
  have htabled : tabled c =
      publishedEntry msg ::ₘ tabled (c.finishPublish id msg completion after).state := by
    rw [tabled, tabled, Multiset.coe_eq_coe.mpr hperm, List.map_cons, ← Multiset.cons_coe,
      Multiset.cons_add, Multiset.cons_add]
    rfl
  refine .completes (publishedEntry msg) completion ?_ hack htabled rfl rfl rfl
  rw [htabled]
  exact Multiset.mem_cons_self _ _

theorem named_of_find {msgs : List InFlightPublish} {id : UInt16} {msg : InFlightPublish}
    (h : msgs.find? (·.named id) = some msg) : id = msg.message.packetIdentifier := by
  have hnamed := List.find?_some h
  simp only [InFlightPublish.named, decide_eq_true_eq] at hnamed
  exact hnamed.symm

theorem undisturbed_maybeSend {c : Client}
    (hencodes : ∀ op ∈ c.queuedPublishes, Encodes (.publish op.message)) :
    Undisturbed c c.maybeSendQueuedPublish := by
  by_cases hfull : c.serverSendQuota < c.serverMaxSendQuota
  · cases hqueue : c.queuedPublishes with
    | nil =>
      rw [Client.maybeSend_of_empty hfull hqueue]
      exact ⟨rfl, fun _ h => h, rfl, by simp⟩
    | cons next queue =>
      obtain ⟨pendingWrites, hstart⟩ := Client.startFn_of_encodes
        { c with serverSendQuota := c.serverSendQuota + 1, queuedPublishes := queue }
        (hencodes next (by rw [hqueue]; exact List.mem_cons_self))
      rw [Client.maybeSend_of_queued hfull hqueue, hstart]
      refine ⟨?_, ?_, rfl, ?_⟩
      · simp only [tabled, queued, hqueue, List.map_append, List.map_cons, List.map_nil,
          ← Multiset.coe_add, ← Multiset.cons_coe, Multiset.coe_nil]
        change _ + (queuedEntry next ::ₘ 0) + _ + _ + _ = _
        rw [← Multiset.singleton_add, ← Multiset.singleton_add]
        abel
      · intro op hop
        rw [hqueue]
        exact List.mem_cons_of_mem _ hop
      · simp [completedBy]
  · rw [Client.maybeSend_of_full hfull]
    exact ⟨rfl, fun _ h => h, rfl, by simp⟩

theorem handled_sendTurn {c : Client}
    (hencodes : ∀ op ∈ c.queuedPublishes, Encodes (.publish op.message)) {p : ControlPacket}
    {r : Reaction} (hturn : c.SendTurn p r) : Handled c p r := by
  cases hturn with
  | idle => exact .nothing ⟨rfl, fun _ h => h, rfl, by simp⟩
  | puback => exact .nothing (undisturbed_maybeSend hencodes)
  | pubrec => exact .nothing ⟨rfl, fun _ h => h, rfl, by simp [completedBy]⟩
  | finished ack msg _ completion after hfind h =>
    have hack : acknowledges p (.publish msg.message) = true := by
      cases h <;> simp [acknowledges, named_of_find hfind]
    exact handled_finishPublish hfind hack completion after
  | advanced =>
    refine .nothing ⟨?_, fun _ h => h, rfl, by simp [completedBy]⟩
    simp only [tabled, queued]
    rw [map_modifyFirst]
    exact fun _ => rfl
  | subscribed ack msg hfind =>
    have hnamed := List.find?_some hfind
    have hperm := (perm_eraseP hfind).map subscribeEntry
    have htabled : tabled c = subscribeEntry msg ::ₘ tabled { c with
        subscribeMessages := c.subscribeMessages.eraseP fun msg =>
          ack.packetIdentifier = msg.message.packetIdentifier } := by
      rw [tabled, tabled, Multiset.coe_eq_coe.mpr hperm, List.map_cons, ← Multiset.cons_coe,
        Multiset.add_cons, Multiset.cons_add]
    refine .completes (subscribeEntry msg) _ ?_ hnamed htabled rfl rfl rfl
    rw [htabled]
    exact Multiset.mem_cons_self _ _
  | unsubscribed ack msg hfind =>
    have hnamed := List.find?_some hfind
    have hperm := (perm_eraseP hfind).map unsubscribeEntry
    have htabled : tabled c = unsubscribeEntry msg ::ₘ tabled { c with
        unsubscribeMessages := c.unsubscribeMessages.eraseP fun msg =>
          ack.packetIdentifier = msg.message.packetIdentifier } := by
      rw [tabled, tabled, Multiset.coe_eq_coe.mpr hperm, List.map_cons, ← Multiset.cons_coe,
        Multiset.add_cons]
    refine .completes (unsubscribeEntry msg) _ ?_ hnamed htabled rfl rfl rfl
    rw [htabled]
    exact Multiset.mem_cons_self _ _

theorem handled_handlePacket {c : Client}
    (hencodes : ∀ op ∈ c.queuedPublishes, Encodes (.publish op.message)) (p : ControlPacket) :
    Handled c p (c.handlePacket p) := by
  obtain hreceives | hsends := c.handlePacket_turn p
  · exact .nothing (.of_same hreceives.state fun e he => receiving_completes (hreceives.effects e he))
  · exact handled_sendTurn hencodes hsends

/-! ## Requests -/

/-- A reaction that starts an operation. -/
structure Starts (c : Client) (packet : ControlPacket) (r : Reaction) : Prop where
  places : tabled r.state + queued r.state =
    ⟨c.nextPacketIdentifier.drawn, packet⟩ ::ₘ (tabled c + queued c)
  queue : ∀ op ∈ r.state.queuedPublishes, op ∈ c.queuedPublishes ∨ .publish op.message = packet
  drawn : r.state.nextPacketIdentifier = c.nextPacketIdentifier.advance
  effects : ∀ e ∈ r.effects, completedBy e = none

theorem starts_publish (c : Client) {message : Publish} (hqos : message.qualityOfService ≠ qos0)
    (hencodes : Encodes (.publish (c.nextStarter message).message)) :
    Starts c (.publish (c.nextStarter message).message) (c.startPublish message) := by
  by_cases hfree : c.serverSendQuota > 0
  · obtain ⟨pendingWrites, hstart⟩ := Client.startFn_of_encodes
      { c with nextPacketIdentifier := c.nextPacketIdentifier.advance } hencodes
    rw [c.startPublish_of_free hqos hfree, hstart]
    refine ⟨?_, fun op hop => .inl hop, rfl, by simp [completedBy]⟩
    simp only [tabled, queued, List.map_append, ← Multiset.coe_add, ← Multiset.singleton_add]
    change _ + {queuedEntry (c.nextStarter message)} + _ + _ + _ =
      {queuedEntry (c.nextStarter message)} + _
    abel
  · rw [c.startPublish_of_taken hqos hfree]
    refine ⟨?_, ?_, rfl, by simp⟩
    · simp only [tabled, queued, List.map_append, ← Multiset.coe_add, ← Multiset.singleton_add]
      change _ + _ + _ + (_ + {queuedEntry (c.nextStarter message)}) =
        {queuedEntry (c.nextStarter message)} + _
      abel
    · intro op hop
      rcases List.mem_append.mp hop with hop | hop
      · exact .inl hop
      · rw [List.mem_singleton.mp hop]
        exact .inr rfl

theorem startSubscribe_of_encodes (c : Client) {subscriptions : List Client.SingleSubscription}
    {modifier : Subscribe → Subscribe}
    (hencodes : Encodes (.subscribe (subscribeMessage c subscriptions modifier))) :
    ∃ pendingWrites, c.startSubscribe subscriptions modifier =
      { state := { c with
          nextPacketIdentifier := c.nextPacketIdentifier.advance
          pendingWrites
          subscribeMessages := c.subscribeMessages ++
            [⟨subscribeMessage c subscriptions modifier, c.nextPacketIdentifier.drawn⟩] }
        effects := [.sent (.subscribe (subscribeMessage c subscriptions modifier)) .message] } := by
  obtain ⟨pendingWrites, hsend⟩ := Client.sendMessage_of_encodes
    { c with nextPacketIdentifier := c.nextPacketIdentifier.advance } hencodes
  refine ⟨pendingWrites, ?_⟩
  unfold Client.startSubscribe
  dsimp only
  rw [subscribeMessage] at hsend ⊢
  rw [hsend]
  rfl

theorem startSubscribe_of_not_encodes (c : Client)
    {subscriptions : List Client.SingleSubscription} {modifier : Subscribe → Subscribe}
    (hencodes : ¬ Encodes (.subscribe (subscribeMessage c subscriptions modifier))) :
    c.startSubscribe subscriptions modifier =
      { state := { c with nextPacketIdentifier := c.nextPacketIdentifier.advance }
        threw := true } := by
  have hsend := Client.sendMessage_of_not_encodes
    { c with nextPacketIdentifier := c.nextPacketIdentifier.advance } hencodes
  unfold Client.startSubscribe
  dsimp only
  rw [subscribeMessage] at hsend
  rw [hsend]
  rfl

theorem starts_subscribe (c : Client) (subscriptions : List Client.SingleSubscription)
    (modifier : Subscribe → Subscribe)
    (hencodes : Encodes (.subscribe (subscribeMessage c subscriptions modifier))) :
    Starts c (.subscribe (subscribeMessage c subscriptions modifier))
      (c.startSubscribe subscriptions modifier) := by
  obtain ⟨pendingWrites, hstart⟩ := startSubscribe_of_encodes c hencodes
  rw [hstart]
  refine ⟨?_, fun op hop => .inl hop, rfl, by simp [completedBy]⟩
  simp only [tabled, queued, List.map_append, ← Multiset.coe_add, ← Multiset.singleton_add]
  change _ + (_ + {(⟨c.nextPacketIdentifier.drawn, _⟩ : Entry)}) + _ + _ = _
  abel

theorem starts_unsubscribe (c : Client) (unsub : Unsubscribe) (hencodes : Encodes
      (.unsubscribe { unsub with packetIdentifier := c.nextPacketIdentifier.next })) :
    Starts c (.unsubscribe { unsub with packetIdentifier := c.nextPacketIdentifier.next })
      (c.startUnsubscribe unsub) := by
  obtain ⟨pendingWrites, hsend⟩ := Client.sendMessage_of_encodes
    { c with nextPacketIdentifier := c.nextPacketIdentifier.advance } hencodes
  rw [Client.startUnsubscribe, hsend]
  refine ⟨?_, fun op hop => .inl hop, rfl, by simp [completedBy, Reaction.andThen]⟩
  simp only [Reaction.andThen, tabled, queued, List.map_append, ← Multiset.coe_add,
    ← Multiset.singleton_add, Bool.false_eq_true, if_false]
  change _ + _ + (_ + {(⟨c.nextPacketIdentifier.drawn, _⟩ : Entry)}) + _ = _
  abel

/-- A request that hands over no receiver. -/
theorem undisturbed_operate (c : Client) {op : Operation} (h : started c op = none) :
    Undisturbed c (c.operate op) := by
  have haside := c.operate_aside op
  cases op with
  | publish message =>
    have hqos : message.qualityOfService = qos0 := by
      by_contra hqos
      rw [started, if_neg hqos] at h
      cases h
    change Undisturbed c (c.startPublish message)
    rw [c.startPublish_of_qos0 hqos]
    by_cases hencodes : Encodes (.publish message)
    · obtain ⟨pendingWrites, hsend⟩ := c.sendMessage_of_encodes hencodes
      rw [hsend, Reaction.andThen_of_not_threw rfl]
      exact ⟨rfl, fun _ h => h, rfl, by simp [completedBy]⟩
    · rw [c.sendMessage_of_not_encodes hencodes, Reaction.andThen_of_threw rfl]
      exact ⟨rfl, fun _ h => h, rfl, by simp⟩
  | subscribe | unsubscribe => cases h
  | _ =>
    have haside := haside (by simp) (by simp) (by simp)
    refine .of_same haside.state fun e he => ?_
    rcases haside.effects e he with ⟨reason, rfl⟩ | rfl <;> rfl

/-- A request that does. -/
theorem starts_operate (c : Client) {op : Operation} {packet : ControlPacket}
    (h : started c op = some packet) (hencodes : Encodes packet) :
    Starts c packet (c.operate op) := by
  cases op with
  | publish message =>
    rw [started] at h
    split at h
    · cases h
    case isFalse hqos =>
      cases h
      exact starts_publish c hqos hencodes
  | subscribe subscriptions modifier =>
    cases h
    exact starts_subscribe c subscriptions modifier hencodes
  | unsubscribe unsub =>
    cases h
    exact starts_unsubscribe c unsub hencodes
  | _ => cases h

/-! ## Every run -/

/-- Beside what the receivers are owed: queued publishes can be sent, and each operation drew
one packet identifier. -/
structure Ledger (operations : List ControlPacket) (c : Config) : Prop
    extends ExactlyOnce operations c where
  encodes : ∀ op ∈ c.state.queuedPublishes, Encodes (.publish op.message)
  drawn : c.state.nextPacketIdentifier.drawn = operations.length

theorem completed_append {effects : List Effect} (h : ∀ e ∈ effects, completedBy e = none)
    (log : List Effect) : completed (effects ++ log) = completed log := by
  rw [completed, List.filterMap_append, List.filterMap_eq_nil_iff.mpr h, List.nil_append, completed]

theorem suffix_of_completes {effects log older : List Effect} {receiver : Receiver}
    {completion : Completion} (h : ∀ e ∈ effects, completedBy e = none)
    (hsuffix : .completed receiver completion :: older <:+ effects ++ log) :
    .completed receiver completion :: older <:+ log := by
  induction effects with
  | nil => exact hsuffix
  | cons e effects ih =>
    rcases List.suffix_cons_iff.mp hsuffix with heq | hsuffix
    · injection heq with he
      have hnone := h e List.mem_cons_self
      rw [← he] at hnone
      cases hnone
    · exact ih (fun e' he' => h e' (List.mem_cons_of_mem _ he')) hsuffix

theorem started_cons {operations : List ControlPacket} {receiver : Receiver}
    {packet : ControlPacket} (h : operations.reverse[receiver]? = some packet)
    (newest : ControlPacket) : (newest :: operations).reverse[receiver]? = some packet := by
  rw [List.reverse_cons, List.getElem?_append_left]
  · exact h
  · exact (List.getElem?_eq_some_iff.mp h).1

variable {operations : List ControlPacket} {c : Config} {rest : List Call} {r : Reaction}

theorem Ledger.undisturbed (h : Ledger operations c) (hr : Undisturbed c.state r) :
    Ledger operations (client.react c rest r) where
  once := by
    have honce := h.once
    change (tabled r.state).map _ + (queued r.state).map _ + completed (r.effects ++ c.log) = _
    rw [completed_append hr.effects, ← Multiset.map_add, hr.places, Multiset.map_add]
    exact honce
  known entry hentry := by
    change entry ∈ tabled r.state + queued r.state at hentry
    rw [hr.places] at hentry
    exact h.known entry hentry
  acknowledged receiver completion older hsuffix :=
    h.acknowledged receiver completion older (suffix_of_completes hr.effects hsuffix)
  encodes op hop := h.encodes op (hr.queue op hop)
  drawn := (congrArg PacketIdentifierGenerator.drawn hr.drawn).trans h.drawn

theorem Ledger.starts (h : Ledger operations c) {packet : ControlPacket} (hencodes : Encodes packet)
    (hr : Starts c.state packet r) : Ledger (packet :: operations) (client.react c rest r) where
  once := by
    have honce := h.once
    rw [← Multiset.map_add] at honce
    change (tabled r.state).map _ + (queued r.state).map _ + completed (r.effects ++ c.log) = _
    rw [completed_append hr.effects, ← Multiset.map_add, hr.places, Multiset.map_cons, h.drawn,
      Multiset.cons_add, honce, List.length_cons, Multiset.range_succ]
  known entry hentry := by
    change entry ∈ tabled r.state + queued r.state at hentry
    rw [hr.places] at hentry
    rcases Multiset.mem_cons.mp hentry with rfl | hentry
    · rw [h.drawn, List.reverse_cons, ← List.length_reverse]
      exact List.getElem?_concat_length
    · exact started_cons (h.known entry hentry) packet
  acknowledged receiver completion older hsuffix := by
    obtain ⟨p, before, old, hbefore, hknown, hack⟩ :=
      h.acknowledged receiver completion older (suffix_of_completes hr.effects hsuffix)
    exact ⟨p, before, old, hbefore, started_cons hknown packet, hack⟩
  encodes op hop := by
    rcases hr.queue op hop with hop | heq
    · exact h.encodes op hop
    · rw [heq]
      exact hencodes
  drawn := by
    change r.state.nextPacketIdentifier.drawn = operations.length + 1
    rw [hr.drawn, ← h.drawn]
    rfl

/-- The main region's turn for a packet while connected. -/
theorem Ledger.packet (h : Ledger operations c) {p : ControlPacket} (hr : Handled c.state p r) :
    Ledger operations (client.react c rest (withEntry r (.packetReceived p) .connected)) := by
  cases hr with
  | nothing hr =>
    refine h.undisturbed ⟨hr.places, hr.queue, hr.drawn, ?_⟩
    intro e he
    rcases List.mem_append.mp he with he | he
    · exact hr.effects e he
    · rw [List.mem_singleton.mp he]
      rfl
  | completes entry completion hentry hack htabled hqueue hdrawn heffects =>
    have hlog : (client.react c rest (withEntry r (.packetReceived p) .connected)).log =
        .completed entry.receiver completion :: .event (.packetReceived p) .connected :: c.log := by
      change r.effects ++ [Effect.event (.packetReceived p) .connected] ++ c.log = _
      rw [heffects]
      rfl
    have hqueued : queued r.state = queued c.state := by rw [queued, hqueue, queued]
    have hmem : ∀ entry ∈ tabled r.state + queued r.state,
        entry ∈ tabled c.state + queued c.state := by
      intro entry' hentry'
      rw [htabled, ← hqueued, Multiset.cons_add]
      exact Multiset.mem_cons_of_mem hentry'
    constructor
    · constructor
      · have honce := h.once
        have hcompleted : completed (.completed entry.receiver completion ::
            .event (.packetReceived p) .connected :: c.log) = entry.receiver ::ₘ completed c.log := rfl
        rw [hlog, hcompleted]
        change (tabled r.state).map _ + (queued r.state).map _ + _ = _
        rw [← honce, htabled, hqueued, Multiset.map_cons, Multiset.add_cons, Multiset.cons_add,
          Multiset.cons_add]
      · exact fun entry' hentry' => h.known entry' (hmem entry' hentry')
      · intro receiver completion' older hsuffix
        rw [hlog] at hsuffix
        rcases List.suffix_cons_iff.mp hsuffix with heq | hsuffix
        · injection heq with heq holder
          injection heq with hreceiver
          rw [hreceiver]
          exact ⟨p, c.log, entry.packet, holder,
            h.known entry (Multiset.mem_add.mpr (.inl hentry)), hack⟩
        · rcases List.suffix_cons_iff.mp hsuffix with heq | hsuffix
          · cases heq
          · exact h.acknowledged receiver completion' older hsuffix
    · intro op hop
      change op ∈ r.state.queuedPublishes at hop
      rw [hqueue] at hop
      exact h.encodes op hop
    · exact (congrArg PacketIdentifierGenerator.drawn hdrawn).trans h.drawn

theorem Ledger.main (h : Ledger operations c) {e : Event} (hturn : c.state.MainTurn e r) :
    Ledger operations (client.react c rest (withEntry r e c.state.main)) := by
  have hentry : ∀ {r : Reaction}, Undisturbed c.state r →
      Undisturbed c.state (withEntry r e c.state.main) := by
    intro r hr
    refine ⟨hr.places, hr.queue, hr.drawn, ?_⟩
    intro e' he'
    rcases List.mem_append.mp he' with he' | he'
    · exact hr.effects e' he'
    · rw [List.mem_singleton.mp he']
      rfl
  cases hturn with
  | packet p hmain =>
    rw [hmain]
    exact h.packet (handled_handlePacket h.encodes p)
  | pubackSent =>
    have hreceives := c.state.handlePubackSent_receives
    refine h.undisturbed (hentry (.of_same hreceives.state ?_))
    exact fun e he => receiving_completes (hreceives.effects e he)
  | connack p =>
    obtain ⟨_, _, hack⟩ := { c.state with main := .connected }.handleConnack_eq p
    rw [hack]
    exact h.undisturbed (hentry ⟨rfl, fun _ h => h, rfl, by simp⟩)
  | handshake => exact h.undisturbed (hentry ⟨rfl, fun _ h => h, rfl, by simp⟩)
  | disconnect =>
    exact h.undisturbed (hentry ⟨rfl, fun _ h => h, rfl, by simp [Client.close, completedBy]⟩)
  | ignored => exact h.undisturbed (hentry ⟨rfl, fun _ h => h, rfl, by simp⟩)

theorem Ledger.operate (h : Ledger operations c) (op : Operation)
    (hencodes : ∀ packet ∈ (started c.state op).toList, Encodes packet) :
    Ledger ((started c.state op).toList ++ operations)
      (client.react c rest (c.state.operateFrom op)) := by
  cases hstarted : started c.state op with
  | none =>
    have hr := undisturbed_operate c.state hstarted
    exact h.undisturbed ⟨hr.places, hr.queue, hr.drawn, hr.effects⟩
  | some packet =>
    rw [hstarted] at hencodes
    have hpacket := hencodes packet List.mem_cons_self
    have hr := starts_operate c.state hstarted hpacket
    exact h.starts hpacket ⟨hr.places, hr.queue, hr.drawn, hr.effects⟩

theorem Ledger.respond (h : Ledger operations c) {call : Call} (hstack : c.stack = call :: rest)
    {a : Action} (hr : client.respond c.state call a = some r)
    (hencodes : ∀ packet ∈ note c a (client.react c rest r), Encodes packet) :
    Ledger (note c a (client.react c rest r) ++ operations) (client.react c rest r) := by
  by_cases hop : call = .user ∧ ∃ op, a = .operate op
  · obtain ⟨rfl, op, rfl⟩ := hop
    cases hr
    simp only [note, hstack] at hencodes ⊢
    exact h.operate op hencodes
  have hnote : note c a (client.react c rest r) = [] := by
    unfold note
    rw [hstack]
    split
    case h_1 op heq =>
      injection heq with heq
      exact absurd ⟨heq, op, rfl⟩ hop
    case h_2 => rfl
  rw [hnote, List.nil_append]
  cases Client.respond_turn hr with
  | main e r hturn => exact h.main hturn
  | anonymous hmain =>
    obtain ⟨hsame, -, heffects⟩ := Client.anonymous_same hmain
    have hplaces := places_eq hsame.send
    have hturn : Undisturbed c.state c.state.anonymous := by
      refine ⟨hplaces, ?_, hsame.send.nextPacketIdentifier, ?_⟩
      · intro op hop
        rwa [hsame.send.queuedPublishes] at hop
      · intro e he
        rw [heffects e he]
        rfl
    exact h.undisturbed hturn
  | maybeSend => exact h.undisturbed (undisturbed_maybeSend h.encodes)
  | operate op => exact absurd ⟨rfl, op, rfl⟩ hop
  | close => exact h.undisturbed ⟨rfl, fun _ h => h, rfl, by simp [Client.close, completedBy]⟩
  | quiet _ _ _ hquiet =>
    exact h.undisturbed (.of_same hquiet.same.send fun e he => quiet_completes (hquiet.effects e he))

theorem ledger_run (run : client.Observed note initial operations c) :
    (∀ packet ∈ operations, Encodes packet) → Ledger operations c := by
  refine run.invariant
    (I := fun operations c => (∀ packet ∈ operations, Encodes packet) → Ledger operations c)
    ?_ ?_ ?_
  · intro
    constructor
    · constructor
      · rfl
      · simp [tabled, queued, initial]
      · intro receiver completion older hsuffix
        cases List.suffix_nil.mp hsuffix
    · simp [initial]
    · rfl
  · intro operations c a r _ hc hstack hr hencodes
    have hquiet := Client.arrive_quiet hr
    have hnote : note c a (client.react c [] r) = [] := by
      unfold note
      rw [hstack]
    rw [hnote, List.nil_append] at hencodes ⊢
    exact (hc hencodes).undisturbed
      (.of_same hquiet.same.send fun e he => quiet_completes (hquiet.effects e he))
  · intro operations c a call rest r _ hc hstack hr hencodes
    refine (hc fun packet hpacket => ?_).respond hstack hr fun packet hpacket => ?_
    · exact hencodes packet (List.mem_append_right _ hpacket)
    · exact hencodes packet (List.mem_append_left _ hpacket)

theorem carries_inj {id id' : UInt16} {p : ControlPacket} (h : carries id p = true)
    (h' : carries id' p = true) : id = id' := by
  cases p with
  | puback | pubrec | pubcomp | suback | unsuback =>
    simp only [carries, decide_eq_true_eq] at h h'
    exact h.symm.trans h'
  | _ => cases h

/-- While what is started can be encoded, every started operation is in one place, and is
completed once, for an acknowledgement of it; an acknowledgement whose identifier is in no
table completes nothing. -/
theorem accounted_exactly_once (run : client.Observed note initial operations c)
    (hencodes : ∀ packet ∈ operations, Encodes packet) :
    ExactlyOnce operations c ∧ ∀ p id rest d,
      c.stack = .dispatch .main (.packetReceived p) :: rest → carries id p = true →
      (∀ entry ∈ tabled c.state, identifier entry.packet ≠ id) →
      client.step c .run = some d → completed d.log = completed c.log := by
  have hledger := ledger_run run hencodes
  refine ⟨hledger.toExactlyOnce, ?_⟩
  intro p id rest d hstack hcarries hunknown hstep
  obtain ⟨turn, hturn, hdispatch⟩ := c.state.dispatch_main (.packetReceived p)
  have hnothing : ∀ e ∈ turn.effects, completedBy e = none := by
    cases hturn with
    | packet p =>
      cases handled_handlePacket hledger.encodes p with
      | nothing hr => exact hr.effects
      | completes entry _ hentry hack =>
        have hid := carries_inj (carries_of_acknowledges hack) hcarries
        exact absurd hid (hunknown entry hentry)
    | connack => cases hcarries
    | ignored => simp
  rw [Program.step, hstack] at hstep
  cases hstep
  change completed ((c.state.dispatch (.packetReceived p) .main).effects ++ c.log) = _
  rw [hdispatch]
  refine completed_append ?_ c.log
  intro e he
  rcases List.mem_append.mp he with he | he
  · exact hnothing e he
  · rw [List.mem_singleton.mp he]
    rfl

/-- A PUBACK completes a publish, whose receiver publishes again at once. -/
def reentrantActions : List Action :=
  handshakeActions { flags := 0, reasonCode := 0 } ++ [.run] ++ settleActions ++
    request (.publish publishQos1) ++
    [.readValue (.puback { packetIdentifier := 1 }), .run, .operate (.publish publishQos2)]

theorem accounted_exactly_once_reentrant : ∃ operations c,
    client.Observed note initial operations c ∧ operations.length = 2 ∧
      c.stack.head? = some .user ∧ ExactlyOnce operations c := by
  have hsteps : (client.observe note [] initial reentrantActions).map
      (fun run => (run.1, run.2.stack.head?)) =
        some ([.publish { publishQos2 with packetIdentifier := 2 },
          .publish { publishQos1 with packetIdentifier := 1 }], some .user) := by
    decide +kernel
  obtain ⟨⟨operations, c⟩, hc, hfacts⟩ := Option.map_eq_some_iff.mp hsteps
  simp only [Prod.mk.injEq] at hfacts
  obtain ⟨rfl, htop⟩ := hfacts
  have run := Program.Observed.of_observe _ .refl hc
  exact ⟨_, c, run, rfl, htop, (accounted_exactly_once run (by decide +kernel)).1⟩

end Mqtt5.ClientAccounting
