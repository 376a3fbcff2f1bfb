import Mqtt5.ClientSession

/-!
# Publishes that cannot be encoded

The `start_fn` of a publish with acknowledgement takes its slot first, and holds the receiver
when `send_message` throws: on a direct start and on one from `queued_publishes_`, the slot
stays taken, and the receiver is destroyed with the closure.
-/
namespace Mqtt5.ClientFailedPublish
open WirePrimitives WirePublish WireConnect WireControlPacket CallMachine ClientState ClientSession
open WireSubscribe hiding TopicFilter
open TopicMatching

/-- The publish holds no slot of the client `c` afterwards, the tables and the rest of the
queue are as they were, and its receiver has been completed or is still kept in the queue. -/
structure LeavesAsWas (c : Client) (op : PublishOpStarter) (r : Reaction) : Prop where
  quota : r.state.serverSendQuota = c.serverSendQuota
  published : r.state.publishedMessages = c.publishedMessages
  receiver :
    (r.state.queuedPublishes = c.queuedPublishes ∧
      ∃ completion, Effect.completed op.receiver completion ∈ r.effects) ∨
    r.state.queuedPublishes = c.queuedPublishes ++ [op] ∨
    r.state.queuedPublishes = op :: c.queuedPublishes

/-- One slot less, and nobody hears of the publish again. -/
structure LosesSlot (c : Client) (r : Reaction) : Prop where
  quota : r.state.serverSendQuota.toNat + 1 = c.serverSendQuota.toNat
  published : r.state.publishedMessages = c.publishedMessages
  queue : r.state.queuedPublishes = c.queuedPublishes
  effects : r.effects = []
  calls : r.calls = []
  threw : r.threw = true

/-- The client when `maybe_send_queued_publish` has freed a slot and popped the queue. -/
def popped (c : Client) (queued : List PublishOpStarter) : Client :=
  { c with serverSendQuota := c.serverSendQuota + 1, queuedPublishes := queued }

theorem LosesSlot.not_leavesAsWas {c : Client} {op : PublishOpStarter} {r : Reaction}
    (h : LosesSlot c r) : ¬ LeavesAsWas c op r := by
  intro hleaves
  have hquota := h.quota
  rw [hleaves.quota] at hquota
  omega

theorem losesSlot_startFn {c : Client} {op : PublishOpStarter} (hfree : c.serverSendQuota > 0)
    (hthrows : ¬ Encodes (.publish op.message)) : LosesSlot c (c.startFn op) := by
  have hpos : 1 ≤ c.serverSendQuota := hfree
  rw [c.startFn_of_not_encodes hthrows]
  refine ⟨?_, rfl, rfl, rfl, rfl, rfl⟩
  change (c.serverSendQuota - 1).toNat + 1 = c.serverSendQuota.toNat
  rw [UInt16.toNat_sub_of_le _ _ hpos]
  have : 1 ≤ c.serverSendQuota.toNat := hpos
  change c.serverSendQuota.toNat - 1 + 1 = c.serverSendQuota.toNat
  omega

/-- With a slot free, the publish is started from `start` itself. -/
theorem losesSlot_startPublish {c : Client} {message : Publish}
    (hqos : message.qualityOfService ≠ qos0) (hfree : c.serverSendQuota > 0)
    (hthrows : ¬ Encodes (.publish (c.nextStarter message).message)) :
    LosesSlot c (c.startPublish message) := by
  rw [c.startPublish_of_free hqos hfree]
  obtain ⟨quota, published, queue, effects, calls, threw⟩ := losesSlot_startFn
    (c := { c with nextPacketIdentifier := c.nextPacketIdentifier.advance }) hfree hthrows
  exact ⟨quota, published, queue, effects, calls, threw⟩

theorem leavesAsWas_of_taken {c : Client} {message : Publish}
    (hqos : message.qualityOfService ≠ qos0) (htaken : ¬ c.serverSendQuota > 0) :
    LeavesAsWas c (c.nextStarter message) (c.startPublish message) := by
  rw [c.startPublish_of_taken hqos htaken]
  exact ⟨rfl, rfl, .inr (.inl rfl)⟩

theorem losesSlot_maybeSend {c : Client} {next : PublishOpStarter} {queued : List PublishOpStarter}
    (hqueue : c.queuedPublishes = next :: queued) (hfree : c.serverSendQuota < c.serverMaxSendQuota)
    (hthrows : ¬ Encodes (.publish next.message)) :
    LosesSlot (popped c queued) c.maybeSendQueuedPublish := by
  rw [Client.maybeSend_of_queued hfree hqueue]
  apply losesSlot_startFn (c := popped c queued) _ hthrows
  have hlt : c.serverSendQuota.toNat < c.serverMaxSendQuota.toNat := hfree
  have hmax := c.serverMaxSendQuota.toNat_lt
  change 0 < (c.serverSendQuota + 1).toNat
  rw [UInt16.toNat_add]
  change 0 < (c.serverSendQuota.toNat + 1) % 65536
  omega

/-- A direct start leaves the client as it was only where nothing is encoded yet, because all
slots are taken; a start from the queue never does. Each of the others loses its slot. -/
theorem failed_publish_leaves_iff (c : Client) :
    (∀ message : Publish, message.qualityOfService ≠ qos0 →
      ¬ Encodes (.publish (c.nextStarter message).message) →
      (LeavesAsWas c (c.nextStarter message) (c.startPublish message) ↔ c.serverSendQuota = 0) ∧
      (c.serverSendQuota ≠ 0 → LosesSlot c (c.startPublish message))) ∧
    ∀ next queued, c.queuedPublishes = next :: queued → c.serverSendQuota < c.serverMaxSendQuota →
      ¬ Encodes (.publish next.message) →
      ¬ LeavesAsWas (popped c queued) next c.maybeSendQueuedPublish ∧
        LosesSlot (popped c queued) c.maybeSendQueuedPublish := by
  have hpos : c.serverSendQuota ≠ 0 ↔ c.serverSendQuota > 0 := UInt16.pos_iff_ne_zero.symm
  refine ⟨?_, ?_⟩
  · intro message hqos hthrows
    refine ⟨⟨fun hleaves => ?_, fun htaken => ?_⟩, fun hfree => ?_⟩
    · by_contra hfree
      exact (losesSlot_startPublish hqos (hpos.mp hfree) hthrows).not_leavesAsWas hleaves
    · exact leavesAsWas_of_taken hqos fun hfree => hpos.mpr hfree htaken
    · exact losesSlot_startPublish hqos (hpos.mp hfree) hthrows
  · intro next queued hqueue hfree hthrows
    have hloses := losesSlot_maybeSend hqueue hfree hthrows
    exact ⟨hloses.not_leavesAsWas, hloses⟩

/-- A subscription identifier is refused by the encoder. -/
def refused : Publish :=
  { headerFlags := 2, topic := [97], properties := { subscriptionIdentifier := 1 } }

theorem failed_publish_refused :
    (LeavesAsWas {} (Client.nextStarter {} refused) (Client.startPublish {} refused) ↔
      ({} : Client).serverSendQuota = 0) ∧
    LosesSlot (popped { serverSendQuota := 3, queuedPublishes := [⟨refused, 0⟩] } [])
      (Client.maybeSendQueuedPublish { serverSendQuota := 3, queuedPublishes := [⟨refused, 0⟩] }) :=
  ⟨((failed_publish_leaves_iff {}).1 refused (by decide) (by decide)).1,
    ((failed_publish_leaves_iff { serverSendQuota := 3, queuedPublishes := [⟨refused, 0⟩] }).2
      ⟨refused, 0⟩ [] rfl (by decide) (by decide)).2⟩

/-- A CONNACK with a Receive Maximum of 1. -/
def oneSlot : Connack := { flags := 0, reasonCode := 0, properties := { receiveMaximum := 1 } }

/-- The session is open and the user's code runs. -/
def directActions : List Action :=
  handshakeActions oneSlot ++ [.run] ++ settleActions ++ [.enter]

/-- A publish takes the slot, another is queued, and the first is acknowledged. -/
def queuedActions : List Action :=
  handshakeActions oneSlot ++ [.run] ++ settleActions ++ request (.publish publishQos1) ++
    request (.publish refused) ++ [.readValue (.puback { packetIdentifier := 1 }), .run, .return]

/-- On both paths the only slot of an open session is lost. -/
theorem failed_publish_keeps_slot :
    (∃ c : Config, client.Run (fun _ _ => True) initial c ∧ c.stack = [.user] ∧
      c.state.main = .connected ∧ ¬ Encodes (.publish (c.state.nextStarter refused).message) ∧
      (c.state.startPublish refused).state.serverSendQuota = 0 ∧
      ¬ LeavesAsWas c.state (c.state.nextStarter refused) (c.state.startPublish refused)) ∧
    ∃ (c : Config) (next : PublishOpStarter), client.Run (fun _ _ => True) initial c ∧
      c.stack.head? = some .maybeSendQueuedPublish ∧ c.state.main = .connected ∧
      c.state.queuedPublishes = [next] ∧ ¬ Encodes (.publish next.message) ∧
      c.state.maybeSendQueuedPublish.state.serverSendQuota = 0 ∧
      ¬ LeavesAsWas (popped c.state []) next c.state.maybeSendQueuedPublish := by
  constructor
  · have hsteps : (client.stepsWhile (fun _ _ => true) initial directActions).map (fun c =>
        (c.stack, c.state.main, c.state.serverSendQuota,
          decide (Encodes (.publish (c.state.nextStarter refused).message)),
          (c.state.startPublish refused).state.serverSendQuota)) =
        some ([.user], .connected, 1, false, 0) := by decide +kernel
    obtain ⟨c, hc, hfacts⟩ := Option.map_eq_some_iff.mp hsteps
    simp only [Prod.mk.injEq, decide_eq_false_iff_not] at hfacts
    obtain ⟨hstack, hmain, hquota, hthrows, hafter⟩ := hfacts
    have run := (Program.Run.of_stepsWhile _ hc).mono fun _ _ _ => trivial
    have hfree : c.state.serverSendQuota > 0 := by
      rw [hquota]
      decide
    exact ⟨c, run, hstack, hmain, hthrows, hafter,
      (losesSlot_startPublish (by decide) hfree hthrows).not_leavesAsWas⟩
  · have hsteps : (client.stepsWhile (fun _ _ => true) initial queuedActions).map (fun c =>
        (c.stack.head?, c.state.main, c.state.queuedPublishes,
          decide (c.state.serverSendQuota < c.state.serverMaxSendQuota),
          c.state.maybeSendQueuedPublish.state.serverSendQuota)) =
        some (some .maybeSendQueuedPublish, .connected,
          [⟨{ refused with packetIdentifier := 2 }, 1⟩], true, 0) := by decide +kernel
    obtain ⟨c, hc, hfacts⟩ := Option.map_eq_some_iff.mp hsteps
    simp only [Prod.mk.injEq, decide_eq_true_eq] at hfacts
    obtain ⟨hstack, hmain, hqueue, hfree, hafter⟩ := hfacts
    have run := (Program.Run.of_stepsWhile _ hc).mono fun _ _ _ => trivial
    have hthrows : ¬ Encodes (.publish { refused with packetIdentifier := 2 }) := by decide
    exact ⟨c, _, run, hstack, hmain, hqueue, hthrows, hafter,
      (losesSlot_maybeSend hqueue hfree hthrows).not_leavesAsWas⟩

end Mqtt5.ClientFailedPublish
