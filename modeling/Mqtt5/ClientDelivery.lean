import Mqtt5.ClientSession
import Mqtt5.TopicMeaning

/-!
# Deliveries and the precondition of matching

`topic_filter::matches` asserts that its topic name is one that can be published to. What it
is called with comes from the server, at once or by way of `received_qos2_states_`.
-/
namespace Mqtt5.ClientDelivery
open WirePrimitives WirePublish WireConnect WireControlPacket CallMachine ClientState ClientSession
open WireSubscribe hiding TopicFilter
open TopicMatching

/-- `deliver_to_publish_waiters` with the assertions of the filters it asks. -/
def deliverToPublishWaitersAsserting (c : Client) (publish : Publish) : Option Reaction :=
  let asks (item : FilteredSubscription) : Option Bool :=
    item.filter.matchesAsserting publish.topic
  (c.publishWaiters.mapM asks).map fun _ => c.deliverToPublishWaiters publish

theorem mapM_isSome {α β : Type} {f : α → Option β} {l : List α} :
    (l.mapM f).isSome ↔ ∀ x ∈ l, (f x).isSome := by
  induction l with
  | nil => simp
  | cons x l ih =>
    rw [List.mapM_cons, List.forall_mem_cons, ← ih]
    cases f x with
    | none => simp
    | some y => cases l.mapM f <;> simp

theorem delivery_asserts_iff (c : Client) (publish : Publish) :
    (deliverToPublishWaitersAsserting c publish).isSome ↔
      c.publishWaiters = [] ∨ ProperTopic publish.topic := by
  rw [deliverToPublishWaitersAsserting, Option.isSome_map, mapM_isSome]
  simp only [matchesAsserting_isSome]
  cases c.publishWaiters with
  | nil => simp
  | cons item items =>
    simp only [List.mem_cons, reduceCtorEq, false_or]
    exact ⟨fun h => h item (.inl rfl), fun h _ _ => h⟩

/-- The publish that an event brings. -/
def brought : Event → List Publish
  | .packetReceived (.publish publish) => [publish]
  | _ => []

/-- What a reaction stores and delivers had been stored, or is among what has come. -/
structure Draws (c : Client) (come : List Publish) (r : Reaction) : Prop where
  stored : ∀ publish ∈ r.state.receivedQos2States,
    publish ∈ c.receivedQos2States ∨ publish ∈ come
  delivered : ∀ publish, .delivered publish ∈ r.effects →
    publish ∈ c.receivedQos2States ∨ publish ∈ come

section Reactions
variable {c : Client} {come : List Publish} {r : Reaction}

theorem draws_aside (hstored : r.state.receivedQos2States = c.receivedQos2States)
    (heffects : ∀ e ∈ r.effects, ∀ publish, e ≠ .delivered publish) : Draws c come r where
  stored _ hmem := .inl (hstored ▸ hmem)
  delivered _ hmem := absurd rfl (heffects _ hmem _)

theorem sending_ne {e : Effect} (h : e.Sending) (publish : Publish) : e ≠ .delivered publish := by
  rintro rfl
  exact h

theorem quiet_ne {e : Effect} (h : e.Quiet) (publish : Publish) : e ≠ .delivered publish := by
  rintro rfl
  exact h

theorem requested_ne {e : Effect} (h : Requested e) (publish : Publish) :
    e ≠ .delivered publish := by
  obtain h | ⟨reason, rfl⟩ | rfl := h
  · exact sending_ne h publish
  · simp
  · simp

theorem quotaTaken_stored {d : Client} {effects : List Effect}
    (h : Client.QuotaTaken c d effects) :
    d.receivedQos2States = c.receivedQos2States ∧
      ∀ e ∈ effects, ∀ publish, e ≠ .delivered publish := by
  cases h with
  | free => exact ⟨rfl, by simp⟩
  | spent => exact ⟨rfl, by simp⟩

theorem mem_storeQos2 {d : Client} {publish other : Publish}
    (h : other ∈ (d.storeQos2 publish).receivedQos2States) :
    other ∈ d.receivedQos2States ∨ other = publish := by
  rw [Client.storeQos2] at h
  split at h
  · exact .inl h
  · simpa using h

theorem draws_publish (c : Client) (publish : Publish) :
    Draws c [publish] (c.handlePublish publish) := by
  by_cases hqos : publish.qualityOfService = qos2
  · obtain ⟨d, effects, pendingWrites, htaken, hhandle⟩ := c.handlePublish_of_qos2 hqos
    obtain ⟨hstored, haside⟩ := quotaTaken_stored htaken
    rw [hhandle]
    constructor
    · intro other hmem
      have hother := mem_storeQos2 hmem
      rw [hstored] at hother
      simpa using hother
    · intro other hmem
      obtain hsent | hmem := List.mem_cons.mp hmem
      · cases hsent
      · exact absurd rfl (haside _ hmem other)
  · obtain ⟨d, calls, effects, hstored, hsent, hhandle⟩ := c.handlePublish_delivers hqos
    rw [hhandle]
    constructor
    · intro other hmem
      exact .inl (hstored ▸ hmem)
    · intro other hmem
      obtain hdelivered | hmem := List.mem_cons.mp hmem
      · cases hdelivered
        exact .inr (List.mem_singleton_self _)
      · simpa using hsent _ hmem

theorem draws_pubrel (c : Client) (pubrel : Ack) : Draws c [] (c.handlePubrel pubrel) := by
  cases hfind : c.receivedQos2States.find? (Client.storedAs pubrel.packetIdentifier) with
  | none =>
    obtain ⟨pendingWrites, hhandle⟩ := c.handlePubrel_of_none hfind
    rw [hhandle]
    exact draws_aside rfl (by simp)
  | some publish =>
    obtain ⟨d, calls, ⟨_, _, hd⟩, hhandle⟩ := c.handlePubrel_of_some hfind
    rw [hhandle, hd]
    constructor
    · intro other hmem
      exact .inl (List.eraseP_subset hmem)
    · intro other hmem
      have hother : other = publish := by simpa using hmem
      rw [hother]
      exact .inl (List.mem_of_find?_eq_some hfind)

theorem draws_main {e : Event} (h : c.MainTurn e r) : Draws c (brought e) r := by
  have hsends : ∀ {K : Call → Prop} {r : Reaction} {come : List Publish}, c.Sends K r →
      Draws c come r := fun h =>
    draws_aside h.state.receivedQos2States fun e he => sending_ne (h.effects e he)
  cases h with
  | packet p =>
    cases p with
    | publish publish => exact draws_publish c publish
    | pubrel pubrel => exact draws_pubrel c pubrel
    | _ => exact hsends (c.handlePacket_sends (by simp) (by simp))
  | pubackSent =>
    obtain ⟨_, hsent⟩ := c.handlePubackSent_eq
    rw [hsent]
    exact draws_aside rfl (by simp)
  | connack p =>
    obtain ⟨_, _, hack⟩ := { c with main := .connected }.handleConnack_eq p
    rw [hack]
    exact draws_aside rfl (by simp)
  | handshake => exact draws_aside rfl (by simp)
  | disconnect => exact draws_aside rfl (by simp [Client.close])
  | ignored => exact draws_aside rfl (by simp)

theorem draws_quiet (h : c.Quiet r) : Draws c come r :=
  draws_aside h.same.receive.receivedQos2States fun e he => quiet_ne (h.effects e he)

/-- The publish that the call on top of the stack is about. -/
def broughtBy : Call → List Publish
  | .dispatch .main e => brought e
  | _ => []

theorem draws_turn {call : Call} {a : Action} (h : c.Turn call a r) : Draws c (broughtBy call) r := by
  cases h with
  | main e r hturn =>
    have hdraws := draws_main hturn
    constructor
    · exact hdraws.stored
    · intro publish hmem
      obtain hmem | hentry := List.mem_append.mp hmem
      · exact hdraws.delivered publish hmem
      · simp at hentry
  | anonymous hmain =>
    obtain ⟨hsame, -, heffects⟩ := Client.anonymous_same hmain
    have hstored : c.anonymous.state.receivedQos2States = c.receivedQos2States :=
      hsame.receive.receivedQos2States
    apply draws_aside hstored
    intro e he publish
    rw [heffects e he]
    exact nofun
  | maybeSend =>
    have hsends := c.maybeSend_sends
    exact draws_aside hsends.state.receivedQos2States fun e he => sending_ne (hsends.effects e he)
  | operate op =>
    exact draws_aside (operate_stored c op) fun e he => requested_ne (operate_effects c op e he)
  | close => exact draws_aside rfl (by simp [Client.close])
  | quiet _ _ _ hquiet => exact draws_quiet hquiet

end Reactions

/-- The step is not the turn of a PUBLISH to an improper topic name. -/
def takesProper (c : Config) (_ : Action) : Bool :=
  match c.stack with
  | call :: _ => (broughtBy call).all fun publish => ProperTopic publish.topic
  | [] => true

/-- What is stored and what was delivered has a proper topic name. -/
structure Proper (c : Config) : Prop where
  stored : ∀ publish ∈ c.state.receivedQos2States, ProperTopic publish.topic
  delivered : ∀ publish, .delivered publish ∈ c.log → ProperTopic publish.topic

theorem Proper.react {c : Config} (h : Proper c) (rest : List Call) {come : List Publish}
    {r : Reaction} (hdraws : Draws c.state come r)
    (hcome : ∀ publish ∈ come, ProperTopic publish.topic) : Proper (client.react c rest r) := by
  have hproper : ∀ publish, publish ∈ c.state.receivedQos2States ∨ publish ∈ come →
      ProperTopic publish.topic :=
    fun publish either => either.elim (h.stored publish) (hcome publish)
  constructor
  · exact fun publish hmem => hproper publish (hdraws.stored publish hmem)
  · intro publish hmem
    obtain new | old := List.mem_append.mp hmem
    · exact hproper publish (hdraws.delivered publish new)
    · exact h.delivered publish old

theorem proper_run {c : Config} (run : client.Run (takesProper · ·) initial c) : Proper c := by
  apply run.invariant
  · exact ⟨by simp [initial], by simp [initial]⟩
  · intro c a r hc _ _ hr
    have hdraws : Draws c.state [] r := draws_quiet (Client.arrive_quiet hr)
    exact hc.react [] hdraws (by simp)
  · intro c a call rest r hc hok hstack hr
    apply hc.react rest (draws_turn (Client.respond_turn hr))
    simpa [takesProper, hstack] using hok

/-- The assertions hold where nobody waits or the topic name is proper, and so throughout a
run in which every PUBLISH that comes has a proper one, stored messages included. -/
theorem deliveries_assert (c : Client) (publish : Publish) {d : Config}
    (run : client.Run (takesProper · ·) initial d) :
    ((deliverToPublishWaitersAsserting c publish).isSome ↔
        c.publishWaiters = [] ∨ ProperTopic publish.topic) ∧
      ∀ delivered, .delivered delivered ∈ d.log →
        ∀ c, (deliverToPublishWaitersAsserting c delivered).isSome := by
  constructor
  · exact delivery_asserts_iff c publish
  · intro delivered hmem c
    exact (delivery_asserts_iff c delivered).mpr (.inr ((proper_run run).delivered _ hmem))

def subscribed (filter : TopicFilter) : List Action :=
  handshakeActions { flags := 0, reasonCode := 0 } ++ .run :: settleActions ++
    request (.filterSubscribe filter 1)

/-- A publish to `a` while a receiver waits with the filter `#`. -/
theorem deliveries_assert_proper : ∃ d, client.Run (takesProper · ·) initial d ∧
    .delivered publishQos1 ∈ d.log ∧
      ((deliverToPublishWaitersAsserting d.state publishQos1).isSome ↔
        d.state.publishWaiters = [] ∨ ProperTopic publishQos1.topic) ∧
      ∀ delivered, .delivered delivered ∈ d.log →
        ∀ c, (deliverToPublishWaitersAsserting c delivered).isSome := by
  have hsteps : (client.stepsWhile takesProper initial
      (subscribed (.fromString [35]) ++ [.readValue (.publish publishQos1), .run])).map
        (fun d => decide (.delivered publishQos1 ∈ d.log)) = some true := by
    decide +kernel
  obtain ⟨d, hd, hdelivered⟩ := Option.map_eq_some_iff.mp hsteps
  have run := Program.Run.of_stepsWhile _ hd
  exact ⟨d, run, of_decide_eq_true hdelivered, deliveries_assert d.state publishQos1 run⟩

/-- An empty topic name, for which the alias stands. -/
def noTopic : Publish := { properties := { topicAlias := 1 } }

/-- Of quality of service 2, to the topic name `#`. -/
def wildTopic : Publish := { headerFlags := 4, topic := [35], packetIdentifier := 7 }

/-- The step delivers the publish, and an assertion fails on the way. -/
def Fails (publish : Publish) (c : Config) : Prop :=
  (∃ d, client.step c .run = some d ∧ .delivered publish ∈ d.log) ∧
    (deliverToPublishWaitersAsserting c.state publish).isNone

theorem fails_of_steps (actions : List Action) (publish : Publish)
    (h : (client.stepsWhile (fun _ _ => true) initial actions).map (fun c =>
      ((client.step c .run).map fun d => decide (.delivered publish ∈ d.log),
        (deliverToPublishWaitersAsserting c.state publish).isNone)) = some (some true, true)) :
    ∃ c, client.Run (fun _ _ => True) initial c ∧ Fails publish c := by
  obtain ⟨c, hc, hfails⟩ := Option.map_eq_some_iff.mp h
  rw [Prod.mk.injEq] at hfails
  obtain ⟨hstep, hnone⟩ := hfails
  obtain ⟨d, hd, hdelivered⟩ := Option.map_eq_some_iff.mp hstep
  have run := (Program.Run.of_stepsWhile _ hc).mono fun _ _ _ => trivial
  exact ⟨c, run, ⟨d, hd, of_decide_eq_true hdelivered⟩, hnone⟩

/-- Both are packets that the decoder accepts, one is delivered at once and the other on its
PUBREL, and the filter `#` that waits for them is a valid one. -/
theorem improper_deliveries_fail : ValidFilter [35] ∧
    ControlPacket.deserialize.run [48, 6, 0, 0, 3, 35, 0, 1] = .ok (.publish noTopic, []) ∧
    ControlPacket.deserialize.run [52, 6, 0, 1, 35, 0, 7, 0] = .ok (.publish wildTopic, []) ∧
    (∃ c, client.Run (fun _ _ => True) initial c ∧ Fails noTopic c) ∧
    ∃ c, client.Run (fun _ _ => True) initial c ∧ Fails wildTopic c := by
  have valid : ValidFilter [35] := ⟨by decide, by decide⟩
  have atOnce := fails_of_steps (subscribed (.fromString [35]) ++ [.readValue (.publish noTopic)])
    noTopic (by decide +kernel)
  have onPubrel := fails_of_steps (subscribed (.fromString [35]) ++
      arrival (.publish wildTopic) ++ [.readValue (.pubrel { packetIdentifier := 7 })])
    wildTopic (by decide +kernel)
  exact ⟨valid, rfl, rfl, atOnce, onPubrel⟩

end Mqtt5.ClientDelivery
