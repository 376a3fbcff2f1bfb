import Mqtt5.AckProtocol
import Mqtt5.ClientEndpoint
import Mqtt5.ClientExactlyOnce
import Mqtt5.ClientIdentifiers

/-!
# The client and a server

The client beside a server of which nothing is known but that it treats publishes as an
endpoint does. The packets between them may take any time and overtake each other, but none
gets lost. So the two are a pair of endpoints, with what is known of these.
-/
namespace Mqtt5.ClientProtocol
open WirePrimitives WirePublish WireConnect WireControlPacket CallMachine ClientState
open AckEndpoint AckProtocol ClientEndpoint ClientIdentifiers
open WireSubscribe hiding TopicFilter

/-! ## What the log tells -/

/-- What a packet that was given to the stream is to the server. -/
def givenOf : Effect → Option (Input UInt16)
  | .sent packet _ => arrival packet
  | _ => none

/-- What a packet that was handled is to the connected client. -/
def takenOf : Effect → Option (Input UInt16)
  | .event (.packetReceived p) .connected => arrival p
  | _ => none

def startedId : Effect → Option UInt16
  | .started _ message => some message.packetIdentifier
  | _ => none

/-- The publishes of quality of service 1 and 2 that were delivered. -/
def deliveredId : Effect → Option UInt16
  | .delivered publish =>
      if publish.qualityOfService = qos1 ∨ publish.qualityOfService = qos2 then
        some publish.packetIdentifier
      else none
  | _ => none

def gather {α : Type} (f : Effect → Option α) (effects : List Effect) : Multiset α :=
  ↑(effects.filterMap f)

section
variable {α : Type} {f : Effect → Option α}

theorem gather_append (newer older : List Effect) :
    gather f (newer ++ older) = gather f newer + gather f older := by
  rw [gather, List.filterMap_append, ← Multiset.coe_add, gather, gather]

theorem gather_cons (e : Effect) (effects : List Effect) :
    gather f (e :: effects) = ↑(f e).toList + gather f effects := by
  rw [gather, gather, Multiset.coe_add]
  cases h : f e with
  | none => rw [List.filterMap_cons_none h]; rfl
  | some x => rw [List.filterMap_cons_some h]; rfl

theorem gather_eq_zero {effects : List Effect} (h : ∀ e ∈ effects, f e = none) :
    gather f effects = 0 := by
  rw [gather, List.filterMap_eq_nil_iff.mpr h]
  rfl

end

/-! ## The system -/

structure Joined where
  config : Config := initial
  /-- What is on its way from the client. -/
  toServer : Multiset (Input UInt16) := 0
  server : Side UInt16 := {}

/-- A publish that is started has a quality of service that MQTT has. -/
def isProper : Effect → Bool
  | .started _ message => message.qualityOfService = qos1 ∨ message.qualityOfService = qos2
  | _ => true

def Proper (effects : List Effect) : Prop := ∀ e ∈ effects, isProper e = true

/-- No operation is held for 65535 later ones. -/
def Recent (c : Client) : Prop := ∀ h ∈ held c, c.nextPacketIdentifier.drawn ≤ h.draw + 65535

inductive Step : Joined → Joined → Prop
  /-- The client does anything that it can. The packets of the exchanges that it takes are
  among those that the server has sent, and those that it gives to the stream are on their way. -/
  | client {config d : Config} {toServer rest : Multiset (Input UInt16)} {server : Side UInt16}
      (a : Action) (newer : List Effect) (hstep : client.step config a = some d)
      (hlog : d.log = newer ++ config.log) (htaken : server.outbound = gather takenOf newer + rest)
      (hproper : Proper newer) (hrecent : Recent d.state) :
      Step ⟨config, toServer, server⟩
        ⟨d, toServer + gather givenOf newer, { server with outbound := rest }⟩
  | publish {config : Config} {toServer : Multiset (Input UInt16)} {server : Side UInt16}
      (id : UInt16) (twice : Bool) (hfresh : ∀ msg ∈ server.endpoint.inFlight, msg.1 ≠ id) :
      Step ⟨config, toServer, server⟩ ⟨config, toServer, server.take (.sent id twice)⟩
  | receive {config : Config} {rest : Multiset (Input UInt16)} {server : Side UInt16}
      (input : Input UInt16) :
      Step ⟨config, input ::ₘ rest, server⟩ ⟨config, rest, server.take input⟩

def Reachable (j : Joined) : Prop := Relation.ReflTransGen Step {} j

/-- The client and the server as endpoints. -/
def pairOf (j : Joined) : Pair UInt16 where
  here := { endpoint := endpointOf j.config.state
            outbound := j.toServer
            sent := gather startedId j.config.log
            delivered := gather deliveredId j.config.log }
  there := j.server

/-! ## What a turn gives -/

/-- A publish, as the server sees it. -/
def openingOf : Effect → Option (Input UInt16)
  | .sent (.publish message) _ => arrival (.publish message)
  | _ => none

/-- These effects take nothing, and begin with at most one publish. -/
structure Opens (effects : List Effect) : Prop where
  untaken : ∀ e ∈ effects, takenOf e = none
  started : (inputs effects = [] ∧ gather openingOf effects = 0) ∨
    ∃ id twice, inputs effects = [.sent id twice] ∧ gather openingOf effects = {opening id twice}

theorem arrival_opening {message : Publish}
    (h : message.qualityOfService = qos1 ∨ message.qualityOfService = qos2) :
    arrival (.publish message) =
      some (opening message.packetIdentifier (message.qualityOfService = qos2)) := by
  obtain hqos | hqos := h
  · have hne : message.qualityOfService ≠ qos2 := by rw [hqos]; decide
    rw [arrival, if_pos hqos, decide_eq_false hne]
    rfl
  · have hne : message.qualityOfService ≠ qos1 := by rw [hqos]; decide
    rw [arrival, if_neg hne, if_pos hqos, decide_eq_true hqos]
    rfl

section Turns
variable {c : Client}

theorem opens_nothing {effects : List Effect}
    (h : ∀ e ∈ effects, takenOf e = none ∧ inputOf e = none ∧ openingOf e = none) :
    Opens effects := by
  refine ⟨fun e he => (h e he).1, .inl ⟨?_, gather_eq_zero fun e he => (h e he).2.2⟩⟩
  rw [inputs, List.filterMap_eq_nil_iff.mpr fun e he => (h e he).2.1]
  rfl

theorem opens_startFn {op : PublishOpStarter} (hproper : Proper (c.startFn op).effects) :
    Opens (c.startFn op).effects := by
  by_cases hencodes : Encodes (.publish op.message)
  · obtain ⟨pendingWrites, hstart⟩ := c.startFn_of_encodes hencodes
    rw [hstart] at hproper ⊢
    refine ⟨by simp [takenOf], .inr ⟨op.message.packetIdentifier,
      op.message.qualityOfService = qos2, rfl, ?_⟩⟩
    have hopening : openingOf (.sent (.publish op.message) .message) = some (opening
        op.message.packetIdentifier (op.message.qualityOfService = qos2)) :=
      arrival_opening (of_decide_eq_true (hproper _ List.mem_cons_self))
    rw [gather_cons, gather_cons, hopening]
    rfl
  · rw [c.startFn_of_not_encodes hencodes]
    exact opens_nothing (by simp)

theorem opens_maybeSend (hproper : Proper c.maybeSendQueuedPublish.effects) :
    Opens c.maybeSendQueuedPublish.effects := by
  obtain hfull | hempty | ⟨next, queued, -, hnext⟩ := c.maybeSend_cases
  · rw [hfull]
    exact opens_nothing (by simp)
  · rw [hempty]
    exact opens_nothing (by simp)
  · rw [hnext] at hproper ⊢
    exact opens_startFn hproper

theorem opens_startPublish {message : Publish} (hproper : Proper (c.startPublish message).effects) :
    Opens (c.startPublish message).effects := by
  by_cases hqos : message.qualityOfService = qos0
  · have harrival : arrival (.publish message) = none := by
      have hne : qos0 ≠ qos1 ∧ qos0 ≠ qos2 := by decide
      rw [arrival, hqos, if_neg hne.1, if_neg hne.2]
    rw [c.startPublish_of_qos0 hqos]
    by_cases hencodes : Encodes (.publish message)
    · obtain ⟨pendingWrites, hsend⟩ := c.sendMessage_of_encodes hencodes
      rw [hsend, Reaction.andThen_of_not_threw rfl]
      exact opens_nothing (by simp [takenOf, inputOf, openingOf, harrival])
    · rw [c.sendMessage_of_not_encodes hencodes, Reaction.andThen_of_threw rfl]
      exact opens_nothing (by simp)
  · by_cases hfree : c.serverSendQuota > 0
    · rw [c.startPublish_of_free hqos hfree] at hproper ⊢
      exact opens_startFn hproper
    · rw [c.startPublish_of_taken hqos hfree]
      exact opens_nothing (by simp)

theorem nothing_of_receiving {e : Effect} (h : e.Receiving) :
    takenOf e = none ∧ inputOf e = none ∧ openingOf e = none := by
  cases e with
  | sent packet receiver => cases packet <;> first | exact h.elim | exact ⟨rfl, rfl, rfl⟩
  | _ => first | exact h.elim | exact ⟨rfl, rfl, rfl⟩

theorem nothing_of_quiet {e : Effect} (h : e.Quiet) :
    takenOf e = none ∧ inputOf e = none ∧ openingOf e = none := by
  cases e with
  | sent packet receiver => cases packet <;> first | exact h.elim | exact ⟨rfl, rfl, rfl⟩
  | _ => first | exact h.elim | exact ⟨rfl, rfl, rfl⟩

theorem opens_handlePacket {p : ControlPacket} (hproper : Proper (c.handlePacket p).effects) :
    Opens (c.handlePacket p).effects := by
  obtain hreceives | hsends := c.handlePacket_turn p
  · exact opens_nothing fun e he => nothing_of_receiving (hreceives.effects e he)
  · generalize c.handlePacket p = r at hsends hproper
    cases hsends with
    | puback => exact opens_maybeSend hproper
    | _ => exact opens_nothing (by simp [Client.finishPublish, takenOf, inputOf, openingOf])

theorem opens_main {e : Event} {r : Reaction} (h : c.MainTurn e r) (hproper : Proper r.effects) :
    Opens r.effects := by
  cases h with
  | packet p => exact opens_handlePacket hproper
  | pubackSent =>
    exact opens_nothing fun e he => nothing_of_receiving (c.handlePubackSent_receives.effects e he)
  | connack p =>
    obtain ⟨_, _, hack⟩ := { c with main := .connected }.handleConnack_eq p
    rw [hack]
    exact opens_nothing (by simp [takenOf, inputOf, openingOf])
  | handshake | disconnect | ignored =>
    exact opens_nothing (by simp [Client.close, takenOf, inputOf, openingOf])

theorem opens_operate {op : Operation} (hproper : Proper (c.operate op).effects) :
    Opens (c.operate op).effects := by
  have haside := c.operate_aside op
  cases op with
  | publish message => exact opens_startPublish hproper
  | subscribe subscriptions modifier =>
    change Opens (c.startSubscribe subscriptions modifier).effects
    obtain ⟨message, pendingWrites, -, hstart⟩ | hstart :=
      c.startSubscribe_cases subscriptions modifier
    all_goals
      rw [hstart]
      exact opens_nothing (by simp [takenOf, inputOf, openingOf])
  | unsubscribe unsub =>
    change Opens (c.startUnsubscribe unsub).effects
    obtain ⟨message, pendingWrites, -, hstart⟩ | hstart := c.startUnsubscribe_cases unsub
    all_goals
      rw [hstart]
      exact opens_nothing (by simp [takenOf, inputOf, openingOf])
  | _ =>
    have haside := haside (by simp) (by simp) (by simp)
    refine opens_nothing fun e he => ?_
    obtain ⟨reason, rfl⟩ | rfl := haside.effects e he <;> exact ⟨rfl, rfl, rfl⟩

/-! ## What is delivered -/

theorem undelivered_of_sending {e : Effect} (h : e.Sending) : deliveredId e = none := by
  cases e with
  | delivered publish => exact h.elim
  | _ => rfl

theorem undelivered_of_quiet {e : Effect} (h : e.Quiet) : deliveredId e = none := by
  cases e with
  | delivered publish => exact h.elim
  | _ => rfl

/-- What a handler delivers, as an endpoint does. -/
def deliversPacket (c : Client) (p : ControlPacket) : List UInt16 :=
  match arrival p with
  | some input => delivers (endpointOf c) input
  | none => []

theorem undelivered_quotaTaken {d : Client} {effects : List Effect}
    (h : Client.QuotaTaken c d effects) : gather deliveredId effects = 0 := by
  cases h with
  | free => rfl
  | spent => rfl

theorem delivered_publish (publish : Publish) :
    gather deliveredId (c.handlePublish publish).effects =
      ↑(deliversPacket c (.publish publish)) := by
  by_cases hqos1 : publish.qualityOfService = qos1
  · obtain ⟨d, e, effects, calls, htaken, hdelivered, hhandle⟩ := c.handlePublish_of_qos1 hqos1
    have hid : deliveredId (.delivered publish) = some publish.packetIdentifier :=
      if_pos (.inl hqos1)
    rw [hhandle, gather_cons, gather_cons, undelivered_quotaTaken htaken, hid, deliversPacket,
      arrival, if_pos hqos1]
    rfl
  · by_cases hqos2 : publish.qualityOfService = qos2
    · obtain ⟨d, effects, pendingWrites, htaken, hhandle⟩ := c.handlePublish_of_qos2 hqos2
      rw [hhandle, gather_cons, undelivered_quotaTaken htaken, deliversPacket, arrival,
        if_neg hqos1, if_pos hqos2]
      rfl
    · have hnone : deliversPacket c (.publish publish) = [] := by
        rw [deliversPacket, arrival, if_neg hqos1, if_neg hqos2]
      have hid : deliveredId (.delivered publish) = none := if_neg (by simp [hqos1, hqos2])
      obtain ⟨d, calls, effects, -, hsent, hhandle⟩ := c.handlePublish_delivers hqos2
      have hothers : gather deliveredId effects = 0 := by
        apply gather_eq_zero
        intro e he
        obtain rfl | rfl := hsent e he <;> rfl
      rw [hhandle, gather_cons, hid, hothers, hnone]
      rfl

theorem delivered_pubrel (pubrel : Ack)
    (hqos2 : ∀ publish, c.receivedQos2States.find? (Client.storedAs pubrel.packetIdentifier) =
      some publish → publish.qualityOfService = qos2) :
    gather deliveredId (c.handlePubrel pubrel).effects = ↑(deliversPacket c (.pubrel pubrel)) := by
  cases hfind : c.receivedQos2States.find? (Client.storedAs pubrel.packetIdentifier) with
  | none =>
    have hnew : pubrel.packetIdentifier ∉ (endpointOf c).unreleased := by
      rw [mem_unreleased, List.any_eq_true]
      rintro ⟨publish, hpublish, hstored⟩
      exact List.find?_eq_none.mp hfind publish hpublish hstored
    obtain ⟨pendingWrites, hrel⟩ := c.handlePubrel_of_none hfind
    have hnothing : deliversPacket c (.pubrel pubrel) = [] := if_neg hnew
    rw [hrel, hnothing]
    rfl
  | some publish =>
    have hstored : publish.packetIdentifier = pubrel.packetIdentifier := by
      simpa [Client.storedAs] using List.find?_some hfind
    have hold : pubrel.packetIdentifier ∈ (endpointOf c).unreleased := by
      rw [mem_unreleased, List.any_eq_true]
      exact ⟨publish, List.mem_of_find?_eq_some hfind, List.find?_some hfind⟩
    have hid : deliveredId (.delivered publish) = some pubrel.packetIdentifier := by
      rw [deliveredId, if_pos (.inr (hqos2 publish hfind)), hstored]
    obtain ⟨d, calls, -, hrel⟩ := c.handlePubrel_of_some hfind
    have hreleased : deliversPacket c (.pubrel pubrel) = [pubrel.packetIdentifier] := if_pos hold
    rw [hrel, gather_cons, hid, hreleased]
    rfl

/-- The publishes that the client keeps have quality of service 2. -/
def KeepsQos2 (c : Client) : Prop := ∀ id publish,
  c.receivedQos2States.find? (Client.storedAs id) = some publish → publish.qualityOfService = qos2

theorem delivered_handlePacket (h : KeepsQos2 c) (p : ControlPacket) :
    gather deliveredId (c.handlePacket p).effects = ↑(deliversPacket c p) := by
  cases p with
  | publish publish => exact delivered_publish publish
  | pubrel pubrel => exact delivered_pubrel pubrel (h pubrel.packetIdentifier)
  | _ =>
    refine gather_eq_zero fun e he => undelivered_of_sending ?_
    exact (c.handlePacket_sends (by simp) (by simp)).effects e he

/-! ## A turn -/

/-- An event, if there is one, and what follows from it. -/
structure Turned (c : Client) (newer old : List Effect) : Prop where
  opens : Opens newer
  event : old = [] ∨ ∃ e main, old = [.event e main]
  delivered : gather deliveredId newer = ↑(passes (endpointOf c) (inputs old))

theorem deliversPacket_eq (c : Client) (p : ControlPacket) : deliversPacket c p =
    passes (endpointOf c) (inputs [.event (.packetReceived p) .connected]) := by
  cases h : arrival p with
  | none => simp [deliversPacket, inputs, inputOf, h, passes]
  | some input => simp [deliversPacket, inputs, inputOf, h, passes]

theorem turned_main {e : Event} {r : Reaction} (h : c.MainTurn e r) (hkeeps : KeepsQos2 c)
    (hproper : Proper r.effects) : Turned c r.effects [.event e c.main] := by
  refine ⟨opens_main h hproper, .inr ⟨e, c.main, rfl⟩, ?_⟩
  have hunseen : inputOf (.event e c.main) = none → gather deliveredId r.effects = 0 →
      gather deliveredId r.effects = ↑(passes (endpointOf c) (inputs [.event e c.main])) := by
    intro hinput hzero
    rw [hzero, inputs, List.filterMap_cons_none hinput]
    rfl
  cases h with
  | packet p hmain =>
    rw [hmain, ← deliversPacket_eq]
    exact delivered_handlePacket hkeeps p
  | pubackSent hmain =>
    obtain ⟨_, hsent⟩ := c.handlePubackSent_eq
    apply hunseen rfl
    rw [hsent]
    rfl
  | connack p hmain =>
    obtain ⟨_, _, hack⟩ := { c with main := .connected }.handleConnack_eq p
    apply hunseen (by rw [hmain]; rfl)
    rw [hack]
    rfl
  | handshake | disconnect => exact hunseen rfl rfl
  | ignored e hpacket =>
    refine hunseen ?_ rfl
    cases hmain : c.main with
    | connected =>
      cases e with
      | packetReceived p => exact absurd rfl (hpacket p hmain)
      | _ => rfl
    | _ => cases e <;> rfl

theorem Turned.of_opens {effects : List Effect} (h : Opens effects)
    (hdelivered : ∀ e ∈ effects, deliveredId e = none) : Turned c effects [] :=
  ⟨h, .inl rfl, gather_eq_zero hdelivered⟩

theorem turned_respond {call : Call} {a : Action} {r : Reaction} (h : c.respond call a = some r)
    (hkeeps : KeepsQos2 c) (hproper : Proper r.effects) :
    ∃ newer old, r.effects = newer ++ old ∧ Turned c newer old := by
  cases Client.respond_turn h with
  | main e r hturn =>
    refine ⟨r.effects, _, rfl, turned_main hturn hkeeps fun e' he' => ?_⟩
    exact hproper e' (List.mem_append_left _ he')
  | anonymous hmain =>
    obtain ⟨-, -, heffects⟩ := Client.anonymous_same hmain
    refine ⟨_, [], (List.append_nil _).symm, .of_opens (opens_nothing ?_) ?_⟩
    all_goals
      intro e he
      rw [heffects e he]
    · exact ⟨rfl, rfl, rfl⟩
    · rfl
  | maybeSend =>
    have hsends : c.Sends Call.After c.maybeSendQueuedPublish :=
      Client.sends_maybeSend (Client.SameExchanges.refl c).receive
    refine ⟨_, [], (List.append_nil _).symm, .of_opens (opens_maybeSend hproper) ?_⟩
    exact fun e he => undelivered_of_sending (hsends.effects e he)
  | operate op =>
    refine ⟨_, [], (List.append_nil _).symm, .of_opens (opens_operate hproper) ?_⟩
    intro e he
    obtain hsending | ⟨reason, rfl⟩ | rfl := ClientSession.operate_effects c op e he
    · exact undelivered_of_sending hsending
    · rfl
    · rfl
  | close =>
    exact ⟨_, [], (List.append_nil _).symm, .of_opens
      (opens_nothing (by simp [Client.close, takenOf, inputOf, openingOf]))
      (by simp [Client.close, deliveredId])⟩
  | quiet _ _ _ hquiet =>
    exact ⟨_, [], (List.append_nil _).symm, .of_opens
      (opens_nothing fun e he => nothing_of_quiet (hquiet.effects e he))
      fun e he => undelivered_of_quiet (hquiet.effects e he)⟩

end Turns

/-! ## The pair of endpoints -/

def sideOf (c : Client) (log : List Effect) (outbound : Multiset (Input UInt16)) : Side UInt16 where
  endpoint := endpointOf c
  outbound := outbound
  sent := gather startedId log
  delivered := gather deliveredId log

theorem inputs_cons (e : Effect) (effects : List Effect) :
    inputs (e :: effects) = inputs effects ++ (inputOf e).toList := by
  rw [inputs]
  cases h : inputOf e with
  | none => rw [List.filterMap_cons_none h]; simp [inputs]
  | some input => rw [List.filterMap_cons_some h]; simp [inputs]

theorem answers_cons (e : Effect) (effects : List Effect) :
    answers (e :: effects) = answers effects ++ (answerOf e).toList := by
  rw [answers]
  cases h : answerOf e with
  | none => rw [List.filterMap_cons_none h]; simp [answers]
  | some answer => rw [List.filterMap_cons_some h]; simp [answers]

/-- No packet starts a publish of its receiver. -/
theorem starts_arrival {p : ControlPacket} {input : Input UInt16} (h : arrival p = some input) :
    starts input = [] := by
  cases p with
  | publish publish =>
    rw [arrival] at h
    split at h
    · cases h
      rfl
    · split at h
      · cases h
        rfl
      · cases h
  | puback | pubrec | pubrel | pubcomp =>
    cases h
    rfl
  | _ => cases h

theorem gather_startedId (effects : List Effect) :
    gather startedId effects = ↑((inputs effects).flatMap starts) := by
  induction effects with
  | nil => rfl
  | cons e effects ih =>
    have hstarts : (startedId e).toList = (inputOf e).toList.flatMap starts := by
      cases hinput : inputOf e with
      | none => cases e <;> first | rfl | cases hinput
      | some input =>
        cases e with
        | started receiver message =>
          cases hinput
          rfl
        | event event main =>
          have harrival : starts input = [] := by
            unfold inputOf at hinput
            split at hinput
            case h_1 heq => exact starts_arrival hinput
            case h_2 heq => cases heq
            case h_3 => cases hinput
          simp [startedId, harrival]
        | _ => cases hinput
    rw [gather_cons, ih, inputs_cons, List.flatMap_append, hstarts, ← Multiset.coe_add, add_comm]

/-- What is given to the stream: acknowledgements and publishes. -/
theorem gather_givenOf (effects : List Effect) : gather givenOf effects =
    ↑((answers effects).filterMap arrival) + gather openingOf effects := by
  induction effects with
  | nil => rfl
  | cons e effects ih =>
    have hgiven : ((givenOf e).toList : Multiset (Input UInt16)) =
        ↑((answerOf e).toList.filterMap arrival) + ↑(openingOf e).toList := by
      cases e with
      | sent packet receiver => cases packet <;> simp [givenOf, answerOf, openingOf, arrival]
      | _ => rfl
    rw [gather_cons, gather_cons, ih, answers_cons, List.filterMap_append, ← Multiset.coe_add,
      hgiven]
    abel

theorem arrival_packetOf (replies : List (Reply UInt16)) :
    (replies.map packetOf).filterMap arrival = replies.map arrives := by
  rw [List.filterMap_map, ← List.filterMap_eq_map]
  apply List.filterMap_congr
  intro reply _
  cases reply <;> rfl

theorem event_taken {old : List Effect} (h : old = [] ∨ ∃ e main, old = [.event e main]) :
    gather takenOf old = ↑(inputs old) ∧ (inputs old).filterMap opens = [] ∧
      gather deliveredId old = 0 ∧ gather openingOf old = 0 := by
  obtain rfl | ⟨e, main, rfl⟩ := h
  · exact ⟨rfl, rfl, rfl, rfl⟩
  · have htaken : takenOf (.event e main) = inputOf (.event e main) := by
      cases e <;> cases main <;> rfl
    refine ⟨?_, ?_, rfl, rfl⟩
    · rw [gather_cons, htaken, inputs_cons]
      exact add_zero _
    · cases hinput : inputOf (.event e main) with
      | none => simp [hinput, inputs]
      | some input =>
        have hstarts : starts input = [] := by
          cases e with
          | packetReceived p =>
            cases main with
            | connected => exact starts_arrival hinput
            | _ => cases hinput
          | _ => cases main <;> cases hinput
        have hopens : opens input = none := by
          cases input with
          | sent id twice => cases hstarts
          | _ => rfl
        simp [hinput, inputs, hopens]

section
variable {c d : Client} {newer old : List Effect}

theorem Turned.given (h : Turned c newer old) (hfollows : Follows c d (newer ++ old)) :
    gather givenOf (newer ++ old) = ↑(gives (endpointOf c) (inputs (newer ++ old))) := by
  obtain ⟨-, hold, -, hopening⟩ := event_taken h.event
  have hopens : gather openingOf (newer ++ old) =
      ↑((inputs (newer ++ old)).filterMap AckProtocol.opens) := by
    rw [gather_append, hopening, inputs_append, List.filterMap_append, hold, add_zero]
    obtain ⟨hinputs, hzero⟩ | ⟨id, twice, hinputs, hone⟩ := h.opens.started
    · rw [hinputs, hzero]
      rfl
    · rw [hinputs, hone]
      rfl
  rw [gather_givenOf, ← hfollows.2, arrival_packetOf, hopens, gives_eq]

theorem Turned.passed (h : Turned c newer old) : gather deliveredId (newer ++ old) =
    ↑(passes (endpointOf c) (inputs (newer ++ old))) := by
  obtain ⟨-, -, hold, -⟩ := event_taken h.event
  have hnothing : ∀ s : Endpoint UInt16, passes s (inputs newer) = [] := by
    intro s
    obtain ⟨hinputs, -⟩ | ⟨id, twice, hinputs, -⟩ := h.opens.started
    · rw [hinputs]
      rfl
    · rw [hinputs]
      rfl
  rw [gather_append, hold, h.delivered, inputs_append, passes_append, hnothing, List.append_nil,
    add_zero]

/-- The client takes the inputs of a turn as its endpoint does. -/
theorem Turned.takes (h : Turned c newer old) (hfollows : Follows c d (newer ++ old))
    (log : List Effect) (outbound : Multiset (Input UInt16)) :
    (inputs (newer ++ old)).foldl Side.take (sideOf c log outbound) =
      sideOf d (newer ++ old ++ log) (outbound + gather givenOf (newer ++ old)) := by
  rw [takes_eq, sideOf, sideOf, h.given hfollows, gather_append, gather_append (f := deliveredId),
    gather_startedId (newer ++ old), h.passed, ← hfollows.1, add_comm (gather startedId log),
    add_comm (gather deliveredId log)]

/-- What happens in a turn is what happens to the pair. -/
theorem Turned.reachable (h : Turned c newer old) (hfollows : Follows c d (newer ++ old))
    (hdistinct : ((endpointOf d).inFlight.map Prod.fst).Nodup) {log : List Effect}
    {toServer rest : Multiset (Input UInt16)} {server : Side UInt16}
    (hserver : server.outbound = gather takenOf (newer ++ old) + rest)
    (hreach : AckProtocol.Reachable ⟨sideOf c log toServer, server⟩) :
    AckProtocol.Reachable ⟨sideOf d (newer ++ old ++ log)
      (toServer + gather givenOf (newer ++ old)), { server with outbound := rest }⟩ := by
  obtain ⟨htaken, -, -, -⟩ := event_taken h.event
  have hold : server.outbound = ↑(inputs old) + rest := by
    rw [hserver, gather_append, gather_eq_zero h.opens.untaken, htaken, zero_add]
  have hasked := hreach.take hold
  have htakes := h.takes hfollows log toServer
  rw [← htakes, inputs_append, List.foldl_append]
  obtain ⟨hinputs, -⟩ | ⟨id, twice, hinputs, -⟩ := h.opens.started
  · rw [hinputs]
    exact hasked
  · rw [inputs_append, List.foldl_append, hinputs] at htakes
    rw [hinputs]
    apply hasked.send
    rw [List.foldl_cons, List.foldl_nil] at htakes
    rw [htakes]
    exact hdistinct

end

/-! ## The refinement -/

theorem identifiers_distinct {c : Client} (hc : Accounted c) (hrecent : Recent c) :
    ((endpointOf c).inFlight.map Prod.fst).Nodup := by
  have hheld : (held c).map Held.identifier |>.Nodup := by
    have hdraws : (held c).Nodup := hc.nodup.of_map _
    apply (Multiset.nodup_map_iff_inj_on hdraws).mpr
    intro h hh k hk hid
    have hdraw : h.draw = k.draw := by
      have hmod := hc.identifier h hh
      have hmod' := hc.identifier k hk
      have hlt := hc.draw_lt h hh
      have hlt' := hc.draw_lt k hk
      have hrecent' := hrecent k hk
      have hrecent := hrecent h hh
      rw [hid] at hmod
      omega
    cases h
    cases k
    cases hid
    cases hdraw
    rfl
  have hle : (↑(c.publishedMessages.map heldByPublished) : Multiset Held) ≤ held c := by
    rw [held, add_assoc, add_assoc]
    exact Multiset.le_add_right _ _
  have hpublished := Multiset.nodup_of_le (Multiset.map_le_map (f := Held.identifier) hle) hheld
  rw [Multiset.map_coe, Multiset.coe_nodup, List.map_map] at hpublished
  rw [endpointOf, List.map_map]
  exact hpublished

theorem keepsQos2_run {ok : Config → Action → Prop} {c : Config} (run : client.Run ok initial c) :
    KeepsQos2 c.state := by
  intro id publish hfind
  have hfaithful := ClientExactlyOnce.faithful_run ClientExactlyOnce.faithful_initial run
  have hheld : OnceDelivery.held ClientExactlyOnce.identifier
      (ClientExactlyOnce.arrivals c.log) id = some publish :=
    (hfaithful.represents.find id).symm.trans hfind
  exact ClientExactlyOnce.qos2_of_held hheld

/-- What the client can do is a turn of it. -/
theorem turned_step {config d : Config} {a : Action} (hstep : client.step config a = some d)
    {newer : List Effect} (hlog : d.log = newer ++ config.log) (hkeeps : KeepsQos2 config.state)
    (hproper : Proper newer) : ∃ later old, newer = later ++ old ∧
      Turned config.state later old ∧ Follows config.state d.state (later ++ old) := by
  cases Program.step_stepped hstep with
  | arrive r hstack hr =>
    have hnewer : r.effects = newer := List.append_cancel_right hlog
    have hquiet := Client.arrive_quiet hr
    refine ⟨newer, [], (List.append_nil _).symm, .of_opens ?_ ?_, ?_⟩
    · exact opens_nothing fun e he => nothing_of_quiet (hquiet.effects e (hnewer ▸ he))
    · exact fun e he => undelivered_of_quiet (hquiet.effects e (hnewer ▸ he))
    · rw [List.append_nil, ← hnewer]
      exact follows_of_same (endpointOf_same hquiet.same) fun e he =>
        unseen_of_quiet (hquiet.effects e he)
  | respond call rest r hstack hr =>
    have hnewer : r.effects = newer := List.append_cancel_right hlog
    obtain ⟨later, old, heffects, hturned⟩ :=
      turned_respond hr hkeeps (hnewer ▸ hproper)
    refine ⟨later, old, hnewer.symm.trans heffects, hturned, ?_⟩
    rw [← heffects]
    exact follows_respond hr

/-- The client and the server refine the pair of endpoints. -/
theorem refines_pair {j : Joined} (h : Reachable j) :
    client.Run (fun _ _ => True) initial j.config ∧ AckProtocol.Reachable (pairOf j) := by
  induction h with
  | refl => exact ⟨.refl, .refl⟩
  | tail _ hstep ih =>
    obtain ⟨run, hreach⟩ := ih
    cases hstep with
    | client a newer hstep hlog htaken hproper hrecent =>
      have run' := Program.Run.tail a run trivial hstep
      obtain ⟨later, old, rfl, hturned, hfollows⟩ :=
        turned_step hstep hlog (keepsQos2_run run) hproper
      have hdistinct := identifiers_distinct (accounted_run run') hrecent
      refine ⟨run', ?_⟩
      have hpair := hturned.reachable hfollows hdistinct htaken hreach
      rw [← hlog] at hpair
      exact hpair
    | publish id twice hfresh =>
      exact ⟨run, .tail hreach (.inr (.inl (.send id twice hfresh)))⟩
    | receive input =>
      exact ⟨run, .tail hreach (.inr (.inr (.receive input _ rfl)))⟩

/-! ## An exchange both ways -/

theorem drawn_le {c d : Config} {a : Action} (h : client.step c a = some d) :
    c.state.nextPacketIdentifier.drawn ≤ d.state.nextPacketIdentifier.drawn := by
  cases Program.step_stepped h with
  | arrive r hstack hr =>
    exact Nat.le_of_eq (congrArg _ (Client.arrive_quiet hr).same.send.nextPacketIdentifier.symm)
  | respond call rest r hstack hr =>
    change _ ≤ r.state.nextPacketIdentifier.drawn
    obtain ⟨hsame, -⟩ | ⟨hnext, -⟩ := draws_respond hr
    · rw [hsame]
    · rw [hnext]
      exact Nat.le_succ _

/-- A run of the client in which few identifiers are drawn is one of the system, if the packets
that it takes are on their way. -/
theorem reachable_run {ok : Config → Action → Prop} {c d : Config} (run : client.Run ok c d)
    (hproper : Proper d.log) (hdrawn : d.state.nextPacketIdentifier.drawn ≤ 65535) :
    ∃ newer, d.log = newer ++ c.log ∧ ∀ {toServer rest : Multiset (Input UInt16)}
      {server : Side UInt16}, server.outbound = gather takenOf newer + rest →
        Reachable ⟨c, toServer, server⟩ →
          Reachable ⟨d, toServer + gather givenOf newer, { server with outbound := rest }⟩ := by
  induction run with
  | refl =>
    refine ⟨[], rfl, ?_⟩
    intro toServer rest server hserver h
    have hrest : server.outbound = rest := by simpa [gather] using hserver
    rw [← hrest]
    simpa [gather] using h
  | @tail d e a run _ hstep ih =>
    have hlog : ∃ effects, e.log = effects ++ d.log := by
      cases Program.step_stepped hstep <;> exact ⟨_, rfl⟩
    obtain ⟨effects, hlog⟩ := hlog
    rw [hlog] at hproper
    obtain ⟨newer, hnewer, hreach⟩ := ih
      (fun e' he' => hproper e' (List.mem_append_right _ he'))
      ((drawn_le hstep).trans hdrawn)
    refine ⟨effects ++ newer, by rw [hlog, hnewer, List.append_assoc], ?_⟩
    intro toServer rest server hserver h
    rw [gather_append, add_comm (gather takenOf effects), add_assoc] at hserver
    have hbefore := hreach hserver h
    have hrecent : Recent e.state := fun h _ => hdrawn.trans (Nat.le_add_left _ _)
    have hafter := hbefore.tail (.client a effects hstep hlog rfl
      (fun e' he' => hproper e' (List.mem_append_left _ he')) hrecent)
    rw [gather_append, add_comm (gather givenOf effects), ← add_assoc]
    exact hafter

/-- The packets of the exchanges in a log, and what makes a run with it one of the system. -/
def summary (c : Config) : List (Input UInt16) × List (Input UInt16) × Bool × Bool :=
  (c.log.filterMap takenOf, c.log.filterMap givenOf, c.log.all isProper,
    c.state.nextPacketIdentifier.drawn ≤ 65535)

/-- Some more actions of the client, where the server has sent what they take. -/
theorem reachable_steps {c d : Config} {actions : List Action} (taken given : List (Input UInt16))
    (hsteps : client.stepsWhile (fun _ _ => true) c actions = some d)
    (hsummary : summary d =
      (taken ++ c.log.filterMap takenOf, given ++ c.log.filterMap givenOf, true, true))
    {toServer rest : Multiset (Input UInt16)} {server : Side UInt16}
    (hserver : server.outbound = ↑taken + rest) (h : Reachable ⟨c, toServer, server⟩) :
    Reachable ⟨d, toServer + ↑given, { server with outbound := rest }⟩ := by
  simp only [summary, Prod.mk.injEq, List.all_eq_true, decide_eq_true_eq] at hsummary
  obtain ⟨htaken, hgiven, hproper, hdrawn⟩ := hsummary
  obtain ⟨newer, hlog, hreach⟩ := reachable_run (Program.Run.of_stepsWhile _ hsteps) hproper hdrawn
  rw [hlog, List.filterMap_append] at htaken hgiven
  have htaken' : gather takenOf newer = ↑taken := congrArg _ (List.append_cancel_right htaken)
  have hgiven' : gather givenOf newer = ↑given := congrArg _ (List.append_cancel_right hgiven)
  rw [← hgiven']
  apply hreach _ h
  rw [hserver, htaken']

/-- Client and server each publish once with quality of service 2. -/
def openingActions : List Action :=
  ClientSession.handshakeActions { flags := 0, reasonCode := 0 } ++ [.run] ++
    ClientSession.settleActions ++ ClientSession.request (.publish ClientSession.publishQos2)

def crossingActions : List Action :=
  ClientSession.arrival (.pubrec { packetIdentifier := 1 }) ++
    ClientSession.arrival (.publish { ClientSession.publishQos2 with packetIdentifier := 9 })

def closingActions : List Action :=
  ClientSession.completion (.pubcomp { packetIdentifier := 1 }) 0 ++
    ClientSession.arrival (.pubrel { packetIdentifier := 9 })

theorem summary_crossing : ∃ c d e,
    client.stepsWhile (fun _ _ => true) initial openingActions = some c ∧
    client.stepsWhile (fun _ _ => true) c crossingActions = some d ∧
    client.stepsWhile (fun _ _ => true) d closingActions = some e ∧
    summary c = ([], [.twice 1], true, true) ∧
    summary d = ([.twice 9, .receipt 1 true], [.receipt 9 true, .release 1, .twice 1], true, true) ∧
    summary e = ([.release 9, .completed 1, .twice 9, .receipt 1 true],
      [.completed 9, .receipt 9 true, .release 1, .twice 1], true, true) ∧
    answers e.log = [.pubrel { packetIdentifier := 1 }, .pubrec { packetIdentifier := 9 },
      .pubcomp { packetIdentifier := 9 }] := by
  have hopening : (client.stepsWhile (fun _ _ => true) initial openingActions).map summary =
      some ([], [.twice 1], true, true) := by decide +kernel
  have hcrossing : (client.stepsWhile (fun _ _ => true) initial
      (openingActions ++ crossingActions)).map summary = some ([.twice 9, .receipt 1 true], [.receipt 9 true, .release 1, .twice 1], true,
        true) := by decide +kernel
  have hclosing : (client.stepsWhile (fun _ _ => true) initial
      (openingActions ++ crossingActions ++ closingActions)).map summary =
        some ([.release 9, .completed 1, .twice 9, .receipt 1 true],
          [.completed 9, .receipt 9 true, .release 1, .twice 1], true, true) := by decide +kernel
  obtain ⟨c, hc, hsummary⟩ := Option.map_eq_some_iff.mp hopening
  obtain ⟨d, hd, hsummary'⟩ := Option.map_eq_some_iff.mp hcrossing
  obtain ⟨e, he, hsummary''⟩ := Option.map_eq_some_iff.mp hclosing
  have hanswers : (client.stepsWhile (fun _ _ => true) initial
      (openingActions ++ crossingActions ++ closingActions)).map (fun c => answers c.log) =
        some [.pubrel { packetIdentifier := 1 }, .pubrec { packetIdentifier := 9 },
          .pubcomp { packetIdentifier := 9 }] := by decide +kernel
  rw [he] at hanswers
  exact ⟨c, d, e, hc, Program.stepsWhile_suffix hc hd, Program.stepsWhile_suffix hd he, hsummary,
    hsummary', hsummary'', Option.some.inj hanswers⟩

/-- The server has got the client's publish, and has published itself. -/
def crossedServer : Side UInt16 := (({} : Side UInt16).take (.twice 1)).take (.sent 9 true)

/-- It has got the release of the one and the receipt of the other. -/
def releasedServer : Side UInt16 :=
  ({ crossedServer with outbound := 0 }.take (.release 1)).take (.receipt 9 true)

def settledServer : Side UInt16 := { releasedServer with outbound := 0 }.take (.completed 9)

theorem reachable_crossing : ∃ c e, Reachable ⟨c, 0, crossedServer⟩ ∧
    Reachable ⟨e, 0, settledServer⟩ ∧ answers e.log = [.pubrel { packetIdentifier := 1 },
      .pubrec { packetIdentifier := 9 }, .pubcomp { packetIdentifier := 9 }] := by
  obtain ⟨c, d, e, hc, hd, he, hsummary, hsummary', hsummary'', hanswers⟩ := summary_crossing
  have htaken : c.log.filterMap takenOf = [] := congrArg Prod.fst hsummary
  have hgiven : c.log.filterMap givenOf = [.twice 1] := congrArg (fun s => s.2.1) hsummary
  have htaken' : d.log.filterMap takenOf = [.twice 9, .receipt 1 true] :=
    congrArg Prod.fst hsummary'
  have hgiven' : d.log.filterMap givenOf = [.receipt 9 true, .release 1, .twice 1] :=
    congrArg (fun s => s.2.1) hsummary'
  have hopened : Reachable ⟨c, .twice 1 ::ₘ 0, {}⟩ :=
    reachable_steps [] [.twice 1] hc hsummary rfl .refl
  have hcrossed : Reachable ⟨c, 0, crossedServer⟩ :=
    (hopened.tail (.receive (.twice 1))).tail
      (.publish 9 true (by simp [Side.take, Endpoint.react]))
  have hreleased : Reachable ⟨d, .receipt 9 true ::ₘ .release 1 ::ₘ 0,
      { crossedServer with outbound := 0 }⟩ := by
    refine reachable_steps [.twice 9, .receipt 1 true] [.receipt 9 true, .release 1] hd ?_
      (by decide) hcrossed
    rw [htaken, hgiven]
    exact hsummary'
  rw [Multiset.cons_swap] at hreleased
  have hanswered : Reachable ⟨d, 0, releasedServer⟩ :=
    (hreleased.tail (.receive (.release 1))).tail (.receive (.receipt 9 true))
  have hclosed : Reachable ⟨e, .completed 9 ::ₘ 0, { releasedServer with outbound := 0 }⟩ := by
    refine reachable_steps [.release 9, .completed 1] [.completed 9] he ?_ (by decide) hanswered
    rw [htaken', hgiven']
    exact hsummary''
  exact ⟨c, e, hcrossed, hclosed.tail (.receive (.completed 9)), hanswers⟩

section
variable {c d : Client} {newer old : List Effect}

theorem Turned.known (h : Turned c newer old) (hfollows : Follows c d (newer ++ old))
    (hknown : ∀ input ∈ inputs old, ∀ reply ∈ ((endpointOf c).react input).2, IsKnown reply) :
    ∀ p ∈ answers (newer ++ old), ∃ reply : Reply UInt16, IsKnown reply ∧ packetOf reply = p := by
  have hlater : ∀ s : Endpoint UInt16, (s.run (inputs newer)).2 = [] := by
    intro s
    obtain ⟨hinputs, -⟩ | ⟨id, twice, hinputs, -⟩ := h.opens.started <;> rw [hinputs] <;> rfl
  have hreplies : ∀ reply ∈ ((endpointOf c).run (inputs old)).2, IsKnown reply := by
    obtain rfl | ⟨e, main, rfl⟩ := h.event
    · intro reply hreply
      cases hreply
    · cases hinput : inputOf (.event e main) with
      | none =>
        have hinputs : inputs [.event e main] = [] := by simp [inputs, hinput]
        rw [hinputs]
        intro reply hreply
        cases hreply
      | some input =>
        have hinputs : inputs [.event e main] = [input] := by simp [inputs, hinput]
        rw [hinputs] at hknown ⊢
        intro reply hreply
        rw [Endpoint.run, Endpoint.run, List.append_nil] at hreply
        exact hknown input (List.mem_singleton_self _) reply hreply
  intro p hp
  rw [← hfollows.2, inputs_append, Endpoint.run_append, hlater, List.append_nil] at hp
  obtain ⟨reply, hreply, rfl⟩ := List.mem_map.mp hp
  exact ⟨reply, hreplies reply hreply, rfl⟩

end

theorem answers_known {j : Joined} (h : Reachable j) : ∀ p ∈ answers j.config.log,
    ∃ reply : Reply UInt16, IsKnown reply ∧ packetOf reply = p := by
  induction h with
  | refl =>
    intro p hp
    cases hp
  | tail before hstep ih =>
    obtain ⟨run, hreach⟩ := refines_pair before
    cases hstep with
    | @client config d toServer rest server a newer hstep hlog htaken hproper hrecent =>
      obtain ⟨later, old, rfl, hturned, hfollows⟩ :=
        turned_step hstep hlog (keepsQos2_run run) hproper
      have hold : gather takenOf (later ++ old) = ↑(inputs old) := by
        rw [gather_append, gather_eq_zero hturned.opens.untaken, (event_taken hturned.event).1,
          zero_add]
      have hknown := hturned.known hfollows fun input hinput => by
        apply (Consistent.of_reachable hreach).known
        change input ∈ server.outbound
        rw [htaken, hold]
        exact Multiset.mem_add.mpr (.inl hinput)
      intro p hp
      change p ∈ answers d.log at hp
      rw [hlog, answers_append] at hp
      obtain hp | hp := List.mem_append.mp hp
      · exact ih p hp
      · exact hknown p hp
    | publish | receive => exact ih

/-! ## Every run -/

/-- Whatever the client and the server do in whatever order: a message that is on its way means
something to its receiver, and every publish that was started is delivered exactly once, on its
way to be, or kept until it is released. -/
theorem exchange_is_safe {j : Joined} (h : Reachable j) :
    (∀ input ∈ j.server.outbound, Expected (endpointOf j.config.state) input) ∧
    (∀ input ∈ j.toServer, Expected j.server.endpoint input) ∧
    gather startedId j.config.log =
      j.server.delivered + j.toServer.bind firsts + j.server.endpoint.unreleased ∧
    j.server.sent = gather deliveredId j.config.log + j.server.outbound.bind firsts +
      (endpointOf j.config.state).unreleased := by
  have hconsistent := Consistent.of_reachable (refines_pair h).2
  exact ⟨fun _ hinput => hconsistent.expected hinput,
    fun _ hinput => hconsistent.flip.expected hinput,
    hconsistent.forward.counted, hconsistent.backward.counted⟩

theorem exchange_is_safe_crossing : ∃ j, Reachable j ∧ .receipt 1 true ∈ j.server.outbound ∧
    (1, .receipt) ∈ (endpointOf j.config.state).inFlight := by
  obtain ⟨c, e, h, -, -⟩ := reachable_crossing
  have hmem : .receipt 1 true ∈ crossedServer.outbound := by decide
  exact ⟨_, h, hmem, ((exchange_is_safe h).1 _ hmem).2⟩

/-- When nothing is on its way, all that was started has been delivered, and neither side keeps
anything of it. -/
theorem exchange_settles {j : Joined} (h : Reachable j) (hclient : j.toServer = 0)
    (hserver : j.server.outbound = 0) :
    j.config.state.publishedMessages = [] ∧ j.config.state.receivedQos2States = [] ∧
      j.server.endpoint.inFlight = [] ∧ j.server.endpoint.unreleased = [] ∧
      gather startedId j.config.log = j.server.delivered ∧
      j.server.sent = gather deliveredId j.config.log := by
  have hconsistent := Consistent.of_reachable (refines_pair h).2
  obtain ⟨hpublished, hunreleased, hstarted⟩ := hconsistent.forward.settled hclient hserver
  obtain ⟨hinFlight, hreceived, hsent⟩ := hconsistent.backward.settled hserver hclient
  exact ⟨List.map_eq_nil_iff.mp hpublished, List.map_eq_nil_iff.mp hreceived, hinFlight,
    hunreleased, hstarted, hsent⟩

theorem exchange_settles_crossing : ∃ j, Reachable j ∧ j.config.state.publishedMessages = [] ∧
    gather startedId j.config.log = {1} ∧ gather deliveredId j.config.log = {9} := by
  obtain ⟨c, e, -, h, -⟩ := reachable_crossing
  have hnothing : settledServer.outbound = 0 := by decide
  obtain ⟨hpublished, -, -, -, hstarted, hsent⟩ := exchange_settles h rfl hnothing
  have hdelivered : settledServer.delivered = {1} := by decide
  have hserver : settledServer.sent = {9} := by decide
  exact ⟨_, h, hpublished, hstarted.trans hdelivered, hsent.symm.trans hserver⟩

/-- The client never says that it does not know a packet identifier. -/
theorem nothing_unknown {j : Joined} (h : Reachable j) :
    (∀ ack, .pubrel ack ∈ answers j.config.log → ack.reasonCode = 0) ∧
      ∀ ack, .pubcomp ack ∈ answers j.config.log → ack.reasonCode = 0 := by
  constructor
  · intro ack hack
    obtain ⟨reply, hknown, hreply⟩ := answers_known h _ hack
    cases reply with
    | release id known =>
      cases hreply
      rw [show known = true from hknown]
      rfl
    | _ => cases hreply
  · intro ack hack
    obtain ⟨reply, hknown, hreply⟩ := answers_known h _ hack
    cases reply with
    | complete id known =>
      cases hreply
      rw [show known = true from hknown]
      rfl
    | _ => cases hreply

theorem nothing_unknown_crossing : ∃ j ack, Reachable j ∧ .pubcomp ack ∈ answers j.config.log ∧
    ack.packetIdentifier = 9 ∧ ack.reasonCode = 0 := by
  obtain ⟨c, e, -, h, hanswers⟩ := reachable_crossing
  have hmem : .pubcomp { packetIdentifier := 9 } ∈ answers e.log := by
    rw [hanswers]
    exact List.mem_append_right [_, _] (List.mem_singleton_self _)
  exact ⟨_, _, h, hmem, rfl, (nothing_unknown h).2 _ hmem⟩

end Mqtt5.ClientProtocol
