import Mqtt5.AckEndpoint
import Mqtt5.ClientExceptions
import Mqtt5.ClientSession

/-!
# What the client answers

The acknowledgements that the client sends, read off its log, are those of an endpoint that
sees only identifiers: whatever the client's regions, its user, its quotas and its reconnections
do in between, every acknowledgement answers one packet, in the order of these.
-/
namespace Mqtt5.ClientEndpoint
open WirePrimitives WirePublish WireConnect WireControlPacket CallMachine ClientState ClientSession
open AckEndpoint ClientExceptions
open WireSubscribe hiding TopicFilter

/-! ## The client as an endpoint -/

def stageOf : PublishState → Stage
  | .waitingPuback => .ack
  | .waitingPubrec => .receipt
  | .waitiingPubcomp => .completion

def entryOf (msg : InFlightPublish) : UInt16 × Stage :=
  (msg.message.packetIdentifier, stageOf msg.state)

def endpointOf (c : Client) : Endpoint UInt16 where
  inFlight := c.publishedMessages.map entryOf
  unreleased := c.receivedQos2States.map (·.packetIdentifier)

/-- What a packet is to a connected client. -/
def arrival : ControlPacket → Option (Input UInt16)
  | .publish publish =>
      if publish.qualityOfService = qos1 then some (.once publish.packetIdentifier)
      else if publish.qualityOfService = qos2 then some (.twice publish.packetIdentifier)
      else none
  | .puback ack => some (.acknowledged ack.packetIdentifier)
  | .pubrec ack => some (.receipt ack.packetIdentifier (ack.reasonCode ≤ Client.noMatchingSubscribers))
  | .pubrel ack => some (.release ack.packetIdentifier)
  | .pubcomp ack => some (.completed ack.packetIdentifier)
  | _ => none

def inputOf : Effect → Option (Input UInt16)
  | .event (.packetReceived p) .connected => arrival p
  | .started _ message =>
      some (.sent message.packetIdentifier (message.qualityOfService = qos2))
  | _ => none

/-- An acknowledgement that was given to the stream. -/
def answerOf : Effect → Option ControlPacket
  | .sent (.puback ack) _ => some (.puback ack)
  | .sent (.pubrec ack) _ => some (.pubrec ack)
  | .sent (.pubrel ack) _ => some (.pubrel ack)
  | .sent (.pubcomp ack) _ => some (.pubcomp ack)
  | _ => none

/-- The first one first. -/
def inputs (log : List Effect) : List (Input UInt16) := (log.filterMap inputOf).reverse

def answers (log : List Effect) : List ControlPacket := (log.filterMap answerOf).reverse

def reasonOf (known : Bool) : UInt8 := if known then 0 else Client.packetIdentifierNotFound

def packetOf : Reply UInt16 → ControlPacket
  | .ack id => .puback { packetIdentifier := id }
  | .receipt id => .pubrec { packetIdentifier := id }
  | .release id known => .pubrel { packetIdentifier := id, reasonCode := reasonOf known }
  | .complete id known => .pubcomp { packetIdentifier := id, reasonCode := reasonOf known }

/-- These effects lead from one client to another as their inputs do from endpoint to endpoint. -/
def Follows (c d : Client) (effects : List Effect) : Prop :=
  ((endpointOf c).run (inputs effects)).1 = endpointOf d ∧
    ((endpointOf c).run (inputs effects)).2.map packetOf = answers effects

theorem inputs_append (newer older : List Effect) :
    inputs (newer ++ older) = inputs older ++ inputs newer := by
  rw [inputs, List.filterMap_append, List.reverse_append, inputs, inputs]

theorem answers_append (newer older : List Effect) :
    answers (newer ++ older) = answers older ++ answers newer := by
  rw [answers, List.filterMap_append, List.reverse_append, answers, answers]

theorem Follows.trans {c d e : Client} {older newer : List Effect} (h : Follows c d older)
    (h' : Follows d e newer) : Follows c e (newer ++ older) := by
  obtain ⟨hstate, hreplies⟩ := h
  obtain ⟨hstate', hreplies'⟩ := h'
  constructor
  · rw [inputs_append, Endpoint.run_append, hstate]
    exact hstate'
  · rw [inputs_append, Endpoint.run_append, hstate, List.map_append, hreplies, hreplies',
      answers_append]

theorem Follows.from {c d e : Client} {effects : List Effect} (h : Follows d e effects)
    (hd : endpointOf d = endpointOf c) : Follows c e effects := by
  rw [Follows, ← hd]
  exact h

/-- Nothing that an endpoint sees. -/
theorem follows_of_same {c d : Client} {effects : List Effect} (h : endpointOf d = endpointOf c)
    (heffects : ∀ e ∈ effects, inputOf e = none ∧ answerOf e = none) : Follows c d effects := by
  have hinputs : inputs effects = [] := by
    rw [inputs, List.filterMap_eq_nil_iff.mpr fun e he => (heffects e he).1]
    rfl
  have hanswers : answers effects = [] := by
    rw [answers, List.filterMap_eq_nil_iff.mpr fun e he => (heffects e he).2]
    rfl
  rw [Follows, hinputs, hanswers]
  exact ⟨h.symm, rfl⟩

/-! ## The packets -/

section Packets
variable {c : Client}

theorem find_entry (id : UInt16) : (endpointOf c).inFlight.find? (fun msg => msg.1 = id) =
    (c.publishedMessages.find? (·.named id)).map entryOf :=
  List.find?_map

theorem eraseP_entry (id : UInt16) : (endpointOf c).inFlight.eraseP (fun msg => msg.1 = id) =
    (c.publishedMessages.eraseP (·.named id)).map entryOf :=
  List.eraseP_map

theorem advance_entry (id : UInt16) (msgs : List InFlightPublish) : advance id (msgs.map entryOf) =
    (modifyFirst (·.named id) (fun msg => { msg with state := .waitiingPubcomp }) msgs).map
      entryOf := by
  induction msgs with
  | nil => rfl
  | cons msg msgs ih =>
    rw [List.map_cons, advance, modifyFirst]
    by_cases hid : (entryOf msg).1 = id
    · rw [if_pos hid, if_pos (by simpa [InFlightPublish.named, entryOf] using hid)]
      rfl
    · rw [if_neg hid, if_neg (by simpa [InFlightPublish.named, entryOf] using hid), ih]
      rfl

theorem mem_unreleased (id : UInt16) : id ∈ (endpointOf c).unreleased ↔
    c.receivedQos2States.any (Client.storedAs id) = true := by
  simp [endpointOf, Client.storedAs]

theorem erase_unreleased (id : UInt16) : (endpointOf c).unreleased.erase id =
    (c.receivedQos2States.eraseP (Client.storedAs id)).map (·.packetIdentifier) := by
  rw [List.erase_eq_eraseP', endpointOf, List.eraseP_map]
  rfl

/-- A packet that the endpoint sees, and what the client does with it. -/
theorem follows_event {p : ControlPacket} {input : Input UInt16} {d : Client}
    {effects : List Effect} (hp : arrival p = some input)
    (hinputs : ∀ e ∈ effects, inputOf e = none)
    (hstate : ((endpointOf c).react input).1 = endpointOf d)
    (hreplies : ((endpointOf c).react input).2.map packetOf = answers effects) :
    Follows c d (effects ++ [.event (.packetReceived p) .connected]) := by
  have hall : inputs (effects ++ [.event (.packetReceived p) .connected]) = [input] := by
    rw [inputs_append, inputs, inputs, List.filterMap_eq_nil_iff.mpr hinputs]
    simp [inputOf, hp]
  have hanswers : answers (effects ++ [.event (.packetReceived p) .connected]) = answers effects := by
    rw [answers_append]
    rfl
  rw [Follows, hall, hanswers]
  refine ⟨hstate, ?_⟩
  rw [← hreplies, Endpoint.run, Endpoint.run, List.append_nil]

/-- A packet that the endpoint does not see. -/
theorem follows_unseen {p : ControlPacket} {d : Client} {effects : List Effect}
    (hp : arrival p = none) (hd : endpointOf d = endpointOf c)
    (heffects : ∀ e ∈ effects, inputOf e = none ∧ answerOf e = none) :
    Follows c d (effects ++ [.event (.packetReceived p) .connected]) := by
  apply follows_of_same hd
  intro e he
  obtain he | he := List.mem_append.mp he
  · exact heffects e he
  · rw [List.mem_singleton.mp he]
    exact ⟨hp, rfl⟩

/-- The publish that an acknowledgement names is done with. -/
theorem follows_finish {p : ControlPacket} {input : Input UInt16} {id : UInt16}
    {msg : InFlightPublish} {completion : Completion} {after : List Call}
    (hp : arrival p = some input) (hreact : (endpointOf c).react input =
      ({ endpointOf c with inFlight := (endpointOf c).inFlight.eraseP fun msg => msg.1 = id }, [])) :
    Follows c (c.finishPublish id msg completion after).state
      ((c.finishPublish id msg completion after).effects ++
        [.event (.packetReceived p) .connected]) := by
  refine follows_event hp (by simp [Client.finishPublish, inputOf]) ?_ ?_
  · rw [hreact, eraseP_entry]
    rfl
  · rw [hreact]
    rfl

theorem endpointOf_delivered {d : Client} (h : Client.Delivered c d) : endpointOf d = endpointOf c := by
  obtain ⟨publishWaiters, pendingWrites, rfl⟩ := h
  rfl

theorem quotaTaken_unseen {d : Client} {effects : List Effect} (h : Client.QuotaTaken c d effects) :
    endpointOf d = endpointOf c ∧ ∀ e ∈ effects, inputOf e = none ∧ answerOf e = none := by
  cases h with
  | free => exact ⟨rfl, by simp⟩
  | spent => exact ⟨rfl, by simp [inputOf, answerOf]⟩

/-- A publish of quality of service 2 is kept under its identifier. -/
theorem endpointOf_storeQos2 (publish : Publish) : endpointOf (c.storeQos2 publish) =
    ((endpointOf c).react (.twice publish.packetIdentifier)).1 := by
  rw [Client.storeQos2, Endpoint.react]
  split
  case isTrue hold =>
    rw [if_pos (mem_unreleased _ |>.mpr hold)]
  case isFalse hnew =>
    rw [if_neg fun hmem => hnew (mem_unreleased _ |>.mp hmem)]
    simp [endpointOf]

theorem answers_unseen (newer : List Effect) {effects : List Effect}
    (h : ∀ e ∈ effects, inputOf e = none ∧ answerOf e = none) :
    answers (newer ++ effects) = answers newer := by
  rw [answers_append, answers, List.filterMap_eq_nil_iff.mpr fun e he => (h e he).2]
  rfl

theorem follows_publish (publish : Publish) :
    Follows c (c.handlePublish publish).state ((c.handlePublish publish).effects ++
      [.event (.packetReceived (.publish publish)) .connected]) := by
  by_cases hqos1 : publish.qualityOfService = qos1
  · obtain ⟨d, e, effects, calls, htaken, hdelivered, hhandle⟩ := c.handlePublish_of_qos1 hqos1
    obtain ⟨hd, hunseen⟩ := quotaTaken_unseen htaken
    rw [hhandle]
    have harrival : arrival (.publish publish) = some (.once publish.packetIdentifier) :=
      if_pos hqos1
    refine follows_event harrival ?_ ?_ ?_
    · simpa [inputOf] using fun e he => (hunseen e he).1
    · exact ((endpointOf_delivered hdelivered).trans hd).symm
    · exact (answers_unseen [.delivered publish,
        .sent (.puback { packetIdentifier := publish.packetIdentifier }) .puback] hunseen).symm
  · by_cases hqos2 : publish.qualityOfService = qos2
    · obtain ⟨d, effects, pendingWrites, htaken, hhandle⟩ := c.handlePublish_of_qos2 hqos2
      obtain ⟨hd, hunseen⟩ := quotaTaken_unseen htaken
      have harrival : arrival (.publish publish) = some (.twice publish.packetIdentifier) := by
        rw [arrival, if_neg hqos1, if_pos hqos2]
      rw [hhandle]
      refine follows_event harrival ?_ ?_ ?_
      · simpa [inputOf] using fun e he => (hunseen e he).1
      · have hstored := endpointOf_storeQos2 (c := d) publish
        rw [hd] at hstored
        exact hstored.symm
      · exact (answers_unseen
          [.sent (.pubrec { packetIdentifier := publish.packetIdentifier }) .message] hunseen).symm
    · have harrival : arrival (.publish publish) = none := by
        rw [arrival, if_neg hqos1, if_neg hqos2]
      by_cases hqos0 : publish.qualityOfService = qos0
      · obtain ⟨d, calls, hdelivered, hhandle⟩ := c.handlePublish_of_qos0 hqos0
        rw [hhandle]
        apply follows_unseen harrival (endpointOf_delivered hdelivered)
        simp [inputOf, answerOf]
      · have hreserved : publish.qualityOfService ∉ [qos0, qos1, qos2] := by
          simp [hqos0, hqos1, hqos2]
        obtain ⟨d, e, effects, calls, htaken, hdelivered, hhandle⟩ :=
          c.handlePublish_of_reserved hreserved
        obtain ⟨hd, hunseen⟩ := quotaTaken_unseen htaken
        rw [hhandle]
        apply follows_unseen harrival ((endpointOf_delivered hdelivered).trans hd)
        exact List.forall_mem_cons.mpr ⟨⟨rfl, rfl⟩, hunseen⟩

theorem follows_pubrel (pubrel : Ack) :
    Follows c (c.handlePubrel pubrel).state ((c.handlePubrel pubrel).effects ++
      [.event (.packetReceived (.pubrel pubrel)) .connected]) := by
  cases hfind : c.receivedQos2States.find? (Client.storedAs pubrel.packetIdentifier) with
  | none =>
    have hnew : pubrel.packetIdentifier ∉ (endpointOf c).unreleased := by
      rw [mem_unreleased, List.any_eq_true]
      rintro ⟨publish, hpublish, hstored⟩
      exact List.find?_eq_none.mp hfind publish hpublish hstored
    obtain ⟨pendingWrites, hrel⟩ := c.handlePubrel_of_none hfind
    rw [hrel]
    refine follows_event (p := .pubrel pubrel) rfl (by simp [inputOf]) ?_ ?_
    · rw [Endpoint.react, List.erase_of_not_mem hnew]
      rfl
    · rw [Endpoint.react, decide_eq_false hnew]
      rfl
  | some publish =>
    have hold : pubrel.packetIdentifier ∈ (endpointOf c).unreleased := by
      rw [mem_unreleased, List.any_eq_true]
      exact ⟨publish, List.mem_of_find?_eq_some hfind, List.find?_some hfind⟩
    obtain ⟨d, calls, hdelivered, hrel⟩ := c.handlePubrel_of_some hfind
    rw [hrel]
    refine follows_event (p := .pubrel pubrel) rfl (by simp [inputOf]) ?_ ?_
    · rw [endpointOf_delivered hdelivered, Endpoint.react, erase_unreleased]
      rfl
    · rw [Endpoint.react, decide_eq_true hold]
      rfl

theorem follows_pubrec (pubrec : Ack) :
    Follows c (c.handlePubrec pubrec).state ((c.handlePubrec pubrec).effects ++
      [.event (.packetReceived (.pubrec pubrec)) .connected]) := by
  cases hfind : c.publishedMessages.find? (·.named pubrec.packetIdentifier) with
  | none =>
    have hreact : (endpointOf c).react (.receipt pubrec.packetIdentifier
        (pubrec.reasonCode ≤ Client.noMatchingSubscribers)) =
          (endpointOf c, [.release pubrec.packetIdentifier false]) := by
      rw [Endpoint.react, find_entry, hfind]
      rfl
    obtain ⟨pendingWrites, hrec⟩ := Client.handlePubrec_of_none hfind
    rw [hrec]
    refine follows_event (p := .pubrec pubrec) rfl (by simp [inputOf]) ?_ ?_
    · rw [hreact]
      rfl
    · rw [hreact]
      rfl
  | some msg =>
    have hreact : (endpointOf c).react (.receipt pubrec.packetIdentifier
        (pubrec.reasonCode ≤ Client.noMatchingSubscribers)) =
          if pubrec.reasonCode ≤ Client.noMatchingSubscribers ∧ stageOf msg.state ≠ .ack then
            ({ endpointOf c with inFlight := advance pubrec.packetIdentifier (endpointOf c).inFlight },
              [.release pubrec.packetIdentifier true])
          else ({ endpointOf c with inFlight := (endpointOf c).inFlight.eraseP fun msg =>
              msg.1 = pubrec.packetIdentifier }, []) := by
      rw [Endpoint.react, find_entry, hfind]
      simp only [Option.map_some, decide_eq_true_iff]
      rfl
    by_cases hcode : pubrec.reasonCode > Client.noMatchingSubscribers
    · rw [Client.handlePubrec_of_error hfind hcode]
      apply follows_finish (p := .pubrec pubrec) rfl
      rw [hreact, if_neg fun h => absurd h.1 (UInt8.not_le.mpr hcode)]
    · by_cases hstate : msg.state = .waitingPuback
      · rw [Client.handlePubrec_of_violation hfind hcode hstate]
        apply follows_finish (p := .pubrec pubrec) rfl
        rw [hreact, if_neg fun h => h.2 (by rw [hstate]; rfl)]
      · have hstage : stageOf msg.state ≠ .ack := by
          cases hmsg : msg.state with
          | waitingPuback => exact absurd hmsg hstate
          | _ => simp [stageOf]
        have hyes : pubrec.reasonCode ≤ Client.noMatchingSubscribers ∧ stageOf msg.state ≠ .ack :=
          ⟨UInt8.not_lt.mp hcode, hstage⟩
        obtain ⟨pendingWrites, hrec⟩ := Client.handlePubrec_of_success hfind hcode hstate
        rw [hrec]
        refine follows_event (p := .pubrec pubrec) rfl (by simp [inputOf]) ?_ ?_
        · rw [hreact, if_pos hyes, endpointOf, advance_entry]
          rfl
        · rw [hreact, if_pos hyes]
          rfl

theorem follows_startFn (op : PublishOpStarter) : Follows c (c.startFn op).state (c.startFn op).effects := by
  by_cases hencodes : Encodes (.publish op.message)
  · obtain ⟨pendingWrites, hstart⟩ := c.startFn_of_encodes hencodes
    rw [hstart]
    refine ⟨?_, rfl⟩
    have hstage : stageOf (InFlightPublish.startState op.message) =
        if op.message.qualityOfService = qos2 then .receipt else .ack := by
      rw [InFlightPublish.startState]
      split <;> rfl
    have hinputs : inputs [.started op.receiver op.message, .sent (.publish op.message) .message] =
        [.sent op.message.packetIdentifier (op.message.qualityOfService = qos2)] := rfl
    simp [hinputs, Endpoint.run, Endpoint.react, endpointOf, entryOf, hstage]
  · rw [c.startFn_of_not_encodes hencodes]
    exact follows_of_same rfl (by simp)

theorem follows_maybeSend : Follows c c.maybeSendQueuedPublish.state c.maybeSendQueuedPublish.effects := by
  obtain hfull | hempty | ⟨next, queued, -, hnext⟩ := c.maybeSend_cases
  · rw [hfull]
    exact follows_of_same rfl (by simp)
  · rw [hempty]
    exact follows_of_same rfl (by simp)
  · rw [hnext]
    exact (follows_startFn next).from rfl

theorem follows_startPublish (message : Publish) :
    Follows c (c.startPublish message).state (c.startPublish message).effects := by
  by_cases hqos : message.qualityOfService = qos0
  · rw [c.startPublish_of_qos0 hqos]
    by_cases hencodes : Encodes (.publish message)
    · obtain ⟨pendingWrites, hsend⟩ := c.sendMessage_of_encodes hencodes
      rw [hsend, Reaction.andThen_of_not_threw rfl]
      exact follows_of_same rfl (by simp [inputOf, answerOf])
    · rw [c.sendMessage_of_not_encodes hencodes, Reaction.andThen_of_threw rfl]
      exact follows_of_same rfl (by simp)
  · by_cases hfree : c.serverSendQuota > 0
    · rw [c.startPublish_of_free hqos hfree]
      exact (follows_startFn _).from rfl
    · rw [c.startPublish_of_taken hqos hfree]
      exact follows_of_same rfl (by simp)

/-- An acknowledgement that names no publish changes nothing. -/
theorem eraseP_unnamed {id : UInt16} (h : c.publishedMessages.find? (·.named id) = none) :
    (endpointOf c).inFlight.eraseP (fun msg => msg.1 = id) = (endpointOf c).inFlight := by
  apply List.eraseP_of_forall_not
  apply List.find?_eq_none.mp
  rw [find_entry, h]
  rfl

theorem follows_puback (puback : Ack) :
    Follows c (c.handlePuback puback).state ((c.handlePuback puback).effects ++
      [.event (.packetReceived (.puback puback)) .connected]) := by
  cases hfind : c.publishedMessages.find? (·.named puback.packetIdentifier) with
  | none =>
    rw [Client.handlePuback_of_none hfind]
    refine Follows.trans ?_ follows_maybeSend
    change Follows c c ([] ++ [.event (.packetReceived (.puback puback)) .connected])
    refine follows_event rfl (by simp) ?_ rfl
    rw [Endpoint.react, eraseP_unnamed hfind]
  | some msg =>
    rw [Client.handlePuback_of_some hfind]
    split <;> exact follows_finish (p := .puback puback) rfl rfl

theorem follows_pubcomp (pubcomp : Ack) :
    Follows c (c.handlePubcomp pubcomp).state ((c.handlePubcomp pubcomp).effects ++
      [.event (.packetReceived (.pubcomp pubcomp)) .connected]) := by
  cases hfind : c.publishedMessages.find? (·.named pubcomp.packetIdentifier) with
  | none =>
    rw [Client.handlePubcomp_of_none hfind]
    change Follows c c ([] ++ [.event (.packetReceived (.pubcomp pubcomp)) .connected])
    refine follows_event rfl (by simp) ?_ rfl
    rw [Endpoint.react, eraseP_unnamed hfind]
  | some msg =>
    rw [Client.handlePubcomp_of_some hfind]
    exact follows_finish (p := .pubcomp pubcomp) rfl rfl

theorem follows_handlePacket (p : ControlPacket) :
    Follows c (c.handlePacket p).state ((c.handlePacket p).effects ++
      [.event (.packetReceived p) .connected]) := by
  cases p with
  | publish publish => exact follows_publish publish
  | puback ack => exact follows_puback ack
  | pubrec ack => exact follows_pubrec ack
  | pubrel ack => exact follows_pubrel ack
  | pubcomp ack => exact follows_pubcomp ack
  | suback ack =>
    obtain ⟨msg, -, hack⟩ | hack := c.handleSuback_cases ack
    all_goals
      change Follows c (c.handleSuback ack).state ((c.handleSuback ack).effects ++ _)
      rw [hack]
      exact follows_unseen rfl rfl (by simp [inputOf, answerOf])
  | unsuback ack =>
    obtain ⟨msg, -, hack⟩ | hack := c.handleUnsuback_cases ack
    all_goals
      change Follows c (c.handleUnsuback ack).state ((c.handleUnsuback ack).effects ++ _)
      rw [hack]
      exact follows_unseen rfl rfl (by simp [inputOf, answerOf])
  | _ => exact follows_unseen rfl rfl (by simp [Client.handlePacket])

end Packets

/-! ## Every run -/

/-- Effects that are no packet of a publish, but for the CONNACK's. -/
theorem unseen_of_quiet {e : Effect} (h : e.Quiet) : inputOf e = none ∧ answerOf e = none := by
  cases e with
  | sent packet receiver => cases packet <;> first | exact h.elim | exact ⟨rfl, rfl⟩
  | _ => first | exact h.elim | exact ⟨rfl, rfl⟩

theorem endpointOf_same {c d : Client} (h : c.SameExchanges d) : endpointOf d = endpointOf c := by
  rw [endpointOf, endpointOf, h.send.publishedMessages, h.receive.receivedQos2States]

theorem follows_main {c : Client} {e : Event} {r : Reaction} (h : c.MainTurn e r) :
    Follows c r.state (r.effects ++ [.event e c.main]) := by
  cases h with
  | packet p hmain =>
    rw [hmain]
    exact follows_handlePacket p
  | pubackSent =>
    obtain ⟨_, hsent⟩ := c.handlePubackSent_eq
    rw [hsent]
    exact follows_of_same rfl (by simp [inputOf, answerOf])
  | connack p hmain =>
    obtain ⟨_, _, hack⟩ := { c with main := .connected }.handleConnack_eq p
    rw [hack, hmain]
    exact follows_of_same rfl (by simp [inputOf, answerOf])
  | handshake | disconnect =>
    exact follows_of_same rfl (by simp [inputOf, answerOf, Client.close])
  | ignored e hpacket =>
    have hnone : inputOf (.event e c.main) = none := by
      cases hmain : c.main with
      | connected =>
        cases e with
        | packetReceived p => exact absurd rfl (hpacket p hmain)
        | _ => rfl
      | _ => cases e <;> rfl
    exact follows_of_same rfl (by simp [hnone, answerOf])

theorem follows_operate (c : Client) (op : Operation) :
    Follows c (c.operate op).state (c.operate op).effects := by
  cases op with
  | publish message => exact follows_startPublish message
  | subscribe subscriptions modifier =>
    change Follows c (c.startSubscribe subscriptions modifier).state
      (c.startSubscribe subscriptions modifier).effects
    obtain ⟨message, pendingWrites, -, hstart⟩ | hstart :=
      c.startSubscribe_cases subscriptions modifier
    all_goals
      rw [hstart]
      exact follows_of_same rfl (by simp [inputOf, answerOf])
  | unsubscribe unsub =>
    change Follows c (c.startUnsubscribe unsub).state (c.startUnsubscribe unsub).effects
    obtain ⟨message, pendingWrites, -, hstart⟩ | hstart := c.startUnsubscribe_cases unsub
    all_goals
      rw [hstart]
      exact follows_of_same rfl (by simp [inputOf, answerOf])
  | disconnect reason =>
    obtain ⟨pendingWrites, hwriter⟩ :=
      c.controlPacketWriter_of_encodes (encodes_disconnect reason) .disconnector
    change Follows c (c.controlPacketWriter _ .disconnector).state
      (c.controlPacketWriter _ .disconnector).effects
    rw [hwriter]
    exact follows_of_same rfl (by simp [inputOf, answerOf])
  | startConnect =>
    have hquiet := Client.quiet_startConnect (.refl c)
    exact follows_of_same (endpointOf_same hquiet.same) fun e he =>
      unseen_of_quiet (hquiet.effects e he)
  | handshaker | connect | filterSubscribe | close =>
    exact follows_of_same rfl (by simp [Client.operate, Client.startFilterSubscribe, Client.close,
      inputOf, answerOf])

theorem follows_respond {c : Client} {call : Call} {a : Action} {r : Reaction}
    (h : c.respond call a = some r) : Follows c r.state r.effects := by
  cases Client.respond_turn h with
  | main e r hturn => exact follows_main hturn
  | anonymous hmain =>
    obtain ⟨hsame, -, heffects⟩ := Client.anonymous_same hmain
    refine follows_of_same ((endpointOf_same hsame).trans rfl) ?_
    intro e he
    rw [heffects e he]
    exact ⟨rfl, rfl⟩
  | maybeSend => exact follows_maybeSend
  | operate op => exact follows_operate c op
  | close => exact follows_of_same rfl (by simp [Client.close, inputOf, answerOf])
  | quiet _ _ _ hquiet =>
    exact follows_of_same (endpointOf_same hquiet.same) fun e he =>
      unseen_of_quiet (hquiet.effects e he)

/-- The log of a run, read as that of an endpoint. -/
theorem follows_run {ok : Config → Action → Prop} {c : Config} (run : client.Run ok initial c) :
    Follows {} c.state c.log := by
  refine run.invariant (I := fun c => Follows {} c.state c.log) ⟨rfl, rfl⟩ ?_ ?_
  · intro c a r hc _ _ hr
    have hquiet := Client.arrive_quiet hr
    exact hc.trans (follows_of_same (endpointOf_same hquiet.same) fun e he =>
      unseen_of_quiet (hquiet.effects e he))
  · intro c a call rest r hc _ _ hr
    exact hc.trans (follows_respond hr)

/-- The client refines the endpoint: what it keeps of its publishes and of the server's, and the
acknowledgements it has given to the stream, are what an endpoint makes of the publishes that
were started and the packets that came while connected. -/
theorem refines_endpoint {ok : Config → Action → Prop} {c : Config} (run : client.Run ok initial c) :
    endpointOf c.state = (Endpoint.run {} (inputs c.log)).1 ∧
      answers c.log = (Endpoint.run {} (inputs c.log)).2.map packetOf := by
  obtain ⟨hstate, hreplies⟩ := follows_run run
  exact ⟨hstate.symm, hreplies.symm⟩

/-! ## The order of the acknowledgements -/

/-- The packet that an acknowledgement answers. -/
def answered : ControlPacket → Option (Stage × UInt16)
  | .puback ack => some (.ack, ack.packetIdentifier)
  | .pubrec ack => some (.receipt, ack.packetIdentifier)
  | .pubcomp ack => some (.completion, ack.packetIdentifier)
  | _ => none

def released : ControlPacket → Option UInt16
  | .pubrel ack => some ack.packetIdentifier
  | _ => none

theorem answered_packets (replies : List (Reply UInt16)) :
    (replies.map packetOf).filterMap answered = replies.filterMap Reply.meets := by
  rw [List.filterMap_map]
  apply List.filterMap_congr
  intro reply _
  cases reply <;> rfl

theorem released_packets (replies : List (Reply UInt16)) :
    (replies.map packetOf).filterMap released = replies.filterMap Reply.release? := by
  rw [List.filterMap_map]
  apply List.filterMap_congr
  intro reply _
  cases reply <;> rfl

/-- Publishes and releases are answered once each and in the order in which they came, and PUBRELs
are sent in the order of the PUBRECs they answer, over all connections of a run. -/
theorem answers_in_order {ok : Config → Action → Prop} {c : Config} (run : client.Run ok initial c) :
    (answers c.log).filterMap answered = (inputs c.log).filterMap Input.asks ∧
    ((answers c.log).filterMap released).Sublist ((inputs c.log).filterMap Input.receipt?) := by
  obtain ⟨-, hreplies⟩ := follows_run run
  rw [← hreplies, answered_packets, released_packets]
  exact ⟨Endpoint.run_meets _ _, Endpoint.run_releases _ _⟩

/-- The server publishes with both qualities of service, and releases twice. -/
def publishesActions : List Action :=
  handshakeActions { flags := 0, reasonCode := 0 } ++ [.run] ++ settleActions ++
    ClientSession.arrival (.publish { publishQos1 with packetIdentifier := 3 }) ++
    ClientSession.arrival (.publish { publishQos2 with packetIdentifier := 5 }) ++
    ClientSession.arrival (.pubrel { packetIdentifier := 5 }) ++
    ClientSession.arrival (.pubrel { packetIdentifier := 5 })

theorem inputs_publishes : ∃ c, client.Run (fun _ _ => True) initial c ∧
    inputs c.log = [.once 3, .twice 5, .release 5, .release 5] := by
  have hsteps : (client.stepsWhile (fun _ _ => true) initial publishesActions).map
      (fun c => inputs c.log) = some [.once 3, .twice 5, .release 5, .release 5] := by
    decide +kernel
  obtain ⟨c, hc, hinputs⟩ := Option.map_eq_some_iff.mp hsteps
  exact ⟨c, (Program.Run.of_stepsWhile _ hc).mono fun _ _ _ => trivial, hinputs⟩

theorem refines_endpoint_publishes : ∃ c, client.Run (fun _ _ => True) initial c ∧
    (endpointOf c.state).unreleased = [] ∧ answers c.log =
      [.puback { packetIdentifier := 3 }, .pubrec { packetIdentifier := 5 },
        .pubcomp { packetIdentifier := 5 },
        .pubcomp { packetIdentifier := 5, reasonCode := 146 }] := by
  obtain ⟨c, run, hinputs⟩ := inputs_publishes
  obtain ⟨hstate, hanswers⟩ := refines_endpoint run
  rw [hinputs] at hstate hanswers
  exact ⟨c, run, congrArg Endpoint.unreleased hstate, hanswers⟩

theorem answers_in_order_publishes : ∃ c, client.Run (fun _ _ => True) initial c ∧
    (answers c.log).filterMap answered = [(.ack, 3), (.receipt, 5), (.completion, 5), (.completion, 5)] := by
  obtain ⟨c, run, hinputs⟩ := inputs_publishes
  have horder := (answers_in_order run).1
  rw [hinputs] at horder
  exact ⟨c, run, horder⟩

end Mqtt5.ClientEndpoint
