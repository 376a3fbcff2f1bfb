import Mqtt5.ClientSession
import Mqtt5.OnceDelivery

/-!
# Quality of service 2, received

`received_qos2_states_` is a list that keeps what exactly-once delivery has to hold, and
the answers and deliveries of the client are those that its history of packets calls for.
-/
namespace Mqtt5.ClientExactlyOnce
open WirePrimitives WirePublish WireConnect WireControlPacket CallMachine ClientState ClientSession
open OnceDelivery

def identifier (publish : Publish) : UInt16 := publish.packetIdentifier

/-- What the log's entry of a packet is for exactly-once delivery. -/
def arrivalOf : Effect → Option (Arrival UInt16 Publish)
  | .event (.packetReceived (.publish p)) .connected =>
      if p.qualityOfService = qos2 then some (.message p) else none
  | .event (.packetReceived (.pubrel ack)) .connected => some (.release ack.packetIdentifier)
  | _ => none

/-- The publishes of quality of service 2 and the PUBRELs that were handled. -/
def arrivals (log : List Effect) : List (Arrival UInt16 Publish) := log.filterMap arrivalOf

/-- PUBRECs, PUBCOMPs, and deliveries of publishes of quality of service 2. -/
def isAnswer : Effect → Bool
  | .sent (.pubrec _) _ | .sent (.pubcomp _) _ => true
  | .delivered publish => publish.qualityOfService = qos2
  | _ => false

/-- What a history calls for, the last answer first: a PUBREC for each publish, a PUBCOMP
for each PUBREL, and the message that the PUBREL releases. -/
def answers : List (Arrival UInt16 Publish) → List Effect
  | [] => []
  | .message p :: older =>
      .sent (.pubrec { packetIdentifier := p.packetIdentifier }) .message :: answers older
  | .release id :: older =>
      match held identifier older id with
      | some p => .delivered p :: .sent (.pubcomp { packetIdentifier := id }) .message ::
          answers older
      | none => .sent (.pubcomp { packetIdentifier := id
                                  reasonCode := Client.packetIdentifierNotFound }) .message ::
          answers older

/-- The client holds and has answered what its history says. -/
structure Faithful (c : Config) : Prop where
  represents : Represents identifier c.state.receivedQos2States (arrivals c.log)
  answers : c.log.filter isAnswer = answers (arrivals c.log)

/-- An effect that is neither a packet of the exchange nor an answer. -/
def Aside (e : Effect) : Prop := arrivalOf e = none ∧ isAnswer e = false

theorem aside_of_sending {e : Effect} (h : e.Sending) : Aside e := by
  cases e with
  | sent packet receiver => cases packet <;> first | exact h.elim | exact ⟨rfl, rfl⟩
  | _ => first | exact h.elim | exact ⟨rfl, rfl⟩

theorem aside_of_quiet {e : Effect} (h : e.Quiet) : Aside e := by
  cases e with
  | sent packet receiver => cases packet <;> first | exact h.elim | exact ⟨rfl, rfl⟩
  | _ => first | exact h.elim | exact ⟨rfl, rfl⟩

theorem aside_of_requested {e : Effect} (h : Requested e) : Aside e := by
  rcases h with h | ⟨reason, rfl⟩ | rfl
  · exact aside_of_sending h
  · exact ⟨rfl, rfl⟩
  · exact ⟨rfl, rfl⟩

theorem arrivals_aside {effects : List Effect} (h : ∀ e ∈ effects, Aside e) (log : List Effect) :
    arrivals (effects ++ log) = arrivals log := by
  rw [arrivals, List.filterMap_append, List.filterMap_eq_nil_iff.mpr fun e he => (h e he).1]
  rfl

theorem filter_aside {effects : List Effect} (h : ∀ e ∈ effects, Aside e) (log : List Effect) :
    (effects ++ log).filter isAnswer = log.filter isAnswer := by
  rw [List.filter_append, List.filter_eq_nil_iff.mpr fun e he => by simp [(h e he).2]]
  rfl

/-- A reaction that is none of the exchange's business. -/
theorem Faithful.react {c : Config} (h : Faithful c) (rest : List Call) {r : Reaction}
    (hstored : r.state.receivedQos2States = c.state.receivedQos2States)
    (heffects : ∀ e ∈ r.effects, Aside e) : Faithful (client.react c rest r) := by
  constructor
  · change Represents identifier r.state.receivedQos2States (arrivals (r.effects ++ c.log))
    rw [hstored, arrivals_aside heffects]
    exact h.represents
  · change (r.effects ++ c.log).filter isAnswer =
      ClientExactlyOnce.answers (arrivals (r.effects ++ c.log))
    rw [arrivals_aside heffects, filter_aside heffects]
    exact h.answers

/-- A reaction that answers an arrival: the event in the log, what is none of the exchange's
business, and over it the answers. -/
theorem Faithful.answered {c : Config} (h : Faithful c) (rest : List Call) {r : Reaction}
    {event : Event} (arrival : Arrival UInt16 Publish) (new aside : List Effect)
    (harrival : arrivalOf (.event event .connected) = some arrival)
    (heffects : r.effects = new ++ (aside ++ [.event event .connected]))
    (haside : ∀ e ∈ aside, Aside e)
    (hnew : ∀ e ∈ new, arrivalOf e = none ∧ isAnswer e = true)
    (hanswers : new ++ ClientExactlyOnce.answers (arrivals c.log) =
      ClientExactlyOnce.answers (arrival :: arrivals c.log))
    (hstored : Represents identifier r.state.receivedQos2States (arrival :: arrivals c.log)) :
    Faithful (client.react c rest r) := by
  have harrivals : arrivals (r.effects ++ c.log) = arrival :: arrivals c.log := by
    have hnone : new.filterMap arrivalOf = [] :=
      List.filterMap_eq_nil_iff.mpr fun e he => (hnew e he).1
    rw [heffects, List.append_assoc, arrivals, List.filterMap_append, hnone, List.nil_append,
      ← arrivals, List.append_assoc, arrivals_aside haside, arrivals, List.singleton_append,
      List.filterMap_cons_some harrival]
    rfl
  have hfilter : (r.effects ++ c.log).filter isAnswer = new ++ c.log.filter isAnswer := by
    have hall : new.filter isAnswer = new := List.filter_eq_self.mpr fun e he => (hnew e he).2
    rw [heffects, List.append_assoc, List.filter_append, hall, List.append_assoc,
      filter_aside haside]
    rfl
  constructor
  · change Represents identifier r.state.receivedQos2States (arrivals (r.effects ++ c.log))
    rw [harrivals]
    exact hstored
  · change (r.effects ++ c.log).filter isAnswer =
      ClientExactlyOnce.answers (arrivals (r.effects ++ c.log))
    rw [harrivals, hfilter, h.answers]
    exact hanswers

/-- Only publishes of quality of service 2 are held. -/
theorem qos2_of_held {log : List Effect} {id : UInt16} {publish : Publish}
    (h : held identifier (arrivals log) id = some publish) : publish.qualityOfService = qos2 := by
  obtain ⟨newer, older, harrivals, -⟩ := held_eq_some_iff.mp h
  have hmem : Arrival.message publish ∈ arrivals log := by
    rw [harrivals]
    simp
  obtain ⟨e, -, he⟩ := List.mem_filterMap.mp hmem
  unfold arrivalOf at he
  split at he
  · split at he
    case isTrue hqos =>
      cases he
      exact hqos
    case isFalse => cases he
  · cases he
  · cases he

/-! ## The handlers -/

theorem quotaTaken_aside {c d : Client} {effects : List Effect}
    (h : Client.QuotaTaken c d effects) :
    d.receivedQos2States = c.receivedQos2States ∧ ∀ e ∈ effects, Aside e := by
  cases h with
  | free => exact ⟨rfl, by simp⟩
  | spent =>
    refine ⟨rfl, fun e he => ?_⟩
    rw [List.mem_singleton.mp he]
    exact ⟨rfl, rfl⟩

theorem delivered_stored {c d : Client} (h : Client.Delivered c d) :
    d.receivedQos2States = c.receivedQos2States := by
  obtain ⟨_, _, rfl⟩ := h
  rfl

/-- A publish that is kept or was kept before. -/
theorem represents_storeQos2 {c : Client} {h : List (Arrival UInt16 Publish)}
    (hs : Represents identifier c.receivedQos2States h) (publish : Publish) :
    Represents identifier (c.storeQos2 publish).receivedQos2States (.message publish :: h) := by
  rw [Client.storeQos2]
  split
  case isTrue htaken => exact hs.repeated htaken
  case isFalse hfree => exact hs.kept (Bool.eq_false_of_not_eq_true hfree)

/-- A turn that is none of the exchange's business. -/
theorem Faithful.aside {c : Config} (h : Faithful c) (rest : List Call) {r : Reaction} {e : Event}
    {main : MainState} (hstored : r.state.receivedQos2States = c.state.receivedQos2States)
    (heffects : ∀ e ∈ r.effects, Aside e) (hevent : arrivalOf (.event e main) = none) :
    Faithful (client.react c rest (withEntry r e main)) := by
  refine h.react rest hstored fun e' he' => ?_
  rcases List.mem_append.mp he' with he' | he'
  · exact heffects e' he'
  · rw [List.mem_singleton.mp he']
    exact ⟨hevent, rfl⟩

theorem faithful_publish {c : Config} (h : Faithful c) (rest : List Call) (publish : Publish) :
    Faithful (client.react c rest
      (withEntry (c.state.handlePublish publish) (.packetReceived (.publish publish))
        .connected)) := by
  by_cases hqos2 : publish.qualityOfService = qos2
  · obtain ⟨d, effects, pendingWrites, htaken, hhandle⟩ := c.state.handlePublish_of_qos2 hqos2
    obtain ⟨hstored, haside⟩ := quotaTaken_aside htaken
    rw [hhandle]
    have hbefore : Represents identifier d.receivedQos2States (arrivals c.log) := by
      rw [hstored]
      exact h.represents
    exact h.answered rest (.message publish)
      [.sent (.pubrec { packetIdentifier := publish.packetIdentifier }) .message] effects
      (by simp [arrivalOf, hqos2]) rfl haside (by simp [arrivalOf, isAnswer]) rfl
      (represents_storeQos2 hbefore publish)
  · have hevent : arrivalOf (.event (.packetReceived (.publish publish)) .connected) = none :=
      if_neg hqos2
    have hdelivered : Aside (.delivered publish) := ⟨rfl, by simp [isAnswer, hqos2]⟩
    obtain ⟨d, calls, effects, hstored, hsent, hhandle⟩ := c.state.handlePublish_delivers hqos2
    rw [hhandle]
    apply h.aside rest hstored _ hevent
    intro e he
    obtain rfl | he := List.mem_cons.mp he
    · exact hdelivered
    · obtain rfl | rfl := hsent e he
      · exact ⟨rfl, rfl⟩
      · exact ⟨rfl, rfl⟩

theorem faithful_pubrel {c : Config} (h : Faithful c) (rest : List Call) (pubrel : Ack) :
    Faithful (client.react c rest
      (withEntry (c.state.handlePubrel pubrel) (.packetReceived (.pubrel pubrel)) .connected)) := by
  have hreleased := h.represents.released pubrel.packetIdentifier
  have hheld := h.represents.find pubrel.packetIdentifier
  cases hfind : c.state.receivedQos2States.find? (Client.storedAs pubrel.packetIdentifier) with
  | none =>
    have hnone : held identifier (arrivals c.log) pubrel.packetIdentifier = none :=
      hheld.symm.trans hfind
    have hkept : c.state.receivedQos2States.eraseP (Client.storedAs pubrel.packetIdentifier) =
        c.state.receivedQos2States := by
      rw [List.eraseP_of_forall_not]
      intro publish hmem
      exact List.find?_eq_none.mp hfind publish hmem
    obtain ⟨pendingWrites, hhandle⟩ := c.state.handlePubrel_of_none hfind
    rw [hhandle]
    refine h.answered rest (.release pubrel.packetIdentifier) [_] [] rfl rfl (by simp)
      (by simp [arrivalOf, isAnswer]) ?_ ?_
    · rw [ClientExactlyOnce.answers, hnone]
      rfl
    · change Represents identifier c.state.receivedQos2States _
      rw [← hkept]
      exact hreleased
  | some publish =>
    have hsome : held identifier (arrivals c.log) pubrel.packetIdentifier = some publish :=
      hheld.symm.trans hfind
    have hqos2 := qos2_of_held hsome
    obtain ⟨d, calls, hd, hhandle⟩ := c.state.handlePubrel_of_some hfind
    rw [hhandle]
    refine h.answered rest (.release pubrel.packetIdentifier) [_, _] [] rfl rfl (by simp)
      (by simp [arrivalOf, isAnswer, hqos2]) ?_ ?_
    · rw [ClientExactlyOnce.answers, hsome]
      rfl
    · change Represents identifier d.receivedQos2States _
      rw [delivered_stored hd]
      exact hreleased

theorem faithful_handlePacket {c : Config} (h : Faithful c) (rest : List Call) (p : ControlPacket) :
    Faithful (client.react c rest
      (withEntry (c.state.handlePacket p) (.packetReceived p) .connected)) := by
  have hsends : ∀ {K : Call → Prop} {r : Reaction}, c.state.Sends K r →
      arrivalOf (.event (.packetReceived p) .connected) = none →
      Faithful (client.react c rest (withEntry r (.packetReceived p) .connected)) := by
    intro K r hr hevent
    exact h.aside rest hr.state.receivedQos2States
      (fun e he => aside_of_sending (hr.effects e he)) hevent
  cases p with
  | publish publish => exact faithful_publish h rest publish
  | pubrel ack => exact faithful_pubrel h rest ack
  | _ => exact hsends (c.state.handlePacket_sends (by simp) (by simp)) rfl

theorem faithful_main {c : Config} (h : Faithful c) (rest : List Call) {e : Event} {r : Reaction}
    (hturn : c.state.MainTurn e r) :
    Faithful (client.react c rest (withEntry r e c.state.main)) := by
  cases hturn with
  | packet p hmain =>
    rw [hmain]
    exact faithful_handlePacket h rest p
  | pubackSent =>
    obtain ⟨_, hsent⟩ := c.state.handlePubackSent_eq
    rw [hsent]
    exact h.aside rest rfl (by simp) rfl
  | connack p hmain =>
    obtain ⟨_, _, hack⟩ := { c.state with main := .connected }.handleConnack_eq p
    rw [hack]
    exact h.aside rest rfl (by simp) (by rw [hmain]; rfl)
  | handshake => exact h.aside rest rfl (by simp) rfl
  | disconnect =>
    refine h.aside rest rfl ?_ rfl
    intro e he
    rw [List.mem_singleton.mp he]
    exact ⟨rfl, rfl⟩
  | ignored e hpacket =>
    apply h.aside rest rfl (by simp)
    cases hmain : c.state.main with
    | connected =>
      cases e with
      | packetReceived p => exact absurd rfl (hpacket p hmain)
      | _ => rfl
    | _ => cases e with
      | packetReceived p => cases p <;> rfl
      | _ => rfl

theorem faithful_run {ok : Config → Action → Prop} {c d : Config} (h : Faithful c)
    (run : client.Run ok c d) : Faithful d := by
  apply run.invariant h
  · intro c a r hc _ _ hr
    have hquiet := Client.arrive_quiet hr
    exact hc.react [] hquiet.same.receive.receivedQos2States
      fun e he => aside_of_quiet (hquiet.effects e he)
  · intro c a call rest r hc _ hstack hr
    cases Client.respond_turn hr with
    | main e r hturn => exact faithful_main hc rest hturn
    | anonymous h' =>
      obtain ⟨hsame, -, heffects⟩ := Client.anonymous_same h'
      refine hc.react rest hsame.receive.receivedQos2States fun e he => ?_
      rw [heffects e he]
      exact ⟨rfl, rfl⟩
    | maybeSend =>
      have hsends := c.state.maybeSend_sends
      exact hc.react rest hsends.state.receivedQos2States
        fun e he => aside_of_sending (hsends.effects e he)
    | operate op =>
      exact hc.react rest (operate_stored c.state op)
        fun e he => aside_of_requested (operate_effects c.state op e he)
    | close =>
      refine hc.react rest rfl fun e he => ?_
      rw [List.mem_singleton.mp he]
      exact ⟨rfl, rfl⟩
    | quiet _ _ _ hquiet =>
      exact hc.react rest hquiet.same.receive.receivedQos2States
        fun e he => aside_of_quiet (hquiet.effects e he)

/-! ## Every run -/

theorem faithful_initial : Faithful initial := ⟨represents_nil, rfl⟩

/-- In every run: what is stored has pairwise different identifiers and is what the history
says is held; every publish is answered by one PUBREC and every PUBREL by one PUBCOMP, and a
message is delivered on the PUBREL that finds it held; held is the first publish under an
identifier since its last PUBREL. -/
theorem received_exactly_once {c : Config} (run : client.Run (fun _ _ => True) initial c) :
    (c.state.receivedQos2States.map identifier).Nodup ∧
    (∀ id, c.state.receivedQos2States.find? (Client.storedAs id) =
      held identifier (arrivals c.log) id) ∧
    c.log.filter isAnswer = answers (arrivals c.log) ∧
    ∀ history id publish, held identifier history id = some publish ↔ ∃ newer older,
      history = newer ++ .message publish :: older ∧ identifier publish = id ∧
      (∀ arrival ∈ newer, arrival ≠ .release id) ∧ held identifier older id = none := by
  have hfaithful := faithful_run faithful_initial run
  refine ⟨hfaithful.represents.nodup, hfaithful.represents.find, hfaithful.answers, ?_⟩
  intro history id publish
  exact held_eq_some_iff

def firstPublish : Publish := { headerFlags := 4, topic := [97], packetIdentifier := 7 }
def secondPublish : Publish := { headerFlags := 12, topic := [98], packetIdentifier := 7 }

/-- A publish and its PUBREL, both of them sent twice. -/
theorem received_exactly_once_repeated : ∃ c : Config,
    client.Run (fun _ _ => True) initial c ∧ c.log.filter isAnswer =
      [.sent (.pubcomp { packetIdentifier := 7, reasonCode := 146 }) .message,
        .delivered firstPublish, .sent (.pubcomp { packetIdentifier := 7 }) .message,
        .sent (.pubrec { packetIdentifier := 7 }) .message,
        .sent (.pubrec { packetIdentifier := 7 }) .message] := by
  have hsteps : (client.stepsWhile (fun _ _ => true) initial
      (handshakeActions { flags := 0, reasonCode := 0 } ++ [.run] ++ settleActions ++
        arrival (.publish firstPublish) ++ arrival (.publish secondPublish) ++
        arrival (.pubrel { packetIdentifier := 7 }) ++
        arrival (.pubrel { packetIdentifier := 7 }))).map (fun c => arrivals c.log) =
      some [.release 7, .release 7, .message secondPublish, .message firstPublish] := by
    decide +kernel
  obtain ⟨c, hc, harrivals⟩ := Option.map_eq_some_iff.mp hsteps
  have run := (Program.Run.of_stepsWhile _ hc).mono fun _ _ _ => trivial
  have hanswers := (received_exactly_once run).2.2.1
  rw [harrivals] at hanswers
  exact ⟨c, run, hanswers⟩

end Mqtt5.ClientExactlyOnce
