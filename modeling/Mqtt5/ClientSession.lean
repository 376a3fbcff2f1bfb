import Mqtt5.ClientTurns

/-!
# Before and after the CONNACK

No transition leaves the main region's `connected`, so a client handles one CONNACK, and
what it does with the other packets comes after it.
-/
namespace Mqtt5.ClientSession
open WirePrimitives WirePublish WireConnect WireControlPacket CallMachine ClientState
open WireSubscribe hiding TopicFilter
open TopicMatching

/-- A turn of the main region with its entry in the log. -/
def withEntry (r : Reaction) (e : Event) (main : MainState) : Reaction :=
  { r with effects := r.effects ++ [.event e main] }

theorem handlePacket_main (c : Client) (p : ControlPacket) : (c.handlePacket p).state.main = c.main := by
  rcases c.handlePacket_side p with h | h
  · exact h.state.main
  · exact h.state.main

/-- Only new options are a request that the receive side notices. -/
theorem operate_receive (c : Client) {op : Operation} (hop : ∀ opts, op ≠ .handshaker opts) :
    c.SameReceiveSide (c.operate op).state := by
  have hrefl := (Client.SameExchanges.refl c).receive
  cases op with
  | publish message => exact (c.startPublish_sends message).state
  | subscribe subscriptions modifier => exact (c.startSubscribe_sends subscriptions modifier).state
  | unsubscribe unsub => exact (c.startUnsubscribe_sends unsub).state
  | startConnect => exact (Client.quiet_startConnect (.refl c)).same.receive
  | disconnect reason =>
    exact (c.controlPacketWriter_ensures _ .disconnector (fun _ => True)).state.receive
  | handshaker opts => exact absurd rfl (hop opts)
  | filterSubscribe => constructor <;> rfl
  | connect => constructor <;> rfl
  | close => exact hrefl

theorem operate_main (c : Client) (op : Operation) : (c.operate op).state.main = c.main := by
  by_cases hop : ∃ opts, op = .handshaker opts
  · obtain ⟨opts, rfl⟩ := hop
    rfl
  · exact (operate_receive c fun opts h => hop ⟨opts, h⟩).main

theorem operate_stored (c : Client) (op : Operation) :
    (c.operate op).state.receivedQos2States = c.receivedQos2States := by
  by_cases hop : ∃ opts, op = .handshaker opts
  · obtain ⟨opts, rfl⟩ := hop
    rfl
  · exact (operate_receive c fun opts h => hop ⟨opts, h⟩).receivedQos2States

/-- How a call moves the main region. -/
inductive MainMove : Call → Action → MainState → MainState → Prop
  | stay (call : Call) (a : Action) (main : MainState)
      (h : main = .handshaking → call ≠ .dispatch .main .disconnect) : MainMove call a main main
  | connack (p : Connack) :
      MainMove (.dispatch .main (.packetReceived (.connack p))) .run .handshaking .connected
  | handshake : MainMove (.dispatch .main .handshake) .run .idle .startHandshake
  | disconnect : MainMove (.dispatch .main .disconnect) .run .handshaking .idle
  | anonymous : MainMove .anonymous .run .startHandshake .handshaking

/-- The main region changes its state in its own turn and in the anonymous transition. -/
theorem respond_move {c : Client} {call : Call} {a : Action} {r : Reaction}
    (h : c.respond call a = some r) : MainMove call a c.main r.state.main := by
  cases Client.respond_turn h with
  | main e r hturn =>
    change MainMove _ _ _ r.state.main
    cases hturn with
    | packet p hmain =>
      rw [handlePacket_main, hmain]
      exact .stay _ _ _ (by simp)
    | pubackSent hmain =>
      rw [c.handlePubackSent_receives.state.main, hmain]
      exact .stay _ _ _ (by simp)
    | connack p hmain =>
      obtain ⟨_, _, hack⟩ := { c with main := .connected }.handleConnack_eq p
      rw [hack, hmain]
      exact .connack p
    | handshake hmain =>
      rw [hmain]
      exact .handshake
    | disconnect hmain =>
      rw [hmain]
      exact .disconnect
    | ignored _ _ _ _ hdisconnect =>
      refine .stay _ _ _ fun hmain heq => ?_
      injection heq with _ heq
      exact hdisconnect hmain heq
  | anonymous hmain =>
    rw [(Client.anonymous_same hmain).1.main, hmain]
    exact .anonymous
  | maybeSend =>
    rw [c.maybeSend_sends.state.main]
    exact .stay _ _ _ (by simp)
  | operate op =>
    change MainMove _ _ _ (c.operate op).state.main
    rw [operate_main]
    exact .stay _ _ _ (by simp)
  | close => exact .stay _ _ _ (by simp)
  | quiet _ _ _ hquiet hcall =>
    rw [hquiet.same.main]
    exact .stay _ _ _ fun _ => hcall.2.2 _

theorem respond_main {c : Client} {call : Call} {a : Action} {r : Reaction}
    (h : c.respond call a = some r) (hmain : c.main = .connected) : r.state.main = .connected := by
  have hmove := respond_move h
  rw [hmain] at hmove
  generalize r.state.main = main at hmove
  cases hmove
  rfl

theorem connected_run {ok : Config → Action → Prop} {c d : Config} (run : client.Run ok c d)
    (hmain : c.state.main = .connected) : d.state.main = .connected := by
  refine run.invariant (I := fun c => c.state.main = .connected) hmain ?_ ?_
  · intro c a r hc _ _ hr
    rw [← hc]
    exact (Client.arrive_quiet hr).same.main
  · intro c a call rest r hc _ _ hr
    exact respond_main hr hc

/-! ## What a request leaves behind -/

/-- The effects of the user's requests. -/
def Requested (e : Effect) : Prop :=
  e.Sending ∨ (∃ reason, e = .sent (.disconnect { reason }) .disconnector) ∨ e = .closed

theorem operate_effects (c : Client) (op : Operation) : ∀ e ∈ (c.operate op).effects, Requested e := by
  intro e he
  cases op with
  | publish message => exact .inl ((c.startPublish_sends message).effects e he)
  | subscribe subscriptions modifier =>
    exact .inl ((c.startSubscribe_sends subscriptions modifier).effects e he)
  | unsubscribe unsub => exact .inl ((c.startUnsubscribe_sends unsub).effects e he)
  | _ => exact .inr ((c.operate_aside _ (by simp) (by simp) (by simp)).effects e he)

theorem operate_calls (c : Client) (op : Operation) {call : Call} (hcall : call.Deferred) :
    call ∉ (c.operate op).calls := by
  have huser : call ≠ .user := by
    rintro rfl
    simp [Call.Deferred] at hcall
  intro hmem
  cases op with
  | publish message => exact huser ((c.startPublish_sends message).calls _ hmem)
  | subscribe subscriptions modifier =>
    exact huser ((c.startSubscribe_sends subscriptions modifier).calls _ hmem)
  | unsubscribe unsub => exact huser ((c.startUnsubscribe_sends unsub).calls _ hmem)
  | _ => exact (c.operate_aside _ (by simp) (by simp) (by simp)).calls call hmem hcall

theorem operateFrom_calls (c : Client) (op : Operation) {call : Call} (hcall : call.Deferred) :
    call ∉ (c.operateFrom op).calls := by
  intro hmem
  rcases List.mem_append.mp hmem with h | h
  · split at h
    · cases h
    · exact operate_calls c op hcall h
  · rw [List.mem_singleton.mp h] at hcall
    simp [Call.Deferred] at hcall

theorem deferred_maybeSend : Call.Deferred .maybeSendQueuedPublish := by simp [Call.Deferred]

theorem Sending.not_receiving {e : Effect} (h : e.Sending) : ¬ e.Receiving := by
  cases e with
  | sent packet receiver => cases packet <;> intro h' <;> first | exact h | exact h'
  | _ => first | exact h.elim | exact id

theorem Quiet.not_receiving {e : Effect} (h : e.Quiet) : ¬ e.Receiving := by
  cases e with
  | sent packet receiver => cases packet <;> intro h' <;> first | exact h | exact h'
  | _ => first | exact h.elim | exact id

theorem Requested.not_receiving {e : Effect} (h : Requested e) : ¬ e.Receiving := by
  rcases h with h | ⟨reason, rfl⟩ | rfl
  · exact Sending.not_receiving h
  · intro h
    cases h
  · exact id

/-! ## Before the CONNACK -/

/-- A client that is not connected has answered nothing. -/
structure Unopened (c : Config) : Prop where
  stack : .maybeSendQueuedPublish ∉ c.stack
  stored : c.state.receivedQos2States = []
  log : ∀ e ∈ c.log, ¬ e.Receiving ∧ ∀ event, e ≠ .event event .connected

theorem quiet_ne_event {e : Effect} (h : e.Quiet) (event : Event) (main : MainState) :
    e ≠ .event event main := by
  rintro rfl
  exact h

theorem requested_ne_event {e : Effect} (h : Requested e) (event : Event) (main : MainState) :
    e ≠ .event event main := by
  rintro rfl
  rcases h with h | ⟨reason, h⟩ | h
  · exact h
  · cases h
  · cases h

/-- One more reaction of a client that is not connected. -/
theorem Unopened.react {c : Config} (h : Unopened c) {rest : List Call} {r : Reaction}
    (hrest : .maybeSendQueuedPublish ∉ rest) (hcalls : .maybeSendQueuedPublish ∉ r.calls)
    (hstored : r.state.receivedQos2States = c.state.receivedQos2States)
    (heffects : ∀ e ∈ r.effects, ¬ e.Receiving ∧ ∀ event, e ≠ .event event .connected) :
    Unopened (client.react c rest r) where
  stack hmem := (Program.mem_react hmem).elim hcalls hrest
  stored := hstored.trans h.stored
  log e he := (List.mem_append.mp he).elim (heffects e) (h.log e)

theorem unopened_main {c : Config} (hmain : c.state.main ≠ .connected) {e : Event}
    {r : Reaction} (hturn : c.state.MainTurn e r) (hopen : r.state.main ≠ .connected) :
    .maybeSendQueuedPublish ∉ r.calls ∧
      r.state.receivedQos2States = c.state.receivedQos2States ∧ ∀ e ∈ r.effects, e = .closed := by
  cases hturn with
  | packet p h' => exact absurd h' hmain
  | pubackSent h' => exact absurd h' hmain
  | connack p h' =>
    obtain ⟨keepAliveUsed, clientId, hack⟩ := { c.state with main := .connected }.handleConnack_eq p
    rw [hack] at hopen
    exact absurd rfl hopen
  | handshake => exact ⟨by simp, rfl, by simp⟩
  | disconnect => exact ⟨by simp [Client.close], rfl, by simp [Client.close]⟩
  | ignored => exact ⟨by simp, rfl, by simp⟩

theorem unopened_arrive {c : Config} (hc : c.state.main ≠ .connected → Unopened c) {a : Action}
    {r : Reaction} (hr : c.state.arrive a = some r)
    (hmain : (client.react c [] r).state.main ≠ .connected) : Unopened (client.react c [] r) := by
  have hquiet := Client.arrive_quiet hr
  refine (hc fun h => hmain (hquiet.same.main.trans h)).react (by simp)
    (hquiet.calls _ deferred_maybeSend)
    hquiet.same.receive.receivedQos2States fun e he => ⟨?_, ?_⟩
  · exact Quiet.not_receiving (hquiet.effects e he)
  · exact fun event => quiet_ne_event (hquiet.effects e he) event .connected

theorem unopened_respond {c : Config} (hc : c.state.main ≠ .connected → Unopened c) {call : Call}
    {rest : List Call} (hstack : c.stack = call :: rest) {a : Action} {r : Reaction}
    (hr : c.state.respond call a = some r)
    (hmain : (client.react c rest r).state.main ≠ .connected) :
    Unopened (client.react c rest r) := by
  have hbefore : c.state.main ≠ .connected := fun h => hmain (respond_main hr h)
  have hopen := hc hbefore
  have htop : call ≠ .maybeSendQueuedPublish := by
    rintro rfl
    exact hopen.stack (by rw [hstack]; exact List.mem_cons_self)
  have hrest : .maybeSendQueuedPublish ∉ rest := fun h =>
    hopen.stack (by rw [hstack]; exact List.mem_cons_of_mem _ h)
  cases Client.respond_turn hr with
  | main e r hturn =>
    obtain ⟨hcalls, hstored, heffects⟩ := unopened_main hbefore hturn hmain
    refine hopen.react hrest hcalls hstored fun e' he' => ?_
    rcases List.mem_append.mp he' with he' | he'
    · rw [heffects e' he']
      exact ⟨id, fun _ h => by cases h⟩
    · rw [List.mem_singleton.mp he']
      refine ⟨id, fun event h => ?_⟩
      injection h with _ h
      exact hbefore h
  | anonymous h' =>
    obtain ⟨hsame, hcalls, heffects⟩ := Client.anonymous_same h'
    refine hopen.react hrest (fun h => ?_) hsame.receive.receivedQos2States fun e he => ?_
    · cases hcalls _ h
    · rw [heffects e he]
      exact ⟨id, fun _ h => by cases h⟩
  | maybeSend => exact absurd rfl htop
  | operate op =>
    refine hopen.react hrest (operateFrom_calls c.state op deferred_maybeSend)
      (operate_stored c.state op) fun e he => ?_
    have hreq := operate_effects c.state op e he
    exact ⟨Requested.not_receiving hreq, fun event => requested_ne_event hreq event .connected⟩
  | close =>
    refine hopen.react hrest (by simp [Client.close]) rfl ?_
    simp [Client.close, Effect.Receiving]
  | quiet _ _ _ hquiet =>
    refine hopen.react hrest (hquiet.calls _ deferred_maybeSend)
      hquiet.same.receive.receivedQos2States fun e he => ⟨Quiet.not_receiving (hquiet.effects e he), ?_⟩
    exact fun event => quiet_ne_event (hquiet.effects e he) event .connected

theorem unopened_run {ok : Config → Action → Prop} {c : Config} (run : client.Run ok initial c) :
    c.state.main ≠ .connected → Unopened c := by
  refine run.invariant (I := fun c => c.state.main ≠ .connected → Unopened c) ?_ ?_ ?_
  · intro
    exact ⟨by simp [initial], rfl, by simp [initial]⟩
  · exact fun c a r hc _ _ hr hmain => unopened_arrive hc hr hmain
  · exact fun c a call rest r hc _ hstack hr hmain => unopened_respond hc hstack hr hmain

/-! ## From the CONNACK on -/

/-- The configuration in which the handler of a CONNACK has set the quotas. -/
inductive Opened (connack : Connack) : Config → Prop
  | intro {c : Config} {rest : List Call} (run : client.Run (fun _ _ => True) initial c)
      (hmain : c.state.main = .handshaking)
      (hstack : c.stack = .dispatch .main (.packetReceived (.connack connack)) :: rest) :
      Opened connack (client.react c rest
        (c.state.dispatch (.packetReceived (.connack connack)) .main))

theorem opened_run {connack : Connack} {c : Config} (h : Opened connack c) :
    client.Run (fun _ _ => True) initial c := by
  obtain ⟨run, -, hstack⟩ := h
  refine .tail .run run trivial ?_
  rw [Program.step, hstack]
  rfl

/-- The main region's turn for the CONNACK it waits for. -/
theorem dispatch_connack {c : Client} (hmain : c.main = .handshaking) (connack : Connack) :
    c.dispatch (.packetReceived (.connack connack)) .main =
      withEntry ({ c with main := .connected }.handleConnack connack)
        (.packetReceived (.connack connack)) .handshaking := by
  rw [Client.dispatch, Reaction.andThen_of_not_threw rfl]
  simp only [hmain, mainTable]
  rfl

/-- The main region's turn for a packet while it is connected. -/
theorem dispatch_packet {c : Client} (hmain : c.main = .connected) (p : ControlPacket) :
    c.dispatch (.packetReceived p) .main =
      withEntry (c.handlePacket p) (.packetReceived p) .connected := by
  obtain ⟨r, hturn, hdispatch⟩ := c.dispatch_main (.packetReceived p)
  have hr : r = c.handlePacket p := by
    cases hturn with
    | packet => rfl
    | connack _ h => cases hmain.symm.trans h
    | ignored _ hpacket => exact absurd rfl (hpacket p hmain)
  rw [hdispatch, hr, hmain]
  rfl

/-- What the CONNACK leaves: quotas as negotiated, nothing received, nothing half done. -/
structure OpenedState (connack : Connack) (c : Config) : Prop where
  main : c.state.main = .connected
  serverMaxSendQuota : c.state.serverMaxSendQuota = connack.properties.receiveMaximum
  serverSendQuota : c.state.serverSendQuota = connack.properties.receiveMaximum
  clientReceiveQuota : c.state.clientReceiveQuota = c.state.connectOpts.receiveMaximum
  stored : c.state.receivedQos2States = []
  stack : .maybeSendQueuedPublish ∉ c.stack
  log : ∀ e ∈ c.log, ¬ e.Receiving ∧ ∀ event, e ≠ .event event .connected

theorem opened_state {connack : Connack} {c : Config} (h : Opened connack c) :
    OpenedState connack c := by
  obtain ⟨run, hmain, hstack⟩ := h
  rename_i c rest
  have hopen := unopened_run run (by rw [hmain]; simp)
  obtain ⟨keepAliveUsed, clientId, hack⟩ :=
    { c.state with main := .connected }.handleConnack_eq connack
  rw [dispatch_connack hmain, withEntry, hack, Program.react_of_not_threw rfl]
  refine ⟨rfl, rfl, rfl, rfl, hopen.stored, ?_, ?_⟩
  · have hrest : .maybeSendQueuedPublish ∉ rest := fun h =>
      hopen.stack (by rw [hstack]; exact List.mem_cons_of_mem _ h)
    simp [hrest]
  · intro e he
    rcases List.mem_cons.mp he with rfl | he
    · exact ⟨id, fun _ h => by cases h⟩
    · exact hopen.log e he

/-- The user connects, and the handshake starts without exceptions. -/
def connectActions : List Action :=
  [.enter, .operate .startConnect, .run, .run, .suspend, .run, .run, .run, .run, .return]

/-- A handshake up to the arrival of a CONNACK. -/
def handshakeActions (connack : Connack) : List Action :=
  connectActions ++ [.readValue (.connack connack)]

def openedConfig (connack : Connack) : Config :=
  (client.stepsWhile (fun _ _ => true) initial (handshakeActions connack ++ [.run])).getD initial

theorem opened_openedConfig (connack : Connack) : Opened connack (openedConfig connack) := by
  have hsteps : ∃ c, client.stepsWhile (fun _ _ => true) initial (handshakeActions connack) =
      some c := ⟨_, rfl⟩
  obtain ⟨c, hc⟩ := hsteps
  have run := (Program.Run.of_stepsWhile _ hc).mono fun _ _ _ => trivial
  cases hc
  exact .intro run rfl rfl

/-- The rest of a packet's turn: the three other regions, one of them reading on. -/
def readOn : List Action := [.run, .suspend, .run, .run, .run]

/-- What is left to run when the handler of the CONNACK has set the quotas. -/
def settleActions : List Action := List.replicate 6 .run ++ readOn

/-- The user's code makes a request from the event loop. -/
def request (op : Operation) : List Action := [.enter, .operate op, .return]

/-- A packet arrives whose handler calls nobody back. -/
def arrival (p : ControlPacket) : List Action := .readValue p :: .run :: readOn

/-- A packet arrives whose handler completes a receiver and then makes `n` more calls. -/
def completion (p : ControlPacket) (n : ℕ) : List Action :=
  [.readValue p, .run, .return] ++ List.replicate n .run ++ readOn

def publishQos1 : Publish := { headerFlags := 2, topic := [97] }
def publishQos2 : Publish := { headerFlags := 4, topic := [97] }

end Mqtt5.ClientSession
