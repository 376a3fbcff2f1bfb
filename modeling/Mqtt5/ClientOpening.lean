import Mqtt5.ClientConnection
import Mqtt5.ClientPeer
import Mqtt5.ClientPings

/-!
# CONNECT

A client sends one CONNECT on each network connection: it closes its socket before it
starts another handshake. If its user asks for nothing to be sent before it is connected,
then these are the first packets that it sends, and no other follows the CONNACK.
-/
namespace Mqtt5.ClientOpening
open WirePrimitives WirePublish WireConnect WireControlPacket CallMachine
open ClientState ClientSession ClientCycles ClientConnection ClientPeer ClientPings ClientTimers
open WireSubscribe hiding TopicFilter

/-! ## One for each connection -/

/-- The socket was closed since the last CONNECT. -/
def ClosedSince : List Effect → Prop
  | [] => True
  | .closed :: _ => True
  | e :: log => isConnect e = false ∧ ClosedSince log

def OneEach : List Effect → Prop
  | [] => True
  | e :: log => (isConnect e = true → ClosedSince log) ∧ OneEach log

theorem closedSince_cons {e : Effect} {log : List Effect} (he : isConnect e = false)
    (h : ClosedSince log) : ClosedSince (e :: log) := by
  cases e with
  | closed => trivial
  | _ => exact ⟨he, h⟩

theorem closedSince_append {effects log : List Effect} (heffects : ∀ e ∈ effects, isConnect e = false)
    (h : ClosedSince log) : ClosedSince (effects ++ log) := by
  induction effects with
  | nil => exact h
  | cons e effects ih =>
    obtain ⟨he, hrest⟩ := List.forall_mem_cons.mp heffects
    exact closedSince_cons he (ih hrest)

theorem oneEach_append {effects log : List Effect} (heffects : ∀ e ∈ effects, isConnect e = false)
    (h : OneEach log) : OneEach (effects ++ log) := by
  induction effects with
  | nil => exact h
  | cons e effects ih =>
    obtain ⟨he, hrest⟩ := List.forall_mem_cons.mp heffects
    refine ⟨fun hconnect => ?_, ih hrest⟩
    cases he.symm.trans hconnect

theorem closed_of_closedSince {between older : List Effect} {e : Effect}
    (he : isConnect e = true) (h : ClosedSince (between ++ e :: older)) : .closed ∈ between := by
  induction between with
  | nil =>
    cases e with
    | closed => cases he
    | _ =>
      obtain ⟨hnot, -⟩ := h
      cases hnot.symm.trans he
  | cons e' between ih =>
    cases e' with
    | closed => exact List.mem_cons_self
    | _ => exact List.mem_cons_of_mem _ (ih h.2)

theorem closed_of_oneEach {newer between older : List Effect} {e e' : Effect}
    (he : isConnect e = true) (he' : isConnect e' = true)
    (h : OneEach (newer ++ e :: between ++ e' :: older)) : .closed ∈ between := by
  induction newer with
  | nil => exact closed_of_closedSince he' (h.1 he)
  | cons e'' newer ih => exact ih h.2

/-- Where a handshake may start, no network connection is open that has a CONNECT. -/
structure Sound (c : Config) : Prop where
  oneEach : OneEach c.log
  closed : c.state.main = .idle ∨ c.state.main = .startHandshake → ClosedSince c.log

theorem connectless {effects : List Effect} (h : ∀ e ∈ effects, Unseen e) :
    ∀ e ∈ effects, isConnect e = false := fun e he => (h e he).2

theorem main_connectless {c : Client} {e : Event} {r : Reaction} (h : c.MainTurn e r) :
    ∀ effect ∈ r.effects, isConnect effect = false := by
  cases h with
  | packet p => exact connectless (unseen_handlePacket c p)
  | pubackSent =>
    have hreceives := c.handlePubackSent_receives
    exact connectless fun e he => unseen_of_receiving (hreceives.effects e he)
  | connack p =>
    obtain ⟨_, _, hack⟩ := { c with main := .connected }.handleConnack_eq p
    rw [hack]
    exact List.forall_mem_nil _
  | disconnect => exact List.forall_mem_singleton.mpr rfl
  | handshake | ignored => exact List.forall_mem_nil _

/-- A CONNECT is sent by the transition out of `start_handshake` only. -/
theorem respond_connectless {c : Client} {call : Call} {a : Action} {r : Reaction}
    (hr : c.respond call a = some r) (hstart : c.main = .startHandshake → call ≠ .anonymous) :
    ∀ e ∈ r.effects, isConnect e = false := by
  cases Client.respond_turn hr with
  | main e r hturn =>
    intro effect hmem
    obtain hmem | hmem := List.mem_append.mp hmem
    · exact main_connectless hturn effect hmem
    · rw [List.mem_singleton.mp hmem]
      rfl
  | anonymous hmain => exact absurd rfl (hstart hmain)
  | maybeSend => exact connectless fun e he => unseen_of_sending (c.maybeSend_sends.effects e he)
  | operate op => exact connectless fun e he => unseen_of_requested (operate_effects c op e he)
  | close => exact List.forall_mem_singleton.mpr rfl
  | quiet _ _ _ hquiet => exact connectless fun e he => unseen_of_quiet (hquiet.effects e he)

theorem anonymous_effects {c : Client} (hmain : c.main = .startHandshake) :
    c.anonymous.effects = [] ∨
      c.anonymous.effects = [.sent (.connect (Client.connectMessage c.connectOpts)) .message] := by
  by_cases hencodes : Encodes (.connect (Client.connectMessage c.connectOpts))
  · obtain ⟨d, -, hsent⟩ := Client.anonymous_of_encodes hmain hencodes
    rw [hsent]
    exact .inr rfl
  · obtain ⟨d, -, hanonymous⟩ := Client.anonymous_eq hmain
    rw [hanonymous, d.sendMessage_of_not_encodes hencodes, Reaction.andThen_of_threw rfl]
    exact .inl rfl

/-- A handshake may start where one might have started before, or a handshake is given up. -/
theorem respond_startable {c : Client} {call : Call} {a : Action} {r : Reaction}
    (hr : c.respond call a = some r) (h : r.state.main = .idle ∨ r.state.main = .startHandshake) :
    c.main = .idle ∨ c.main = .startHandshake ∨
      c.main = .handshaking ∧ call = .dispatch .main .disconnect := by
  have hmove := respond_move hr
  generalize c.main = before, r.state.main = after at hmove h
  cases hmove with
  | stay => exact h.imp_right .inl
  | connack => simp at h
  | handshake => exact .inl rfl
  | disconnect => exact .inr (.inr ⟨rfl, rfl⟩)
  | anonymous => exact .inr (.inl rfl)

/-- A handshake that is given up closes the socket. -/
theorem disconnect_closes {c : Client} {a : Action} {r : Reaction}
    (hr : c.respond (.dispatch .main .disconnect) a = some r) (hmain : c.main = .handshaking) :
    ∃ effects, r.effects = .closed :: effects := by
  cases Client.respond_turn hr with
  | main e r hturn =>
    cases hturn with
    | disconnect => exact ⟨_, rfl⟩
    | ignored _ _ _ _ hdisconnect => exact absurd rfl (hdisconnect hmain)
  | quiet _ _ _ _ hcall => exact absurd rfl (hcall.2.2 .disconnect)

theorem sound_respond {c : Config} (h : Sound c) {call : Call} {a : Action} {r : Reaction}
    (hr : c.state.respond call a = some r) (rest : List Call) : Sound (client.react c rest r) := by
  by_cases hstart : c.state.main = .startHandshake ∧ call = .anonymous
  · obtain ⟨hmain, rfl⟩ := hstart
    have hr' : r = c.state.anonymous := by
      cases a <;> cases hr
      rfl
    have hshaking : c.state.anonymous.state.main = .handshaking :=
      (Client.anonymous_same hmain).1.main
    rw [hr']
    refine ⟨?_, ?_⟩
    · change OneEach (c.state.anonymous.effects ++ c.log)
      obtain hnone | hsent := anonymous_effects hmain
      · rw [hnone]
        exact h.oneEach
      · rw [hsent]
        exact ⟨fun _ => h.closed (.inr hmain), h.oneEach⟩
    · change c.state.anonymous.state.main = _ ∨ c.state.anonymous.state.main = _ → _
      simp [hshaking]
  · have hconnectless := respond_connectless hr fun hmain hcall => hstart ⟨hmain, hcall⟩
    refine ⟨oneEach_append hconnectless h.oneEach, fun hidle => ?_⟩
    obtain hbefore | hbefore | ⟨hmain, rfl⟩ := respond_startable hr hidle
    · exact closedSince_append hconnectless (h.closed (.inl hbefore))
    · exact closedSince_append hconnectless (h.closed (.inr hbefore))
    · obtain ⟨effects, heffects⟩ := disconnect_closes hr hmain
      change ClosedSince (r.effects ++ c.log)
      rw [heffects]
      trivial

theorem sound_run {ok : Config → Action → Prop} {c : Config} (run : client.Run ok initial c) :
    Sound c := by
  refine run.invariant (I := Sound) ⟨trivial, fun _ => trivial⟩ ?_ ?_
  · intro c a r hc _ _ hr
    have hquiet := Client.arrive_quiet hr
    have hconnectless := connectless fun e he => unseen_of_quiet (hquiet.effects e he)
    refine ⟨oneEach_append hconnectless hc.oneEach, fun hstart => ?_⟩
    exact closedSince_append hconnectless (hc.closed (hquiet.same.main ▸ hstart))
  · exact fun c a call rest r hc _ _ hr => sound_respond hc hr rest

/-- Between two CONNECTs the socket was closed. -/
theorem one_connect_each_connection {ok : Config → Action → Prop} {c : Config}
    (run : client.Run ok initial c) {newer between older : List Effect} {e e' : Effect}
    (he : isConnect e = true) (he' : isConnect e' = true)
    (hlog : c.log = newer ++ e :: between ++ e' :: older) : .closed ∈ between := by
  have honeEach := (sound_run run).oneEach
  rw [hlog] at honeEach
  exact closed_of_oneEach he he' honeEach

/-- Two handshakes that nobody answers. -/
theorem one_connect_each_connection_unanswered : ∃ c : Config, ∃ newer between older e,
    client.Run (fun c a => undisturbed c a) initial c ∧
      c.log = newer ++ e :: between ++ e :: older ∧ isConnect e = true ∧ .closed ∈ between := by
  let e : Effect := .sent (.connect (Client.connectMessage {})) .message
  let ended : List Effect := [.closed, .closed, .event .disconnect .handshaking]
  have hsteps : (client.stepsWhile undisturbed initial (unanswered ++ unanswered)).map
      (·.log) = some (ended ++ e :: (.event .handshake .idle :: ended) ++
        e :: [.event .handshake .idle]) := by decide +kernel
  obtain ⟨c, hc, hlog⟩ := Option.map_eq_some_iff.mp hsteps
  have run := Program.Run.of_stepsWhile _ hc
  exact ⟨c, _, _, _, e, run, hlog, rfl, one_connect_each_connection run rfl rfl hlog⟩

/-! ## Before all others -/

/-- The requests that give a packet to the stream. -/
def Sends : Operation → Prop
  | .publish _ | .subscribe _ _ | .unsubscribe _ | .disconnect _ => True
  | _ => False

/-- The user asks for what can be encoded, and for nothing to be sent before the client is
connected. -/
def Patient (c : Config) (a : Action) : Prop :=
  ∀ op, a = .operate op →
    ClientExceptions.Encodable op ∧ (Sends op → c.state.isConnected = true)

/-- An effect that gives no packet but a CONNECT to the stream. -/
def Greeting (e : Effect) : Prop := ∀ packet receiver, e = .sent packet receiver → isConnect e = true

theorem greeting_of_closed : Greeting .closed := by
  intro packet receiver h
  cases h

theorem greeting_of_event (e : Event) (main : MainState) : Greeting (.event e main) := by
  intro packet receiver h
  cases h

theorem greeting_of_quiet {e : Effect} (h : e.Quiet) (hping : ¬ IsPing e) : Greeting e := by
  rintro packet receiver rfl
  cases packet with
  | pingreq => exact absurd ⟨receiver, rfl⟩ hping
  | _ => exact h.elim

theorem operate_greeting (c : Client) {op : Operation} (h : ¬ Sends op) :
    ∀ e ∈ (c.operate op).effects, Greeting e := by
  cases op with
  | publish | subscribe | unsubscribe | disconnect => exact absurd trivial h
  | startConnect =>
    have hnone : c.startConnect.effects = [] := by
      rw [Client.startConnect]
      split <;> rfl
    change ∀ e ∈ c.startConnect.effects, Greeting e
    rw [hnone]
    exact List.forall_mem_nil _
  | close => exact List.forall_mem_singleton.mpr greeting_of_closed
  | handshaker | connect | filterSubscribe => exact List.forall_mem_nil _

/-- Until it is connected the client gives nothing but CONNECTs to the stream. -/
theorem respond_greeting {c : Config} (hunopened : c.state.main ≠ .connected → Unopened c)
    (hunconnected : c.state.main ≠ .connected → Unconnected c) {call : Call} {rest : List Call}
    (hstack : c.stack = call :: rest) {a : Action} (ha : Patient c a) {r : Reaction}
    (hr : c.state.respond call a = some r) (hmain : r.state.main ≠ .connected) :
    ∀ e ∈ r.effects, Greeting e := by
  have hbefore : c.state.main ≠ .connected := fun h => hmain (respond_main hr h)
  cases Client.respond_turn hr with
  | main e r hturn =>
    obtain ⟨-, -, hclosed⟩ := unopened_main hbefore hturn hmain
    intro e' he'
    obtain he' | he' := List.mem_append.mp he'
    · rw [hclosed e' he']
      exact greeting_of_closed
    · rw [List.mem_singleton.mp he']
      exact greeting_of_event _ _
  | anonymous h =>
    intro e he
    rw [(Client.anonymous_same h).2.2 e he]
    exact fun _ _ _ => rfl
  | maybeSend =>
    refine absurd ?_ (hunopened hbefore).stack
    rw [hstack]
    exact List.mem_cons_self
  | operate op =>
    apply operate_greeting c.state
    intro hsends
    exact hbefore (of_decide_eq_true ((ha op rfl).2 hsends))
  | close =>
    exact List.forall_mem_singleton.mpr greeting_of_closed
  | quiet _ _ _ hquiet hcall =>
    intro e he
    apply greeting_of_quiet (hquiet.effects e he)
    intro hping
    obtain ⟨-, hwaiting, -⟩ := respond_pings hr he hping
    cases (hunconnected hbefore).ping.symm.trans hwaiting

/-- The CONNECTs of a log are its oldest packets. -/
structure Ordered (c : Config) (later earlier : List Effect) : Prop where
  log : c.log = later ++ earlier
  connectless : ∀ e ∈ later, isConnect e = false
  opening : ∀ e ∈ earlier, Greeting e
  unconnected : c.state.main ≠ .connected → later = []
  greeted : c.state.main = .handshaking ∨ c.state.main = .connected →
    ∃ e ∈ earlier, isConnect e = true

/-- A connected client goes on. -/
theorem Ordered.connected {c : Config} {later earlier : List Effect} (h : Ordered c later earlier)
    {rest : List Call} {r : Reaction} (hmain : r.state.main = .connected)
    (hbefore : c.state.main = .handshaking ∨ c.state.main = .connected)
    (heffects : ∀ e ∈ r.effects, isConnect e = false) :
    Ordered (client.react c rest r) (r.effects ++ later) earlier where
  log := by
    rw [List.append_assoc, ← h.log]
    rfl
  connectless e he := (List.mem_append.mp he).elim (heffects e) (h.connectless e)
  opening := h.opening
  unconnected hnot := absurd hmain hnot
  greeted _ := h.greeted hbefore

/-- A client that is not connected goes on. -/
theorem Ordered.opened {c : Config} {later earlier : List Effect} (h : Ordered c later earlier)
    {rest : List Call} {r : Reaction} (hmain : r.state.main ≠ .connected)
    (hbefore : c.state.main ≠ .connected) (heffects : ∀ e ∈ r.effects, Greeting e)
    (hgreeted : r.state.main = .handshaking →
      c.state.main = .handshaking ∨ ∃ e ∈ r.effects, isConnect e = true) :
    Ordered (client.react c rest r) [] (r.effects ++ earlier) where
  log := by
    have hlog := h.log
    rw [h.unconnected hbefore] at hlog
    rw [List.nil_append, ← List.nil_append earlier, ← hlog]
    rfl
  connectless := List.forall_mem_nil _
  opening e he := (List.mem_append.mp he).elim (heffects e) (h.opening e)
  unconnected _ := rfl
  greeted hafter := by
    obtain hshaking | ⟨e, he, hconnect⟩ := hgreeted (hafter.resolve_right hmain)
    · obtain ⟨e, he, hconnect⟩ := h.greeted (.inl hshaking)
      exact ⟨e, List.mem_append_right _ he, hconnect⟩
    · exact ⟨e, List.mem_append_left _ he, hconnect⟩

theorem ordered_arrive {c : Config} {later earlier : List Effect} (h : Ordered c later earlier)
    {a : Action} {r : Reaction} (hr : c.state.arrive a = some r) :
    ∃ later earlier, Ordered (client.react c [] r) later earlier := by
  have hquiet := Client.arrive_quiet hr
  have hsame : r.state.main = c.state.main := hquiet.same.main
  by_cases hmain : c.state.main = .connected
  · have heffects := connectless fun e he => unseen_of_quiet (hquiet.effects e he)
    exact ⟨_, _, h.connected (hsame.trans hmain) (.inr hmain) heffects⟩
  · have heffects : ∀ e ∈ r.effects, Greeting e := fun e he =>
      greeting_of_quiet (hquiet.effects e he) (arrive_ne_ping hr e he)
    have hafter : r.state.main ≠ .connected := fun hafter => hmain (hsame.symm.trans hafter)
    exact ⟨_, _, h.opened hafter hmain heffects fun hshaking => .inl (hsame.symm.trans hshaking)⟩

theorem respond_connected {c : Client} {call : Call} {a : Action} {r : Reaction}
    (hr : c.respond call a = some r) (hmain : r.state.main = .connected) :
    c.main = .handshaking ∨ c.main = .connected := by
  have hmove := respond_move hr
  rw [hmain] at hmove
  generalize c.main = before at hmove
  cases hmove with
  | stay => exact .inr rfl
  | connack => exact .inl rfl

theorem ordered_respond {c : Config} {later earlier : List Effect} (h : Ordered c later earlier)
    (hunopened : c.state.main ≠ .connected → Unopened c)
    (hunconnected : c.state.main ≠ .connected → Unconnected c)
    (hencodes : Encodes (.connect (Client.connectMessage c.state.connectOpts)))
    {call : Call} {rest : List Call} (hstack : c.stack = call :: rest) {a : Action}
    (ha : Patient c a) {r : Reaction} (hr : c.state.respond call a = some r) :
    ∃ later earlier, Ordered (client.react c rest r) later earlier := by
  by_cases hmain : r.state.main = .connected
  · have hbefore := respond_connected hr hmain
    have heffects := respond_connectless hr fun hstart => by simp [hstart] at hbefore
    exact ⟨_, _, h.connected hmain hbefore heffects⟩
  · have hbefore : c.state.main ≠ .connected := fun h => hmain (respond_main hr h)
    have heffects := respond_greeting hunopened hunconnected hstack ha hr hmain
    refine ⟨_, _, h.opened hmain hbefore heffects fun hshaking => ?_⟩
    obtain ⟨hshaking, -⟩ | ⟨hstart, rfl⟩ := respond_handshaking hr hshaking
    · exact .inl hshaking
    · obtain ⟨d, -, hsent⟩ := Client.anonymous_of_encodes hstart hencodes
      have hr' : r = c.state.anonymous := by
        cases a <;> cases hr
        rfl
      rw [hr', hsent]
      exact .inr ⟨_, List.mem_cons_self, rfl⟩

theorem ordered_run {ok : Config → Action → Prop} {c : Config} (run : client.Run ok initial c)
    (hok : ∀ c a, ok c a → Patient c a) : ∃ later earlier, Ordered c later earlier := by
  have hencodable : ∀ c a, ok c a → ∀ op, a = .operate op → ClientExceptions.Encodable op :=
    fun c a ha op hop => (hok c a ha op hop).1
  have hassumed := run.assume (J := fun c => (c.state.main ≠ .connected → Unopened c) ∧
      (c.state.main ≠ .connected → Unconnected c) ∧ ClientExceptions.Ready c.state)
    fun d hd => ⟨unopened_run hd, unconnected_run hd, ClientExceptions.ready_run hd hencodable⟩
  refine hassumed.invariant (I := fun c => ∃ later earlier, Ordered c later earlier) ?_ ?_ ?_
  · refine ⟨[], [], rfl, List.forall_mem_nil _, List.forall_mem_nil _, fun _ => rfl, ?_⟩
    simp [initial]
  · intro c a r hc _ _ hr
    obtain ⟨later, earlier, hc⟩ := hc
    exact ordered_arrive hc hr
  · intro c a call rest r hc hokc hstack hr
    obtain ⟨later, earlier, hc⟩ := hc
    obtain ⟨ha, hunopened, hunconnected, hready⟩ := hokc
    exact ordered_respond hc hunopened hunconnected hready.connect hstack (hok c a ha) hr

theorem mem_sentPackets {log : List Effect} {p : ControlPacket} :
    p ∈ sentPackets log ↔ ∃ receiver, .sent p receiver ∈ log := by
  rw [sentPackets, List.mem_reverse, List.mem_filterMap]
  constructor
  · rintro ⟨e, he, hp⟩
    cases e with
    | sent packet receiver =>
      cases hp
      exact ⟨receiver, he⟩
    | _ => cases hp
  · rintro ⟨receiver, hmem⟩
    exact ⟨_, hmem, rfl⟩

theorem isConnect_sent {e : Effect} (h : isConnect e = true) :
    ∃ connect receiver, e = .sent (.connect connect) receiver := by
  cases e with
  | sent packet receiver =>
    cases packet with
    | connect connect => exact ⟨connect, receiver, rfl⟩
    | _ => cases h
  | _ => cases h

/-- The packets of a client whose user is patient are CONNECTs, then others, and these only once
it is connected. -/
theorem connect_comes_first {ok : Config → Action → Prop} {c : Config}
    (run : client.Run ok initial c) (hok : ∀ c a, ok c a → Patient c a) :
    ∃ connects others, sentPackets c.log = connects ++ others ∧
      (∀ p ∈ connects, ∃ connect, p = .connect connect) ∧
      (∀ p ∈ others, ∀ connect, p ≠ .connect connect) ∧
      (others ≠ [] → connects ≠ [] ∧ c.state.isConnected = true) := by
  obtain ⟨later, earlier, h⟩ := ordered_run run hok
  refine ⟨sentPackets earlier, sentPackets later, ?_, ?_, ?_, ?_⟩
  · rw [h.log, sentPackets, List.filterMap_append, List.reverse_append]
    rfl
  · intro p hp
    obtain ⟨receiver, hmem⟩ := mem_sentPackets.mp hp
    obtain ⟨connect, _, he⟩ := isConnect_sent (h.opening _ hmem p receiver rfl)
    cases he
    exact ⟨connect, rfl⟩
  · rintro p hp connect rfl
    obtain ⟨receiver, hmem⟩ := mem_sentPackets.mp hp
    cases (h.connectless _ hmem).symm.trans rfl
  · intro hothers
    have hmain : c.state.main = .connected := by
      by_contra hmain
      rw [h.unconnected hmain] at hothers
      exact hothers rfl
    refine ⟨?_, decide_eq_true hmain⟩
    obtain ⟨e, he, hconnect⟩ := h.greeted (.inr hmain)
    obtain ⟨connect, receiver, rfl⟩ := isConnect_sent hconnect
    exact List.ne_nil_of_mem (mem_sentPackets.mpr ⟨receiver, he⟩)

/-- A client that pings. -/
theorem connect_comes_first_ping : ∃ c : Config, ∃ connects others,
    client.Run (fun c a => ClientExceptions.connectsOnly c a) initial c ∧ .pingreq ∈ others ∧
      sentPackets c.log = connects ++ others ∧ connects ≠ [] := by
  have hsteps : (client.stepsWhile ClientExceptions.connectsOnly initial
      (handshakeActions ClientKeepAlive.tenSeconds ++ [.run] ++ settleActions ++
        .connectAndPingTimer :: List.replicate 5 .run)).map (fun c => sentPackets c.log) =
          some [.connect (Client.connectMessage {}), .pingreq] := by
    decide +kernel
  obtain ⟨c, hc, hsent⟩ := Option.map_eq_some_iff.mp hsteps
  have run := Program.Run.of_stepsWhile _ hc
  have hpatient : ∀ (c : Config) (a : Action), ClientExceptions.connectsOnly c a = true →
      Patient c a := by
    rintro c _ hok op rfl
    refine ⟨ClientExceptions.encodable_of_connectsOnly hok, fun hsends => ?_⟩
    cases op with
    | startConnect => exact hsends.elim
    | _ => cases hok
  obtain ⟨connects, others, hall, hconnects, hothers, hboth⟩ := connect_comes_first run hpatient
  have hping : .pingreq ∈ others := by
    have hmem : .pingreq ∈ connects ++ others := by
      rw [← hall, hsent]
      simp
    refine (List.mem_append.mp hmem).resolve_left fun hmem => ?_
    obtain ⟨connect, he⟩ := hconnects _ hmem
    cases he
  exact ⟨c, connects, others, run, hping, hall, (hboth (List.ne_nil_of_mem hping)).1⟩

end Mqtt5.ClientOpening
