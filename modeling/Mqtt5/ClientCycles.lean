import Mqtt5.ClientStream

/-!
# The handshake's callers and the timers' cycles

Who waits for the handshake, the negotiated keep alive, the two timers and the two regions
that count them are touched by few turns. `CycleTurn` names those, and a client that is not
connected has none of what they leave behind.
-/
namespace Mqtt5.ClientCycles
open WirePrimitives WirePublish WireConnect WireControlPacket CallMachine ClientState ClientSession
open ClientActs ClientStream
open WireSubscribe hiding TopicFilter

/-- Only connecting and the timers change these. -/
structure SameCycles (c d : Client) : Prop where
  connectReceivers : d.connectReceivers = c.connectReceivers
  keepAliveUsed : d.keepAliveUsed = c.keepAliveUsed
  clientId : d.clientId = c.clientId
  ping : d.ping = c.ping
  keepAlive : d.keepAlive = c.keepAlive
  connectAndPingTimer : d.connectAndPingTimer = c.connectAndPingTimer
  keepAliveTimer : d.keepAliveTimer = c.keepAliveTimer

theorem SameCycles.refl (c : Client) : SameCycles c c := by constructor <;> rfl

theorem SameCycles.trans {c d e : Client} (h : SameCycles c d) (h' : SameCycles d e) :
    SameCycles c e where
  connectReceivers := h'.connectReceivers.trans h.connectReceivers
  keepAliveUsed := h'.keepAliveUsed.trans h.keepAliveUsed
  clientId := h'.clientId.trans h.clientId
  ping := h'.ping.trans h.ping
  keepAlive := h'.keepAlive.trans h.keepAlive
  connectAndPingTimer := h'.connectAndPingTimer.trans h.connectAndPingTimer
  keepAliveTimer := h'.keepAliveTimer.trans h.keepAliveTimer

/-! ## Handlers and requests -/

/-- Exchanging messages has no part in them. -/
theorem cycles_acts {c d : Client} {effects : List Effect}
    (h : Acts (fun _ _ => False) c d effects) : SameCycles c d := by
  induction h with
  | nothing => exact .refl c
  | write _ _ _ _ _ ih =>
    apply ih.trans
    constructor <;> rfl
  | exchange _ ih =>
    apply ih.trans
    constructor <;> rfl
  | note _ _ ih => exact ih
  | other _ hother => exact hother.elim

theorem cycles_performs {c : Client} {r : Reaction} (h : Performs (fun _ _ => False) c r) :
    SameCycles c r.state := by
  cases h with
  | acts _ h => exact cycles_acts h
  | delivers h publish =>
    apply (cycles_acts h).trans
    constructor <;> rfl

/-- The requests that have nothing to do with connecting. -/
theorem cycles_operate (c : Client) {op : Operation} (hconnect : ∀ receiver, op ≠ .connect receiver)
    (hstart : op = .startConnect → c.isConnected = false) : SameCycles c (c.operate op).state := by
  cases op with
  | publish message => exact cycles_acts (exchanges_startPublish c message)
  | subscribe subscriptions modifier =>
    exact cycles_acts (exchanges_startSubscribe c subscriptions modifier)
  | unsubscribe unsub => exact cycles_acts (exchanges_startUnsubscribe c unsub)
  | disconnect reason => exact cycles_acts (exchanges_writer c _ .disconnector)
  | startConnect =>
    change SameCycles c c.startConnect.state
    rw [Client.startConnect, hstart rfl]
    exact .refl c
  | connect receiver => exact absurd rfl (hconnect receiver)
  | handshaker | filterSubscribe | close => constructor <;> rfl

/-! ## Turns -/

/-- The calls that follow a CONNACK. -/
def Established : Call → Prop
  | .dispatch _ .handshakeDone | .notifyConnectorReceivers _ | .connectorReceiver _ _ => True
  | _ => False

/-- The main region takes a CONNACK, or a caller of the handshake is called back. -/
def Establishing : Effect → Prop
  | .connector _ _ | .event (.packetReceived (.connack _)) .handshaking => True
  | _ => False

theorem sending_establishes {e : Effect} (h : e.Sending) : ¬ Establishing e := by
  cases e with
  | event | connector => exact h.elim
  | _ => exact id

theorem receiving_establishes {e : Effect} (h : e.Receiving) : ¬ Establishing e := by
  cases e with
  | event | connector => exact h.elim
  | _ => exact id

theorem requested_establishes {e : Effect} (h : Requested e) : ¬ Establishing e := by
  rcases h with h | ⟨reason, rfl⟩ | rfl
  · exact sending_establishes h
  · exact id
  · exact id

/-- A reaction that has no part in connecting. -/
structure Uninvolved (c : Client) (r : Reaction) : Prop where
  same : SameCycles c r.state
  calls : ∀ call ∈ r.calls, ¬ Established call
  effects : ∀ e ∈ r.effects, ¬ Establishing e

theorem uninvolved_receives {c : Client} {r : Reaction} (hsame : SameCycles c r.state)
    (h : c.Receives r) : Uninvolved c r where
  same := hsame
  calls call hcall := by
    have hwaiter := h.calls call hcall
    cases call <;> first | exact hwaiter.elim | exact id
  effects e he := receiving_establishes (h.effects e he)

theorem uninvolved_sends {c : Client} {r : Reaction} {K : Call → Prop} (hsame : SameCycles c r.state)
    (h : c.Sends K r) (hcalls : ∀ call, K call → ¬ Established call) : Uninvolved c r where
  same := hsame
  calls call hcall := hcalls call (h.calls call hcall)
  effects e he := sending_establishes (h.effects e he)

theorem after_established {call : Call} (h : call.After) : ¬ Established call := by
  simp only [Call.After, List.mem_cons, List.not_mem_nil, or_false] at h
  rcases h with rfl | rfl | rfl <;> exact id

theorem uninvolved_handlePacket (c : Client) (p : ControlPacket) :
    Uninvolved c (c.handlePacket p) := by
  have hsame := cycles_performs (performs_handlePacket c p)
  rcases c.handlePacket_side p with h | h
  · exact uninvolved_receives hsame h
  · exact uninvolved_sends hsame h fun _ => after_established

/-- A connector of a connected client calls back at once. -/
theorem operate_startConnect {c : Client} (h : c.main = .connected) :
    c.operate .startConnect = c.notifyConnectorReceivers true := by
  change c.startConnect = _
  rw [Client.startConnect, if_pos (by simp [Client.isConnected, h])]

/-- The turns that connecting and the timers are made of, and the rest. -/
inductive CycleTurn (c : Client) : Call → Action → Reaction → Prop
  | connack (p : Connack) (h : c.main = .handshaking) :
      CycleTurn c (.dispatch .main (.packetReceived (.connack p))) .run
        (withEntry ({ c with main := .connected }.handleConnack p) (.packetReceived (.connack p))
          .handshaking)
  | ping (e : Event) : CycleTurn c (.dispatch .ping e) .run (c.dispatch e .ping)
  | keepAlive (e : Event) : CycleTurn c (.dispatch .keepAlive e) .run (c.dispatch e .keepAlive)
  | anonymous (h : c.main = .startHandshake) : CycleTurn c .anonymous .run c.anonymous
  | notify (success : Bool) :
      CycleTurn c (.notifyConnectorReceivers success) .run (c.notifyConnectorReceivers success)
  | connector (receiver : Receiver) (success : Bool) :
      CycleTurn c (.connectorReceiver receiver success) .run
        { state := c, calls := [.user], effects := [.connector receiver success] }
  | startConnect (h : c.main = .connected) :
      CycleTurn c .user (.operate .startConnect) (c.operateFrom .startConnect)
  | connect (receiver : Receiver) :
      CycleTurn c .user (.operate (.connect receiver)) (c.operateFrom (.connect receiver))
  | other (call : Call) (a : Action) (r : Reaction) (h : Uninvolved c r) : CycleTurn c call a r

/-- The main region's turn for anything but the CONNACK. -/
theorem uninvolved_main {c : Client} {e : Event} {r : Reaction} (h : c.MainTurn e r)
    (hconnack : ∀ p, c.main = .handshaking → e ≠ .packetReceived (.connack p)) :
    Uninvolved c (withEntry r e c.main) := by
  have hentry : ¬ Establishing (.event e c.main) := by
    intro hentry
    cases hmain : c.main with
    | handshaking =>
      rw [hmain] at hentry
      cases e with
      | packetReceived p =>
        cases p with
        | connack p => exact hconnack p hmain rfl
        | _ => exact hentry
      | _ => exact hentry
    | _ =>
      rw [hmain] at hentry
      cases e with
      | packetReceived p => cases p <;> exact hentry
      | _ => exact hentry
  have hturn : Uninvolved c r := by
    cases h with
    | packet p => exact uninvolved_handlePacket c p
    | pubackSent =>
      exact uninvolved_receives (cycles_acts (exchanges_pubackSent c)) c.handlePubackSent_receives
    | connack p hmain => exact absurd rfl (hconnack p hmain)
    | handshake => exact ⟨by constructor <;> rfl, by simp, by simp⟩
    | disconnect =>
      exact ⟨by constructor <;> rfl, by simp [Client.close], by simp [Client.close, Establishing]⟩
    | ignored => exact ⟨.refl c, by simp, by simp⟩
  refine ⟨hturn.same, hturn.calls, ?_⟩
  intro e' he'
  rcases List.mem_append.mp he' with he' | he'
  · exact hturn.effects e' he'
  · rw [List.mem_singleton.mp he']
    exact hentry

theorem uninvolved_operate (c : Client) {op : Operation}
    (hconnect : ∀ receiver, op ≠ .connect receiver) (hstart : op = .startConnect → c.main ≠ .connected) :
    Uninvolved c (c.operateFrom op) := by
  have hconnected : op = .startConnect → c.isConnected = false := fun h => by
    simpa [Client.isConnected] using hstart h
  refine ⟨cycles_operate c hconnect hconnected, ?_, ?_⟩
  · have hcalls : ∀ call ∈ (c.operate op).calls, ¬ Established call := by
      intro call hcall
      cases op with
      | publish message =>
        rw [(c.startPublish_sends message).calls call hcall]
        exact id
      | subscribe subscriptions modifier =>
        cases (c.startSubscribe_sends subscriptions modifier).calls call hcall
        exact id
      | unsubscribe unsub =>
        cases (c.startUnsubscribe_sends unsub).calls call hcall
        exact id
      | disconnect reason =>
        have hwriter := c.controlPacketWriter_ensures (.disconnect { reason }) .disconnector
          (fun _ => False)
        exact (hwriter.calls call hcall).elim
      | startConnect =>
        change call ∈ c.startConnect.calls at hcall
        rw [Client.startConnect, hconnected rfl] at hcall
        simp only [Bool.false_eq_true, if_false, Client.processEvent, List.mem_cons,
          List.not_mem_nil, or_false] at hcall
        rcases hcall with rfl | rfl | rfl | rfl | rfl <;> exact id
      | handshaker | connect | filterSubscribe | close => cases hcall
    intro call hcall
    rcases List.mem_append.mp hcall with hcall | hcall
    · split at hcall
      · cases hcall
      · exact hcalls call hcall
    · rw [List.mem_singleton.mp hcall]
      exact id
  · exact fun e he => requested_establishes (operate_effects c op e he)

theorem uninvolved_event (c : Client) {d : Client} (h : SameCycles c d) {e : Event}
    (he : e ≠ .handshakeDone) : Uninvolved c (d.processEvent e) := by
  refine ⟨h, ?_, by simp [Client.processEvent]⟩
  intro call hcall
  simp only [Client.processEvent, List.mem_cons, List.not_mem_nil, or_false] at hcall
  rcases hcall with rfl | rfl | rfl | rfl | rfl
  case inr.inr.inr.inr => exact id
  all_goals
    intro hestablished
    cases e with
    | handshakeDone => exact he rfl
    | _ => exact hestablished

theorem exec_cycle {c : Client} {call : Call} {r : Reaction} (h : c.exec call = some r) :
    CycleTurn c call .run r := by
  cases call with
  | dispatch region e =>
    cases h
    cases region with
    | main =>
      by_cases hconnack : c.main = .handshaking ∧ ∃ p, e = .packetReceived (.connack p)
      · obtain ⟨hmain, p, rfl⟩ := hconnack
        rw [dispatch_connack hmain]
        exact .connack p hmain
      · obtain ⟨r, hturn, hr⟩ := c.dispatch_main e
        rw [hr]
        exact .other _ _ _ (uninvolved_main hturn fun p hmain heq => hconnack ⟨hmain, p, heq⟩)
    | rx =>
      apply CycleTurn.other
      have hturn := dispatch_rx c e
      generalize c.dispatch e .rx = r at hturn
      cases hturn with
      | handshake | packet | ignored =>
        exact ⟨by constructor <;> rfl, by simp [Established], by simp⟩
      | disconnect => exact ⟨by constructor <;> rfl, by simp, by simp [Establishing]⟩
    | ping => exact .ping e
    | keepAlive => exact .keepAlive e
  | anonymous =>
    cases h
    by_cases hmain : c.main = .startHandshake
    · exact .anonymous hmain
    · rw [Client.anonymous, if_neg hmain]
      exact .other _ _ _ ⟨.refl c, by simp, by simp⟩
  | close =>
    cases h
    exact .other _ _ _ ⟨.refl c, by simp [Client.close], by simp [Client.close, Establishing]⟩
  | maybeSendQueuedPublish =>
    cases h
    exact .other _ _ _
      (uninvolved_sends (cycles_acts (exchanges_maybeSend c)) c.maybeSend_sends fun _ h => h.elim)
  | notifyConnectorReceivers success => cases h; exact .notify success
  | connectorReceiver receiver success => cases h; exact .connector receiver success
  | publishWaiter receiver publish =>
    cases h
    exact .other _ _ _ ⟨.refl c, by simp [Established], by simp [Establishing]⟩
  | user | receiveOneMessage => cases h

theorem respond_cycle {c : Client} {call : Call} {a : Action} {r : Reaction}
    (h : c.respond call a = some r) : CycleTurn c call a r := by
  cases a with
  | run => exact exec_cycle h
  | operate op =>
    cases call <;> cases h
    by_cases hconnect : ∃ receiver, op = .connect receiver
    · obtain ⟨receiver, rfl⟩ := hconnect
      exact .connect receiver
    · by_cases hstart : op = .startConnect ∧ c.main = .connected
      · obtain ⟨rfl, hmain⟩ := hstart
        exact .startConnect hmain
      · exact .other _ _ _ (uninvolved_operate c (fun receiver heq => hconnect ⟨receiver, heq⟩)
          fun heq hmain => hstart ⟨heq, hmain⟩)
  | «return» =>
    cases call <;> cases h
    exact .other _ _ _ ⟨.refl c, by simp, by simp⟩
  | buffered packet =>
    cases call <;> cases h
    exact .other _ _ _ (uninvolved_event c (.refl c) (by simp))
  | suspend =>
    cases call <;> cases h
    exact .other _ _ _ ⟨by constructor <;> rfl, by simp, by simp⟩
  | _ => cases call <;> cases h

/-! ## Timers and their regions -/

theorem timed_ne (wait : PendingWait) : wait.event ≠ .handshakeDone := by
  intro h
  have htimed := wait.timed
  rw [h] at htimed
  simp at htimed

/-- What the event loop delivers: the end of a wait, or nothing the cycles notice. -/
inductive CycleArrival (c : Client) : Action → Reaction → Prop
  | connectAndPingTimer (wait : PendingWait) (h : c.connectAndPingTimer = some wait) :
      CycleArrival c .connectAndPingTimer
        ({ c with connectAndPingTimer := none }.processEvent wait.event)
  | keepAliveTimer (wait : PendingWait) (h : c.keepAliveTimer = some wait) :
      CycleArrival c .keepAliveTimer ({ c with keepAliveTimer := none }.processEvent wait.event)
  | other (a : Action) (r : Reaction) (h : Uninvolved c r) : CycleArrival c a r

theorem arrive_cycle {c : Client} {a : Action} {r : Reaction} (h : c.arrive a = some r) :
    CycleArrival c a r := by
  cases a with
  | enter =>
    cases h
    exact .other _ _ ⟨.refl c, by simp [Established], by simp⟩
  | readValue | readDone =>
    simp only [Client.arrive, Option.ite_none_left_eq_some] at h
    obtain ⟨-, h⟩ := h
    cases h
    exact .other _ _ (uninvolved_event c (by constructor <;> rfl) (by simp))
  | writeValue i =>
    obtain ⟨write, -, rfl⟩ := Option.map_eq_some_iff.mp h
    have hsame : SameCycles c { c with pendingWrites := c.pendingWrites.eraseIdx i } := by
      constructor <;> rfl
    cases write.receiver with
    | message | puback => exact .other _ _ (uninvolved_event c hsame (by simp))
    | disconnect =>
      exact .other _ _ ⟨hsame, by simp [Client.writeCompleted, Client.close],
        by simp [Client.writeCompleted, Client.close, Establishing]⟩
    | disconnector =>
      refine .other _ _ ⟨hsame, ?_, ?_⟩
      · simp [Client.writeCompleted, Client.close, Reaction.andThen, Established]
      · simp [Client.writeCompleted, Client.close, Reaction.andThen, Establishing]
  | writeDone i =>
    obtain ⟨write, -, rfl⟩ := Option.map_eq_some_iff.mp h
    have hsame : SameCycles c { c with pendingWrites := c.pendingWrites.eraseIdx i } := by
      constructor <;> rfl
    cases write.receiver with
    | message => exact .other _ _ (uninvolved_event c hsame (by simp))
    | puback | disconnect =>
      exact .other _ _ ⟨hsame, by simp [Client.writeStopped], by simp [Client.writeStopped]⟩
    | disconnector =>
      exact .other _ _ ⟨hsame, by simp [Client.writeStopped, Established],
        by simp [Client.writeStopped]⟩
  | connectAndPingTimer =>
    obtain ⟨wait, hwait, rfl⟩ := Option.map_eq_some_iff.mp h
    exact .connectAndPingTimer wait hwait
  | keepAliveTimer =>
    obtain ⟨wait, hwait, rfl⟩ := Option.map_eq_some_iff.mp h
    exact .keepAliveTimer wait hwait
  | _ => cases h

/-- The turns of the region that pings. -/
inductive PingTurn (c : Client) : Event → Reaction → Prop
  | handshakeDone (h : c.ping = .idle) :
      PingTurn c .handshakeDone { c with ping := .waiting }.startPingTimer
  | disconnect (h : c.ping = .waiting) :
      PingTurn c .disconnect { state := { c with ping := .idle, connectAndPingTimer := none } }
  | pingTimeout (h : c.ping = .waiting) :
      PingTurn c .pingTimeout (c.sendPing.andThen (·.startPingTimer))
  | ignored (e : Event) (hidle : c.ping = .idle → e ≠ .handshakeDone)
      (hdisconnect : c.ping = .waiting → e ≠ .disconnect)
      (htimeout : c.ping = .waiting → e ≠ .pingTimeout) : PingTurn c e { state := c }

theorem dispatch_ping (c : Client) (e : Event) : PingTurn c e (c.dispatch e .ping) := by
  rw [Client.dispatch]
  cases hping : c.ping with
  | idle =>
    cases e with
    | handshakeDone => exact .handshakeDone hping
    | _ => exact .ignored _ (by simp) (by simp [hping]) (by simp [hping])
  | waiting =>
    have hself : { c with ping := .waiting } = c := by rw [← hping]
    cases e with
    | pingTimeout =>
      simp only [pingTable, hself]
      exact .pingTimeout hping
    | disconnect => exact .disconnect hping
    | _ => exact .ignored _ (by simp [hping]) (by simp) (by simp)

/-- The turns of the region that watches the server. -/
inductive KeepAliveTurn (c : Client) : Event → Reaction → Prop
  | handshakeDone (h : c.keepAlive = .idle) :
      KeepAliveTurn c .handshakeDone { c with keepAlive := .waiting }.startKeepAliveTimer
  | packet (p : ControlPacket) (h : c.keepAlive = .waiting) :
      KeepAliveTurn c (.packetReceived p) c.startKeepAliveTimer
  | keepAliveTimeout (h : c.keepAlive = .waiting) :
      KeepAliveTurn c .keepAliveTimeout { c with keepAlive := .idle }.close
  | disconnect (h : c.keepAlive = .waiting) :
      KeepAliveTurn c .disconnect { state := { c with keepAlive := .idle, keepAliveTimer := none } }
  | ignored (e : Event) (hidle : c.keepAlive = .idle → e ≠ .handshakeDone) :
      KeepAliveTurn c e { state := c }

theorem dispatch_keepAlive (c : Client) (e : Event) :
    KeepAliveTurn c e (c.dispatch e .keepAlive) := by
  rw [Client.dispatch]
  cases hkeepAlive : c.keepAlive with
  | idle =>
    cases e with
    | handshakeDone => exact .handshakeDone hkeepAlive
    | _ => exact .ignored _ (by simp)
  | waiting =>
    have hself : { c with keepAlive := .waiting } = c := by rw [← hkeepAlive]
    cases e with
    | packetReceived p =>
      simp only [keepAliveTable, hself]
      exact .packet p hkeepAlive
    | keepAliveTimeout => exact .keepAliveTimeout hkeepAlive
    | disconnect => exact .disconnect hkeepAlive
    | _ => exact .ignored _ (by simp [hkeepAlive])

/-- A member that the regions of the timers have no part in. -/
def Untimed {α : Type} (f : Client → α) : Prop :=
  ∀ (d : Client) ping keepAlive connectAndPingTimer keepAliveTimer pendingWrites,
    f { d with ping, keepAlive, connectAndPingTimer, keepAliveTimer, pendingWrites } = f d

theorem Untimed.dispatch_ping {α : Type} {f : Client → α} (hf : Untimed f) (c : Client) (e : Event) :
    f (c.dispatch e .ping).state = f c := by
  have htimer : ∀ d : Client, f d.startPingTimer.state = f d := by
    intro d
    rw [Client.startPingTimer]
    split
    · exact hf d d.ping d.keepAlive _ d.keepAliveTimer d.pendingWrites
    · rfl
  have hturn := ClientCycles.dispatch_ping c e
  generalize c.dispatch e .ping = r at hturn
  cases hturn with
  | handshakeDone =>
    exact (htimer _).trans (hf c .waiting c.keepAlive c.connectAndPingTimer c.keepAliveTimer _)
  | disconnect => exact hf c .idle c.keepAlive none c.keepAliveTimer c.pendingWrites
  | pingTimeout =>
    obtain ⟨pendingWrites, hsend⟩ := c.sendMessage_of_encodes encodes_pingreq
    rw [Client.sendPing, hsend, Reaction.andThen_of_not_threw rfl]
    exact (htimer _).trans (hf c c.ping c.keepAlive c.connectAndPingTimer c.keepAliveTimer _)
  | ignored => rfl

theorem Untimed.dispatch_keepAlive {α : Type} {f : Client → α} (hf : Untimed f) (c : Client)
    (e : Event) : f (c.dispatch e .keepAlive).state = f c := by
  have htimer : ∀ d : Client, f d.startKeepAliveTimer.state = f d := by
    intro d
    rw [Client.startKeepAliveTimer]
    split
    · exact hf d d.ping d.keepAlive d.connectAndPingTimer _ d.pendingWrites
    · rfl
  have hturn := ClientCycles.dispatch_keepAlive c e
  generalize c.dispatch e .keepAlive = r at hturn
  cases hturn with
  | handshakeDone =>
    exact (htimer _).trans (hf c c.ping .waiting c.connectAndPingTimer c.keepAliveTimer _)
  | packet => exact htimer c
  | keepAliveTimeout => exact hf c c.ping .idle c.connectAndPingTimer c.keepAliveTimer _
  | disconnect => exact hf c c.ping .idle c.connectAndPingTimer none _
  | ignored => rfl

/-- The transition from `start_handshake` arms the connect timer. -/
theorem anonymous_cycles {c : Client} (h : c.main = .startHandshake) :
    SameCycles { c with
      connectAndPingTimer := some { delay := 5, event := .disconnect }
      keepAliveUsed := c.connectOpts.keepAlive
      clientId := c.connectOpts.clientId } c.anonymous.state := by
  rw [Client.anonymous, if_pos h]
  apply Reaction.andThen_state
  · rw [Client.startConnectTimer, Reaction.andThen_of_not_threw rfl]
    apply SameCycles.trans _ (cycles_acts (exchanges_writer _ _ .message))
    constructor <;> rfl
  · exact fun d hd => hd

/-! ## Before the CONNACK -/

/-- A client that is not connected has neither cycle, and has called nobody back. -/
structure Unconnected (c : Config) : Prop where
  ping : c.state.ping = .idle
  keepAlive : c.state.keepAlive = .idle
  stack : ∀ call ∈ c.stack, ¬ Established call
  log : ∀ e ∈ c.log, ¬ Establishing e

theorem Unconnected.react {c : Config} (h : Unconnected c) {rest : List Call} {r : Reaction}
    (hping : r.state.ping = c.state.ping) (hkeepAlive : r.state.keepAlive = c.state.keepAlive)
    (hrest : ∀ call ∈ rest, ¬ Established call) (hcalls : ∀ call ∈ r.calls, ¬ Established call)
    (heffects : ∀ e ∈ r.effects, ¬ Establishing e) : Unconnected (client.react c rest r) where
  ping := hping.trans h.ping
  keepAlive := hkeepAlive.trans h.keepAlive
  stack call hcall := (Program.mem_react hcall).elim (hcalls call) (hrest call)
  log e he := (List.mem_append.mp he).elim (heffects e) (h.log e)

theorem Uninvolved.unconnected {c : Config} (h : Unconnected c) {rest : List Call} {r : Reaction}
    (hrest : ∀ call ∈ rest, ¬ Established call) (hr : Uninvolved c.state r) :
    Unconnected (client.react c rest r) :=
  h.react hr.same.ping hr.same.keepAlive hrest hr.calls hr.effects

theorem unconnected_arrive {c : Config} (hc : c.state.main ≠ .connected → Unconnected c) {a : Action}
    {r : Reaction} (hr : c.state.arrive a = some r)
    (hmain : (client.react c [] r).state.main ≠ .connected) :
    Unconnected (client.react c [] r) := by
  have hbefore := hc fun h => hmain ((Client.arrive_quiet hr).same.main.trans h)
  cases arrive_cycle hr with
  | connectAndPingTimer wait =>
    have hturn := uninvolved_event { c.state with connectAndPingTimer := none } (.refl _)
      (timed_ne wait)
    exact hbefore.react rfl rfl (by simp) hturn.calls hturn.effects
  | keepAliveTimer wait =>
    have hturn := uninvolved_event { c.state with keepAliveTimer := none } (.refl _)
      (timed_ne wait)
    exact hbefore.react rfl rfl (by simp) hturn.calls hturn.effects
  | other a r huninvolved => exact huninvolved.unconnected hbefore (by simp)

theorem unconnected_respond {c : Config} (hc : c.state.main ≠ .connected → Unconnected c)
    {call : Call} {rest : List Call} (hstack : c.stack = call :: rest) {a : Action} {r : Reaction}
    (hr : c.state.respond call a = some r)
    (hmain : (client.react c rest r).state.main ≠ .connected) :
    Unconnected (client.react c rest r) := by
  have hconnected : c.state.main ≠ .connected := fun h => hmain (respond_main hr h)
  have hbefore := hc hconnected
  have htop : ¬ Established call :=
    hbefore.stack call (by rw [hstack]; exact List.mem_cons_self)
  have hrest : ∀ call ∈ rest, ¬ Established call := fun call hcall =>
    hbefore.stack call (by rw [hstack]; exact List.mem_cons_of_mem _ hcall)
  cases respond_cycle hr with
  | connack p =>
    obtain ⟨keepAliveUsed, clientId, hack⟩ :=
      { c.state with main := .connected }.handleConnack_eq p
    rw [withEntry, hack] at hmain
    exact absurd rfl hmain
  | ping e =>
    have hturn := dispatch_ping c.state e
    generalize c.state.dispatch e .ping = r at hturn
    cases hturn with
    | handshakeDone => exact absurd trivial htop
    | disconnect h | pingTimeout h => cases hbefore.ping.symm.trans h
    | ignored => exact hbefore.react rfl rfl hrest (by simp) (by simp)
  | keepAlive e =>
    have hturn := dispatch_keepAlive c.state e
    generalize c.state.dispatch e .keepAlive = r at hturn
    cases hturn with
    | handshakeDone => exact absurd trivial htop
    | packet p h | keepAliveTimeout h | disconnect h => cases hbefore.keepAlive.symm.trans h
    | ignored => exact hbefore.react rfl rfl hrest (by simp) (by simp)
  | anonymous h =>
    have hsame := anonymous_cycles h
    obtain ⟨-, hcalls, heffects⟩ := Client.anonymous_same h
    apply hbefore.react hsame.ping hsame.keepAlive hrest
    · intro call hcall
      rw [hcalls call hcall]
      exact id
    · intro e he
      rw [heffects e he]
      exact id
  | notify | connector => exact absurd trivial htop
  | startConnect h => exact absurd h hconnected
  | connect receiver =>
    apply hbefore.react rfl rfl hrest
    · simp [Client.operateFrom, Client.operate, Established]
    · simp [Client.operateFrom, Client.operate]
  | other _ _ _ huninvolved => exact huninvolved.unconnected hbefore hrest

theorem unconnected_run {ok : Config → Action → Prop} {c : Config} (run : client.Run ok initial c) :
    c.state.main ≠ .connected → Unconnected c := by
  apply run.invariant (I := fun c => c.state.main ≠ .connected → Unconnected c)
  · intro
    exact ⟨rfl, rfl, by simp [initial], by simp [initial]⟩
  · exact fun c a r hc _ _ hr hmain => unconnected_arrive hc hr hmain
  · exact fun c a call rest r hc _ hstack hr hmain => unconnected_respond hc hstack hr hmain

end Mqtt5.ClientCycles
