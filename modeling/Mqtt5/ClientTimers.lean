import Mqtt5.ClientCycles

/-!
# The timer of the handshake and of the pings

One timer waits for the handshake to fail and, once connected, for the next ping. The first
wait is dropped only when the second is armed, which the negotiated keep alive decides.
-/
namespace Mqtt5.ClientTimers
open WirePrimitives WirePublish WireConnect WireControlPacket CallMachine ClientState ClientSession
open ClientActs ClientStream ClientCycles

/-- The keep alive in use once the CONNACK has been handled: the server's, or else the one
that the CONNECT asked for. -/
def negotiated (c : Client) (connack : Connack) : UInt16 :=
  if connack.properties.serverKeepAlive ≠ 0 then connack.properties.serverKeepAlive
  else c.keepAliveUsed

/-- The CONNACK's handler leaves the timers and their regions to `handshake_done_evt`. -/
theorem handleConnack_cycles (c : Client) (connack : Connack) :
    (c.handleConnack connack).state.keepAliveUsed = negotiated c connack ∧
      (c.handleConnack connack).state.ping = c.ping ∧
      (c.handleConnack connack).state.connectAndPingTimer = c.connectAndPingTimer := by
  unfold Client.handleConnack negotiated
  split <;> split <;> exact ⟨rfl, rfl, rfl⟩

/-- Once the region that pings has had its turn for `handshake_done_evt`, the timer waits for
a ping, after some time, and the end of a wait sends a PINGREQ and does nothing else. -/
structure OnlyPings (c : Config) : Prop where
  armed : .dispatch .ping .handshakeDone ∉ c.stack → ∀ wait,
    c.state.connectAndPingTimer = some wait → wait.event = .pingTimeout ∧ 0 < wait.delay
  expiry : ∀ d, client.step c .connectAndPingTimer = some d → ∃ e,
    client.stepsWhile (fun _ _ => true) d (List.replicate 5 .run) = some e ∧ e.stack = [] ∧
      e.log = .sent .pingreq .message :: .event .pingTimeout .connected :: c.log

/-! ## Before the CONNACK -/

/-- The main region is handshaking after a turn that left it so, or began it. -/
theorem respond_handshaking {c : Client} {call : Call} {a : Action} {r : Reaction}
    (h : c.respond call a = some r) (hmain : r.state.main = .handshaking) :
    c.main = .handshaking ∧ call ≠ .dispatch .main .disconnect ∨
      c.main = .startHandshake ∧ call = .anonymous := by
  have hmove := respond_move h
  rw [hmain] at hmove
  generalize c.main = main at hmove
  cases hmove with
  | stay _ _ _ htop => exact .inl ⟨rfl, htop rfl⟩
  | anonymous => exact .inr ⟨rfl, rfl⟩

/-- The timer waits to end the handshake, or has done so. -/
structure ConnectWait (c : Config) : Prop where
  event : ∀ wait, c.state.connectAndPingTimer = some wait → wait.event = .disconnect
  armed : c.state.main = .handshaking → c.state.connectAndPingTimer = none →
    ∃ rest, c.stack = .dispatch .main .disconnect :: rest

theorem ConnectWait.react {c : Config} (h : ConnectWait c) {call : Call} {rest : List Call}
    (hstack : c.stack = call :: rest) {a : Action} {r : Reaction}
    (hr : client.respond c.state call a = some r)
    (hcall : c.state.main = .startHandshake → call ≠ .anonymous)
    (htimer : r.state.connectAndPingTimer = c.state.connectAndPingTimer) :
    ConnectWait (client.react c rest r) where
  event wait hwait := h.event wait (htimer.symm.trans hwait)
  armed hmain hnone := by
    rcases respond_handshaking hr hmain with ⟨hbefore, htop⟩ | ⟨hstart, hanonymous⟩
    · obtain ⟨after, hafter⟩ := h.armed hbefore (htimer.symm.trans hnone)
      rw [hstack] at hafter
      injection hafter with hafter
      exact absurd hafter htop
    · exact absurd hanonymous (hcall hstart)

theorem dispatch_keepAlive_timer (c : Client) (e : Event) :
    (c.dispatch e .keepAlive).state.keepAliveUsed = c.keepAliveUsed ∧
      (c.dispatch e .keepAlive).state.ping = c.ping ∧
      (c.dispatch e .keepAlive).state.connectAndPingTimer = c.connectAndPingTimer := by
  have hstart : ∀ d : Client, d.startKeepAliveTimer.state.keepAliveUsed = d.keepAliveUsed ∧
      d.startKeepAliveTimer.state.ping = d.ping ∧
      d.startKeepAliveTimer.state.connectAndPingTimer = d.connectAndPingTimer := by
    intro d
    rw [Client.startKeepAliveTimer]
    split <;> exact ⟨rfl, rfl, rfl⟩
  have hturn := dispatch_keepAlive c e
  generalize c.dispatch e .keepAlive = r at hturn
  cases hturn with
  | handshakeDone | packet => exact hstart _
  | keepAliveTimeout | disconnect | ignored => exact ⟨rfl, rfl, rfl⟩

/-- Starting the handshake arms the timer. -/
theorem connectWait_anonymous {c : Config} (h : c.state.main = .startHandshake) {rest : List Call}
    {a : Action} {r : Reaction} (hr : client.respond c.state .anonymous a = some r) :
    ConnectWait (client.react c rest r) := by
  cases a <;> cases hr
  have htimer := (anonymous_cycles h).connectAndPingTimer
  constructor
  · intro wait hwait
    cases htimer.symm.trans hwait
    rfl
  · intro _ hnone
    cases htimer.symm.trans hnone

theorem connectWait_arrive {c : Config} (hc : c.state.main ≠ .connected → ConnectWait c)
    (hstack : c.stack = []) {a : Action} {r : Reaction} (hr : c.state.arrive a = some r)
    (hmain : (client.react c [] r).state.main ≠ .connected) :
    ConnectWait (client.react c [] r) := by
  have hquiet := Client.arrive_quiet hr
  have hbefore := hc fun h => hmain (hquiet.same.main.trans h)
  have hempty : c.state.main = .handshaking → c.state.connectAndPingTimer ≠ none := by
    intro hhandshaking hnone
    obtain ⟨rest, hrest⟩ := hbefore.armed hhandshaking hnone
    rw [hstack] at hrest
    cases hrest
  cases arrive_cycle hr with
  | connectAndPingTimer wait hwait =>
    have hevent := hbefore.event wait hwait
    constructor
    · intro wait hnone
      cases hnone
    · intro _ _
      rw [Program.react_of_not_threw rfl, hevent]
      exact ⟨_, rfl⟩
  | keepAliveTimer wait =>
    exact ⟨hbefore.event, fun hhandshaking hnone => absurd hnone (hempty hhandshaking)⟩
  | other a r huninvolved =>
    have htimer := huninvolved.same.connectAndPingTimer
    refine ⟨fun wait hwait => hbefore.event wait (htimer.symm.trans hwait), fun hhandshaking hnone => ?_⟩
    exact absurd (htimer.symm.trans hnone) (hempty (hquiet.same.main.symm.trans hhandshaking))

theorem connectWait_respond {c : Config} (hc : c.state.main ≠ .connected → ConnectWait c)
    (hbehind : c.state.main ≠ .connected → Unconnected c) {call : Call} {rest : List Call}
    (hstack : c.stack = call :: rest) {a : Action} {r : Reaction}
    (hr : client.respond c.state call a = some r)
    (hmain : (client.react c rest r).state.main ≠ .connected) :
    ConnectWait (client.react c rest r) := by
  have hconnected : c.state.main ≠ .connected := fun h => hmain (respond_main hr h)
  have hbefore := hc hconnected
  have hunconnected := hbehind hconnected
  have htop := hunconnected.stack call (by rw [hstack]; exact List.mem_cons_self)
  by_cases hstart : c.state.main = .startHandshake ∧ call = .anonymous
  · obtain ⟨hstart, rfl⟩ := hstart
    exact connectWait_anonymous hstart hr
  have hcall : c.state.main = .startHandshake → call ≠ .anonymous := fun h h' => hstart ⟨h, h'⟩
  cases respond_cycle hr with
  | connack p =>
    obtain ⟨_, _, hack⟩ := { c.state with main := .connected }.handleConnack_eq p
    rw [withEntry, hack] at hmain
    exact absurd rfl hmain
  | ping e =>
    have htimer : (c.state.dispatch e .ping).state.connectAndPingTimer =
        c.state.connectAndPingTimer := by
      have hturn := dispatch_ping c.state e
      generalize c.state.dispatch e .ping = r at hturn
      cases hturn with
      | handshakeDone => exact absurd trivial htop
      | disconnect h | pingTimeout h => cases hunconnected.ping.symm.trans h
      | ignored => rfl
    exact hbefore.react hstack hr hcall htimer
  | keepAlive e =>
    exact hbefore.react hstack hr hcall (dispatch_keepAlive_timer c.state e).2.2
  | anonymous h => exact absurd rfl (hcall h)
  | notify | connector => exact absurd trivial htop
  | startConnect h => exact absurd h hconnected
  | connect receiver => exact hbefore.react hstack hr hcall rfl
  | other _ _ _ huninvolved =>
    exact hbefore.react hstack hr hcall huninvolved.same.connectAndPingTimer

theorem connectWait_run {ok : Config → Action → Prop} {c : Config} (run : client.Run ok initial c) :
    c.state.main ≠ .connected → ConnectWait c := by
  have hassumed := run.assume (J := fun c => c.state.main ≠ .connected → Unconnected c)
    fun d hd => unconnected_run hd
  apply hassumed.invariant (I := fun c => c.state.main ≠ .connected → ConnectWait c)
  · intro
    constructor
    · intro wait hwait
      cases hwait
    · intro hmain
      cases hmain
  · exact fun c a r hc _ hstack hr hmain => connectWait_arrive hc hstack hr hmain
  · exact fun c a call rest r hc hok hstack hr hmain =>
      connectWait_respond hc hok.2 hstack hr hmain

/-! ## From the CONNACK on -/

/-- The region that pings has had its turn for `handshake_done_evt`. -/
structure Settled (seconds : UInt16) (c : Config) : Prop where
  keepAliveUsed : c.state.keepAliveUsed = seconds
  stack : .dispatch .ping .handshakeDone ∉ c.stack
  wait : ∀ wait, c.state.connectAndPingTimer = some wait → c.state.ping = .waiting ∧
    wait.event = .pingTimeout ∧ wait.delay = seconds.toNat / 2

/-- The turn is still to come, and two regions that ignore the event may be before it. -/
structure Settling (seconds : UInt16) (c : Config) : Prop where
  keepAliveUsed : c.state.keepAliveUsed = seconds
  ping : c.state.ping = .idle
  stack : ∃ before after, c.stack = before ++ .dispatch .ping .handshakeDone :: after ∧
    before <:+ [.dispatch .main .handshakeDone, .dispatch .rx .handshakeDone] ∧
    .dispatch .ping .handshakeDone ∉ after

variable {seconds : UInt16}

theorem Settled.react {c : Config} (h : Settled seconds c) {call : Call} {rest : List Call}
    (hstack : c.stack = call :: rest) {r : Reaction}
    (hcalls : .dispatch .ping .handshakeDone ∉ r.calls)
    (hkeep : r.state.keepAliveUsed = c.state.keepAliveUsed)
    (hping : r.state.ping = c.state.ping)
    (htimer : r.state.connectAndPingTimer = c.state.connectAndPingTimer) :
    Settled seconds (client.react c rest r) where
  keepAliveUsed := hkeep.trans h.keepAliveUsed
  stack hmem := by
    have hbefore := h.stack
    rw [hstack] at hbefore
    exact (Program.mem_react hmem).elim hcalls fun hrest => hbefore (List.mem_cons_of_mem _ hrest)
  wait wait hwait := by
    change r.state.connectAndPingTimer = some wait at hwait
    rw [htimer] at hwait
    obtain ⟨hwaiting, hevent⟩ := h.wait wait hwait
    exact ⟨hping.trans hwaiting, hevent⟩

theorem startPingTimer_state {c : Client} (h : c.keepAliveUsed > 0) :
    c.startPingTimer = { state := { c with
      connectAndPingTimer := some { delay := c.keepAliveUsed.toNat / 2, event := .pingTimeout } } } := by
  rw [Client.startPingTimer, if_pos h]

/-- A ping is sent, and the timer waits for the next one. -/
theorem sendPing_eq {c : Client} (h : c.keepAliveUsed > 0) : ∃ pendingWrites : List PendingWrite,
    c.sendPing.andThen (·.startPingTimer) =
      { state := { c with
          pendingWrites
          connectAndPingTimer :=
            some { delay := c.keepAliveUsed.toNat / 2, event := .pingTimeout } }
        effects := [.sent .pingreq .message] } := by
  obtain ⟨pendingWrites, hsend⟩ := c.sendMessage_of_encodes encodes_pingreq
  have hstart := startPingTimer_state (c := { c with pendingWrites }) h
  rw [Client.sendPing, hsend, Reaction.andThen_of_not_threw rfl]
  dsimp only
  rw [hstart]
  exact ⟨pendingWrites, rfl⟩

/-- The region's own turn, whatever came before it. -/
theorem settled_armed {d : Client} {stack : List Call} {log : List Effect} (hd : d.ping = .waiting)
    (hkeep : d.keepAliveUsed = seconds)
    (htimer : d.connectAndPingTimer =
      some { delay := seconds.toNat / 2, event := .pingTimeout })
    (hstack : .dispatch .ping .handshakeDone ∉ stack) : Settled seconds ⟨d, stack, log⟩ where
  keepAliveUsed := hkeep
  stack := hstack
  wait wait hwait := by
    cases htimer.symm.trans hwait
    exact ⟨hd, rfl, rfl⟩

theorem settled_ping {c : Config} (h : Settled seconds c) (hpos : seconds > 0)
    {e : Event} {rest : List Call} (hstack : c.stack = .dispatch .ping e :: rest) {r : Reaction}
    (hturn : PingTurn c.state e r) : Settled seconds (client.react c rest r) := by
  have hrest : .dispatch .ping .handshakeDone ∉ rest := fun hmem =>
    h.stack (by rw [hstack]; exact List.mem_cons_of_mem _ hmem)
  cases hturn with
  | handshakeDone => exact absurd (by rw [hstack]; exact List.mem_cons_self) h.stack
  | disconnect =>
    constructor
    · exact h.keepAliveUsed
    · exact hrest
    · intro wait hwait
      cases hwait
  | pingTimeout hwaiting =>
    have hkeep := h.keepAliveUsed
    obtain ⟨pendingWrites, hping⟩ := sendPing_eq (c := c.state) (by rw [hkeep]; exact hpos)
    rw [hping, Program.react_of_not_threw rfl]
    exact settled_armed hwaiting hkeep (by rw [← hkeep]) hrest
  | ignored => exact h.react hstack (by simp) rfl rfl rfl

theorem settled_respond {c : Config} (h : Settled seconds c) (hpos : seconds > 0)
    (hmain : c.state.main = .connected) {call : Call} {rest : List Call}
    (hstack : c.stack = call :: rest) {a : Action} {r : Reaction}
    (hr : client.respond c.state call a = some r) : Settled seconds (client.react c rest r) := by
  cases respond_cycle hr with
  | connack p hhandshaking => cases hmain.symm.trans hhandshaking
  | ping e => exact settled_ping h hpos hstack (dispatch_ping c.state e)
  | keepAlive e =>
    obtain ⟨hkeep, hping, htimer⟩ := dispatch_keepAlive_timer c.state e
    exact h.react hstack (by simp [dispatch_keepAlive_calls]) hkeep hping htimer
  | anonymous hstart => cases hmain.symm.trans hstart
  | notify success => exact h.react hstack (by simp [Client.notifyConnectorReceivers]) rfl rfl rfl
  | connector => exact h.react hstack (by simp) rfl rfl rfl
  | startConnect =>
    rw [Client.operateFrom, operate_startConnect hmain]
    exact h.react hstack (by simp [Client.notifyConnectorReceivers]) rfl rfl rfl
  | connect => exact h.react hstack (by simp [Client.operateFrom, Client.operate]) rfl rfl rfl
  | other _ _ _ huninvolved =>
    have hsame := huninvolved.same
    refine h.react hstack ?_ hsame.keepAliveUsed hsame.ping hsame.connectAndPingTimer
    exact fun hmem => huninvolved.calls _ hmem trivial

theorem settled_arrive {c : Config} (h : Settled seconds c) {a : Action} {r : Reaction}
    (hr : c.state.arrive a = some r) : Settled seconds (client.react c [] r) := by
  have hcalls : .dispatch .ping .handshakeDone ∉ r.calls → .dispatch .ping .handshakeDone ∉
      (client.react c [] r).stack := by
    intro hcalls hmem
    exact (Program.mem_react hmem).elim hcalls List.not_mem_nil
  have htimed : ∀ (d : Client) (wait : PendingWait),
      .dispatch .ping .handshakeDone ∉ (d.processEvent wait.event).calls := by
    intro d wait hmem
    exact (uninvolved_event d (.refl d) (timed_ne wait)).calls _ hmem trivial
  cases arrive_cycle hr with
  | connectAndPingTimer wait =>
    refine ⟨h.keepAliveUsed, hcalls (htimed _ wait), ?_⟩
    intro wait hwait
    cases hwait
  | keepAliveTimer wait => exact ⟨h.keepAliveUsed, hcalls (htimed _ wait), h.wait⟩
  | other _ _ huninvolved =>
    have hsame := huninvolved.same
    refine ⟨hsame.keepAliveUsed.trans h.keepAliveUsed, ?_, ?_⟩
    · exact hcalls fun hmem => huninvolved.calls _ hmem trivial
    · intro wait hwait
      change r.state.connectAndPingTimer = some wait at hwait
      rw [hsame.connectAndPingTimer] at hwait
      obtain ⟨hwaiting, hevent⟩ := h.wait wait hwait
      exact ⟨hsame.ping.trans hwaiting, hevent⟩

/-- The calls of `handshake_done_evt` are made in their order. -/
theorem settling_respond {c : Config} (h : Settling seconds c) (hpos : seconds > 0)
    (hmain : c.state.main = .connected) {call : Call} {rest : List Call}
    (hstack : c.stack = call :: rest) {a : Action} {r : Reaction}
    (hr : client.respond c.state call a = some r) :
    Settled seconds (client.react c rest r) ∨ Settling seconds (client.react c rest r) := by
  obtain ⟨before, after, hafter, hbefore, hnot⟩ := h.stack
  rw [hstack] at hafter
  simp only [List.suffix_cons_iff, List.suffix_nil] at hbefore
  rcases hbefore with rfl | rfl | rfl
  · injection hafter with hcall hrest
    subst hcall hrest
    have hignored : r = { state := c.state, effects := [.event .handshakeDone .connected] } := by
      cases a <;> cases hr
      rw [Client.dispatch, Reaction.andThen_of_not_threw rfl]
      simp [hmain, mainTable]
    rw [hignored]
    exact .inr ⟨h.keepAliveUsed, h.ping, _, _, rfl, by simp, hnot⟩
  · injection hafter with hcall hrest
    subst hcall hrest
    have hturn := respond_rx hr
    cases hturn with
    | ignored => exact .inr ⟨h.keepAliveUsed, h.ping, _, _, rfl, by simp, hnot⟩
  · injection hafter with hcall hrest
    subst hcall hrest
    cases a <;> cases hr
    have hturn := dispatch_ping c.state .handshakeDone
    change Settled _ (client.react c rest (c.state.dispatch .handshakeDone .ping)) ∨ _
    generalize c.state.dispatch .handshakeDone .ping = r at hturn
    cases hturn with
    | handshakeDone =>
      have hkeep := h.keepAliveUsed
      rw [startPingTimer_state (c := { c.state with ping := .waiting }) (by rw [hkeep]; exact hpos)]
      exact .inl (settled_armed rfl hkeep (by rw [← hkeep]) hnot)
    | ignored _ hidle => exact absurd rfl (hidle h.ping)

theorem settled_run {ok : Config → Action → Prop} {c d : Config} (run : client.Run ok c d)
    (hpos : seconds > 0) (hmain : c.state.main = .connected)
    (h : Settling seconds c) : Settled seconds d ∨ Settling seconds d := by
  have hassumed := run.assume (J := fun c => c.state.main = .connected)
    fun d hd => connected_run hd hmain
  refine hassumed.invariant (I := fun c => Settled seconds c ∨ Settling seconds c)
    (.inr h) ?_ ?_
  · intro c a r hc _ hstack hr
    rcases hc with hc | hc
    · exact .inl (settled_arrive hc hr)
    · obtain ⟨before, after, hafter, -⟩ := hc.stack
      rw [hstack] at hafter
      cases before <;> cases hafter
  · intro c a call rest r hc hok hstack hr
    rcases hc with hc | hc
    · exact .inl (settled_respond hc hpos hok.2 hstack hr)
    · exact settling_respond hc hpos hok.2 hstack hr

/-! ## Expiry -/

theorem stepsWhile_run {c : Client} {call : Call} {rest : List Call} {log : List Effect}
    {r : Reaction} (hr : client.respond c call .run = some r) (hthrew : r.threw = false) (n : ℕ) :
    client.stepsWhile (fun _ _ => true) ⟨c, call :: rest, log⟩ (List.replicate (n + 1) .run) =
      client.stepsWhile (fun _ _ => true) ⟨r.state, r.calls ++ rest, r.effects ++ log⟩
        (List.replicate n .run) := by
  rw [List.replicate_succ, Program.stepsWhile, if_pos rfl, Program.step]
  dsimp only
  rw [hr, Option.map_some, Option.bind_some, Program.react_of_not_threw hthrew]

theorem respond_dispatch {c : Client} {region : Region} {e : Event} {r : Reaction}
    (h : c.dispatch e region = r) : client.respond c (.dispatch region e) .run = some r :=
  congrArg some h

/-- The events that only the region that pings and the one that keeps alive look at. -/
theorem dispatch_unnoticed {c : Client} (hmain : c.main = .connected) {e : Event}
    (he : e = .handshakeDone ∨ e = .pingTimeout) :
    c.dispatch e .main = { state := c, effects := [.event e .connected] } ∧
      c.dispatch e .rx = { state := c } := by
  constructor
  · rw [Client.dispatch, Reaction.andThen_of_not_threw rfl]
    rcases he with rfl | rfl <;> simp [hmain, mainTable]
  · have hturn := dispatch_rx c e
    generalize c.dispatch e .rx = r at hturn ⊢
    cases hturn with
    | handshake | packet | disconnect => simp at he
    | ignored => rfl

/-- Such an event on its way to the region that pings. -/
theorem stepsWhile_ping {c : Client} (hmain : c.main = .connected) {e : Event}
    (he : e = .handshakeDone ∨ e = .pingTimeout) {r : Reaction} (hr : c.dispatch e .ping = r)
    (hthrew : r.threw = false) (after : List Call) (log : List Effect) (n : ℕ) :
    client.stepsWhile (fun _ _ => true)
        ⟨c, .dispatch .main e :: .dispatch .rx e :: .dispatch .ping e :: after, log⟩
        (List.replicate (n + 3) .run) =
      client.stepsWhile (fun _ _ => true)
        ⟨r.state, r.calls ++ after, r.effects ++ .event e .connected :: log⟩
        (List.replicate n .run) := by
  obtain ⟨hmainTurn, hrxTurn⟩ := dispatch_unnoticed hmain he
  rw [stepsWhile_run (respond_dispatch hmainTurn) rfl]
  dsimp only [List.nil_append]
  rw [stepsWhile_run (respond_dispatch hrxTurn) rfl]
  dsimp only [List.nil_append]
  rw [stepsWhile_run (respond_dispatch hr) hthrew]
  rfl

/-- What the end of a wait for a ping leads to. -/
theorem stepsWhile_pingTimeout {c : Client} (hmain : c.main = .connected)
    (hping : c.ping = .waiting) (hpos : c.keepAliveUsed > 0) (log : List Effect) : ∃ e,
    client.stepsWhile (fun _ _ => true) ⟨c, broughtToAll .pingTimeout, log⟩
        (List.replicate 5 .run) = some e ∧ e.stack = [] ∧
      e.log = .sent .pingreq .message :: .event .pingTimeout .connected :: log := by
  obtain ⟨d, hconnected, hsent⟩ : ∃ d : Client, d.main = .connected ∧
      c.sendPing.andThen (·.startPingTimer) =
        { state := d, effects := [.sent .pingreq .message] } := by
    obtain ⟨pendingWrites, hsent⟩ := sendPing_eq hpos
    refine ⟨_, ?_, hsent⟩
    exact hmain
  have hdispatch : c.dispatch .pingTimeout .ping = c.sendPing.andThen (·.startPingTimer) := by
    have hturn := dispatch_ping c .pingTimeout
    generalize c.dispatch .pingTimeout .ping = r at hturn ⊢
    cases hturn with
    | pingTimeout => rfl
    | ignored _ _ _ htimeout => exact absurd rfl (htimeout hping)
  rw [hsent] at hdispatch
  rw [broughtToAll, stepsWhile_ping hmain (.inr rfl) hdispatch rfl]
  dsimp only [List.nil_append]
  -- What is left ignores the event.
  have hkeepAlive : d.dispatch .pingTimeout .keepAlive = { state := d } := by
    have hturn := dispatch_keepAlive d .pingTimeout
    generalize d.dispatch .pingTimeout .keepAlive = r at hturn ⊢
    cases hturn with
    | ignored => rfl
  have hanonymous : client.respond d .anonymous .run = some { state := d } := by
    change some d.anonymous = _
    rw [Client.anonymous, if_neg (by simp [hconnected])]
  rw [stepsWhile_run (respond_dispatch hkeepAlive) rfl]
  dsimp only [List.nil_append]
  rw [stepsWhile_run hanonymous rfl]
  exact ⟨_, rfl, rfl, rfl⟩

theorem onlyPings_of_settled {c : Config} (h : Settled seconds c) (hseconds : 1 < seconds)
    (hmain : c.state.main = .connected) : OnlyPings c := by
  have htwo : 2 ≤ seconds.toNat := UInt16.lt_iff_toNat_lt.mp hseconds
  constructor
  · intro _ wait hwait
    obtain ⟨-, hevent, hdelay⟩ := h.wait wait hwait
    exact ⟨hevent, by omega⟩
  · intro d hstep
    cases Program.step_stepped hstep with
    | arrive r hstack hr =>
      obtain ⟨wait, hwait, rfl⟩ := Option.map_eq_some_iff.mp hr
      obtain ⟨hping, hevent, -⟩ := h.wait wait hwait
      have hpos : c.state.keepAliveUsed > 0 := by
        rw [h.keepAliveUsed]
        exact UInt16.lt_iff_toNat_lt.mpr (by change 0 < _; omega)
      rw [hevent]
      exact stepsWhile_pingTimeout (c := { c.state with connectAndPingTimer := none }) hmain hping
        hpos c.log
    | respond call rest r hstack hr => cases call <;> cases hr

theorem onlyPings_of_settling {c : Config} (h : Settling seconds c) : OnlyPings c := by
  obtain ⟨before, after, hstack, -⟩ := h.stack
  constructor
  · intro hmem
    rw [hstack] at hmem
    simp at hmem
  · intro d hstep
    cases Program.step_stepped hstep with
    | arrive r hempty =>
      rw [hstack] at hempty
      cases before <;> cases hempty
    | respond call rest r _ hr => cases call <;> cases hr

/-! ## Every run from the CONNACK on -/

section Handled
variable {c : Config} {rest : List Call} {connack : Connack}

variable (rest connack) in
/-- What the handler of the CONNACK leaves behind. -/
theorem handled_eq (hmain : c.state.main = .handshaking) : ∃ d : Client,
    client.react c rest (c.state.dispatch (.packetReceived (.connack connack)) .main) =
      ⟨d, broughtToAll .handshakeDone ++ .notifyConnectorReceivers true :: rest,
        .event (.packetReceived (.connack connack)) .handshaking :: c.log⟩ ∧
      d.main = .connected ∧ d.keepAliveUsed = negotiated c.state connack ∧
      d.ping = c.state.ping ∧ d.connectAndPingTimer = c.state.connectAndPingTimer := by
  obtain ⟨hkeep, hping, htimer⟩ := handleConnack_cycles { c.state with main := .connected } connack
  obtain ⟨_, _, hack⟩ := { c.state with main := .connected }.handleConnack_eq connack
  rw [hack] at hkeep hping htimer
  rw [dispatch_connack hmain, withEntry, hack, Program.react_of_not_threw rfl]
  exact ⟨_, rfl, rfl, hkeep, hping, htimer⟩

theorem rest_unconnected (run : client.Run (fun _ _ => True) initial c)
    (hmain : c.state.main = .handshaking)
    (hstack : c.stack = .dispatch .main (.packetReceived (.connack connack)) :: rest) :
    c.state.ping = .idle ∧ .dispatch .ping .handshakeDone ∉ rest := by
  have hunconnected := unconnected_run run (by simp [hmain])
  refine ⟨hunconnected.ping, fun hmem => hunconnected.stack (.dispatch .ping .handshakeDone) ?_ trivial⟩
  rw [hstack]
  exact List.mem_cons_of_mem _ hmem

theorem settling_handled (run : client.Run (fun _ _ => True) initial c)
    (hmain : c.state.main = .handshaking)
    (hstack : c.stack = .dispatch .main (.packetReceived (.connack connack)) :: rest) :
    Settling (negotiated c.state connack) (client.react c rest
      (c.state.dispatch (.packetReceived (.connack connack)) .main)) := by
  obtain ⟨hidle, hrest⟩ := rest_unconnected run hmain hstack
  obtain ⟨d, hd, -, hkeep, hping, -⟩ := handled_eq rest connack hmain
  rw [hd]
  refine ⟨hkeep, hping.trans hidle, ?_⟩
  exact ⟨_, _, rfl, List.suffix_rfl, by simp [hrest]⟩

/-- With a keep alive of zero or one, the turn that should drop the first wait leaves it, or
arms one without delay. -/
theorem not_onlyPings (run : client.Run (fun _ _ => True) initial c)
    (hmain : c.state.main = .handshaking)
    (hstack : c.stack = .dispatch .main (.packetReceived (.connack connack)) :: rest)
    (h : ¬ 1 < negotiated c.state connack) : ∃ d, client.Run (fun _ _ => True)
      (client.react c rest (c.state.dispatch (.packetReceived (.connack connack)) .main)) d ∧
      ¬ OnlyPings d := by
  obtain ⟨hidle, hrest⟩ := rest_unconnected run hmain hstack
  obtain ⟨d, hd, hconnected, hkeep, hping, htimer⟩ := handled_eq rest connack hmain
  have hdispatch : d.dispatch .handshakeDone .ping = { d with ping := .waiting }.startPingTimer := by
    have hturn := dispatch_ping d .handshakeDone
    generalize d.dispatch .handshakeDone .ping = r at hturn ⊢
    cases hturn with
    | handshakeDone => rfl
    | ignored _ h => exact absurd rfl (h (hping.trans hidle))
  have hconnect := connectWait_run run (by simp [hmain])
  obtain ⟨wait, hwait⟩ : ∃ wait, c.state.connectAndPingTimer = some wait := by
    rw [← Option.ne_none_iff_exists']
    intro hnone
    obtain ⟨after, hafter⟩ := hconnect.armed hmain hnone
    rw [hstack] at hafter
    cases hafter
  rw [hd, broughtToAll]
  by_cases hpos : d.keepAliveUsed > 0
  · rw [startPingTimer_state (c := { d with ping := .waiting }) hpos] at hdispatch
    have hsteps := stepsWhile_ping hconnected (.inl rfl) hdispatch rfl
      (.dispatch .keepAlive .handshakeDone :: .anonymous :: .notifyConnectorReceivers true :: rest)
      (.event (.packetReceived (.connack connack)) .handshaking :: c.log) 0
    refine ⟨_, (Program.Run.of_stepsWhile _ hsteps).mono fun _ _ _ => trivial, fun hpings => ?_⟩
    obtain ⟨-, hdelay⟩ := hpings.armed (by simp [hrest]) _ rfl
    rw [← hkeep] at h
    have hone : ¬ 1 < d.keepAliveUsed.toNat := fun hlt => h (UInt16.lt_iff_toNat_lt.mpr hlt)
    change 0 < d.keepAliveUsed.toNat / 2 at hdelay
    omega
  · rw [Client.startPingTimer, if_neg hpos] at hdispatch
    have hsteps := stepsWhile_ping hconnected (.inl rfl) hdispatch rfl
      (.dispatch .keepAlive .handshakeDone :: .anonymous :: .notifyConnectorReceivers true :: rest)
      (.event (.packetReceived (.connack connack)) .handshaking :: c.log) 0
    refine ⟨_, (Program.Run.of_stepsWhile _ hsteps).mono fun _ _ _ => trivial, fun hpings => ?_⟩
    obtain ⟨hevent, -⟩ := hpings.armed (by simp [hrest]) wait (htimer.trans hwait)
    cases hevent.symm.trans (hconnect.event wait hwait)

/-- After a CONNACK the timer serves pings only, in every run, if and only if the keep alive
that was negotiated is more than one second. -/
theorem handshake_timer_dropped_iff (run : client.Run (fun _ _ => True) initial c)
    (hmain : c.state.main = .handshaking)
    (hstack : c.stack = .dispatch .main (.packetReceived (.connack connack)) :: rest) :
    (∀ d, client.Run (fun _ _ => True) (client.react c rest
        (c.state.dispatch (.packetReceived (.connack connack)) .main)) d → OnlyPings d) ↔
      1 < negotiated c.state connack := by
  constructor
  · intro h
    by_contra hnegotiated
    obtain ⟨d, hd, hnot⟩ := not_onlyPings run hmain hstack hnegotiated
    exact hnot (h d hd)
  · intro hnegotiated d hd
    have hsettling := settling_handled run hmain hstack
    obtain ⟨e, he, hconnected, -⟩ := handled_eq rest connack hmain
    rw [he] at hd hsettling
    have hpos : negotiated c.state connack > 0 := by
      have hlt := UInt16.lt_iff_toNat_lt.mp hnegotiated
      exact UInt16.lt_iff_toNat_lt.mpr (Nat.zero_lt_of_lt hlt)
    rcases settled_run hd hpos hconnected hsettling with hsettled | hsettling
    · exact onlyPings_of_settled hsettled hnegotiated (connected_run hd hconnected)
    · exact onlyPings_of_settling hsettling

end Handled

/-- A CONNACK that accepts, with a keep alive of the server's. -/
def accepting (serverKeepAlive : UInt16) : Connack where
  flags := 0
  reasonCode := 0
  properties := { serverKeepAlive }

/-- A server that keeps the connection for a minute. -/
theorem handshake_timer_dropped_sixty : ∃ d,
    client.Run (fun _ _ => True) (openedConfig (accepting 60)) d ∧
      d.state.connectAndPingTimer = some { delay := 30, event := .pingTimeout } ∧ OnlyPings d := by
  have hsteps : ∃ c, client.stepsWhile (fun _ _ => true) initial
      (handshakeActions (accepting 60)) = some c := ⟨_, rfl⟩
  have hsettles : ∃ d, client.stepsWhile (fun _ _ => true) (openedConfig (accepting 60))
      settleActions = some d ∧
        d.state.connectAndPingTimer = some { delay := 30, event := .pingTimeout } := ⟨_, rfl, rfl⟩
  obtain ⟨c, hc⟩ := hsteps
  obtain ⟨d, hd, hwait⟩ := hsettles
  have run : client.Run (fun _ _ => True) initial c :=
    (Program.Run.of_stepsWhile _ hc).mono fun _ _ _ => trivial
  have settles : client.Run (fun _ _ => True) (openedConfig (accepting 60)) d :=
    (Program.Run.of_stepsWhile _ hd).mono fun _ _ _ => trivial
  cases hc
  exact ⟨d, settles, hwait,
    (handshake_timer_dropped_iff run rfl rfl).mpr (by decide +kernel) d settles⟩

/-- Without a keep alive the wait for the handshake ends an established session; with one of a
second, the wait for the next ping takes no time. -/
theorem handshake_timeout_ends_session :
    (¬ ∀ d, client.Run (fun _ _ => True) (openedConfig (accepting 0)) d → OnlyPings d) ∧
    (client.stepsWhile (fun _ _ => true) (openedConfig (accepting 0))
      (settleActions ++ [.connectAndPingTimer, .run, .run])).map
        (fun c => (c.state.main, c.state.rx, c.log.take 2)) =
      some (.connected, .idle, [.closed, .event .disconnect .connected]) ∧
    (client.stepsWhile (fun _ _ => true) (openedConfig (accepting 1)) settleActions).map
        (fun c => (c.stack, c.state.connectAndPingTimer)) =
      some ([], some { delay := 0, event := .pingTimeout }) := by
  refine ⟨?_, by decide +kernel, by decide +kernel⟩
  intro hpings
  have hsteps : (client.stepsWhile (fun _ _ => true) (openedConfig (accepting 0)) settleActions).map
      (fun c => (c.stack, c.state.connectAndPingTimer)) =
      some ([], some { delay := 5, event := .disconnect }) := by decide +kernel
  obtain ⟨d, hd, hwait⟩ := Option.map_eq_some_iff.mp hsteps
  injection hwait with hstack htimer
  have run : client.Run (fun _ _ => True) (openedConfig (accepting 0)) d :=
    (Program.Run.of_stepsWhile _ hd).mono fun _ _ _ => trivial
  cases ((hpings d run).armed (by simp [hstack]) _ htimer).1

end Mqtt5.ClientTimers
