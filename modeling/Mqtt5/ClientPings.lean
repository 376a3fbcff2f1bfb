import Mqtt5.ClientKeepAlive

/-!
# Pings, and the wait for the CONNACK

A ping is sent after half the keep alive, counted from the CONNACK or from the ping before. A
handshake that gets no CONNACK is given up after five seconds.
-/
namespace Mqtt5.ClientPings
open WirePrimitives WirePublish WireConnect WireControlPacket CallMachine TimedProgram
open ClientState ClientSession ClientActs ClientStream ClientCycles ClientTimers ClientClock
open ClientAlarms ClientKeepAlive
open WireSubscribe hiding TopicFilter

def IsPing (e : Effect) : Prop := ∃ receiver, e = .sent .pingreq receiver

/-- What the wait for a ping counts from. -/
def Beat (e : Effect) : Prop :=
  IsPing e ∨ ∃ p, e = .event (.packetReceived (.connack p)) .handshaking

/-! ## Who sends a ping -/

theorem sending_ne_ping {e : Effect} (h : e.Sending) : ¬ IsPing e := by
  rintro ⟨receiver, rfl⟩
  exact h

theorem receiving_ne_ping {e : Effect} (h : e.Receiving) : ¬ IsPing e := by
  rintro ⟨receiver, rfl⟩
  exact h

theorem requested_ne_ping {e : Effect} (h : Requested e) : ¬ IsPing e := by
  rcases h with h | ⟨reason, rfl⟩ | rfl
  · exact sending_ne_ping h
  · simp [IsPing]
  · simp [IsPing]

theorem main_ne_ping {c : Client} {e : Event} {r : Reaction} (h : c.MainTurn e r) :
    ∀ effect ∈ r.effects, ¬ IsPing effect := by
  intro effect he
  cases h with
  | packet p =>
    rcases c.handlePacket_side p with hside | hside
    · exact receiving_ne_ping (hside.effects effect he)
    · exact sending_ne_ping (hside.effects effect he)
  | pubackSent => exact receiving_ne_ping (c.handlePubackSent_receives.effects effect he)
  | connack p =>
    obtain ⟨_, _, hack⟩ := { c with main := .connected }.handleConnack_eq p
    rw [hack] at he
    cases he
  | handshake | ignored => cases he
  | disconnect =>
    rw [List.mem_singleton.mp he]
    simp [IsPing]

/-- The region that pings does, at the end of its wait. -/
theorem dispatch_pings {c : Client} {e : Event} {effect : Effect}
    (hmem : effect ∈ (c.dispatch e .ping).effects) :
    e = .pingTimeout ∧ c.ping = .waiting ∧ (c.dispatch e .ping).effects = [effect] := by
  have htimer : ∀ d : Client, d.startPingTimer.effects = [] := by
    intro d
    rw [Client.startPingTimer]
    split <;> rfl
  have hturn := dispatch_ping c e
  generalize c.dispatch e .ping = r at hturn hmem
  cases hturn with
  | handshakeDone =>
    rw [htimer] at hmem
    cases hmem
  | disconnect | ignored => cases hmem
  | pingTimeout hping =>
    obtain ⟨pendingWrites, hsend⟩ := c.sendMessage_of_encodes encodes_pingreq
    rw [Client.sendPing, hsend, Reaction.andThen_of_not_threw rfl] at hmem ⊢
    simp only [htimer, List.nil_append, List.mem_singleton] at hmem ⊢
    exact ⟨trivial, hping, by rw [hmem]⟩

/-- The calls that are neither handlers nor turns of that region. -/
theorem other_ne_ping {c : Client} {call : Call} {a : Action} {r : Reaction}
    (h : c.respond call a = some r) (hoperate : ∀ op, a ≠ .operate op)
    (hsend : call ≠ .maybeSendQueuedPublish) (hmain : ∀ e, call ≠ .dispatch .main e)
    (hping : ∀ e, call ≠ .dispatch .ping e) : ∀ e ∈ r.effects, ¬ IsPing e := by
  have hclosed : ¬ IsPing .closed := by simp [IsPing]
  cases a with
  | run =>
    cases call with
    | dispatch region e =>
      cases h
      cases region with
      | main => exact absurd rfl (hmain e)
      | ping => exact absurd rfl (hping e)
      | rx =>
        have hturn := dispatch_rx c e
        generalize c.dispatch e .rx = r at hturn
        cases hturn with
        | disconnect => exact List.forall_mem_singleton.mpr hclosed
        | handshake | packet | ignored => exact List.forall_mem_nil _
      | keepAlive =>
        have htimer : ∀ d : Client, d.startKeepAliveTimer.effects = [] := by
          intro d
          rw [Client.startKeepAliveTimer]
          split <;> rfl
        have hturn := dispatch_keepAlive c e
        generalize c.dispatch e .keepAlive = r at hturn
        cases hturn with
        | handshakeDone | packet =>
          rw [htimer]
          exact List.forall_mem_nil _
        | keepAliveTimeout => exact List.forall_mem_singleton.mpr hclosed
        | disconnect | ignored => exact List.forall_mem_nil _
    | anonymous =>
      cases h
      by_cases hstart : c.main = .startHandshake
      · intro e he
        rw [(Client.anonymous_same hstart).2.2 e he]
        simp [IsPing]
      · rw [Client.anonymous, if_neg hstart]
        exact List.forall_mem_nil _
    | maybeSendQueuedPublish => exact absurd rfl hsend
    | notifyConnectorReceivers | close | connectorReceiver | publishWaiter =>
      cases h
      simp [Client.notifyConnectorReceivers, Client.close, IsPing]
    | user | receiveOneMessage => cases h
  | operate op => exact absurd rfl (hoperate op)
  | «return» | buffered | suspend =>
    cases call <;> cases h
    exact List.forall_mem_nil _
  | _ => cases call <;> cases h

theorem respond_pings {c : Client} {call : Call} {a : Action} {r : Reaction}
    (h : c.respond call a = some r) {effect : Effect} (hmem : effect ∈ r.effects)
    (hping : IsPing effect) :
    call = .dispatch .ping .pingTimeout ∧ c.ping = .waiting ∧ r.effects = [effect] := by
  by_cases hcall : ∃ e, call = .dispatch .ping e
  · obtain ⟨e, rfl⟩ := hcall
    cases a <;> cases h
    obtain ⟨rfl, hwaiting, hall⟩ := dispatch_pings hmem
    exact ⟨rfl, hwaiting, hall⟩
  exfalso
  cases Client.respond_turn h with
  | main e r hturn =>
    rcases List.mem_append.mp hmem with hmem | hmem
    · exact main_ne_ping hturn effect hmem hping
    · rw [List.mem_singleton.mp hmem] at hping
      simp [IsPing] at hping
  | maybeSend => exact sending_ne_ping (c.maybeSend_sends.effects effect hmem) hping
  | operate op => exact requested_ne_ping (operate_effects c op effect hmem) hping
  | anonymous | close =>
    exact other_ne_ping h (by simp) (by simp) (by simp) (by simp) effect hmem hping
  | quiet _ _ _ hquiet hnot =>
    refine other_ne_ping h ?_ hnot.1 hnot.2.2 (fun e heq => hcall ⟨e, heq⟩) effect hmem hping
    rintro op rfl
    cases call <;> cases h
    exact requested_ne_ping (operate_effects c op effect hmem) hping

theorem arrive_ne_ping {c : Client} {a : Action} {r : Reaction} (h : c.arrive a = some r) :
    ∀ e ∈ r.effects, ¬ IsPing e := by
  cases a with
  | enter =>
    cases h
    exact List.forall_mem_nil _
  | readValue | readDone =>
    simp only [Client.arrive, Option.ite_none_left_eq_some] at h
    obtain ⟨-, h⟩ := h
    cases h
    exact List.forall_mem_nil _
  | writeValue i | writeDone i =>
    obtain ⟨write, -, rfl⟩ := Option.map_eq_some_iff.mp h
    cases write.receiver <;>
      simp [Client.writeCompleted, Client.writeStopped, Client.processEvent, Client.close,
        Reaction.andThen, IsPing]
  | connectAndPingTimer | keepAliveTimer =>
    obtain ⟨wait, -, rfl⟩ := Option.map_eq_some_iff.mp h
    exact List.forall_mem_nil _
  | _ => cases h

/-! ## Not too late -/

/-- The region's wait is due half the keep alive after the CONNACK or the ping before. -/
structure Beating (unit : ℕ) (v : Clocked) : Prop where
  opened : .dispatch .ping .handshakeDone ∈ v.config.stack → ∃ e, Beat e ∧ (v.now, e) ∈ v.past
  armed : v.config.state.ping = .waiting → 0 < v.config.state.keepAliveUsed → pings.Armed unit Beat v

theorem beating_arrive {unit : ℕ} {v : Clocked} (h : Beating unit v) (hstack : v.config.stack = [])
    {a : Action} {r : Reaction} (hr : v.config.state.arrive a = some r) :
    Beating unit (next client waits unit v a (client.react v.config [] r)) := by
  obtain ⟨-, hping, hused⟩ := arrive_regions hr
  constructor
  · intro hmem
    rcases Program.mem_react hmem with hmem | hmem
    · exact absurd hmem (arrive_handshakeDone hr _)
    · cases hmem
  · intro hwaiting hk
    exact Alarm.armed_arrive (h.armed (hping.symm.trans hwaiting) (hused ▸ hk)) hstack hr

theorem starts_no_ping {c : Client} {call : Call} (hmain : c.main = .connected)
    (hcall : ∀ e, call ≠ .dispatch .ping e) : starts c call .connectAndPing = none := by
  cases hstarts : starts c call .connectAndPing with
  | none => rfl
  | some wait =>
    cases starts_iff.mp hstarts with
    | connect hstart => cases hmain.symm.trans hstart
    | handshakeDonePing | pingTimeout => exact absurd rfl (hcall _)

/-- Only the region itself has a part in its timer. -/
theorem respond_pingTimer {c : Client} {call : Call} {a : Action} {r : Reaction}
    (h : c.respond call a = some r) (hmain : c.main = .connected)
    (hcall : ∀ e, call ≠ .dispatch .ping e) :
    r.state.connectAndPingTimer = c.connectAndPingTimer := by
  cases respond_cycle h with
  | connack _ hhandshaking => cases hmain.symm.trans hhandshaking
  | ping e => exact absurd rfl (hcall e)
  | keepAlive e => exact (dispatch_keepAlive_timer c e).2.2
  | anonymous hstart => cases hmain.symm.trans hstart
  | startConnect hmain =>
    rw [Client.operateFrom, operate_startConnect hmain]
    rfl
  | notify | connector | connect => rfl
  | other _ _ _ hother => exact hother.same.connectAndPingTimer

/-- The region that goes on waiting without a new wait keeps the old one. -/
theorem dispatch_ping_kept {c : Client} {e : Event} (hk : 0 < c.keepAliveUsed)
    (hstarts : starts c (.dispatch .ping e) .connectAndPing = none)
    (hwaiting : (c.dispatch e .ping).state.ping = .waiting) : e ≠ .pingTimeout ∧ c.ping = .waiting ∧
      (c.dispatch e .ping).state.connectAndPingTimer = c.connectAndPingTimer := by
  have hturn := dispatch_ping c e
  generalize c.dispatch e .ping = r at hturn hwaiting
  cases hturn with
  | handshakeDone hidle => cases hstarts.symm.trans (starts_iff.mpr (.handshakeDonePing hk hidle))
  | pingTimeout hping => cases hstarts.symm.trans (starts_iff.mpr (.pingTimeout hk hping))
  | disconnect => cases hwaiting
  | ignored _ _ _ htimeout => exact ⟨htimeout hwaiting, hwaiting, rfl⟩

theorem dispatch_ping_used (c : Client) (e : Event) :
    (c.dispatch e .ping).state.keepAliveUsed = c.keepAliveUsed :=
  Untimed.dispatch_ping (f := Client.keepAliveUsed) (fun _ _ _ _ _ _ => rfl) c e

theorem ping_now {c : Client} (hping : c.ping = .waiting) :
    .sent .pingreq .message ∈ (c.dispatch .pingTimeout .ping).effects := by
  obtain ⟨pendingWrites, hsend⟩ := { c with ping := .waiting }.sendMessage_of_encodes encodes_pingreq
  rw [Client.dispatch, hping]
  dsimp only [pingTable]
  rw [Client.sendPing, hsend, Reaction.andThen_of_not_threw rfl]
  simp

theorem beating_armed {unit : ℕ} {v : Clocked} (h : Beating unit v) (honce : AtOnce v.config.stack)
    (hidle : v.config.state.main ≠ .connected → v.config.state.ping = .idle)
    {call : Call} {rest : List Call} (hstack : v.config.stack = call :: rest) {a : Action}
    {r : Reaction} (hr : v.config.state.respond call a = some r)
    (hwaiting : r.state.ping = .waiting) (hk : 0 < r.state.keepAliveUsed) :
    pings.Armed unit Beat (next client waits unit v a (client.react v.config rest r)) := by
  by_cases hcall : ∃ e, call = .dispatch .ping e
  · obtain ⟨e, rfl⟩ := hcall
    have htop : .dispatch .ping e ∈ v.config.stack := by
      rw [hstack]
      exact List.mem_cons_self
    cases a <;> cases hr
    rw [dispatch_ping_used] at hk
    have hused := dispatch_ping_used v.config.state e
    cases hstarts : starts v.config.state (.dispatch .ping e) .connectAndPing with
    | none =>
      obtain ⟨hne, hbefore, htimer⟩ := dispatch_ping_kept hk hstarts hwaiting
      refine Alarm.armed_kept (h.armed hbefore hk) honce hstack rfl ?_ hused htimer hstarts
      simp [pings, pingWait, hne]
    | some wait =>
      have hstarted : wait = pingWait v.config.state ∧ ∃ effect, Beat effect ∧
          (v.now, effect) ∈ (next client waits unit v .run
            (client.react v.config rest (v.config.state.dispatch e .ping))).past := by
        rw [next_past]
        cases starts_iff.mp hstarts with
        | handshakeDonePing =>
          obtain ⟨effect, hbeat, hmem⟩ := h.opened htop
          exact ⟨rfl, effect, hbeat, List.mem_append_right _ hmem⟩
        | pingTimeout _ hping =>
          refine ⟨rfl, _, .inl ⟨.message, rfl⟩, List.mem_append_left _ ?_⟩
          exact List.mem_map.mpr ⟨_, ping_now hping, rfl⟩
      obtain ⟨rfl, effect, hbeat, hmem⟩ := hstarted
      exact Alarm.armed_starts hstack rfl hused hstarts hbeat hmem
  · have hother : ∀ e, call ≠ .dispatch .ping e := fun e heq => hcall ⟨e, heq⟩
    rw [respond_ping hr hother] at hwaiting
    have hconnected : v.config.state.main = .connected := by
      by_contra hmain
      cases (hidle hmain).symm.trans hwaiting
    have hused := respond_used hr hconnected
    exact Alarm.armed_kept (h.armed hwaiting (hused ▸ hk)) honce hstack hr (hother _) hused
      (respond_pingTimer hr hconnected hother) (starts_no_ping hconnected hother)

theorem beating_respond {unit : ℕ} {v : Clocked} (h : Beating unit v) (honce : AtOnce v.config.stack)
    (hidle : v.config.state.main ≠ .connected → v.config.state.ping = .idle)
    {call : Call} {rest : List Call} (hstack : v.config.stack = call :: rest) {a : Action}
    {r : Reaction} (hr : v.config.state.respond call a = some r) :
    Beating unit (next client waits unit v a (client.react v.config rest r)) := by
  constructor
  · intro hmem
    rcases Program.mem_react hmem with hmem | hmem
    · obtain ⟨p, hmain, rfl⟩ := respond_handshakeDone hr hmem
      exact ⟨_, .inr ⟨p, rfl⟩, (event_past hr rest).mpr (.inl ⟨rfl, rfl, hmain.symm⟩)⟩
    · obtain ⟨e, hbeat, hold⟩ := h.opened (by rw [hstack]; exact List.mem_cons_of_mem _ hmem)
      exact ⟨e, hbeat, List.mem_append_right _ hold⟩
  · exact beating_armed h honce hidle hstack hr

theorem beating_run {unit : ℕ} {ok : Config → Action → Prop} {v : Clocked}
    (run : ClockedRun unit ok clockedInitial v) : Beating unit v := by
  refine run.invariant (I := Beating unit) ⟨?_, ?_⟩ ?_ ?_ ?_
  · simp [clockedInitial, initial]
  · intro h
    cases h
  · exact fun v h hidle => ⟨by simp [hidle.1], h.armed⟩
  · exact fun v a r _ h _ _ hstack hr => beating_arrive h hstack hr
  · intro v a call rest r hrun h _ hstack hr
    have huntimed : client.Run ok initial v.config := hrun.untimed
    exact beating_respond h (atOnce_run huntimed)
      (fun hmain => (unconnected_run huntimed hmain).ping) hstack hr

/-! ## Not too early -/

/-- Every beat is half the keep alive before a time. -/
def Rested (unit : ℕ) (v : Clocked) (t : ℕ) : Prop :=
  ∀ s e, Beat e → (s, e) ∈ v.past → s + unit * (v.config.state.keepAliveUsed.toNat / 2) ≤ t

/-- The wait for a ping ends half the keep alive after every beat. -/
structure Steady (unit : ℕ) (v : Clocked) : Prop where
  timer : ∀ wait, v.config.state.connectAndPingTimer = some wait → wait.event = .pingTimeout →
    v.config.state.main = .connected ∧ 0 < v.config.state.keepAliveUsed ∧
      Rested unit v (v.due .connectAndPing)
  lapsed : ∀ region, .dispatch region .pingTimeout ∈ v.config.stack →
    v.config.state.main = .connected ∧
      (region = .ping → 0 < v.config.state.keepAliveUsed ∧ Rested unit v v.now)
  sent : ∀ t e, IsPing e → (t, e) ∈ v.past → v.config.state.main = .connected
  spaced : v.past.Pairwise (Spaced IsPing Beat (unit * (v.config.state.keepAliveUsed.toNat / 2)))

theorem beat_arrive {unit : ℕ} {v : Clocked} {a : Action} {r : Reaction}
    (hr : v.config.state.arrive a = some r) {t : ℕ} {e : Effect} (hbeat : Beat e)
    (hmem : (t, e) ∈ (next client waits unit v a (client.react v.config [] r)).past) :
    (t, e) ∈ v.past := by
  rw [next_past] at hmem
  rcases List.mem_append.mp hmem with hnew | hold
  · obtain ⟨effect, he, heq⟩ := List.mem_map.mp hnew
    cases heq
    rcases hbeat with hping | ⟨p, rfl⟩
    · exact absurd hping (arrive_ne_ping hr _ he)
    · exact absurd rfl (quiet_ne_event ((Client.arrive_quiet hr).effects _ he) _ _)
  · exact hold

theorem steady_arrive {unit : ℕ} {v : Clocked} (h : Steady unit v)
    (hawaits : ∀ t wait, pendingWait v.config.state t = some wait → Awaits t wait.event)
    (hstack : v.config.stack = []) {a : Action}
    (hdue : ∀ t, waits.ends a = some t → v.due t ≤ v.now) {r : Reaction}
    (hr : v.config.state.arrive a = some r) :
    Steady unit (next client waits unit v a (client.react v.config [] r)) := by
  have hused := (arrive_regions hr).2.2
  have hmain : r.state.main = v.config.state.main := (Client.arrive_quiet hr).same.main
  have hrested : ∀ t, Rested unit v t →
      Rested unit (next client waits unit v a (client.react v.config [] r)) t := by
    intro t h s e hbeat hs
    change s + unit * (r.state.keepAliveUsed.toNat / 2) ≤ t
    rw [hused]
    exact h s e hbeat (beat_arrive hr hbeat hs)
  constructor
  · intro wait hwait hevent
    rcases arrive_keeps hr .connectAndPing with hnone | hsame
    · cases hwait.symm.trans hnone
    · obtain ⟨hconnected, hk, hdue⟩ := h.timer wait (hsame.symm.trans hwait) hevent
      refine ⟨hmain.trans hconnected, hused ▸ hk, hrested _ ?_⟩
      rw [due_arrive hstack]
      exact hdue
  · intro region hmem
    rcases Program.mem_react hmem with hmem | hmem
    · obtain ⟨t, wait, hends, hwait, hevent, -⟩ := arrive_ends hr (.inl rfl) hmem
      have hfor := hawaits t wait hwait
      rw [hevent] at hfor
      cases t with
      | keepAlive => exact hfor.elim
      | connectAndPing =>
        obtain ⟨hconnected, hk, hbeats⟩ := h.timer wait hwait hevent
        have hends := hdue _ hends
        refine ⟨hmain.trans hconnected, fun _ => ⟨hused ▸ hk, hrested _ ?_⟩⟩
        exact fun s e hbeat hs => (hbeats s e hbeat hs).trans hends
    · cases hmem
  · exact fun t e hping hmem => hmain.trans (h.sent t e hping (beat_arrive hr (.inl hping) hmem))
  · change (next client waits unit v a (client.react v.config [] r)).past.Pairwise
      (Spaced IsPing Beat (unit * (r.state.keepAliveUsed.toNat / 2)))
    rw [hused]
    apply spaced_next h.spaced
    · exact List.pairwise_of_forall_mem_list fun x hx _ _ hlater =>
        absurd hlater (arrive_ne_ping hr x hx)
    · rintro ⟨x, hx, hlater⟩
      exact absurd hlater (arrive_ne_ping hr x hx)

/-- Before the CONNACK no ping is sent, and no wait is for one. -/
theorem steady_unconnected {unit : ℕ} {v : Clocked} (h : Steady unit v)
    (hmain : v.config.state.main ≠ .connected) (hun : Unconnected v.config)
    {call : Call} {rest : List Call} (hstack : v.config.stack = call :: rest) {a : Action}
    {r : Reaction} (hr : v.config.state.respond call a = some r) :
    Steady unit (next client waits unit v a (client.react v.config rest r)) := by
  have htop : ¬ Established call := hun.stack call (by rw [hstack]; exact List.mem_cons_self)
  have hsent : ∀ t e, IsPing e →
      (t, e) ∉ (next client waits unit v a (client.react v.config rest r)).past := by
    intro t e hping hmem
    rw [next_past] at hmem
    rcases List.mem_append.mp hmem with hnew | hold
    · obtain ⟨effect, he, heq⟩ := List.mem_map.mp hnew
      cases heq
      cases hun.ping.symm.trans (respond_pings hr he hping).2.1
    · exact hmain (h.sent t e hping hold)
  constructor
  · intro wait hwait hevent
    exfalso
    cases hstarts : starts v.config.state call .connectAndPing with
    | none =>
      rcases respond_keeps hr hstarts with hnone | hsame
      · cases hwait.symm.trans hnone
      · exact hmain (h.timer wait (hsame.symm.trans hwait) hevent).1
    | some started =>
      cases hwait.symm.trans (respond_starts hr hstarts).2
      cases starts_iff.mp hstarts with
      | connect => cases hevent
      | handshakeDonePing => exact htop trivial
      | pingTimeout _ hping => cases hun.ping.symm.trans hping
  · intro region hmem
    rcases Program.mem_react hmem with hmem | hmem
    · exact absurd hmem ((respond_raises hr).not_mem id)
    · exact absurd (h.lapsed region (by rw [hstack]; exact List.mem_cons_of_mem _ hmem)).1 hmain
  · exact fun t e hping hmem => absurd hmem (hsent t e hping)
  · apply List.pairwise_of_forall_mem_list
    rintro ⟨t, e⟩ hx _ _ hping
    exact absurd hx (hsent t e hping)

theorem steady_respond {unit : ℕ} {v : Clocked} (h : Steady unit v)
    (hmain : v.config.state.main = .connected) (honce : AtOnce v.config.stack)
    (hpast : ∀ e ∈ v.past, e.1 ≤ v.now)
    {call : Call} {rest : List Call} (hstack : v.config.stack = call :: rest) {a : Action}
    {r : Reaction} (hr : v.config.state.respond call a = some r) :
    Steady unit (next client waits unit v a (client.react v.config rest r)) := by
  have hused := respond_used hr hmain
  have hafter := respond_main hr hmain
  have htop : call ∈ v.config.stack := by
    rw [hstack]
    exact List.mem_cons_self
  rw [hstack] at honce
  -- a beat that is new is a ping
  have hbeats : ∀ t e, Beat e →
      (t, e) ∈ (next client waits unit v a (client.react v.config rest r)).past →
      (t, e) ∈ v.past ∨ t = v.now ∧ call = .dispatch .ping .pingTimeout ∧
        v.config.state.ping = .waiting := by
    intro t e hbeat hmem
    rw [next_past] at hmem
    rcases List.mem_append.mp hmem with hnew | hold
    · obtain ⟨effect, he, heq⟩ := List.mem_map.mp hnew
      cases heq
      rcases hbeat with hping | ⟨p, rfl⟩
      · obtain ⟨hcall, hwaiting, -⟩ := respond_pings hr he hping
        exact .inr ⟨rfl, hcall, hwaiting⟩
      · cases hmain.symm.trans ((respond_event hr).mp he).2.symm
    · exact .inl hold
  constructor
  · intro wait hwait hevent
    refine ⟨hafter, ?_⟩
    have hdue := due_respond unit hstack hr .connectAndPing
    cases hstarts : starts v.config.state call .connectAndPing with
    | some started =>
      rw [hstarts] at hdue
      have hstarted : 0 < v.config.state.keepAliveUsed ∧ started = pingWait v.config.state := by
        cases starts_iff.mp hstarts with
        | connect hstart => cases hmain.symm.trans hstart
        | handshakeDonePing hk | pingTimeout hk => exact ⟨hk, rfl⟩
      obtain ⟨hk, rfl⟩ := hstarted
      refine ⟨hused ▸ hk, fun s e hbeat hs => ?_⟩
      change s + unit * (r.state.keepAliveUsed.toNat / 2) ≤ _
      rw [hdue, hused]
      apply Nat.add_le_add_right
      rcases hbeats s e hbeat hs with hold | ⟨rfl, -⟩
      · exact hpast _ hold
      · exact Nat.le_refl _
    | none =>
      rw [hstarts] at hdue
      rcases respond_keeps hr hstarts with hnone | hsame
      · cases hwait.symm.trans hnone
      · obtain ⟨-, hk, hbefore⟩ := h.timer wait (hsame.symm.trans hwait) hevent
        refine ⟨hused ▸ hk, fun s e hbeat hs => ?_⟩
        change s + unit * (r.state.keepAliveUsed.toNat / 2) ≤ _
        rw [hdue, hused]
        rcases hbeats s e hbeat hs with hold | ⟨-, rfl, hwaiting⟩
        · exact hbefore s e hbeat hold
        · cases hstarts.symm.trans (starts_iff.mpr (.pingTimeout hk hwaiting))
  · intro region hmem
    have hbelow : .dispatch region .pingTimeout ∈ rest := by
      rcases Program.mem_react hmem with hmem | hmem
      · exact absurd hmem ((respond_raises hr).not_mem id)
      · exact hmem
    refine ⟨hafter, ?_⟩
    rintro rfl
    have hquick : Quick .pingTimeout := trivial
    obtain ⟨region, hne, rfl⟩ := honce.top hquick hbelow
    obtain ⟨hk, hrested⟩ := (h.lapsed .ping (by rw [hstack]; exact List.mem_cons_of_mem _ hbelow)).2 rfl
    refine ⟨hused ▸ hk, fun s e hbeat hs => ?_⟩
    change s + unit * (r.state.keepAliveUsed.toNat / 2) ≤ v.now
    rw [hused]
    refine hrested s e hbeat ((hbeats s e hbeat hs).resolve_right ?_)
    rintro ⟨-, heq, -⟩
    cases heq
    exact hne rfl
  · exact fun _ _ _ _ => hafter
  · change (next client waits unit v a (client.react v.config rest r)).past.Pairwise
      (Spaced IsPing Beat (unit * (r.state.keepAliveUsed.toNat / 2)))
    rw [hused]
    apply spaced_next h.spaced
    · by_cases hping : ∃ x ∈ r.effects, IsPing x
      · obtain ⟨x, hx, hping⟩ := hping
        rw [(respond_pings hr hx hping).2.2]
        exact List.pairwise_singleton _ _
      · exact List.pairwise_of_forall_mem_list fun x hx _ _ hlater => absurd ⟨x, hx, hlater⟩ hping
    · rintro ⟨x, hx, hping⟩ ⟨s, e⟩ hmem hbeat
      rw [(respond_pings hr hx hping).1] at htop
      exact ((h.lapsed .ping htop).2 rfl).2 s e hbeat hmem

theorem steady_run {unit : ℕ} {ok : Config → Action → Prop} {v : Clocked}
    (run : ClockedRun unit ok clockedInitial v) : Steady unit v := by
  refine run.invariant (I := Steady unit) ?_ ?_ ?_ ?_
  · refine ⟨?_, ?_, ?_, .nil⟩ <;> simp [clockedInitial, initial]
  · exact fun v h hidle => ⟨h.timer, by simp [hidle.1], h.sent, h.spaced⟩
  · intro v a r hrun h _ hdue hstack hr
    exact steady_arrive h (fun t wait => awaits_run hrun.untimed) hstack hdue hr
  · intro v a call rest r hrun h _ hstack hr
    have huntimed : client.Run ok initial v.config := hrun.untimed
    by_cases hmain : v.config.state.main = .connected
    · exact steady_respond h hmain (atOnce_run huntimed)
        (hrun.past_log rfl (by simp [clockedInitial])).2 hstack hr
    · exact steady_unconnected h hmain (unconnected_run huntimed hmain) hstack hr

/-- Pings are sent half the keep alive apart: never earlier after the CONNACK or the ping
before, and not later as long as the connection lasts. -/
theorem pings_are_regular {unit : ℕ} {ok : Config → Action → Prop} {v : Clocked}
    (run : ClockedRun unit ok clockedInitial v) :
    v.past.Pairwise (Spaced IsPing Beat (unit * (v.config.state.keepAliveUsed.toNat / 2))) ∧
      (v.config.stack = [] → v.config.state.isConnected = true → 0 < v.config.state.keepAliveUsed →
        .event .disconnect .connected ∉ v.config.log →
        ∃ t e, Beat e ∧ (t, e) ∈ v.past ∧
          v.now ≤ t + unit * (v.config.state.keepAliveUsed.toNat / 2)) := by
  refine ⟨(steady_run run).spaced, fun hstack hconnected hk hlog => ?_⟩
  have hwaiting : pings.Waiting v.config.state := by
    apply Alarm.waiting_of_rest run.untimed hstack hconnected
    rintro e rfl
    exact hlog
  rcases (beating_run run).armed hwaiting hk with hover | ⟨htimer, e, t, hbeat, hmem, hdue⟩
  · rw [hstack] at hover
    cases hover
  · have hle : v.now ≤ v.due .connectAndPing := onTime run htimer
    exact ⟨t, e, hbeat, hmem, hle.trans hdue.le⟩

/-- A ping after five seconds of a keep alive of ten, and no other in the next five. -/
theorem pings_are_regular_ten : ∃ v : Clocked, v.now = 10 ∧
    (5, .sent .pingreq .message) ∈ v.past ∧ v.past.Pairwise (Spaced IsPing Beat 5) ∧
    ∃ t e, Beat e ∧ (t, e) ∈ v.past ∧ v.now ≤ t + 5 := by
  have hsteps : (timedSteps client waits 1 ClientExceptions.connectsOnly clockedInitial watched).map
      (fun v => (v.now, v.config.stack, v.config.state.isConnected, v.config.state.keepAliveUsed,
        v.config.log.any lostConnection,
        decide ((5, Effect.sent .pingreq .message) ∈ v.past))) =
      some (10, [], true, 10, false, true) := by
    decide +kernel
  obtain ⟨v, hv, hfacts⟩ := Option.map_eq_some_iff.mp hsteps
  simp only [Prod.mk.injEq] at hfacts
  obtain ⟨hnow, hstack, hconnected, hused, hlog, hsent⟩ := hfacts
  obtain ⟨hspaced, hlate⟩ := pings_are_regular (TimedRun.of_timedSteps _ hv)
  have hbeat := hlate hstack hconnected (by rw [hused]; decide)
    fun hmem => absurd rfl (List.any_eq_false.mp hlog _ hmem)
  rw [hused] at hspaced hbeat
  exact ⟨v, hnow, of_decide_eq_true hsent, hspaced, hbeat⟩

/-! ## Waiting for the CONNACK -/

def IsConnect (e : Effect) : Prop := ∃ p receiver, e = .sent (.connect p) receiver

/-- A handshake has sent its CONNECT and waits for five seconds, or is about to be given up. -/
def Awaited (unit : ℕ) (v : Clocked) : Prop :=
  v.config.state.main = .handshaking →
    (∃ rest, v.config.stack = .dispatch .main .disconnect :: rest) ∨
      v.config.state.connectAndPingTimer ≠ none ∧
        ∃ t e, IsConnect e ∧ (t, e) ∈ v.past ∧ v.due .connectAndPing = t + unit * 5

theorem starts_no_connect {c : Client} {call : Call} (hmain : c.main = .handshaking)
    (hping : c.ping = .idle) (hcall : ¬ Established call) : starts c call .connectAndPing = none := by
  cases hstarts : starts c call .connectAndPing with
  | none => rfl
  | some wait =>
    cases starts_iff.mp hstarts with
    | connect hstart => cases hmain.symm.trans hstart
    | handshakeDonePing => exact absurd trivial hcall
    | pingTimeout _ hwaiting => cases hping.symm.trans hwaiting

theorem awaited_arrive {unit : ℕ} {v : Clocked} (h : Awaited unit v) (hstack : v.config.stack = [])
    {a : Action} {r : Reaction} (hr : v.config.state.arrive a = some r)
    (hwait : r.state.main ≠ .connected → ConnectWait (client.react v.config [] r)) :
    Awaited unit (next client waits unit v a (client.react v.config [] r)) := by
  intro hmain
  change r.state.main = .handshaking at hmain
  by_cases hnone : r.state.connectAndPingTimer = none
  · exact .inl ((hwait (by simp [hmain])).armed hmain hnone)
  · right
    have hbefore := (Client.arrive_quiet hr).same.main.symm.trans hmain
    rcases h hbefore with ⟨rest, htop⟩ | ⟨-, t, e, hconnect, hmem, hdue⟩
    · rw [hstack] at htop
      cases htop
    · refine ⟨hnone, t, e, hconnect, List.mem_append_right _ hmem, ?_⟩
      rw [due_arrive hstack]
      exact hdue

theorem awaited_respond {unit : ℕ} {v : Clocked} (h : Awaited unit v)
    (hun : v.config.state.main ≠ .connected → Unconnected v.config)
    (hencodes : Encodes (.connect (Client.connectMessage v.config.state.connectOpts)))
    {call : Call} {rest : List Call} (hstack : v.config.stack = call :: rest) {a : Action}
    {r : Reaction} (hr : v.config.state.respond call a = some r)
    (hwait : r.state.main ≠ .connected → ConnectWait (client.react v.config rest r)) :
    Awaited unit (next client waits unit v a (client.react v.config rest r)) := by
  intro hmain
  change r.state.main = .handshaking at hmain
  by_cases hnone : r.state.connectAndPingTimer = none
  · exact .inl ((hwait (by simp [hmain])).armed hmain hnone)
  right
  have hdue := due_respond unit hstack hr .connectAndPing
  rcases respond_handshaking hr hmain with ⟨hbefore, hcall⟩ | ⟨hstart, rfl⟩
  · have hbehind := hun (by simp [hbefore])
    rw [starts_no_connect hbefore hbehind.ping
      (hbehind.stack call (by rw [hstack]; exact List.mem_cons_self))] at hdue
    rcases h hbefore with ⟨after, htop⟩ | ⟨-, t, e, hconnect, hmem, hbefore⟩
    · rw [hstack] at htop
      injection htop with htop
      exact absurd htop hcall
    · exact ⟨hnone, t, e, hconnect, List.mem_append_right _ hmem, hdue.trans hbefore⟩
  · rw [starts_iff.mpr (.connect hstart)] at hdue
    obtain ⟨d, -, hsent⟩ := Client.anonymous_of_encodes hstart hencodes
    have hmem : (v.now, .sent (.connect (Client.connectMessage v.config.state.connectOpts)) .message) ∈
        (next client waits unit v a (client.react v.config rest r)).past := by
      cases a <;> cases hr
      rw [next_past, hsent]
      exact List.mem_cons_self
    exact ⟨hnone, v.now, _, ⟨_, _, rfl⟩, hmem, hdue⟩

theorem awaited_run {unit : ℕ} {ok : Config → Action → Prop} {v : Clocked}
    (run : ClockedRun unit ok clockedInitial v)
    (hok : ∀ c a, ok c a → ∀ op, a = .operate op → ClientExceptions.Encodable op) :
    Awaited unit v := by
  refine run.invariant (I := Awaited unit) ?_ ?_ ?_ ?_
  · intro h
    cases h
  · intro v h hidle hmain
    refine .inr ((h hmain).resolve_left ?_)
    simp [hidle.1]
  · intro v a r hrun h _ _ hstack hr
    have huntimed : client.Run ok initial v.config := hrun.untimed
    exact awaited_arrive h hstack hr fun hmain =>
      connectWait_arrive (connectWait_run huntimed) hstack hr hmain
  · intro v a call rest r hrun h _ hstack hr
    have huntimed : client.Run ok initial v.config := hrun.untimed
    exact awaited_respond h (unconnected_run huntimed)
      (ClientExceptions.ready_run huntimed hok).connect hstack hr fun hmain =>
        connectWait_respond (connectWait_run huntimed) (unconnected_run huntimed) hstack hr hmain

/-- A handshake that is not over has sent its CONNECT within the last five seconds. -/
theorem handshake_is_short {unit : ℕ} {ok : Config → Action → Prop} {v : Clocked}
    (run : ClockedRun unit ok clockedInitial v)
    (hok : ∀ c a, ok c a → ∀ op, a = .operate op → ClientExceptions.Encodable op)
    (hstack : v.config.stack = []) (hmain : v.config.state.main = .handshaking) :
    ∃ t e, IsConnect e ∧ (t, e) ∈ v.past ∧ v.now ≤ t + unit * 5 := by
  rcases awaited_run run hok hmain with ⟨rest, htop⟩ | ⟨hpending, t, e, hconnect, hmem, hdue⟩
  · rw [hstack] at htop
    cases htop
  · obtain ⟨wait, hwait⟩ := Option.ne_none_iff_exists'.mp hpending
    have hle : v.now ≤ v.due .connectAndPing := onTime (t := .connectAndPing) run hwait
    exact ⟨t, e, hconnect, hmem, hle.trans hdue.le⟩

/-- Nobody answers for five seconds. -/
theorem handshake_is_short_five : ∃ v : Clocked, v.now = 5 ∧
    v.config.state.main = .handshaking ∧ ∃ t e, IsConnect e ∧ (t, e) ∈ v.past ∧ v.now ≤ t + 5 := by
  have hsteps : (timedSteps client waits 1 ClientExceptions.connectsOnly clockedInitial
      (connectActions.map .act ++ List.replicate 5 .elapse)).map
        (fun v => (v.now, v.config.stack, v.config.state.main)) = some (5, [], .handshaking) := by
    decide +kernel
  obtain ⟨v, hv, hfacts⟩ := Option.map_eq_some_iff.mp hsteps
  simp only [Prod.mk.injEq] at hfacts
  obtain ⟨hnow, hstack, hmain⟩ := hfacts
  refine ⟨v, hnow, hmain, handshake_is_short (TimedRun.of_timedSteps _ hv) ?_ hstack hmain⟩
  rintro c a ha op rfl
  exact ClientExceptions.encodable_of_connectsOnly ha

/-! ## Time goes on -/

/-- Unless the keep alive is one second, the client lets any time pass when it is left alone:
its waits end, one after the other, and time goes on between them. -/
theorem time_goes_on {unit : ℕ} (hunit : 0 < unit) {v : Clocked} (h : Unhurried v.config) (n : ℕ) :
    ∃ w, ClockedRun unit (fun _ => free) v w ∧ w.now = v.now + n := by
  obtain ⟨w, run, -, hnow⟩ := lively.goes_on hunit h n
  exact ⟨w, run, hnow⟩

/-- The next hour of the client that pings. -/
theorem time_goes_on_hour : ∃ v w : Clocked, v.now = 10 ∧ v.config.state.ping = .waiting ∧
    ClockedRun 1 (fun _ => free) v w ∧ w.now = 3610 := by
  have hsteps : (timedSteps client waits 1 ClientExceptions.connectsOnly clockedInitial watched).map
      (fun v => (v.now, v.config.stack, v.config.state.ping, v.config.state.connectOpts.keepAlive,
        v.config.state.keepAliveUsed)) = some (10, [], .waiting, 0, 10) := by
    decide +kernel
  obtain ⟨v, -, hfacts⟩ := Option.map_eq_some_iff.mp hsteps
  simp only [Prod.mk.injEq] at hfacts
  obtain ⟨hnow, hstack, hping, hasked, hused⟩ := hfacts
  have hunhurried : Unhurried v.config :=
    ⟨by simp [hasked], by simp [hused], fun p hp => by simp [hstack] at hp⟩
  obtain ⟨w, run, hw⟩ := time_goes_on Nat.one_pos hunhurried 3600
  exact ⟨v, w, hnow, hping, run, by omega⟩

/-- The wait for a ping that has no delay is due at once. -/
theorem not_idle {unit : ℕ} {ok : Config → Action → Prop} {v : Clocked}
    (run : ClockedRun unit ok clockedInitial v) (hconnected : v.config.state.isConnected = true)
    (hk : v.config.state.keepAliveUsed = 1) (hlog : .event .disconnect .connected ∉ v.config.log) :
    ¬ Idle waits v := by
  rintro ⟨hstack, hidle⟩
  have hwaiting : pings.Waiting v.config.state := by
    apply Alarm.waiting_of_rest run.untimed hstack hconnected
    rintro e rfl
    exact hlog
  rcases (beating_run run).armed hwaiting (by rw [hk]; decide) with
    hover | ⟨htimer, e, t, -, hmem, hdue⟩
  · rw [hstack] at hover
    cases hover
  · have hpending : (waits.pending v.config.state .connectAndPing).isSome :=
      (congrArg (fun wait => (wait.map (·.delay)).isSome) htimer).trans rfl
    have hlater : v.now < v.due .connectAndPing := hidle .connectAndPing (by simp [waits]) hpending
    have hpast : t ≤ v.now := (run.past_log rfl (by simp [clockedInitial])).2 _ hmem
    have hnow : v.due .connectAndPing = t := by
      refine hdue.trans ?_
      simp [pings, pingWait, hk]
    omega

/-- A connected client stays so, with the keep alive that it has. -/
theorem connected_step {c d : Config} {a : Action} (h : client.step c a = some d)
    (hmain : c.state.main = .connected) : d.state.main = .connected ∧
      d.state.keepAliveUsed = c.state.keepAliveUsed ∧ c.log ⊆ d.log := by
  cases Program.step_stepped h with
  | arrive r _ hr =>
    exact ⟨(Client.arrive_quiet hr).same.main.trans hmain, (arrive_regions hr).2.2,
      List.subset_append_right _ _⟩
  | respond call rest r _ hr =>
    exact ⟨respond_main hr hmain, respond_used hr hmain, List.subset_append_right _ _⟩

/-- A keep alive of one second leaves no time between pings: the clock stands still until the
connection ends. -/
theorem clock_stands_still {unit : ℕ} {ok : Config → Action → Prop} {v w : Clocked}
    (run : ClockedRun unit ok clockedInitial v) (hconnected : v.config.state.isConnected = true)
    (hk : v.config.state.keepAliveUsed = 1) (further : ClockedRun unit ok v w)
    (hlog : .event .disconnect .connected ∉ w.config.log) : w.now = v.now := by
  have hlasts : w.config.state.main = .connected ∧ w.config.state.keepAliveUsed = 1 ∧
      (.event .disconnect .connected ∉ w.config.log → w.now = v.now) := by
    clear hlog
    induction further with
    | refl => exact ⟨of_decide_eq_true hconnected, hk, fun _ => rfl⟩
    | elapse further hidle ih =>
      obtain ⟨hmain, hused, -⟩ := ih
      refine ⟨hmain, hused, fun hlog => ?_⟩
      exact absurd hidle (not_idle (run.trans further) (decide_eq_true hmain) hused hlog)
    | act a _ _ _ hstep ih =>
      obtain ⟨hmain, hused, hnow⟩ := ih
      obtain ⟨hafter, hsame, hsub⟩ := connected_step hstep hmain
      exact ⟨hafter, hsame.trans hused, fun hlog => hnow fun hmem => hlog (hsub hmem)⟩
  exact hlasts.2.2 hlog

/-- The server asks for a keep alive of one second. -/
def oneSecond : Connack :=
  { flags := 0, reasonCode := 0, properties := { serverKeepAlive := 1 } }

/-- Three pings in one moment. -/
theorem clock_stands_still_pings : ∃ v w : Clocked,
    w.config.log.count (.sent .pingreq .message) = 3 ∧ w.now = v.now := by
  have hsteps : (timedSteps client waits 1 ClientExceptions.connectsOnly clockedInitial
      ((handshakeActions oneSecond ++ .run :: settleActions).map .act)).bind (fun v =>
        (timedSteps client waits 1 ClientExceptions.connectsOnly v
          ((List.replicate 3 (.connectAndPingTimer :: List.replicate 5 .run)).flatten.map .act)).map
            (fun w => (v.config.state.isConnected, v.config.state.keepAliveUsed,
              w.config.log.any lostConnection, w.config.log.count (.sent .pingreq .message)))) =
      some (true, 1, false, 3) := by
    decide +kernel
  obtain ⟨v, hv, hsteps⟩ := Option.bind_eq_some_iff.mp hsteps
  obtain ⟨w, hw, hfacts⟩ := Option.map_eq_some_iff.mp hsteps
  simp only [Prod.mk.injEq] at hfacts
  obtain ⟨hconnected, hk, hlog, hpings⟩ := hfacts
  refine ⟨v, w, hpings, ?_⟩
  apply clock_stands_still (TimedRun.of_timedSteps _ hv) hconnected hk (TimedRun.of_timedSteps _ hw)
  exact fun hmem => absurd rfl (List.any_eq_false.mp hlog _ hmem)

end Mqtt5.ClientPings
