import Mqtt5.ClientClock
import Mqtt5.ClientConnection

/-!
# Regions that wait

The region that pings and the one that watches the server wait on a timer from the CONNACK on,
each until an event of its own ends this. What they have in common is proved here once.
-/
namespace Mqtt5.ClientAlarms
open WirePrimitives WirePublish WireConnect WireControlPacket CallMachine TimedProgram
open ClientState ClientSession ClientActs ClientStream ClientCycles ClientTimers ClientClock
open WireSubscribe hiding TopicFilter

/-- A region with its timer: the wait it starts, when it is waiting, and the events that end
this. -/
structure Alarm where
  region : Region
  timer : Timer
  wait : Client → PendingWait
  Waiting : Client → Prop
  Ends : Event → Prop
  region_ne : region ≠ .main
  wait_used : ∀ {c d : Client}, d.keepAliveUsed = c.keepAliveUsed → wait d = wait c
  lapsed : ∀ c, Quick (wait c).event
  quick : ∀ {e}, Ends e → Quick e ∧ ¬ Nested e
  begins : ∀ c : Client, Waiting (c.dispatch .handshakeDone region).state
  stays : ∀ {c : Client} {e}, Waiting c → ¬ Ends e → Waiting (c.dispatch e region).state
  apart : ∀ {c : Client} {call a r}, c.respond call a = some r →
    (∀ e, call ≠ .dispatch region e) → (Waiting r.state ↔ Waiting c)
  arrives : ∀ {c : Client} {a r}, c.arrive a = some r → (Waiting r.state ↔ Waiting c)

/-! ## The region that watches the server -/

theorem startPingTimer_keepAlive (c : Client) : c.startPingTimer.state.keepAlive = c.keepAlive ∧
    c.startPingTimer.state.keepAliveTimer = c.keepAliveTimer := by
  rw [Client.startPingTimer]
  split <;> exact ⟨rfl, rfl⟩

theorem startKeepAliveTimer_regions (c : Client) :
    c.startKeepAliveTimer.state.keepAlive = c.keepAlive ∧
      c.startKeepAliveTimer.state.ping = c.ping := by
  rw [Client.startKeepAliveTimer]
  split <;> exact ⟨rfl, rfl⟩

theorem startPingTimer_ping (c : Client) : c.startPingTimer.state.ping = c.ping := by
  rw [Client.startPingTimer]
  split <;> rfl

/-- Only the region itself has a part in its state and in its timer. -/
theorem respond_keepAlive {c : Client} {call : Call} {a : Action} {r : Reaction}
    (h : c.respond call a = some r) (hcall : ∀ e, call ≠ .dispatch .keepAlive e) :
    r.state.keepAlive = c.keepAlive ∧ r.state.keepAliveTimer = c.keepAliveTimer := by
  cases respond_cycle h with
  | connack p =>
    obtain ⟨_, _, hack⟩ := { c with main := .connected }.handleConnack_eq p
    rw [withEntry, hack]
    exact ⟨rfl, rfl⟩
  | ping e =>
    have hturn := dispatch_ping c e
    generalize c.dispatch e .ping = r at hturn
    cases hturn with
    | handshakeDone => exact startPingTimer_keepAlive _
    | pingTimeout =>
      obtain ⟨pendingWrites, hsent⟩ := sendPing_state c
      rw [hsent]
      exact startPingTimer_keepAlive _
    | disconnect | ignored => exact ⟨rfl, rfl⟩
  | keepAlive e => exact absurd rfl (hcall e)
  | anonymous hmain =>
    exact ⟨(anonymous_cycles hmain).keepAlive, (anonymous_cycles hmain).keepAliveTimer⟩
  | startConnect hmain =>
    rw [Client.operateFrom, operate_startConnect hmain]
    exact ⟨rfl, rfl⟩
  | notify | connector | connect => exact ⟨rfl, rfl⟩
  | other _ _ _ hother => exact ⟨hother.same.keepAlive, hother.same.keepAliveTimer⟩

/-- The event loop has no part in the regions. -/
theorem arrive_regions {c : Client} {a : Action} {r : Reaction} (h : c.arrive a = some r) :
    r.state.keepAlive = c.keepAlive ∧ r.state.ping = c.ping ∧
      r.state.keepAliveUsed = c.keepAliveUsed := by
  cases arrive_cycle h with
  | connectAndPingTimer | keepAliveTimer => exact ⟨rfl, rfl, rfl⟩
  | other _ _ hother => exact ⟨hother.same.keepAlive, hother.same.ping, hother.same.keepAliveUsed⟩

def EndsWatch (e : Event) : Prop := e = .disconnect ∨ e = .keepAliveTimeout

theorem dispatch_waiting {c : Client} (h : c.keepAlive = .waiting) {e : Event} (he : ¬ EndsWatch e) :
    (c.dispatch e .keepAlive).state.keepAlive = .waiting := by
  have hturn := dispatch_keepAlive c e
  generalize c.dispatch e .keepAlive = r at hturn
  cases hturn with
  | handshakeDone hidle => cases h.symm.trans hidle
  | packet => exact (startKeepAliveTimer_regions c).1.trans h
  | keepAliveTimeout => exact absurd (.inr rfl) he
  | disconnect => exact absurd (.inl rfl) he
  | ignored => exact h

def watch : Alarm where
  region := .keepAlive
  timer := .keepAlive
  wait := keepAliveWait
  Waiting c := c.keepAlive = .waiting
  Ends := EndsWatch
  region_ne := by simp
  wait_used h := by rw [keepAliveWait, keepAliveWait, h]
  lapsed _ := trivial
  quick h := by rcases h with rfl | rfl <;> exact ⟨trivial, id⟩
  begins c := by
    cases hkeepAlive : c.keepAlive with
    | idle =>
      rw [Client.dispatch, hkeepAlive]
      exact (startKeepAliveTimer_regions _).1
    | waiting => exact dispatch_waiting hkeepAlive (by simp [EndsWatch])
  stays h he := dispatch_waiting h he
  apart h hcall := by rw [(respond_keepAlive h hcall).1]
  arrives h := by rw [(arrive_regions h).1]

/-! ## The region that pings -/

theorem respond_ping {c : Client} {call : Call} {a : Action} {r : Reaction}
    (h : c.respond call a = some r) (hcall : ∀ e, call ≠ .dispatch .ping e) :
    r.state.ping = c.ping := by
  cases respond_cycle h with
  | connack p =>
    obtain ⟨_, _, hack⟩ := { c with main := .connected }.handleConnack_eq p
    rw [withEntry, hack]
  | ping e => exact absurd rfl (hcall e)
  | keepAlive e =>
    have hturn := dispatch_keepAlive c e
    generalize c.dispatch e .keepAlive = r at hturn
    cases hturn with
    | handshakeDone | packet => exact (startKeepAliveTimer_regions _).2
    | keepAliveTimeout | disconnect | ignored => rfl
  | anonymous hmain => exact (anonymous_cycles hmain).ping
  | startConnect hmain =>
    rw [Client.operateFrom, operate_startConnect hmain]
    rfl
  | notify | connector | connect => rfl
  | other _ _ _ hother => exact hother.same.ping

theorem dispatch_pinging {c : Client} (h : c.ping = .waiting) {e : Event} (he : e ≠ .disconnect) :
    (c.dispatch e .ping).state.ping = .waiting := by
  have hturn := dispatch_ping c e
  generalize c.dispatch e .ping = r at hturn
  cases hturn with
  | handshakeDone hidle => cases h.symm.trans hidle
  | disconnect => exact absurd rfl he
  | pingTimeout =>
    obtain ⟨pendingWrites, hsent⟩ := sendPing_state c
    rw [hsent]
    exact (startPingTimer_ping _).trans h
  | ignored => exact h

def pings : Alarm where
  region := .ping
  timer := .connectAndPing
  wait := pingWait
  Waiting c := c.ping = .waiting
  Ends e := e = .disconnect
  region_ne := by simp
  wait_used h := by rw [pingWait, pingWait, h]
  lapsed _ := trivial
  quick h := by
    rw [h]
    exact ⟨trivial, id⟩
  begins c := by
    cases hping : c.ping with
    | idle =>
      rw [Client.dispatch, hping]
      exact startPingTimer_ping _
    | waiting => exact dispatch_pinging hping (by simp)
  stays h he := dispatch_pinging h he
  apart h hcall := by rw [respond_ping h hcall]
  arrives h := by rw [(arrive_regions h).2.1]

/-! ## While the client is connected -/

/-- The keep alive in use is settled by the CONNACK. -/
theorem respond_used {c : Client} {call : Call} {a : Action} {r : Reaction}
    (h : c.respond call a = some r) (hmain : c.main = .connected) :
    r.state.keepAliveUsed = c.keepAliveUsed := by
  rcases respond_keepAliveUsed h with hsame | ⟨hstart, -⟩ | ⟨p, hhandshaking, -⟩
  · exact hsame
  · cases hmain.symm.trans hstart
  · cases hmain.symm.trans hhandshaking

/-- The CONNACK that connects is followed by the end of the handshake. -/
theorem respond_connects {c : Client} {call : Call} {a : Action} {r : Reaction}
    (hr : c.respond call a = some r) (hbefore : c.main ≠ .connected)
    (hafter : r.state.main = .connected) : ∃ p, c.main = .handshaking ∧
      call = .dispatch .main (.packetReceived (.connack p)) ∧ r.threw = false ∧
      r.calls = broughtToAll .handshakeDone ++ [.notifyConnectorReceivers true] := by
  have hmove := respond_move hr
  rw [hafter] at hmove
  generalize hmain : c.main = main at hmove
  cases hmove with
  | stay => exact absurd hmain hbefore
  | connack p =>
    cases hr
    obtain ⟨_, _, hack⟩ := { c with main := .connected }.handleConnack_eq p
    refine ⟨p, rfl, rfl, ?_⟩
    rw [dispatch_connack hmain, withEntry, hack]
    exact ⟨rfl, rfl⟩

/-- The event loop does not raise the end of the handshake. -/
theorem arrive_handshakeDone {c : Client} {a : Action} {r : Reaction} (h : c.arrive a = some r)
    (region : Region) : .dispatch region .handshakeDone ∉ r.calls := by
  intro hmem
  cases arrive_cycle h with
  | connectAndPingTimer wait => exact timed_ne wait (mem_broughtToAll hmem).symm
  | keepAliveTimer wait => exact timed_ne wait (mem_broughtToAll hmem).symm
  | other _ _ hother => exact hother.calls _ hmem trivial

/-- Nothing but the CONNACK does. -/
theorem respond_handshakeDone {c : Client} {call : Call} {a : Action} {r : Reaction}
    (h : c.respond call a = some r) {region : Region}
    (hmem : .dispatch region .handshakeDone ∈ r.calls) : ∃ p, c.main = .handshaking ∧
      call = .dispatch .main (.packetReceived (.connack p)) := by
  cases respond_cycle h with
  | connack p hmain => exact ⟨p, hmain, rfl⟩
  | ping e =>
    rw [dispatch_ping_calls] at hmem
    cases hmem
  | keepAlive e =>
    rw [dispatch_keepAlive_calls] at hmem
    cases hmem
  | anonymous hmain => cases (Client.anonymous_same hmain).2.1 _ hmem
  | notify success => simp [Client.notifyConnectorReceivers] at hmem
  | connector => simp at hmem
  | startConnect hmain =>
    rw [Client.operateFrom, operate_startConnect hmain] at hmem
    simp [Client.notifyConnectorReceivers] at hmem
  | connect => simp [Client.operateFrom, Client.operate] at hmem
  | other _ _ _ hother => exact absurd trivial (hother.calls _ hmem)

theorem dispatch_mem_broughtToAll (region : Region) (e : Event) :
    .dispatch region e ∈ broughtToAll e := by
  cases region <;> simp [broughtToAll]

/-- A timer whose wait does not last has raised its event. -/
theorem arrive_ended {c : Client} {a : Action} {r : Reaction} (h : c.arrive a = some r) {t : Timer}
    (ht : pendingWait r.state t ≠ pendingWait c t) : ∃ wait, pendingWait c t = some wait ∧
      r.calls = broughtToAll wait.event := by
  cases arrive_cycle h with
  | connectAndPingTimer wait hwait =>
    cases t with
    | connectAndPing => exact ⟨wait, hwait, rfl⟩
    | keepAlive => exact absurd rfl ht
  | keepAliveTimer wait hwait =>
    cases t with
    | connectAndPing => exact absurd rfl ht
    | keepAlive => exact ⟨wait, hwait, rfl⟩
  | other _ _ hother =>
    cases t with
    | connectAndPing => exact absurd hother.same.connectAndPingTimer ht
    | keepAlive => exact absurd hother.same.keepAliveTimer ht

namespace Alarm
variable (y : Alarm)

/-- The region of a connected client waits, or is about to, or the event is noted that has ended
this. -/
structure Lasting (c : Config) : Prop where
  ending : ∀ e, y.Ends e → .dispatch y.region e ∈ c.stack →
    c.stack.head? = some (.dispatch .main e) ∨
      ∃ main, .event e main ∈ c.log ∧ (c.state.main = .connected → main = .connected)
  waiting : c.state.main = .connected → y.Waiting c.state ∨
    .dispatch y.region .handshakeDone ∈ c.stack ∨ ∃ e, y.Ends e ∧ .event e .connected ∈ c.log

variable {y}

theorem lasting_arrive {c : Config} (h : y.Lasting c) (hstack : c.stack = []) {a : Action}
    {r : Reaction} (hr : c.state.arrive a = some r) : y.Lasting (client.react c [] r) := by
  have hmain : r.state.main = c.state.main := (Client.arrive_quiet hr).same.main
  constructor
  · intro e _ hmem
    rw [Program.react_of_not_threw (Client.arrive_quiet hr).threw, List.append_nil] at hmem ⊢
    dsimp only at hmem ⊢
    rcases arrive_calls hr with hplain | ⟨e', hcalls⟩
    · exact absurd hmem (hplain y.region e)
    · rw [hcalls] at hmem ⊢
      rw [mem_broughtToAll hmem]
      exact .inl rfl
  · intro hconnected
    rcases h.waiting (hmain.symm.trans hconnected) with hwaiting | hpending | ⟨e, he, hlog⟩
    · exact .inl ((y.arrives hr).mpr hwaiting)
    · rw [hstack] at hpending
      cases hpending
    · exact .inr (.inr ⟨e, he, List.mem_append_right _ hlog⟩)

theorem lasting_respond {c : Config} (h : y.Lasting c) (honce : AtOnce c.stack) {call : Call}
    {rest : List Call} (hstack : c.stack = call :: rest) {a : Action} {r : Reaction}
    (hr : c.state.respond call a = some r) : y.Lasting (client.react c rest r) := by
  have hmove := respond_move hr
  rw [hstack] at honce
  constructor
  · intro e he hmem
    have hrest : .dispatch y.region e ∈ rest := by
      rcases Program.mem_react hmem with hmem | hmem
      · exact absurd hmem ((respond_raises hr).not_mem (y.quick he).2)
      · exact hmem
    right
    obtain ⟨region, -, rfl⟩ := honce.top (y.quick he).1 hrest
    have hstay : r.state.main = .connected → c.state.main = .connected := by
      intro hconnected
      rw [hconnected] at hmove
      generalize c.state.main = main at hmove
      cases hmove with
      | stay => rfl
      | connack => exact absurd trivial (y.quick he).2
    rcases h.ending e he (by rw [hstack]; exact List.mem_cons_of_mem _ hrest) with htop | ⟨main, hlog, hm⟩
    · rw [hstack] at htop
      cases htop
      exact ⟨_, List.mem_append_left _ ((respond_event hr).mpr ⟨rfl, rfl⟩), hstay⟩
    · exact ⟨main, List.mem_append_right _ hlog, fun hconnected => hm (hstay hconnected)⟩
  · intro hconnected
    by_cases hbefore : c.state.main = .connected
    · rcases h.waiting hbefore with hwaiting | hpending | ⟨e, he, hlog⟩
      · by_cases hcall : ∃ e, call = .dispatch y.region e
        · obtain ⟨e, rfl⟩ := hcall
          by_cases he : y.Ends e
          · right
            right
            refine ⟨e, he, List.mem_append_right _ ?_⟩
            rcases h.ending e he (by rw [hstack]; exact List.mem_cons_self) with htop | ⟨main, hlog, hm⟩
            · rw [hstack] at htop
              injection htop with htop
              injection htop with hregion
              exact absurd hregion y.region_ne
            · exact hm hbefore ▸ hlog
          · left
            cases a <;> cases hr
            exact y.stays hwaiting he
        · left
          exact (y.apart hr fun e heq => hcall ⟨e, heq⟩).mpr hwaiting
      · rw [hstack] at hpending
        rcases List.mem_cons.mp hpending with rfl | hpending
        · left
          cases a <;> cases hr
          exact y.begins c.state
        · have hquick : Quick .handshakeDone := trivial
          obtain ⟨-, hcalls, hthrew⟩ := honce.respond hquick hpending hr
          right
          left
          rw [Program.react_of_not_threw hthrew, hcalls]
          exact hpending
      · exact .inr (.inr ⟨e, he, List.mem_append_right _ hlog⟩)
    · obtain ⟨p, -, -, hthrew, hcalls⟩ := respond_connects hr hbefore hconnected
      right
      left
      rw [Program.react_of_not_threw hthrew, hcalls]
      exact List.mem_append_left _ (List.mem_append_left _ (dispatch_mem_broughtToAll _ _))

theorem lasting_run {ok : Config → Action → Prop} {c : Config} (run : client.Run ok initial c) :
    y.Lasting c := by
  refine (run.assume fun _ => atOnce_run).invariant (I := y.Lasting) ⟨by simp [initial], ?_⟩ ?_ ?_
  · intro h
    cases h
  · exact fun c a r hc _ hstack hr => lasting_arrive hc hstack hr
  · exact fun c a call rest r hc hok hstack hr => lasting_respond hc hok.2 hstack hr

/-- A connected client that comes to rest without having noted such an event waits. -/
theorem waiting_of_rest {ok : Config → Action → Prop} {c : Config} (run : client.Run ok initial c)
    (hstack : c.stack = []) (hconnected : c.state.isConnected = true)
    (hlog : ∀ e, y.Ends e → .event e .connected ∉ c.log) : y.Waiting c.state := by
  rcases (lasting_run (y := y) run).waiting (of_decide_eq_true hconnected) with
    hwaiting | hpending | ⟨e, he, hended⟩
  · exact hwaiting
  · rw [hstack] at hpending
    cases hpending
  · exact absurd hended (hlog e he)

/-! ## Since when it waits -/

variable (y) in
/-- The wait is pending, and due a delay after something that is marked; or it has just ended. -/
def Armed (unit : ℕ) (Mark : Effect → Prop) (v : Clocked) : Prop :=
  .dispatch y.region (y.wait v.config.state).event ∈ v.config.stack ∨
    pendingWait v.config.state y.timer = some (y.wait v.config.state) ∧
      ∃ e t, Mark e ∧ (t, e) ∈ v.past ∧ v.due y.timer = t + unit * (y.wait v.config.state).delay

variable {unit : ℕ} {Mark : Effect → Prop} {v : Clocked}

theorem armed_arrive (h : y.Armed unit Mark v) (hstack : v.config.stack = []) {a : Action}
    {r : Reaction} (hr : v.config.state.arrive a = some r) :
    y.Armed unit Mark (next client waits unit v a (client.react v.config [] r)) := by
  have hused := y.wait_used (arrive_regions hr).2.2
  have hreact : (client.react v.config [] r).stack = r.calls := by
    rw [Program.react_of_not_threw (Client.arrive_quiet hr).threw, List.append_nil]
  rcases h with hover | ⟨hpending, e, t, hmark, hmem, hdue⟩
  · rw [hstack] at hover
    cases hover
  · by_cases hsame : pendingWait r.state y.timer = pendingWait v.config.state y.timer
    · right
      refine ⟨?_, e, t, hmark, List.mem_append_right _ hmem, ?_⟩
      · exact hsame.trans (hpending.trans (congrArg some hused.symm))
      · rw [due_arrive hstack]
        exact hdue.trans (congrArg (t + unit * PendingWait.delay ·) hused.symm)
    · left
      change .dispatch y.region (y.wait r.state).event ∈ (client.react v.config [] r).stack
      rw [hreact, hused]
      obtain ⟨wait, hwait, hcalls⟩ := arrive_ended hr hsame
      cases hpending.symm.trans hwait
      rw [hcalls]
      exact dispatch_mem_broughtToAll _ _

theorem armed_kept (h : y.Armed unit Mark v) (honce : AtOnce v.config.stack) {call : Call}
    {rest : List Call} (hstack : v.config.stack = call :: rest) {a : Action} {r : Reaction}
    (hr : v.config.state.respond call a = some r)
    (hcall : call ≠ .dispatch y.region (y.wait v.config.state).event)
    (hused : r.state.keepAliveUsed = v.config.state.keepAliveUsed)
    (hsame : pendingWait r.state y.timer = pendingWait v.config.state y.timer)
    (hstarts : starts v.config.state call y.timer = none) :
    y.Armed unit Mark (next client waits unit v a (client.react v.config rest r)) := by
  have hused := y.wait_used hused
  rcases h with hover | ⟨hpending, e, t, hmark, hmem, hdue⟩
  · left
    change .dispatch y.region (y.wait r.state).event ∈ (client.react v.config rest r).stack
    rw [hstack] at hover honce
    have hover := (List.mem_cons.mp hover).resolve_left fun heq => hcall heq.symm
    obtain ⟨-, hcalls, hthrew⟩ := honce.respond (y.lapsed _) hover hr
    rw [Program.react_of_not_threw hthrew, hcalls, hused]
    exact hover
  · right
    refine ⟨?_, e, t, hmark, List.mem_append_right _ hmem, ?_⟩
    · exact hsame.trans (hpending.trans (congrArg some hused.symm))
    · rw [due_respond _ hstack hr, hstarts]
      exact hdue.trans (congrArg (t + unit * PendingWait.delay ·) hused.symm)

theorem armed_starts {call : Call} {rest : List Call} (hstack : v.config.stack = call :: rest)
    {a : Action} {r : Reaction} (hr : v.config.state.respond call a = some r)
    (hused : r.state.keepAliveUsed = v.config.state.keepAliveUsed)
    (hstarts : starts v.config.state call y.timer = some (y.wait v.config.state)) {e : Effect}
    (he : Mark e) (hmem : (v.now, e) ∈ (next client waits unit v a (client.react v.config rest r)).past) :
    y.Armed unit Mark (next client waits unit v a (client.react v.config rest r)) := by
  have hused := y.wait_used hused
  right
  refine ⟨?_, e, v.now, he, hmem, ?_⟩
  · exact (respond_starts hr hstarts).2.trans (congrArg some hused.symm)
  · rw [due_respond _ hstack hr, hstarts]
    exact congrArg (v.now + unit * PendingWait.delay ·) hused.symm

end Alarm
end Mqtt5.ClientAlarms
