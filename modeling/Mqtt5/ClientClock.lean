import Mqtt5.ClientFeed
import Mqtt5.ClientTimers
import Mqtt5.ClientWork
import Mqtt5.TimedProgram

/-!
# The client beside a clock

Delays are in seconds. The client starts a wait in three places: with the handshake, in the
region that pings and in the one that watches the server.
-/
namespace Mqtt5.ClientClock
open WirePrimitives WirePublish WireConnect WireControlPacket CallMachine TimedProgram
open ClientState ClientSession ClientActs ClientStream ClientCycles ClientFeed ClientTimers ClientWork
open WireSubscribe hiding TopicFilter

inductive Timer
  | connectAndPing | keepAlive
  deriving DecidableEq, Repr

def pendingWait (c : Client) : Timer → Option PendingWait
  | .connectAndPing => c.connectAndPingTimer
  | .keepAlive => c.keepAliveTimer

def waits : Waits Client Action Timer where
  timers := [.connectAndPing, .keepAlive]
  pending c t := (pendingWait c t).map (·.delay)
  without c
    | .connectAndPing => { c with connectAndPingTimer := none }
    | .keepAlive => { c with keepAliveTimer := none }
  ends
    | .connectAndPingTimer => some .connectAndPing
    | .keepAliveTimer => some .keepAlive
    | _ => none

abbrev Clocked := TimedConfig Client Call Effect Timer

abbrev ClockedRun (unit : ℕ) (ok : Config → Action → Prop) (v w : Clocked) : Prop :=
  TimedRun client waits unit ok v w

def clockedInitial : Clocked := { config := initial }

/-! ## What starts a wait -/

theorem timed_disconnect : Event.disconnect ∈ [Event.disconnect, .pingTimeout, .keepAliveTimeout] :=
  List.mem_cons_self

theorem timed_ping : Event.pingTimeout ∈ [Event.disconnect, .pingTimeout, .keepAliveTimeout] := by
  simp

theorem timed_keepAlive :
    Event.keepAliveTimeout ∈ [Event.disconnect, .pingTimeout, .keepAliveTimeout] := by simp

def pingWait (c : Client) : PendingWait :=
  { delay := c.keepAliveUsed.toNat / 2, event := .pingTimeout, timed := timed_ping }

def keepAliveWait (c : Client) : PendingWait :=
  { delay := c.keepAliveUsed.toNat, event := .keepAliveTimeout, timed := timed_keepAlive }

/-- The wait that a call starts on a timer. -/
def starts (c : Client) : Call → Timer → Option PendingWait
  | .anonymous, .connectAndPing =>
      if c.main = .startHandshake then
        some { delay := 5, event := .disconnect, timed := timed_disconnect }
      else none
  | .dispatch .ping e, .connectAndPing =>
      match c.ping, e with
      | .idle, .handshakeDone | .waiting, .pingTimeout =>
          if 0 < c.keepAliveUsed then some (pingWait c) else none
      | _, _ => none
  | .dispatch .keepAlive e, .keepAlive =>
      match c.keepAlive, e with
      | .idle, .handshakeDone | .waiting, .packetReceived _ =>
          if 0 < c.keepAliveUsed then some (keepAliveWait c) else none
      | _, _ => none
  | _, _ => none

/-- The turns that start a wait. -/
inductive Starting (c : Client) : Call → Timer → PendingWait → Prop
  | connect (h : c.main = .startHandshake) :
      Starting c .anonymous .connectAndPing { delay := 5, event := .disconnect }
  | handshakeDonePing (hk : 0 < c.keepAliveUsed) (h : c.ping = .idle) :
      Starting c (.dispatch .ping .handshakeDone) .connectAndPing (pingWait c)
  | pingTimeout (hk : 0 < c.keepAliveUsed) (h : c.ping = .waiting) :
      Starting c (.dispatch .ping .pingTimeout) .connectAndPing (pingWait c)
  | handshakeDone (hk : 0 < c.keepAliveUsed) (h : c.keepAlive = .idle) :
      Starting c (.dispatch .keepAlive .handshakeDone) .keepAlive (keepAliveWait c)
  | packet (p : ControlPacket) (hk : 0 < c.keepAliveUsed) (h : c.keepAlive = .waiting) :
      Starting c (.dispatch .keepAlive (.packetReceived p)) .keepAlive (keepAliveWait c)

theorem starts_iff {c : Client} {call : Call} {t : Timer} {wait : PendingWait} :
    starts c call t = some wait ↔ Starting c call t wait := by
  constructor
  · intro h
    unfold starts at h
    split at h
    · obtain ⟨hmain, h⟩ := Option.ite_none_right_eq_some.mp h
      cases h
      exact .connect hmain
    · split at h
      case h_3 => cases h
      all_goals
        rename_i hping
        obtain ⟨hk, h⟩ := Option.ite_none_right_eq_some.mp h
        cases h
        first | exact .handshakeDonePing hk hping | exact .pingTimeout hk hping
    · split at h
      case h_3 => cases h
      all_goals
        rename_i hkeepAlive
        obtain ⟨hk, h⟩ := Option.ite_none_right_eq_some.mp h
        cases h
        first | exact .handshakeDone hk hkeepAlive | exact .packet _ hk hkeepAlive
    · cases h
  · intro h
    cases h with
    | connect h => rw [starts, if_pos h]
    | handshakeDonePing hk h | pingTimeout hk h | handshakeDone hk h | packet _ hk h =>
      simp only [starts, h, hk, if_true]

theorem starts_without (c : Client) (call : Call) (s t : Timer) :
    starts (waits.without c s) call t = starts c call t := by
  cases s <;> cases call with
  | dispatch region e => cases region <;> cases t <;> rfl
  | _ => cases t <;> rfl

/-- A wait that is pending after a reaction was so before. -/
def Keeps (c d : Client) (t : Timer) : Prop :=
  pendingWait d t = none ∨ pendingWait d t = pendingWait c t

theorem keeps_same {c d : Client} (h : SameCycles c d) (t : Timer) : Keeps c d t := by
  right
  cases t with
  | connectAndPing => exact h.connectAndPingTimer
  | keepAlive => exact h.keepAliveTimer

theorem startPingTimer_other (c : Client) :
    pendingWait c.startPingTimer.state .keepAlive = pendingWait c .keepAlive := by
  rw [Client.startPingTimer]
  split <;> rfl

theorem startPingTimer_wait {c : Client} (h : 0 < c.keepAliveUsed) :
    pendingWait c.startPingTimer.state .connectAndPing = some (pingWait c) := by
  rw [Client.startPingTimer, if_pos h]
  rfl

theorem startKeepAliveTimer_other (c : Client) :
    pendingWait c.startKeepAliveTimer.state .connectAndPing = pendingWait c .connectAndPing := by
  rw [Client.startKeepAliveTimer]
  split <;> rfl

theorem startKeepAliveTimer_wait {c : Client} (h : 0 < c.keepAliveUsed) :
    pendingWait c.startKeepAliveTimer.state .keepAlive = some (keepAliveWait c) := by
  rw [Client.startKeepAliveTimer, if_pos h]
  rfl

/-- A ping changes nothing else that the timers have to do with. -/
theorem sendPing_state (c : Client) : ∃ pendingWrites : List PendingWrite,
    (c.sendPing.andThen (·.startPingTimer)).state = { c with pendingWrites }.startPingTimer.state := by
  obtain ⟨pendingWrites, hsend⟩ := c.sendMessage_of_encodes encodes_pingreq
  rw [Client.sendPing, hsend, Reaction.andThen_of_not_threw rfl]
  exact ⟨pendingWrites, rfl⟩

theorem keeps_ping {c : Client} {e : Event} {t : Timer}
    (h : starts c (.dispatch .ping e) t = none) : Keeps c (c.dispatch e .ping).state t := by
  have hzero : ∀ d : Client, d.keepAliveUsed = c.keepAliveUsed →
      (c.ping = .idle ∧ e = .handshakeDone ∨ c.ping = .waiting ∧ e = .pingTimeout) →
      pendingWait d t = pendingWait c t → Keeps c d.startPingTimer.state t := by
    intro d hused hturn hsame
    right
    cases t with
    | keepAlive => exact (startPingTimer_other d).trans hsame
    | connectAndPing =>
      have hnot : ¬ 0 < d.keepAliveUsed := by
        intro hk
        rw [hused] at hk
        rcases hturn with ⟨hping, rfl⟩ | ⟨hping, rfl⟩
        · cases h.symm.trans (starts_iff.mpr (.handshakeDonePing hk hping))
        · cases h.symm.trans (starts_iff.mpr (.pingTimeout hk hping))
      rw [Client.startPingTimer, if_neg hnot]
      exact hsame
  have hturn := dispatch_ping c e
  generalize c.dispatch e .ping = r at hturn
  cases hturn with
  | handshakeDone hping => exact hzero _ rfl (.inl ⟨hping, rfl⟩) (by cases t <;> rfl)
  | pingTimeout hping =>
    obtain ⟨pendingWrites, hsent⟩ := sendPing_state c
    rw [hsent]
    exact hzero _ rfl (.inr ⟨hping, rfl⟩) (by cases t <;> rfl)
  | disconnect =>
    cases t with
    | connectAndPing => exact .inl rfl
    | keepAlive => exact .inr rfl
  | ignored => exact .inr rfl

theorem keeps_keepAlive {c : Client} {e : Event} {t : Timer}
    (h : starts c (.dispatch .keepAlive e) t = none) :
    Keeps c (c.dispatch e .keepAlive).state t := by
  have hzero : ∀ d : Client, d.keepAliveUsed = c.keepAliveUsed →
      (c.keepAlive = .idle ∧ e = .handshakeDone ∨
        c.keepAlive = .waiting ∧ ∃ p, e = .packetReceived p) →
      pendingWait d t = pendingWait c t → Keeps c d.startKeepAliveTimer.state t := by
    intro d hused hturn hsame
    right
    cases t with
    | connectAndPing => exact (startKeepAliveTimer_other d).trans hsame
    | keepAlive =>
      have hnot : ¬ 0 < d.keepAliveUsed := by
        intro hk
        rw [hused] at hk
        rcases hturn with ⟨hkeepAlive, rfl⟩ | ⟨hkeepAlive, p, rfl⟩
        · cases h.symm.trans (starts_iff.mpr (.handshakeDone hk hkeepAlive))
        · cases h.symm.trans (starts_iff.mpr (.packet p hk hkeepAlive))
      rw [Client.startKeepAliveTimer, if_neg hnot]
      exact hsame
  have hturn := dispatch_keepAlive c e
  generalize c.dispatch e .keepAlive = r at hturn
  cases hturn with
  | handshakeDone hkeepAlive => exact hzero _ rfl (.inl ⟨hkeepAlive, rfl⟩) (by cases t <;> rfl)
  | packet p hkeepAlive => exact hzero c rfl (.inr ⟨hkeepAlive, p, rfl⟩) rfl
  | keepAliveTimeout => exact .inr (by cases t <;> rfl)
  | disconnect =>
    cases t with
    | connectAndPing => exact .inr rfl
    | keepAlive => exact .inl rfl
  | ignored => exact .inr rfl

/-- A call that starts no wait on a timer keeps or drops the one that is pending. -/
theorem respond_keeps {c : Client} {call : Call} {a : Action} {r : Reaction}
    (h : c.respond call a = some r) {t : Timer} (hstarts : starts c call t = none) :
    Keeps c r.state t := by
  cases respond_cycle h with
  | connack p =>
    obtain ⟨_, _, hack⟩ := { c with main := .connected }.handleConnack_eq p
    rw [withEntry, hack]
    exact .inr (by cases t <;> rfl)
  | ping e => exact keeps_ping hstarts
  | keepAlive e => exact keeps_keepAlive hstarts
  | anonymous hmain =>
    cases t with
    | connectAndPing => cases hstarts.symm.trans (starts_iff.mpr (.connect hmain))
    | keepAlive => exact .inr (anonymous_cycles hmain).keepAliveTimer
  | startConnect hmain =>
    rw [Client.operateFrom, operate_startConnect hmain]
    exact .inr (by cases t <;> rfl)
  | notify | connector | connect => exact .inr (by cases t <;> rfl)
  | other _ _ _ hother => exact keeps_same hother.same t

/-- One that starts a wait does so wherever it is run. -/
theorem respond_starts {c : Client} {call : Call} {a : Action} {r : Reaction}
    (h : c.respond call a = some r) {t : Timer} {wait : PendingWait}
    (hstarts : starts c call t = some wait) :
    a = .run ∧ pendingWait r.state t = some wait := by
  have hstarting := starts_iff.mp hstarts
  cases hstarting with
  | connect hmain =>
    cases a <;> cases h
    exact ⟨rfl, (anonymous_cycles hmain).connectAndPingTimer⟩
  | handshakeDonePing hk hping =>
    cases a <;> cases h
    rw [Client.dispatch, hping]
    exact ⟨rfl, startPingTimer_wait hk⟩
  | pingTimeout hk hping =>
    cases a <;> cases h
    obtain ⟨pendingWrites, hsent⟩ := sendPing_state { c with ping := .waiting }
    rw [Client.dispatch, hping]
    exact ⟨rfl, hsent ▸ startPingTimer_wait hk⟩
  | handshakeDone hk hkeepAlive =>
    cases a <;> cases h
    rw [Client.dispatch, hkeepAlive]
    exact ⟨rfl, startKeepAliveTimer_wait hk⟩
  | packet p hk hkeepAlive =>
    cases a <;> cases h
    rw [Client.dispatch, hkeepAlive]
    exact ⟨rfl, startKeepAliveTimer_wait hk⟩

/-- The event loop starts no wait. -/
theorem arrive_keeps {c : Client} {a : Action} {r : Reaction} (h : c.arrive a = some r)
    (t : Timer) : Keeps c r.state t := by
  cases arrive_cycle h with
  | connectAndPingTimer =>
    cases t with
    | connectAndPing => exact .inl rfl
    | keepAlive => exact .inr rfl
  | keepAliveTimer =>
    cases t with
    | connectAndPing => exact .inr rfl
    | keepAlive => exact .inl rfl
  | other _ _ hother => exact keeps_same hother.same t

/-! ## Steps -/

theorem without_wait (c : Client) (t : Timer) : pendingWait (waits.without c t) t = none := by
  cases t <;> rfl

theorem dropped_of_keeps {c d : Client} {t : Timer} (h : Keeps (waits.without c t) d t) :
    waits.pending d t = none := by
  have hnone : pendingWait d t = none := h.elim id (·.trans (without_wait c t))
  exact congrArg (Option.map _) hnone

theorem started_arrive {c : Config} (hstack : c.stack = []) (a : Action) (t : Timer) :
    started client waits c a t = none := by
  rw [started, Program.step, hstack]
  dsimp only
  cases hr : client.arrive (waits.without c.state t) a with
  | none => rfl
  | some r => exact dropped_of_keeps (arrive_keeps hr t)

theorem started_respond {c : Config} {call : Call} {rest : List Call}
    (hstack : c.stack = call :: rest) {a : Action} {r : Reaction}
    (hr : c.state.respond call a = some r) (t : Timer) :
    started client waits c a t = (starts c.state call t).map (·.delay) := by
  rw [started, Program.step, hstack]
  dsimp only
  have hwithout := starts_without c.state call t t
  cases hstarts : starts c.state call t with
  | none =>
    rw [hstarts] at hwithout
    cases hr' : client.respond (waits.without c.state t) call a with
    | none => rfl
    | some r' => exact dropped_of_keeps (respond_keeps hr' hwithout)
  | some wait =>
    rw [hstarts] at hwithout
    obtain ⟨rfl, -⟩ := respond_starts hr hstarts
    have hresponds : ∃ r', (waits.without c.state t).respond call .run = some r' := by
      cases starts_iff.mp hstarts <;> exact ⟨_, rfl⟩
    obtain ⟨r', hr'⟩ := hresponds
    have hrun : client.respond (waits.without c.state t) call .run = some r' := hr'
    rw [hrun]
    exact congrArg (Option.map _) (respond_starts hr' hwithout).2

/-- A wait that is pending was so before, or has just been started. -/
theorem kept : waits.Kept client := by
  intro c a d h t hstarted
  have hkeeps : ∀ {d : Client}, Keeps c.state d t →
      waits.pending d t = none ∨ waits.pending d t = waits.pending c.state t := by
    intro d hd
    exact hd.imp (congrArg (Option.map _)) (congrArg (Option.map _))
  cases Program.step_stepped h with
  | arrive r hstack hr => exact hkeeps (arrive_keeps hr t)
  | respond call rest r hstack hr =>
    rw [started_respond hstack hr, Option.map_eq_none_iff] at hstarted
    exact hkeeps (respond_keeps hr hstarted)

/-- No wait is overdue. -/
theorem onTime {unit : ℕ} {ok : Config → Action → Prop} {v : Clocked}
    (run : ClockedRun unit ok clockedInitial v) {t : Timer} {wait : PendingWait}
    (h : pendingWait v.config.state t = some wait) : v.now ≤ v.due t := by
  have hstart : OnTime waits clockedInitial := by
    intro t _ hpending
    cases t <;> cases hpending
  apply run.onTime kept hstart t
  · cases t <;> simp [waits]
  · change ((pendingWait v.config.state t).map (·.delay)).isSome
    rw [h]
    rfl

/-- The events that the waits of a timer are for. -/
def Awaits : Timer → Event → Prop
  | .connectAndPing, .disconnect | .connectAndPing, .pingTimeout => True
  | .keepAlive, .keepAliveTimeout => True
  | _, _ => False

theorem awaits_run {ok : Config → Action → Prop} {c : Config} (run : client.Run ok initial c)
    {t : Timer} {wait : PendingWait} (h : pendingWait c.state t = some wait) :
    Awaits t wait.event := by
  refine run.invariant
    (I := fun c => ∀ t wait, pendingWait c.state t = some wait → Awaits t wait.event) ?_ ?_ ?_ t wait h
  · intro t wait h
    cases t <;> cases h
  · intro c a r hc _ _ hr t wait h
    rcases arrive_keeps hr t with hnone | hsame
    · cases h.symm.trans hnone
    · exact hc t wait (hsame.symm.trans h)
  · intro c a call rest r hc _ _ hr t wait h
    cases hstarts : starts c.state call t with
    | none =>
      rcases respond_keeps hr hstarts with hnone | hsame
      · cases h.symm.trans hnone
      · exact hc t wait (hsame.symm.trans h)
    | some started =>
      cases h.symm.trans (respond_starts hr hstarts).2
      cases starts_iff.mp hstarts <;> trivial

/-- The events that only the end of a wait raises. -/
theorem arrive_ends {c : Client} {a : Action} {r : Reaction} (h : c.arrive a = some r)
    {region : Region} {e : Event} (he : e = .pingTimeout ∨ e = .keepAliveTimeout)
    (hmem : .dispatch region e ∈ r.calls) : ∃ t wait, waits.ends a = some t ∧
      pendingWait c t = some wait ∧ wait.event = e ∧ r.state = waits.without c t := by
  have hraised : ∀ {d : Client} {e' : Event}, .dispatch region e ∈ (d.processEvent e').calls → e = e' := by
    intro d e' hmem
    simp only [Client.processEvent, List.mem_cons, Call.dispatch.injEq, List.not_mem_nil, or_false,
      reduceCtorEq] at hmem
    rcases hmem with h | h | h | h <;> exact h.2
  cases a with
  | enter =>
    cases h
    simp at hmem
  | readValue | readDone =>
    simp only [Client.arrive, Option.ite_none_left_eq_some] at h
    obtain ⟨-, h⟩ := h
    cases h
    rcases he with rfl | rfl <;> cases hraised hmem
  | writeValue i =>
    obtain ⟨write, -, rfl⟩ := Option.map_eq_some_iff.mp h
    cases hwrite : write.receiver with
    | message | puback =>
      rw [hwrite] at hmem
      rcases he with rfl | rfl <;> cases hraised hmem
    | disconnect | disconnector =>
      rw [hwrite] at hmem
      simp [Client.writeCompleted, Client.close, Reaction.andThen] at hmem
  | writeDone i =>
    obtain ⟨write, -, rfl⟩ := Option.map_eq_some_iff.mp h
    cases hwrite : write.receiver with
    | message =>
      rw [hwrite] at hmem
      rcases he with rfl | rfl <;> cases hraised hmem
    | puback | disconnect | disconnector =>
      rw [hwrite] at hmem
      simp [Client.writeStopped] at hmem
  | connectAndPingTimer =>
    obtain ⟨wait, hwait, rfl⟩ := Option.map_eq_some_iff.mp h
    exact ⟨.connectAndPing, wait, rfl, hwait, (hraised hmem).symm, rfl⟩
  | keepAliveTimer =>
    obtain ⟨wait, hwait, rfl⟩ := Option.map_eq_some_iff.mp h
    exact ⟨.keepAlive, wait, rfl, hwait, (hraised hmem).symm, rfl⟩
  | _ => cases h

/-- When the waits of a timer are due once a call has been run. -/
theorem due_respond (unit : ℕ) {v : Clocked} {call : Call} {rest : List Call}
    (hstack : v.config.stack = call :: rest) {a : Action} {r : Reaction}
    (hr : v.config.state.respond call a = some r) (t : Timer) :
    (next client waits unit v a (client.react v.config rest r)).due t =
      match starts v.config.state call t with
      | some wait => v.now + unit * wait.delay
      | none => v.due t := by
  have hstarted := started_respond hstack hr t
  cases hstarts : starts v.config.state call t with
  | none =>
    rw [hstarts] at hstarted
    exact next_due_of_none hstarted _
  | some wait =>
    rw [hstarts] at hstarted
    exact next_due_of_some hstarted _

theorem due_arrive {unit : ℕ} {v : Clocked} (hstack : v.config.stack = []) (a : Action)
    (r : Reaction) (t : Timer) :
    (next client waits unit v a (client.react v.config [] r)).due t = v.due t :=
  next_due_of_none (started_arrive hstack a t) _

/-- The events of the past are the old ones and the one that a call brings to the main region. -/
theorem event_past {unit : ℕ} {v : Clocked} {call : Call} {a : Action} {r : Reaction}
    (hr : v.config.state.respond call a = some r) (rest : List Call) {t : ℕ} {e : Event}
    {main : MainState} :
    (t, .event e main) ∈ (next client waits unit v a (client.react v.config rest r)).past ↔
      (t = v.now ∧ call = .dispatch .main e ∧ main = v.config.state.main) ∨
        (t, .event e main) ∈ v.past := by
  rw [next_past, List.mem_append]
  refine or_congr ?_ Iff.rfl
  rw [← respond_event hr, List.mem_map]
  constructor
  · rintro ⟨effect, h, heq⟩
    cases heq
    exact ⟨rfl, h⟩
  · rintro ⟨rfl, h⟩
    exact ⟨_, h, rfl⟩

theorem event_past_arrive {unit : ℕ} {v : Clocked} {a : Action} {r : Reaction}
    (hr : v.config.state.arrive a = some r) {t : ℕ} {e : Event} {main : MainState} :
    (t, .event e main) ∈ (next client waits unit v a (client.react v.config [] r)).past ↔
      (t, .event e main) ∈ v.past := by
  rw [next_past, List.mem_append]
  refine or_iff_right fun hmem => ?_
  obtain ⟨effect, h, heq⟩ := List.mem_map.mp hmem
  cases heq
  exact quiet_ne_event ((Client.arrive_quiet hr).effects _ h) e main rfl

/-! ## Time goes on -/

/-- No input: the client's own steps, and the ends of its waits. -/
def free (a : Action) : Prop := isInput a = false ∨ ∃ t, waits.ends a = some t

/-- A keep alive of one second is neither asked for nor in use nor about to be. -/
structure Unhurried (c : Config) : Prop where
  asked : c.state.connectOpts.keepAlive ≠ 1
  used : c.state.keepAliveUsed ≠ 1
  granted : ∀ p, .dispatch .main (.packetReceived (.connack p)) ∈ c.stack →
    p.properties.serverKeepAlive ≠ 1

theorem respond_connectOpts {c : Client} {call : Call} {a : Action} {r : Reaction}
    (h : c.respond call a = some r) (ha : ∀ op, a ≠ .operate op) :
    r.state.connectOpts = c.connectOpts := by
  have hapart : Apart Client.connectOpts := fun _ _ _ _ _ _ _ _ _ _ _ => rfl
  cases Client.respond_turn h with
  | main e r hturn =>
    change r.state.connectOpts = _
    cases hturn with
    | packet p => exact hapart.performs (performs_handlePacket c p)
    | pubackSent => exact hapart.acts (exchanges_pubackSent c)
    | connack p =>
      obtain ⟨_, _, hack⟩ := { c with main := .connected }.handleConnack_eq p
      rw [hack]
    | handshake | disconnect | ignored => rfl
  | anonymous hmain => exact (Client.anonymous_same hmain).1.receive.connectOpts
  | maybeSend => exact c.maybeSend_sends.state.connectOpts
  | operate op => exact absurd rfl (ha op)
  | close => rfl
  | quiet _ _ _ hquiet => exact hquiet.same.receive.connectOpts

theorem respond_keepAliveUsed {c : Client} {call : Call} {a : Action} {r : Reaction}
    (h : c.respond call a = some r) : r.state.keepAliveUsed = c.keepAliveUsed ∨
      c.main = .startHandshake ∧ r.state.keepAliveUsed = c.connectOpts.keepAlive ∨
      ∃ p, c.main = .handshaking ∧ call = .dispatch .main (.packetReceived (.connack p)) ∧
        r.state.keepAliveUsed = negotiated c p := by
  cases respond_cycle h with
  | connack p hmain =>
    exact .inr (.inr ⟨p, hmain, rfl, (handleConnack_cycles { c with main := .connected } p).1⟩)
  | ping e => exact .inl (Untimed.dispatch_ping (f := Client.keepAliveUsed) (fun _ _ _ _ _ _ => rfl) c e)
  | keepAlive e => exact .inl (Untimed.dispatch_keepAlive (fun _ _ _ _ _ _ => rfl) c e)
  | anonymous hmain => exact .inr (.inl ⟨hmain, (anonymous_cycles hmain).keepAliveUsed⟩)
  | startConnect hmain =>
    rw [Client.operateFrom, operate_startConnect hmain]
    exact .inl rfl
  | notify | connector | connect => exact .inl rfl
  | other _ _ _ hother => exact .inl hother.same.keepAliveUsed

/-- A call that brings a packet to the main region is there before a step without input. -/
theorem mem_stack_of_step {c d : Config} {a : Action} (h : client.step c a = some d)
    (ha : yields a = []) {p : ControlPacket}
    (hmem : .dispatch .main (.packetReceived p) ∈ d.stack) :
    .dispatch .main (.packetReceived p) ∈ c.stack.tail := by
  have hnew : ∀ {r : Reaction}, Brings (yields a) r.calls →
      .dispatch .main (.packetReceived p) ∉ r.calls := by
    intro r hbrings hcall
    have hsome : p ∈ r.calls.filterMap onItsWay := List.mem_filterMap.mpr ⟨_, hcall, rfl⟩
    rw [hbrings.packets, ha] at hsome
    cases hsome
  cases Program.step_stepped h with
  | arrive r hstack hr =>
    rcases Program.mem_react hmem with hcall | hcall
    · exact absurd hcall (hnew (arrive_brings hr))
    · cases hcall
  | respond call rest r hstack hr =>
    rw [hstack]
    rcases Program.mem_react hmem with hcall | hcall
    · exact absurd hcall (hnew (respond_brings hr))
    · exact hcall

theorem free_yields {a : Action} (h : free a) : yields a = [] := by
  rcases h with h | ⟨t, h⟩
  · cases a <;> first | rfl | cases h
  · cases a <;> first | rfl | cases h

theorem Unhurried.step {c d : Config} (hc : Unhurried c) {a : Action} (ha : free a)
    (h : client.step c a = some d) : Unhurried d := by
  have hgranted : ∀ p, .dispatch .main (.packetReceived (.connack p)) ∈ d.stack →
      p.properties.serverKeepAlive ≠ 1 := fun p hp =>
    hc.granted p (List.mem_of_mem_tail (mem_stack_of_step h (free_yields ha) hp))
  have hrequest : ∀ op, a ≠ .operate op := by
    rintro op rfl
    rcases ha with ha | ⟨_, ha⟩ <;> cases ha
  cases Program.step_stepped h with
  | arrive r hstack hr =>
    refine ⟨?_, ?_, hgranted⟩
    · exact (Client.arrive_quiet hr).same.receive.connectOpts ▸ hc.asked
    · cases arrive_cycle hr with
      | connectAndPingTimer | keepAliveTimer => exact hc.used
      | other _ _ hother => exact hother.same.keepAliveUsed ▸ hc.used
  | respond call rest r hstack hr =>
    refine ⟨?_, ?_, hgranted⟩
    · exact respond_connectOpts hr hrequest ▸ hc.asked
    · rcases respond_keepAliveUsed hr with hsame | ⟨-, hasked⟩ | ⟨p, -, rfl, hused⟩
      · exact hsame ▸ hc.used
      · exact hasked ▸ hc.asked
      · change r.state.keepAliveUsed ≠ 1
        rw [hused, negotiated]
        split
        · exact hc.granted p (by rw [hstack]; exact List.mem_cons_self)
        · exact hc.used

/-- Then every wait has some seconds to go. -/
theorem Unhurried.delay {c : Config} (hc : Unhurried c) {call : Call} {t : Timer} {wait : PendingWait}
    (h : starts c.state call t = some wait) : 0 < wait.delay := by
  have hone : c.state.keepAliveUsed.toNat ≠ 1 := fun h => hc.used (UInt16.toNat_inj.mp h)
  have hpos : 0 < c.state.keepAliveUsed → 0 < c.state.keepAliveUsed.toNat := UInt16.lt_iff_toNat_lt.mp
  cases starts_iff.mp h with
  | connect => exact Nat.succ_pos 4
  | handshakeDonePing hk | pingTimeout hk =>
    have hk := hpos hk
    change 0 < c.state.keepAliveUsed.toNat / 2
    omega
  | handshakeDone hk | packet _ hk => exact hpos hk

theorem lively : Lively client waits free Unhurried where
  kept := kept
  step _ _ _ hc ha h := hc.step ha h
  delay c a d t delay hc ha h hstarted := by
    cases Program.step_stepped h with
    | arrive r hstack hr => cases (started_arrive hstack a t).symm.trans hstarted
    | respond call rest r hstack hr =>
      rw [started_respond hstack hr] at hstarted
      obtain ⟨wait, hwait, rfl⟩ := Option.map_eq_some_iff.mp hstarted
      exact hc.delay hwait
  rests c hc := by
    obtain ⟨as, d, hfree, hsteps, hstack⟩ := pays.exists_rest (fun _ => goes_on) c
    refine ⟨as, d, ?_, hsteps, hstack⟩
    intro a ha
    have hpaid := hfree a ha
    cases a <;> first | exact ⟨.inl rfl, rfl⟩ | cases hpaid
  fires c t hc hstack ht h := by
    have hwait : ∃ wait, pendingWait c.state t = some wait := by
      rw [← Option.isSome_iff_exists, ← Option.isSome_map]
      exact h
    obtain ⟨wait, hwait⟩ := hwait
    have hstep : ∀ a r, c.state.arrive a = some r → client.step c a = some (client.react c [] r) := by
      intro a r hr
      rw [Program.step, hstack]
      exact congrArg (Option.map _) hr
    cases t with
    | connectAndPing =>
      have harrive : c.state.arrive .connectAndPingTimer =
          some ({ c.state with connectAndPingTimer := none }.processEvent wait.event) :=
        congrArg (Option.map _) hwait
      exact ⟨_, _, .inr ⟨.connectAndPing, rfl⟩, rfl, hstep _ _ harrive, rfl⟩
    | keepAlive =>
      have harrive : c.state.arrive .keepAliveTimer =
          some ({ c.state with keepAliveTimer := none }.processEvent wait.event) :=
        congrArg (Option.map _) hwait
      exact ⟨_, _, .inr ⟨.keepAlive, rfl⟩, rfl, hstep _ _ harrive, rfl⟩

/-! ## Turns that call nothing -/

/-- The events for which no region calls anything. -/
def Quick : Event → Prop
  | .disconnect | .handshakeDone | .pingTimeout | .keepAliveTimeout => True
  | _ => False

theorem quick_dispatch (c : Client) {e : Event} (he : Quick e) (region : Region) :
    (c.dispatch e region).calls = [] ∧ (c.dispatch e region).threw = false := by
  cases region with
  | main =>
    obtain ⟨r, hturn, hr⟩ := c.dispatch_main e
    rw [hr]
    change r.calls = [] ∧ r.threw = false
    cases hturn with
    | packet | pubackSent | connack | handshake => exact he.elim
    | disconnect | ignored => exact ⟨rfl, rfl⟩
  | rx =>
    have hturn := dispatch_rx c e
    generalize c.dispatch e .rx = r at hturn
    cases hturn with
    | handshake | packet => exact he.elim
    | disconnect | ignored => exact ⟨rfl, rfl⟩
  | ping => exact ⟨dispatch_ping_calls c e, (c.quiet_ping e).threw⟩
  | keepAlive => exact ⟨dispatch_keepAlive_calls c e, (c.quiet_keepAlive e).threw⟩

/-- The turns for such an event come one after the other, and before anything else. -/
def AtOnce (stack : List Call) : Prop :=
  ∃ e top after, Quick e ∧ top <:+ broughtToAll e ∧ stack = top ++ after ∧
    ∀ region e, Quick e → .dispatch region e ∉ after

theorem atOnce_none {stack : List Call} (h : ∀ region e, Quick e → .dispatch region e ∉ stack) :
    AtOnce stack :=
  ⟨.disconnect, [], stack, trivial, List.nil_suffix, rfl, h⟩

theorem mem_broughtToAll {region : Region} {e e' : Event} (h : .dispatch region e ∈ broughtToAll e') :
    e = e' := by
  simp only [broughtToAll, List.mem_cons, Call.dispatch.injEq, List.not_mem_nil, or_false,
    reduceCtorEq] at h
  rcases h with h | h | h | h <;> exact h.2

/-- The call above such a turn is one for the same event. -/
theorem AtOnce.top {call : Call} {rest : List Call} (h : AtOnce (call :: rest)) {region : Region}
    {e : Event} (he : Quick e) (hmem : .dispatch region e ∈ rest) :
    ∃ region', region' ≠ region ∧ call = .dispatch region' e := by
  obtain ⟨e', top, after, -, htop, hstack, hafter⟩ := h
  cases top with
  | nil =>
    rw [List.nil_append] at hstack
    exact absurd (hstack ▸ List.mem_cons_of_mem _ hmem) (hafter region e he)
  | cons first others =>
    obtain ⟨rfl, rfl⟩ := List.cons.inj hstack
    have hothers : .dispatch region e ∈ others :=
      (List.mem_append.mp hmem).resolve_right (hafter region e he)
    obtain rfl : e = e' := mem_broughtToAll (htop.subset (List.mem_cons_of_mem _ hothers))
    simp only [broughtToAll, List.suffix_cons_iff, List.suffix_nil, List.cons.injEq, reduceCtorEq,
      or_false] at htop
    rcases htop with ⟨rfl, rfl⟩ | ⟨rfl, rfl⟩ | ⟨rfl, rfl⟩ | ⟨rfl, rfl⟩ | ⟨-, rfl⟩
    case inr.inr.inr.inr => cases hothers
    all_goals
      refine ⟨_, ?_, rfl⟩
      rintro rfl
      simp at hothers

/-- Nothing gets between such turns. -/
theorem AtOnce.respond {c : Client} {call : Call} {rest : List Call} (h : AtOnce (call :: rest))
    {region : Region} {e : Event} (he : Quick e) (hmem : .dispatch region e ∈ rest) {a : Action}
    {r : Reaction} (hr : c.respond call a = some r) :
    (∃ region', region' ≠ region ∧ call = .dispatch region' e) ∧ r.calls = [] ∧ r.threw = false := by
  obtain ⟨region', hne, rfl⟩ := h.top he hmem
  have hquick := quick_dispatch c he region'
  cases a <;> cases hr
  exact ⟨⟨region', hne, rfl⟩, hquick⟩

theorem atOnce_respond {c : Config} {call : Call} {rest : List Call} (h : AtOnce c.stack)
    (hstack : c.stack = call :: rest) {a : Action} {r : Reaction}
    (hr : c.state.respond call a = some r) : AtOnce (client.react c rest r).stack := by
  rw [hstack] at h
  have hraises := respond_raises hr
  by_cases hnone : ∀ region e, Quick e → .dispatch region e ∉ rest
  · cases hthrew : r.threw with
    | true =>
      rw [Program.react, if_pos hthrew]
      exact atOnce_none fun region e he hmem =>
        hnone region e he ((Program.unwind_sublist rest).subset hmem)
    | false =>
      rw [Program.react_of_not_threw hthrew]
      dsimp only
      generalize r.calls = calls at hraises
      cases hraises with
      | nothing hplain =>
        exact atOnce_none fun region e he hmem =>
          (List.mem_append.mp hmem).elim (hplain region e) (hnone region e he)
      | event e after hnested hplain =>
        have hafter : ∀ region e, Quick e → .dispatch region e ∉ after ++ rest := fun region e he hmem =>
          (List.mem_append.mp hmem).elim (hplain region e) (hnone region e he)
        by_cases he : Quick e
        · exact ⟨e, broughtToAll e, after ++ rest, he, List.suffix_refl _, List.append_assoc _ _ _,
            hafter⟩
        · refine atOnce_none fun region e' he' hmem => ?_
          rw [List.append_assoc] at hmem
          rcases List.mem_append.mp hmem with hmem | hmem
          · exact he (mem_broughtToAll hmem ▸ he')
          · exact hafter region e' he' hmem
  · obtain ⟨region, hnone⟩ := not_forall.mp hnone
    obtain ⟨e, hnone⟩ := not_forall.mp hnone
    obtain ⟨he, hmem⟩ := Classical.not_imp.mp hnone
    have hmem := Classical.not_not.mp hmem
    obtain ⟨-, hcalls, hthrew⟩ := h.respond he hmem hr
    obtain ⟨e', top, after, he', htop, hsplit, hafter⟩ := h
    rw [Program.react_of_not_threw hthrew, hcalls, List.nil_append]
    cases top with
    | nil =>
      rw [List.nil_append] at hsplit
      exact absurd (hsplit ▸ List.mem_cons_of_mem _ hmem) (hafter region e he)
    | cons first others =>
      obtain ⟨-, rfl⟩ := List.cons.inj hsplit
      exact ⟨e', others, after, he', (List.suffix_cons first others).trans htop, rfl, hafter⟩

theorem atOnce_arrive {c : Config} {a : Action} {r : Reaction} (hr : c.state.arrive a = some r) :
    AtOnce (client.react c [] r).stack := by
  rw [Program.react_of_not_threw (Client.arrive_quiet hr).threw, List.append_nil]
  dsimp only
  rcases arrive_calls hr with hplain | ⟨e, hcalls⟩
  · exact atOnce_none fun region e _ => hplain region e
  · rw [hcalls]
    by_cases he : Quick e
    · exact ⟨e, _, [], he, List.suffix_refl _, (List.append_nil _).symm, by simp⟩
    · exact atOnce_none fun region e' he' hmem => he (mem_broughtToAll hmem ▸ he')

theorem atOnce_run {ok : Config → Action → Prop} {c : Config} (run : client.Run ok initial c) :
    AtOnce c.stack := by
  refine run.invariant (I := fun c => AtOnce c.stack) (atOnce_none (by simp [initial])) ?_ ?_
  · exact fun c a r _ _ _ hr => atOnce_arrive hr
  · exact fun c a call rest r hc _ hstack hr => atOnce_respond hc hstack hr

end Mqtt5.ClientClock
