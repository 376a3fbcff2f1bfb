import Mqtt5.ClientAlarms
import Mqtt5.ClientExceptions

/-!
# The keep alive

The region that watches the server closes the socket when its wait ends. A packet starts the
wait anew, so the wait ends after as long a silence as the keep alive is, and no silence is
longer than that while the region watches.
-/
namespace Mqtt5.ClientKeepAlive
open WirePrimitives WirePublish WireConnect WireControlPacket CallMachine TimedProgram
open ClientState ClientSession ClientActs ClientStream ClientCycles ClientTimers ClientClock
open ClientAlarms
open WireSubscribe hiding TopicFilter

def IsPacket (e : Effect) : Prop := ∃ p main, e = .event (.packetReceived p) main

/-- A packet came at a time. -/
def Heard (v : Clocked) (t : ℕ) : Prop := ∃ e, IsPacket e ∧ (t, e) ∈ v.past

theorem heard_old {v : Clocked} {t : ℕ} (h : Heard v t) (unit : ℕ) (a : Action) (d : Config) :
    Heard (next client waits unit v a d) t := by
  obtain ⟨e, he, hmem⟩ := h
  exact ⟨e, he, List.mem_append_right _ hmem⟩

/-- The packet that the main region gets now. -/
theorem heard_now {v : Clocked} {p : ControlPacket} {a : Action} {r : Reaction}
    (hr : v.config.state.respond (.dispatch .main (.packetReceived p)) a = some r)
    (rest : List Call) (unit : ℕ) :
    Heard (next client waits unit v a (client.react v.config rest r)) v.now :=
  ⟨_, ⟨p, v.config.state.main, rfl⟩, (event_past hr rest).mpr (.inl ⟨rfl, rfl, rfl⟩)⟩

theorem heard_respond {unit : ℕ} {v : Clocked} {call : Call} {a : Action} {r : Reaction}
    (hr : v.config.state.respond call a = some r) {rest : List Call} {t : ℕ}
    (h : Heard (next client waits unit v a (client.react v.config rest r)) t) :
    Heard v t ∨ t = v.now ∧ ∃ p, call = .dispatch .main (.packetReceived p) := by
  obtain ⟨_, ⟨p, main, rfl⟩, hmem⟩ := h
  rcases (event_past hr rest).mp hmem with ⟨rfl, rfl, -⟩ | hold
  · exact .inr ⟨rfl, p, rfl⟩
  · exact .inl ⟨_, ⟨p, main, rfl⟩, hold⟩

theorem heard_arrive {unit : ℕ} {v : Clocked} {a : Action} {r : Reaction}
    (hr : v.config.state.arrive a = some r) {t : ℕ}
    (h : Heard (next client waits unit v a (client.react v.config [] r)) t) : Heard v t := by
  obtain ⟨_, ⟨p, main, rfl⟩, hmem⟩ := h
  exact ⟨_, ⟨p, main, rfl⟩, (event_past_arrive hr).mp hmem⟩

/-! ## No silence goes unnoticed -/

/-- A packet that is on its way to the region came now, and the region's wait is due as long
after a packet as the keep alive is. -/
structure Watch (unit : ℕ) (v : Clocked) : Prop where
  heard : ∀ p, .dispatch .keepAlive (.packetReceived p) ∈ v.config.stack →
    v.config.stack.head? = some (.dispatch .main (.packetReceived p)) ∨ Heard v v.now
  opened : .dispatch .keepAlive .handshakeDone ∈ v.config.stack → Heard v v.now
  armed : v.config.state.keepAlive = .waiting → 0 < v.config.state.keepAliveUsed →
    watch.Armed unit IsPacket v

theorem watch_arrive {unit : ℕ} {v : Clocked} (h : Watch unit v) (hstack : v.config.stack = [])
    {a : Action} {r : Reaction} (hr : v.config.state.arrive a = some r) :
    Watch unit (next client waits unit v a (client.react v.config [] r)) := by
  have hreact : (client.react v.config [] r).stack = r.calls := by
    rw [Program.react_of_not_threw (Client.arrive_quiet hr).threw, List.append_nil]
  obtain ⟨hkeepAlive, -, hused⟩ := arrive_regions hr
  constructor
  · intro p hmem
    change _ ∈ (client.react v.config [] r).stack at hmem
    change (client.react v.config [] r).stack.head? = _ ∨ _
    rw [hreact] at hmem ⊢
    left
    rcases arrive_calls hr with hplain | ⟨e, hcalls⟩
    · exact absurd hmem (hplain _ _)
    · rw [hcalls] at hmem ⊢
      rw [← mem_broughtToAll hmem]
      rfl
  · intro hmem
    change _ ∈ (client.react v.config [] r).stack at hmem
    rw [hreact] at hmem
    exact absurd hmem (arrive_handshakeDone hr _)
  · intro hwaiting hk
    exact Alarm.armed_arrive (h.armed (hkeepAlive.symm.trans hwaiting) (hused ▸ hk)) hstack hr

theorem dispatch_ends (c : Client) {e : Event} (he : EndsWatch e) :
    (c.dispatch e .keepAlive).state.keepAlive = .idle := by
  cases hkeepAlive : c.keepAlive with
  | idle =>
    rcases he with rfl | rfl <;> simp only [Client.dispatch, hkeepAlive, keepAliveTable]
  | waiting =>
    rcases he with rfl | rfl <;> rw [Client.dispatch, hkeepAlive] <;> rfl

theorem dispatch_keepAliveUsed (c : Client) (e : Event) :
    (c.dispatch e .keepAlive).state.keepAliveUsed = c.keepAliveUsed := by
  have huntimed : Untimed Client.keepAliveUsed := fun _ _ _ _ _ _ => rfl
  exact huntimed.dispatch_keepAlive c e

theorem starts_other {c : Client} {call : Call} (hcall : ∀ e, call ≠ .dispatch .keepAlive e) :
    starts c call .keepAlive = none := by
  cases hstarts : starts c call .keepAlive with
  | none => rfl
  | some wait =>
    cases starts_iff.mp hstarts with
    | handshakeDone => exact absurd rfl (hcall _)
    | packet => exact absurd rfl (hcall _)

/-- The region that goes on watching without a new wait keeps the old one. -/
theorem dispatch_kept {c : Client} {e : Event} (hk : 0 < c.keepAliveUsed)
    (hstarts : starts c (.dispatch .keepAlive e) .keepAlive = none)
    (hwaiting : (c.dispatch e .keepAlive).state.keepAlive = .waiting) :
    e ≠ .keepAliveTimeout ∧ c.keepAlive = .waiting ∧
      (c.dispatch e .keepAlive).state.keepAliveTimer = c.keepAliveTimer := by
  have hends : ¬ EndsWatch e := fun he => by cases (dispatch_ends c he).symm.trans hwaiting
  refine ⟨fun heq => hends (.inr heq), ?_⟩
  have hturn := dispatch_keepAlive c e
  generalize c.dispatch e .keepAlive = r at hturn hwaiting
  cases hturn with
  | handshakeDone hidle => cases hstarts.symm.trans (starts_iff.mpr (.handshakeDone hk hidle))
  | packet p hwatching => cases hstarts.symm.trans (starts_iff.mpr (.packet p hk hwatching))
  | keepAliveTimeout => exact absurd (.inr rfl) hends
  | disconnect => exact absurd (.inl rfl) hends
  | ignored => exact ⟨hwaiting, rfl⟩

theorem watch_armed {unit : ℕ} {v : Clocked} (h : Watch unit v) (honce : AtOnce v.config.stack)
    (hidle : v.config.state.main ≠ .connected → v.config.state.keepAlive = .idle)
    {call : Call} {rest : List Call} (hstack : v.config.stack = call :: rest) {a : Action}
    {r : Reaction} (hr : v.config.state.respond call a = some r)
    (hwaiting : r.state.keepAlive = .waiting) (hk : 0 < r.state.keepAliveUsed) :
    watch.Armed unit IsPacket (next client waits unit v a (client.react v.config rest r)) := by
  by_cases hcall : ∃ e, call = .dispatch .keepAlive e
  · obtain ⟨e, rfl⟩ := hcall
    have htop : .dispatch .keepAlive e ∈ v.config.stack := by
      rw [hstack]
      exact List.mem_cons_self
    have hused : r.state.keepAliveUsed = v.config.state.keepAliveUsed := by
      cases a <;> cases hr
      exact dispatch_keepAliveUsed _ _
    cases hstarts : starts v.config.state (.dispatch .keepAlive e) .keepAlive with
    | none =>
      have hkept : e ≠ .keepAliveTimeout ∧ v.config.state.keepAlive = .waiting ∧
          r.state.keepAliveTimer = v.config.state.keepAliveTimer := by
        rw [hused] at hk
        cases a <;> cases hr
        exact dispatch_kept hk hstarts hwaiting
      obtain ⟨hne, hbefore, htimer⟩ := hkept
      refine Alarm.armed_kept (h.armed hbefore (hused ▸ hk)) honce hstack hr ?_ hused htimer hstarts
      simp [watch, keepAliveWait, hne]
    | some wait =>
      have hstarted : wait = keepAliveWait v.config.state ∧ Heard v v.now := by
        cases starts_iff.mp hstarts with
        | handshakeDone => exact ⟨rfl, h.opened htop⟩
        | packet p =>
          refine ⟨rfl, (h.heard p htop).resolve_left ?_⟩
          intro hhead
          rw [hstack] at hhead
          cases hhead
      obtain ⟨rfl, e, he, hmem⟩ := hstarted
      exact Alarm.armed_starts hstack hr hused hstarts he (List.mem_append_right _ hmem)
  · have hother : ∀ e, call ≠ .dispatch .keepAlive e := fun e heq => hcall ⟨e, heq⟩
    obtain ⟨hsame, htimer⟩ := respond_keepAlive hr hother
    rw [hsame] at hwaiting
    have hconnected : v.config.state.main = .connected := by
      by_contra hmain
      cases (hidle hmain).symm.trans hwaiting
    have hused := respond_used hr hconnected
    exact Alarm.armed_kept (h.armed hwaiting (hused ▸ hk)) honce hstack hr (hother _) hused htimer
      (starts_other hother)

theorem watch_respond {unit : ℕ} {v : Clocked} (h : Watch unit v) (honce : AtOnce v.config.stack)
    (hidle : v.config.state.main ≠ .connected → v.config.state.keepAlive = .idle)
    {call : Call} {rest : List Call} (hstack : v.config.stack = call :: rest) {a : Action}
    {r : Reaction} (hr : v.config.state.respond call a = some r) :
    Watch unit (next client waits unit v a (client.react v.config rest r)) := by
  have hrest : ∀ {call : Call}, call ∈ rest → call ∈ v.config.stack := fun hmem => by
    rw [hstack]
    exact List.mem_cons_of_mem _ hmem
  -- what is below on the stack was noted before, or is now
  have hbelow : ∀ p, .dispatch .keepAlive (.packetReceived p) ∈ rest →
      Heard (next client waits unit v a (client.react v.config rest r)) v.now := by
    intro p hmem
    rcases h.heard p (hrest hmem) with htop | hheard
    · rw [hstack] at htop
      cases htop
      exact heard_now hr rest unit
    · exact heard_old hheard unit a _
  constructor
  · intro p hmem
    change _ ∈ (client.react v.config rest r).stack at hmem
    change (client.react v.config rest r).stack.head? = _ ∨ _
    cases hthrew : r.threw with
    | true =>
      rw [Program.react, if_pos hthrew] at hmem
      exact .inr (hbelow p ((Program.unwind_sublist rest).subset hmem))
    | false =>
      rw [Program.react_of_not_threw hthrew] at hmem ⊢
      dsimp only at hmem ⊢
      rcases List.mem_append.mp hmem with hmem | hmem
      · left
        have hraises := respond_raises hr
        generalize r.calls = calls at hraises hmem
        cases hraises with
        | nothing hplain => exact absurd hmem (hplain _ _)
        | event e after _ hplain =>
          rcases List.mem_append.mp hmem with hmem | hmem
          · rw [← mem_broughtToAll hmem]
            rfl
          · exact absurd hmem (hplain _ _)
      · exact .inr (hbelow p hmem)
  · intro hmem
    rcases Program.mem_react hmem with hmem | hmem
    · obtain ⟨p, -, rfl⟩ := respond_handshakeDone hr hmem
      exact heard_now hr rest unit
    · exact heard_old (h.opened (hrest hmem)) unit a _
  · exact watch_armed h honce hidle hstack hr

theorem watch_run {unit : ℕ} {ok : Config → Action → Prop} {v : Clocked}
    (run : ClockedRun unit ok clockedInitial v) : Watch unit v := by
  refine run.invariant (I := Watch unit) ⟨?_, ?_, ?_⟩ ?_ ?_ ?_
  · simp [clockedInitial, initial]
  · simp [clockedInitial, initial]
  · intro h
    cases h
  · intro v h hidle
    exact ⟨by simp [hidle.1], by simp [hidle.1], h.armed⟩
  · exact fun v a r _ h _ _ hstack hr => watch_arrive h hstack hr
  · intro v a call rest r hrun h _ hstack hr
    have huntimed : client.Run ok initial v.config := hrun.untimed
    exact watch_respond h (atOnce_run huntimed)
      (fun hmain => (unconnected_run huntimed hmain).keepAlive) hstack hr

/-- While the client is connected and has seen no end of the connection, it has heard from the
server within the keep alive. -/
theorem silence_is_noticed {unit : ℕ} {ok : Config → Action → Prop} {v : Clocked}
    (run : ClockedRun unit ok clockedInitial v) (hstack : v.config.stack = [])
    (hconnected : v.config.state.isConnected = true) (hk : 0 < v.config.state.keepAliveUsed)
    (hlog : ∀ e, EndsWatch e → .event e .connected ∉ v.config.log) :
    ∃ t, Heard v t ∧ v.now ≤ t + unit * v.config.state.keepAliveUsed.toNat := by
  have hwaiting : watch.Waiting v.config.state :=
    Alarm.waiting_of_rest run.untimed hstack hconnected hlog
  rcases (watch_run run).armed hwaiting hk with hover | ⟨htimer, e, t, he, hmem, hdue⟩
  · rw [hstack] at hover
    cases hover
  · have hle : v.now ≤ v.due .keepAlive := onTime run htimer
    exact ⟨t, ⟨e, he, hmem⟩, hle.trans hdue.le⟩

/-- The server asks for a keep alive of ten seconds. -/
def tenSeconds : Connack :=
  { flags := 0, reasonCode := 0, properties := { serverKeepAlive := 10 } }

/-- The client pings after half of them, and gets no answer. -/
def watched : List (TimedAction Action) :=
  (handshakeActions tenSeconds ++ .run :: settleActions).map .act ++ List.replicate 5 .elapse ++
    (.connectAndPingTimer :: List.replicate 5 .run).map .act ++ List.replicate 5 .elapse

def lostConnection : Effect → Bool
  | .event .disconnect .connected | .event .keepAliveTimeout .connected => true
  | _ => false

/-- Ten seconds of silence are not too many. -/
theorem silence_is_noticed_ten : ∃ v : Clocked, v.now = 10 ∧ ∃ t, Heard v t ∧ v.now ≤ t + 10 := by
  have hsteps : (timedSteps client waits 1 ClientExceptions.connectsOnly clockedInitial watched).map
      (fun v => (v.now, v.config.stack, v.config.state.isConnected, v.config.state.keepAliveUsed,
        v.config.log.any lostConnection)) = some (10, [], true, 10, false) := by
    decide +kernel
  obtain ⟨v, hv, hfacts⟩ := Option.map_eq_some_iff.mp hsteps
  simp only [Prod.mk.injEq] at hfacts
  obtain ⟨hnow, hstack, hconnected, hused, hlog⟩ := hfacts
  have hnotice := silence_is_noticed (TimedRun.of_timedSteps _ hv) hstack hconnected
    (by rw [hused]; decide) ?_
  · rw [hused] at hnotice
    exact ⟨v, hnow, hnotice⟩
  · rintro e (rfl | rfl) hmem <;> exact absurd rfl (List.any_eq_false.mp hlog _ hmem)

/-! ## No alarm without a silence -/

def IsTimeout (e : Effect) : Prop := ∃ main, e = .event .keepAliveTimeout main

/-- No packet came less than the keep alive before a time. -/
def SilentUntil (unit : ℕ) (v : Clocked) (t : ℕ) : Prop :=
  ∀ s, Heard v s → s + unit * v.config.state.keepAliveUsed.toNat ≤ t

/-- The wait of the region ends after a silence, or a packet is about to start it anew. -/
structure Patient (unit : ℕ) (v : Clocked) : Prop where
  timer : v.config.state.keepAliveTimer ≠ none →
    0 < v.config.state.keepAliveUsed ∧ v.config.state.keepAlive = .waiting ∧
      (SilentUntil unit v (v.due .keepAlive) ∨
        ∃ p, .dispatch .keepAlive (.packetReceived p) ∈ v.config.stack)
  lapsed : ∀ region, .dispatch region .keepAliveTimeout ∈ v.config.stack →
    v.config.state.main = .connected ∧ v.config.state.keepAliveTimer = none ∧
      SilentUntil unit v v.now ∧ (region = .keepAlive → v.config.state.keepAlive = .waiting)
  fired : ∀ t main, (t, .event .keepAliveTimeout main) ∈ v.past → v.config.state.main = .connected
  silent : v.past.Pairwise
    (Spaced IsTimeout IsPacket (unit * v.config.state.keepAliveUsed.toNat))
  closes : ∀ t main, (t, .event .keepAliveTimeout main) ∈ v.past → (t, .closed) ∈ v.past ∨
    t = v.now ∧ .dispatch .keepAlive .keepAliveTimeout ∈ v.config.stack

theorem patient_arrive {unit : ℕ} {v : Clocked} (h : Patient unit v)
    (hconnected : v.config.state.keepAlive = .waiting → v.config.state.main = .connected)
    (hawaits : ∀ t wait, pendingWait v.config.state t = some wait → Awaits t wait.event)
    (hstack : v.config.stack = []) {a : Action}
    (hdue : ∀ t, waits.ends a = some t → v.due t ≤ v.now) {r : Reaction}
    (hr : v.config.state.arrive a = some r) :
    Patient unit (next client waits unit v a (client.react v.config [] r)) := by
  obtain ⟨hkeepAlive, -, hused⟩ := arrive_regions hr
  have hmain : r.state.main = v.config.state.main := (Client.arrive_quiet hr).same.main
  have hsilent : ∀ t, SilentUntil unit v t →
      SilentUntil unit (next client waits unit v a (client.react v.config [] r)) t := by
    intro t h s hs
    change s + unit * r.state.keepAliveUsed.toNat ≤ t
    rw [hused]
    exact h s (heard_arrive hr hs)
  have halarm : v.config.state.keepAliveTimer ≠ none →
      SilentUntil unit v (v.due .keepAlive) := by
    intro htimer
    refine (h.timer htimer).2.2.resolve_right ?_
    rintro ⟨p, hp⟩
    rw [hstack] at hp
    cases hp
  constructor
  · intro htimer
    change r.state.keepAliveTimer ≠ none at htimer
    have hbefore : v.config.state.keepAliveTimer ≠ none := by
      rcases arrive_keeps hr .keepAlive with hnone | hsame
      · exact absurd hnone htimer
      · exact fun hnone => htimer (hsame.trans hnone)
    obtain ⟨hk, hwaiting, -⟩ := h.timer hbefore
    refine ⟨hused ▸ hk, hkeepAlive.trans hwaiting, .inl (hsilent _ ?_)⟩
    rw [due_arrive hstack]
    exact halarm hbefore
  · intro region hmem
    rcases Program.mem_react hmem with hmem | hmem
    · obtain ⟨t, wait, hends, hwait, hevent, hstate⟩ := arrive_ends hr (.inr rfl) hmem
      have hfor := hawaits t wait hwait
      rw [hevent] at hfor
      cases t with
      | connectAndPing => exact hfor.elim
      | keepAlive =>
        have hbefore : v.config.state.keepAliveTimer ≠ none := by
          intro hnone
          cases hwait.symm.trans hnone
        obtain ⟨-, hwaiting, -⟩ := h.timer hbefore
        have hends := hdue _ hends
        refine ⟨hmain.trans (hconnected hwaiting), ?_, hsilent _ ?_, fun _ => hkeepAlive.trans hwaiting⟩
        · change r.state.keepAliveTimer = none
          rw [hstate]
          rfl
        · exact fun s hs => (halarm hbefore s hs).trans hends
    · cases hmem
  · intro t main hmem
    exact hmain.trans (h.fired t main ((event_past_arrive hr).mp hmem))
  · change (next client waits unit v a (client.react v.config [] r)).past.Pairwise
      (Spaced IsTimeout IsPacket (unit * r.state.keepAliveUsed.toNat))
    rw [hused]
    have hnone : ∀ e ∈ r.effects, ¬ IsTimeout e := by
      rintro e he ⟨main, rfl⟩
      exact quiet_ne_event ((Client.arrive_quiet hr).effects _ he) _ main rfl
    apply spaced_next h.silent
    · exact List.pairwise_of_forall_mem_list fun x hx _ _ hlater => absurd hlater (hnone x hx)
    · rintro ⟨x, hx, hlater⟩
      exact absurd hlater (hnone x hx)
  · intro t main hmem
    rcases h.closes t main ((event_past_arrive hr).mp hmem) with hclosed | ⟨-, hover⟩
    · exact .inl (List.mem_append_right _ hclosed)
    · rw [hstack] at hover
      cases hover

/-- Before the CONNACK nothing waits, and no wait has ended. -/
theorem patient_unconnected {unit : ℕ} {v : Clocked} (h : Patient unit v)
    (hmain : v.config.state.main ≠ .connected) (hun : Unconnected v.config)
    {call : Call} {rest : List Call} (hstack : v.config.stack = call :: rest) {a : Action}
    {r : Reaction} (hr : v.config.state.respond call a = some r) :
    Patient unit (next client waits unit v a (client.react v.config rest r)) := by
  have htimer : v.config.state.keepAliveTimer = none := by
    by_contra hsome
    cases hun.keepAlive.symm.trans (h.timer hsome).2.1
  have hover : ∀ region, .dispatch region .keepAliveTimeout ∉ v.config.stack := fun region hmem =>
    hmain (h.lapsed region hmem).1
  have hpast : ∀ t main, (t, .event .keepAliveTimeout main) ∉
      (next client waits unit v a (client.react v.config rest r)).past := by
    intro t main hmem
    rcases (event_past hr rest).mp hmem with ⟨-, rfl, -⟩ | hold
    · exact hover .main (by rw [hstack]; exact List.mem_cons_self)
    · exact hmain (h.fired t main hold)
  have hstarts : starts v.config.state call .keepAlive = none := by
    cases hstarts : starts v.config.state call .keepAlive with
    | none => rfl
    | some wait =>
      have htop : ¬ Established call := hun.stack call (by rw [hstack]; exact List.mem_cons_self)
      cases starts_iff.mp hstarts with
      | handshakeDone => exact absurd trivial htop
      | packet _ _ hwaiting => cases hun.keepAlive.symm.trans hwaiting
  constructor
  · intro hsome
    rcases respond_keeps hr hstarts with hnone | hsame
    · exact absurd hnone hsome
    · exact absurd (hsame.trans htimer) hsome
  · intro region hmem
    rcases Program.mem_react hmem with hmem | hmem
    · exact absurd hmem ((respond_raises hr).not_mem id)
    · exact absurd (by rw [hstack]; exact List.mem_cons_of_mem _ hmem) (hover region)
  · exact fun t main hmem => absurd hmem (hpast t main)
  · apply List.pairwise_of_forall_mem_list
    rintro ⟨t, e⟩ hx _ _ ⟨main, hmain⟩
    change e = _ at hmain
    rw [hmain] at hx
    exact absurd hx (hpast t main)
  · exact fun t main hmem => absurd hmem (hpast t main)

theorem patient_respond {unit : ℕ} {v : Clocked} (h : Patient unit v)
    (hmain : v.config.state.main = .connected) (honce : AtOnce v.config.stack)
    (hnested : ClientConnection.WellNested v.config.stack)
    (hpast : ∀ e ∈ v.past, e.1 ≤ v.now)
    {call : Call} {rest : List Call} (hstack : v.config.stack = call :: rest) {a : Action}
    {r : Reaction} (hr : v.config.state.respond call a = some r) (hthrew : r.threw = false) :
    Patient unit (next client waits unit v a (client.react v.config rest r)) := by
  have hused := respond_used hr hmain
  have hafter := respond_main hr hmain
  have hreact : (client.react v.config rest r).stack = r.calls ++ rest := by
    rw [Program.react_of_not_threw hthrew]
  have hrest : ∀ {call : Call}, call ∈ rest → call ∈ v.config.stack := fun hmem => by
    rw [hstack]
    exact List.mem_cons_of_mem _ hmem
  have htop : call ∈ v.config.stack := by
    rw [hstack]
    exact List.mem_cons_self
  rw [hstack] at honce hnested
  constructor
  · intro hsome
    change r.state.keepAliveTimer ≠ none at hsome
    have hdue := due_respond unit hstack hr .keepAlive
    cases hstarts : starts v.config.state call .keepAlive with
    | some wait =>
      rw [hstarts] at hdue
      have hstarted : 0 < v.config.state.keepAliveUsed ∧ r.state.keepAlive = .waiting ∧
          wait = keepAliveWait v.config.state := by
        cases starts_iff.mp hstarts with
        | handshakeDone hk =>
          cases a <;> cases hr
          exact ⟨hk, watch.begins _, rfl⟩
        | packet p hk hwaiting =>
          cases a <;> cases hr
          exact ⟨hk, dispatch_waiting hwaiting (by simp [EndsWatch]), rfl⟩
      obtain ⟨hk, hwaiting, rfl⟩ := hstarted
      refine ⟨hused ▸ hk, hwaiting, .inl ?_⟩
      intro s hs
      change s + unit * r.state.keepAliveUsed.toNat ≤ _
      rw [hdue, hused]
      apply Nat.add_le_add_right
      rcases heard_respond hr hs with ⟨e, -, hold⟩ | ⟨rfl, -⟩
      · exact hpast _ hold
      · exact Nat.le_refl _
    | none =>
      rw [hstarts] at hdue
      have hsame := (respond_keeps hr hstarts).resolve_left hsome
      change r.state.keepAliveTimer = v.config.state.keepAliveTimer at hsame
      obtain ⟨hk, hwaiting, hquiet⟩ := h.timer (hsame ▸ hsome)
      have hstays : r.state.keepAlive = .waiting := by
        by_cases hcall : ∃ e, call = .dispatch .keepAlive e
        · obtain ⟨e, rfl⟩ := hcall
          cases a <;> cases hr
          apply dispatch_waiting hwaiting
          rintro (rfl | rfl)
          · rw [Client.dispatch, hwaiting] at hsome
            exact hsome rfl
          · exact hsome (hsame.trans (h.lapsed .keepAlive htop).2.1)
        · exact (respond_keepAlive hr fun e heq => hcall ⟨e, heq⟩).1.trans hwaiting
      refine ⟨hused ▸ hk, hstays, ?_⟩
      change _ ∨ ∃ p, _ ∈ (client.react v.config rest r).stack
      rw [hreact]
      rcases hquiet with hquiet | ⟨p, hp⟩
      · by_cases hcall : ∃ p, call = .dispatch .main (.packetReceived p)
        · obtain ⟨p, rfl⟩ := hcall
          obtain ⟨after, hafter⟩ := hnested.1 _ rfl
          right
          exact ⟨p, by simp [hafter, broughtToAll]⟩
        · left
          rw [hdue]
          intro s hs
          change s + unit * r.state.keepAliveUsed.toNat ≤ _
          rw [hused]
          exact hquiet s ((heard_respond hr hs).resolve_right fun h => hcall h.2)
      · right
        refine ⟨p, List.mem_append_right _ ?_⟩
        rw [hstack] at hp
        refine (List.mem_cons.mp hp).resolve_left ?_
        rintro rfl
        cases hstarts.symm.trans (starts_iff.mpr (.packet p hk hwaiting))
  · intro region hmem
    have hbelow : .dispatch region .keepAliveTimeout ∈ rest := by
      rcases Program.mem_react hmem with hmem | hmem
      · exact absurd hmem ((respond_raises hr).not_mem id)
      · exact hmem
    have hquick : Quick .keepAliveTimeout := trivial
    obtain ⟨⟨region', hne, rfl⟩, -, -⟩ := honce.respond hquick hbelow hr
    obtain ⟨-, htimer, hquiet, hwaiting⟩ := h.lapsed region (hrest hbelow)
    have hstarts : starts v.config.state (.dispatch region' .keepAliveTimeout) .keepAlive = none := by
      cases hstarts : starts v.config.state (.dispatch region' .keepAliveTimeout) .keepAlive with
      | none => rfl
      | some wait => cases starts_iff.mp hstarts
    refine ⟨hafter, (respond_keeps hr hstarts).elim id (·.trans htimer), ?_, ?_⟩
    · intro s hs
      change s + unit * r.state.keepAliveUsed.toNat ≤ v.now
      rw [hused]
      exact hquiet s ((heard_respond hr hs).resolve_right (by simp))
    · rintro rfl
      exact (respond_keepAlive hr (by simp [hne])).1.trans (hwaiting rfl)
  · exact fun _ _ _ => hafter
  · change (next client waits unit v a (client.react v.config rest r)).past.Pairwise
      (Spaced IsTimeout IsPacket (unit * r.state.keepAliveUsed.toNat))
    rw [hused]
    have hnoted : ∀ {e : Event} {main : MainState}, .event e main ∈ r.effects →
        call = .dispatch .main e := fun h => ((respond_event hr).mp h).1
    apply spaced_next h.silent
    · apply List.pairwise_of_forall_mem_list
      rintro x hx y hy ⟨main, rfl⟩ ⟨p, main', rfl⟩
      cases (hnoted hx).symm.trans (hnoted hy)
    · rintro ⟨x, hx, main, rfl⟩ ⟨s, e⟩ hmem he
      rw [hnoted hx] at htop
      exact (h.lapsed .main htop).2.2.1 s ⟨e, he, hmem⟩
  · intro t main hmem
    change _ ∨ t = v.now ∧ _ ∈ (client.react v.config rest r).stack
    rw [hreact]
    rcases (event_past hr rest).mp hmem with ⟨rfl, rfl, -⟩ | hold
    · obtain ⟨after, hafter⟩ := hnested.1 _ rfl
      right
      exact ⟨rfl, by simp [hafter, broughtToAll]⟩
    · rcases h.closes t main hold with hclosed | ⟨rfl, hover⟩
      · exact .inl (List.mem_append_right _ hclosed)
      · rw [hstack] at hover
        rcases List.mem_cons.mp hover with rfl | hover
        · left
          have hwaiting := (h.lapsed .keepAlive htop).2.2.2 rfl
          cases a <;> cases hr
          rw [next_past, Client.dispatch, hwaiting]
          exact List.mem_cons_self
        · exact .inr ⟨rfl, List.mem_append_right _ hover⟩

theorem patient_run {unit : ℕ} {ok : Config → Action → Prop} {v : Clocked}
    (run : ClockedRun unit ok clockedInitial v)
    (hok : ∀ c a, ok c a → ∀ op, a = .operate op → ClientExceptions.Encodable op) :
    Patient unit v := by
  refine run.invariant (I := Patient unit) ?_ ?_ ?_ ?_
  · refine ⟨fun h => absurd rfl h, ?_, ?_, .nil, ?_⟩ <;> simp [clockedInitial, initial]
  · intro v h hidle
    refine ⟨h.timer, ?_, h.fired, h.silent, ?_⟩
    · simp [hidle.1]
    · intro t main hmem
      refine .inl ((h.closes t main hmem).resolve_right ?_)
      simp [hidle.1]
  · intro v a r hrun h _ hdue hstack hr
    have huntimed : client.Run ok initial v.config := hrun.untimed
    refine patient_arrive h ?_ (fun t wait => awaits_run huntimed) hstack hdue hr
    intro hwaiting
    by_contra hmain
    cases (unconnected_run huntimed hmain).keepAlive.symm.trans hwaiting
  · intro v a call rest r hrun h ha hstack hr
    have huntimed : client.Run ok initial v.config := hrun.untimed
    by_cases hmain : v.config.state.main = .connected
    · have hsafe := ClientExceptions.safe_respond (ClientExceptions.ready_run huntimed hok) hr
        (hok _ _ ha)
      exact patient_respond h hmain (atOnce_run huntimed) (ClientConnection.nested_run huntimed)
        (hrun.past_log rfl (by simp [clockedInitial])).2 hstack hr hsafe.threw
    · exact patient_unconnected h hmain (unconnected_run huntimed hmain) hstack hr

/-- The keep alive runs out only after a silence of that length, and the socket is closed in the
same moment. -/
theorem timeout_after_silence {unit : ℕ} {ok : Config → Action → Prop} {v : Clocked}
    (run : ClockedRun unit ok clockedInitial v)
    (hok : ∀ c a, ok c a → ∀ op, a = .operate op → ClientExceptions.Encodable op) :
    v.past.Pairwise (Spaced IsTimeout IsPacket (unit * v.config.state.keepAliveUsed.toNat)) ∧
      (v.config.stack = [] → ∀ t main, (t, .event .keepAliveTimeout main) ∈ v.past →
        (t, .closed) ∈ v.past) := by
  have hpatient := patient_run run hok
  refine ⟨hpatient.silent, fun hstack t main hmem => ?_⟩
  refine (hpatient.closes t main hmem).resolve_right ?_
  simp [hstack]

/-- Ten seconds after the CONNACK the socket is closed. -/
theorem timeout_after_silence_ten : ∃ v : Clocked,
    (10, .event .keepAliveTimeout .connected) ∈ v.past ∧ (10, .closed) ∈ v.past ∧
      v.past.Pairwise (Spaced IsTimeout IsPacket 10) := by
  have hsteps : (timedSteps client waits 1 ClientExceptions.connectsOnly clockedInitial
      (watched ++ (.keepAliveTimer :: List.replicate 5 .run).map .act)).map
        (fun v => (v.config.stack, v.config.state.keepAliveUsed,
          decide ((10, Effect.event .keepAliveTimeout .connected) ∈ v.past))) =
      some ([], 10, true) := by
    decide +kernel
  obtain ⟨v, hv, hfacts⟩ := Option.map_eq_some_iff.mp hsteps
  simp only [Prod.mk.injEq] at hfacts
  obtain ⟨hstack, hused, hmem⟩ := hfacts
  have hmem := of_decide_eq_true hmem
  obtain ⟨hspaced, hclosed⟩ := timeout_after_silence (TimedRun.of_timedSteps _ hv) (by
    rintro c a ha op rfl
    exact ClientExceptions.encodable_of_connectsOnly ha)
  rw [hused] at hspaced
  exact ⟨v, hmem, hclosed hstack 10 _ hmem, hspaced⟩

end Mqtt5.ClientKeepAlive
