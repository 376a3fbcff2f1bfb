import Mqtt5.ClientCycles

/-!
# The handshake's callers

Connecting a `connect_sender` registers a receiver, whatever the client is doing, and a
CONNACK or a start while connected calls all of them back. Nothing else does: not the
disconnect that ends a handshake.
-/
namespace Mqtt5.ClientConnectors
open WirePrimitives WirePublish WireConnect WireControlPacket CallMachine ClientState ClientSession
open ClientActs ClientStream ClientCycles

/-! ## Notes -/

/-- What concerns the handshake's callers. -/
inductive Note
  | registered (receiver : Receiver)
  | calledBack (receiver : Receiver) (success : Bool)
  /-- The main region has had its turn for `disconnect_evt`. -/
  | disconnected (before after : Config)

def note (c : Config) (a : Action) (d : Config) : List Note :=
  match c.stack, a with
  | .user :: _, .operate (.connect receiver) => [.registered receiver]
  | .connectorReceiver receiver success :: _, .run => [.calledBack receiver success]
  | .dispatch .main .disconnect :: _, .run => [.disconnected c d]
  | _, _ => []

def isRegistration (receiver : Receiver) : Note → Bool
  | .registered r => r = receiver
  | _ => false

def isCallback (receiver : Receiver) : Note → Bool
  | .calledBack r _ => r = receiver
  | _ => false

/-- A receiver that is about to be called back. -/
def isDue (receiver : Receiver) : Call → Bool
  | .connectorReceiver r _ => r = receiver
  | _ => false

def registrations (receiver : Receiver) (notes : List Note) : ℕ :=
  notes.countP (isRegistration receiver)

def callbacks (receiver : Receiver) (notes : List Note) : ℕ := notes.countP (isCallback receiver)

def due (receiver : Receiver) (stack : List Call) : ℕ := stack.countP (isDue receiver)

/-- Nobody waits, since everyone who had registered was called back or is about to be. -/
def NobodyLeft (after : Config) (older : List Note) : Prop :=
  after.state.connectReceivers = [] ∧ ∀ receiver,
    callbacks receiver older + due receiver after.stack = registrations receiver older

/-! ## Where receivers are -/

theorem due_of_not_established {calls : List Call} (h : ∀ call ∈ calls, ¬ Established call)
    (receiver : Receiver) : due receiver calls = 0 := by
  rw [due, List.countP_eq_zero]
  intro call hcall hdue
  cases call with
  | connectorReceiver r success => exact h _ hcall trivial
  | _ => cases hdue

theorem due_connectorReceivers (receivers : List Receiver) (success : Bool) (receiver : Receiver) :
    due receiver (receivers.map (.connectorReceiver · success)) = receivers.count receiver := by
  rw [due, List.countP_map, List.count]
  rfl

/-- Each registration is waited for, about to be answered or answered, and before the CONNACK
all are waited for. -/
structure Placed (notes : List Note) (c : Config) : Prop where
  atMost : ∀ receiver, callbacks receiver notes + due receiver c.stack +
    c.state.connectReceivers.count receiver ≤ registrations receiver notes
  waiting : c.state.main ≠ .connected → ∀ receiver, callbacks receiver notes = 0 ∧
    c.state.connectReceivers.count receiver = registrations receiver notes

theorem placed_initial : Placed [] initial where
  atMost _ := Nat.le_refl 0
  waiting _ _ := ⟨rfl, rfl⟩

/-- Notes that are neither a registration nor a call. -/
def Silent (notes : List Note) : Prop :=
  ∀ receiver, callbacks receiver notes = 0 ∧ registrations receiver notes = 0

theorem callbacks_append (receiver : Receiver) (newer older : List Note) :
    callbacks receiver (newer ++ older) = callbacks receiver newer + callbacks receiver older :=
  List.countP_append

theorem registrations_append (receiver : Receiver) (newer older : List Note) :
    registrations receiver (newer ++ older) =
      registrations receiver newer + registrations receiver older :=
  List.countP_append

/-- A step that moves receivers at most from the waiting ones to the stack. -/
theorem Placed.step {notes newer : List Note} {c d : Config} (h : Placed notes c)
    (hsilent : Silent newer)
    (hmoved : ∀ receiver, due receiver d.stack + d.state.connectReceivers.count receiver ≤
      due receiver c.stack + c.state.connectReceivers.count receiver)
    (hwaiting : d.state.main ≠ .connected → c.state.main ≠ .connected ∧
      d.state.connectReceivers = c.state.connectReceivers) : Placed (newer ++ notes) d where
  atMost receiver := by
    obtain ⟨hcallbacks, hregistrations⟩ := hsilent receiver
    have hbefore := h.atMost receiver
    have hmove := hmoved receiver
    rw [callbacks_append, registrations_append, hcallbacks, hregistrations]
    omega
  waiting hmain receiver := by
    obtain ⟨hconnected, hsame⟩ := hwaiting hmain
    obtain ⟨hcallbacks, hregistrations⟩ := hsilent receiver
    obtain ⟨hnone, hcount⟩ := h.waiting hconnected receiver
    rw [callbacks_append, registrations_append, hcallbacks, hregistrations, hsame, hnone, hcount]
    exact ⟨rfl, (Nat.zero_add _).symm⟩

/-! ## What a step does -/

theorem silent_note {c : Config} {call : Call} {rest : List Call} (hstack : c.stack = call :: rest)
    (a : Action) (d : Config) (hcall : ∀ receiver success, call ≠ .connectorReceiver receiver success)
    (ha : call = .user → ∀ receiver, a ≠ .operate (.connect receiver)) : Silent (note c a d) := by
  intro receiver
  unfold note
  rw [hstack]
  split
  case h_1 r heq =>
    injection heq with heq
    exact absurd rfl (ha heq r)
  case h_2 r success _ heq =>
    injection heq with heq
    exact absurd heq (hcall r success)
  case h_3 => exact ⟨rfl, rfl⟩
  case h_4 => exact ⟨rfl, rfl⟩

theorem silent_arrive {c : Config} (hstack : c.stack = []) (a : Action) (d : Config) :
    Silent (note c a d) := by
  intro receiver
  simp [note, hstack, callbacks, registrations]

/-- The reaction to the call on top. -/
theorem Placed.react {notes newer : List Note} {c : Config} (h : Placed notes c) {call : Call}
    {rest : List Call} (hstack : c.stack = call :: rest) {a : Action} {r : Reaction}
    (hr : client.respond c.state call a = some r) (hsilent : Silent newer)
    (hmoved : ∀ receiver, due receiver r.calls + r.state.connectReceivers.count receiver ≤
      c.state.connectReceivers.count receiver)
    (hwaiting : r.state.main ≠ .connected →
      r.state.connectReceivers = c.state.connectReceivers) :
    Placed (newer ++ notes) (client.react c rest r) := by
  apply h.step hsilent
  · intro receiver
    have hstep : due receiver (client.react c rest r).stack ≤ due receiver r.calls + due receiver rest :=
      Program.countP_react (isDue receiver) c rest r
    have htop : due receiver rest ≤ due receiver c.stack := by
      rw [hstack]
      exact (List.sublist_cons_self call rest).countP_le
    have hmove := hmoved receiver
    change _ + r.state.connectReceivers.count receiver ≤ _
    omega
  · intro hmain
    exact ⟨fun h => hmain (respond_main hr h), hwaiting hmain⟩

theorem placed_connector {notes : List Note} {c : Config} (h : Placed notes c) {receiver : Receiver}
    {success : Bool} {rest : List Call} (hstack : c.stack = .connectorReceiver receiver success :: rest)
    (hmain : c.state.main = .connected) : Placed (.calledBack receiver success :: notes)
      (client.react c rest
        { state := c.state, calls := [.user], effects := [.connector receiver success] }) where
  atMost r := by
    have hbefore := h.atMost r
    rw [hstack] at hbefore
    rw [Program.react_of_not_threw rfl]
    change callbacks r (.calledBack receiver success :: notes) + due r (.user :: rest) + _ ≤
      registrations r (.calledBack receiver success :: notes)
    by_cases heq : receiver = r
    · simp [callbacks, registrations, due, isCallback, isRegistration, isDue, heq] at hbefore ⊢
      omega
    · simpa [callbacks, registrations, due, isCallback, isRegistration, isDue, heq] using hbefore
  waiting hconnected := absurd hmain hconnected

theorem placed_connect {notes : List Note} {c : Config} (h : Placed notes c) (receiver : Receiver)
    {rest : List Call} (hstack : c.stack = .user :: rest) :
    Placed (.registered receiver :: notes)
      (client.react c rest (c.state.operateFrom (.connect receiver))) := by
  have hreact : client.react c rest (c.state.operateFrom (.connect receiver)) =
      ⟨{ c.state with connectReceivers := c.state.connectReceivers ++ [receiver] }, .user :: rest,
        c.log⟩ := rfl
  rw [hreact]
  constructor
  · intro r
    have hbefore := h.atMost r
    rw [hstack] at hbefore
    by_cases heq : receiver = r
    · simp [callbacks, registrations, due, isCallback, isRegistration, isDue, heq] at hbefore ⊢
      omega
    · simpa [callbacks, registrations, due, isCallback, isRegistration, isDue, heq,
        List.count_singleton] using hbefore
  · intro hmain r
    obtain ⟨hnone, hcount⟩ := h.waiting hmain r
    have hcallbacks : callbacks r (.registered receiver :: notes) = callbacks r notes := by
      simp [callbacks, isCallback]
    refine ⟨hcallbacks.trans hnone, ?_⟩
    by_cases heq : receiver = r
    · simpa [registrations, isRegistration, heq] using hcount
    · simpa [registrations, isRegistration, heq, List.count_singleton] using hcount

/-- The regions that count time have nothing to do with the callers. -/
theorem dispatch_receivers (c : Client) (e : Event) :
    (c.dispatch e .ping).state.connectReceivers = c.connectReceivers ∧
      (c.dispatch e .keepAlive).state.connectReceivers = c.connectReceivers := by
  have hping : ∀ d : Client, d.startPingTimer.state.connectReceivers = d.connectReceivers := by
    intro d
    rw [Client.startPingTimer]
    split <;> rfl
  have hkeepAlive : ∀ d : Client,
      d.startKeepAliveTimer.state.connectReceivers = d.connectReceivers := by
    intro d
    rw [Client.startKeepAliveTimer]
    split <;> rfl
  constructor
  · have hturn := dispatch_ping c e
    generalize c.dispatch e .ping = r at hturn
    cases hturn with
    | handshakeDone => exact hping _
    | pingTimeout =>
      obtain ⟨pendingWrites, hsend⟩ := c.sendMessage_of_encodes encodes_pingreq
      rw [Client.sendPing, hsend, Reaction.andThen_of_not_threw rfl]
      exact hping _
    | disconnect | ignored => rfl
  · have hturn := dispatch_keepAlive c e
    generalize c.dispatch e .keepAlive = r at hturn
    cases hturn with
    | handshakeDone | packet => exact hkeepAlive _
    | keepAliveTimeout | disconnect | ignored => rfl

theorem placed_respond {notes : List Note} {c : Config} (h : Placed notes c)
    (hunconnected : c.state.main ≠ .connected → Unconnected c) {call : Call} {rest : List Call}
    (hstack : c.stack = call :: rest) {a : Action} {r : Reaction}
    (hr : client.respond c.state call a = some r) :
    Placed (note c a (client.react c rest r) ++ notes) (client.react c rest r) := by
  have hestablished : Established call → c.state.main = .connected := by
    intro hcall
    by_contra hmain
    exact (hunconnected hmain).stack call (by rw [hstack]; exact List.mem_cons_self) hcall
  by_cases hconnector : ∃ receiver success, call = .connectorReceiver receiver success
  · obtain ⟨receiver, success, rfl⟩ := hconnector
    cases a <;> cases hr
    simp only [note, hstack]
    exact placed_connector h hstack (hestablished trivial)
  by_cases hconnect : call = .user ∧ ∃ receiver, a = .operate (.connect receiver)
  · obtain ⟨rfl, receiver, rfl⟩ := hconnect
    cases hr
    simp only [note, hstack]
    exact placed_connect h receiver hstack
  have hsilent := silent_note hstack a (client.react c rest r)
    (fun receiver success heq => hconnector ⟨receiver, success, heq⟩)
    (fun heq receiver ha => hconnect ⟨heq, receiver, ha⟩)
  cases respond_cycle hr with
  | connack p =>
    obtain ⟨_, _, hack⟩ := { c.state with main := .connected }.handleConnack_eq p
    rw [withEntry, hack] at hr hsilent ⊢
    exact h.react hstack hr hsilent (fun receiver => by simp [due, isDue]) fun _ => rfl
  | ping e =>
    have hsame := (dispatch_receivers c.state e).1
    refine h.react hstack hr hsilent (fun receiver => ?_) fun _ => hsame
    rw [dispatch_ping_calls, hsame]
    exact le_of_eq (Nat.zero_add _)
  | keepAlive e =>
    have hsame := (dispatch_receivers c.state e).2
    refine h.react hstack hr hsilent (fun receiver => ?_) fun _ => hsame
    rw [dispatch_keepAlive_calls, hsame]
    exact le_of_eq (Nat.zero_add _)
  | anonymous hstart =>
    have hsame := (anonymous_cycles hstart).connectReceivers
    refine h.react hstack hr hsilent (fun receiver => ?_) fun _ => hsame
    rw [due_of_not_established, hsame, Nat.zero_add]
    intro call hcall
    rw [(Client.anonymous_same hstart).2.1 call hcall]
    exact id
  | notify success =>
    have hconnected := hestablished trivial
    refine h.react hstack hr hsilent (fun receiver => ?_) fun hmain => absurd hconnected hmain
    change due receiver (List.map _ _) + List.count receiver [] ≤ _
    rw [due_connectorReceivers]
    exact le_refl _
  | connector receiver success => exact absurd ⟨receiver, success, rfl⟩ hconnector
  | startConnect hconnected =>
    rw [Client.operateFrom, operate_startConnect hconnected] at hr hsilent ⊢
    refine h.react hstack hr hsilent (fun receiver => ?_) fun hmain => absurd hconnected hmain
    change due receiver (List.map _ _ ++ [.user]) + List.count receiver [] ≤ _
    have hdue := due_connectorReceivers c.state.connectReceivers true receiver
    rw [due] at hdue ⊢
    rw [List.countP_append, hdue]
    exact le_refl _
  | connect receiver => exact absurd ⟨rfl, receiver, rfl⟩ hconnect
  | other _ _ _ huninvolved =>
    have hsame := huninvolved.same.connectReceivers
    refine h.react hstack hr hsilent (fun receiver => ?_) fun _ => hsame
    rw [due_of_not_established huninvolved.calls, hsame]
    exact le_of_eq (Nat.zero_add _)

theorem placed_arrive {notes : List Note} {c : Config} (h : Placed notes c) (hstack : c.stack = [])
    {a : Action} {r : Reaction} (hr : c.state.arrive a = some r) :
    Placed (note c a (client.react c [] r) ++ notes) (client.react c [] r) := by
  have hsame : r.state.connectReceivers = c.state.connectReceivers ∧
      ∀ call ∈ r.calls, ¬ Established call := by
    cases arrive_cycle hr with
    | connectAndPingTimer wait =>
      exact ⟨rfl, (uninvolved_event _ (.refl _) (timed_ne wait)).calls⟩
    | keepAliveTimer wait =>
      exact ⟨rfl, (uninvolved_event _ (.refl _) (timed_ne wait)).calls⟩
    | other _ _ huninvolved => exact ⟨huninvolved.same.connectReceivers, huninvolved.calls⟩
  obtain ⟨hsame, hcalls⟩ := hsame
  have hmain := (Client.arrive_quiet hr).same.main
  apply h.step (silent_arrive hstack a _)
  · intro receiver
    have hstep : due receiver (client.react c [] r).stack ≤ due receiver r.calls + 0 :=
      Program.countP_react (isDue receiver) c [] r
    rw [due_of_not_established hcalls] at hstep
    change _ + r.state.connectReceivers.count receiver ≤ _
    rw [hsame]
    omega
  · exact fun hafter => ⟨fun hbefore => hafter (hmain.trans hbefore), hsame⟩

theorem placed_run {notes : List Note} {c : Config} (run : client.Observed note initial notes c) :
    Placed notes c := by
  apply run.invariant (I := Placed) placed_initial
  · intro notes c a r _ hc hstack hr
    exact placed_arrive hc hstack hr
  · intro notes c a call rest r run hc hstack hr
    exact placed_respond hc (unconnected_run run) hstack hr

/-! ## The end of a handshake -/

theorem suffix_note {c d : Config} {a : Action} {n : Note} {older notes : List Note}
    (h : n :: older <:+ note c a d ++ notes) :
    n ∈ note c a d ∧ older = notes ∨ n :: older <:+ notes := by
  have hnote : note c a d = [] ∨ ∃ m, note c a d = [m] := by
    unfold note
    split <;> simp
  rcases hnote with hnote | ⟨m, hnote⟩
  · rw [hnote] at h
    exact .inr h
  · rw [hnote, List.singleton_append] at h
    rcases List.suffix_cons_iff.mp h with heq | h
    · injection heq with hn holder
      rw [hnote, hn]
      exact .inl ⟨List.mem_cons_self, holder⟩
    · exact .inr h

theorem disconnected_mem {c d before after : Config} {a : Action}
    (h : .disconnected before after ∈ note c a d) :
    (∃ rest, c.stack = .dispatch .main .disconnect :: rest) ∧ a = .run ∧ before = c ∧ after = d := by
  unfold note at h
  split at h
  case h_3 rest heq =>
    injection List.mem_singleton.mp h with hbefore hafter
    exact ⟨⟨rest, heq⟩, rfl, hbefore, hafter⟩
  all_goals simp at h

/-- The main region's turn for a disconnect leaves the callers where they are. -/
theorem nobodyLeft_iff {notes : List Note} {c : Config}
    (run : client.Observed note initial notes c) {rest : List Call}
    (hstack : c.stack = .dispatch .main .disconnect :: rest) {r : Reaction}
    (hr : client.respond c.state (.dispatch .main .disconnect) .run = some r)
    (hidle : r.state.main = .idle) :
    NobodyLeft (client.react c rest r) notes ↔ c.state.connectReceivers = [] := by
  obtain ⟨turn, hturn, hdispatch⟩ := c.state.dispatch_main .disconnect
  have hr : r = { turn with effects := turn.effects ++ [.event .disconnect c.state.main] } := by
    rw [← hdispatch]
    exact (Option.some.inj hr).symm
  have hsame : c.state.main ≠ .connected ∧ turn.state.connectReceivers = c.state.connectReceivers ∧
      turn.calls = [] ∧ turn.threw = false := by
    rw [hr] at hidle
    change turn.state.main = .idle at hidle
    cases hturn with
    | disconnect hmain => exact ⟨by simp [hmain], rfl, rfl, rfl⟩
    | ignored =>
      refine ⟨fun hmain => ?_, rfl, rfl, rfl⟩
      cases hmain.symm.trans hidle
  obtain ⟨hmain, hreceivers, hcalls, hthrew⟩ := hsame
  have hreact : client.react c rest r = ⟨turn.state, rest,
      turn.effects ++ [.event .disconnect c.state.main] ++ c.log⟩ := by
    rw [hr, Program.react]
    dsimp only
    rw [hthrew, hcalls, if_neg Bool.false_ne_true]
    rfl
  have hplaced := placed_run run
  have hunconnected := unconnected_run run.run hmain
  have hdue : ∀ receiver, due receiver rest = 0 := due_of_not_established fun call hcall =>
    hunconnected.stack call (by rw [hstack]; exact List.mem_cons_of_mem _ hcall)
  rw [hreact, NobodyLeft]
  change turn.state.connectReceivers = [] ∧ _ ↔ _
  rw [hreceivers]
  constructor
  · exact fun h => h.1
  · intro hnone
    refine ⟨hnone, fun receiver => ?_⟩
    obtain ⟨hcallbacks, hcount⟩ := hplaced.waiting hmain receiver
    rw [hnone] at hcount
    rw [hcallbacks, hdue, ← hcount]
    rfl

/-- Nobody is called back more often than registered, and after a disconnect that leaves the
main region in `idle` nobody is left hanging if and only if nobody was waiting. -/
theorem connectors_called_back_iff {notes : List Note} {c : Config}
    (run : client.Observed note initial notes c) :
    (∀ receiver, callbacks receiver notes ≤ registrations receiver notes) ∧
      ∀ before after older, .disconnected before after :: older <:+ notes →
        after.state.main = .idle →
          (NobodyLeft after older ↔ before.state.connectReceivers = []) := by
  constructor
  · intro receiver
    have hplaced := (placed_run run).atMost receiver
    omega
  · induction run with
    | refl =>
      intro before after older h
      cases List.suffix_nil.mp h
    | tail a run hstep ih =>
      intro before after older h hidle
      rcases suffix_note h with ⟨hmem, rfl⟩ | h
      · obtain ⟨⟨rest, hstack⟩, rfl, rfl, rfl⟩ := disconnected_mem hmem
        cases Program.step_stepped hstep with
        | arrive r hempty => cases hempty.symm.trans hstack
        | respond call rest r htop hr =>
          cases htop.symm.trans hstack
          exact nobodyLeft_iff run hstack hr hidle
      · exact ih before after older h hidle

/-- A write is stopped before anybody connects; later a receiver is registered, and the CONNACK
calls it back. -/
def connectedLater : List Action :=
  request (.publish publishQos1) ++ .writeDone 0 :: List.replicate 5 .run ++
    [.enter, .operate (.connect 7)] ++ connectActions.tail ++
    .readValue (.connack { flags := 0, reasonCode := 0 }) :: List.replicate 8 .run

theorem connectors_called_back_unasked : ∃ notes c, client.Observed note initial notes c ∧
    registrations 7 notes = 1 ∧ callbacks 7 notes = 1 ∧
    (∀ receiver, callbacks receiver notes ≤ registrations receiver notes) ∧
    ∃ before after, .disconnected before after ∈ notes ∧ after.state.main = .idle ∧
      NobodyLeft after [] := by
  have hsteps : ∃ before after c, client.observe note [] initial connectedLater =
      some ([.calledBack 7 true, .registered 7, .disconnected before after], c) ∧
        before.state.connectReceivers = [] ∧ after.state.main = .idle :=
    ⟨_, _, _, rfl, rfl, rfl⟩
  obtain ⟨before, after, c, hc, hnone, hidle⟩ := hsteps
  have run := Program.Observed.of_observe _ .refl hc
  obtain ⟨hatMost, hleft⟩ := connectors_called_back_iff run
  refine ⟨_, c, run, rfl, rfl, hatMost, before, after, by simp, hidle, ?_⟩
  exact (hleft before after [] (List.suffix_append [_, _] _) hidle).mpr hnone

/-- The user connects with a receiver, and the timer ends the handshake. -/
def timedOut : List Action :=
  [.enter, .operate (.connect 7)] ++ connectActions.tail ++ [.connectAndPingTimer, .run]

/-- The receiver is left waiting. -/
theorem connector_left_hanging : ∃ notes c, client.Observed note initial notes c ∧
    ∃ before after older, notes = .disconnected before after :: older ∧
      before.state.main = .handshaking ∧ after.state.main = .idle ∧
      after.state.connectReceivers = [7] ∧ registrations 7 older = 1 ∧ callbacks 7 older = 0 ∧
      ¬ NobodyLeft after older := by
  have hsteps : ∃ before after older c, client.observe note [] initial timedOut =
      some (.disconnected before after :: older, c) ∧ before.state.main = .handshaking ∧
        after.state.main = .idle ∧ after.state.connectReceivers = [7] ∧
        registrations 7 older = 1 ∧ callbacks 7 older = 0 :=
    ⟨_, _, _, _, rfl, rfl, rfl, rfl, rfl, rfl⟩
  obtain ⟨before, after, older, c, hc, hbefore, hafter, hleft, hregistered, hcalled⟩ := hsteps
  refine ⟨_, c, Program.Observed.of_observe _ .refl hc, before, after, older, rfl, hbefore, hafter,
    hleft, hregistered, hcalled, fun h => ?_⟩
  cases hleft.symm.trans h.1

end Mqtt5.ClientConnectors
