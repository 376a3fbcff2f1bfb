import Mqtt5.ClientAccounting
import Mqtt5.ClientInFlight
import Mqtt5.ClientOrder
import Mqtt5.ClientReads
import Mqtt5.ClientSendQuota
import Mqtt5.ClientWork

/-!
# Publishes get through

A server that acknowledges the oldest publish under way whenever the client is at rest brings
all publishes of quality of service 1 to an end, those that wait for a slot included, each with
the value of its PUBACK and in the order in which they were started.
-/
namespace Mqtt5.ClientProgress
open WirePrimitives WirePublish WireConnect WireControlPacket CallMachine
open ClientState ClientSession ClientActs ClientStream ClientCycles ClientSendQuota ClientReads
open ClientWork ClientInFlight
open ClientAccounting hiding started note
open WireSubscribe hiding TopicFilter

/-- The publishes that wait for an acknowledgement, and those that wait for a slot. -/
def underway (c : Client) : List Entry :=
  c.publishedMessages.map publishedEntry ++ c.queuedPublishes.map queuedEntry

def completion : Effect → Option (Receiver × Completion)
  | .completed receiver value => some (receiver, value)
  | _ => none

def completions (log : List Effect) : List (Receiver × Completion) := log.filterMap completion

/-- The client goes on by itself, or the server acknowledges the oldest publish under way. -/
def Acknowledging (c : Config) (a : Action) : Prop :=
  isInput a = false ∨ c.stack = [] ∧ ∃ entry entries, underway c.state = entry :: entries ∧
    a = .readValue (.puback { packetIdentifier := identifier entry.packet })

/-- The client is connected and reads, every publish under way waits for a PUBACK, and `pending`
slots are about to be given back. -/
structure Flowing (pending : ℕ) (c : Client) : Prop where
  main : c.main = .connected
  rx : c.rx = .receiving
  waiting : ∀ msg ∈ c.publishedMessages, msg.state = .waitingPuback
  qos : ∀ op ∈ c.queuedPublishes, op.message.qualityOfService ≠ qos2
  conserved : Conserved c pending
  full : c.queuedPublishes ≠ [] → c.serverSendQuota = 0
  slots : c.serverMaxSendQuota ≠ 0

/-! ## Turns that leave the publishes alone -/

/-- A turn that calls nothing and changes nothing that the publishes have to do with. -/
structure Tame (c : Client) (r : Reaction) : Prop where
  send : c.SameSendSide r.state
  rx : r.state.rx = c.rx
  pendingReads : r.state.pendingReads = c.pendingReads
  calls : r.calls = []
  effects : ∀ e ∈ r.effects, completion e = none
  threw : r.threw = false

theorem Flowing.same {pending : ℕ} {c d : Client} (h : Flowing pending c) (hsend : c.SameSendSide d)
    (hrx : d.rx = c.rx) : Flowing pending d where
  main := hsend.main.trans h.main
  rx := hrx.trans h.rx
  waiting := by
    rw [hsend.publishedMessages]
    exact h.waiting
  qos := by
    rw [hsend.queuedPublishes]
    exact h.qos
  conserved := h.conserved.of_same hsend
  full := by
    rw [hsend.queuedPublishes, hsend.serverSendQuota]
    exact h.full
  slots := by
    rw [hsend.serverMaxSendQuota]
    exact h.slots

theorem underway_same {c d : Client} (h : c.SameSendSide d) : underway d = underway c := by
  rw [underway, underway, h.publishedMessages, h.queuedPublishes]

theorem completions_append {effects : List Effect} (h : ∀ e ∈ effects, completion e = none)
    (log : List Effect) : completions (effects ++ log) = completions log := by
  rw [completions, List.filterMap_append, List.filterMap_eq_nil_iff.mpr h]
  rfl

theorem completion_quiet {e : Effect} (h : e.Quiet) : completion e = none := by
  cases e with
  | completed => exact h.elim
  | _ => rfl

theorem tame_ping (c : Client) (p : ControlPacket) :
    Tame c (c.dispatch (.packetReceived p) .ping) := by
  have hquiet := c.quiet_ping (.packetReceived p)
  have huntouched := untouched_ping c (.packetReceived p)
  exact ⟨hquiet.same.send, huntouched.rx, huntouched.pendingReads, dispatch_ping_calls _ _,
    fun e he => completion_quiet (hquiet.effects e he), hquiet.threw⟩

theorem tame_keepAlive (c : Client) (p : ControlPacket) :
    Tame c (c.dispatch (.packetReceived p) .keepAlive) := by
  have hquiet := c.quiet_keepAlive (.packetReceived p)
  have huntouched := untouched_keepAlive c (.packetReceived p)
  exact ⟨hquiet.same.send, huntouched.rx, huntouched.pendingReads, dispatch_keepAlive_calls _ _,
    fun e he => completion_quiet (hquiet.effects e he), hquiet.threw⟩

theorem tame_nothing (c : Client) : Tame c { state := c } :=
  ⟨by constructor <;> rfl, rfl, rfl, rfl, by simp, rfl⟩

theorem tame_anonymous {c : Client} (h : c.main = .connected) : Tame c c.anonymous := by
  rw [Client.anonymous, if_neg (by simp [h])]
  exact tame_nothing c

/-- The client has done what there was to do, and reads again. -/
structure Resting (c : Config) : Prop where
  stack : c.stack = []
  flowing : Flowing 0 c.state
  reads : 0 < c.state.pendingReads

/-- The client goes on by itself. -/
theorem run_on {c d : Config} (run : client.Run Acknowledging c d) {call : Call} {rest : List Call}
    (hstack : d.stack = call :: rest) {a : Action} (ha : isInput a = false) {r : Reaction}
    (hr : d.state.respond call a = some r) (hthrew : r.threw = false) :
    client.Run Acknowledging c ⟨r.state, r.calls ++ rest, r.effects ++ d.log⟩ := by
  rw [← Program.react_of_not_threw hthrew]
  exact run.respond hstack (a := a) hr (.inl ha)

theorem run_tame {pending : ℕ} {c d : Config} (run : client.Run Acknowledging c d)
    (h : Flowing pending d.state) {call : Call} {rest : List Call} (hstack : d.stack = call :: rest)
    {r : Reaction} (hr : d.state.respond call .run = some r) (htame : Tame d.state r) :
    ∃ e, client.Run Acknowledging c e ∧ Flowing pending e.state ∧ e.stack = rest ∧
      e.state.pendingReads = d.state.pendingReads ∧ underway e.state = underway d.state ∧
      completions e.log = completions d.log := by
  refine ⟨_, run_on run hstack rfl hr htame.threw, h.same htame.send htame.rx, ?_,
    htame.pendingReads, underway_same htame.send, completions_append htame.effects _⟩
  rw [htame.calls]
  rfl

/-- The turns after that of the main region. -/
theorem run_others {c d : Config} (run : client.Run Acknowledging c d) (h : Flowing 0 d.state)
    {p : ControlPacket} (hstack : d.stack = [.dispatch .rx (.packetReceived p),
      .dispatch .ping (.packetReceived p), .dispatch .keepAlive (.packetReceived p), .anonymous]) :
    ∃ e, client.Run Acknowledging c e ∧ Resting e ∧ underway e.state = underway d.state ∧
      completions e.log = completions d.log := by
  have hrx : d.state.respond (.dispatch .rx (.packetReceived p)) .run =
      some { state := d.state, calls := [.receiveOneMessage] } := by
    rw [← dispatch_rx_packet h.rx p]
    rfl
  have hfirst := run_on run hstack rfl hrx rfl
  have hread := run_on hfirst rfl (a := .suspend) rfl rfl rfl
  have hsame : d.state.SameSendSide { d.state with pendingReads := d.state.pendingReads + 1 } := by
    constructor <;> rfl
  obtain ⟨e₁, run₁, h₁, hstack₁, hreads₁, hunder₁, hlog₁⟩ :=
    run_tame hread (h.same hsame rfl) rfl rfl (tame_ping _ p)
  obtain ⟨e₂, run₂, h₂, hstack₂, hreads₂, hunder₂, hlog₂⟩ :=
    run_tame run₁ h₁ hstack₁ rfl (tame_keepAlive _ p)
  obtain ⟨e₃, run₃, h₃, hstack₃, hreads₃, hunder₃, hlog₃⟩ :=
    run_tame run₂ h₂ hstack₂ rfl (tame_anonymous h₂.main)
  refine ⟨e₃, run₃, ⟨hstack₃, h₃, ?_⟩, ?_, ?_⟩
  · rw [hreads₃, hreads₂, hreads₁]
    exact Nat.succ_pos _
  · rw [hunder₃, hunder₂, hunder₁]
    rfl
  · rw [hlog₃, hlog₂, hlog₁]
    rfl

/-! ## One acknowledgement -/

/-- The slot given back goes to the first publish that waits for one. -/
theorem flowing_maybeSend {c : Client} (h : Flowing 1 c) :
    Flowing 0 c.maybeSendQueuedPublish.state ∧ c.maybeSendQueuedPublish.threw = false ∧
      c.maybeSendQueuedPublish.calls = [] ∧
      underway c.maybeSendQueuedPublish.state = underway c ∧
      ∀ e ∈ c.maybeSendQueuedPublish.effects, completion e = none := by
  have hkept := kept_maybeSend (n := 0) h.conserved
  have hlt : c.serverSendQuota < c.serverMaxSendQuota := by
    have hquota := h.conserved.quota
    rw [UInt16.lt_iff_toNat_lt]
    omega
  cases hqueue : c.queuedPublishes with
  | nil =>
    rw [Client.maybeSend_of_empty hlt hqueue] at hkept ⊢
    refine ⟨⟨h.main, h.rx, h.waiting, h.qos, hkept.conserved, fun hne => absurd hqueue hne, h.slots⟩,
      rfl, rfl, rfl, by simp⟩
  | cons next queued =>
    have hnext : next ∈ c.queuedPublishes := by
      rw [hqueue]
      exact List.mem_cons_self
    have hrest : ∀ op ∈ queued, op ∈ c.queuedPublishes := by
      intro op hop
      rw [hqueue]
      exact List.mem_cons_of_mem _ hop
    have hstart : InFlightPublish.startState next.message = .waitingPuback := by
      rw [InFlightPublish.startState, if_neg (h.qos next hnext)]
    rw [Client.maybeSend_of_queued hlt hqueue] at hkept ⊢
    obtain ⟨pendingWrites, hsent⟩ := Client.startFn_of_encodes
      { c with serverSendQuota := c.serverSendQuota + 1, queuedPublishes := queued }
      (h.conserved.encodes next hnext)
    rw [hsent] at hkept ⊢
    refine ⟨⟨h.main, h.rx, ?_, fun op hop => h.qos op (hrest op hop), hkept.conserved, ?_, h.slots⟩,
      rfl, rfl, ?_, by simp [completion]⟩
    · intro msg hmsg
      rcases List.mem_append.mp hmsg with hmsg | hmsg
      · exact h.waiting msg hmsg
      · rw [List.mem_singleton.mp hmsg]
        exact hstart
    · intro
      change c.serverSendQuota + 1 - 1 = 0
      rw [h.full (by simp [hqueue])]
      rfl
    · simp [underway, hqueue, publishedEntry, queuedEntry]

/-- The oldest publish ends with the value of its PUBACK, and its slot is still to be given
back. -/
theorem flowing_puback {c : Client} (h : Flowing 0 c) {msg : InFlightPublish}
    {msgs : List InFlightPublish} (hpublished : c.publishedMessages = msg :: msgs) :
    c.handlePacket (.puback { packetIdentifier := msg.message.packetIdentifier }) =
      { state := { c with publishedMessages := msgs }
        calls := [.user, .maybeSendQueuedPublish]
        effects := [.completed msg.receiver (.value [0])] } ∧
    Flowing 1 { c with publishedMessages := msgs } := by
  have hwaiting : msg.state = .waitingPuback := h.waiting msg (by simp [hpublished])
  have hnamed : msg.named msg.message.packetIdentifier = true := by simp [InFlightPublish.named]
  constructor
  · change c.handlePuback _ = _
    rw [Client.handlePuback, hpublished]
    simp [hnamed, hwaiting, Client.finishPublish, hpublished]
  · refine ⟨h.main, h.rx, fun m hm => h.waiting m (by simp [hpublished, hm]), h.qos,
      ⟨?_, h.conserved.encodes⟩, h.full, h.slots⟩
    have hquota := h.conserved.quota
    rw [hpublished, List.length_cons] at hquota
    change c.serverSendQuota.toNat + msgs.length + 1 = c.serverMaxSendQuota.toNat
    omega

/-- While a publish waits for a slot one is under way. -/
theorem Flowing.exists_oldest {c : Client} (h : Flowing 0 c) {entry : Entry} {entries : List Entry}
    (hunder : underway c = entry :: entries) : ∃ msg msgs, c.publishedMessages = msg :: msgs := by
  cases hpublished : c.publishedMessages with
  | cons msg msgs => exact ⟨msg, msgs, rfl⟩
  | nil =>
    exfalso
    have hqueue : c.queuedPublishes ≠ [] := by
      intro hqueue
      rw [underway, hpublished, hqueue] at hunder
      cases hunder
    have hquota := h.conserved.quota
    rw [h.full hqueue, hpublished] at hquota
    exact h.slots (UInt16.toNat_inj.mp hquota.symm)

theorem run_acknowledge {c d : Config} (run : client.Run Acknowledging c d) (h : Resting d)
    {entry : Entry} {entries : List Entry} (hunder : underway d.state = entry :: entries) :
    ∃ e, client.Run Acknowledging c e ∧ Resting e ∧ underway e.state = entries ∧
      completions e.log = (entry.receiver, .value [0]) :: completions d.log := by
  obtain ⟨msg, msgs, hpublished⟩ := h.flowing.exists_oldest hunder
  have hunder' := hunder
  rw [underway, hpublished, List.map_cons, List.cons_append] at hunder'
  obtain ⟨rfl, rfl⟩ := List.cons.inj hunder'
  let p : ControlPacket := .puback { packetIdentifier := msg.message.packetIdentifier }
  let s : Client := { d.state with pendingReads := d.state.pendingReads - 1 }
  have hs : Flowing 0 s := h.flowing.same (by constructor <;> rfl) rfl
  have harrive : client.step d (.readValue p) = some (client.react d [] (s.processEvent (.packetReceived p))) := by
    have hvalue : d.state.arrive (.readValue p) = some (s.processEvent (.packetReceived p)) :=
      if_neg (Nat.ne_of_gt h.reads)
    rw [Program.step, h.stack]
    exact congrArg (Option.map _) hvalue
  have hread := run.tail (.readValue p) (.inr ⟨h.stack, _, _, hunder, rfl⟩) harrive
  obtain ⟨hpuback, hflow⟩ := flowing_puback hs hpublished
  have hmain : s.respond (.dispatch .main (.packetReceived p)) .run = some
      { state := { s with publishedMessages := msgs }
        calls := [.user, .maybeSendQueuedPublish]
        effects := [.completed msg.receiver (.value [0]), .event (.packetReceived p) .connected] } := by
    change some (s.dispatch (.packetReceived p) .main) = _
    rw [dispatch_packet hs.main, withEntry, hpuback]
    rfl
  have hturn := run_on hread rfl rfl hmain rfl
  have hreturn := run_on hturn rfl (a := .return) rfl rfl rfl
  obtain ⟨hflowing, hthrew, hcalls, hsame, heffects⟩ := flowing_maybeSend hflow
  have hsend := run_on hreturn rfl (a := .run) rfl rfl hthrew
  rw [hcalls] at hsend
  obtain ⟨e, run', hrest, hunder', hlog⟩ := run_others hsend hflowing rfl
  exact ⟨e, run', hrest, hunder'.trans hsame, hlog.trans (completions_append heffects _)⟩

/-! ## The order of the starts -/

/-- What a request puts under way, if it does not fail. -/
def begun (c : Client) : Operation → Option Entry
  | .publish message =>
      if message.qualityOfService = qos0 then none else some (queuedEntry (c.nextStarter message))
  | _ => none

/-- The publishes with acknowledgement and their receivers, as they are started, the last one
first. -/
def noteStart (c : Config) (a : Action) (_ : Config) : List Entry :=
  match c.stack, a with
  | .user :: _, .operate op => (begun c.state op).toList
  | _, _ => []

theorem noteStart_reverse (c : Config) (a : Action) (d : Config) :
    (noteStart c a d).reverse = noteStart c a d := by
  unfold noteStart
  split
  case h_1 op _ => cases begun c.state op <;> rfl
  case h_2 => rfl

theorem underway_of_same {c d : Client} (h : c.SameSendSide d) : (underway d).Sublist (underway c) := by
  rw [underway_same h]

/-- A publish that takes a slot goes behind those that were sent, unless it cannot be encoded. -/
theorem underway_startFn (c : Client) (op : PublishOpStarter) : (underway (c.startFn op).state).Sublist
    (c.publishedMessages.map publishedEntry ++ queuedEntry op :: c.queuedPublishes.map queuedEntry) := by
  by_cases hencodes : Encodes (.publish op.message)
  · obtain ⟨_, hstart⟩ := c.startFn_of_encodes hencodes
    rw [hstart]
    simp [underway, publishedEntry, queuedEntry]
  · rw [c.startFn_of_not_encodes hencodes]
    exact (List.sublist_cons_self _ _).append_left _

theorem underway_maybeSend (c : Client) :
    (underway c.maybeSendQueuedPublish.state).Sublist (underway c) := by
  obtain hfull | hempty | ⟨next, queued, hqueue, hnext⟩ := c.maybeSend_cases
  · rw [hfull]
  · rw [hempty]
    exact .refl _
  · rw [hnext, underway.eq_def c, hqueue, List.map_cons]
    exact underway_startFn _ next

theorem underway_sendTurn {c : Client} {p : ControlPacket} {r : Reaction} (h : c.SendTurn p r) :
    (underway r.state).Sublist (underway c) := by
  cases h with
  | puback => exact underway_maybeSend c
  | finished => exact (List.eraseP_sublist.map publishedEntry).append_right _
  | advanced =>
    rw [underway, map_modifyFirst]
    · exact .refl _
    · exact fun _ => rfl
  | _ => exact .refl _

theorem underway_handlePacket (c : Client) (p : ControlPacket) :
    (underway (c.handlePacket p).state).Sublist (underway c) := by
  obtain hreceives | hsends := c.handlePacket_turn p
  · exact underway_of_same hreceives.state
  · exact underway_sendTurn hsends

/-- Whatever the publish that starts finds, it goes behind all others. -/
theorem underway_startPublish {c : Client} (message : Publish)
    (hfull : c.queuedPublishes ≠ [] → c.serverSendQuota = 0) :
    (underway (c.startPublish message).state).Sublist (underway c ++ (begun c (.publish message)).toList) := by
  by_cases hqos : message.qualityOfService = qos0
  · rw [begun, if_pos hqos, Option.toList_none, List.append_nil, c.startPublish_of_qos0 hqos]
    by_cases hencodes : Encodes (.publish message)
    · obtain ⟨_, hsend⟩ := c.sendMessage_of_encodes hencodes
      rw [hsend, Reaction.andThen_of_not_threw rfl]
      exact .refl _
    · rw [c.sendMessage_of_not_encodes hencodes, Reaction.andThen_of_threw rfl]
  rw [begun, if_neg hqos, Option.toList_some]
  by_cases hfree : c.serverSendQuota > 0
  · have hnone : c.queuedPublishes = [] := by
      by_contra hne
      rw [hfull hne] at hfree
      exact absurd hfree (by decide)
    rw [c.startPublish_of_free hqos hfree, underway.eq_def c, hnone, List.map_nil, List.append_nil]
    have hlast := underway_startFn { c with nextPacketIdentifier := c.nextPacketIdentifier.advance }
      (c.nextStarter message)
    change List.Sublist _ (_ ++ _ :: c.queuedPublishes.map queuedEntry) at hlast
    rwa [hnone] at hlast
  · rw [c.startPublish_of_taken hqos hfree]
    simp [underway]

theorem underway_operate {c : Client} (op : Operation)
    (hfull : c.queuedPublishes ≠ [] → c.serverSendQuota = 0) :
    (underway (c.operate op).state).Sublist (underway c ++ (begun c op).toList) := by
  have haside := c.operate_aside op
  cases op with
  | publish message => exact underway_startPublish message hfull
  | subscribe subscriptions modifier =>
    change (underway (c.startSubscribe subscriptions modifier).state).Sublist _
    obtain ⟨_, _, -, hstart⟩ | hstart := c.startSubscribe_cases subscriptions modifier
    all_goals
      rw [hstart]
      exact List.sublist_append_left (underway c) _
  | unsubscribe unsub =>
    change (underway (c.startUnsubscribe unsub).state).Sublist _
    obtain ⟨_, _, -, hstart⟩ | hstart := c.startUnsubscribe_cases unsub
    all_goals
      rw [hstart]
      exact List.sublist_append_left (underway c) _
  | _ =>
    have haside := haside (by simp) (by simp) (by simp)
    exact (underway_of_same haside.state).trans (List.sublist_append_left _ _)

/-- One step takes publishes out, or puts one behind all others. -/
theorem underway_respond {c : Config} (hmain : c.state.main = .connected)
    (hfull : c.state.queuedPublishes ≠ [] → c.state.serverSendQuota = 0) {call : Call}
    {rest : List Call} (hstack : c.stack = call :: rest) {a : Action} {r : Reaction}
    (hr : client.respond c.state call a = some r) (d : Config) :
    (underway r.state).Sublist (underway c.state ++ noteStart c a d) := by
  have hkept : ∀ {entries}, (underway r.state).Sublist (underway c.state) →
      (underway r.state).Sublist (underway c.state ++ entries) :=
    fun h => h.trans (List.sublist_append_left _ _)
  cases Client.respond_turn hr with
  | main e r hturn =>
    apply hkept
    cases hturn with
    | packet p => exact underway_handlePacket c.state p
    | pubackSent => exact underway_of_same c.state.handlePubackSent_receives.state
    | connack p h => cases hmain.symm.trans h
    | handshake h => cases hmain.symm.trans h
    | disconnect h => cases hmain.symm.trans h
    | ignored => exact .refl _
  | anonymous hstart => cases hmain.symm.trans hstart
  | maybeSend => exact hkept (underway_maybeSend c.state)
  | operate op =>
    unfold noteStart
    rw [hstack]
    exact underway_operate op hfull
  | close => exact hkept (.refl _)
  | quiet _ _ _ hquiet => exact hkept (underway_of_same hquiet.same.send)

/-- In every run from a CONNACK that finds none under way, they are among the publishes that
were started, and in the order of their starts. -/
theorem underway_run {connack : Connack} {c d : Config} {started : List Entry}
    (hopen : Opened connack c) (hnone : underway c.state = [])
    (run : client.Observed noteStart c started d) : (underway d.state).Sublist started.reverse := by
  have hempty : c.state.queuedPublishes = [] :=
    List.map_eq_nil_iff.mp (List.append_eq_nil_iff.mp hnone).2
  apply run.invariant (I := fun started d => (underway d.state).Sublist started.reverse)
  · rw [hnone]
    exact .refl _
  · intro started d a r _ hd hstack hr
    have hsame := underway_of_same (Client.arrive_quiet hr).same.send
    rw [List.reverse_append]
    exact (hsame.trans hd).trans (List.sublist_append_left _ _)
  · intro started d a call rest r run hd hstack hr
    obtain ⟨notes, hobserved⟩ := run.observed ClientOrder.note
    have hfull := (ClientOrder.inOrder_run hopen hempty hobserved).1.full
    have hmain := connected_run run (opened_state hopen).main
    have hstep := underway_respond hmain (by simpa [ClientOrder.waiting] using hfull) hstack hr
      (client.react d rest r)
    rw [List.reverse_append, noteStart_reverse]
    exact hstep.trans (hd.append_right _)

/-! ## Every publish -/

theorem run_all {c : Config} (h : Resting c) : ∃ e, client.Run Acknowledging c e ∧ Resting e ∧
    underway e.state = [] ∧ completions e.log =
      ((underway c.state).map fun entry => (entry.receiver, .value [0])).reverse ++ completions c.log := by
  have hall : ∀ entries d, client.Run Acknowledging c d → Resting d → underway d.state = entries →
      ∃ e, client.Run Acknowledging c e ∧ Resting e ∧ underway e.state = [] ∧ completions e.log =
        (entries.map fun entry => (entry.receiver, .value [0])).reverse ++ completions d.log := by
    intro entries
    induction entries with
    | nil => exact fun d run hd hunder => ⟨d, run, hd, hunder, rfl⟩
    | cons entry entries ih =>
      intro d run hd hunder
      obtain ⟨e, run, he, hless, hlog⟩ := run_acknowledge run hd hunder
      obtain ⟨f, run, hf, hnone, hlogged⟩ := ih e run he hless
      refine ⟨f, run, hf, hnone, hlogged.trans ?_⟩
      rw [hlog, List.map_cons, List.reverse_cons, List.append_assoc]
      rfl
  exact hall _ c .refl h rfl

/-- From a CONNACK that grants slots and finds no publish under way, and as long as the slots are
kept: the publishes of a client that is at rest and reads are under way in the order in which they
were started, and are brought to an end in that order, if none of them has quality of service 2. -/
theorem publishes_get_through {connack : Connack} {c d : Config} (hopen : Opened connack c)
    (hpublished : c.state.publishedMessages = []) (hqueued : c.state.queuedPublishes = [])
    (hmax : connack.properties.receiveMaximum ≠ 0)
    (run : client.Run (fun c a => keeps c a) c d) (hstack : d.stack = [])
    (hrx : d.state.rx = .receiving) (hreads : 0 < d.state.pendingReads)
    (hqos : ∀ entry ∈ underway d.state, ∀ p, entry.packet = .publish p → p.qualityOfService ≠ qos2) :
    (∀ started, client.Observed noteStart c started d →
      (underway d.state).Sublist started.reverse) ∧
    ∃ e, client.Run Acknowledging d e ∧ e.stack = [] ∧ underway e.state = [] ∧
      e.state.serverSendQuota = e.state.serverMaxSendQuota ∧
      completions e.log = ((underway d.state).map fun entry => (entry.receiver, .value [0])).reverse ++
        completions d.log := by
  have hnone : underway c.state = [] := by
    rw [underway, hpublished, hqueued]
    rfl
  refine ⟨fun started hobserved => underway_run hopen hnone hobserved, ?_⟩
  have hstate := opened_state hopen
  have hstart : Settled connack.properties.receiveMaximum c := by
    refine ⟨hstate.main, hstate.serverMaxSendQuota, ?_, ?_⟩
    · rw [hpublished, pending_eq_zero hstate.stack, hstate.serverSendQuota,
        hstate.serverMaxSendQuota]
      rfl
    · rw [hqueued]
      exact List.forall_mem_nil _
  have hsettled := settled_run hstart run
  have hall : client.Run (fun _ _ => True) initial d :=
    (opened_run hopen).trans (run.mono fun _ _ _ => trivial)
  have hflowing : Flowing 0 d.state := by
    refine ⟨hsettled.main, hrx, ?_, ?_, ?_, ?_, hsettled.serverMaxSendQuota ▸ hmax⟩
    · intro msg hmsg
      have hentry : publishedEntry msg ∈ underway d.state :=
        List.mem_append_left _ (List.mem_map_of_mem hmsg)
      rw [inFlight_run hall] at hmsg
      exact (waitingPuback_iff d.log msg hmsg).mpr (hqos _ hentry _ rfl)
    · intro op hop
      have hentry : queuedEntry op ∈ underway d.state :=
        List.mem_append_right _ (List.mem_map_of_mem hop)
      exact hqos _ hentry _ rfl
    · have hconserved := hsettled.conserved
      rw [hstack] at hconserved
      exact hconserved
    · intro hne
      obtain ⟨notes, hobserved⟩ := run.observed ClientOrder.note
      apply (ClientOrder.inOrder_run hopen hqueued hobserved).1.full
      simpa [ClientOrder.waiting] using hne
  obtain ⟨e, run', hrest, hdone, hlog⟩ := run_all ⟨hstack, hflowing, hreads⟩
  refine ⟨e, run', hrest.stack, hdone, ?_, hlog⟩
  have hquota := hrest.flowing.conserved.quota
  rw [List.map_eq_nil_iff.mp (List.append_eq_nil_iff.mp hdone).1] at hquota
  exact UInt16.toNat_inj.mp hquota

/-- Three publishes of quality of service 1. -/
def three : List Entry :=
  [⟨0, .publish { publishQos1 with packetIdentifier := 1 }⟩,
    ⟨1, .publish { publishQos1 with packetIdentifier := 2 }⟩,
    ⟨2, .publish { publishQos1 with packetIdentifier := 3 }⟩]

def startThree : List Action :=
  settleActions ++ (List.replicate 3 (request (.publish publishQos1))).flatten

/-- One of them has the only slot, and two wait for it. -/
theorem publishes_get_through_three : ∃ started, ∃ d e : Config, underway d.state = three ∧
    client.Observed noteStart (openedConfig ClientOrder.oneSlot) started d ∧
      three.Sublist started.reverse ∧ client.Run Acknowledging d e ∧ underway e.state = [] ∧
      completions e.log = [(2, .value [0]), (1, .value [0]), (0, .value [0])] := by
  have hsteps : (client.stepsWhile keeps (openedConfig ClientOrder.oneSlot) startThree).map
      (fun d => (d.stack, d.state.rx, d.state.pendingReads)) = some ([], .receiving, 1) := by
    decide +kernel
  have hfound : (client.stepsWhile keeps (openedConfig ClientOrder.oneSlot) startThree).map
      (fun d => (underway d.state, completions d.log)) = some (three, []) := by
    decide +kernel
  obtain ⟨d, hd, hfacts⟩ := Option.map_eq_some_iff.mp hsteps
  rw [hd] at hfound
  simp only [Prod.mk.injEq, Option.map_some, Option.some.injEq] at hfacts hfound
  obtain ⟨hstack, hrx, hreads⟩ := hfacts
  obtain ⟨hunder, hnone⟩ := hfound
  have hqos : ∀ entry ∈ underway d.state, ∀ p, entry.packet = .publish p →
      p.qualityOfService ≠ qos2 := by
    intro entry hentry p hp
    rw [hunder] at hentry
    simp only [three, List.mem_cons, List.not_mem_nil, or_false] at hentry
    rcases hentry with rfl | rfl | rfl <;> cases hp <;> decide
  have run := Program.Run.of_stepsWhile _ hd
  obtain ⟨started, hobserved⟩ := run.observed noteStart
  obtain ⟨hstarted, e, run', -, hdone, -, hlog⟩ := publishes_get_through (opened_openedConfig _)
    rfl rfl (by decide) run hstack hrx (by rw [hreads]; decide) hqos
  have horder := hstarted started hobserved
  rw [hunder] at horder
  rw [hunder, hnone] at hlog
  exact ⟨started, d, e, hunder, hobserved, horder, run', hdone, hlog⟩

end Mqtt5.ClientProgress
