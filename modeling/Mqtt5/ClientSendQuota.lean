import Mqtt5.ClientSession

/-!
# The send quota

`server_send_quota_` counts the slots of the server's Receive Maximum that are free. A
publish takes one when it starts; what gives it back is the handler of a PUBACK alone.
-/
namespace Mqtt5.ClientSendQuota
open WirePrimitives WirePublish WireConnect WireControlPacket CallMachine ClientState ClientSession
open WireSubscribe hiding TopicFilter
open TopicMatching

/-- Whether a packet leaves the slots and the publishes in step: a PUBACK names a publish
or comes when all slots are free, and neither a PUBREC nor a PUBCOMP ends a publish. -/
def keepsSlots (c : Client) : ControlPacket → Bool
  | .puback ack => (c.publishedMessages.find? (·.named ack.packetIdentifier)).isSome ||
      c.serverSendQuota = c.serverMaxSendQuota
  | .pubrec ack => (c.publishedMessages.find? (·.named ack.packetIdentifier)).all fun msg =>
      ack.reasonCode ≤ Client.noMatchingSubscribers && msg.state ≠ .waitingPuback
  | .pubcomp ack => (c.publishedMessages.find? (·.named ack.packetIdentifier)).isNone
  | _ => true

/-- A step that starts no publish whose encoding throws. -/
def startsEncode (c : Config) : Action → Bool
  | .operate (.publish message) =>
      message.qualityOfService = qos0 || Encodes (.publish (c.state.nextStarter message).message)
  | _ => true

/-- A step that keeps the slots. -/
def keeps (c : Config) (a : Action) : Bool :=
  (match c.stack with
    | .dispatch .main (.packetReceived p) :: _ => keepsSlots c.state p
    | _ => true) && startsEncode c a

theorem keeps_packet {c : Config} {a : Action} (h : keeps c a = true) {p : ControlPacket}
    {rest : List Call} (hstack : c.stack = .dispatch .main (.packetReceived p) :: rest) :
    keepsSlots c.state p = true := by
  simp only [keeps, hstack, Bool.and_eq_true] at h
  exact h.1

theorem keeps_publish {c : Config} {message : Publish}
    (h : keeps c (.operate (.publish message)) = true) (hqos : message.qualityOfService ≠ qos0) :
    Encodes (.publish (c.state.nextStarter message).message) := by
  simp only [keeps, startsEncode, Bool.and_eq_true, Bool.or_eq_true, decide_eq_true_eq] at h
  exact h.2.resolve_left hqos

/-- Slots taken are publishes under way, and those whose receiver has been completed and
whose handler is about to give the slot back. -/
structure Conserved (c : Client) (pending : ℕ) : Prop where
  quota : c.serverSendQuota.toNat + c.publishedMessages.length + pending =
    c.serverMaxSendQuota.toNat
  encodes : ∀ op ∈ c.queuedPublishes, Encodes (.publish op.message)

def pending (stack : List Call) : ℕ := stack.count .maybeSendQueuedPublish

theorem pending_eq_zero {calls : List Call} (h : .maybeSendQueuedPublish ∉ calls) :
    pending calls = 0 := List.count_eq_zero.mpr h

theorem Conserved.of_same {c d : Client} {n : ℕ} (h : Conserved c n) (hsame : c.SameSendSide d) :
    Conserved d n := by
  constructor
  · rw [hsame.serverSendQuota, hsame.publishedMessages, hsame.serverMaxSendQuota]
    exact h.quota
  · rw [hsame.queuedPublishes]
    exact h.encodes

/-- A reaction to a packet or a request, as far as the slots are concerned. -/
structure KeptBy (c : Client) (n : ℕ) (r : Reaction) : Prop where
  conserved : Conserved r.state (n + pending r.calls)
  threw : r.threw = false
  serverMaxSendQuota : r.state.serverMaxSendQuota = c.serverMaxSendQuota

/-- With a slot free, a publish takes it and comes under way. -/
theorem kept_startFn {c : Client} {n : ℕ} {op : PublishOpStarter} (h : Conserved c n)
    (hfree : c.serverSendQuota > 0) (hencodes : Encodes (.publish op.message)) :
    KeptBy c n (c.startFn op) := by
  obtain ⟨pendingWrites, hstart⟩ := c.startFn_of_encodes hencodes
  rw [hstart]
  have hquota := h.quota
  have hpos : 0 < c.serverSendQuota.toNat := hfree
  have hle : 1 ≤ c.serverSendQuota := UInt16.le_iff_toNat_le.mpr hpos
  have hminus : (c.serverSendQuota - 1).toNat = c.serverSendQuota.toNat - 1 := by
    rw [UInt16.toNat_sub_of_le _ _ hle]
    rfl
  refine ⟨⟨?_, h.encodes⟩, rfl, rfl⟩
  change (c.serverSendQuota - 1).toNat + (c.publishedMessages ++ [_]).length + n =
    c.serverMaxSendQuota.toNat
  rw [hminus, List.length_append, List.length_singleton]
  omega

/-- The handler that is about to give a slot back does so, to the first publish queued if
there is one. -/
theorem kept_maybeSend {c : Client} {n : ℕ} (h : Conserved c (n + 1)) :
    KeptBy c n c.maybeSendQueuedPublish := by
  have hquota := h.quota
  have hmax := c.serverMaxSendQuota.toNat_lt
  have hlt : c.serverSendQuota < c.serverMaxSendQuota := by
    rw [UInt16.lt_iff_toNat_lt]
    omega
  have hplus : (c.serverSendQuota + 1).toNat = c.serverSendQuota.toNat + 1 := by
    rw [UInt16.toNat_add]
    change (c.serverSendQuota.toNat + 1) % 65536 = _
    omega
  cases hqueue : c.queuedPublishes with
  | nil =>
    rw [Client.maybeSend_of_empty hlt hqueue]
    refine ⟨⟨?_, h.encodes⟩, rfl, rfl⟩
    change (c.serverSendQuota + 1).toNat + c.publishedMessages.length + n =
      c.serverMaxSendQuota.toNat
    omega
  | cons next queued =>
    have hnext : Encodes (.publish next.message) :=
      h.encodes next (by rw [hqueue]; exact List.mem_cons_self)
    rw [Client.maybeSend_of_queued hlt hqueue]
    let freed : Client :=
      { c with serverSendQuota := c.serverSendQuota + 1, queuedPublishes := queued }
    have hkept : KeptBy freed n (freed.startFn next) := by
      refine kept_startFn ⟨?_, ?_⟩ ?_ hnext
      · change (c.serverSendQuota + 1).toNat + c.publishedMessages.length + n =
          c.serverMaxSendQuota.toNat
        omega
      · intro op hop
        exact h.encodes op (by rw [hqueue]; exact List.mem_cons_of_mem _ hop)
      · rw [gt_iff_lt, UInt16.lt_iff_toNat_lt]
        change 0 < (c.serverSendQuota + 1).toNat
        omega
    exact ⟨hkept.conserved, hkept.threw, hkept.serverMaxSendQuota⟩

/-- With all slots free there is none to give back. -/
theorem maybeSend_of_free {c : Client} (h : c.serverSendQuota = c.serverMaxSendQuota) :
    c.maybeSendQueuedPublish = { state := c } :=
  Client.maybeSend_of_full (by rw [h]; exact UInt16.lt_irrefl _)

/-- The slot of a publish that ends waits for the handler to give it back. -/
theorem conserved_finishPublish {c : Client} {n : ℕ} (h : Conserved c n) {id : UInt16}
    {msg : InFlightPublish} (hfind : c.publishedMessages.find? (·.named id) = some msg)
    (completion : Completion) (after : List Call) :
    Conserved (c.finishPublish id msg completion after).state (n + 1) := by
  have hquota := h.quota
  have hmem := List.mem_of_find?_eq_some hfind
  have hnamed : msg.named id := List.find?_some hfind
  have hlen : (c.publishedMessages.eraseP (·.named id)).length = c.publishedMessages.length - 1 :=
    List.length_eraseP_of_mem hmem hnamed
  have hpos := List.length_pos_of_mem hmem
  refine ⟨?_, h.encodes⟩
  change c.serverSendQuota.toNat + (c.publishedMessages.eraseP (·.named id)).length + (n + 1) =
    c.serverMaxSendQuota.toNat
  omega

theorem kept_of_same {c : Client} {n : ℕ} {r : Reaction} (h : Conserved c n)
    (hsame : c.SameSendSide r.state) (hcalls : .maybeSendQueuedPublish ∉ r.calls)
    (hthrew : r.threw = false) : KeptBy c n r where
  conserved := by
    rw [pending_eq_zero hcalls]
    exact h.of_same hsame
  threw := hthrew
  serverMaxSendQuota := hsame.serverMaxSendQuota

theorem kept_of_receives {c : Client} {n : ℕ} {r : Reaction} (h : Conserved c n)
    (hr : c.Receives r) (hthrew : r.threw = false) : KeptBy c n r :=
  kept_of_same h hr.state (fun hmem => hr.calls _ hmem) hthrew

theorem kept_sendTurn {c : Client} {n : ℕ} {p : ControlPacket} {r : Reaction}
    (h : Conserved c n) (hp : keepsSlots c p = true) (hturn : c.SendTurn p r) : KeptBy c n r := by
  cases hturn with
  | idle => exact ⟨h, rfl, rfl⟩
  | puback ack hfind =>
    simp only [keepsSlots, hfind, Option.isSome_none, Bool.false_or, decide_eq_true_eq] at hp
    rw [maybeSend_of_free hp]
    exact ⟨h, rfl, rfl⟩
  | pubrec | subscribed | unsubscribed => exact ⟨⟨h.quota, h.encodes⟩, rfl, rfl⟩
  | finished ack msg _ completion after hfind hfinish =>
    have hconserved := conserved_finishPublish h hfind completion after
    cases hfinish with
    | puback | pubackEarly => exact ⟨hconserved, rfl, rfl⟩
    | pubrecError hcode =>
      simp [keepsSlots, hfind, UInt8.not_le.mpr hcode] at hp
    | pubrecEarly _ hstate => simp [keepsSlots, hfind, hstate] at hp
    | pubcomp => simp [keepsSlots, hfind] at hp
  | advanced =>
    refine ⟨⟨?_, h.encodes⟩, rfl, rfl⟩
    change c.serverSendQuota.toNat + (modifyFirst _ _ _).length + (n + 0) = _
    rw [length_modifyFirst]
    exact h.quota

theorem kept_handlePacket {c : Client} {n : ℕ} {p : ControlPacket} (h : Conserved c n)
    (hp : keepsSlots c p = true) : KeptBy c n (c.handlePacket p) := by
  cases p with
  | publish p => exact kept_of_receives h (c.handlePublish_receives p) (c.handlePublish_threw p)
  | pubrel p => exact kept_of_receives h (c.handlePubrel_receives p) (c.handlePubrel_threw p)
  | _ => exact kept_sendTurn h hp (c.handlePacket_sendTurn (by simp) (by simp))

/-- A client whose slots are kept and whose maximum is that of `c`. -/
def KeptFrom (c : Client) (n : ℕ) (d : Client) : Prop :=
  Conserved d n ∧ d.serverMaxSendQuota = c.serverMaxSendQuota

theorem KeptFrom.of_same {c d : Client} {n : ℕ} (h : Conserved c n) (hsame : c.SameSendSide d) :
    KeptFrom c n d :=
  ⟨h.of_same hsame, hsame.serverMaxSendQuota⟩

theorem kept_startPublish {c : Client} {n : ℕ} {message : Publish} (h : Conserved c n)
    (hencodes : message.qualityOfService ≠ qos0 → Encodes (.publish (c.nextStarter message).message)) :
    KeptFrom c n (c.startPublish message).state := by
  by_cases hqos : message.qualityOfService = qos0
  · rw [c.startPublish_of_qos0 hqos]
    have hsend := c.controlPacketWriter_ensures (.publish message) .message (fun _ => True)
    have hstart : ((c.sendMessage (.publish message)).andThen fun c =>
        ({ state := c, calls := [.user], effects := [.published message] } : Reaction)).Ensures
        (KeptFrom c n) (fun _ => True) (fun _ => True) := by
      refine Reaction.Ensures.andThen ?_ fun d hd => ?_
      · exact ⟨.of_same h hsend.state.send, hsend.calls, fun _ _ => trivial⟩
      · exact ⟨hd, fun _ _ => trivial, fun _ _ => trivial⟩
    exact hstart.state
  · have hnext := hencodes hqos
    by_cases hfree : c.serverSendQuota > 0
    · rw [c.startPublish_of_free hqos hfree]
      have hdrawn : Conserved
          { c with nextPacketIdentifier := c.nextPacketIdentifier.advance } n :=
        ⟨h.quota, h.encodes⟩
      have hkept := kept_startFn hdrawn hfree hnext
      refine ⟨?_, hkept.serverMaxSendQuota⟩
      have hcalls := Client.sends_startFn (K := fun _ => False)
        (Client.SameExchanges.refl { c with
          nextPacketIdentifier := c.nextPacketIdentifier.advance }).receive (c.nextStarter message)
      have hconserved := hkept.conserved
      rwa [pending_eq_zero fun hmem => hcalls.calls _ hmem] at hconserved
    · rw [c.startPublish_of_taken hqos hfree]
      refine ⟨⟨h.quota, ?_⟩, rfl⟩
      intro op hop
      rcases List.mem_append.mp hop with hop | hop
      · exact h.encodes op hop
      · rw [List.mem_singleton.mp hop]
        exact hnext

/-- Requests of the user keep the slots, whatever else they send. -/
theorem kept_operate {c : Client} {n : ℕ} {op : Operation} (h : Conserved c n)
    (hop : ∀ message, op = .publish message → message.qualityOfService ≠ qos0 →
      Encodes (.publish (c.nextStarter message).message)) : KeptBy c n (c.operateFrom op) := by
  have hstate : KeptFrom c n (c.operate op).state := by
    cases op with
    | publish message => exact kept_startPublish h (hop message rfl)
    | subscribe subscriptions modifier =>
      change KeptFrom c n (c.startSubscribe subscriptions modifier).state
      rcases c.startSubscribe_cases subscriptions modifier with ⟨_, _, -, hstart⟩ | hstart
      · rw [hstart]
        exact ⟨⟨h.quota, h.encodes⟩, rfl⟩
      · rw [hstart]
        exact ⟨⟨h.quota, h.encodes⟩, rfl⟩
    | unsubscribe unsub =>
      change KeptFrom c n (c.startUnsubscribe unsub).state
      rcases c.startUnsubscribe_cases unsub with ⟨_, _, -, hstart⟩ | hstart
      · rw [hstart]
        exact ⟨⟨h.quota, h.encodes⟩, rfl⟩
      · rw [hstart]
        exact ⟨⟨h.quota, h.encodes⟩, rfl⟩
    | _ => exact .of_same h (c.operate_aside _ (by simp) (by simp) (by simp)).state
  refine ⟨?_, rfl, hstate.2⟩
  rw [pending_eq_zero (operateFrom_calls c op deferred_maybeSend)]
  exact hstate.1

/-- The law for a whole configuration of a connected client. -/
structure Settled (max : UInt16) (c : Config) : Prop where
  main : c.state.main = .connected
  serverMaxSendQuota : c.state.serverMaxSendQuota = max
  conserved : Conserved c.state (pending c.stack)

theorem Settled.react {max : UInt16} {c : Config} (h : Settled max c) {rest : List Call}
    {r : Reaction} (hmain : r.state.main = .connected) (hr : KeptBy c.state (pending rest) r) :
    Settled max (client.react c rest r) := by
  rw [Program.react_of_not_threw hr.threw]
  refine ⟨hmain, hr.serverMaxSendQuota.trans h.serverMaxSendQuota, ?_⟩
  change Conserved r.state (pending (r.calls ++ rest))
  rw [pending, List.count_append, Nat.add_comm]
  exact hr.conserved

theorem settled_run {max : UInt16} {c d : Config} (h : Settled max c)
    (run : client.Run (fun c a => keeps c a) c d) : Settled max d := by
  apply run.invariant h
  · intro c a r hc _ hstack hr
    have hquiet := Client.arrive_quiet hr
    have hconserved := hc.conserved
    rw [hstack] at hconserved
    exact hc.react (hquiet.same.main.trans hc.main)
      (kept_of_same hconserved hquiet.same.send (hquiet.calls _ deferred_maybeSend) hquiet.threw)
  · intro c a call rest r hc hok hstack hr
    apply hc.react (respond_main hr hc.main)
    have hconserved := hc.conserved
    rw [hstack] at hconserved
    have hother : call ≠ .maybeSendQueuedPublish → Conserved c.state (pending rest) := by
      intro hcall
      rwa [pending, List.count_cons_of_ne hcall] at hconserved
    cases Client.respond_turn hr with
    | main e r hturn =>
      have hrest := hother (by simp)
      have hkept : KeptBy c.state (pending rest) r := by
        cases hturn with
        | packet p => exact kept_handlePacket hrest (keeps_packet hok hstack)
        | pubackSent =>
          apply kept_of_receives hrest c.state.handlePubackSent_receives
          rw [Client.handlePubackSent]
          split <;> rfl
        | connack p h' => rw [hc.main] at h'; cases h'
        | handshake h' => rw [hc.main] at h'; cases h'
        | disconnect h' => rw [hc.main] at h'; cases h'
        | ignored => exact ⟨hrest, rfl, rfl⟩
      exact ⟨hkept.conserved, hkept.threw, hkept.serverMaxSendQuota⟩
    | anonymous h' => rw [hc.main] at h'; cases h'
    | maybeSend =>
      rw [pending, List.count_cons_self] at hconserved
      exact kept_maybeSend hconserved
    | operate op =>
      apply kept_operate (hother (by simp))
      rintro message rfl
      exact keeps_publish hok
    | close => exact ⟨hother (by simp), rfl, rfl⟩
    | quiet _ _ _ hquiet hcall =>
      exact kept_of_same (hother hcall.1) hquiet.same.send (hquiet.calls _ deferred_maybeSend)
        hquiet.threw

/-- From a CONNACK with nothing under way or queued, and as long as the slots are kept, a
slot is free or taken by a publish under way, or is about to be given back by a handler
whose receiver has not returned. -/
theorem sendQuota_conserved {connack : Connack} {c d : Config} (hopen : Opened connack c)
    (hpublished : c.state.publishedMessages = []) (hqueued : c.state.queuedPublishes = [])
    (run : client.Run (fun c a => keeps c a) c d) :
    d.state.serverMaxSendQuota = connack.properties.receiveMaximum ∧
    d.state.serverSendQuota.toNat + d.state.publishedMessages.length + pending d.stack =
      d.state.serverMaxSendQuota.toNat ∧
    (d.stack = [] → d.state.serverSendQuota.toNat + d.state.publishedMessages.length =
      d.state.serverMaxSendQuota.toNat) ∧
    d.state.publishedMessages.length ≤ connack.properties.receiveMaximum.toNat := by
  have hstate := opened_state hopen
  have hstart : Settled connack.properties.receiveMaximum c := by
    refine ⟨hstate.main, hstate.serverMaxSendQuota, ?_, ?_⟩
    · rw [hpublished, pending_eq_zero hstate.stack, hstate.serverSendQuota,
        hstate.serverMaxSendQuota]
      rfl
    · rw [hqueued]
      intro op hop
      cases hop
  have hend := settled_run hstart run
  have hquota := hend.conserved.quota
  refine ⟨hend.serverMaxSendQuota, hquota, ?_, ?_⟩
  · intro hstack
    rw [hstack] at hquota
    exact hquota
  · rw [← hend.serverMaxSendQuota]
    omega

/-- A CONNACK with a Receive Maximum of 2. -/
def twoSlots : Connack := { flags := 0, reasonCode := 0, properties := { receiveMaximum := 2 } }

/-- Two publishes, of which one has been acknowledged. -/
theorem sendQuota_conserved_twoSlots : ∃ d : Config,
    client.Run (fun c a => keeps c a) (openedConfig twoSlots) d ∧ d.stack = [] ∧
      d.state.publishedMessages.length = 1 ∧
      d.state.serverSendQuota.toNat + d.state.publishedMessages.length = 2 := by
  have hsteps : (client.stepsWhile keeps (openedConfig twoSlots)
      (settleActions ++ request (.publish publishQos1) ++ request (.publish publishQos2) ++
        completion (.puback { packetIdentifier := 1 }) 1)).map
      (fun d => (d.stack, d.state.publishedMessages.length, d.state.serverMaxSendQuota)) =
        some ([], 1, 2) := by decide +kernel
  obtain ⟨d, hd, hfacts⟩ := Option.map_eq_some_iff.mp hsteps
  simp only [Prod.mk.injEq] at hfacts
  obtain ⟨hstack, hlength, hmax⟩ := hfacts
  have run := Program.Run.of_stepsWhile _ hd
  have hquota := (sendQuota_conserved (opened_openedConfig twoSlots) rfl rfl run).2.2.1 hstack
  rw [hmax] at hquota
  exact ⟨d, run, hstack, hlength, hquota⟩

/-- A publish of quality of service 2 ends with a PUBCOMP, and its slot is never free again. -/
theorem sendQuota_lost : ¬ ∀ (connack : Connack) (c d : Config), Opened connack c →
    c.state.publishedMessages = [] → c.state.queuedPublishes = [] →
    client.Run (fun c a => startsEncode c a) c d → d.stack = [] →
    d.state.serverSendQuota.toNat + d.state.publishedMessages.length =
      d.state.serverMaxSendQuota.toNat := by
  intro hconserved
  have hsteps : (client.stepsWhile startsEncode (openedConfig twoSlots)
      (settleActions ++ request (.publish publishQos2) ++
        arrival (.pubrec { packetIdentifier := 1 }) ++
        completion (.pubcomp { packetIdentifier := 1 }) 0)).map
      (fun d => (d.stack, d.state.publishedMessages, d.state.serverSendQuota,
        d.state.serverMaxSendQuota)) = some ([], [], 1, 2) := by decide +kernel
  obtain ⟨d, hd, hfacts⟩ := Option.map_eq_some_iff.mp hsteps
  simp only [Prod.mk.injEq] at hfacts
  obtain ⟨hstack, hpublished, hquota, hmax⟩ := hfacts
  have hlaw := hconserved twoSlots _ d (opened_openedConfig twoSlots) rfl rfl
    (Program.Run.of_stepsWhile _ hd) hstack
  rw [hpublished, hquota, hmax] at hlaw
  cases hlaw

end Mqtt5.ClientSendQuota
