import Mqtt5.ClientSession

/-!
# The order in which publishes leave

A publish that asks for an acknowledgement is sent when it starts, or waits behind those
that already wait until a slot of the server's Receive Maximum is given back. The queue is
the last part of what was started, and it is empty unless all slots are taken.
-/
namespace Mqtt5.ClientOrder
open WirePrimitives WirePublish WireConnect WireControlPacket CallMachine ClientState ClientSession
open WireSubscribe hiding TopicFilter
open TopicMatching

/-! ## What was started and what was sent -/

/-- The publishes with acknowledgement, as they are started, the last one first. -/
def note (c : Config) (a : Action) (_ : Config) : List Publish :=
  match c.stack, a with
  | .user :: _, .operate (.publish message) =>
      if message.qualityOfService = qos0 then [] else [(c.state.nextStarter message).message]
  | _, _ => []

def publishOf : Effect → Option Publish
  | .sent (.publish message) _ =>
      if message.qualityOfService = qos0 then none else some message
  | _ => none

/-- The publishes with acknowledgement that were sent, in their order. -/
def sentPublishes (log : List Effect) : List Publish := (log.filterMap publishOf).reverse

def encodes (message : Publish) : Bool := Encodes (.publish message)

def waiting (c : Client) : List Publish := c.queuedPublishes.map (·.message)

theorem sentPublishes_append (newer older : List Effect) :
    sentPublishes (newer ++ older) = sentPublishes older ++ sentPublishes newer := by
  rw [sentPublishes, List.filterMap_append, List.reverse_append, sentPublishes, sentPublishes]

theorem sentPublishes_nil {effects : List Effect} (h : ∀ e ∈ effects, publishOf e = none) :
    sentPublishes effects = [] := by
  rw [sentPublishes, List.filterMap_eq_nil_iff.mpr h, List.reverse_nil]

/-! ## Slots and the queue -/

/-- What a reaction makes of the slots and the queue; `started` is what it starts. -/
inductive SlotTurn (c : Client) (started : List Publish) (r : Reaction) : Prop
  /-- Neither is touched. -/
  | same (hstarted : started = []) (hsent : sentPublishes r.effects = [])
      (hqueue : waiting r.state = waiting c) (hquota : r.state.serverSendQuota = c.serverSendQuota)
      (hmax : r.state.serverMaxSendQuota = c.serverMaxSendQuota)
  /-- A publish takes a slot. -/
  | taken (message : Publish) (hstarted : started = [message]) (hfree : c.serverSendQuota > 0)
      (hsent : sentPublishes r.effects = [message].filter encodes)
      (hqueue : waiting r.state = waiting c)
      (hquota : r.state.serverSendQuota = c.serverSendQuota - 1)
      (hmax : r.state.serverMaxSendQuota = c.serverMaxSendQuota)
  /-- A publish waits for one. -/
  | queued (message : Publish) (hstarted : started = [message]) (hfull : ¬ c.serverSendQuota > 0)
      (hsent : sentPublishes r.effects = []) (hqueue : waiting r.state = waiting c ++ [message])
      (hquota : r.state.serverSendQuota = c.serverSendQuota)
      (hmax : r.state.serverMaxSendQuota = c.serverMaxSendQuota)
  /-- A slot is given back. -/
  | released (hstarted : started = []) (hroom : c.serverSendQuota < c.serverMaxSendQuota)
      (hempty : waiting c = []) (hsent : sentPublishes r.effects = [])
      (hqueue : waiting r.state = []) (hquota : r.state.serverSendQuota = c.serverSendQuota + 1)
      (hmax : r.state.serverMaxSendQuota = c.serverMaxSendQuota)
  /-- A slot is given back and the first publish in the queue takes it. -/
  | passed (message : Publish) (rest : List Publish) (hstarted : started = [])
      (hroom : c.serverSendQuota < c.serverMaxSendQuota) (hwaiting : waiting c = message :: rest)
      (hsent : sentPublishes r.effects = [message].filter encodes)
      (hqueue : waiting r.state = rest)
      (hquota : r.state.serverSendQuota = c.serverSendQuota + 1 - 1)
      (hmax : r.state.serverMaxSendQuota = c.serverMaxSendQuota)

theorem SlotTurn.of_same {c : Client} {r : Reaction} (h : c.SameSendSide r.state)
    (heffects : ∀ e ∈ r.effects, publishOf e = none) : SlotTurn c [] r := by
  refine .same rfl (sentPublishes_nil heffects) ?_ h.serverSendQuota h.serverMaxSendQuota
  rw [waiting, h.queuedPublishes, waiting]

/-- What is left to be called is no matter of the slots. -/
theorem SlotTurn.congr {c : Client} {started : List Publish} {r r' : Reaction}
    (h : SlotTurn c started r) (hstate : r'.state = r.state)
    (heffects : sentPublishes r'.effects = sentPublishes r.effects) : SlotTurn c started r' := by
  cases h with
  | same hstarted hsent hqueue hquota hmax =>
    rw [← heffects] at hsent
    rw [← hstate] at hqueue hquota hmax
    exact .same hstarted hsent hqueue hquota hmax
  | taken message hstarted hfree hsent hqueue hquota hmax =>
    rw [← heffects] at hsent
    rw [← hstate] at hqueue hquota hmax
    exact .taken message hstarted hfree hsent hqueue hquota hmax
  | queued message hstarted hfull hsent hqueue hquota hmax =>
    rw [← heffects] at hsent
    rw [← hstate] at hqueue hquota hmax
    exact .queued message hstarted hfull hsent hqueue hquota hmax
  | released hstarted hroom hempty hsent hqueue hquota hmax =>
    rw [← heffects] at hsent
    rw [← hstate] at hqueue hquota hmax
    exact .released hstarted hroom hempty hsent hqueue hquota hmax
  | passed message rest hstarted hroom hwaiting hsent hqueue hquota hmax =>
    rw [← heffects] at hsent
    rw [← hstate] at hqueue hquota hmax
    exact .passed message rest hstarted hroom hwaiting hsent hqueue hquota hmax

theorem receiving_publishes {e : Effect} (h : e.Receiving) : publishOf e = none := by
  cases e with
  | sent packet receiver => cases packet <;> first | exact h.elim | rfl
  | _ => rfl

theorem quiet_publishes {e : Effect} (h : e.Quiet) : publishOf e = none := by
  cases e with
  | sent packet receiver => cases packet <;> first | exact h.elim | rfl
  | _ => rfl

/-- Taking a slot sends the publish, if it can be encoded. -/
theorem startFn_turn (c : Client) {op : PublishOpStarter}
    (hqos : op.message.qualityOfService ≠ qos0) :
    sentPublishes (c.startFn op).effects = [op.message].filter encodes ∧
      waiting (c.startFn op).state = waiting c ∧
      (c.startFn op).state.serverSendQuota = c.serverSendQuota - 1 ∧
      (c.startFn op).state.serverMaxSendQuota = c.serverMaxSendQuota := by
  by_cases hencodes : Encodes (.publish op.message)
  · obtain ⟨pendingWrites, hstart⟩ := c.startFn_of_encodes hencodes
    rw [hstart]
    refine ⟨?_, rfl, rfl, rfl⟩
    have hsent : publishOf (.sent (.publish op.message) .message) = some op.message := if_neg hqos
    rw [sentPublishes, List.filterMap_cons_none rfl, List.filterMap_cons_some hsent]
    simp [encodes, hencodes]
  · rw [c.startFn_of_not_encodes hencodes]
    refine ⟨?_, rfl, rfl, rfl⟩
    simp [sentPublishes, encodes, hencodes]

/-- The publishes that wait ask for an acknowledgement. -/
def Acknowledged (c : Client) : Prop := ∀ message ∈ waiting c, message.qualityOfService ≠ qos0

theorem turn_maybeSend {c : Client} (h : Acknowledged c) : SlotTurn c [] c.maybeSendQueuedPublish := by
  by_cases hroom : c.serverSendQuota < c.serverMaxSendQuota
  · cases hqueue : c.queuedPublishes with
    | nil =>
      rw [Client.maybeSend_of_empty hroom hqueue]
      refine .released rfl hroom ?_ rfl ?_ rfl rfl
      · rw [waiting, hqueue, List.map_nil]
      · rw [waiting]
        exact congrArg _ hqueue
    | cons next queue =>
      have hwaiting : waiting c = next.message :: queue.map (·.message) := by
        rw [waiting, hqueue, List.map_cons]
      have hqos : next.message.qualityOfService ≠ qos0 :=
        h next.message (by rw [hwaiting]; exact List.mem_cons_self)
      obtain ⟨hsent, hrest, hquota, hmax⟩ := startFn_turn { c with
        serverSendQuota := c.serverSendQuota + 1, queuedPublishes := queue } hqos
      rw [Client.maybeSend_of_queued hroom hqueue]
      exact .passed next.message _ rfl hroom hwaiting hsent hrest hquota hmax
  · rw [Client.maybeSend_of_full hroom]
    exact .same rfl rfl rfl rfl rfl

theorem turn_handlePacket {c : Client} (h : Acknowledged c) (p : ControlPacket) :
    SlotTurn c [] (c.handlePacket p) := by
  obtain hreceives | hsends := c.handlePacket_turn p
  · exact .of_same hreceives.state fun e he => receiving_publishes (hreceives.effects e he)
  · generalize c.handlePacket p = r at hsends
    cases hsends with
    | puback => exact turn_maybeSend h
    | _ => exact .same rfl rfl rfl rfl rfl

theorem turn_publish (c : Client) (message : Publish) :
    SlotTurn c (if message.qualityOfService = qos0 then [] else [(c.nextStarter message).message])
      (c.startPublish message) := by
  by_cases hqos : message.qualityOfService = qos0
  · rw [if_pos hqos, c.startPublish_of_qos0 hqos]
    by_cases hencodes : Encodes (.publish message)
    · obtain ⟨pendingWrites, hsend⟩ := c.sendMessage_of_encodes hencodes
      rw [hsend, Reaction.andThen_of_not_threw rfl]
      refine .same rfl (sentPublishes_nil ?_) rfl rfl rfl
      simp [publishOf, hqos]
    · rw [c.sendMessage_of_not_encodes hencodes, Reaction.andThen_of_threw rfl]
      exact .same rfl rfl rfl rfl rfl
  · rw [if_neg hqos]
    by_cases hfree : c.serverSendQuota > 0
    · have hnext : (c.nextStarter message).message.qualityOfService ≠ qos0 := hqos
      obtain ⟨hsent, hqueue, hquota, hmax⟩ :=
        startFn_turn { c with nextPacketIdentifier := c.nextPacketIdentifier.advance } hnext
      rw [c.startPublish_of_free hqos hfree]
      exact .taken _ rfl hfree hsent hqueue hquota hmax
    · rw [c.startPublish_of_taken hqos hfree]
      refine .queued _ rfl hfree rfl ?_ rfl rfl
      exact List.map_append

/-- What a request starts. -/
def startedBy (c : Client) : Operation → List Publish
  | .publish message =>
      if message.qualityOfService = qos0 then [] else [(c.nextStarter message).message]
  | _ => []

theorem turn_operate (c : Client) (op : Operation) :
    SlotTurn c (startedBy c op) (c.operate op) := by
  have haside := c.operate_aside op
  cases op with
  | publish message => exact turn_publish c message
  | subscribe subscriptions modifier =>
    change SlotTurn c [] (c.startSubscribe subscriptions modifier)
    rcases c.startSubscribe_cases subscriptions modifier with ⟨message, _, -, hstart⟩ | hstart
    · rw [hstart]
      exact .same rfl rfl rfl rfl rfl
    · rw [hstart]
      exact .same rfl rfl rfl rfl rfl
  | unsubscribe unsub =>
    change SlotTurn c [] (c.startUnsubscribe unsub)
    rcases c.startUnsubscribe_cases unsub with ⟨message, _, -, hstart⟩ | hstart
    · rw [hstart]
      exact .same rfl rfl rfl rfl rfl
    · rw [hstart]
      exact .same rfl rfl rfl rfl rfl
  | _ =>
    have haside := haside (by simp) (by simp) (by simp)
    refine .of_same haside.state fun e he => ?_
    rcases haside.effects e he with ⟨reason, rfl⟩ | rfl <;> rfl

/-- Whatever a connected client runs. -/
theorem turn_respond {c : Config} (hmain : c.state.main = .connected)
    (h : Acknowledged c.state) {call : Call} {rest : List Call} (hstack : c.stack = call :: rest)
    {a : Action} {r : Reaction} (hr : client.respond c.state call a = some r) (d : Config) :
    SlotTurn c.state (note c a d) r := by
  by_cases hop : call = .user ∧ ∃ op, a = .operate op
  · obtain ⟨rfl, op, rfl⟩ := hop
    cases hr
    have hnote : note c (.operate op) d = startedBy c.state op := by
      unfold note
      rw [hstack]
      cases op <;> rfl
    rw [hnote]
    exact (turn_operate c.state op).congr rfl rfl
  have hnote : note c a d = [] := by
    unfold note
    rw [hstack]
    split
    case h_1 message heq =>
      injection heq with heq
      exact absurd ⟨heq, _, rfl⟩ hop
    case h_2 => rfl
  rw [hnote]
  cases Client.respond_turn hr with
  | main e r hturn =>
    have hentry : sentPublishes (r.effects ++ [.event e c.state.main]) = sentPublishes r.effects := by
      rw [sentPublishes_append]
      rfl
    refine SlotTurn.congr (r := r) ?_ rfl hentry
    cases hturn with
    | packet p => exact turn_handlePacket h p
    | pubackSent =>
      have hreceives := c.state.handlePubackSent_receives
      exact .of_same hreceives.state fun e he => receiving_publishes (hreceives.effects e he)
    | connack p h' => cases hmain.symm.trans h'
    | handshake h' => cases hmain.symm.trans h'
    | disconnect h' => cases hmain.symm.trans h'
    | ignored => exact .same rfl rfl rfl rfl rfl
  | anonymous hstart => cases hmain.symm.trans hstart
  | maybeSend => exact turn_maybeSend h
  | operate op => exact absurd ⟨rfl, op, rfl⟩ hop
  | close => exact .same rfl rfl rfl rfl rfl
  | quiet _ _ _ hquiet =>
    exact .of_same hquiet.same.send fun e he => quiet_publishes (hquiet.effects e he)

/-! ## Every run -/

/-- What holds between two steps, from `before`, what had been sent before the CONNACK. -/
structure InOrder (max : UInt16) (before started : List Publish) (c : Config) : Prop where
  full : waiting c.state ≠ [] → c.state.serverSendQuota = 0
  max_eq : c.state.serverMaxSendQuota = max
  bound : c.state.serverSendQuota ≤ max
  order : ∃ handed, started.reverse = handed ++ waiting c.state ∧
    sentPublishes c.log = before ++ handed.filter encodes

/-- The publishes handed to `send_message`: all that were started and do not wait. -/
def handedOver (started : List Publish) (c : Client) : ℕ := started.length - (waiting c).length

/-- The slots after a step, as integers: a publish takes one, or gets the one given back. -/
def CountsSlots (started : List Publish) (c : Config) (started' : List Publish) (d : Config) : Prop :=
  d.state.serverSendQuota.toNat + handedOver started' d.state =
      c.state.serverSendQuota.toNat + handedOver started c.state ∨
    c.state.serverSendQuota < c.state.serverMaxSendQuota ∧
      d.state.serverSendQuota.toNat + handedOver started' d.state =
        c.state.serverSendQuota.toNat + handedOver started c.state + 1

variable {max : UInt16} {before started newer : List Publish} {c : Config} {rest : List Call}
  {r : Reaction}

theorem toNat_pred {quota : UInt16} (h : quota > 0) : (quota - 1).toNat + 1 = quota.toNat := by
  have hpos : 0 < quota.toNat := h
  have hle : 1 ≤ quota := UInt16.le_iff_toNat_le.mpr hpos
  rw [UInt16.toNat_sub_of_le _ _ hle]
  change quota.toNat - 1 + 1 = _
  omega

theorem toNat_succ {quota max : UInt16} (h : quota < max) : (quota + 1).toNat = quota.toNat + 1 := by
  have hlt := UInt16.lt_iff_toNat_lt.mp h
  have hmax := max.toNat_lt
  rw [UInt16.toNat_add]
  change (quota.toNat + 1) % 65536 = _
  omega

theorem InOrder.length (h : InOrder max before started c) :
    (waiting c.state).length ≤ started.length := by
  obtain ⟨handed, hstarted, -⟩ := h.order
  have hlength := congrArg List.length hstarted
  rw [List.length_reverse, List.length_append] at hlength
  omega

theorem InOrder.empty (h : InOrder max before started c) (hfree : c.state.serverSendQuota > 0) :
    waiting c.state = [] := by
  by_contra hne
  rw [h.full hne] at hfree
  exact absurd hfree (by decide)

/-- One step keeps the order. -/
theorem InOrder.react (h : InOrder max before started c) (hturn : SlotTurn c.state newer r) :
    InOrder max before (newer ++ started) (client.react c rest r) := by
  obtain ⟨handed, hhanded, hlog⟩ := h.order
  have hsum : sentPublishes (client.react c rest r).log =
      before ++ handed.filter encodes ++ sentPublishes r.effects := by
    change sentPublishes (r.effects ++ c.log) = _
    rw [sentPublishes_append, hlog]
  have hstate : (client.react c rest r).state = r.state := rfl
  cases hturn with
  | same hstarted hsent hqueue hquota hmax =>
    subst hstarted
    rw [hsent, List.append_nil] at hsum
    refine ⟨?_, hmax.trans h.max_eq, ?_, handed, ?_, hsum⟩
    · rw [hstate, hqueue, hquota]
      exact h.full
    · rw [hstate, hquota]
      exact h.bound
    · rw [hstate, hqueue]
      exact hhanded
  | taken message hstarted hfree hsent hqueue hquota hmax =>
    subst hstarted
    have hpred := toNat_pred hfree
    rw [h.empty hfree] at hqueue hhanded
    rw [hsent, List.append_assoc, ← List.filter_append] at hsum
    refine ⟨?_, hmax.trans h.max_eq, ?_, handed ++ [message], ?_, hsum⟩
    · rw [hstate, hqueue]
      exact fun hne => absurd rfl hne
    · have hbound := UInt16.le_iff_toNat_le.mp h.bound
      rw [hstate, hquota, UInt16.le_iff_toNat_le]
      omega
    · rw [hstate, hqueue, List.append_nil, List.singleton_append, List.reverse_cons, hhanded,
        List.append_nil]
  | queued message hstarted hfull hsent hqueue hquota hmax =>
    subst hstarted
    have hzero : c.state.serverSendQuota = 0 := by
      rw [← UInt16.toNat_inj]
      have hnot : ¬ 0 < c.state.serverSendQuota.toNat := hfull
      change _ = 0
      omega
    rw [hsent, List.append_nil] at hsum
    refine ⟨fun _ => hquota.trans hzero, hmax.trans h.max_eq, ?_, handed, ?_, hsum⟩
    · rw [hstate, hquota]
      exact h.bound
    · rw [hstate, hqueue, List.singleton_append, List.reverse_cons, hhanded, List.append_assoc]
  | released hstarted hroom hnone hsent hqueue hquota hmax =>
    subst hstarted
    have hsucc := toNat_succ hroom
    have hlt := UInt16.lt_iff_toNat_lt.mp hroom
    rw [h.max_eq] at hlt
    rw [hsent, List.append_nil] at hsum
    refine ⟨?_, hmax.trans h.max_eq, ?_, handed, ?_, hsum⟩
    · rw [hstate, hqueue]
      exact fun hne => absurd rfl hne
    · rw [hstate, hquota, UInt16.le_iff_toNat_le]
      omega
    · rw [hstate, hqueue, List.nil_append]
      rw [hnone] at hhanded
      exact hhanded
  | passed message after hstarted hroom hwaiting hsent hqueue hquota hmax =>
    subst hstarted
    have hzero := h.full (by rw [hwaiting]; exact List.cons_ne_nil message after)
    have hnone : r.state.serverSendQuota = 0 := by
      rw [hquota, hzero]
      rfl
    rw [hwaiting] at hhanded
    rw [hsent, List.append_assoc, ← List.filter_append] at hsum
    refine ⟨fun _ => hnone, hmax.trans h.max_eq, ?_, handed ++ [message], ?_, hsum⟩
    · rw [hstate, hnone, ← hzero]
      exact h.bound
    · rw [hstate, hqueue, List.append_assoc]
      exact hhanded

/-- One step counts the slots. -/
theorem InOrder.counts (h : InOrder max before started c) (hturn : SlotTurn c.state newer r) :
    CountsSlots started c (newer ++ started) (client.react c rest r) := by
  have hlength := h.length
  have hstate : (client.react c rest r).state = r.state := rfl
  rw [CountsSlots, handedOver, handedOver, hstate]
  cases hturn with
  | same hstarted _ hqueue hquota =>
    subst hstarted
    rw [hqueue, hquota]
    exact .inl rfl
  | taken message hstarted hfree _ hqueue hquota =>
    subst hstarted
    have hpred := toNat_pred hfree
    apply Or.inl
    rw [hqueue, hquota, h.empty hfree, List.length_append, List.length_singleton, List.length_nil]
    omega
  | queued message hstarted _ _ hqueue hquota =>
    subst hstarted
    apply Or.inl
    rw [hqueue, hquota, List.length_append, List.length_append, List.length_singleton]
    omega
  | released hstarted hroom hnone _ hqueue hquota =>
    subst hstarted
    have hsucc := toNat_succ hroom
    refine .inr ⟨hroom, ?_⟩
    rw [hqueue, hnone, hquota, List.nil_append]
    omega
  | passed message after hstarted hroom hwaiting _ hqueue hquota =>
    subst hstarted
    have hzero := h.full (by rw [hwaiting]; exact List.cons_ne_nil message after)
    have hnone : r.state.serverSendQuota = 0 := by
      rw [hquota, hzero]
      rfl
    refine .inr ⟨hroom, ?_⟩
    rw [hwaiting, List.length_cons] at hlength
    rw [hqueue, hwaiting, hnone, hzero, List.nil_append, List.length_cons]
    omega

theorem InOrder.acknowledged (h : InOrder max before started c)
    (hqos : ∀ message ∈ started, message.qualityOfService ≠ qos0) : Acknowledged c.state := by
  intro message hmem
  obtain ⟨handed, hhanded, -⟩ := h.order
  refine hqos message (List.mem_reverse.mp ?_)
  rw [hhanded]
  exact List.mem_append_right _ hmem

theorem note_qos (c : Config) (a : Action) (d : Config) :
    ∀ message ∈ note c a d, message.qualityOfService ≠ qos0 := by
  intro message hmem
  unfold note at hmem
  split at hmem
  case h_1 original _ =>
    split at hmem
    · cases hmem
    case isFalse hqos =>
      rw [List.mem_singleton.mp hmem]
      exact hqos
  case h_2 => cases hmem

theorem turn_arrive {c : Config} (hstack : c.stack = []) {a : Action} {r : Reaction}
    (hr : c.state.arrive a = some r) (d : Config) : SlotTurn c.state (note c a d) r := by
  have hquiet := Client.arrive_quiet hr
  have hnote : note c a d = [] := by
    unfold note
    rw [hstack]
  rw [hnote]
  exact .of_same hquiet.same.send fun e he => quiet_publishes (hquiet.effects e he)

theorem inOrder_run {connack : Connack} {d : Config} (hopen : Opened connack c)
    (hempty : c.state.queuedPublishes = []) (run : client.Observed note c started d) :
    InOrder connack.properties.receiveMaximum (sentPublishes c.log) started d ∧
      ∀ message ∈ started, message.qualityOfService ≠ qos0 := by
  have hopened := opened_state hopen
  have hstart : waiting c.state = [] := by rw [waiting, hempty, List.map_nil]
  refine run.invariant (I := fun started d =>
    InOrder connack.properties.receiveMaximum (sentPublishes c.log) started d ∧
      ∀ message ∈ started, message.qualityOfService ≠ qos0) ?_ ?_ ?_
  · refine ⟨⟨fun hne => absurd hstart hne, hopened.serverMaxSendQuota, ?_, [], ?_, ?_⟩, by simp⟩
    · rw [hopened.serverSendQuota]
      exact UInt16.le_refl _
    · rw [hstart]
      rfl
    · exact (List.append_nil _).symm
  · intro started d a r _ hd hstack hr
    refine ⟨hd.1.react (turn_arrive hstack hr _), ?_⟩
    intro message hmem
    exact (List.mem_append.mp hmem).elim (note_qos d a _ message) (hd.2 message)
  · intro started d a call rest r run hd hstack hr
    have hmain := connected_run run hopened.main
    have hturn := turn_respond hmain (hd.1.acknowledged hd.2) hstack hr (client.react d rest r)
    refine ⟨hd.1.react hturn, ?_⟩
    intro message hmem
    exact (List.mem_append.mp hmem).elim (note_qos d a _ message) (hd.2 message)

/-- From a CONNACK that finds no publish waiting, publishes are handed over in the order of
their start, the queue is empty unless all slots are taken, and no count of the slots wraps. -/
theorem publishes_in_order {connack : Connack} {d : Config} (hopen : Opened connack c)
    (hempty : c.state.queuedPublishes = []) (run : client.Observed note c started d) :
    InOrder connack.properties.receiveMaximum (sentPublishes c.log) started d ∧
      ∀ a e, client.step d a = some e → CountsSlots started d (note d a e ++ started) e := by
  obtain ⟨horder, hqos⟩ := inOrder_run hopen hempty run
  refine ⟨horder, fun a e hstep => ?_⟩
  cases Program.step_stepped hstep with
  | arrive r hstack hr => exact horder.counts (turn_arrive hstack hr _)
  | respond call rest r hstack hr =>
    have hmain := connected_run run.run (opened_state hopen).main
    exact horder.counts (turn_respond hmain (horder.acknowledged hqos) hstack hr _)

/-- A server that takes one publish at a time. -/
def oneSlot : Connack where
  flags := 0
  reasonCode := 0
  properties := { receiveMaximum := 1 }

/-- Three publishes are started, the last one while the first is being completed. -/
def overtakingActions : List Action :=
  settleActions ++ request (.publish publishQos1) ++ request (.publish publishQos2) ++
    [.readValue (.puback { packetIdentifier := 1 }), .run, .operate (.publish publishQos1), .return,
      .run]

theorem publishes_in_order_one : ∃ started d, client.Observed note (openedConfig oneSlot) started d ∧
    InOrder 1 [] started d ∧
      sentPublishes d.log = [{ publishQos1 with packetIdentifier := 1 },
        { publishQos2 with packetIdentifier := 2 }] ∧
      waiting d.state = [{ publishQos1 with packetIdentifier := 3 }] := by
  have hsteps : (client.observe note [] (openedConfig oneSlot) overtakingActions).map
      (fun run => (sentPublishes run.2.log, waiting run.2.state)) =
        some ([{ publishQos1 with packetIdentifier := 1 },
          { publishQos2 with packetIdentifier := 2 }],
          [{ publishQos1 with packetIdentifier := 3 }]) := by
    decide +kernel
  obtain ⟨⟨started, d⟩, hd, hfacts⟩ := Option.map_eq_some_iff.mp hsteps
  simp only [Prod.mk.injEq] at hfacts
  have run := Program.Observed.of_observe _ .refl hd
  have horder := (publishes_in_order (opened_openedConfig oneSlot) rfl run).1
  have hbefore : sentPublishes (openedConfig oneSlot).log = [] := by decide +kernel
  rw [hbefore] at horder
  exact ⟨started, d, run, horder, hfacts.1, hfacts.2⟩

end Mqtt5.ClientOrder
