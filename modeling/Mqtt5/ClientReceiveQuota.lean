import Mqtt5.ClientStream

/-!
# The receive quota

`client_receive_quota_` counts how many publishes the server may still send. A publish with
acknowledgement takes one, and what gives it back is the write of a PUBACK alone.
-/
namespace Mqtt5.ClientReceiveQuota
open WirePrimitives WirePublish WireConnect WireControlPacket CallMachine ClientState ClientSession
open ClientStream

/-- A publish of quality of service 1 was handled. -/
def isReceived : Effect → Bool
  | .event (.packetReceived (.publish p)) .connected => p.qualityOfService = qos1
  | _ => false

/-- The write of a PUBACK was seen to be complete. -/
def isAcknowledged : Effect → Bool
  | .event .pubackSent .connected => true
  | _ => false

/-- The publishes of quality of service 1 whose PUBACK has not been written. -/
def unacknowledged (log : List Effect) : ℕ := log.countP isReceived - log.countP isAcknowledged

/-! ## PUBACKs are written once -/

/-- An effect that is no event and gives the stream neither a PUBACK nor a DISCONNECT that
closes the socket. -/
def Bystander (e : Effect) : Prop :=
  (∀ event main, e ≠ .event event main) ∧
    submittedWith e ≠ some .puback ∧ submittedWith e ≠ some .disconnect

theorem bystander_of_sending {e : Effect} (h : e.Sending) : Bystander e := by
  cases e with
  | sent packet receiver =>
    cases packet <;> first | exact h.elim | (cases h; simp [Bystander, submittedWith])
  | _ => first | exact h.elim | simp [Bystander, submittedWith]

theorem bystander_of_quiet {e : Effect} (h : e.Quiet) : Bystander e := by
  cases e with
  | sent packet receiver =>
    cases packet <;> first | exact h.elim | (cases h; simp [Bystander, submittedWith])
  | _ => first | exact h.elim | simp [Bystander, submittedWith]

theorem bystander_of_requested {e : Effect} (h : Requested e) : Bystander e := by
  rcases h with h | ⟨reason, rfl⟩ | rfl
  · exact bystander_of_sending h
  · simp [Bystander, submittedWith]
  · simp [Bystander, submittedWith]

theorem Bystander.isReceived {e : Effect} (h : Bystander e) : isReceived e = false := by
  cases e with
  | event event main => exact absurd rfl (h.1 event main)
  | _ => rfl

theorem Bystander.isAcknowledged {e : Effect} (h : Bystander e) : isAcknowledged e = false := by
  cases e with
  | event event main => exact absurd rfl (h.1 event main)
  | _ => rfl

/-- What effects say of PUBACKs: no more are written than publishes were received, but for
`n` that were under way. -/
def Answered (n : ℕ) (effects : List Effect) : Prop :=
  (submitted effects).count .puback + effects.countP isAcknowledged ≤
    effects.countP isReceived + n

theorem answered_of_bystanders {effects : List Effect} (h : ∀ e ∈ effects, Bystander e) :
    Answered 0 effects := by
  have hsubmitted : (submitted effects).count .puback = 0 := by
    rw [List.count_eq_zero]
    intro hmem
    obtain ⟨e, he, hputs⟩ := List.mem_filterMap.mp hmem
    exact (h e (List.mem_reverse.mp he)).2.1 hputs
  have hacknowledged : effects.countP isAcknowledged = 0 :=
    List.countP_eq_zero.mpr fun e he => by simp [(h e he).isAcknowledged]
  rw [Answered, hsubmitted, hacknowledged]
  exact Nat.zero_le _

theorem Answered.append {m n : ℕ} {newer older : List Effect} (h : Answered m newer)
    (h' : Answered n older) : Answered (m + n) (newer ++ older) := by
  rw [Answered, submitted, List.reverse_append, List.filterMap_append, List.count_append,
    List.countP_append, List.countP_append]
  rw [Answered, submitted] at h h'
  omega

theorem Answered.mono {m n : ℕ} {effects : List Effect} (h : Answered m effects) (hmn : m ≤ n) :
    Answered n effects :=
  h.trans (Nat.add_le_add_left hmn _)

/-- Handling a publish writes a PUBACK for quality of service 1 only. -/
theorem answered_publish (c : Client) (publish : Publish) : Answered 0
    ((c.handlePublish publish).effects ++
      [.event (.packetReceived (.publish publish)) .connected]) := by
  by_cases hqos0 : publish.qualityOfService = qos0
  · obtain ⟨_, _, -, hhandle⟩ := c.handlePublish_of_qos0 hqos0
    rw [hhandle]
    exact Nat.zero_le _
  · by_cases hqos1 : publish.qualityOfService = qos1
    · obtain ⟨_, _, _, _, htaken, -, hhandle⟩ := c.handlePublish_of_qos1 hqos1
      have hevent : isReceived (.event (.packetReceived (.publish publish)) .connected) = true := by
        simp [isReceived, hqos1]
      have hreceived : 1 ≤ ((c.handlePublish publish).effects ++
          [Effect.event (.packetReceived (.publish publish)) .connected]).countP isReceived :=
        List.countP_pos_iff.mpr ⟨_, List.mem_append_right _ List.mem_cons_self, hevent⟩
      rw [hhandle] at hreceived ⊢
      cases htaken <;> exact hreceived
    · by_cases hqos2 : publish.qualityOfService = qos2
      · obtain ⟨_, _, _, htaken, hhandle⟩ := c.handlePublish_of_qos2 hqos2
        rw [hhandle]
        cases htaken <;> exact Nat.zero_le _
      · have hreserved : publish.qualityOfService ∉ [qos0, qos1, qos2] := by
          simp [hqos0, hqos1, hqos2]
        obtain ⟨_, _, _, _, htaken, -, hhandle⟩ := c.handlePublish_of_reserved hreserved
        rw [hhandle]
        cases htaken <;> exact Nat.zero_le _

theorem answered_pubrel (c : Client) (ack : Ack) : Answered 0 (c.handlePubrel ack).effects := by
  apply answered_of_bystanders
  cases hfind : c.receivedQos2States.find? (Client.storedAs ack.packetIdentifier) with
  | none =>
    obtain ⟨_, hhandle⟩ := c.handlePubrel_of_none hfind
    rw [hhandle]
    simp [Bystander, submittedWith]
  | some publish =>
    obtain ⟨_, _, -, hhandle⟩ := c.handlePubrel_of_some hfind
    rw [hhandle]
    simp [Bystander, submittedWith]

/-- The entry of an event other than a PUBACK's write. -/
theorem Answered.entry {effects : List Effect} (h : Answered 0 effects) {e : Event}
    {main : MainState} (he : isAcknowledged (.event e main) = false) :
    Answered 0 (effects ++ [.event e main]) := by
  have hentry : Answered 0 [.event e main] := by
    rw [Answered, List.countP_singleton, he]
    exact Nat.zero_le _
  exact h.append hentry

theorem answered_handlePacket (c : Client) (p : ControlPacket) :
    Answered 0 ((c.handlePacket p).effects ++ [.event (.packetReceived p) .connected]) := by
  have hsends : ∀ {r : Reaction}, c.Sends Call.After r →
      Answered 0 (r.effects ++ [.event (.packetReceived p) .connected]) := fun h =>
    (answered_of_bystanders fun e he => bystander_of_sending (h.effects e he)).entry rfl
  cases p with
  | publish publish => exact answered_publish c publish
  | pubrel ack => exact (answered_pubrel c ack).entry rfl
  | _ => exact hsends (c.handlePacket_sends (by simp) (by simp))

theorem answered_main {c : Client} {e : Event} {r : Reaction} (h : c.MainTurn e r) :
    Answered (if e = .pubackSent then 1 else 0) (r.effects ++ [.event e c.main]) := by
  have hnothing : Answered 0 [] := Nat.zero_le _
  cases h with
  | packet p hmain =>
    rw [hmain]
    exact answered_handlePacket c p
  | pubackSent hmain =>
    obtain ⟨_, hsent⟩ := c.handlePubackSent_eq
    rw [hsent, hmain]
    exact le_of_eq rfl
  | connack p =>
    obtain ⟨_, _, hack⟩ := { c with main := .connected }.handleConnack_eq p
    rw [hack]
    exact hnothing.entry rfl
  | handshake => exact hnothing.entry rfl
  | disconnect =>
    refine Answered.entry (answered_of_bystanders ?_) rfl
    simp [Client.close, Bystander, submittedWith]
  | ignored e _ hsent =>
    have hevent : isAcknowledged (.event e c.main) = false := by
      cases e with
      | pubackSent =>
        cases hmain : c.main with
        | connected => exact absurd rfl (hsent hmain)
        | _ => rfl
      | _ => rfl
    exact (hnothing.entry hevent).mono (Nat.zero_le _)

/-- PUBACKs under way and PUBACKs written are no more than the publishes that call for them. -/
def Covered (c : Config) : Prop :=
  pubacks c.state c.stack + c.log.countP isAcknowledged ≤ c.log.countP isReceived

/-- A reaction to the call on top of `rest`, of which `n` were PUBACKs written. -/
theorem Covered.react {c : Config} {n : ℕ} {rest : List Call} {r : Reaction}
    (hc : pubacks c.state rest + n + c.log.countP isAcknowledged ≤ c.log.countP isReceived)
    (hwriters : writers r.state = writers c.state ++ submitted r.effects)
    (hcalls : .dispatch .main .pubackSent ∉ r.calls) (hr : Answered n r.effects) :
    Covered (client.react c rest r) := by
  have hstack : (client.react c rest r).stack.count (.dispatch .main .pubackSent) ≤
      rest.count (.dispatch .main .pubackSent) := by
    rw [Program.react]
    dsimp only
    split
    · exact (Program.unwind_sublist rest).count_le _
    · rw [List.count_append, List.count_eq_zero.mpr hcalls, Nat.zero_add]
  have hpubacks : pubacks (client.react c rest r).state (client.react c rest r).stack ≤
      pubacks c.state rest + (submitted r.effects).count .puback := by
    rw [pubacks, pubacks]
    change (writers r.state).count .puback + _ ≤ _
    rw [hwriters, List.count_append]
    omega
  rw [Answered] at hr
  rw [Covered]
  change _ + (r.effects ++ c.log).countP isAcknowledged ≤ (r.effects ++ c.log).countP isReceived
  rw [List.countP_append, List.countP_append]
  omega

theorem covered_run {ok : Config → Action → Prop} {c : Config} (run : client.Run ok initial c) :
    Covered c := by
  refine run.invariant (I := Covered) (le_of_eq rfl) ?_ ?_
  · intro c a r hc _ hstack hr
    have hquiet := Client.arrive_quiet hr
    have hpubacks := arrive_pubacks hr
    have hanswered := answered_of_bystanders fun e he => bystander_of_quiet (hquiet.effects e he)
    rw [Program.react_of_not_threw hquiet.threw, List.append_nil]
    rw [Answered] at hanswered
    rw [Covered, hstack] at hc
    change pubacks r.state r.calls + (r.effects ++ c.log).countP isAcknowledged ≤
      (r.effects ++ c.log).countP isReceived
    rw [List.countP_append, List.countP_append]
    omega
  · intro c a call rest r hc _ hstack hr
    have hwriters := respond_writers hr
    have hcalls : .dispatch .main .pubackSent ∉ r.calls := (respond_raises hr).not_mem id
    have hrest : pubacks c.state rest + (if call = .dispatch .main .pubackSent then 1 else 0) +
        c.log.countP isAcknowledged ≤ c.log.countP isReceived := by
      rw [Covered, hstack, pubacks, List.count_cons] at hc
      simp only [beq_iff_eq] at hc
      rw [pubacks]
      omega
    refine Covered.react hrest hwriters hcalls ?_
    have hbystanders : (∀ e ∈ r.effects, Bystander e) → Answered
        (if call = .dispatch .main .pubackSent then 1 else 0) r.effects := fun h =>
      (answered_of_bystanders h).mono (Nat.zero_le _)
    cases Client.respond_turn hr with
    | main e r hturn =>
      have hmain := answered_main hturn
      simpa using hmain
    | anonymous h' =>
      refine hbystanders fun e he => ?_
      rw [(Client.anonymous_same h').2.2 e he]
      simp [Bystander, submittedWith]
    | maybeSend =>
      have hsends := c.state.maybeSend_sends
      exact hbystanders fun e he => bystander_of_sending (hsends.effects e he)
    | operate op =>
      exact hbystanders fun e he => bystander_of_requested (operate_effects c.state op e he)
    | close => exact hbystanders (by simp [Client.close, Bystander, submittedWith])
    | quiet _ _ _ hquiet =>
      exact hbystanders fun e he => bystander_of_quiet (hquiet.effects e he)

/-! ## The law -/

def isStored (c : Client) (id : UInt16) : Bool := c.receivedQos2States.any (Client.storedAs id)

/-- A publish of a server that keeps to `receive_maximum`: without acknowledgement, sent
again, or one more than what is unacknowledged. -/
def withinMaximum (c : Config) (p : Publish) : Bool :=
  p.qualityOfService = qos0 ||
    p.qualityOfService = qos2 && isStored c.state p.packetIdentifier ||
    (p.qualityOfService = qos1 || p.qualityOfService = qos2) &&
      unacknowledged c.log + c.state.receivedQos2States.length <
        c.state.connectOpts.receiveMaximum.toNat

/-- A step of a client whose options stay, with such a server. -/
def compliant (c : Config) (a : Action) : Bool :=
  (match c.stack with
    | .dispatch .main (.packetReceived (.publish p)) :: _ => withinMaximum c p
    | _ => true) &&
  match a with
    | .operate (.handshaker _) => false
    | _ => true

/-- Whether a packet leaves alone what is stored for quality of service 2. -/
def leavesStored (c : Client) : ControlPacket → Bool
  | .publish p => p.qualityOfService ≠ qos2 || !isStored c p.packetIdentifier
  | .pubrel ack => !isStored c ack.packetIdentifier
  | _ => true

/-- A compliant step that keeps the quota. -/
def keepsQuota (c : Config) (a : Action) : Bool :=
  (match c.stack with
    | .dispatch .main (.packetReceived p) :: _ => leavesStored c.state p
    | _ => true) && compliant c a

theorem keepsQuota_packet {c : Config} {a : Action} (h : keepsQuota c a = true)
    {p : ControlPacket} {rest : List Call}
    (hstack : c.stack = .dispatch .main (.packetReceived p) :: rest) :
    leavesStored c.state p = true := by
  simp only [keepsQuota, hstack, Bool.and_eq_true] at h
  exact h.1

theorem keepsQuota_publish {c : Config} {a : Action} (h : keepsQuota c a = true)
    {publish : Publish} {rest : List Call}
    (hstack : c.stack = .dispatch .main (.packetReceived (.publish publish)) :: rest) :
    withinMaximum c publish = true := by
  simp only [keepsQuota, compliant, hstack, Bool.and_eq_true] at h
  exact h.2.1

theorem keepsQuota_operate {c : Config} {op : Operation}
    (h : keepsQuota c (.operate op) = true) (opts : ConnectOptions) : op ≠ .handshaker opts := by
  rintro rfl
  simp [keepsQuota, compliant] at h

/-- What the server may still send, what it has not been told to be received and what is
stored make up `receive_maximum`; no DISCONNECT has told it otherwise. -/
structure Balanced (c : Config) : Prop where
  main : c.state.main = .connected
  quota : c.state.clientReceiveQuota.toNat + unacknowledged c.log +
    c.state.receivedQos2States.length = c.state.connectOpts.receiveMaximum.toNat
  silent : ∀ reason, .sent (.disconnect reason) .disconnect ∉ c.log

theorem Balanced.react {c : Config} (h : Balanced c) (rest : List Call) {r : Reaction}
    (hmain : r.state.main = c.state.main) (hopts : r.state.connectOpts = c.state.connectOpts)
    (hquota : r.state.clientReceiveQuota.toNat + unacknowledged (r.effects ++ c.log) +
      r.state.receivedQos2States.length = c.state.connectOpts.receiveMaximum.toNat)
    (hsilent : ∀ e ∈ r.effects, submittedWith e ≠ some .disconnect) :
    Balanced (client.react c rest r) := by
  refine ⟨hmain.trans h.main, ?_, ?_⟩
  · change _ = r.state.connectOpts.receiveMaximum.toNat
    rw [hopts]
    exact hquota
  · intro disconnect he
    exact (List.mem_append.mp he).elim (fun he => hsilent _ he rfl) (h.silent disconnect)

/-- A reaction that neither receives a publish nor sees a PUBACK written. -/
theorem Balanced.aside {c : Config} (h : Balanced c) (rest : List Call) {r : Reaction}
    (hsame : c.state.SameReceiveSide r.state)
    (heffects : ∀ e ∈ r.effects, isReceived e = false ∧ isAcknowledged e = false ∧
      submittedWith e ≠ some .disconnect) : Balanced (client.react c rest r) := by
  have hreceived : r.effects.countP isReceived = 0 :=
    List.countP_eq_zero.mpr fun e he => by simp [(heffects e he).1]
  have hacknowledged : r.effects.countP isAcknowledged = 0 :=
    List.countP_eq_zero.mpr fun e he => by simp [(heffects e he).2.1]
  refine h.react rest hsame.main hsame.connectOpts ?_ fun e he => (heffects e he).2.2
  rw [unacknowledged, List.countP_append, List.countP_append, hreceived, hacknowledged,
    Nat.zero_add, Nat.zero_add, hsame.clientReceiveQuota, hsame.receivedQos2States]
  exact h.quota

theorem Balanced.bystanders {c : Config} (h : Balanced c) (rest : List Call) {r : Reaction}
    (hsame : c.state.SameReceiveSide r.state) (heffects : ∀ e ∈ r.effects, Bystander e) :
    Balanced (client.react c rest r) :=
  h.aside rest hsame fun e he =>
    ⟨(heffects e he).isReceived, (heffects e he).isAcknowledged, (heffects e he).2.2⟩

/-- What a publish is that may come. -/
theorem within_cases {c : Config} {publish : Publish} (hwithin : withinMaximum c publish = true)
    (hleaves : leavesStored c.state (.publish publish) = true) :
    publish.qualityOfService = qos0 ∨
      unacknowledged c.log + c.state.receivedQos2States.length <
        c.state.connectOpts.receiveMaximum.toNat ∧
      (publish.qualityOfService = qos1 ∨
        publish.qualityOfService = qos2 ∧
          isStored c.state publish.packetIdentifier = false) := by
  simp only [withinMaximum, Bool.or_eq_true, Bool.and_eq_true, decide_eq_true_eq] at hwithin
  simp only [leavesStored, ne_eq, decide_not, Bool.or_eq_true, Bool.not_eq_true',
    decide_eq_false_iff_not] at hleaves
  rcases hwithin with (hqos0 | ⟨hqos2, hstored⟩) | ⟨hqos, hroom⟩
  · exact .inl hqos0
  · have hfree := hleaves.resolve_left (not_not.mpr hqos2)
    rw [hfree] at hstored
    cases hstored
  · refine .inr ⟨hroom, ?_⟩
    rcases hqos with hqos1 | hqos2
    · exact .inl hqos1
    · exact .inr ⟨hqos2, hleaves.resolve_left (not_not.mpr hqos2)⟩

/-- With room for a publish the quota is not used up, and one is taken from it. -/
theorem Balanced.taken {c : Config} (h : Balanced c)
    (hroom : unacknowledged c.log + c.state.receivedQos2States.length <
      c.state.connectOpts.receiveMaximum.toNat) {d : Client} {effects : List Effect}
    (htaken : c.state.QuotaTaken d effects) :
    d = { c.state with clientReceiveQuota := c.state.clientReceiveQuota - 1 } ∧ effects = [] ∧
      (c.state.clientReceiveQuota - 1).toNat + unacknowledged c.log + 1 +
        c.state.receivedQos2States.length = c.state.connectOpts.receiveMaximum.toNat := by
  have hquota := h.quota
  have hpos : 0 < c.state.clientReceiveQuota.toNat := by omega
  cases htaken with
  | free =>
    have hle : 1 ≤ c.state.clientReceiveQuota := UInt16.le_iff_toNat_le.mpr hpos
    have hminus : (c.state.clientReceiveQuota - 1).toNat =
        c.state.clientReceiveQuota.toNat - 1 := by
      rw [UInt16.toNat_sub_of_le _ _ hle]
      rfl
    refine ⟨rfl, rfl, ?_⟩
    rw [hminus]
    omega
  | spent hspent => exact absurd hpos hspent

theorem Covered.acknowledged_le {c : Config} (h : Covered c) :
    c.log.countP isAcknowledged ≤ c.log.countP isReceived :=
  (Nat.le_add_left _ _).trans h

theorem unacknowledged_append {c : Config} (h : Covered c) {effects : List Effect}
    (hacknowledged : effects.countP isAcknowledged = 0) :
    unacknowledged (effects ++ c.log) = unacknowledged c.log + effects.countP isReceived := by
  have hle := h.acknowledged_le
  rw [unacknowledged, List.countP_append, List.countP_append, hacknowledged, unacknowledged]
  omega

theorem balanced_publish {c : Config} (h : Balanced c) (hc : Covered c) (rest : List Call)
    {publish : Publish} (hwithin : withinMaximum c publish = true)
    (hleaves : leavesStored c.state (.publish publish) = true) :
    Balanced (client.react c rest
      (withEntry (c.state.handlePublish publish) (.packetReceived (.publish publish))
        .connected)) := by
  have hentry : isReceived (.event (.packetReceived (.publish publish)) .connected) =
      decide (publish.qualityOfService = qos1) := rfl
  rcases within_cases hwithin hleaves with hqos0 | ⟨hroom, hqos1 | ⟨hqos2, hfree⟩⟩
  · obtain ⟨_, _, ⟨_, _, rfl⟩, hhandle⟩ := c.state.handlePublish_of_qos0 hqos0
    rw [hhandle]
    refine h.aside rest ?_ ?_
    · constructor <;> rfl
    · intro e he
      rcases List.mem_cons.mp he with rfl | he
      · exact ⟨rfl, rfl, by simp [submittedWith]⟩
      · rw [List.mem_singleton.mp he, hentry, hqos0]
        exact ⟨by decide, rfl, by simp [submittedWith]⟩
  · obtain ⟨_, _, _, _, htaken, ⟨_, _, rfl⟩, hhandle⟩ := c.state.handlePublish_of_qos1 hqos1
    obtain ⟨rfl, rfl, hquota⟩ := h.taken hroom htaken
    rw [hhandle]
    refine h.react rest rfl rfl ?_ (by simp [withEntry, submittedWith])
    rw [unacknowledged_append hc rfl]
    simp only [withEntry, List.cons_append, List.nil_append, List.countP_cons, List.countP_nil,
      hqos1, isReceived, decide_true, if_true]
    exact hquota
  · obtain ⟨_, _, _, htaken, hhandle⟩ := c.state.handlePublish_of_qos2 hqos2
    obtain ⟨rfl, rfl, hquota⟩ := h.taken hroom htaken
    have hstore : ({ c.state with
          clientReceiveQuota := c.state.clientReceiveQuota - 1 } : Client).storeQos2 publish =
        { c.state with
          clientReceiveQuota := c.state.clientReceiveQuota - 1
          receivedQos2States := c.state.receivedQos2States ++ [publish] } := by
      rw [Client.storeQos2, if_neg]
      rw [isStored] at hfree
      simp only [hfree, Bool.false_eq_true, not_false_eq_true]
    rw [hhandle, hstore]
    refine h.react rest rfl rfl ?_ (by simp [withEntry, submittedWith])
    have hqos1 : decide (qos2 = qos1) = false := by decide
    rw [unacknowledged_append hc rfl]
    simp only [withEntry, List.cons_append, List.nil_append, List.countP_cons, List.countP_nil,
      hqos2, hqos1, isReceived, Bool.false_eq_true, if_false, List.length_append,
      List.length_singleton]
    omega

/-- A PUBREL that names nothing stored. -/
theorem balanced_pubrel {c : Config} (h : Balanced c) (rest : List Call) {ack : Ack}
    (hfree : isStored c.state ack.packetIdentifier = false) :
    Balanced (client.react c rest
      (withEntry (c.state.handlePubrel ack) (.packetReceived (.pubrel ack)) .connected)) := by
  have hfind : c.state.receivedQos2States.find? (Client.storedAs ack.packetIdentifier) = none := by
    rw [List.find?_eq_none]
    intro publish hmem hstored
    have hany := List.any_eq_false.mp hfree publish hmem
    exact hany hstored
  obtain ⟨_, hhandle⟩ := c.state.handlePubrel_of_none hfind
  rw [hhandle]
  refine h.aside rest ?_ (by simp [withEntry, submittedWith, isReceived, isAcknowledged])
  constructor <;> rfl

/-- The write of a PUBACK gives back what its publish took. -/
theorem balanced_pubackSent {c : Config} (h : Balanced c) (hc : Covered c) {rest : List Call}
    (hstack : c.stack = .dispatch .main .pubackSent :: rest) :
    Balanced (client.react c rest
      (withEntry c.state.handlePubackSent .pubackSent .connected)) := by
  have hquota := h.quota
  have hwritten : c.log.countP isAcknowledged + 1 ≤ c.log.countP isReceived := by
    rw [Covered, hstack, pubacks, List.count_cons_self] at hc
    omega
  have hunacknowledged : unacknowledged c.log =
      c.log.countP isReceived - c.log.countP isAcknowledged := rfl
  have hlt : c.state.clientReceiveQuota < c.state.connectOpts.receiveMaximum := by
    rw [UInt16.lt_iff_toNat_lt]
    omega
  have hmax := c.state.connectOpts.receiveMaximum.toNat_lt
  have hplus : (c.state.clientReceiveQuota + 1).toNat = c.state.clientReceiveQuota.toNat + 1 := by
    rw [UInt16.toNat_add]
    change (c.state.clientReceiveQuota.toNat + 1) % 65536 = _
    rw [UInt16.lt_iff_toNat_lt] at hlt
    omega
  rw [Client.handlePubackSent, if_pos hlt]
  refine h.react rest rfl rfl ?_ (by simp [withEntry, submittedWith])
  have hentry : unacknowledged (.event .pubackSent .connected :: c.log) =
      c.log.countP isReceived - (c.log.countP isAcknowledged + 1) := by
    rw [unacknowledged, List.countP_cons, List.countP_cons]
    rfl
  change (c.state.clientReceiveQuota + 1).toNat +
    unacknowledged (.event .pubackSent .connected :: c.log) + c.state.receivedQos2States.length = _
  rw [hplus, hentry]
  omega

/-- Every packet that may come keeps the balance. -/
theorem balanced_handlePacket {c : Config} (h : Balanced c) (hc : Covered c) (rest : List Call)
    {p : ControlPacket} (hleaves : leavesStored c.state p = true)
    (hwithin : ∀ publish, p = .publish publish → withinMaximum c publish = true) :
    Balanced (client.react c rest
      (withEntry (c.state.handlePacket p) (.packetReceived p) .connected)) := by
  have hsends : ∀ {r : Reaction}, c.state.Sends Call.After r →
      isReceived (.event (.packetReceived p) .connected) = false →
      Balanced (client.react c rest (withEntry r (.packetReceived p) .connected)) := by
    intro r hr hentry
    refine h.aside rest hr.state fun e he => ?_
    rcases List.mem_append.mp he with he | he
    · have hbystander := bystander_of_sending (hr.effects e he)
      exact ⟨hbystander.isReceived, hbystander.isAcknowledged, hbystander.2.2⟩
    · rw [List.mem_singleton.mp he]
      exact ⟨hentry, rfl, by simp [submittedWith]⟩
  cases p with
  | publish publish => exact balanced_publish h hc rest (hwithin publish rfl) hleaves
  | pubrel ack =>
    have hfree : isStored c.state ack.packetIdentifier = false := by
      simpa [leavesStored] using hleaves
    exact balanced_pubrel h rest hfree
  | _ => exact hsends (c.state.handlePacket_sends (by simp) (by simp)) rfl

theorem balanced_run {c d : Config} (hreach : client.Run (fun _ _ => True) initial c)
    (h : Balanced c) (run : client.Run (fun c a => keepsQuota c a) c d) : Balanced d := by
  have hcovered : ∀ d, client.Run (fun c a => keepsQuota c a) c d → Covered d := fun d run =>
    covered_run (hreach.trans (run.mono fun _ _ _ => trivial))
  refine (run.assume hcovered).invariant h ?_ ?_
  · intro c a r hc _ _ hr
    have hquiet := Client.arrive_quiet hr
    exact hc.bystanders [] hquiet.same.receive
      fun e he => bystander_of_quiet (hquiet.effects e he)
  · intro c a call rest r hc hok hstack hr
    obtain ⟨hok, hcover⟩ := hok
    cases Client.respond_turn hr with
    | main e r hturn =>
      change Balanced (client.react c rest (withEntry r e c.state.main))
      rw [hc.main]
      cases hturn with
      | packet p =>
        refine balanced_handlePacket hc hcover rest (keepsQuota_packet hok hstack) ?_
        rintro publish rfl
        exact keepsQuota_publish hok hstack
      | pubackSent => exact balanced_pubackSent hc hcover hstack
      | connack p h' => rw [hc.main] at h'; cases h'
      | handshake h' => rw [hc.main] at h'; cases h'
      | disconnect h' => rw [hc.main] at h'; cases h'
      | ignored e hpacket hsent =>
        refine hc.aside rest (Client.SameExchanges.refl _).receive ?_
        intro e' he'
        rw [List.mem_singleton.mp he']
        cases e with
        | packetReceived p => exact absurd rfl (hpacket p hc.main)
        | pubackSent => exact absurd rfl (hsent hc.main)
        | _ => exact ⟨rfl, rfl, by simp [submittedWith]⟩
    | anonymous h' => rw [hc.main] at h'; cases h'
    | maybeSend =>
      have hsends := c.state.maybeSend_sends
      exact hc.bystanders rest hsends.state fun e he => bystander_of_sending (hsends.effects e he)
    | operate op =>
      exact hc.bystanders rest (operate_receive c.state (keepsQuota_operate hok))
        fun e he => bystander_of_requested (operate_effects c.state op e he)
    | close =>
      refine hc.bystanders rest (Client.SameExchanges.refl _).receive ?_
      simp [Client.close, Bystander, submittedWith]
    | quiet _ _ _ hquiet =>
      exact hc.bystanders rest hquiet.same.receive
        fun e he => bystander_of_quiet (hquiet.effects e he)

theorem balanced_opened {connack : Connack} {c : Config} (h : Opened connack c) : Balanced c := by
  have hstate := opened_state h
  have hreceived : c.log.countP isReceived = 0 := by
    rw [List.countP_eq_zero]
    intro e he hreceived
    unfold isReceived at hreceived
    split at hreceived
    · exact (hstate.log _ he).2 _ rfl
    · cases hreceived
  refine ⟨hstate.main, ?_, fun disconnect he => (hstate.log _ he).1 rfl⟩
  rw [unacknowledged, hreceived, hstate.clientReceiveQuota, hstate.stored, Nat.zero_sub]
  rfl

/-- From the CONNACK on, with a server that keeps to `receive_maximum` and as long as no
exchange of quality of service 2 is repeated or ends: the quota, the publishes whose PUBACK
has not been written and the publishes stored add up to `receive_maximum`, and the server is
sent no DISCONNECT for having exceeded it. -/
theorem receiveQuota_conserved {connack : Connack} {c d : Config} (hopen : Opened connack c)
    (run : client.Run (fun c a => keepsQuota c a) c d) :
    d.log.countP isAcknowledged ≤ d.log.countP isReceived ∧
    d.state.clientReceiveQuota.toNat + unacknowledged d.log + d.state.receivedQos2States.length =
      d.state.connectOpts.receiveMaximum.toNat ∧
    ∀ disconnect, .sent (.disconnect disconnect) .disconnect ∉ d.log := by
  have hreach := opened_run hopen
  have hcovered : Covered d := covered_run (hreach.trans (run.mono fun _ _ _ => trivial))
  have hbalanced := balanced_run hreach (balanced_opened hopen) run
  exact ⟨hcovered.acknowledged_le, hbalanced.quota, hbalanced.silent⟩

def welcome : Connack := { flags := 0, reasonCode := 0 }
def receivedQos1 : Publish := { headerFlags := 2, topic := [97], packetIdentifier := 1 }
def receivedQos2 : Publish := { headerFlags := 4, topic := [97], packetIdentifier := 2 }

/-- A publish whose PUBACK has been written, and one that is stored. -/
theorem receiveQuota_conserved_stored : ∃ d : Config,
    client.Run (fun c a => keepsQuota c a) (openedConfig welcome) d ∧ d.stack = [] ∧
      d.state.receivedQos2States = [receivedQos2] ∧ unacknowledged d.log = 0 ∧
      d.state.clientReceiveQuota.toNat + 1 = d.state.connectOpts.receiveMaximum.toNat := by
  have hsteps : (client.stepsWhile keepsQuota (openedConfig welcome)
      (settleActions ++ arrival (.publish receivedQos1) ++
        (.writeValue 1 :: List.replicate 5 .run) ++ arrival (.publish receivedQos2))).map
      (fun d => (d.stack, d.state.receivedQos2States, unacknowledged d.log)) =
        some ([], [receivedQos2], 0) := by decide +kernel
  obtain ⟨d, hd, hfacts⟩ := Option.map_eq_some_iff.mp hsteps
  simp only [Prod.mk.injEq] at hfacts
  obtain ⟨hstack, hstored, hunacknowledged⟩ := hfacts
  have run := Program.Run.of_stepsWhile _ hd
  have hquota := (receiveQuota_conserved (opened_openedConfig welcome) run).2.1
  rw [hstored, hunacknowledged] at hquota
  exact ⟨d, run, hstack, hstored, hunacknowledged, hquota⟩

/-- A publish that has been received, released and delivered is still taken from the quota. -/
theorem receiveQuota_lost : ¬ ∀ (connack : Connack) (c d : Config), Opened connack c →
    client.Run (fun c a => compliant c a) c d → d.stack = [] →
    d.state.clientReceiveQuota.toNat + unacknowledged d.log + d.state.receivedQos2States.length =
      d.state.connectOpts.receiveMaximum.toNat := by
  intro hconserved
  have hsteps : (client.stepsWhile compliant (openedConfig welcome)
      (settleActions ++ arrival (.publish receivedQos2) ++
        arrival (.pubrel { packetIdentifier := 2 }))).map
      (fun d => (d.stack, d.state.clientReceiveQuota, unacknowledged d.log,
        d.state.receivedQos2States, d.state.connectOpts.receiveMaximum)) =
        some ([], 65534, 0, [], 65535) := by decide +kernel
  obtain ⟨d, hd, hfacts⟩ := Option.map_eq_some_iff.mp hsteps
  simp only [Prod.mk.injEq] at hfacts
  obtain ⟨hstack, hquota, hunacknowledged, hstored, hmax⟩ := hfacts
  have hlaw := hconserved welcome _ d (opened_openedConfig welcome)
    (Program.Run.of_stepsWhile _ hd) hstack
  rw [hquota, hunacknowledged, hstored, hmax] at hlaw
  cases hlaw

end Mqtt5.ClientReceiveQuota
