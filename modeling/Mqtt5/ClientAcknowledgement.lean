import Mqtt5.ClientReceivers

/-!
# Acknowledgements of publishes

Which acknowledgement a publish waits for depends on its quality of service and on how far
it has come. `outcome` says what each of them is to do to it.
-/
namespace Mqtt5.ClientAcknowledgement
open WirePrimitives WirePublish WireConnect WireControlPacket CallMachine ClientState ClientSession
open ClientInFlight ClientReceivers

/-- The packet identifier that an acknowledgement of a publish carries. -/
def acknowledges : ControlPacket → Option UInt16
  | .puback ack | .pubrec ack | .pubcomp ack => some ack.packetIdentifier
  | _ => none

/-- The first of the publishes that an acknowledgement names. -/
def namedBy (p : ControlPacket) (msgs : List InFlightPublish) : Option InFlightPublish :=
  (acknowledges p).bind fun id => msgs.find? (·.named id)

/-- Whether an acknowledgement is the one that a publish waits for. -/
def awaited (msg : InFlightPublish) : ControlPacket → Bool
  | .puback _ => msg.state = .waitingPuback
  | .pubrec _ => msg.state = .waitingPubrec
  | .pubcomp _ => msg.state = .waitiingPubcomp
  | _ => false

/-- What an acknowledgement is to do to the publish it names: complete it with a value if
it is the last one called for, move it on if it is the first of two, and complete it
without a value as a violation of the protocol. -/
def outcome (msg : InFlightPublish) (p : ControlPacket) : Effect :=
  match msg.state, p with
  | .waitingPuback, .puback ack | .waitiingPubcomp, .pubcomp ack =>
      .completed msg.receiver (.value [ack.reasonCode])
  | .waitingPubrec, .pubrec ack =>
      if ack.reasonCode > Client.noMatchingSubscribers then
        .completed msg.receiver (.value [ack.reasonCode])
      else .advanced msg.receiver
  | _, _ => .completed msg.receiver .done

/-! ## What the log has to show -/

/-- Whether the receiver is that of a publish under way. -/
def UnderWay (receiver : Receiver) (log : List Effect) : Prop :=
  ∃ msg ∈ inFlight log, msg.receiver = receiver

/-- Each acknowledgement that names a publish has its outcome, be it a violation or received
while connected, and publishes are moved on and completed by nothing else. -/
structure Judged (log : List Effect) : Prop where
  answered : ∀ p main msg older, .event (.packetReceived p) main :: older <:+ log →
    namedBy p (inFlight older) = some msg → main = .connected ∨ awaited msg p = false →
      outcome msg p :: .event (.packetReceived p) main :: older <:+ log
  calledFor : ∀ e receiver older, e :: older <:+ log → settles e = some receiver →
    UnderWay receiver older → ∃ p msg before,
      older = .event (.packetReceived p) .connected :: before ∧
        namedBy p (inFlight before) = some msg ∧ msg.receiver = receiver ∧ e = outcome msg p

theorem judged_nil : Judged [] where
  answered p main msg older h := by simp at h
  calledFor e receiver older h := by simp at h

theorem settles_outcome (msg : InFlightPublish) (p : ControlPacket) :
    settles (outcome msg p) = some msg.receiver := by
  unfold outcome
  split
  · rfl
  · rfl
  · split <;> rfl
  · rfl

/-- One more effect that is no acknowledgement of a publish and settles none. -/
theorem Judged.cons {log : List Effect} (h : Judged log) {e : Effect}
    (hevent : ∀ p main msg, e = .event (.packetReceived p) main →
      namedBy p (inFlight log) = some msg → main ≠ .connected ∧ awaited msg p = true)
    (hsettles : ∀ receiver, settles e = some receiver →
      ∀ msg ∈ inFlight log, msg.receiver ≠ receiver) : Judged (e :: log) where
  answered p main msg older hsuffix hnamed hjudged := by
    rcases List.suffix_cons_iff.mp hsuffix with heq | hsuffix
    · injection heq with he holder
      subst holder
      obtain ⟨hmain, hawaited⟩ := hevent p main msg he.symm hnamed
      rcases hjudged with hconnected | hviolation
      · exact absurd hconnected hmain
      · rw [hawaited] at hviolation
        cases hviolation
    · exact (h.answered p main msg older hsuffix hnamed hjudged).trans (List.suffix_cons _ _)
  calledFor e' receiver older hsuffix hreceiver hmsg := by
    rcases List.suffix_cons_iff.mp hsuffix with heq | hsuffix
    · injection heq with he holder
      subst he holder
      obtain ⟨msg, hmem, heq⟩ := hmsg
      exact absurd heq (hsettles receiver hreceiver msg hmem)
    · exact h.calledFor e' receiver older hsuffix hreceiver hmsg

/-- An effect that settles no publish and is no event. -/
def Unjudged (e : Effect) : Prop := settles e = none ∧ ∀ event main, e ≠ .event event main

theorem Judged.append {log : List Effect} (h : Judged log) {effects : List Effect}
    (heffects : ∀ e ∈ effects, Unjudged e) : Judged (effects ++ log) := by
  induction effects with
  | nil => exact h
  | cons e effects ih =>
    obtain ⟨hsettles, hevent⟩ := heffects e List.mem_cons_self
    apply (ih fun e he => heffects e (List.mem_cons_of_mem _ he)).cons
    · exact fun p main _ he => absurd he (hevent _ _)
    · intro receiver hreceiver
      rw [hsettles] at hreceiver
      cases hreceiver

/-- An acknowledgement that names a publish, and its outcome. -/
theorem Judged.outcome {log : List Effect} (h : Judged log) {p : ControlPacket}
    {msg : InFlightPublish} (hnamed : namedBy p (inFlight log) = some msg) :
    Judged (outcome msg p :: .event (.packetReceived p) .connected :: log) where
  answered p' main' msg' older hsuffix hnamed' hjudged := by
    have hnot : ∀ event main, ClientAcknowledgement.outcome msg p ≠ .event event main := by
      intro event main heq
      have hsettles := settles_outcome msg p
      rw [heq] at hsettles
      cases hsettles
    rcases List.suffix_cons_iff.mp hsuffix with heq | hsuffix
    · injection heq with he
      exact absurd he.symm (hnot _ _)
    · rcases List.suffix_cons_iff.mp hsuffix with heq | hsuffix
      · injection heq with he holder
        injection he with he hmain
        injection he with he
        subst he hmain holder
        rw [hnamed] at hnamed'
        cases hnamed'
        exact List.suffix_rfl
      · exact (h.answered p' main' msg' older hsuffix hnamed' hjudged).trans
          ((List.suffix_cons _ _).trans (List.suffix_cons _ _))
  calledFor e receiver older hsuffix hreceiver hmsg := by
    rcases List.suffix_cons_iff.mp hsuffix with heq | hsuffix
    · injection heq with he holder
      subst he holder
      rw [settles_outcome] at hreceiver
      exact ⟨p, msg, log, rfl, hnamed, Option.some.inj hreceiver, rfl⟩
    · rcases List.suffix_cons_iff.mp hsuffix with heq | hsuffix
      · injection heq with he
        rw [he] at hreceiver
        cases hreceiver
      · exact h.calledFor e receiver older hsuffix hreceiver hmsg

/-! ## The handlers -/

/-- The violations that the handlers look for: a PUBACK for a publish that does not wait for
it, and a PUBREC without error for a publish that waits for PUBACK. -/
def lookedFor (msg : InFlightPublish) : ControlPacket → Bool
  | .puback _ => true
  | .pubrec ack => ¬ ack.reasonCode > Client.noMatchingSubscribers ∧ msg.state = .waitingPuback
  | _ => false

/-- An acknowledgement that names a publish is the one that it waits for, or a violation that
a handler looks for. -/
def inTurn (c : Client) (p : ControlPacket) : Bool :=
  (namedBy p c.publishedMessages).all fun msg =>
    awaited msg p || (c.main = .connected && lookedFor msg p)

theorem unjudged_of_receiving {e : Effect} (h : e.Receiving) : Unjudged e := by
  cases e with
  | sent packet receiver => exact ⟨rfl, by simp⟩
  | _ => first | exact h.elim | exact ⟨rfl, by simp⟩

theorem unjudged_of_quiet {e : Effect} (h : e.Quiet) : Unjudged e := by
  cases e with
  | sent packet receiver => exact ⟨rfl, by simp⟩
  | _ => first | exact h.elim | exact ⟨rfl, by simp⟩

theorem unjudged_startFn (c : Client) (op : PublishOpStarter) :
    ∀ e ∈ (c.startFn op).effects, Unjudged e := by
  by_cases hencodes : Encodes (.publish op.message)
  · obtain ⟨_, hstart⟩ := c.startFn_of_encodes hencodes
    rw [hstart]
    simp [Unjudged, settles]
  · rw [c.startFn_of_not_encodes hencodes]
    simp

theorem unjudged_maybeSend (c : Client) :
    ∀ e ∈ c.maybeSendQueuedPublish.effects, Unjudged e := by
  rcases c.maybeSend_cases with hfull | hempty | ⟨next, queued, -, hnext⟩
  · rw [hfull]
    simp
  · rw [hempty]
    simp
  · rw [hnext]
    exact unjudged_startFn _ next

section Handlers
variable {c : Client} {log : List Effect}

/-- A packet that names no publish under way. -/
theorem Judged.event (h : Judged log) {p : ControlPacket} {main : MainState}
    (hnamed : namedBy p (inFlight log) = none) : Judged (.event (.packetReceived p) main :: log) := by
  apply h.cons
  · intro p' main' msg heq hnamed'
    injection heq with heq
    injection heq with heq
    rw [← heq, hnamed] at hnamed'
    cases hnamed'
  · intro receiver hreceiver
    cases hreceiver

theorem judged_puback (h : Judged log) (hlog : c.publishedMessages = inFlight log) (ack : Ack) :
    Judged ((c.handlePuback ack).effects ++
      .event (.packetReceived (.puback ack)) .connected :: log) := by
  cases hfind : c.publishedMessages.find? (·.named ack.packetIdentifier) with
  | none =>
    rw [Client.handlePuback_of_none hfind]
    rw [hlog] at hfind
    exact (h.event (p := .puback ack) hfind).append (unjudged_maybeSend c)
  | some msg =>
    have hnamed : namedBy (.puback ack) (inFlight log) = some msg := hlog ▸ hfind
    have houtcome := h.outcome hnamed
    rw [Client.handlePuback_of_some hfind]
    by_cases hstate : msg.state = .waitingPuback
    · simp only [outcome, hstate] at houtcome
      rw [if_pos hstate]
      exact houtcome
    · rw [if_neg hstate]
      cases hmsg : msg.state with
      | waitingPuback => exact absurd hmsg hstate
      | waitingPubrec | waitiingPubcomp =>
        simp only [outcome, hmsg] at houtcome
        exact houtcome

theorem judged_pubrec (h : Judged log) (hlog : c.publishedMessages = inFlight log) {ack : Ack}
    (hin : inTurn c (.pubrec ack) = true) :
    Judged ((c.handlePubrec ack).effects ++
      .event (.packetReceived (.pubrec ack)) .connected :: log) := by
  cases hfind : c.publishedMessages.find? (·.named ack.packetIdentifier) with
  | none =>
    obtain ⟨_, hrec⟩ := Client.handlePubrec_of_none hfind
    rw [hrec]
    rw [hlog] at hfind
    apply (h.event (p := .pubrec ack) hfind).append
    simp [Unjudged, settles]
  | some msg =>
    have hnamed : namedBy (.pubrec ack) c.publishedMessages = some msg := hfind
    have houtcome := h.outcome (hlog ▸ hnamed)
    simp only [inTurn, hnamed, Option.all_some, awaited, lookedFor] at hin
    by_cases hcode : ack.reasonCode > Client.noMatchingSubscribers
    · have hstate : msg.state = .waitingPubrec := by simpa [hcode] using hin
      simp only [outcome, hstate, if_pos hcode] at houtcome
      rw [Client.handlePubrec_of_error hfind hcode]
      exact houtcome
    · cases hmsg : msg.state with
      | waitingPuback =>
        simp only [outcome, hmsg] at houtcome
        rw [Client.handlePubrec_of_violation hfind hcode hmsg]
        exact houtcome
      | waitingPubrec =>
        obtain ⟨_, hrec⟩ := Client.handlePubrec_of_success hfind hcode (by simp [hmsg])
        simp only [outcome, hmsg, if_neg hcode] at houtcome
        rw [hrec]
        have hsent : ∀ e ∈ [Effect.sent (.pubrel { packetIdentifier := ack.packetIdentifier })
            .message], Unjudged e := by simp [Unjudged, settles]
        exact houtcome.append hsent
      | waitiingPubcomp => simp [hmsg] at hin

theorem judged_pubcomp (h : Judged log) (hlog : c.publishedMessages = inFlight log) {ack : Ack}
    (hin : inTurn c (.pubcomp ack) = true) :
    Judged ((c.handlePubcomp ack).effects ++
      .event (.packetReceived (.pubcomp ack)) .connected :: log) := by
  cases hfind : c.publishedMessages.find? (·.named ack.packetIdentifier) with
  | none =>
    rw [Client.handlePubcomp_of_none hfind]
    rw [hlog] at hfind
    exact h.event hfind
  | some msg =>
    have hnamed : namedBy (.pubcomp ack) c.publishedMessages = some msg := hfind
    have houtcome := h.outcome (hlog ▸ hnamed)
    have hstate : msg.state = .waitiingPubcomp := by
      simpa [inTurn, hnamed, awaited, lookedFor] using hin
    simp only [outcome, hstate] at houtcome
    rw [Client.handlePubcomp_of_some hfind]
    exact houtcome

/-- A subscribe or an unsubscribe that is completed is no publish under way. -/
theorem Judged.completed (h : Judged log) (hlog : c.publishedMessages = inFlight log)
    {receiver : Receiver} (hother : ∀ msg ∈ c.publishedMessages, msg.receiver ≠ receiver)
    (completion : Completion) (p : ControlPacket) (hp : acknowledges p = none) :
    Judged (.completed receiver completion :: .event (.packetReceived p) .connected :: log) := by
  have hevent : Judged (.event (.packetReceived p) .connected :: log) := by
    apply h.event
    rw [namedBy, hp]
    rfl
  apply hevent.cons (fun _ _ _ heq => by cases heq)
  intro receiver' hreceiver msg hmsg
  cases hreceiver
  change msg ∈ inFlight log at hmsg
  rw [← hlog] at hmsg
  exact hother msg hmsg

/-- Every packet in turn gets its outcome. -/
theorem judged_handlePacket (h : Judged log) (hlog : c.publishedMessages = inFlight log)
    (haccounted : ClientIdentifiers.Accounted c) {p : ControlPacket} (hin : inTurn c p = true) :
    Judged ((c.handlePacket p).effects ++ .event (.packetReceived p) .connected :: log) := by
  have hother : acknowledges p = none → Judged (.event (.packetReceived p) .connected :: log) := by
    intro hp
    apply h.event
    rw [namedBy, hp]
    rfl
  cases p with
  | puback ack => exact judged_puback h hlog ack
  | pubrec ack => exact judged_pubrec h hlog hin
  | pubcomp ack => exact judged_pubcomp h hlog hin
  | suback ack =>
    change Judged ((c.handleSuback ack).effects ++ _)
    rcases c.handleSuback_cases ack with ⟨msg, hfind, hack⟩ | hack
    · rw [hack]
      exact h.completed hlog
        (subscribe_not_published haccounted (List.mem_of_find?_eq_some hfind)) _ _ rfl
    · rw [hack]
      exact hother rfl
  | unsuback ack =>
    change Judged ((c.handleUnsuback ack).effects ++ _)
    rcases c.handleUnsuback_cases ack with ⟨msg, hfind, hack⟩ | hack
    · rw [hack]
      exact h.completed hlog
        (unsubscribe_not_published haccounted (List.mem_of_find?_eq_some hfind)) _ _ rfl
    · rw [hack]
      exact hother rfl
  | publish publish =>
    exact (hother rfl).append fun e he =>
      unjudged_of_receiving ((c.handlePublish_receives publish).effects e he)
  | pubrel ack =>
    exact (hother rfl).append fun e he =>
      unjudged_of_receiving ((c.handlePubrel_receives ack).effects e he)
  | _ => exact hother rfl

end Handlers

/-- A step in which no acknowledgement comes out of turn. -/
def ordered (c : Config) (_ : Action) : Bool :=
  match c.stack with
  | .dispatch .main (.packetReceived p) :: _ => inTurn c.state p
  | _ => true

theorem judged_main {c : Client} {log : List Effect} (h : Judged log)
    (hlog : c.publishedMessages = inFlight log) (haccounted : ClientIdentifiers.Accounted c)
    {e : Event} {r : Reaction} (hturn : c.MainTurn e r)
    (hin : ∀ p, e = .packetReceived p → inTurn c p = true) :
    Judged (r.effects ++ .event e c.main :: log) := by
  have hentry : (∀ p, c.main = .connected → e ≠ .packetReceived p) →
      Judged (.event e c.main :: log) := by
    intro hpacket
    apply h.cons
    · intro p main msg heq hnamed
      injection heq with he hmain
      have hne : c.main ≠ .connected := fun hmain => hpacket p hmain he
      have hturn := hin p he
      rw [inTurn, hlog, hnamed] at hturn
      exact ⟨hmain ▸ hne, by simpa [hne] using hturn⟩
    · intro receiver hreceiver
      cases hreceiver
  cases hturn with
  | packet p hmain =>
    rw [hmain]
    exact judged_handlePacket h hlog haccounted (hin p rfl)
  | pubackSent =>
    exact (hentry (by simp)).append fun e he =>
      unjudged_of_receiving (c.handlePubackSent_receives.effects e he)
  | connack p hmain =>
    obtain ⟨_, _, hack⟩ := { c with main := .connected }.handleConnack_eq p
    rw [hack]
    exact hentry (by simp [hmain])
  | handshake => exact hentry (by simp)
  | disconnect => exact (hentry (by simp)).append (by simp [Client.close, Unjudged, settles])
  | ignored e hpacket => exact hentry hpacket

theorem judged_operate (c : Client) (op : Operation) :
    ∀ e ∈ (c.operate op).effects, Unjudged e := by
  cases op with
  | publish message =>
    change ∀ e ∈ (c.startPublish message).effects, Unjudged e
    by_cases hqos : message.qualityOfService = qos0
    · rw [c.startPublish_of_qos0 hqos]
      by_cases hencodes : Encodes (.publish message)
      · obtain ⟨_, hsend⟩ := c.sendMessage_of_encodes hencodes
        rw [hsend, Reaction.andThen_of_not_threw rfl]
        simp [Unjudged, settles]
      · rw [c.sendMessage_of_not_encodes hencodes, Reaction.andThen_of_threw rfl]
        simp
    · by_cases hfree : c.serverSendQuota > 0
      · rw [c.startPublish_of_free hqos hfree]
        exact unjudged_startFn _ _
      · rw [c.startPublish_of_taken hqos hfree]
        simp
  | subscribe subscriptions modifier =>
    change ∀ e ∈ (c.startSubscribe subscriptions modifier).effects, Unjudged e
    rcases c.startSubscribe_cases subscriptions modifier with ⟨_, _, -, hstart⟩ | hstart <;>
      rw [hstart] <;> simp [Unjudged, settles]
  | unsubscribe unsub =>
    change ∀ e ∈ (c.startUnsubscribe unsub).effects, Unjudged e
    rcases c.startUnsubscribe_cases unsub with ⟨_, _, -, hstart⟩ | hstart <;>
      rw [hstart] <;> simp [Unjudged, settles]
  | _ =>
    intro e he
    rcases (c.operate_aside _ (by simp) (by simp) (by simp)).effects e he with ⟨reason, rfl⟩ | rfl <;>
      simp [Unjudged, settles]

/-- Runs without an acknowledgement out of turn. -/
theorem judged_run {c : Config} (run : client.Run (fun c a => ordered c a) initial c) :
    Judged c.log := by
  have hrun := run.assume (J := fun c => ClientIdentifiers.Accounted c.state ∧
    c.state.publishedMessages = inFlight c.log) fun _ run =>
      ⟨ClientIdentifiers.accounted_run run, inFlight_run run⟩
  apply hrun.invariant (I := fun c => Judged c.log) judged_nil
  · intro c a r hc _ _ hr
    exact hc.append fun e he => unjudged_of_quiet ((Client.arrive_quiet hr).effects e he)
  · intro c a call rest r hc hok hstack hr
    obtain ⟨hok, haccounted, hlog⟩ := hok
    cases Client.respond_turn hr with
    | main e r hturn =>
      have hmain := judged_main hc hlog haccounted hturn (by
        rintro p rfl
        simpa [ordered, hstack] using hok)
      change Judged (r.effects ++ [.event e c.state.main] ++ c.log)
      rw [List.append_assoc]
      exact hmain
    | anonymous hstart =>
      refine hc.append fun e he => ?_
      rw [(Client.anonymous_same hstart).2.2 e he]
      exact ⟨rfl, by simp⟩
    | maybeSend => exact hc.append (unjudged_maybeSend c.state)
    | operate op => exact hc.append (judged_operate c.state op)
    | close => exact hc.append (by simp [Client.close, Unjudged, settles])
    | quiet _ _ _ hquiet =>
      exact hc.append fun e he => unjudged_of_quiet (hquiet.effects e he)

/-! ## Violations close the connection -/

/-- Whether a publish was completed as a violation and the socket has not been closed since. -/
def awaitsClose : List Effect → Bool
  | [] => false
  | .closed :: _ => false
  | .completed _ .done :: _ => true
  | _ :: older => awaitsClose older

/-- A close that is not on top is right below code of the user, whose return leads to it. -/
def Guarded : List Call → Prop
  | [] => True
  | call :: rest => (rest.head? = some .close → call = .user) ∧ Guarded rest

theorem awaitsClose_append {effects log : List Effect}
    (h : ∀ e ∈ effects, ∀ receiver, e ≠ .completed receiver .done)
    (hawaits : awaitsClose (effects ++ log) = true) : awaitsClose log = true := by
  induction effects with
  | nil => exact hawaits
  | cons e effects ih =>
    have hrest := ih fun e he => h e (List.mem_cons_of_mem _ he)
    cases e with
    | closed => cases hawaits
    | completed receiver completion =>
      cases completion with
      | done => exact absurd rfl (h _ List.mem_cons_self receiver)
      | value codes => exact hrest hawaits
    | _ => exact hrest hawaits

theorem awaitsClose_of_mem {newer older : List Effect} {receiver : Receiver}
    (hclosed : .closed ∉ newer) :
    awaitsClose (newer ++ .completed receiver .done :: older) = true := by
  induction newer with
  | nil => rfl
  | cons e newer ih =>
    rw [List.mem_cons, not_or] at hclosed
    have hrest := ih hclosed.2
    cases e with
    | closed => exact absurd rfl hclosed.1
    | completed receiver completion =>
      cases completion with
      | done => rfl
      | value codes => exact hrest
    | _ => exact hrest

theorem guarded_append {calls rest : List Call} (hcalls : Guarded calls) (hrest : Guarded rest)
    (hlast : rest.head? = some .close → ∀ call, calls.getLast? = some call → call = .user) :
    Guarded (calls ++ rest) := by
  induction calls with
  | nil => exact hrest
  | cons call calls ih =>
    cases calls with
    | nil => exact ⟨fun hclose => hlast hclose call rfl, hrest⟩
    | cons next calls =>
      refine ⟨hcalls.1, ih hcalls.2 ?_⟩
      intro hclose call' hcall'
      exact hlast hclose call' (by rw [List.getLast?_cons_cons]; exact hcall')

theorem guarded_of_not_mem {calls : List Call} (h : .close ∉ calls) : Guarded calls := by
  induction calls with
  | nil => trivial
  | cons call calls ih =>
    rw [List.mem_cons, not_or] at h
    refine ⟨?_, ih h.2⟩
    intro hclose
    exact absurd (List.mem_of_head? hclose) h.2

theorem Guarded.suffix {stack rest : List Call} (h : Guarded stack) (hrest : rest <:+ stack) :
    Guarded rest := of_suffix (fun h => h.2) h hrest

/-- An exception stops at the user's code above a close. -/
theorem Guarded.close_mem_unwind {rest : List Call} (h : Guarded rest)
    (hhead : rest.head? ≠ some .close) (hclose : .close ∈ rest) :
    .close ∈ client.unwind rest := by
  induction rest with
  | nil => cases hclose
  | cons call rest ih =>
    by_cases huser : call = .user
    · subst huser
      exact hclose
    · have hne : call ≠ .close := fun heq => hhead (by rw [heq]; rfl)
      have hmem : .close ∈ rest := (List.mem_cons.mp hclose).resolve_left (Ne.symm hne)
      have hnext : rest.head? ≠ some .close := fun heq => huser (h.1 heq)
      have hunwind : client.unwind (call :: rest) = client.unwind rest := by
        simp [Program.unwind, client, huser]
      rw [hunwind]
      exact ih h.2 hnext hmem

/-- A reaction that closes the socket for the violations in it, once the user returns. -/
def Closes (r : Reaction) : Prop :=
  Guarded r.calls ∧ ∀ receiver, .completed receiver .done ∈ r.effects →
    .close ∈ r.calls ∧ r.threw = false

theorem closes_of_unjudged {r : Reaction} (hcalls : .close ∉ r.calls)
    (heffects : ∀ e ∈ r.effects, Unjudged e) : Closes r := by
  refine ⟨guarded_of_not_mem hcalls, fun receiver hmem => ?_⟩
  have hsettles := (heffects _ hmem).1
  cases hsettles

theorem closes_finishPublish (c : Client) (id : UInt16) (msg : InFlightPublish) (code : UInt8)
    {after : List Call} (hafter : .close ∉ after) :
    Closes (c.finishPublish id msg (.value [code]) after) := by
  refine ⟨guarded_of_not_mem ?_, ?_⟩
  · exact List.not_mem_cons_of_ne_of_not_mem (by simp) hafter
  · intro receiver hmem
    simp [Client.finishPublish] at hmem

theorem closes_violation (c : Client) (id : UInt16) (msg : InFlightPublish) {after : List Call}
    (hafter : .close ∉ after) : Closes (c.finishPublish id msg .done (.close :: after)) := by
  refine ⟨⟨fun _ => rfl, ?_, guarded_of_not_mem hafter⟩, fun _ _ => ⟨?_, rfl⟩⟩
  · exact fun hhead => absurd (List.mem_of_head? hhead) hafter
  · simp [Client.finishPublish]

theorem closes_sendTurn {c : Client} {p : ControlPacket} {r : Reaction} (h : c.SendTurn p r) :
    Closes r := by
  cases h with
  | idle => exact closes_of_unjudged (by simp) (by simp)
  | puback =>
    exact closes_of_unjudged (fun hmem => c.maybeSend_sends.calls _ hmem) (unjudged_maybeSend c)
  | pubrec => exact closes_of_unjudged (by simp) (by simp [Unjudged, settles])
  | finished ack msg _ _ _ _ h =>
    cases h with
    | puback | pubrecError | pubcomp => exact closes_finishPublish c _ msg _ (by simp)
    | pubackEarly | pubrecEarly => exact closes_violation c _ msg (by simp)
  | advanced => exact ⟨trivial, by simp⟩
  | subscribed | unsubscribed => exact ⟨guarded_of_not_mem (by simp), by simp⟩

theorem closes_handlePacket (c : Client) (p : ControlPacket) : Closes (c.handlePacket p) := by
  obtain hreceives | hsends := c.handlePacket_turn p
  · exact closes_of_unjudged (fun hmem => hreceives.calls _ hmem)
      fun e he => unjudged_of_receiving (hreceives.effects e he)
  · exact closes_sendTurn hsends

theorem deferred_close : Call.Deferred .close := by simp [Call.Deferred]

theorem closes_respond {c : Client} {call : Call} {a : Action} {r : Reaction}
    (hr : c.respond call a = some r) : Closes r := by
  cases Client.respond_turn hr with
  | main e r hturn =>
    have hclosed : Closes r := by
      cases hturn with
      | packet p => exact closes_handlePacket c p
      | pubackSent =>
        have hreceives := c.handlePubackSent_receives
        exact closes_of_unjudged (fun hmem => hreceives.calls _ hmem)
          fun e he => unjudged_of_receiving (hreceives.effects e he)
      | connack p =>
        obtain ⟨_, _, hack⟩ := { c with main := .connected }.handleConnack_eq p
        rw [hack]
        exact closes_of_unjudged (by simp) (by simp)
      | handshake | ignored => exact closes_of_unjudged (by simp) (by simp)
      | disconnect =>
        exact closes_of_unjudged (by simp [Client.close]) (by simp [Client.close, Unjudged, settles])
    refine ⟨hclosed.1, fun receiver hmem => ?_⟩
    rcases List.mem_append.mp hmem with hmem | hmem
    · exact hclosed.2 receiver hmem
    · cases List.mem_singleton.mp hmem
  | anonymous hstart =>
    obtain ⟨-, hcalls, heffects⟩ := Client.anonymous_same hstart
    refine closes_of_unjudged (fun hmem => by cases hcalls _ hmem) fun e he => ?_
    rw [heffects e he]
    exact ⟨rfl, by simp⟩
  | maybeSend =>
    exact closes_of_unjudged (fun hmem => c.maybeSend_sends.calls _ hmem) (unjudged_maybeSend c)
  | operate op =>
    exact closes_of_unjudged (operateFrom_calls c op deferred_close) (judged_operate c op)
  | close => exact closes_of_unjudged (by simp [Client.close]) (by simp [Client.close, Unjudged, settles])
  | quiet _ _ _ hquiet =>
    exact closes_of_unjudged (hquiet.calls _ deferred_close)
      fun e he => unjudged_of_quiet (hquiet.effects e he)

/-- Code of the user throws nothing, and what it calls returns to it. -/
theorem respond_user {c : Client} {a : Action} {r : Reaction} (h : c.respond .user a = some r) :
    r.threw = false ∧ ∀ call, r.calls.getLast? = some call → call = .user := by
  cases a with
  | operate op =>
    cases h
    refine ⟨rfl, fun call hcall => ?_⟩
    change ((if (c.operate op).threw then [] else (c.operate op).calls) ++ [Call.user]).getLast? =
      some call at hcall
    rw [List.getLast?_concat] at hcall
    exact (Option.some.inj hcall).symm
  | «return» =>
    cases h
    exact ⟨rfl, by simp⟩
  | _ => cases h

theorem respond_close {c : Client} {a : Action} {r : Reaction} (h : c.respond .close a = some r) :
    r.effects = [.closed] := by
  cases a with
  | run =>
    cases h
    rfl
  | _ => cases h

/-- A violation that has been reported to the user is followed by a close, or one is left
to be run. -/
structure Closing (c : Config) : Prop where
  guarded : Guarded c.stack
  awaits : awaitsClose c.log = true → .close ∈ c.stack

theorem closing_arrive {c : Config} (hc : Closing c) (hstack : c.stack = []) {a : Action}
    {r : Reaction} (hr : c.state.arrive a = some r) : Closing (client.react c [] r) := by
  have hquiet := Client.arrive_quiet hr
  have hnone : awaitsClose c.log ≠ true := by
    intro hawaits
    have hmem := hc.awaits hawaits
    rw [hstack] at hmem
    cases hmem
  rw [Program.react_of_not_threw hquiet.threw, List.append_nil]
  refine ⟨guarded_of_not_mem (hquiet.calls _ deferred_close), fun hawaits => ?_⟩
  refine absurd (awaitsClose_append ?_ hawaits) hnone
  rintro e he receiver rfl
  exact hquiet.effects _ he

theorem closing_respond {c : Config} (hc : Closing c) {call : Call} {rest : List Call}
    (hstack : c.stack = call :: rest) {a : Action} {r : Reaction}
    (hr : c.state.respond call a = some r) : Closing (client.react c rest r) := by
  obtain ⟨hcalls, hdone⟩ := closes_respond hr
  have hguarded := hc.guarded
  rw [hstack] at hguarded
  constructor
  · rw [Program.react]
    dsimp only
    split
    · exact hguarded.2.suffix (List.dropWhile_suffix _)
    · refine guarded_append hcalls hguarded.2 fun hhead => ?_
      have huser := hguarded.1 hhead
      subst huser
      exact (respond_user hr).2
  · intro hawaits
    change awaitsClose (r.effects ++ c.log) = true at hawaits
    by_cases hreported : ∃ receiver, .completed receiver .done ∈ r.effects
    · obtain ⟨receiver, hmem⟩ := hreported
      obtain ⟨hclose, hthrew⟩ := hdone receiver hmem
      rw [Program.react_of_not_threw hthrew]
      exact List.mem_append_left _ hclose
    · have hbefore : awaitsClose c.log = true := by
        refine awaitsClose_append ?_ hawaits
        rintro e he receiver rfl
        exact hreported ⟨receiver, he⟩
      have hmem := hc.awaits hbefore
      rw [hstack] at hmem
      rcases List.mem_cons.mp hmem with rfl | hmem
      · rw [respond_close hr] at hawaits
        cases hawaits
      · by_cases hthrew : r.threw = false
        · rw [Program.react_of_not_threw hthrew]
          exact List.mem_append_right _ hmem
        · have hthrew : r.threw = true := by simpa using hthrew
          have hne : call ≠ .user := by
            rintro rfl
            rw [(respond_user hr).1] at hthrew
            cases hthrew
          have hhead : rest.head? ≠ some .close := fun heq => hne (hguarded.1 heq)
          rw [Program.react, if_pos hthrew]
          exact hguarded.2.close_mem_unwind hhead hmem

theorem closing_run {ok : Config → Action → Prop} {c : Config} (run : client.Run ok initial c) :
    Closing c := by
  refine run.invariant (I := Closing) ⟨trivial, fun h => by cases h⟩ ?_ ?_
  · exact fun c a r hc _ hstack hr => closing_arrive hc hstack hr
  · exact fun c a call rest r hc _ hstack hr => closing_respond hc hstack hr

/-! ## Completion as called for -/

/-- An acknowledgement that completes a publish with a value: a PUBACK below quality of
service 2, and for quality of service 2 an error in the PUBREC that is waited for, or the
PUBCOMP after a PUBREC without one. -/
inductive Ends (msg : InFlightPublish) : ControlPacket → Prop
  | puback (ack : Ack) (hqos : msg.message.qualityOfService ≠ qos2) : Ends msg (.puback ack)
  | pubrec (ack : Ack) (hqos : msg.message.qualityOfService = qos2)
      (hstate : msg.state = .waitingPubrec)
      (hcode : ack.reasonCode > Client.noMatchingSubscribers) : Ends msg (.pubrec ack)
  | pubcomp (ack : Ack) (hqos : msg.message.qualityOfService = qos2)
      (hstate : msg.state = .waitiingPubcomp) : Ends msg (.pubcomp ack)

theorem ends_of_value {msg : InFlightPublish} {p : ControlPacket} {receiver : Receiver}
    {codes : List UInt8}
    (hqos : msg.state = .waitingPuback ↔ msg.message.qualityOfService ≠ qos2)
    (h : outcome msg p = .completed receiver (.value codes)) : Ends msg p := by
  unfold outcome at h
  split at h
  case h_1 ack hstate => exact .puback ack (hqos.mp hstate)
  case h_2 ack hstate =>
    refine .pubcomp ack ?_ hstate
    by_contra hne
    cases hstate.symm.trans (hqos.mpr hne)
  case h_3 ack hstate =>
    split at h
    case isTrue hcode =>
      refine .pubrec ack ?_ hstate hcode
      by_contra hne
      cases hstate.symm.trans (hqos.mpr hne)
    case isFalse => cases h
  case h_4 => cases h

/-- A publish is moved on by the first PUBREC, if that has no error. -/
theorem pubrec_of_advanced {msg : InFlightPublish} {p : ControlPacket} {receiver : Receiver}
    (h : outcome msg p = .advanced receiver) : ∃ ack, p = .pubrec ack ∧
      msg.state = .waitingPubrec ∧ ¬ ack.reasonCode > Client.noMatchingSubscribers := by
  unfold outcome at h
  split at h
  case h_3 ack hstate =>
    split at h
    case isTrue => cases h
    case isFalse hcode => exact ⟨ack, rfl, hstate, hcode⟩
  all_goals cases h

theorem outcome_of_not_awaited {msg : InFlightPublish} {p : ControlPacket}
    (h : awaited msg p = false) : outcome msg p = .completed msg.receiver .done := by
  unfold outcome
  split
  case h_4 => rfl
  all_goals simp_all [awaited]

theorem namedBy_mem {p : ControlPacket} {msgs : List InFlightPublish} {msg : InFlightPublish}
    (h : namedBy p msgs = some msg) : msg ∈ msgs := by
  obtain ⟨id, -, hfind⟩ := Option.bind_eq_some_iff.mp h
  exact List.mem_of_find?_eq_some hfind

/-- The acknowledgement that moves a started publish on, or completes it with a value, is called
for by that publish. -/
theorem called_for_started {c : Config} (run : client.Run (fun c a => ordered c a) initial c)
    {op : PublishOpStarter} (hstarted : Started (fun c a => ordered c a) op c) {e : Effect}
    {older : List Effect} (hsuffix : e :: older <:+ c.log) (he : settles e = some op.receiver) :
    ∃ p msg before, older = .event (.packetReceived p) .connected :: before ∧
      namedBy p (inFlight before) = some msg ∧ msg.receiver = op.receiver ∧
        msg.message = op.message ∧ e = outcome msg p := by
  have howned := owned_run hstarted
  have hunder : UnderWay op.receiver older := howned.settled e older hsuffix he
  obtain ⟨p, msg, before, rfl, hnamed, hreceiver, heffect⟩ :=
    (judged_run run).calledFor e op.receiver older hsuffix he hunder
  have hbefore : before <:+ c.log := (List.suffix_cons _ _).trans ((List.suffix_cons _ _).trans hsuffix)
  have hmessage := howned.message hbefore (namedBy_mem hnamed) hreceiver
  exact ⟨p, msg, before, rfl, hnamed, hreceiver, hmessage, heffect⟩

/-- In every run without an acknowledgement out of turn: the publishes under way are those of
the history; the receiver of a publish that was started is completed with a value, or moved on,
only by an acknowledgement that names that publish and is called for; whatever else names one
completes it without a value, and by the time that nothing is left to be run the socket is
closed. -/
theorem completed_as_called_for {c : Config}
    (run : client.Run (fun c a => ordered c a) initial c) :
    c.state.publishedMessages = inFlight c.log ∧
    (∀ op, Started (fun c a => ordered c a) op c →
      (∀ codes older, .completed op.receiver (.value codes) :: older <:+ c.log →
        ∃ p msg before, older = .event (.packetReceived p) .connected :: before ∧
          namedBy p (inFlight before) = some msg ∧ msg.receiver = op.receiver ∧
            msg.message = op.message ∧ Ends msg p) ∧
      ∀ older, .advanced op.receiver :: older <:+ c.log →
        ∃ ack msg before, older = .event (.packetReceived (.pubrec ack)) .connected :: before ∧
          namedBy (.pubrec ack) (inFlight before) = some msg ∧ msg.receiver = op.receiver ∧
            msg.message = op.message ∧ msg.state = .waitingPubrec ∧
              ¬ ack.reasonCode > Client.noMatchingSubscribers) ∧
    (∀ p main msg older, .event (.packetReceived p) main :: older <:+ c.log →
      namedBy p (inFlight older) = some msg → awaited msg p = false →
        .completed msg.receiver .done :: .event (.packetReceived p) main :: older <:+ c.log) ∧
    (c.stack = [] → ∀ newer receiver older,
      c.log = newer ++ .completed receiver .done :: older → .closed ∈ newer) := by
  have hjudged := judged_run run
  refine ⟨inFlight_run run, ?_, ?_, ?_⟩
  · intro op hstarted
    constructor
    · intro codes older hsuffix
      obtain ⟨p, msg, before, rfl, hnamed, hreceiver, hmessage, hvalue⟩ :=
        called_for_started run hstarted hsuffix rfl
      have hqos := waitingPuback_iff before msg (namedBy_mem hnamed)
      have hends := ends_of_value hqos hvalue.symm
      exact ⟨p, msg, before, rfl, hnamed, hreceiver, hmessage, hends⟩
    · intro older hsuffix
      obtain ⟨p, msg, before, rfl, hnamed, hreceiver, hmessage, hadvanced⟩ :=
        called_for_started run hstarted hsuffix rfl
      obtain ⟨ack, rfl, hstate, hcode⟩ := pubrec_of_advanced hadvanced.symm
      exact ⟨ack, msg, before, rfl, hnamed, hreceiver, hmessage, hstate, hcode⟩
  · intro p main msg older hsuffix hnamed hviolation
    have houtcome := hjudged.answered p main msg older hsuffix hnamed (.inr hviolation)
    rwa [outcome_of_not_awaited hviolation] at houtcome
  · intro hstack newer receiver older hlog
    by_contra hopen
    have hmem := (closing_run run).awaits (by rw [hlog]; exact awaitsClose_of_mem hopen)
    rw [hstack] at hmem
    cases hmem

/-- A publish of quality of service 1 and its PUBACK, until a second publish is started. -/
def beforeSecondActions : List Action :=
  handshakeActions { flags := 0, reasonCode := 0 } ++ [.run] ++ settleActions ++
    request (.publish publishQos1) ++ completion (.puback { packetIdentifier := 1 }) 1 ++ [.enter]

/-- The two acknowledgements of the second publish, of quality of service 2, and a third one, of
quality of service 1, that gets a PUBREC. -/
def afterSecondActions : List Action :=
  .return :: arrival (.pubrec { packetIdentifier := 2 }) ++
    completion (.pubcomp { packetIdentifier := 2 }) 0 ++
    request (.publish publishQos1) ++ completion (.pubrec { packetIdentifier := 3 }) 1

def acknowledgedActions : List Action :=
  beforeSecondActions ++ .operate (.publish publishQos2) :: afterSecondActions

theorem completed_as_called_for_thrice : ∃ c op,
    client.Run (fun c a => ordered c a) initial c ∧ Started (fun c a => ordered c a) op c ∧
      op.message = { publishQos2 with packetIdentifier := 2 } ∧ inFlight c.log = [] ∧
      (∃ p msg before, .completed op.receiver (.value [0]) ::
        .event (.packetReceived p) .connected :: before <:+ c.log ∧
          msg.message = op.message ∧ Ends msg p) ∧
      ∃ newer older, c.log = newer ++ .completed 2 .done :: older ∧ .closed ∈ newer := by
  have hsteps : (client.stepsWhile ordered initial acknowledgedActions).map
      (fun c => (c.stack, c.state.publishedMessages,
        decide (.completed 1 (.value [0]) ∈ c.log ∧ .completed 2 .done ∈ c.log))) =
        some ([], [], true) := by decide +kernel
  have hdrawn : (client.stepsWhile ordered initial beforeSecondActions).map
      (fun d => (d.state.nextPacketIdentifier.drawn, d.state.nextPacketIdentifier.next)) =
        some (1, 2) := by decide +kernel
  obtain ⟨c, hc, hfacts⟩ := Option.map_eq_some_iff.mp hsteps
  simp only [Prod.mk.injEq, decide_eq_true_eq] at hfacts
  obtain ⟨hstack, hpublished, hvalue, hviolation⟩ := hfacts
  have run := Program.Run.of_stepsWhile _ hc
  obtain ⟨d, hd, hstarted⟩ := started_of_stepsWhile (by decide) hc
  rw [hd, Option.map_some, Option.some.injEq, Prod.mk.injEq] at hdrawn
  obtain ⟨htable, hcalledFor, -, hcloses⟩ := completed_as_called_for run
  have hreceiver : (d.state.nextStarter publishQos2).receiver = 1 := hdrawn.1
  have hmessage : (d.state.nextStarter publishQos2).message =
      { publishQos2 with packetIdentifier := 2 } := by
    rw [Client.nextStarter, hdrawn.2]
  refine ⟨c, _, run, hstarted, hmessage, htable.symm.trans hpublished, ?_, ?_⟩
  · obtain ⟨newer, older, hlog⟩ := List.append_of_mem hvalue
    rw [← hreceiver] at hlog
    have hsuffix : .completed _ (.value [0]) :: older <:+ c.log := ⟨newer, hlog.symm⟩
    obtain ⟨p, msg, before, rfl, -, -, hmsg, hends⟩ := (hcalledFor _ hstarted).1 [0] older hsuffix
    exact ⟨p, msg, before, hsuffix, hmsg, hends⟩
  · obtain ⟨newer, older, hlog⟩ := List.append_of_mem hviolation
    exact ⟨newer, older, hlog, hcloses hstack _ _ _ hlog⟩

def untilPublishActions : List Action :=
  handshakeActions { flags := 0, reasonCode := 0 } ++ [.run] ++ settleActions ++ [.enter]

/-- The server answers the first publish, of quality of service 1, with PUBCOMP. -/
def misacknowledgedActions : List Action :=
  untilPublishActions ++ .operate (.publish publishQos1) ::
    [.return, .readValue (.pubcomp { packetIdentifier := 1 }), .run]

/-- A PUBCOMP completes a publish of quality of service 1 with a value. -/
theorem pubcomp_completes_qos1 : ¬ ∀ c : Config, client.Run (fun _ _ => True) initial c →
    ∀ op, Started (fun _ _ => True) op c →
      ∀ codes older, .completed op.receiver (.value codes) :: older <:+ c.log →
        ∃ p msg before, older = .event (.packetReceived p) .connected :: before ∧
          namedBy p (inFlight before) = some msg ∧ msg.receiver = op.receiver ∧
            msg.message = op.message ∧ Ends msg p := by
  intro hcalledFor
  have hsteps : (client.stepsWhile (fun _ _ => true) initial misacknowledgedActions).map
      (fun c => (c.log.take 2, inFlight (c.log.drop 2))) =
        some ([.completed 0 (.value [0]),
          .event (.packetReceived (.pubcomp { packetIdentifier := 1 })) .connected],
            [⟨{ publishQos1 with packetIdentifier := 1 }, 0, .waitingPuback⟩]) := by
    decide +kernel
  have hdrawn : (client.stepsWhile (fun _ _ => true) initial untilPublishActions).map
      (·.state.nextPacketIdentifier.drawn) = some 0 := by decide +kernel
  obtain ⟨c, hc, hfacts⟩ := Option.map_eq_some_iff.mp hsteps
  simp only [Prod.mk.injEq] at hfacts
  obtain ⟨htop, hbefore⟩ := hfacts
  have hlog := List.take_append_drop 2 c.log
  rw [htop, List.cons_append, List.cons_append, List.nil_append] at hlog
  obtain ⟨d, hd, hstarted⟩ := started_of_stepsWhile (by decide) hc
  rw [hd, Option.map_some, Option.some.injEq] at hdrawn
  have hreceiver : (d.state.nextStarter publishQos1).receiver = 0 := hdrawn
  have hsuffix : .completed (d.state.nextStarter publishQos1).receiver (.value [0]) ::
      .event (.packetReceived (.pubcomp { packetIdentifier := 1 })) .connected :: c.log.drop 2 <:+
        c.log := by
    rw [hreceiver]
    exact ⟨[], hlog⟩
  obtain ⟨p, msg, before, heq, hnamed, -, -, hends⟩ := hcalledFor c
    ((Program.Run.of_stepsWhile _ hc).mono fun _ _ _ => trivial) _ (by simpa using hstarted) [0] _
      hsuffix
  injection heq with he holder
  injection he with he
  injection he with he
  rw [← he, ← holder, hbefore] at hnamed
  cases hnamed
  rw [← he] at hends
  cases hends with
  | pubcomp _ hqos => exact absurd hqos (by decide)

end Mqtt5.ClientAcknowledgement
