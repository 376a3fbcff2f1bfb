import Mqtt5.ClientIdentifiers
import Mqtt5.ClientSession

/-!
# Publishes under way

`published_messages_` is what the history of publishes that were started, moved on and
completed says is under way. Receivers tell the publishes apart, and each publish is found
by its packet identifier.
-/
namespace Mqtt5.ClientInFlight
open WirePrimitives WirePublish WireConnect WireControlPacket CallMachine ClientState ClientSession
open ClientIdentifiers

/-- A publish that waits for PUBREC is moved on. -/
def advance (msg : InFlightPublish) : InFlightPublish :=
  if msg.state = .waitingPubrec then { msg with state := .waitiingPubcomp } else msg

/-- The handler of PUBREC moves on whatever does not wait for PUBACK. -/
theorem advance_eq {msg : InFlightPublish} (h : msg.state ≠ .waitingPuback) :
    { msg with state := .waitiingPubcomp } = advance msg := by
  cases msg with
  | mk message receiver state =>
    cases state with
    | waitingPuback => exact absurd rfl h
    | waitingPubrec => rfl
    | waitiingPubcomp => rfl

/-- The publishes under way, as the log has it. -/
def inFlight : List Effect → List InFlightPublish
  | [] => []
  | .started receiver message :: older =>
      inFlight older ++ [⟨message, receiver, InFlightPublish.startState message⟩]
  | .advanced receiver :: older =>
      modifyFirst (·.receiver = receiver) advance (inFlight older)
  | .completed receiver _ :: older => (inFlight older).eraseP (·.receiver = receiver)
  | _ :: older => inFlight older

/-- The receiver that an effect moves on or completes. -/
def settles : Effect → Option Receiver
  | .advanced receiver | .completed receiver _ => some receiver
  | _ => none

/-- An effect that says nothing of publishes under way. -/
def Untracked (e : Effect) : Prop := settles e = none ∧ ∀ receiver message, e ≠ .started receiver message

theorem untracked_of_receiving {e : Effect} (h : e.Receiving) : Untracked e := by
  cases e with
  | sent packet receiver => exact ⟨rfl, by simp⟩
  | _ => first | exact h.elim | exact ⟨rfl, by simp⟩

theorem untracked_of_quiet {e : Effect} (h : e.Quiet) : Untracked e := by
  cases e with
  | sent packet receiver => exact ⟨rfl, by simp⟩
  | _ => first | exact h.elim | exact ⟨rfl, by simp⟩

theorem inFlight_cons {e : Effect} (h : Untracked e) (log : List Effect) :
    inFlight (e :: log) = inFlight log := by
  cases e with
  | started receiver message => exact absurd rfl (h.2 receiver message)
  | advanced receiver => cases h.1
  | completed receiver completion => cases h.1
  | _ => rfl

theorem inFlight_append {effects : List Effect} (h : ∀ e ∈ effects, Untracked e)
    (log : List Effect) : inFlight (effects ++ log) = inFlight log := by
  induction effects with
  | nil => rfl
  | cons e effects ih =>
    rw [List.cons_append, inFlight_cons (h e List.mem_cons_self)]
    exact ih fun e he => h e (List.mem_cons_of_mem _ he)

/-! ## Finding by receiver instead of by identifier -/

/-- Where receivers are different, the first publish with a property is the one with its
receiver. -/
theorem first_by_receiver {p : InFlightPublish → Bool} {msgs : List InFlightPublish}
    {msg : InFlightPublish} (hnodup : (msgs.map (·.receiver)).Nodup) (hfind : msgs.find? p = some msg)
    (f : InFlightPublish → InFlightPublish) :
    msgs.eraseP p = msgs.eraseP (·.receiver = msg.receiver) ∧
      modifyFirst p f msgs = modifyFirst (·.receiver = msg.receiver) f msgs := by
  induction msgs with
  | nil => cases hfind
  | cons head msgs ih =>
    rw [List.map_cons, List.nodup_cons] at hnodup
    by_cases hp : p head
    · rw [List.find?_cons_of_pos hp] at hfind
      cases hfind
      rw [List.eraseP_cons_of_pos hp, List.eraseP_cons_of_pos (by simp), modifyFirst, if_pos hp,
        modifyFirst, if_pos (by simp)]
      exact ⟨rfl, rfl⟩
    · rw [List.find?_cons_of_neg hp] at hfind
      have hne : ¬ head.receiver = msg.receiver := by
        intro heq
        apply hnodup.1
        rw [heq]
        exact List.mem_map_of_mem (List.mem_of_find?_eq_some hfind)
      obtain ⟨herase, hmodify⟩ := ih hnodup.2 hfind
      rw [List.eraseP_cons_of_neg hp, List.eraseP_cons_of_neg (by simpa using hne), modifyFirst,
        if_neg hp, modifyFirst, if_neg (by simpa using hne), herase, hmodify]
      exact ⟨rfl, rfl⟩

/-- Only what is done to the first element matters. -/
theorem modifyFirst_congr {α : Type} {p : α → Bool} {f g : α → α} {as : List α} {a : α}
    (hfind : as.find? p = some a) (heq : f a = g a) : modifyFirst p f as = modifyFirst p g as := by
  induction as with
  | nil => rfl
  | cons head as ih =>
    by_cases hp : p head
    · rw [List.find?_cons_of_pos hp] at hfind
      cases hfind
      rw [modifyFirst, if_pos hp, modifyFirst, if_pos hp, heq]
    · rw [List.find?_cons_of_neg hp] at hfind
      rw [modifyFirst, if_neg hp, modifyFirst, if_neg hp, ih hfind]

theorem mem_modifyFirst {α : Type} {p : α → Bool} {f : α → α} {as : List α} {b : α}
    (h : b ∈ modifyFirst p f as) : ∃ a ∈ as, b = a ∨ b = f a := by
  induction as with
  | nil => cases h
  | cons head as ih =>
    rw [modifyFirst] at h
    split at h
    · rcases List.mem_cons.mp h with rfl | h
      · exact ⟨head, List.mem_cons_self, .inr rfl⟩
      · exact ⟨b, List.mem_cons_of_mem _ h, .inl rfl⟩
    · rcases List.mem_cons.mp h with rfl | h
      · exact ⟨b, List.mem_cons_self, .inl rfl⟩
      · obtain ⟨a, ha, hb⟩ := ih h
        exact ⟨a, List.mem_cons_of_mem _ ha, hb⟩

/-- A publish waits for PUBACK unless its quality of service is 2. -/
theorem waitingPuback_iff (log : List Effect) : ∀ msg ∈ inFlight log,
    msg.state = .waitingPuback ↔ msg.message.qualityOfService ≠ qos2 := by
  induction log with
  | nil => simp [inFlight]
  | cons e log ih =>
    intro msg hmsg
    cases e with
    | started receiver message =>
      rcases List.mem_append.mp hmsg with hmsg | hmsg
      · exact ih msg hmsg
      · rw [List.mem_singleton.mp hmsg]
        change InFlightPublish.startState message = _ ↔ _
        rw [InFlightPublish.startState]
        split <;> simp [*]
    | advanced receiver =>
      obtain ⟨before, hbefore, rfl | rfl⟩ := mem_modifyFirst hmsg
      · exact ih _ hbefore
      · have hiff := ih before hbefore
        rw [advance]
        split
        case isTrue hpubrec =>
          rw [hpubrec] at hiff
          simpa using hiff
        case isFalse => exact hiff
    | completed receiver completion => exact ih msg (List.mem_of_mem_eraseP hmsg)
    | _ => exact ih msg hmsg

theorem published_nodup {c : Client} (h : Accounted c) :
    (c.publishedMessages.map (·.receiver)).Nodup := by
  have hle : (↑(c.publishedMessages.map heldByPublished) : Multiset Held) ≤ held c := by
    rw [held, add_assoc, add_assoc]
    exact Multiset.le_add_right _ _
  have hnodup := Multiset.nodup_of_le (Multiset.map_le_map hle) h.nodup
  rw [Multiset.map_coe, Multiset.coe_nodup, List.map_map] at hnodup
  exact hnodup

/-- The receiver of another operation is not that of a publish under way. -/
theorem published_disjoint {c : Client} (h : Accounted c) (others : List Held)
    (hle : (↑(c.publishedMessages.map heldByPublished) : Multiset Held) + ↑others ≤ held c)
    {other : Held} (hother : other ∈ others) :
    ∀ msg ∈ c.publishedMessages, msg.receiver ≠ other.draw := by
  have hnodup := Multiset.nodup_of_le (Multiset.map_le_map hle) h.nodup
  rw [Multiset.map_add, Multiset.nodup_add] at hnodup
  intro msg hmsg heq
  have hpublished : msg.receiver ∈ (↑(c.publishedMessages.map heldByPublished) :
      Multiset Held).map Held.draw :=
    Multiset.mem_map_of_mem Held.draw (Multiset.mem_coe.mpr (List.mem_map_of_mem hmsg))
  rw [heq] at hpublished
  exact Multiset.disjoint_left.mp hnodup.2.2 hpublished
    (Multiset.mem_map_of_mem Held.draw (Multiset.mem_coe.mpr hother))

theorem subscribe_not_published {c : Client} (h : Accounted c) {msg : InFlightSubscribe}
    (hmsg : msg ∈ c.subscribeMessages) :
    ∀ published ∈ c.publishedMessages, published.receiver ≠ msg.receiver := by
  refine published_disjoint h (c.subscribeMessages.map heldBySubscribe) ?_
    (List.mem_map_of_mem hmsg)
  have hsplit : held c = (↑(c.publishedMessages.map heldByPublished) +
      ↑(c.subscribeMessages.map heldBySubscribe)) + (↑(c.queuedPublishes.map heldByQueued) +
        ↑(c.unsubscribeMessages.map heldByUnsubscribe)) := by
    rw [held]
    abel
  rw [hsplit]
  exact Multiset.le_add_right _ _

theorem unsubscribe_not_published {c : Client} (h : Accounted c) {msg : InFlightUnsubscribe}
    (hmsg : msg ∈ c.unsubscribeMessages) :
    ∀ published ∈ c.publishedMessages, published.receiver ≠ msg.receiver := by
  refine published_disjoint h (c.unsubscribeMessages.map heldByUnsubscribe) ?_
    (List.mem_map_of_mem hmsg)
  have hsplit : held c = (↑(c.publishedMessages.map heldByPublished) +
      ↑(c.unsubscribeMessages.map heldByUnsubscribe)) + (↑(c.queuedPublishes.map heldByQueued) +
        ↑(c.subscribeMessages.map heldBySubscribe)) := by
    rw [held]
    abel
  rw [hsplit]
  exact Multiset.le_add_right _ _

/-! ## The table -/

/-- A reaction after which the table is still what the log says. -/
def Tracks (c : Client) (r : Reaction) : Prop :=
  ∀ log, c.publishedMessages = inFlight log → r.state.publishedMessages = inFlight (r.effects ++ log)

theorem tracks_untracked {c : Client} {r : Reaction}
    (hsame : r.state.publishedMessages = c.publishedMessages)
    (heffects : ∀ e ∈ r.effects, Untracked e) : Tracks c r := by
  intro log hlog
  rw [hsame, inFlight_append heffects, hlog]

theorem Tracks.entry {c : Client} {r : Reaction} (h : Tracks c r) (e : Event) (main : MainState) :
    Tracks c (withEntry r e main) := by
  intro log hlog
  change _ = inFlight (r.effects ++ [.event e main] ++ log)
  rw [List.append_assoc]
  exact h _ hlog

theorem Tracks.of_eq {c d : Client} {r : Reaction} (h : Tracks d r)
    (hsame : d.publishedMessages = c.publishedMessages) : Tracks c r := by
  intro log hlog
  exact h log (hsame.trans hlog)

theorem tracks_startFn (c : Client) (op : PublishOpStarter) : Tracks c (c.startFn op) := by
  by_cases hencodes : Encodes (.publish op.message)
  · obtain ⟨pendingWrites, hstart⟩ := c.startFn_of_encodes hencodes
    rw [hstart]
    intro log hlog
    change c.publishedMessages ++ [_] = inFlight log ++ [_]
    rw [hlog]
  · rw [c.startFn_of_not_encodes hencodes]
    exact fun _ hlog => hlog

theorem tracks_maybeSend (c : Client) : Tracks c c.maybeSendQueuedPublish := by
  rcases c.maybeSend_cases with hfull | hempty | ⟨next, queued, -, hnext⟩
  · rw [hfull]
    exact fun _ hlog => hlog
  · rw [hempty]
    exact fun _ hlog => hlog
  · rw [hnext]
    exact (tracks_startFn _ next).of_eq rfl

theorem tracks_finishPublish {c : Client} (h : Accounted c) {id : UInt16} {msg : InFlightPublish}
    (hfind : c.publishedMessages.find? (·.named id) = some msg) (completion : Completion)
    (after : List Call) : Tracks c (c.finishPublish id msg completion after) := by
  intro log hlog
  change c.publishedMessages.eraseP _ = (inFlight log).eraseP _
  rw [(first_by_receiver (published_nodup h) hfind fun msg => msg).1, hlog]

theorem tracks_completed {c d : Client} {receiver : Receiver} {completion : Completion}
    {calls : List Call} (hsame : d.publishedMessages = c.publishedMessages)
    (hother : ∀ msg ∈ c.publishedMessages, msg.receiver ≠ receiver) :
    Tracks c { state := d, calls, effects := [.completed receiver completion] } := by
  intro log hlog
  change d.publishedMessages = (inFlight log).eraseP _
  rw [hsame, ← hlog, List.eraseP_of_forall_not]
  intro msg hmsg
  simpa using hother msg hmsg

theorem tracks_sendTurn {c : Client} (h : Accounted c) {p : ControlPacket} {r : Reaction}
    (hturn : c.SendTurn p r) : Tracks c r := by
  cases hturn with
  | idle | pubrec => exact fun _ hlog => hlog
  | puback => exact tracks_maybeSend c
  | finished _ _ _ completion after hfind => exact tracks_finishPublish h hfind completion after
  | advanced ack msg hfind hcode hstate =>
    intro log hlog
    change modifyFirst _ _ c.publishedMessages = modifyFirst _ _ (inFlight log)
    rw [modifyFirst_congr hfind (advance_eq hstate),
      (first_by_receiver (published_nodup h) hfind advance).2, hlog]
  | subscribed _ _ hfind =>
    exact tracks_completed rfl (subscribe_not_published h (List.mem_of_find?_eq_some hfind))
  | unsubscribed _ _ hfind =>
    exact tracks_completed rfl (unsubscribe_not_published h (List.mem_of_find?_eq_some hfind))

theorem tracks_handlePacket {c : Client} (h : Accounted c) (p : ControlPacket) :
    Tracks c (c.handlePacket p) := by
  obtain hreceives | hsends := c.handlePacket_turn p
  · exact tracks_untracked hreceives.state.publishedMessages
      fun e he => untracked_of_receiving (hreceives.effects e he)
  · exact tracks_sendTurn h hsends

theorem tracks_main {c : Client} (h : Accounted c) {e : Event} {r : Reaction}
    (hturn : c.MainTurn e r) : Tracks c r := by
  cases hturn with
  | packet p => exact tracks_handlePacket h p
  | pubackSent =>
    have hreceives := c.handlePubackSent_receives
    exact tracks_untracked hreceives.state.publishedMessages
      fun e he => untracked_of_receiving (hreceives.effects e he)
  | connack p =>
    obtain ⟨_, _, hack⟩ := { c with main := .connected }.handleConnack_eq p
    rw [hack]
    exact fun _ hlog => hlog
  | handshake | disconnect | ignored => exact fun _ hlog => hlog

theorem tracks_startPublish (c : Client) (message : Publish) :
    Tracks c (c.startPublish message) := by
  by_cases hqos : message.qualityOfService = qos0
  · rw [c.startPublish_of_qos0 hqos]
    by_cases hencodes : Encodes (.publish message)
    · obtain ⟨pendingWrites, hsend⟩ := c.sendMessage_of_encodes hencodes
      rw [hsend, Reaction.andThen_of_not_threw rfl]
      exact fun _ hlog => hlog
    · rw [c.sendMessage_of_not_encodes hencodes, Reaction.andThen_of_threw rfl]
      exact fun _ hlog => hlog
  · by_cases hfree : c.serverSendQuota > 0
    · rw [c.startPublish_of_free hqos hfree]
      exact (tracks_startFn _ _).of_eq rfl
    · rw [c.startPublish_of_taken hqos hfree]
      exact fun _ hlog => hlog

theorem tracks_operate (c : Client) (op : Operation) : Tracks c (c.operate op) := by
  have haside := c.operate_aside op
  cases op with
  | publish message => exact tracks_startPublish c message
  | subscribe subscriptions modifier =>
    change Tracks c (c.startSubscribe subscriptions modifier)
    rcases c.startSubscribe_cases subscriptions modifier with ⟨_, _, -, hstart⟩ | hstart <;>
      rw [hstart] <;> exact fun _ hlog => hlog
  | unsubscribe unsub =>
    change Tracks c (c.startUnsubscribe unsub)
    rcases c.startUnsubscribe_cases unsub with ⟨_, _, -, hstart⟩ | hstart <;>
      rw [hstart] <;> exact fun _ hlog => hlog
  | _ =>
    have haside := haside (by simp) (by simp) (by simp)
    refine tracks_untracked haside.state.publishedMessages fun e he => ?_
    rcases haside.effects e he with ⟨reason, rfl⟩ | rfl <;> exact ⟨rfl, by simp⟩

/-- Whatever is run keeps the table and the log in step. -/
theorem tracks_respond {c : Client} (h : Accounted c) {call : Call} {a : Action} {r : Reaction}
    (hr : c.respond call a = some r) : Tracks c r := by
  cases Client.respond_turn hr with
  | main e r hturn => exact (tracks_main h hturn).entry e c.main
  | anonymous hstart =>
    obtain ⟨hsame, -, heffects⟩ := Client.anonymous_same hstart
    refine tracks_untracked hsame.send.publishedMessages fun e he => ?_
    rw [heffects e he]
    exact ⟨rfl, by simp⟩
  | maybeSend => exact tracks_maybeSend c
  | operate op => exact tracks_operate c op
  | close => exact fun _ hlog => hlog
  | quiet _ _ _ hquiet =>
    exact tracks_untracked hquiet.same.send.publishedMessages
      fun e he => untracked_of_quiet (hquiet.effects e he)

/-- In every run the publishes under way are those of the log. -/
theorem inFlight_run {ok : Config → Action → Prop} {c : Config} (run : client.Run ok initial c) :
    c.state.publishedMessages = inFlight c.log := by
  have hrun := run.assume (J := fun c => Accounted c.state) fun _ run => accounted_run run
  apply hrun.invariant (I := fun c => c.state.publishedMessages = inFlight c.log) rfl
  · intro c a r hc _ _ hr
    have hquiet := Client.arrive_quiet hr
    exact tracks_untracked hquiet.same.send.publishedMessages
      (fun e he => untracked_of_quiet (hquiet.effects e he)) c.log hc
  · intro c a call rest r hc hok _ hr
    exact tracks_respond hok.2 hr c.log hc

end Mqtt5.ClientInFlight
