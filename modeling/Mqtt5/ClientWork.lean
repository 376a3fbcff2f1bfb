import Mqtt5.ClientCycles
import Mqtt5.ClientWaiters

/-!
# How much work an input is

The client calls back and is called back, and a packet may make it call its user, its regions
and its reader again. Here every call is given the work it may lead to, so that no chain of
calls can go on without a packet, a request or an event that pays for it.
-/
namespace Mqtt5.ClientWork
open WirePrimitives WirePublish WireConnect WireControlPacket CallMachine ClientState ClientSession
open ClientActs ClientStream ClientCycles ClientWaiters
open WireSubscribe hiding TopicFilter
open TopicMatching

/-- The steps that a call may lead to, itself among them. -/
def work : Call → ℕ
  | .dispatch .main (.packetReceived _) => 7
  | .dispatch .main .handshake => 2
  | .dispatch .rx (.packetReceived _) | .dispatch .rx .handshake => 2
  | .connectorReceiver _ _ | .publishWaiter _ _ => 2
  | _ => 1

/-- The work of the receivers that wait, and of a handshake that is about to start. -/
def owed (c : Client) : ℕ :=
  2 * (c.connectReceivers.length + (waiters c).length) + if c.main = .startHandshake then 1 else 0

/-- What comes from outside: packets, requests and events. -/
def isInput : Action → Bool
  | .run | .return | .suspend => false
  | _ => true

def paid (a : Action) : ℕ := if isInput a then 13 else 0

/-! ## Handlers -/

theorem owed_acts {c d : Client} {effects : List Effect} (h : Acts (fun _ _ => False) c d effects) :
    owed d = owed c := by
  induction h with
  | nothing => rfl
  | write _ _ _ _ _ ih | exchange _ ih | note _ _ ih => exact ih
  | other _ hother => exact hother.elim

theorem load_waiters {calls : List Call} (h : ∀ call ∈ calls, call.Waiter) :
    Program.load work calls = 2 * (calls.filterMap takenOut).length := by
  induction calls with
  | nil => rfl
  | cons call calls ih =>
    obtain ⟨hcall, hcalls⟩ := List.forall_mem_cons.mp h
    cases call with
    | publishWaiter receiver publish =>
      rw [Program.load_cons, ih hcalls]
      change 2 + _ = 2 * (_ + 1)
      omega
    | _ => exact hcall.elim

/-- The receivers that a delivery calls are those it takes out. -/
theorem owed_deliver (c : Client) (publish : Publish) :
    owed (c.deliverToPublishWaiters publish).state +
      Program.load work (c.deliverToPublishWaiters publish).calls = owed c := by
  have hwaiters : ∀ call ∈ (c.deliverToPublishWaiters publish).calls, call.Waiter :=
    (Client.receives_deliver (Client.SameExchanges.refl c).send publish).calls
  have hsplit := List.length_eq_length_filter_add (l := waiters c) fun waiting =>
    fits waiting.1 publish
  rw [load_waiters hwaiters, calls_deliver, List.length_map, owed, waiters_deliver, owed]
  change 2 * (c.connectReceivers.length + _) + (if c.main = _ then 1 else 0) + _ = _
  omega

/-- What a reaction leads to, against what there was to do. -/
def Within (c : Client) (n : ℕ) (r : Reaction) : Prop :=
  owed r.state + Program.load work r.calls ≤ owed c + n

theorem within_acts {c : Client} {r : Reaction} (h : Exchanges c r) {n : ℕ}
    (hcalls : Program.load work r.calls ≤ n) : Within c n r := by
  rw [Within, owed_acts h]
  omega

theorem within_performs {c : Client} {r : Reaction} (h : Performs (fun _ _ => False) c r)
    (hcalls : ∀ call ∈ r.calls, call.Waiter) : Within c 0 r := by
  cases h with
  | acts _ h hnone =>
    have hnil : r.calls = [] := by
      apply List.eq_nil_iff_forall_not_mem.mpr
      exact fun call hcall => hnone call hcall (hcalls call hcall)
    exact within_acts h (by rw [hnil]; exact Nat.le_refl 0)
  | @delivers d effects hacts publish =>
    have hdeliver := owed_deliver d publish
    rw [owed_acts hacts] at hdeliver
    exact Nat.le_of_eq hdeliver

theorem load_nothing {calls : List Call} (h : ∀ call ∈ calls, False) : Program.load work calls = 0 := by
  rw [List.eq_nil_iff_forall_not_mem.mpr h]
  rfl

theorem within_maybeSend (c : Client) : Within c 0 c.maybeSendQueuedPublish :=
  within_acts (exchanges_maybeSend c) (Nat.le_of_eq (load_nothing c.maybeSend_sends.calls))

theorem within_sendTurn {c : Client} {p : ControlPacket} {r : Reaction} (h : c.SendTurn p r) :
    Within c 3 r := by
  cases h with
  | puback => exact Nat.le_trans (within_maybeSend c) (Nat.le_add_right _ _)
  | finished ack msg _ _ after _ h =>
    have hafter : Program.load work after ≤ 2 := by cases h <;> decide
    change owed c + (1 + Program.load work after) ≤ owed c + 3
    omega
  | idle | pubrec | advanced => exact Nat.le_add_right _ _
  | subscribed | unsubscribed =>
    change owed c + 1 ≤ owed c + 3
    omega

theorem within_handlePacket (c : Client) (p : ControlPacket) : Within c 3 (c.handlePacket p) := by
  have hreceives : ∀ {r : Reaction}, Performs (fun _ _ => False) c r → c.Receives r →
      Within c 3 r := fun hperforms hr =>
    Nat.le_trans (within_performs hperforms hr.calls) (Nat.le_add_right _ _)
  have hperforms := performs_handlePacket c p
  cases p with
  | publish publish => exact hreceives hperforms (c.handlePublish_receives publish)
  | pubrel ack => exact hreceives hperforms (c.handlePubrel_receives ack)
  | _ => exact within_sendTurn (c.handlePacket_sendTurn (by simp) (by simp))

/-! ## Turns -/

theorem owed_main {c : Client} (h : c.main ≠ .startHandshake) (main : MainState) :
    owed { c with main } = owed c + if main = .startHandshake then 1 else 0 := by
  rw [owed, owed, if_neg h]
  rfl

theorem main_pays {c : Client} {e : Event} {r : Reaction} (h : c.MainTurn e r) :
    owed r.state + Program.load work r.calls + 1 ≤ owed c + work (.dispatch .main e) := by
  have hpos : 1 ≤ work (.dispatch .main e) := by
    cases e <;> simp [work]
  cases h with
  | packet p =>
    have hwithin := within_handlePacket c p
    rw [Within] at hwithin
    change _ ≤ owed c + 7
    omega
  | pubackSent =>
    obtain ⟨_, hsent⟩ := c.handlePubackSent_eq
    rw [hsent]
    exact Nat.add_le_add_left hpos _
  | connack p hmain =>
    obtain ⟨_, _, hack⟩ := { c with main := .connected }.handleConnack_eq p
    have hsame := owed_main (c := c) (by simp [hmain]) .connected
    rw [hack]
    change owed { c with main := .connected } + 6 + 1 ≤ owed c + 7
    rw [hsame]
    exact Nat.le_refl _
  | handshake hmain =>
    have hsame := owed_main (c := c) (by simp [hmain]) .startHandshake
    change owed { c with main := .startHandshake } + 0 + 1 ≤ owed c + 2
    rw [hsame]
    exact Nat.le_refl _
  | disconnect hmain =>
    have hsame := owed_main (c := c) (by simp [hmain]) .idle
    change owed { c with main := .idle } + 0 + 1 ≤ owed c + 1
    rw [hsame]
    exact Nat.le_refl _
  | ignored => exact Nat.add_le_add_left hpos _

theorem untimed_owed : Untimed owed := fun _ _ _ _ _ _ => rfl

theorem work_pos (call : Call) : 1 ≤ work call := by
  cases call with
  | dispatch region e => cases region <;> cases e <;> simp [work]
  | _ => simp [work]

theorem rx_pays (c : Client) (e : Event) :
    owed (c.dispatch e .rx).state + Program.load work (c.dispatch e .rx).calls + 1 ≤
      owed c + work (.dispatch .rx e) := by
  have hpos := work_pos (.dispatch .rx e)
  have hturn := dispatch_rx c e
  generalize c.dispatch e .rx = r at hturn
  cases hturn with
  | handshake | packet => exact Nat.le_refl _
  | disconnect | ignored => exact Nat.add_le_add_left hpos _

theorem owed_anonymous {c : Client} (h : c.main = .startHandshake) :
    owed c.anonymous.state + 1 = owed c := by
  have hstarted : owed c.anonymous.state = owed { c with main := .handshaking } := by
    rw [Client.anonymous, if_pos h]
    refine Reaction.andThen_state (S := fun d : Client => owed d = owed { c with main := .handshaking })
      ?_ fun d hd => hd
    rw [Client.startConnectTimer, Reaction.andThen_of_not_threw rfl]
    apply Eq.trans (owed_acts (exchanges_writer _ _ .message))
    rfl
  rw [hstarted, owed, owed, if_pos h]
  rfl

theorem load_anonymous {c : Client} (h : c.main = .startHandshake) :
    Program.load work c.anonymous.calls ≤ 1 := by
  by_cases hencodes : Encodes (.connect (Client.connectMessage c.connectOpts))
  · obtain ⟨d, -, hsent⟩ := Client.anonymous_of_encodes h hencodes
    rw [hsent]
    exact Nat.le_refl _
  · obtain ⟨started, -, hanonymous⟩ := Client.anonymous_eq h
    rw [hanonymous, started.sendMessage_of_not_encodes hencodes, Reaction.andThen_of_threw rfl]
    exact Nat.zero_le _

theorem anonymous_pays (c : Client) :
    owed c.anonymous.state + Program.load work c.anonymous.calls + 1 ≤ owed c + 1 := by
  by_cases hmain : c.main = .startHandshake
  · have howed := owed_anonymous hmain
    have hload := load_anonymous hmain
    omega
  · rw [Client.anonymous, if_neg hmain]
    exact Nat.le_refl _

theorem notify_pays (c : Client) (success : Bool) :
    owed (c.notifyConnectorReceivers success).state +
      Program.load work (c.notifyConnectorReceivers success).calls = owed c := by
  have hload : ∀ receivers : List Receiver,
      Program.load work (receivers.map (Call.connectorReceiver · success)) = 2 * receivers.length := by
    intro receivers
    induction receivers with
    | nil => rfl
    | cons receiver receivers ih =>
      rw [List.map_cons, Program.load_cons, ih, List.length_cons]
      change 2 + _ = _
      omega
  rw [Client.notifyConnectorReceivers, hload, owed, owed]
  change 2 * (0 + (waiters c).length) + (if c.main = _ then 1 else 0) + _ = _
  omega

theorem exec_pays {c : Client} {call : Call} {r : Reaction} (h : c.exec call = some r) :
    owed r.state + Program.load work r.calls + 1 ≤ owed c + work call := by
  cases call with
  | dispatch region e =>
    cases h
    have hpos := work_pos (.dispatch region e)
    cases region with
    | main =>
      obtain ⟨r, hturn, hr⟩ := c.dispatch_main e
      have hpays := main_pays hturn
      rw [hr]
      exact hpays
    | rx => exact rx_pays c e
    | ping =>
      rw [untimed_owed.dispatch_ping, dispatch_ping_calls]
      exact Nat.add_le_add_left hpos _
    | keepAlive =>
      rw [untimed_owed.dispatch_keepAlive, dispatch_keepAlive_calls]
      exact Nat.add_le_add_left hpos _
  | anonymous =>
    cases h
    exact anonymous_pays c
  | maybeSendQueuedPublish =>
    cases h
    have hwithin := within_maybeSend c
    exact Nat.add_le_add_right hwithin 1
  | notifyConnectorReceivers success =>
    cases h
    rw [notify_pays]
    exact Nat.le_refl _
  | connectorReceiver | publishWaiter | close =>
    cases h
    exact Nat.le_refl _
  | user | receiveOneMessage => cases h

/-! ## Requests and events -/

theorem load_startPublish (c : Client) (message : Publish) :
    Program.load work (c.startPublish message).calls ≤ 1 := by
  by_cases hqos : message.qualityOfService = qos0
  · rw [c.startPublish_of_qos0 hqos]
    by_cases hencodes : Encodes (.publish message)
    · obtain ⟨pendingWrites, hsend⟩ := c.sendMessage_of_encodes hencodes
      rw [hsend, Reaction.andThen_of_not_threw rfl]
      exact Nat.le_refl _
    · rw [c.sendMessage_of_not_encodes hencodes, Reaction.andThen_of_threw rfl]
      exact Nat.zero_le _
  · by_cases hfree : c.serverSendQuota > 0
    · have hnothing : ∀ call ∈ (c.startPublish message).calls, False := by
        rw [c.startPublish_of_free hqos hfree]
        refine (Client.sends_startFn (c := c) ?_ _).calls
        constructor <;> rfl
      rw [load_nothing hnothing]
      exact Nat.zero_le _
    · rw [c.startPublish_of_taken hqos hfree]
      exact Nat.zero_le _

theorem owed_register (c : Client) (filter : TopicFilter) (receiver : Receiver) :
    owed (c.startFilterSubscribe filter receiver).state = owed c + 2 := by
  have hlength := (waiters_register c filter receiver).length_eq
  rw [List.length_append, List.length_singleton] at hlength
  rw [owed, hlength, owed]
  change 2 * (c.connectReceivers.length + _) + (if c.main = _ then 1 else 0) = _
  omega

/-- The work of a request, before the user's code goes on. -/
theorem within_operate (c : Client) (op : Operation) : Within c 7 (c.operate op) := by
  cases op with
  | publish message =>
    exact within_acts (exchanges_startPublish c message)
      (Nat.le_trans (load_startPublish c message) (by decide))
  | subscribe subscriptions modifier =>
    apply within_acts (exchanges_startSubscribe c subscriptions modifier)
    obtain ⟨message, pendingWrites, -, hstart⟩ | hstart := c.startSubscribe_cases subscriptions modifier
    all_goals
      rw [hstart]
      exact Nat.zero_le _
  | unsubscribe unsub =>
    apply within_acts (exchanges_startUnsubscribe c unsub)
    obtain ⟨message, pendingWrites, -, hstart⟩ | hstart := c.startUnsubscribe_cases unsub
    all_goals
      rw [hstart]
      exact Nat.zero_le _
  | disconnect reason =>
    apply within_acts (exchanges_writer c _ .disconnector)
    rw [writer_calls]
    exact Nat.zero_le _
  | startConnect =>
    change Within c 7 c.startConnect
    rw [Client.startConnect]
    split
    · exact Nat.le_trans (Nat.le_of_eq (notify_pays c true)) (Nat.le_add_right _ _)
    · exact Nat.le_refl _
  | filterSubscribe filter receiver =>
    change owed (c.startFilterSubscribe filter receiver).state + 0 ≤ owed c + 7
    rw [owed_register]
    omega
  | connect receiver =>
    have hone : owed { c with connectReceivers := c.connectReceivers ++ [receiver] } = owed c + 2 := by
      rw [owed, owed, List.length_append, List.length_singleton]
      change 2 * (_ + (waiters c).length) + (if c.main = _ then 1 else 0) = _
      omega
    change owed { c with connectReceivers := c.connectReceivers ++ [receiver] } + 0 ≤ owed c + 7
    rw [hone]
    omega
  | handshaker | close => exact Nat.le_add_right _ _

theorem operateFrom_pays (c : Client) (op : Operation) :
    owed (c.operateFrom op).state + Program.load work (c.operateFrom op).calls + 1 ≤
      owed c + 1 + 13 := by
  have hwithin := within_operate c op
  have hcalls : Program.load work (c.operateFrom op).calls ≤
      Program.load work (c.operate op).calls + 1 := by
    rw [Client.operateFrom, Program.load_append]
    split
    · exact Nat.add_le_add_right (Nat.zero_le _) 1
    · exact Nat.le_refl _
  change owed (c.operate op).state + _ + 1 ≤ _
  rw [Within] at hwithin
  omega

/-- The dearest event is a packet. -/
theorem load_broughtToAll (e : Event) : Program.load work (broughtToAll e) ≤ 12 := by
  cases e <;> simp [Program.load, broughtToAll, work]

theorem processEvent_pays {c d : Client} (h : owed d = owed c) (e : Event) :
    owed (d.processEvent e).state + Program.load work (d.processEvent e).calls + 1 ≤
      owed c + 13 := by
  have hload := load_broughtToAll e
  change owed d + Program.load work (broughtToAll e) + 1 ≤ _
  omega

theorem respond_pays {c : Client} {call : Call} {a : Action} {r : Reaction}
    (h : c.respond call a = some r) :
    owed r.state + Program.load work r.calls + 1 ≤ owed c + work call + paid a := by
  cases a with
  | run => exact exec_pays h
  | operate op =>
    cases call <;> cases h
    exact operateFrom_pays c op
  | «return» | suspend =>
    cases call <;> cases h
    exact Nat.le_refl _
  | buffered packet =>
    cases call <;> cases h
    have hpays := processEvent_pays (c := c) rfl (.packetReceived packet)
    change _ ≤ owed c + 1 + 13
    omega
  | _ => cases call <;> cases h

theorem arrive_pays {c : Client} {a : Action} {r : Reaction} (h : c.arrive a = some r) :
    owed r.state + Program.load work r.calls + 1 ≤ owed c + paid a := by
  cases a with
  | enter =>
    cases h
    change owed c + 1 + 1 ≤ owed c + 13
    omega
  | readValue | readDone =>
    simp only [Client.arrive, Option.ite_none_left_eq_some] at h
    obtain ⟨-, h⟩ := h
    cases h
    exact processEvent_pays rfl _
  | writeValue i =>
    obtain ⟨write, -, rfl⟩ := Option.map_eq_some_iff.mp h
    cases write.receiver with
    | message | puback => exact processEvent_pays rfl _
    | disconnect =>
      change owed c + 0 + 1 ≤ owed c + 13
      omega
    | disconnector =>
      change owed c + 1 + 1 ≤ owed c + 13
      omega
  | writeDone i =>
    obtain ⟨write, -, rfl⟩ := Option.map_eq_some_iff.mp h
    cases write.receiver with
    | message => exact processEvent_pays rfl _
    | puback | disconnect =>
      change owed c + 0 + 1 ≤ owed c + 13
      omega
    | disconnector =>
      change owed c + 1 + 1 ≤ owed c + 13
      omega
  | connectAndPingTimer | keepAliveTimer =>
    obtain ⟨wait, -, rfl⟩ := Option.map_eq_some_iff.mp h
    exact processEvent_pays rfl _
  | _ => cases h

theorem pays : client.Pays owed work paid := ⟨fun _ _ _ => arrive_pays, fun _ _ _ _ => respond_pays⟩

/-! ## Every run -/

/-- Every call can be gone on with, without an input. -/
theorem goes_on {c : Config} (h : c.stack ≠ []) : ∃ a d, paid a = 0 ∧ client.step c a = some d := by
  obtain ⟨call, rest, hstack⟩ := List.exists_cons_of_ne_nil h
  have hstep : ∀ a r, c.state.respond call a = some r → client.step c a = some (client.react c rest r) := by
    intro a r hr
    rw [Program.step, hstack]
    exact congrArg (Option.map _) hr
  cases call with
  | user => exact ⟨.return, _, rfl, hstep _ _ rfl⟩
  | receiveOneMessage => exact ⟨.suspend, _, rfl, hstep _ _ rfl⟩
  | _ => exact ⟨.run, _, rfl, hstep _ _ rfl⟩

theorem sum_paid (as : List Action) : (as.map paid).sum = 13 * as.countP isInput := by
  induction as with
  | nil => rfl
  | cons a as ih =>
    rw [List.map_cons, List.sum_cons, ih, List.countP_cons, paid]
    split <;> omega

/-- The client takes at most thirteen steps for each packet, request and event it is given,
however its calls call each other, and when it is given no more it comes to rest within them. -/
theorem work_is_bounded {as : List Action} {c : Config}
    (h : client.stepsWhile (fun _ _ => true) initial as = some c) :
    as.length ≤ 13 * as.countP isInput ∧
    ∃ more d, (∀ a ∈ more, isInput a = false) ∧
      client.stepsWhile (fun _ _ => true) c more = some d ∧ d.stack = [] ∧
      (as ++ more).length ≤ 13 * as.countP isInput := by
  have hbefore := pays.length_le h
  rw [sum_paid] at hbefore
  change _ ≤ 0 + _ at hbefore
  obtain ⟨more, d, hfree, hmore, hstack⟩ := pays.exists_rest (fun _ => goes_on) c
  have hquiet : ∀ a ∈ more, isInput a = false := by
    intro a ha
    have hzero := hfree a ha
    rw [paid] at hzero
    split at hzero
    case isTrue => cases hzero
    case isFalse hinput => simpa using hinput
  have hafter := pays.length_le hmore
  rw [sum_paid, List.countP_eq_zero.mpr fun a ha => by simp [hquiet a ha]] at hafter
  refine ⟨by omega, more, d, hquiet, hmore, hstack, ?_⟩
  rw [List.length_append]
  omega

/-- The user enters and connects: two inputs. -/
theorem work_is_bounded_connecting : ∃ c more d,
    client.stepsWhile (fun _ _ => true) initial [.enter, .operate .startConnect] = some c ∧
      client.stepsWhile (fun _ _ => true) c more = some d ∧ d.stack = [] ∧ more.length ≤ 24 := by
  have hsteps : ∃ c, client.stepsWhile (fun _ _ => true) initial
      [.enter, .operate .startConnect] = some c := ⟨_, rfl⟩
  obtain ⟨c, hc⟩ := hsteps
  obtain ⟨-, more, d, -, hmore, hstack, hlength⟩ := work_is_bounded hc
  rw [List.length_append] at hlength
  change 2 + more.length ≤ 26 at hlength
  exact ⟨c, more, d, hc, hmore, hstack, by omega⟩

end Mqtt5.ClientWork
