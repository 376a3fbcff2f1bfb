import Mathlib.Data.List.Perm.Basic
import Mqtt5.ClientActs
import Mqtt5.ClientSession

/-!
# Writes, events and the receive region

What the client gave to the stream and is still being written is in the log, the receive
region changes its state in its own turn only, and an event that something raises is
brought to the regions one after the other.
-/
namespace Mqtt5.ClientStream
open WirePrimitives WirePublish WireConnect WireControlPacket CallMachine ClientState ClientSession
open ClientActs
open WireSubscribe hiding TopicFilter
open TopicMatching

/-- The receiver that a packet was given to the stream with. -/
def submittedWith : Effect → Option WriteReceiver
  | .sent _ receiver => some receiver
  | _ => none

/-- The writes a reaction leaves under way, in their order. -/
def submitted (effects : List Effect) : List WriteReceiver :=
  effects.reverse.filterMap submittedWith

/-- The receivers of the writes that are under way. -/
def writers (c : Client) : List WriteReceiver := c.pendingWrites.map (·.receiver)

/-- A reaction that does not touch the receive region and whose writes are in its effects. -/
structure Submits (c : Client) (r : Reaction) : Prop where
  rx : r.state.rx = c.rx
  writers : writers r.state = writers c ++ submitted r.effects

theorem submitted_cons (e : Effect) (effects : List Effect) :
    submitted (e :: effects) = submitted effects ++ submitted [e] := by
  rw [submitted, List.reverse_cons, List.filterMap_append]
  rfl

/-- What acts give to the stream is in their effects. -/
theorem submits_acts {c d : Client} {effects : List Effect} (h : Acts Aside c d effects) :
    d.rx = c.rx ∧ writers d = writers c ++ submitted effects := by
  induction h with
  | nothing => exact ⟨rfl, (List.append_nil _).symm⟩
  | @write d effects _ packet receiver buffer _ ih =>
    refine ⟨ih.1, ?_⟩
    have hlast : submitted [.sent packet receiver] = [receiver] := rfl
    rw [submitted_cons, hlast, ← List.append_assoc, ← ih.2]
    exact List.map_append
  | exchange _ ih => exact ih
  | @note d effects _ e he ih =>
    have hlast : submitted [e] = [] := by cases e <;> first | exact he.elim | rfl
    rw [submitted_cons, hlast, List.append_nil]
    exact ih
  | @other d e effects _ he ih =>
    refine ⟨he.rx.trans ih.1, ?_⟩
    rw [writers, he.pendingWrites]
    exact ih.2

theorem submits_performs {c : Client} {r : Reaction} (h : Performs Aside c r) : Submits c r := by
  cases h with
  | acts _ h =>
    obtain ⟨hrx, hwriters⟩ := submits_acts h
    exact ⟨hrx, hwriters⟩
  | @delivers d effects h publish =>
    obtain ⟨hrx, hwriters⟩ := submits_acts h
    refine ⟨hrx, ?_⟩
    have hlast : submitted [.delivered publish] = [] := rfl
    rw [submitted_cons, hlast, List.append_nil]
    exact hwriters

theorem submits_main {c : Client} {e : Event} {r : Reaction} (h : c.MainTurn e r) :
    Submits c r :=
  submits_performs (performs_main h)

theorem submits_anonymous (c : Client) : Submits c c.anonymous := by
  obtain ⟨hrx, hwriters⟩ := submits_acts (acts_anonymous c)
  exact ⟨hrx, hwriters⟩

/-! ## The receive region -/

/-- What the receive region makes of an event. -/
inductive RxTurn (c : Client) : Event → Reaction → Prop
  | handshake (h : c.rx = .idle) :
      RxTurn c .handshake { state := { c with rx := .receiving }, calls := [.receiveOneMessage] }
  | packet (p : ControlPacket) (h : c.rx = .receiving) :
      RxTurn c (.packetReceived p) { state := c, calls := [.receiveOneMessage] }
  | disconnect (h : c.rx = .receiving) :
      RxTurn c .disconnect { state := { c with rx := .idle }, effects := [.closed] }
  | ignored (e : Event) (hdisconnect : c.rx = .receiving → e ≠ .disconnect)
      (hhandshake : c.rx = .idle → e ≠ .handshake) : RxTurn c e { state := c }

theorem dispatch_rx (c : Client) (e : Event) : RxTurn c e (c.dispatch e .rx) := by
  rw [Client.dispatch]
  cases hrx : c.rx with
  | idle =>
    cases e with
    | handshake => exact .handshake hrx
    | _ => exact .ignored _ (by simp [hrx]) (by simp)
  | receiving =>
    have hself : { c with rx := .receiving } = c := by rw [← hrx]
    cases e with
    | packetReceived p =>
      simp only [rxTable, hself]
      exact .packet p hrx
    | disconnect => exact .disconnect hrx
    | _ => exact .ignored _ (by simp) (by simp [hrx])

theorem respond_rx {c : Client} {e : Event} {a : Action} {r : Reaction}
    (h : c.respond (.dispatch .rx e) a = some r) : RxTurn c e r := by
  cases a <;> cases h
  exact dispatch_rx c e

theorem respond_submits {c : Client} {call : Call} {a : Action} {r : Reaction}
    (h : c.respond call a = some r) (hcall : ∀ e, call ≠ .dispatch .rx e) : Submits c r := by
  cases respond_acts h with
  | filterSubscribe => exact ⟨rfl, (List.append_nil _).symm⟩
  | waiter => exact ⟨rfl, (List.append_nil _).symm⟩
  | rx e => exact absurd rfl (hcall e)
  | performs _ _ _ h => exact submits_performs h

/-- Writes under way are the old ones and those that were logged. -/
theorem respond_writers {c : Client} {call : Call} {a : Action} {r : Reaction}
    (h : c.respond call a = some r) : writers r.state = writers c ++ submitted r.effects := by
  by_cases hcall : ∃ e, call = .dispatch .rx e
  · obtain ⟨e, rfl⟩ := hcall
    have hnothing : writers c = writers c ++ [] := (List.append_nil _).symm
    cases respond_rx h <;> exact hnothing
  · exact (respond_submits h fun e he => hcall ⟨e, he⟩).writers

/-! ## Events that are raised -/

/-- Calls none of which brings an event to a region. -/
def Plain (calls : List Call) : Prop := ∀ region e, .dispatch region e ∉ calls

/-- An event on its way to the four regions. -/
def broughtToAll (e : Event) : List Call :=
  [.dispatch .main e, .dispatch .rx e, .dispatch .ping e, .dispatch .keepAlive e, .anonymous]

/-- The calls of a reaction: perhaps an event that is brought to the regions, and others. -/
inductive Raises (E : Event → Prop) : List Call → Prop
  | nothing {calls : List Call} (h : Plain calls) : Raises E calls
  | event (e : Event) (after : List Call) (he : E e) (h : Plain after) :
      Raises E (broughtToAll e ++ after)

/-- The events that code of the client or of its user raises; the others come from the
event loop. -/
def Nested : Event → Prop
  | .handshake | .handshakeDone | .packetReceived _ => True
  | _ => False

theorem Raises.not_mem {E : Event → Prop} {calls : List Call} (h : Raises E calls)
    {region : Region} {e : Event} (he : ¬ E e) : .dispatch region e ∉ calls := by
  intro hmem
  cases h with
  | nothing h => exact h region e hmem
  | event e' after he' h =>
    rcases List.mem_append.mp hmem with hmem | hmem
    · simp only [broughtToAll, List.mem_cons, Call.dispatch.injEq, List.not_mem_nil, or_false,
        reduceCtorEq] at hmem
      have heq : e = e' := by rcases hmem with h | h | h | h <;> exact h.2
      exact he (heq ▸ he')
    · exact h region e hmem

theorem Raises.append {E : Event → Prop} {calls after : List Call} (h : Raises E calls)
    (hafter : Plain after) : Raises E (calls ++ after) := by
  have happend : ∀ {calls : List Call}, Plain calls → Plain (calls ++ after) := by
    intro calls hcalls region e hmem
    exact (List.mem_append.mp hmem).elim (hcalls region e) (hafter region e)
  cases h with
  | nothing h => exact .nothing (happend h)
  | event e between he h =>
    rw [List.append_assoc]
    exact .event e _ he (happend h)

theorem raises_handlePacket (c : Client) (p : ControlPacket) :
    Raises Nested (c.handlePacket p).calls := by
  apply Raises.nothing
  intro region e hmem
  rcases c.handlePacket_side p with h | h
  · exact h.calls _ hmem
  · simpa [Call.After] using h.calls _ hmem

theorem raises_main {c : Client} {e : Event} {r : Reaction} (h : c.MainTurn e r) :
    Raises Nested r.calls := by
  cases h with
  | packet p => exact raises_handlePacket c p
  | pubackSent => exact .nothing fun _ _ hmem => c.handlePubackSent_receives.calls _ hmem
  | connack p =>
    obtain ⟨_, _, hack⟩ := { c with main := .connected }.handleConnack_eq p
    rw [hack]
    exact .event .handshakeDone [.notifyConnectorReceivers true] trivial (by simp [Plain])
  | handshake | disconnect | ignored => exact .nothing (by simp [Plain, Client.close])

theorem raises_operate (c : Client) (op : Operation) : Raises Nested (c.operate op).calls := by
  cases op with
  | publish message =>
    exact .nothing fun _ _ hmem => by cases (c.startPublish_sends message).calls _ hmem
  | subscribe subscriptions modifier =>
    exact .nothing fun _ _ hmem => by
      cases (c.startSubscribe_sends subscriptions modifier).calls _ hmem
  | unsubscribe unsub =>
    exact .nothing fun _ _ hmem => by cases (c.startUnsubscribe_sends unsub).calls _ hmem
  | disconnect reason =>
    exact .nothing fun _ _ hmem =>
      (c.controlPacketWriter_ensures _ .disconnector (fun _ => False)).calls _ hmem
  | startConnect =>
    change Raises Nested c.startConnect.calls
    rw [Client.startConnect]
    split
    · exact .nothing (by simp [Plain, Client.notifyConnectorReceivers])
    · exact .event .handshake [] trivial (by simp [Plain])
  | handshaker | connect | filterSubscribe | close =>
    exact .nothing (by simp [Plain, Client.operate, Client.startFilterSubscribe, Client.close])

theorem plain_nil : Plain [] := by simp [Plain]

theorem raises_exec {c : Client} {call : Call} {r : Reaction} (h : c.exec call = some r) :
    Raises Nested r.calls := by
  cases call with
  | dispatch region e =>
    cases h
    cases region with
    | main =>
      obtain ⟨r, hturn, hr⟩ := c.dispatch_main e
      have hmain := raises_main hturn
      rw [hr]
      exact hmain
    | rx =>
      have hturn := dispatch_rx c e
      generalize c.dispatch e .rx = r at hturn
      cases hturn <;> exact .nothing (by simp [Plain])
    | ping =>
      rw [dispatch_ping_calls]
      exact .nothing plain_nil
    | keepAlive =>
      rw [dispatch_keepAlive_calls]
      exact .nothing plain_nil
  | anonymous =>
    cases h
    refine .nothing fun region e hmem => ?_
    by_cases hmain : c.main = .startHandshake
    · cases (Client.anonymous_same hmain).2.1 _ hmem
    · rw [Client.anonymous, if_neg hmain] at hmem
      cases hmem
  | maybeSendQueuedPublish =>
    cases h
    exact .nothing fun _ _ hmem => c.maybeSend_sends.calls _ hmem
  | notifyConnectorReceivers success =>
    cases h
    exact .nothing (by simp [Plain, Client.notifyConnectorReceivers])
  | connectorReceiver | publishWaiter | close =>
    cases h
    exact .nothing (by simp [Plain, Client.close])
  | user | receiveOneMessage => cases h

/-- Whatever is run raises no event that comes from the event loop. -/
theorem respond_raises {c : Client} {call : Call} {a : Action} {r : Reaction}
    (h : c.respond call a = some r) : Raises Nested r.calls := by
  cases a with
  | run => exact raises_exec h
  | operate op =>
    cases call <;> cases h
    have hop := raises_operate c op
    rw [Client.operateFrom]
    dsimp only
    split
    · exact .nothing (by simp [Plain])
    · exact hop.append (by simp [Plain])
  | buffered packet =>
    cases call <;> cases h
    exact .event (.packetReceived packet) [] trivial plain_nil
  | «return» | suspend =>
    cases call <;> cases h
    exact .nothing plain_nil
  | _ => cases call <;> cases h

/-! ## Events that are noted -/

/-- The main region notes an event, and the state it gets it in. -/
def eventOf : Effect → Option (Event × MainState)
  | .event e main => some (e, main)
  | _ => none

/-- What the main region notes when a call is run. -/
def eventTo (c : Client) : Call → Option (Event × MainState)
  | .dispatch .main e => some (e, c.main)
  | _ => none

theorem eventTo_of_ne {c : Client} {call : Call} (h : ∀ e, call ≠ .dispatch .main e) :
    eventTo c call = none := by
  cases call with
  | dispatch region e =>
    cases region with
    | main => exact absurd rfl (h e)
    | _ => rfl
  | _ => rfl

theorem events_nil {effects : List Effect} (h : ∀ e ∈ effects, ∀ event main, e ≠ .event event main) :
    effects.filterMap eventOf = [] := by
  apply List.filterMap_eq_nil_iff.mpr
  intro e he
  cases e with
  | event event main => exact absurd rfl (h _ he event main)
  | _ => rfl

theorem events_main {c : Client} {e : Event} {r : Reaction} (h : c.MainTurn e r) :
    r.effects.filterMap eventOf = [] := by
  apply events_nil
  intro effect he event main
  cases h with
  | packet p =>
    obtain hside | hside := c.handlePacket_side p
    · exact fun hevent => (hevent ▸ hside.effects effect he : Effect.Receiving (.event event main))
    · exact fun hevent => (hevent ▸ hside.effects effect he : Effect.Sending (.event event main))
  | pubackSent =>
    obtain ⟨_, hsent⟩ := c.handlePubackSent_eq
    rw [hsent] at he
    cases he
  | connack p =>
    obtain ⟨_, _, hack⟩ := { c with main := .connected }.handleConnack_eq p
    rw [hack] at he
    cases he
  | handshake | ignored => cases he
  | disconnect =>
    rw [List.mem_singleton.mp he]
    simp

/-- The main region is the only one to note an event. -/
theorem respond_events {c : Client} {call : Call} {a : Action} {r : Reaction}
    (h : c.respond call a = some r) : r.effects.filterMap eventOf = (eventTo c call).toList := by
  cases Client.respond_turn h with
  | main e r hturn =>
    rw [List.filterMap_append, events_main hturn]
    rfl
  | anonymous hmain =>
    apply events_nil
    intro e he
    rw [(Client.anonymous_same hmain).2.2 e he]
    simp
  | maybeSend =>
    apply events_nil
    intro e he event main hevent
    have hsends := c.maybeSend_sends.effects e he
    rw [hevent] at hsends
    exact hsends
  | operate op => exact events_nil fun e he => requested_ne_event (operate_effects c op e he)
  | close => rfl
  | quiet _ _ _ hquiet hcall =>
    rw [eventTo_of_ne hcall.2.2, events_nil fun e he => quiet_ne_event (hquiet.effects e he)]
    rfl

theorem respond_event {c : Client} {call : Call} {a : Action} {r : Reaction}
    (h : c.respond call a = some r) {e : Event} {main : MainState} :
    .event e main ∈ r.effects ↔ call = .dispatch .main e ∧ main = c.main := by
  have hmem : .event e main ∈ r.effects ↔ (e, main) ∈ r.effects.filterMap eventOf := by
    rw [List.mem_filterMap]
    constructor
    · exact fun h => ⟨_, h, rfl⟩
    · rintro ⟨effect, h, hof⟩
      cases effect with
      | event event main =>
        cases hof
        exact h
      | _ => cases hof
  rw [hmem, respond_events h, Option.mem_toList]
  cases call with
  | dispatch region event =>
    cases region with
    | main =>
      simp only [eventTo, Option.some.injEq, Prod.mk.injEq, Call.dispatch.injEq, true_and]
      exact and_congr_right fun _ => eq_comm
    | _ => simp [eventTo]
  | _ => simp [eventTo]

theorem arrive_events {c : Client} {a : Action} {r : Reaction} (h : c.arrive a = some r) :
    r.effects.filterMap eventOf = [] :=
  events_nil fun e he => quiet_ne_event ((Client.arrive_quiet h).effects e he)

/-! ## What the event loop delivers -/

theorem arrive_rx {c : Client} {a : Action} {r : Reaction} (h : c.arrive a = some r) :
    r.state.rx = c.rx := by
  cases a with
  | enter =>
    cases h
    rfl
  | readValue | readDone =>
    simp only [Client.arrive, Option.ite_none_left_eq_some] at h
    obtain ⟨-, h⟩ := h
    cases h
    rfl
  | writeValue i | writeDone i =>
    obtain ⟨write, -, rfl⟩ := Option.map_eq_some_iff.mp h
    cases write.receiver <;> rfl
  | connectAndPingTimer | keepAliveTimer =>
    obtain ⟨wait, -, rfl⟩ := Option.map_eq_some_iff.mp h
    rfl
  | _ => cases h

/-- The event loop raises one event, or none. -/
theorem arrive_calls {c : Client} {a : Action} {r : Reaction} (h : c.arrive a = some r) :
    Plain r.calls ∨ ∃ e, r.calls = broughtToAll e := by
  cases a with
  | enter =>
    cases h
    exact .inl (by simp [Plain])
  | readValue | readDone =>
    simp only [Client.arrive, Option.ite_none_left_eq_some] at h
    obtain ⟨-, h⟩ := h
    cases h
    exact .inr ⟨_, rfl⟩
  | writeValue i =>
    obtain ⟨write, -, rfl⟩ := Option.map_eq_some_iff.mp h
    cases write.receiver with
    | message | puback => exact .inr ⟨_, rfl⟩
    | disconnect => exact .inl plain_nil
    | disconnector => exact .inl (by simp [Plain, Client.writeCompleted, Client.close, Reaction.andThen])
  | writeDone i =>
    obtain ⟨write, -, rfl⟩ := Option.map_eq_some_iff.mp h
    cases write.receiver with
    | message => exact .inr ⟨_, rfl⟩
    | puback | disconnect => exact .inl plain_nil
    | disconnector => exact .inl (by simp [Plain, Client.writeStopped])
  | connectAndPingTimer | keepAliveTimer =>
    obtain ⟨wait, -, rfl⟩ := Option.map_eq_some_iff.mp h
    exact .inr ⟨_, rfl⟩
  | _ => cases h

/-- The PUBACKs that are being written, and those whose write has completed but was not
noticed by the main region. -/
def pubacks (c : Client) (stack : List Call) : ℕ :=
  (writers c).count .puback + stack.count (.dispatch .main .pubackSent)

theorem count_eraseIdx {writes : List PendingWrite} {i : ℕ} {write : PendingWrite}
    (h : writes[i]? = some write) (receiver : WriteReceiver) :
    (writes.map (·.receiver)).count receiver =
      ((writes.eraseIdx i).map (·.receiver)).count receiver +
        if write.receiver = receiver then 1 else 0 := by
  obtain ⟨hi, rfl⟩ := List.getElem?_eq_some_iff.mp h
  have hperm := (List.getElem_cons_eraseIdx_perm hi).map (·.receiver)
  rw [← hperm.count_eq, List.map_cons, List.count_cons]
  simp only [beq_iff_eq]

theorem pubacks_eraseIdx (c : Client) (i : ℕ) :
    pubacks { c with pendingWrites := c.pendingWrites.eraseIdx i } [] ≤ pubacks c [] := by
  have hsublist := (List.eraseIdx_sublist c.pendingWrites i).map (·.receiver)
  exact hsublist.count_le _

theorem pubacks_broughtToAll (c : Client) {e : Event} (he : e ≠ .pubackSent) :
    pubacks c (broughtToAll e) = pubacks c [] := by
  have hzero : (broughtToAll e).count (.dispatch .main .pubackSent) = 0 := by
    rw [List.count_eq_zero]
    simp [broughtToAll, he.symm]
  rw [pubacks, hzero]
  rfl

/-- A PUBACK whose write completes or stops is none that is being written. -/
theorem arrive_pubacks {c : Client} {a : Action} {r : Reaction} (h : c.arrive a = some r) :
    pubacks r.state r.calls ≤ pubacks c [] := by
  have htimer : ∀ wait : PendingWait, wait.event ≠ .pubackSent := by
    intro wait he
    have htimed := wait.timed
    rw [he] at htimed
    simp at htimed
  cases a with
  | enter =>
    cases h
    exact le_of_eq rfl
  | readValue | readDone =>
    simp only [Client.arrive, Option.ite_none_left_eq_some] at h
    obtain ⟨-, h⟩ := h
    cases h
    exact le_of_eq (pubacks_broughtToAll _ (by simp))
  | writeValue i =>
    obtain ⟨write, hwrite, rfl⟩ := Option.map_eq_some_iff.mp h
    have herased := pubacks_eraseIdx c i
    cases hreceiver : write.receiver with
    | message => exact (pubacks_broughtToAll _ (by simp)).le.trans herased
    | puback =>
      have hcount := count_eraseIdx hwrite .puback
      rw [hreceiver, if_pos rfl] at hcount
      exact le_of_eq hcount.symm
    | disconnect | disconnector => exact herased
  | writeDone i =>
    obtain ⟨write, -, rfl⟩ := Option.map_eq_some_iff.mp h
    have herased := pubacks_eraseIdx c i
    cases write.receiver with
    | message => exact (pubacks_broughtToAll _ (by simp)).le.trans herased
    | puback | disconnect | disconnector => exact herased
  | connectAndPingTimer | keepAliveTimer =>
    obtain ⟨wait, -, rfl⟩ := Option.map_eq_some_iff.mp h
    exact le_of_eq (pubacks_broughtToAll _ (htimer wait))
  | _ => cases h

end Mqtt5.ClientStream
