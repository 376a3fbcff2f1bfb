import Mqtt5.ClientStream
import Mqtt5.FirstMatch

/-!
# Filtered subscriptions

A receiver that is registered with a filter waits for one publish, the first one delivered
after it whose topic the filter matches. A delivery takes the receivers out before it calls
the first of them, so what they register waits for a later one.
-/
namespace Mqtt5.ClientWaiters
open WirePrimitives WirePublish WireConnect WireControlPacket CallMachine ClientState ClientSession
open ClientActs ClientStream FirstMatch
open WireSubscribe hiding TopicFilter
open TopicMatching

abbrev History := List (Happening TopicFilter Receiver Publish)

def fits (filter : TopicFilter) (publish : Publish) : Bool := filter.«matches» publish.topic

def deliveryOf : Effect → Option (Happening TopicFilter Receiver Publish)
  | .delivered publish => some (.delivered publish)
  | _ => none

/-- The registrations and the deliveries, the last one first. -/
def note (c : Config) (a : Action) (d : Config) : History :=
  match c.stack, a with
  | .user :: _, .operate (.filterSubscribe filter receiver) => [.registered filter receiver]
  | _, _ => (d.log.take (d.log.length - c.log.length)).filterMap deliveryOf

/-- The receivers in `publish_waiters_`, each with its filter. -/
def waiters (c : Client) : List (TopicFilter × Receiver) :=
  c.publishWaiters.flatMap fun item => item.receivers.map (item.filter, ·)

/-- A receiver that a delivery has taken out and that is to be called. -/
def takenOut : Call → Option (Receiver × Publish)
  | .publishWaiter receiver publish => some (receiver, publish)
  | _ => none

def calledBack : Effect → Option (Receiver × Publish)
  | .waiter receiver publish => some (receiver, publish)
  | _ => none

/-- The receivers that wait are those for which no match has been delivered, and those that
were called, or are about to be, got their first match. -/
structure FirstMatchOnce (history : History) (c : Config) : Prop where
  filters : (c.state.publishWaiters.map (·.filter)).Nodup
  waiting : (waiters c.state).Perm (unserved fits (registrations history))
  called : (c.stack.filterMap takenOut ++ c.log.filterMap calledBack).Perm
    (served fits (registrations history))

/-! ## Registration and delivery -/

section Store
variable (c : Client) (filter : TopicFilter) (receiver : Receiver) (publish : Publish)

theorem flatMap_modifyFirst {items : List FilteredSubscription}
    (h : items.any (fun item => item.filter = filter) = true) :
    ((modifyFirst (fun item => item.filter = filter)
        (fun item => { item with receivers := item.receivers ++ [receiver] }) items).flatMap
      fun item => item.receivers.map (item.filter, ·)).Perm
      (items.flatMap (fun item => item.receivers.map (item.filter, ·)) ++ [(filter, receiver)]) := by
  induction items with
  | nil => cases h
  | cons item items ih =>
    rw [modifyFirst]
    split
    case isTrue hsame =>
      have hfilter : item.filter = filter := by simpa using hsame
      rw [List.flatMap_cons, List.flatMap_cons, List.map_append, hfilter, List.append_assoc,
        List.append_assoc]
      exact List.perm_append_comm.append_left _
    case isFalse hother =>
      have hrest : items.any (fun item => item.filter = filter) = true := by
        rw [List.any_cons] at h
        simpa [hother] using h
      rw [List.flatMap_cons, List.flatMap_cons, List.append_assoc]
      exact (ih hrest).append_left _

/-- A receiver is put with those of an equal filter, or comes with a filter of its own. -/
theorem waiters_register : (waiters (c.startFilterSubscribe filter receiver).state).Perm
    (waiters c ++ [(filter, receiver)]) := by
  unfold Client.startFilterSubscribe waiters
  dsimp only
  split
  case isTrue hany => exact flatMap_modifyFirst filter receiver hany
  case isFalse =>
    rw [List.flatMap_append]
    exact .refl _

theorem filters_register (h : (c.publishWaiters.map (·.filter)).Nodup) :
    ((c.startFilterSubscribe filter receiver).state.publishWaiters.map (·.filter)).Nodup := by
  unfold Client.startFilterSubscribe
  dsimp only
  split
  case isTrue hany =>
    rw [map_modifyFirst]
    · exact h
    · exact fun _ => rfl
  case isFalse hany =>
    rw [List.map_append]
    apply List.nodup_append.mpr
    refine ⟨h, List.nodup_singleton _, ?_⟩
    intro other hother new hnew heq
    obtain ⟨item, hitem, rfl⟩ := List.mem_map.mp hother
    rw [List.map_singleton, List.mem_singleton] at hnew
    apply hany
    exact List.any_eq_true.mpr ⟨item, hitem, by simp [heq, hnew]⟩

theorem waiters_deliver : waiters (c.deliverToPublishWaiters publish).state =
    (waiters c).filter fun waiting => !fits waiting.1 publish := by
  unfold Client.deliverToPublishWaiters waiters
  dsimp only
  induction c.publishWaiters with
  | nil => rfl
  | cons item items ih =>
    rw [List.flatMap_cons, List.filter_append, ← ih]
    cases hfits : item.filter.«matches» publish.topic with
    | true =>
      rw [List.filter_cons_of_neg (by simp [hfits])]
      simp [fits, hfits, List.filter_map, Function.comp_def]
    | false =>
      rw [List.filter_cons_of_pos (by simp [hfits]), List.flatMap_cons]
      simp [fits, hfits, List.filter_map, Function.comp_def]

/-- A delivery calls the receivers that it takes out. -/
theorem calls_deliver : (c.deliverToPublishWaiters publish).calls.filterMap takenOut =
    ((waiters c).filter fun waiting => fits waiting.1 publish).map (·.2, publish) := by
  unfold Client.deliverToPublishWaiters waiters
  dsimp only
  induction c.publishWaiters with
  | nil => rfl
  | cons item items ih =>
    rw [List.flatMap_cons, List.filter_append, List.map_append, ← ih]
    cases hfits : item.filter.«matches» publish.topic with
    | true =>
      rw [List.filter_cons_of_pos (by simp [hfits]), List.flatMap_cons, List.filterMap_append]
      simp [fits, hfits, takenOut, List.filter_map, Function.comp_def, List.filterMap_map]
    | false =>
      rw [List.filter_cons_of_neg (by simp [hfits])]
      simp [fits, hfits, List.filter_map, Function.comp_def]

theorem filters_deliver (h : (c.publishWaiters.map (·.filter)).Nodup) :
    ((c.deliverToPublishWaiters publish).state.publishWaiters.map (·.filter)).Nodup :=
  (List.filter_sublist.map _).nodup h

end Store

/-! ## Turns -/

/-- A reaction that neither registers nor delivers, and calls no receiver. -/
structure Apart (c : Client) (r : Reaction) : Prop where
  waiters : r.state.publishWaiters = c.publishWaiters
  calls : ∀ call ∈ r.calls, takenOut call = none
  delivered : r.effects.filterMap deliveryOf = []
  called : r.effects.filterMap calledBack = []

theorem takenOut_eq_none {call : Call} (h : ¬ call.Waiter) : takenOut call = none := by
  cases call with
  | publishWaiter => exact absurd trivial h
  | _ => rfl

theorem acts_apart {c d : Client} {effects : List Effect} (h : Acts Aside c d effects) :
    d.publishWaiters = c.publishWaiters ∧ effects.filterMap deliveryOf = [] ∧
      effects.filterMap calledBack = [] := by
  induction h with
  | nothing => exact ⟨rfl, rfl, rfl⟩
  | write _ packet receiver buffer hbuffer ih => exact ih
  | exchange _ ih => exact ih
  | @note d effects _ e he ih => cases e <;> first | exact he.elim | exact ih
  | other _ he ih => exact ⟨he.publishWaiters.trans ih.1, ih.2⟩

theorem rx_apart (c : Client) (e : Event) : Apart c (c.dispatch e .rx) := by
  have hturn := dispatch_rx c e
  generalize c.dispatch e .rx = r at hturn
  cases hturn with
  | handshake | packet | disconnect | ignored => exact ⟨rfl, by simp [takenOut], rfl, rfl⟩

/-- What the event loop delivers only starts something. -/
theorem arrive_apart {c : Client} {a : Action} {r : Reaction} (h : c.arrive a = some r) :
    Apart c r := by
  have hevent : ∀ {d : Client} (e : Event), d.publishWaiters = c.publishWaiters →
      Apart c (d.processEvent e) := fun e hd =>
    ⟨hd, by simp [Client.processEvent, takenOut], rfl, rfl⟩
  cases a with
  | enter =>
    cases h
    exact ⟨rfl, by simp [takenOut], rfl, rfl⟩
  | readValue | readDone =>
    simp only [Client.arrive, Option.ite_none_left_eq_some] at h
    obtain ⟨-, h⟩ := h
    cases h
    exact hevent _ rfl
  | writeValue i =>
    obtain ⟨write, -, rfl⟩ := Option.map_eq_some_iff.mp h
    cases write.receiver with
    | message | puback => exact hevent _ rfl
    | disconnect | disconnector =>
      exact ⟨rfl, by simp [Client.writeCompleted, Client.close, Reaction.andThen, takenOut], rfl, rfl⟩
  | writeDone i =>
    obtain ⟨write, -, rfl⟩ := Option.map_eq_some_iff.mp h
    cases write.receiver with
    | message => exact hevent _ rfl
    | puback | disconnect | disconnector =>
      exact ⟨rfl, by simp [Client.writeStopped, takenOut], rfl, rfl⟩
  | connectAndPingTimer | keepAliveTimer =>
    obtain ⟨wait, -, rfl⟩ := Option.map_eq_some_iff.mp h
    exact hevent _ rfl
  | _ => cases h

/-- What is called in the place of the user's code ends with the user's code. -/
theorem respond_user {c : Client} {a : Action} {r : Reaction} (h : c.respond .user a = some r) :
    r.threw = false ∧ ∀ last ∈ r.calls.getLast?, last = .user := by
  cases a with
  | operate op =>
    cases h
    refine ⟨rfl, ?_⟩
    intro last hlast
    rw [Client.operateFrom, List.getLast?_concat] at hlast
    exact (Option.some.inj hlast).symm
  | «return» =>
    cases h
    exact ⟨rfl, by simp⟩
  | _ => cases h

/-! ## Every run -/

/-- Between two steps no frame that an exception can drop stands above a receiver that is
to be called. -/
structure Waits (history : History) (c : Config) : Prop where
  once : FirstMatchOnce history c
  sheltered : client.Sheltered takenOut c.stack

theorem log_react (c : Config) (rest : List Call) (r : Reaction) :
    (client.react c rest r).log.take ((client.react c rest r).log.length - c.log.length) =
      r.effects := by
  change (r.effects ++ c.log).take ((r.effects ++ c.log).length - c.log.length) = _
  rw [List.length_append, Nat.add_sub_cancel, List.take_left']
  rfl

theorem note_of_react {c : Config} {a : Action} {call : Call} {rest : List Call} {r : Reaction}
    (hstack : c.stack = call :: rest)
    (ha : ∀ filter receiver, a ≠ .operate (.filterSubscribe filter receiver)) :
    note c a (client.react c rest r) = r.effects.filterMap deliveryOf := by
  unfold note
  rw [hstack]
  split
  case h_1 => exact absurd rfl (ha _ _)
  case h_2 => rw [log_react]

section Step
variable {history : History} {c : Config} {call : Call} {rest : List Call} {r : Reaction}

theorem Waits.same (h : Waits history c) (hapart : Apart c.state r)
    (hsheltered : client.Sheltered takenOut (client.react c rest r).stack)
    (hstack : (client.react c rest r).stack.filterMap takenOut = c.stack.filterMap takenOut) :
    Waits history (client.react c rest r) := by
  refine ⟨⟨?_, ?_, ?_⟩, hsheltered⟩
  · change (r.state.publishWaiters.map _).Nodup
    rw [hapart.waiters]
    exact h.once.filters
  · change (ClientWaiters.waiters r.state).Perm _
    rw [ClientWaiters.waiters, hapart.waiters]
    exact h.once.waiting
  · rw [hstack]
    change (_ ++ (r.effects ++ c.log).filterMap calledBack).Perm _
    rw [List.filterMap_append, hapart.called]
    exact h.once.called

/-- A reaction apart may throw, and what was to be called still is. -/
theorem Waits.apart (h : Waits history c) (hstack : c.stack = call :: rest)
    (hcall : ¬ call.Waiter) {a : Action} (hr : c.state.respond call a = some r)
    (hapart : Apart c.state r) : Waits history (client.react c rest r) := by
  have hsheltered := h.sheltered
  rw [hstack] at hsheltered
  have hkept := takenOut_eq_none hcall
  have hcalls : r.calls.filterMap takenOut = [] := List.filterMap_eq_nil_iff.mpr hapart.calls
  have hstack' : client.Sheltered takenOut (client.react c rest r).stack ∧
      (client.react c rest r).stack.filterMap takenOut = c.stack.filterMap takenOut := by
    rw [hstack, List.filterMap_cons_none hkept]
    cases hthrew : r.threw with
    | true =>
      have huser : client.catches call = false := by
        rw [Bool.eq_false_iff]
        intro hcatches
        have hcall : call = .user := by simpa [client] using hcatches
        rw [hcall] at hr
        rw [(respond_user hr).1] at hthrew
        cases hthrew
      rw [Program.react, if_pos hthrew]
      exact hsheltered.unwind hkept huser
    | false =>
      rw [Program.react_of_not_threw hthrew, List.filterMap_append, hcalls]
      refine ⟨hsheltered.append (Program.sheltered_of_none hapart.calls) ?_, rfl⟩
      intro hcatches last hlast
      rw [hkept] at hcatches
      have hcall : call = .user := by simpa [client] using hcatches
      rw [hcall] at hr
      rw [(respond_user hr).2 last hlast]
      exact .inr rfl
  exact h.same hapart hstack'.1 hstack'.2

/-- A registration. -/
theorem Waits.registered (h : Waits history c) (hstack : c.stack = .user :: rest)
    (filter : TopicFilter) (receiver : Receiver) : Waits (.registered filter receiver :: history)
      (client.react c rest (c.state.operateFrom (.filterSubscribe filter receiver))) := by
  have hsheltered := h.sheltered
  have hcalled := h.once.called
  rw [hstack] at hsheltered hcalled
  refine ⟨⟨?_, ?_, ?_⟩, hsheltered⟩
  · exact filters_register c.state filter receiver h.once.filters
  · rw [registrations, unserved_register]
    exact (waiters_register c.state filter receiver).trans (h.once.waiting.append_right _)
  · rw [registrations, served_register]
    exact hcalled

/-- A receiver is called. -/
theorem Waits.called {receiver : Receiver} {publish : Publish} (h : Waits history c)
    (hstack : c.stack = .publishWaiter receiver publish :: rest) : Waits history
      (client.react c rest
        { state := c.state, calls := [.user], effects := [.waiter receiver publish] }) := by
  have hsheltered := h.sheltered
  have hcalled := h.once.called
  rw [hstack] at hsheltered hcalled
  refine ⟨⟨h.once.filters, h.once.waiting, ?_⟩, ?_⟩
  · exact List.perm_middle.trans hcalled
  · apply hsheltered.append (List.isChain_singleton _)
    intro _ last hlast
    cases hlast
    exact .inr rfl

/-- A delivery at the end of a turn. -/
theorem Waits.delivered (h : Waits history c) (hstack : c.stack = call :: rest)
    (hcall : ¬ call.Waiter) {d : Client} {effects : List Effect}
    (hacts : Acts Aside c.state d effects) (publish : Publish) :
    Waits (.delivered publish :: history) (client.react c rest
      { d.deliverToPublishWaiters publish with effects := .delivered publish :: effects }) := by
  obtain ⟨hsame, -, hnone⟩ := acts_apart hacts
  have hwaiters : waiters d = waiters c.state := by rw [waiters, hsame, waiters]
  have hsheltered := h.sheltered
  have hcalled := h.once.called
  rw [hstack] at hsheltered hcalled
  rw [List.filterMap_cons_none (takenOut_eq_none hcall)] at hcalled
  have hkept : ∀ call ∈ (d.deliverToPublishWaiters publish).calls, (takenOut call).isSome := by
    intro call hcall
    simp only [Client.deliverToPublishWaiters, List.mem_flatMap, List.mem_map] at hcall
    obtain ⟨item, -, receiver, -, rfl⟩ := hcall
    rfl
  rw [Program.react_of_not_threw rfl]
  refine ⟨⟨?_, ?_, ?_⟩, ?_⟩
  · apply filters_deliver
    rw [hsame]
    exact h.once.filters
  · rw [registrations, unserved_deliver]
    change (waiters (d.deliverToPublishWaiters publish).state).Perm _
    rw [waiters_deliver, hwaiters]
    exact h.once.waiting.filter _
  · change (((d.deliverToPublishWaiters publish).calls ++ rest).filterMap takenOut ++
      (effects ++ c.log).filterMap calledBack).Perm _
    rw [List.filterMap_append, List.filterMap_append, hnone, List.nil_append, calls_deliver,
      hwaiters, List.append_assoc]
    rw [registrations]
    refine List.Perm.trans ?_ (served_deliver fits (registrations history) publish).symm
    refine List.perm_append_comm.trans (hcalled.append ?_)
    exact (h.once.waiting.filter _).map _
  · apply hsheltered.append (Program.sheltered_of_isSome hkept)
    intro _ last hlast
    exact .inl (hkept last (List.mem_of_mem_getLast? hlast))

end Step

theorem waits_run {history : History} {c : Config}
    (run : client.Observed note initial history c) : Waits history c := by
  apply run.invariant (I := Waits)
  · exact ⟨⟨.nil, .nil, .nil⟩, .nil⟩
  · intro history c a r _ hc hstack hr
    have hapart := arrive_apart hr
    have hnote : note c a (client.react c [] r) = [] := by
      have hnew := log_react c [] r
      unfold note
      rw [hstack, hnew]
      exact hapart.delivered
    rw [hnote]
    have hcalls : (client.react c [] r).stack = r.calls := by
      rw [Program.react_of_not_threw (Client.arrive_quiet hr).threw, List.append_nil]
    apply hc.same hapart
    · rw [hcalls]
      exact Program.sheltered_of_none hapart.calls
    · rw [hcalls, hstack]
      exact List.filterMap_eq_nil_iff.mpr hapart.calls
  · intro history c a call rest r _ hc hstack hr
    cases respond_acts hr with
    | filterSubscribe filter receiver =>
      have hnote : note c (.operate (.filterSubscribe filter receiver)) (client.react c rest
          (c.state.operateFrom (.filterSubscribe filter receiver))) =
            [.registered filter receiver] := by
        unfold note
        rw [hstack]
      rw [hnote]
      exact hc.registered hstack filter receiver
    | waiter receiver publish =>
      rw [note_of_react hstack (by simp)]
      exact hc.called hstack
    | rx e =>
      have hapart := rx_apart c.state e
      rw [note_of_react hstack (by simp), hapart.delivered]
      exact hc.apart (a := .run) hstack id hr hapart
    | performs _ _ _ hperforms hcall ha =>
      rw [note_of_react hstack ha]
      cases hperforms with
      | acts _ hacts hcalls =>
        obtain ⟨hwaiters, hdelivered, hcalled⟩ := acts_apart hacts
        have hapart : Apart c.state r :=
          ⟨hwaiters, fun call hmem => takenOut_eq_none (hcalls call hmem), hdelivered, hcalled⟩
        rw [hdelivered]
        exact hc.apart hstack hcall hr hapart
      | @delivers d effects hacts publish =>
        obtain ⟨-, hdelivered, -⟩ := acts_apart hacts
        have hdeliveries : (Effect.delivered publish :: effects).filterMap deliveryOf =
            [.delivered publish] := by
          rw [List.filterMap_cons_some (f := deliveryOf) rfl, hdelivered]
        change Waits ((Effect.delivered publish :: effects).filterMap deliveryOf ++ history) _
        rw [hdeliveries]
        exact hc.delivered hstack hcall hacts publish

/-- Each filter is kept once, and each registration gets the first match after it, once. -/
theorem first_match_once {history : History} {c : Config}
    (run : client.Observed note initial history c) : FirstMatchOnce history c :=
  (waits_run run).once

def filterA : TopicFilter := .fromString [97]

/-- A receiver registers again while it is being called, and another filter does not match. -/
def resubscribeActions : List Action :=
  handshakeActions { flags := 0, reasonCode := 0 } ++ .run :: settleActions ++
    request (.filterSubscribe filterA 1) ++ request (.filterSubscribe (.fromString [98]) 2) ++
      [.readValue (.publish publishQos1), .run, .run, .operate (.filterSubscribe filterA 1)]

theorem first_match_once_resubscribed : ∃ history c, client.Observed note initial history c ∧
    FirstMatchOnce history c ∧ c.log.filterMap calledBack = [(1, publishQos1)] ∧
      waiters c.state = [(.fromString [98], 2), (filterA, 1)] := by
  have hsteps : (client.observe note [] initial resubscribeActions).map
      (fun run => (run.2.log.filterMap calledBack, waiters run.2.state)) =
        some ([(1, publishQos1)], [(.fromString [98], 2), (filterA, 1)]) := by
    decide +kernel
  obtain ⟨⟨history, c⟩, hc, hfacts⟩ := Option.map_eq_some_iff.mp hsteps
  simp only [Prod.mk.injEq] at hfacts
  have run := Program.Observed.of_observe _ .refl hc
  exact ⟨history, c, run, first_match_once run, hfacts.1, hfacts.2⟩

end Mqtt5.ClientWaiters
