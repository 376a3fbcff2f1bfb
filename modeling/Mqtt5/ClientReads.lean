import Mqtt5.ClientCycles
import Mqtt5.ClientExceptions

/-!
# One reader

The receive region starts a reader for every packet, and nothing but the handling of the
packet before says that the last one has ended. Here the readers are followed from the
stream to the region that starts the next one.
-/
namespace Mqtt5.ClientReads
open WirePrimitives WirePublish WireConnect WireControlPacket CallMachine ClientState ClientSession
open ClientActs ClientStream ClientCycles ClientExceptions
open WireSubscribe hiding TopicFilter
open TopicMatching

/-- A reader that has not waited yet, or a packet that the receive region has still to see. -/
def isReader : Call → Bool
  | .receiveOneMessage | .dispatch .rx (.packetReceived _) => true
  | _ => false

/-- The readers that have not ended, and those whose packet is on its way. -/
def readers (c : Config) : ℕ := c.state.pendingReads + c.stack.countP isReader

/-- A reaction that neither ends a read nor starts one. -/
structure Untouched (c : Client) (r : Reaction) : Prop where
  pendingReads : r.state.pendingReads = c.pendingReads
  rx : r.state.rx = c.rx
  calls : ∀ call ∈ r.calls, isReader call = false

/-! ## Turns -/

theorem apart_pendingReads : Apart Client.pendingReads := fun _ _ _ _ _ _ _ _ _ _ _ => rfl

theorem apart_rx : Apart Client.rx := fun _ _ _ _ _ _ _ _ _ _ _ => rfl

theorem not_reader_after {call : Call} (h : call.After) : isReader call = false := by
  simp only [Call.After, List.mem_cons, List.not_mem_nil, or_false] at h
  obtain rfl | rfl | rfl := h <;> rfl

theorem not_reader_waiter {call : Call} (h : call.Waiter) : isReader call = false := by
  cases call <;> first | exact h.elim | rfl

theorem untouched_handlePacket (c : Client) (p : ControlPacket) : Untouched c (c.handlePacket p) := by
  refine ⟨apart_pendingReads.performs (performs_handlePacket c p),
    apart_rx.performs (performs_handlePacket c p), ?_⟩
  intro call hcall
  obtain h | h := c.handlePacket_side p
  · exact not_reader_waiter (h.calls call hcall)
  · exact not_reader_after (h.calls call hcall)

theorem not_reader_event {e : Event} (he : ∀ p, e ≠ .packetReceived p) :
    ∀ call ∈ broughtToAll e, isReader call = false := by
  intro call hcall
  simp only [broughtToAll, List.mem_cons, List.not_mem_nil, or_false] at hcall
  obtain rfl | rfl | rfl | rfl | rfl := hcall
  case inr.inl =>
    cases e with
    | packetReceived p => exact absurd rfl (he p)
    | _ => rfl
  all_goals rfl

theorem untouched_main {c : Client} {e : Event} {r : Reaction} (h : c.MainTurn e r) :
    Untouched c r := by
  cases h with
  | packet p => exact untouched_handlePacket c p
  | pubackSent =>
    obtain ⟨_, hsent⟩ := c.handlePubackSent_eq
    rw [hsent]
    exact ⟨rfl, rfl, by simp⟩
  | connack p =>
    obtain ⟨_, _, hack⟩ := { c with main := .connected }.handleConnack_eq p
    rw [hack]
    exact ⟨rfl, rfl, by simp [isReader]⟩
  | handshake | ignored => exact ⟨rfl, rfl, by simp⟩
  | disconnect => exact ⟨rfl, rfl, by simp [Client.close]⟩

theorem untouched_acts {c : Client} {r : Reaction} (h : Exchanges c r)
    (hcalls : ∀ call ∈ r.calls, isReader call = false) : Untouched c r :=
  ⟨apart_pendingReads.acts h, apart_rx.acts h, hcalls⟩

theorem untouched_operate (c : Client) (op : Operation) : Untouched c (c.operate op) := by
  cases op with
  | publish message =>
    apply untouched_acts (exchanges_startPublish c message)
    intro call hcall
    rw [(c.startPublish_sends message).calls call hcall]
    rfl
  | subscribe subscriptions modifier =>
    apply untouched_acts (exchanges_startSubscribe c subscriptions modifier)
    intro call hcall
    rw [(c.startSubscribe_sends subscriptions modifier).calls call hcall]
    rfl
  | unsubscribe unsub =>
    apply untouched_acts (exchanges_startUnsubscribe c unsub)
    intro call hcall
    rw [(c.startUnsubscribe_sends unsub).calls call hcall]
    rfl
  | disconnect reason =>
    apply untouched_acts (exchanges_writer c _ .disconnector)
    rw [writer_calls]
    simp
  | startConnect =>
    change Untouched c c.startConnect
    rw [Client.startConnect]
    split
    · exact ⟨rfl, rfl, by simp [Client.notifyConnectorReceivers, isReader]⟩
    · exact ⟨rfl, rfl, not_reader_event (by simp)⟩
  | handshaker | connect | filterSubscribe | close =>
    exact ⟨rfl, rfl, by simp [Client.operate, Client.startFilterSubscribe, Client.close]⟩

theorem untimed_pendingReads : Untimed Client.pendingReads := fun _ _ _ _ _ _ => rfl

theorem untimed_rx : Untimed Client.rx := fun _ _ _ _ _ _ => rfl

theorem untouched_ping (c : Client) (e : Event) : Untouched c (c.dispatch e .ping) :=
  ⟨untimed_pendingReads.dispatch_ping c e, untimed_rx.dispatch_ping c e,
    by simp [dispatch_ping_calls]⟩

theorem untouched_keepAlive (c : Client) (e : Event) : Untouched c (c.dispatch e .keepAlive) :=
  ⟨untimed_pendingReads.dispatch_keepAlive c e, untimed_rx.dispatch_keepAlive c e,
    by simp [dispatch_keepAlive_calls]⟩

theorem untouched_anonymous (c : Client) : Untouched c c.anonymous := by
  have hresponds : c.respond .anonymous .run = some c.anonymous := rfl
  have hrx := (respond_submits hresponds (by simp)).rx
  refine ⟨?_, hrx, ?_⟩
  · rw [Client.anonymous]
    split
    · refine Reaction.andThen_state (S := fun d : Client => d.pendingReads = c.pendingReads) ?_
        fun d hd => hd
      rw [Client.startConnectTimer, Reaction.andThen_of_not_threw rfl]
      apply Eq.trans (apart_pendingReads.acts (exchanges_writer _ _ .message))
      rfl
    · rfl
  · intro call hcall
    by_cases hmain : c.main = .startHandshake
    · rw [(Client.anonymous_same hmain).2.1 call hcall]
      rfl
    · rw [Client.anonymous, if_neg hmain] at hcall
      cases hcall

/-- What each call has to do with reading. -/
inductive ReadTurn (c : Client) : Call → Action → Reaction → Prop
  | rx (e : Event) : ReadTurn c (.dispatch .rx e) .run (c.dispatch e .rx)
  | buffered (p : ControlPacket) :
      ReadTurn c .receiveOneMessage (.buffered p) (c.processEvent (.packetReceived p))
  | suspend : ReadTurn c .receiveOneMessage .suspend
      { state := { c with pendingReads := c.pendingReads + 1 } }
  | other (call : Call) (a : Action) (r : Reaction) (h : Untouched c r)
      (hcall : isReader call = false) (hrx : ∀ e, call ≠ .dispatch .rx e) : ReadTurn c call a r

theorem respond_read {c : Client} {call : Call} {a : Action} {r : Reaction}
    (h : c.respond call a = some r) : ReadTurn c call a r := by
  cases a with
  | run =>
    cases call with
    | dispatch region e =>
      cases h
      cases region with
      | main =>
        obtain ⟨r, hturn, hr⟩ := c.dispatch_main e
        have hmain := untouched_main hturn
        rw [hr]
        exact .other _ _ _ ⟨hmain.pendingReads, hmain.rx, hmain.calls⟩ rfl (by simp)
      | rx => exact .rx e
      | ping => exact .other _ _ _ (untouched_ping c e) rfl (by simp)
      | keepAlive => exact .other _ _ _ (untouched_keepAlive c e) rfl (by simp)
    | anonymous =>
      cases h
      exact .other _ _ _ (untouched_anonymous c) rfl (by simp)
    | maybeSendQueuedPublish =>
      cases h
      have hmaybe := untouched_acts (exchanges_maybeSend c) fun call hcall =>
        (c.maybeSend_sends.calls call hcall).elim
      exact .other _ _ _ hmaybe rfl (by simp)
    | notifyConnectorReceivers success =>
      cases h
      exact .other _ _ _ ⟨rfl, rfl, by simp [Client.notifyConnectorReceivers, isReader]⟩ rfl (by simp)
    | connectorReceiver | publishWaiter =>
      cases h
      exact .other _ _ _ ⟨rfl, rfl, by simp [isReader]⟩ rfl (by simp)
    | close =>
      cases h
      exact .other _ _ _ ⟨rfl, rfl, by simp [Client.close]⟩ rfl (by simp)
    | user | receiveOneMessage => cases h
  | operate op =>
    cases call <;> cases h
    have hop := untouched_operate c op
    refine .other _ _ _ ⟨hop.pendingReads, hop.rx, ?_⟩ rfl (by simp)
    intro call hcall
    obtain hcall | hcall := List.mem_append.mp hcall
    · split at hcall
      · cases hcall
      · exact hop.calls call hcall
    · rw [List.mem_singleton.mp hcall]
      rfl
  | «return» =>
    cases call <;> cases h
    exact .other _ _ _ ⟨rfl, rfl, by simp⟩ rfl (by simp)
  | buffered packet =>
    cases call <;> cases h
    exact .buffered packet
  | suspend =>
    cases call <;> cases h
    exact .suspend
  | _ => cases call <;> cases h

theorem timed_not_packet (wait : PendingWait) (p : ControlPacket) :
    wait.event ≠ .packetReceived p := by
  intro he
  have htimed := wait.timed
  rw [he] at htimed
  simp at htimed

/-- What the event loop has to do with reading. -/
inductive ReadArrival (c : Client) : Action → Reaction → Prop
  | value (p : ControlPacket) (h : c.pendingReads ≠ 0) : ReadArrival c (.readValue p)
      ({ c with pendingReads := c.pendingReads - 1 }.processEvent (.packetReceived p))
  | done (h : c.pendingReads ≠ 0) : ReadArrival c .readDone
      ({ c with pendingReads := c.pendingReads - 1 }.processEvent .disconnect)
  | other (a : Action) (r : Reaction) (h : Untouched c r) (hvalue : ∀ p, a ≠ .readValue p)
      (hdone : a ≠ .readDone) : ReadArrival c a r

theorem arrive_read {c : Client} {a : Action} {r : Reaction} (h : c.arrive a = some r) :
    ReadArrival c a r := by
  have hrx := arrive_rx h
  cases a with
  | enter =>
    cases h
    exact .other _ _ ⟨rfl, rfl, by simp [isReader]⟩ (by simp) (by simp)
  | readValue packet =>
    simp only [Client.arrive, Option.ite_none_left_eq_some] at h
    obtain ⟨hpending, h⟩ := h
    cases h
    exact .value packet hpending
  | readDone =>
    simp only [Client.arrive, Option.ite_none_left_eq_some] at h
    obtain ⟨hpending, h⟩ := h
    cases h
    exact .done hpending
  | writeValue i =>
    obtain ⟨write, -, rfl⟩ := Option.map_eq_some_iff.mp h
    refine .other _ _ ⟨?_, hrx, ?_⟩ (by simp) (by simp)
    · cases write.receiver <;> rfl
    · cases write.receiver with
      | message | puback => exact not_reader_event (by simp)
      | disconnect => simp [Client.writeCompleted, Client.close]
      | disconnector => simp [Client.writeCompleted, Client.close, Reaction.andThen, isReader]
  | writeDone i =>
    obtain ⟨write, -, rfl⟩ := Option.map_eq_some_iff.mp h
    refine .other _ _ ⟨?_, hrx, ?_⟩ (by simp) (by simp)
    · cases write.receiver <;> rfl
    · cases write.receiver with
      | message => exact not_reader_event (by simp)
      | puback | disconnect => simp [Client.writeStopped]
      | disconnector => simp [Client.writeStopped, isReader]
  | connectAndPingTimer | keepAliveTimer =>
    obtain ⟨wait, -, rfl⟩ := Option.map_eq_some_iff.mp h
    have hcalls := not_reader_event (timed_not_packet wait)
    exact .other _ _ ⟨rfl, rfl, hcalls⟩ (by simp) (by simp)
  | _ => cases h

/-! ## Every run -/

/-- A handshake is about to start a reader, and there is one that has not ended. -/
def Restarts (c : Config) : Prop :=
  c.state.rx = .idle ∧ c.stack.head? = some (.dispatch .rx .handshake) ∧ readers c ≠ 0

instance (c : Config) : Decidable (Restarts c) := inferInstanceAs (Decidable (_ ∧ _ ∧ _))

/-- While the receive region is receiving there is a reader, unless it is about to leave. -/
def Reads (c : Config) : Prop :=
  c.state.rx = .receiving → readers c = 1 ∨ .dispatch .rx .disconnect ∈ c.stack

theorem readers_react_le (c : Config) (rest : List Call) (r : Reaction) :
    readers (client.react c rest r) ≤
      r.state.pendingReads + (r.calls.countP isReader + rest.countP isReader) :=
  Nat.add_le_add_left (Program.countP_react isReader c rest r) _

theorem readers_react {c : Config} {rest : List Call} {r : Reaction} (h : r.threw = false) :
    readers (client.react c rest r) =
      r.state.pendingReads + (r.calls.countP isReader + rest.countP isReader) := by
  rw [Program.react_of_not_threw h, readers, List.countP_append]

theorem countP_not_reader {calls : List Call} (h : ∀ call ∈ calls, isReader call = false) :
    calls.countP isReader = 0 :=
  List.countP_eq_zero.mpr fun call hcall => by simp [h call hcall]

theorem readers_cons {c : Config} {call : Call} {rest : List Call} (h : c.stack = call :: rest) :
    readers c = c.state.pendingReads + (rest.countP isReader + if isReader call then 1 else 0) := by
  rw [readers, h, List.countP_cons]

/-- The turn of the receive region for the packet of a reader. -/
theorem dispatch_rx_packet {c : Client} (h : c.rx = .receiving) (p : ControlPacket) :
    c.dispatch (.packetReceived p) .rx = { state := c, calls := [.receiveOneMessage] } := by
  have hself : { c with rx := .receiving } = c := by rw [← h]
  simp only [Client.dispatch, h, rxTable, hself]
  rfl

theorem single_arrive {c : Config} (hc : readers c ≤ 1) {a : Action} {r : Reaction}
    (hstack : c.stack = []) (hr : c.state.arrive a = some r) :
    readers (client.react c [] r) ≤ 1 := by
  have hbefore : readers c = c.state.pendingReads := by rw [readers, hstack]; rfl
  have hle := readers_react_le c [] r
  cases arrive_read hr with
  | value p hpending =>
    change _ ≤ (c.state.pendingReads - 1) + (1 + 0) at hle
    omega
  | done hpending =>
    change _ ≤ (c.state.pendingReads - 1) + (0 + 0) at hle
    omega
  | other _ r h =>
    rw [h.pendingReads, countP_not_reader h.calls] at hle
    change _ ≤ c.state.pendingReads + (0 + 0) at hle
    omega

theorem single_respond {c : Config} (hc : readers c ≤ 1) (hrestart : ¬ Restarts c) {call : Call}
    {rest : List Call} (hstack : c.stack = call :: rest) {a : Action} {r : Reaction}
    (hr : c.state.respond call a = some r) : readers (client.react c rest r) ≤ 1 := by
  have hbefore := readers_cons hstack
  have hle := readers_react_le c rest r
  cases respond_read hr with
  | rx e =>
    have hturn := dispatch_rx c.state e
    generalize c.state.dispatch e .rx = r at hturn hle
    cases hturn with
    | handshake hidle =>
      have hnone : readers c = 0 := by
        by_contra hne
        exact hrestart ⟨hidle, by rw [hstack, List.head?_cons], hne⟩
      change _ = c.state.pendingReads + (rest.countP isReader + 0) at hbefore
      change _ ≤ c.state.pendingReads + (1 + rest.countP isReader) at hle
      omega
    | packet p =>
      change _ = c.state.pendingReads + (rest.countP isReader + 1) at hbefore
      change _ ≤ c.state.pendingReads + (1 + rest.countP isReader) at hle
      omega
    | disconnect | ignored =>
      change _ ≤ c.state.pendingReads + (0 + rest.countP isReader) at hle
      omega
  | buffered p =>
    change _ = c.state.pendingReads + (rest.countP isReader + 1) at hbefore
    change _ ≤ c.state.pendingReads + (1 + rest.countP isReader) at hle
    omega
  | suspend =>
    change _ = c.state.pendingReads + (rest.countP isReader + 1) at hbefore
    change _ ≤ (c.state.pendingReads + 1) + (0 + rest.countP isReader) at hle
    omega
  | other call a r h =>
    rw [h.pendingReads, countP_not_reader h.calls] at hle
    omega

theorem reads_arrive {c : Config} (hc : Reads c) {a : Action} {r : Reaction}
    (hstack : c.stack = []) (hr : c.state.arrive a = some r) : Reads (client.react c [] r) := by
  intro hrx
  have hthrew : r.threw = false := (Client.arrive_quiet hr).threw
  have hbefore : c.state.pendingReads = 1 := by
    have hreceiving : c.state.rx = .receiving := (arrive_rx hr).symm.trans hrx
    obtain hone | hleaving := hc hreceiving
    · rw [readers, hstack] at hone
      exact hone
    · rw [hstack] at hleaving
      cases hleaving
  rw [readers_react hthrew, Program.react_of_not_threw hthrew]
  cases arrive_read hr with
  | value p hpending =>
    left
    change (c.state.pendingReads - 1) + (1 + 0) = 1
    omega
  | done hpending =>
    right
    change _ ∈ broughtToAll .disconnect ++ []
    simp [broughtToAll]
  | other _ r h =>
    left
    rw [h.pendingReads, countP_not_reader h.calls, hbefore]
    rfl

theorem reads_respond {c : Config} (hc : Reads c) {call : Call} {rest : List Call}
    (hstack : c.stack = call :: rest) {a : Action} {r : Reaction}
    (hr : c.state.respond call a = some r) (hthrew : r.threw = false)
    (hsingle : readers (client.react c rest r) ≤ 1) : Reads (client.react c rest r) := by
  intro hrx
  have hbefore := readers_cons hstack
  -- A disconnect that is not taken off the stack is still on its way.
  have hkept : c.state.rx = .receiving → call ≠ .dispatch .rx .disconnect →
      readers c = 1 ∨ .dispatch .rx .disconnect ∈ r.calls ++ rest := by
    intro hreceiving hcall
    obtain hone | hleaving := hc hreceiving
    · exact .inl hone
    · rw [hstack, List.mem_cons] at hleaving
      exact .inr (List.mem_append_right _ (hleaving.resolve_left hcall.symm))
  rw [readers_react hthrew] at hsingle ⊢
  rw [Program.react_of_not_threw hthrew] at hrx ⊢
  cases respond_read hr with
  | rx e =>
    by_cases hpacket : ∃ p, e = .packetReceived p ∧ c.state.rx = .receiving
    · obtain ⟨p, rfl, hreceiving⟩ := hpacket
      obtain hone | hleaving := hkept hreceiving (by simp)
      · left
        rw [dispatch_rx_packet hreceiving] at hsingle ⊢
        change _ = c.state.pendingReads + (rest.countP isReader + 1) at hbefore
        change c.state.pendingReads + (1 + rest.countP isReader) = 1
        omega
      · exact .inr hleaving
    · have hturn := dispatch_rx c.state e
      generalize c.state.dispatch e .rx = r at hturn hrx hkept hsingle
      cases hturn with
      | handshake hidle =>
        left
        change c.state.pendingReads + (1 + rest.countP isReader) ≤ 1 at hsingle
        change c.state.pendingReads + (1 + rest.countP isReader) = 1
        omega
      | packet p hreceiving => exact absurd ⟨p, rfl, hreceiving⟩ hpacket
      | disconnect => cases hrx
      | ignored e hdisconnect _ =>
        obtain hone | hleaving := hkept hrx (by simpa using hdisconnect hrx)
        · have hcall : isReader (.dispatch .rx e) = false := by
            cases e with
            | packetReceived p => exact absurd ⟨p, rfl, hrx⟩ hpacket
            | _ => rfl
          left
          rw [hcall] at hbefore
          change _ = c.state.pendingReads + (rest.countP isReader + 0) at hbefore
          change c.state.pendingReads + (0 + rest.countP isReader) = 1
          omega
        · exact .inr hleaving
  | buffered p =>
    obtain hone | hleaving := hkept hrx (by simp)
    · left
      change _ = c.state.pendingReads + (rest.countP isReader + 1) at hbefore
      change c.state.pendingReads + (1 + rest.countP isReader) = 1
      omega
    · exact .inr hleaving
  | suspend =>
    obtain hone | hleaving := hkept hrx (by simp)
    · left
      change _ = c.state.pendingReads + (rest.countP isReader + 1) at hbefore
      change (c.state.pendingReads + 1) + (0 + rest.countP isReader) = 1
      omega
    · exact .inr hleaving
  | other call a r h hcall hnotRx =>
    obtain hone | hleaving := hkept (h.rx ▸ hrx) (hnotRx .disconnect)
    · left
      rw [hcall] at hbefore
      rw [h.pendingReads, countP_not_reader h.calls]
      change _ = c.state.pendingReads + (rest.countP isReader + 0) at hbefore
      omega
    · exact .inr hleaving

theorem single_run {ok : Config → Action → Prop} {c : Config} (run : client.Run ok initial c)
    (hrestart : ∀ c a, ok c a → ¬ Restarts c) : readers c ≤ 1 := by
  refine run.invariant (I := fun c => readers c ≤ 1) (by decide) ?_ ?_
  · intro c a r hc _ hstack hr
    exact single_arrive hc hstack hr
  · intro c a call rest r hc ha hstack hr
    exact single_respond hc (hrestart c a ha) hstack hr

theorem reads_run {ok : Config → Action → Prop} {c : Config} (run : client.Run ok initial c)
    (hrestart : ∀ c a, ok c a → ¬ Restarts c)
    (hok : ∀ c a, ok c a → ∀ op, a = .operate op → Encodable op) : Reads c := by
  have hall : Ready c.state ∧ readers c ≤ 1 ∧ Reads c := by
    refine run.invariant (I := fun c => Ready c.state ∧ readers c ≤ 1 ∧ Reads c) ?_ ?_ ?_
    · exact ⟨⟨by decide, by simp [initial]⟩, by decide, by simp [Reads, initial]⟩
    · intro c a r hkept _ hstack hr
      obtain ⟨hready, hsingle, hreads⟩ := hkept
      exact ⟨hready.same (Client.arrive_quiet hr).same, single_arrive hsingle hstack hr,
        reads_arrive hreads hstack hr⟩
    · intro c a call rest r hkept ha hstack hr
      obtain ⟨hready, hsingle, hreads⟩ := hkept
      have hsafe := safe_respond hready hr (hok c a ha)
      have hsingle := single_respond hsingle (hrestart c a ha) hstack hr
      exact ⟨hsafe.ready, hsingle, reads_respond hreads hstack hr hsafe.threw hsingle⟩
  exact hall.2.2

/-- No two readers ever read from the socket, as long as every handshake finds that the reader
of the connection before has ended; and if what the user asks for can be encoded, the receive
region is left without a reader only by a disconnect that is about to reach it. -/
theorem one_reader {ok : Config → Action → Prop} {c : Config} (run : client.Run ok initial c)
    (hrestart : ∀ c a, ok c a → ¬ Restarts c) : readers c ≤ 1 ∧
      ((∀ c a, ok c a → ∀ op, a = .operate op → Encodable op) → Reads c) :=
  ⟨single_run run hrestart, reads_run run hrestart⟩

/-- The reader of an open connection waits for the packet after the CONNACK. -/
theorem one_reader_connected : ∃ c : Config, c.state.isConnected = true ∧
    c.state.pendingReads = 1 ∧ readers c ≤ 1 ∧ Reads c := by
  have hsteps : (client.stepsWhile (fun c a => connectsOnly c a && !decide (Restarts c)) initial
      (handshakeActions { flags := 0, reasonCode := 0 } ++ [.run] ++ settleActions)).map
        (fun c => (c.state.isConnected, c.state.pendingReads)) = some (true, 1) := by
    decide +kernel
  obtain ⟨c, hc, hfacts⟩ := Option.map_eq_some_iff.mp hsteps
  obtain ⟨hconnected, hpending⟩ := Prod.mk.inj hfacts
  have hok : ∀ (c : Config) (a : Action), (connectsOnly c a && !decide (Restarts c)) = true →
      ¬ Restarts c ∧ ∀ op, a = .operate op → Encodable op := by
    intro c a h
    obtain ⟨honly, hrestart⟩ := Bool.and_eq_true_iff.mp h
    refine ⟨by simpa using hrestart, ?_⟩
    rintro op rfl
    exact encodable_of_connectsOnly honly
  obtain ⟨hsingle, hreads⟩ := one_reader (Program.Run.of_stepsWhile _ hc)
    fun c a h => (hok c a h).1
  exact ⟨c, hconnected, hpending, hsingle, hreads fun c a h => (hok c a h).2⟩

end Mqtt5.ClientReads
