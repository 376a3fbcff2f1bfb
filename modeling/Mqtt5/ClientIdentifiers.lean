import Mathlib.Algebra.Order.Group.Multiset
import Mathlib.Tactic.Abel
import Mqtt5.ClientSession

/-!
# Packet identifiers in use

Publishes under way or queued, subscribes and unsubscribes hold identifiers of one
generator, which counts to 65535 and starts again without looking at what is held.
-/
namespace Mqtt5.ClientIdentifiers
open WirePrimitives WirePublish WireConnect WireControlPacket CallMachine ByteWriter ClientState
open WireSubscribe hiding TopicFilter
open ClientSession TopicMatching

/-- An operation that holds a packet identifier, by the number of the draw it came from. -/
structure Held where
  draw : ℕ
  identifier : UInt16
  deriving DecidableEq, Repr

def heldByPublished (msg : InFlightPublish) : Held := ⟨msg.receiver, msg.message.packetIdentifier⟩
def heldByQueued (op : PublishOpStarter) : Held := ⟨op.receiver, op.message.packetIdentifier⟩
def heldBySubscribe (msg : InFlightSubscribe) : Held := ⟨msg.receiver, msg.message.packetIdentifier⟩
def heldByUnsubscribe (msg : InFlightUnsubscribe) : Held :=
  ⟨msg.receiver, msg.message.packetIdentifier⟩

/-- What the four tables hold together. -/
def held (c : Client) : Multiset Held :=
  ↑(c.publishedMessages.map heldByPublished) + ↑(c.queuedPublishes.map heldByQueued) +
    ↑(c.subscribeMessages.map heldBySubscribe) + ↑(c.unsubscribeMessages.map heldByUnsubscribe)

theorem mem_held {c : Client} {h : Held} : h ∈ held c ↔
    h ∈ c.publishedMessages.map heldByPublished ∨ h ∈ c.queuedPublishes.map heldByQueued ∨
      h ∈ c.subscribeMessages.map heldBySubscribe ∨
        h ∈ c.unsubscribeMessages.map heldByUnsubscribe := by
  simp only [held, Multiset.mem_add, Multiset.mem_coe, or_assoc]

/-- The next draw of the generator. -/
def nextHeld (c : Client) : Held := ⟨c.nextPacketIdentifier.drawn, c.nextPacketIdentifier.next⟩

/-- Nothing is held afterwards that was not held before, except for at most one new draw. -/
def Draws (c d : Client) : Prop :=
  d.nextPacketIdentifier = c.nextPacketIdentifier ∧ held d ≤ held c ∨
    d.nextPacketIdentifier = c.nextPacketIdentifier.advance ∧ held d ≤ nextHeld c ::ₘ held c

theorem held_eq {c d : Client} (h : c.SameSendSide d) : held d = held c := by
  rw [held, h.publishedMessages, h.queuedPublishes, h.subscribeMessages, h.unsubscribeMessages,
    held]

theorem Draws.of_same {c d : Client} (h : c.SameSendSide d) : Draws c d :=
  .inl ⟨h.nextPacketIdentifier, (held_eq h).le⟩

theorem map_le_of_sublist {α : Type} {xs ys : List α} (f : α → Held) (h : xs.Sublist ys) :
    (↑(xs.map f) : Multiset Held) ≤ ↑(ys.map f) :=
  Multiset.coe_le.mpr (h.map f).subperm

/-- A publish that starts holds what its starter has captured, or nothing. -/
theorem held_startFn (c : Client) (op : PublishOpStarter) :
    (c.startFn op).state.nextPacketIdentifier = c.nextPacketIdentifier ∧
      held (c.startFn op).state ≤ heldByQueued op ::ₘ held c := by
  by_cases h : Encodes (.publish op.message)
  · obtain ⟨pendingWrites, hstart⟩ := c.startFn_of_encodes h
    rw [hstart]
    refine ⟨rfl, le_of_eq ?_⟩
    simp only [held, List.map_append, ← Multiset.coe_add, ← Multiset.singleton_add]
    change _ + {heldByQueued op} + _ + _ + _ = _
    abel
  · rw [c.startFn_of_not_encodes h]
    exact ⟨rfl, Multiset.le_cons_self _ _⟩

theorem draws_maybeSend (c : Client) : Draws c c.maybeSendQueuedPublish.state := by
  rcases c.maybeSend_cases with hfull | hempty | ⟨next, queued, hqueue, hnext⟩
  · rw [hfull]
    exact .inl ⟨rfl, le_rfl⟩
  · rw [hempty]
    exact .inl ⟨rfl, le_rfl⟩
  · obtain ⟨hgen, hheld⟩ := held_startFn { c with
      serverSendQuota := c.serverSendQuota + 1, queuedPublishes := queued } next
    rw [hnext]
    refine .inl ⟨hgen, hheld.trans (le_of_eq ?_)⟩
    rw [held, held, hqueue, List.map_cons, ← Multiset.cons_coe, ← Multiset.singleton_add,
      ← Multiset.singleton_add]
    abel

theorem draws_finishPublish (c : Client) (id : UInt16) (msg : InFlightPublish)
    (completion : Completion) (after : List Call) :
    Draws c (c.finishPublish id msg completion after).state := by
  refine .inl ⟨rfl, ?_⟩
  have hpublished := map_le_of_sublist heldByPublished
    (List.eraseP_sublist (p := (·.named id)) (l := c.publishedMessages))
  exact add_le_add_left (add_le_add_left (add_le_add_left hpublished _) _) _

theorem draws_sendTurn {c : Client} {p : ControlPacket} {r : Reaction} (h : c.SendTurn p r) :
    Draws c r.state := by
  cases h with
  | idle | pubrec => exact .inl ⟨rfl, le_rfl⟩
  | puback => exact draws_maybeSend c
  | finished => exact draws_finishPublish c _ _ _ _
  | advanced =>
    refine .inl ⟨rfl, le_of_eq ?_⟩
    simp only [held]
    rw [map_modifyFirst]
    exact fun _ => rfl
  | subscribed =>
    refine .inl ⟨rfl, add_le_add_left (add_le_add_right ?_ _) _⟩
    exact map_le_of_sublist heldBySubscribe List.eraseP_sublist
  | unsubscribed =>
    refine .inl ⟨rfl, add_le_add_right ?_ _⟩
    exact map_le_of_sublist heldByUnsubscribe List.eraseP_sublist

theorem draws_handlePacket (c : Client) (p : ControlPacket) :
    Draws c (c.handlePacket p).state := by
  obtain hreceives | hsends := c.handlePacket_turn p
  · exact .of_same hreceives.state
  · exact draws_sendTurn hsends

theorem draws_mainTurn {c : Client} {e : Event} {r : Reaction} (h : c.MainTurn e r) :
    Draws c r.state := by
  cases h with
  | packet p => exact draws_handlePacket c p
  | pubackSent => exact .of_same c.handlePubackSent_receives.state
  | connack p hmain =>
    obtain ⟨keepAliveUsed, clientId, hack⟩ := { c with main := .connected }.handleConnack_eq p
    rw [hack]
    exact .inl ⟨rfl, le_rfl⟩
  | handshake | disconnect | ignored => exact .inl ⟨rfl, le_rfl⟩

theorem draws_startPublish (c : Client) (message : Publish) :
    Draws c (c.startPublish message).state := by
  by_cases hqos : message.qualityOfService = qos0
  · rw [c.startPublish_of_qos0 hqos]
    by_cases hencodes : Encodes (.publish message)
    · obtain ⟨pendingWrites, hsend⟩ := c.sendMessage_of_encodes hencodes
      rw [hsend]
      exact .inl ⟨rfl, le_rfl⟩
    · rw [c.sendMessage_of_not_encodes hencodes]
      exact .inl ⟨rfl, le_rfl⟩
  · by_cases hfree : c.serverSendQuota > 0
    · rw [c.startPublish_of_free hqos hfree]
      exact .inr (held_startFn _ (c.nextStarter message))
    · rw [c.startPublish_of_taken hqos hfree]
      refine .inr ⟨rfl, le_of_eq ?_⟩
      simp only [held, List.map_append, ← Multiset.coe_add, ← Multiset.singleton_add]
      change _ + (_ + {nextHeld c}) + _ + _ = _
      abel

theorem draws_startSubscribe (c : Client) (subscriptions : List Client.SingleSubscription)
    (modifier : Subscribe → Subscribe) :
    Draws c (c.startSubscribe subscriptions modifier).state := by
  obtain ⟨message, pendingWrites, hid, hstart⟩ | hstart :=
    c.startSubscribe_cases subscriptions modifier
  · rw [hstart]
    refine .inr ⟨rfl, le_of_eq ?_⟩
    have hnext : heldBySubscribe ⟨message, c.nextPacketIdentifier.drawn⟩ = nextHeld c := by
      rw [heldBySubscribe, hid, nextHeld]
    simp only [held, List.map_append, List.map_singleton, hnext, ← Multiset.coe_add,
      Multiset.coe_singleton, ← Multiset.singleton_add]
    abel
  · rw [hstart]
    exact .inr ⟨rfl, Multiset.le_cons_self _ _⟩

theorem draws_startUnsubscribe (c : Client) (unsub : Unsubscribe) :
    Draws c (c.startUnsubscribe unsub).state := by
  obtain ⟨message, pendingWrites, hid, hstart⟩ | hstart := c.startUnsubscribe_cases unsub
  · rw [hstart]
    refine .inr ⟨rfl, le_of_eq ?_⟩
    have hnext : heldByUnsubscribe ⟨message, c.nextPacketIdentifier.drawn⟩ = nextHeld c := by
      rw [heldByUnsubscribe, hid, nextHeld]
    simp only [held, List.map_append, List.map_singleton, hnext, ← Multiset.coe_add,
      Multiset.coe_singleton, ← Multiset.singleton_add]
    abel
  · rw [hstart]
    exact .inr ⟨rfl, Multiset.le_cons_self _ _⟩

theorem draws_operate (c : Client) (op : Operation) : Draws c (c.operate op).state := by
  cases op with
  | publish message => exact draws_startPublish c message
  | subscribe subscriptions modifier => exact draws_startSubscribe c subscriptions modifier
  | unsubscribe unsub => exact draws_startUnsubscribe c unsub
  | _ => exact .of_same (c.operate_aside _ (by simp) (by simp) (by simp)).state

/-- Whatever is run draws at most one identifier and forgets or keeps the others. -/
theorem draws_respond {c : Client} {call : Call} {a : Action} {r : Reaction}
    (h : c.respond call a = some r) : Draws c r.state := by
  cases Client.respond_turn h with
  | main e r hmain =>
    have hdraws := draws_mainTurn hmain
    exact hdraws
  | anonymous hmain =>
    have hsame := (Client.anonymous_same hmain).1.send
    exact .inl ⟨hsame.nextPacketIdentifier, (held_eq hsame).le⟩
  | maybeSend => exact draws_maybeSend c
  | operate op => exact draws_operate c op
  | close => exact .inl ⟨rfl, le_rfl⟩
  | quiet _ _ _ hr => exact .of_same hr.same.send

/-- Identifiers follow from the draws, and no draw is held twice. -/
structure Accounted (c : Client) : Prop where
  identifier : ∀ h ∈ held c, h.identifier.toNat = 1 + h.draw % 65535
  draw_lt : ∀ h ∈ held c, h.draw < c.nextPacketIdentifier.drawn
  nodup : ((held c).map Held.draw).Nodup

theorem Draws.accounted {c d : Client} (h : Draws c d) (hc : Accounted c) : Accounted d := by
  rcases h with ⟨hgen, hle⟩ | ⟨hgen, hle⟩
  · refine ⟨fun x hx => hc.identifier x (Multiset.mem_of_le hle hx), ?_, ?_⟩
    · intro x hx
      rw [hgen]
      exact hc.draw_lt x (Multiset.mem_of_le hle hx)
    · exact Multiset.nodup_of_le (Multiset.map_le_map hle) hc.nodup
  · have hmem : ∀ x ∈ held d, x = nextHeld c ∨ x ∈ held c := fun x hx =>
      Multiset.mem_cons.mp (Multiset.mem_of_le hle hx)
    refine ⟨?_, ?_, ?_⟩
    · intro x hx
      rcases hmem x hx with rfl | hold
      · exact c.nextPacketIdentifier.next_eq
      · exact hc.identifier x hold
    · intro x hx
      rw [hgen]
      change x.draw < c.nextPacketIdentifier.drawn + 1
      rcases hmem x hx with rfl | hold
      · exact Nat.lt_succ_self _
      · exact (hc.draw_lt x hold).trans (Nat.lt_succ_self _)
    · apply Multiset.nodup_of_le (Multiset.map_le_map hle)
      rw [Multiset.map_cons, Multiset.nodup_cons]
      refine ⟨?_, hc.nodup⟩
      intro hnew
      obtain ⟨x, hx, hdraw⟩ := Multiset.mem_map.mp hnew
      have hlt := hc.draw_lt x hx
      rw [hdraw] at hlt
      exact lt_irrefl _ hlt

theorem accounted_run {ok : Config → Action → Prop} {c : Config} (run : client.Run ok initial c) :
    Accounted c.state := by
  apply run.invariant (I := fun c => Accounted c.state)
  · exact ⟨by simp [held, initial], by simp [held, initial], by simp [held, initial]⟩
  · intro c a r hc _ _ hr
    exact (Draws.of_same (Client.arrive_quiet hr).same.send).accounted hc
  · intro c a call rest r hc _ _ hr
    exact (draws_respond hr).accounted hc

/-- Identifiers in use are never zero, and two operations share one exactly when a
multiple of 65535 identifiers was drawn between them; while no operation is held for
65535 later draws, they are pairwise different. -/
theorem identifiers_in_use {c : Config} (run : client.Run (fun _ _ => True) initial c) :
    (∀ h ∈ held c.state, h.identifier ≠ 0) ∧
    (∀ h ∈ held c.state, ∀ k ∈ held c.state,
      h.identifier = k.identifier ↔ h.draw % 65535 = k.draw % 65535) ∧
    ((∀ h ∈ held c.state, c.state.nextPacketIdentifier.drawn ≤ h.draw + 65535) →
      ((held c.state).map Held.identifier).Nodup) := by
  have hc := accounted_run run
  have hiff : ∀ h ∈ held c.state, ∀ k ∈ held c.state,
      h.identifier = k.identifier ↔ h.draw % 65535 = k.draw % 65535 := by
    intro h hh k hk
    rw [← UInt16.toNat_inj, hc.identifier h hh, hc.identifier k hk]
    omega
  refine ⟨?_, hiff, ?_⟩
  · intro h hh hzero
    have hid := hc.identifier h hh
    rw [hzero] at hid
    change 0 = _ at hid
    omega
  · intro hrecent
    have hdraws : (held c.state).Nodup := hc.nodup.of_map _
    apply (Multiset.nodup_map_iff_inj_on hdraws).mpr
    intro h hh k hk hid
    have hmod := (hiff h hh k hk).mp hid
    have hdraw : h.draw = k.draw := by
      have hh' := hrecent h hh
      have hk' := hrecent k hk
      have hlt := hc.draw_lt h hh
      have hlt' := hc.draw_lt k hk
      omega
    cases h
    cases k
    cases hid
    cases hdraw
    rfl

/-! ### An operation that is held for 65535 draws -/

/-- A subscribe to the topic `"a"`. -/
def subscribeOnce : Operation := .subscribe [{ topic := ⟨[[97]]⟩ }] id

theorem encodes_subscribeOnce (packetIdentifier : UInt16) :
    Encodes (.subscribe { packetIdentifier, topics := [⟨[97], 1⟩] }) := by
  have hproperties : ({} : SubscribeProperties).serialize = .emit [0] := by decide
  have htopic : Written.forEach writeTopicFilter [⟨[97], 1⟩] = .emit [0, 1, 97, 1] := by decide
  have hbody : ∃ zs : Bytes, zs.length ≤ 7 ∧ Subscribe.serializeBody
      { packetIdentifier, topics := [⟨[97], 1⟩] } = .emit zs := by
    rw [Subscribe.serializeBody, hproperties, htopic, writeInt16]
    exact ⟨_, by simp [fixedIntBytes], rfl⟩
  obtain ⟨zs, hlen, hzs⟩ := hbody
  apply encodes_iff.mpr
  change ∃ frame, Subscribe.serialize _ = .emit frame
  rw [Subscribe.serialize, hzs]
  exact WireHeader.writePacket_emits _ _ (by omega)

theorem operate_subscribeOnce (c : Client) : ∃ r, c.operate subscribeOnce = r ∧
    r.threw = false ∧ r.calls = [] ∧
    r.state.nextPacketIdentifier = c.nextPacketIdentifier.advance ∧
    r.state.subscribeMessages.map heldBySubscribe =
      c.subscribeMessages.map heldBySubscribe ++ [nextHeld c] := by
  refine ⟨_, rfl, ?_⟩
  have htopics : ([{ topic := ⟨[[97]]⟩ }] : List Client.SingleSubscription).map
      (fun s => (⟨s.topic.toString, s.flags⟩ : WireSubscribe.TopicFilter)) = [⟨[97], 1⟩] := by decide
  obtain ⟨pendingWrites, hsend⟩ := Client.sendMessage_of_encodes
    { c with nextPacketIdentifier := c.nextPacketIdentifier.advance }
    (encodes_subscribeOnce c.nextPacketIdentifier.next)
  rw [subscribeOnce, Client.operate, Client.startSubscribe, htopics]
  dsimp only [id]
  rw [hsend, Reaction.andThen_of_not_threw rfl]
  exact ⟨rfl, rfl, rfl, by simp [heldBySubscribe, nextHeld]⟩

/-- After `n` subscribes and no acknowledgement all of them are held. -/
theorem run_subscribes (n : ℕ) : ∃ c : Config, client.Run (fun _ _ => True) initial c ∧
    c.stack = [.user] ∧ c.state.nextPacketIdentifier.drawn = n ∧
    (c.state.subscribeMessages.map heldBySubscribe).map Held.draw = List.range n := by
  induction n with
  | zero => exact ⟨⟨{}, [.user], []⟩, .tail .enter .refl trivial rfl, rfl, rfl, rfl⟩
  | succ n ih =>
    obtain ⟨⟨c, stack, log⟩, run, rfl, hdrawn, hheld⟩ := ih
    obtain ⟨r, hr, hthrew, hcalls, hgen, hsub⟩ := operate_subscribeOnce c
    refine ⟨⟨r.state, [.user], r.effects ++ log⟩, .tail (.operate subscribeOnce) run trivial ?_,
      rfl, ?_, ?_⟩
    · change some (client.react _ [] (c.operateFrom subscribeOnce)) = _
      rw [Client.operateFrom, hr, hthrew, hcalls]
      rfl
    · rw [hgen]
      exact congrArg (· + 1) hdrawn
    · rw [hsub, List.map_append, hheld, List.range_succ]
      exact congrArg (fun k => List.range n ++ [k]) hdrawn

/-- The identifiers of the first and of the 65536th subscribe are the same. -/
theorem identifiers_wrap : ¬ ∀ c : Config, client.Run (fun _ _ => True) initial c →
    (∀ h ∈ held c.state, h.identifier ≠ 0) ∧ ((held c.state).map Held.identifier).Nodup := by
  intro hunique
  obtain ⟨c, run, -, -, hheld⟩ := run_subscribes 65536
  have hdistinct := (hunique c run).2
  have hc := accounted_run run
  have hmem : ∀ k < 65536, ∃ h ∈ held c.state, h.draw = k := by
    intro k hk
    have hrange : k ∈ (c.state.subscribeMessages.map heldBySubscribe).map Held.draw := by
      rw [hheld]
      exact List.mem_range.mpr hk
    obtain ⟨h, hh, hdraw⟩ := List.mem_map.mp hrange
    refine ⟨h, ?_, hdraw⟩
    exact mem_held.mpr (.inr (.inr (.inl hh)))
  obtain ⟨first, hfirst, hdraw⟩ := hmem 0 (by omega)
  obtain ⟨last, hlast, hdraw'⟩ := hmem 65535 (by omega)
  have hid : first.identifier = last.identifier := by
    rw [← UInt16.toNat_inj, hc.identifier first hfirst, hc.identifier last hlast, hdraw, hdraw']
  have hsame := Multiset.inj_on_of_nodup_map hdistinct first hfirst last hlast hid
  rw [hsame, hdraw'] at hdraw
  omega

/-- A publish that was sent, one that waits for its slot, a subscribe and an unsubscribe. -/
def fourRequests : List Action :=
  settleActions ++ request (.publish publishQos1) ++ request (.publish publishQos1) ++
    request subscribeOnce ++ request (.unsubscribe { packetIdentifier := 0, topics := [[97]] })

/-- Each of the four is in another table, and holds another identifier. -/
theorem operations_hold_identifiers : ∃ c : Config, client.Run (fun _ _ => True) initial c ∧
    c.state.publishedMessages.map heldByPublished = [⟨0, 1⟩] ∧
    c.state.queuedPublishes.map heldByQueued = [⟨1, 2⟩] ∧
    c.state.subscribeMessages.map heldBySubscribe = [⟨2, 3⟩] ∧
    c.state.unsubscribeMessages.map heldByUnsubscribe = [⟨3, 4⟩] ∧
    ((held c.state).map Held.identifier).Nodup := by
  let oneSlot : Connack :=
    { flags := 0, reasonCode := 0, properties := { receiveMaximum := 1 } }
  have htables : (client.stepsWhile (fun _ _ => true) (openedConfig oneSlot) fourRequests).map
      (fun c => (c.state.publishedMessages.map heldByPublished,
        c.state.queuedPublishes.map heldByQueued)) = some ([⟨0, 1⟩], [⟨1, 2⟩]) := by
    decide +kernel
  have hothers : (client.stepsWhile (fun _ _ => true) (openedConfig oneSlot) fourRequests).map
      (fun c => (c.state.subscribeMessages.map heldBySubscribe,
        c.state.unsubscribeMessages.map heldByUnsubscribe, c.state.nextPacketIdentifier.drawn)) =
      some ([⟨2, 3⟩], [⟨3, 4⟩], 4) := by
    decide +kernel
  obtain ⟨c, hc, hpublishes⟩ := Option.map_eq_some_iff.mp htables
  rw [hc] at hothers
  simp only [Option.map_some, Option.some.injEq, Prod.mk.injEq] at hpublishes hothers
  obtain ⟨hsubscribe, hunsubscribe, hdrawn⟩ := hothers
  have hopened := opened_run (opened_openedConfig oneSlot)
  have run := hopened.trans ((Program.Run.of_stepsWhile _ hc).mono fun _ _ _ => trivial)
  refine ⟨c, run, hpublishes.1, hpublishes.2, hsubscribe, hunsubscribe, ?_⟩
  apply (identifiers_in_use run).2.2
  intro h _
  omega

end Mqtt5.ClientIdentifiers
