import Mqtt5.ClientReceiveQuota

/-!
# What follows a publish beyond the quota

A publish that finds the receive quota used up is answered with a DISCONNECT, and then
handled like any other. The client stays connected until that write has closed the socket.
-/
namespace Mqtt5.ClientQuotaExceeded
open WirePrimitives WirePublish WireConnect WireControlPacket CallMachine ClientState ClientSession
open ClientReceiveQuota ClientStream

/-- The main region's turn for a publish beyond the quota. -/
structure Offence where
  publish : Publish
  before : Config
  after : Config

/-- A publish with acknowledgement that comes when the quota is used up. -/
def exceeds (c : Client) (publish : Publish) : Bool :=
  c.main = .connected ∧ publish.qualityOfService ≠ qos0 ∧ ¬ c.clientReceiveQuota > 0

def note (c : Config) (a : Action) (d : Config) : List Offence :=
  match c.stack, a with
  | .dispatch .main (.packetReceived (.publish publish)) :: _, .run =>
      if exceeds c.state publish then [⟨publish, c, d⟩] else []
  | _, _ => []

def quotaExceeded : Effect :=
  .sent (.disconnect { reason := DisconnectReason.quotaExceeded }) .disconnect

/-- No packet is given to the stream after the client's own DISCONNECT, and the publishes
that called for it are neither stored nor delivered. -/
structure NothingFollows (offences : List Offence) (c : Config) : Prop where
  silent : ∀ newer older, c.log = newer ++ quotaExceeded :: older →
    ∀ packet receiver, .sent packet receiver ∉ newer
  refused : ∀ t ∈ offences,
    t.after.state.receivedQos2States = t.before.state.receivedQos2States ∧
      ∀ newer, t.after.log = newer ++ t.before.log → .delivered t.publish ∉ newer

/-! ## An offence -/

/-- What comes after the DISCONNECT in the turn of a publish beyond the quota. -/
def Answered (publish : Publish) (answer : List Effect) : Prop :=
  (∃ packet receiver, .sent packet receiver ∈ answer) ∨ .delivered publish ∈ answer

theorem handlePublish_of_exceeds {c : Client} {publish : Publish}
    (h : exceeds c publish = true) : ∃ answer, Answered publish answer ∧
      (c.handlePublish publish).effects = answer ++ [quotaExceeded] := by
  simp only [exceeds, decide_eq_true_eq] at h
  obtain ⟨-, hqos0, hspent⟩ := h
  have hquota : ∀ {d : Client} {effects : List Effect}, c.QuotaTaken d effects →
      effects = [quotaExceeded] := by
    intro d effects htaken
    cases htaken with
    | free hfree => exact absurd hfree hspent
    | spent => rfl
  by_cases hqos1 : publish.qualityOfService = qos1
  · obtain ⟨_, _, effects, _, htaken, -, hhandle⟩ := c.handlePublish_of_qos1 hqos1
    rw [hhandle, hquota htaken]
    exact ⟨[.delivered publish, _], .inr List.mem_cons_self, rfl⟩
  · by_cases hqos2 : publish.qualityOfService = qos2
    · obtain ⟨_, effects, _, htaken, hhandle⟩ := c.handlePublish_of_qos2 hqos2
      rw [hhandle, hquota htaken]
      exact ⟨[_], .inl ⟨_, _, List.mem_cons_self⟩, rfl⟩
    · have hreserved : publish.qualityOfService ∉ [qos0, qos1, qos2] := by
        simp [hqos0, hqos1, hqos2]
      obtain ⟨_, _, effects, _, htaken, -, hhandle⟩ := c.handlePublish_of_reserved hreserved
      rw [hhandle, hquota htaken]
      exact ⟨[.delivered publish], .inr List.mem_cons_self, rfl⟩

/-- What the log shows of an offence. -/
structure Shown (t : Offence) (log : List Effect) : Prop where
  answer : ∃ answer, Answered t.publish answer ∧
    t.after.log = answer ++ quotaExceeded ::
      .event (.packetReceived (.publish t.publish)) .connected :: t.before.log
  suffix : t.after.log <:+ log

theorem Shown.append {t : Offence} {log : List Effect} (h : Shown t log) (effects : List Effect) :
    Shown t (effects ++ log) :=
  ⟨h.answer, h.suffix.trans (List.suffix_append _ _)⟩

theorem note_shown {c : Config} {call : Call} {rest : List Call} (hstack : c.stack = call :: rest)
    {a : Action} {r : Reaction} (hr : client.respond c.state call a = some r) :
    ∀ t ∈ note c a (client.react c rest r), Shown t (client.react c rest r).log := by
  intro t ht
  unfold note at ht
  rw [hstack] at ht
  split at ht
  case h_1 publish _ heq =>
    injection heq with hcall
    subst hcall
    split at ht
    case isTrue hexceeds =>
      rw [List.mem_singleton.mp ht]
      have hmain : c.state.main = .connected := by
        simp only [exceeds, decide_eq_true_eq] at hexceeds
        exact hexceeds.1
      obtain ⟨answer, hanswered, heffects⟩ := handlePublish_of_exceeds hexceeds
      have hr : r = withEntry (c.state.handlePublish publish) (.packetReceived (.publish publish))
          .connected := by
        cases hr
        exact dispatch_packet hmain (.publish publish)
      refine ⟨⟨answer, hanswered, ?_⟩, List.suffix_rfl⟩
      rw [hr]
      change ((c.state.handlePublish publish).effects ++ [_]) ++ c.log = _
      rw [heffects, List.append_assoc, List.append_assoc]
      rfl
    case isFalse => cases ht
  case h_2 => cases ht

/-! ## No offence -/

theorem bystander_ne {e : Effect} (h : Bystander e) : e ≠ quotaExceeded := by
  rintro rfl
  exact h.2.2 rfl

theorem handlePublish_silent {c : Client} {publish : Publish} (hmain : c.main = .connected)
    (h : exceeds c publish = false) : ∀ e ∈ (c.handlePublish publish).effects, e ≠ quotaExceeded := by
  simp only [exceeds, decide_eq_false_iff_not, not_and, not_not] at h
  by_cases hqos0 : publish.qualityOfService = qos0
  · obtain ⟨_, _, -, hhandle⟩ := c.handlePublish_of_qos0 hqos0
    rw [hhandle]
    simp [quotaExceeded]
  · have hfree := h hmain hqos0
    have hquota : ∀ {d : Client} {effects : List Effect}, c.QuotaTaken d effects →
        effects = [] := by
      intro d effects htaken
      cases htaken with
      | free => rfl
      | spent hspent => exact absurd hfree hspent
    by_cases hqos1 : publish.qualityOfService = qos1
    · obtain ⟨_, _, effects, _, htaken, -, hhandle⟩ := c.handlePublish_of_qos1 hqos1
      rw [hhandle, hquota htaken]
      simp [quotaExceeded]
    · by_cases hqos2 : publish.qualityOfService = qos2
      · obtain ⟨_, effects, _, htaken, hhandle⟩ := c.handlePublish_of_qos2 hqos2
        rw [hhandle, hquota htaken]
        simp [quotaExceeded]
      · have hreserved : publish.qualityOfService ∉ [qos0, qos1, qos2] := by
          simp [hqos0, hqos1, hqos2]
        obtain ⟨_, _, effects, _, htaken, -, hhandle⟩ := c.handlePublish_of_reserved hreserved
        rw [hhandle, hquota htaken]
        simp [quotaExceeded]

theorem handlePubrel_silent (c : Client) (ack : Ack) :
    ∀ e ∈ (c.handlePubrel ack).effects, e ≠ quotaExceeded := by
  cases hfind : c.receivedQos2States.find? (Client.storedAs ack.packetIdentifier) with
  | none =>
    obtain ⟨_, hhandle⟩ := c.handlePubrel_of_none hfind
    rw [hhandle]
    simp [quotaExceeded]
  | some publish =>
    obtain ⟨_, _, -, hhandle⟩ := c.handlePubrel_of_some hfind
    rw [hhandle]
    simp [quotaExceeded]

theorem handlePacket_silent {c : Client} (hmain : c.main = .connected) {p : ControlPacket}
    (h : ∀ publish, p = .publish publish → exceeds c publish = false) :
    ∀ e ∈ (c.handlePacket p).effects, e ≠ quotaExceeded := by
  have hsends : ∀ {r : Reaction}, c.Sends Call.After r → ∀ e ∈ r.effects, e ≠ quotaExceeded :=
    fun hr e he => bystander_ne (bystander_of_sending (hr.effects e he))
  cases p with
  | publish publish => exact handlePublish_silent hmain (h publish rfl)
  | pubrel ack => exact handlePubrel_silent c ack
  | _ => exact hsends (c.handlePacket_sends (by simp) (by simp))

/-- A turn that is no offence does not submit the DISCONNECT. -/
theorem turn_silent {c : Config} {call : Call} {rest : List Call} (hstack : c.stack = call :: rest)
    {a : Action} {r : Reaction} (hr : client.respond c.state call a = some r)
    (hnote : note c a (client.react c rest r) = []) : ∀ e ∈ r.effects, e ≠ quotaExceeded := by
  cases Client.respond_turn hr with
  | main event r hturn =>
    intro e hmem
    rcases List.mem_append.mp hmem with he | he
    · clear hmem
      cases hturn with
      | packet p hmain =>
        refine handlePacket_silent hmain ?_ e he
        rintro publish rfl
        unfold note at hnote
        rw [hstack] at hnote
        by_contra hexceeds
        rw [Bool.not_eq_false] at hexceeds
        simp [hexceeds] at hnote
      | pubackSent =>
        obtain ⟨_, hsent⟩ := c.state.handlePubackSent_eq
        rw [hsent] at he
        cases he
      | connack p =>
        obtain ⟨_, _, hack⟩ := { c.state with main := .connected }.handleConnack_eq p
        rw [hack] at he
        cases he
      | handshake => cases he
      | disconnect =>
        rw [List.mem_singleton.mp he]
        simp [quotaExceeded]
      | ignored => cases he
    · rw [List.mem_singleton.mp he]
      simp [quotaExceeded]
  | anonymous hstart =>
    intro e he
    rw [(Client.anonymous_same hstart).2.2 e he]
    simp [quotaExceeded]
  | maybeSend =>
    have hsends := c.state.maybeSend_sends
    exact fun e he => bystander_ne (bystander_of_sending (hsends.effects e he))
  | operate op =>
    exact fun e he => bystander_ne (bystander_of_requested (operate_effects c.state op e he))
  | close => simp [Client.close, quotaExceeded]
  | quiet _ _ _ hquiet =>
    exact fun e he => bystander_ne (bystander_of_quiet (hquiet.effects e he))

/-! ## Every run -/

/-- The offences are shown by the log, and nothing else submits the DISCONNECT. -/
structure Recorded (offences : List Offence) (c : Config) : Prop where
  shown : ∀ t ∈ offences, Shown t c.log
  silent : offences = [] → quotaExceeded ∉ c.log

theorem recorded_run {offences : List Offence} {c : Config}
    (run : client.Observed note initial offences c) : Recorded offences c := by
  apply run.invariant (I := Recorded)
  · exact ⟨by simp, by simp [initial]⟩
  · intro offences c a r _ hc hstack hr
    have hnote : note c a (client.react c [] r) = [] := by
      unfold note
      rw [hstack]
    have hquiet := Client.arrive_quiet hr
    rw [hnote, List.nil_append]
    refine ⟨fun t ht => (hc.shown t ht).append r.effects, ?_⟩
    intro hnone hmem
    rcases List.mem_append.mp hmem with hmem | hmem
    · exact bystander_ne (bystander_of_quiet (hquiet.effects _ hmem)) rfl
    · exact hc.silent hnone hmem
  · intro offences c a call rest r _ hc hstack hr
    constructor
    · intro t ht
      rcases List.mem_append.mp ht with ht | ht
      · exact note_shown hstack hr t ht
      · exact (hc.shown t ht).append r.effects
    · intro hnone hmem
      obtain ⟨hnote, hbefore⟩ := List.append_eq_nil_iff.mp hnone
      rcases List.mem_append.mp hmem with hmem | hmem
      · exact turn_silent hstack hr hnote _ hmem rfl
      · exact hc.silent hbefore hmem

/-- Nothing follows the client's own DISCONNECT if and only if no publish beyond the quota
has come that calls for one. -/
theorem nothing_follows_iff {offences : List Offence} {c : Config}
    (run : client.Observed note initial offences c) :
    NothingFollows offences c ↔ offences = [] := by
  have hrecorded := recorded_run run
  constructor
  · intro h
    by_contra hne
    obtain ⟨t, ht⟩ := List.exists_mem_of_ne_nil _ hne
    obtain ⟨⟨answer, hanswered, hafter⟩, newer, hlog⟩ := hrecorded.shown t ht
    rcases hanswered with ⟨packet, receiver, hsent⟩ | hdelivered
    · rw [hafter, ← List.append_assoc] at hlog
      exact h.silent _ _ hlog.symm packet receiver (List.mem_append_right _ hsent)
    · have hturn : t.after.log = (answer ++ [quotaExceeded,
          .event (.packetReceived (.publish t.publish)) .connected]) ++ t.before.log := by
        rw [hafter, List.append_assoc]
        rfl
      exact (h.refused t ht).2 _ hturn (List.mem_append_left _ hdelivered)
  · rintro rfl
    have hsilent := hrecorded.silent rfl
    refine ⟨fun newer older hlog => ?_, by simp⟩
    exact absurd (hlog ▸ List.mem_append_right _ List.mem_cons_self) hsilent

/-- A connection whose server may send one publish before it is acknowledged. -/
def oneAtATime : List Action :=
  request (.handshaker { receiveMaximum := 1 }) ++
    handshakeActions { flags := 0, reasonCode := 0 } ++ .run :: settleActions

def firstPublish : Publish := { publishQos1 with packetIdentifier := 7 }
def secondPublish : Publish := { publishQos1 with packetIdentifier := 8 }

theorem nothing_follows_first : ∃ c, client.Observed note initial [] c ∧
    .sent (.puback { packetIdentifier := 7 }) .puback ∈ c.log ∧ NothingFollows [] c := by
  have hsteps : ∃ c, client.observe note [] initial
      (oneAtATime ++ arrival (.publish firstPublish)) = some ([], c) ∧
        .sent (.puback { packetIdentifier := 7 }) .puback ∈ c.log :=
    ⟨_, rfl, by decide +kernel⟩
  obtain ⟨c, hc, hsent⟩ := hsteps
  have run := Program.Observed.of_observe _ .refl hc
  exact ⟨c, run, hsent, (nothing_follows_iff run).mpr rfl⟩

/-- The second publish is beyond the quota: after the DISCONNECT it gets a PUBACK, and it
is delivered. -/
theorem publish_follows_disconnect : ∃ t c older, client.Observed note initial [t] c ∧
    c.log = [.delivered secondPublish, .sent (.puback { packetIdentifier := 8 }) .puback,
      quotaExceeded] ++ older ∧ ¬ NothingFollows [t] c := by
  have hsteps : ∃ t c older, client.observe note [] initial (oneAtATime ++
      arrival (.publish firstPublish) ++ [.readValue (.publish secondPublish), .run]) =
        some ([t], c) ∧ c.log = [.delivered secondPublish,
          .sent (.puback { packetIdentifier := 8 }) .puback, quotaExceeded] ++ older :=
    ⟨_, _, _, rfl, rfl⟩
  obtain ⟨t, c, older, hc, hlog⟩ := hsteps
  refine ⟨t, c, older, .of_observe _ .refl hc, hlog, fun h => ?_⟩
  refine h.silent [.delivered secondPublish, .sent (.puback { packetIdentifier := 8 }) .puback]
    older hlog (.puback { packetIdentifier := 8 }) .puback ?_
  exact List.mem_cons_of_mem _ List.mem_cons_self

end Mqtt5.ClientQuotaExceeded
