import Mqtt5.ClientStream

/-!
# The connection

The main region says whether the client is connected, the receive region whether it reads.
Both are brought the same events, one after the other, and code that one of them runs may
raise events before the other has had its turn.
-/
namespace Mqtt5.ClientConnection
open WirePrimitives WirePublish WireConnect WireControlPacket CallMachine ClientState ClientSession
open ClientActs ClientStream

/-- The last event that the main region got. -/
def lastEvent (log : List Effect) : Option Event :=
  log.findSome? fun
    | .event e _ => some e
    | _ => none

/-- A handshake event that starts a handshake. -/
def isHandshake : Effect → Bool
  | .event .handshake .idle => true
  | _ => false

def isConnect : Effect → Bool
  | .sent (.connect _) _ => true
  | _ => false

/-! ## Stacks -/

/-- The main region's turn is followed by those of the others. -/
def WellNested : List Call → Prop
  | [] => True
  | call :: rest =>
      (∀ e, call = .dispatch .main e → ∃ after, rest = (broughtToAll e).tail ++ after) ∧
        WellNested rest

theorem WellNested.plain {calls rest : List Call} (hcalls : Plain calls) (h : WellNested rest) :
    WellNested (calls ++ rest) := by
  induction calls with
  | nil => exact h
  | cons call calls ih =>
    refine ⟨?_, ih fun region e hmem => hcalls region e (List.mem_cons_of_mem _ hmem)⟩
    rintro e rfl
    exact absurd List.mem_cons_self (hcalls .main e)

theorem WellNested.raises {E : Event → Prop} {calls rest : List Call} (hcalls : Raises E calls)
    (h : WellNested rest) : WellNested (calls ++ rest) := by
  cases hcalls with
  | nothing hplain => exact h.plain hplain
  | event e after _ hplain =>
    have hafter := h.plain hplain
    rw [List.append_assoc]
    constructor
    · rintro e' heq
      injection heq with _ heq
      exact ⟨after ++ rest, by rw [heq]; rfl⟩
    · exact ⟨by simp, by simp, by simp, by simp, hafter⟩

theorem WellNested.suffix {stack rest : List Call} (h : WellNested stack) (hrest : rest <:+ stack) :
    WellNested rest := of_suffix (fun h => h.2) h hrest

theorem nested_run {ok : Config → Action → Prop} {c : Config} (run : client.Run ok initial c) :
    WellNested c.stack := by
  refine run.invariant (I := fun c => WellNested c.stack) trivial ?_ ?_
  · intro c a r _ _ _ hr
    rw [Program.react_of_not_threw (Client.arrive_quiet hr).threw]
    dsimp only
    rcases arrive_calls hr with hplain | ⟨e, hcalls⟩
    · exact WellNested.plain hplain trivial
    · have hraises : Raises (fun _ => True) (broughtToAll e ++ []) := .event e [] trivial plain_nil
      rw [hcalls]
      exact WellNested.raises (List.append_nil _ ▸ hraises) trivial
  · intro c a call rest r hc _ hstack hr
    rw [hstack] at hc
    rw [Program.react]
    dsimp only
    split
    · exact hc.2.suffix (List.dropWhile_suffix _)
    · exact hc.2.raises (respond_raises hr)

/-- What can be run while a handshake is about to start: no disconnect, and no user's code. -/
def Opening : Call → Prop
  | .dispatch _ e => e ≠ .disconnect
  | .receiveOneMessage => True
  | _ => False

/-- The transition that starts the handshake is still to come, after such calls. -/
def Opens : List Call → Prop
  | [] => False
  | .anonymous :: _ => True
  | call :: rest => Opening call ∧ Opens rest

theorem opens_cons {call : Call} {rest : List Call} :
    Opens (call :: rest) ↔ call = .anonymous ∨ Opening call ∧ Opens rest := by
  cases call <;> simp [Opens, Opening]

theorem Opens.append {calls rest : List Call} (h : Opens rest)
    (hcalls : ∀ call ∈ calls, Opening call ∨ call = .anonymous) : Opens (calls ++ rest) := by
  induction calls with
  | nil => exact h
  | cons call calls ih =>
    apply opens_cons.mpr
    rcases hcalls call List.mem_cons_self with hopening | rfl
    · exact .inr ⟨hopening, ih fun call hmem => hcalls call (List.mem_cons_of_mem _ hmem)⟩
    · exact .inl rfl

/-! ## The invariant -/

/-- An effect that is neither an event nor a CONNECT. -/
def Unseen (e : Effect) : Prop := (∀ event main, e ≠ .event event main) ∧ isConnect e = false

theorem unseen_of_sending {e : Effect} (h : e.Sending) : Unseen e := by
  cases e with
  | sent packet receiver => cases packet <;> first | exact h.elim | exact ⟨by simp, rfl⟩
  | _ => first | exact h.elim | exact ⟨by simp, rfl⟩

theorem unseen_of_receiving {e : Effect} (h : e.Receiving) : Unseen e := by
  cases e with
  | sent packet receiver => cases packet <;> first | exact h.elim | exact ⟨by simp, rfl⟩
  | _ => first | exact h.elim | exact ⟨by simp, rfl⟩

theorem unseen_of_quiet {e : Effect} (h : e.Quiet) : Unseen e := by
  cases e with
  | sent packet receiver => cases packet <;> first | exact h.elim | exact ⟨by simp, rfl⟩
  | _ => first | exact h.elim | exact ⟨by simp, rfl⟩

theorem unseen_of_requested {e : Effect} (h : Requested e) : Unseen e := by
  rcases h with h | ⟨reason, rfl⟩ | rfl
  · exact unseen_of_sending h
  · exact ⟨by simp, rfl⟩
  · exact ⟨by simp, rfl⟩

theorem lastEvent_unseen {effects : List Effect} (h : ∀ e ∈ effects, Unseen e)
    (log : List Effect) : lastEvent (effects ++ log) = lastEvent log := by
  rw [lastEvent, List.findSome?_append, List.findSome?_eq_none_iff.mpr, Option.none_or, lastEvent]
  intro e he
  cases e with
  | event event main => exact absurd rfl ((h _ he).1 event main)
  | _ => rfl

theorem countP_unseen {effects : List Effect} (h : ∀ e ∈ effects, Unseen e)
    (log : List Effect) :
    (effects ++ log).countP isHandshake = log.countP isHandshake ∧
      (effects ++ log).countP isConnect = log.countP isConnect := by
  have hhandshake : effects.countP isHandshake = 0 := by
    rw [List.countP_eq_zero]
    intro e he hh
    cases e with
    | event event main => exact (h _ he).1 event main rfl
    | _ => cases hh
  have hconnect : effects.countP isConnect = 0 :=
    List.countP_eq_zero.mpr fun e he => by simp [(h e he).2]
  rw [List.countP_append, List.countP_append, hhandshake, hconnect]
  exact ⟨Nat.zero_add _, Nat.zero_add _⟩

/-- How the regions and what remains to be run fit together. -/
structure Consistent (c : Config) : Prop where
  nested : WellNested c.stack
  /-- The receive region lags behind the main one by its turn for a handshake. -/
  receiving : c.state.main ≠ .idle → c.state.rx = .receiving ∨
    c.state.main = .startHandshake ∧ ∃ rest, c.stack = .dispatch .rx .handshake :: rest
  opening : c.state.main = .startHandshake → Opens c.stack
  /-- A disconnect is brought to the regions with nothing in between. -/
  disconnecting : (∃ region, .dispatch region .disconnect ∈ c.stack) →
    c.stack = broughtToAll .disconnect ∧ c.state.main ≠ .startHandshake ∨
      c.stack <:+ (broughtToAll .disconnect).tail ∧ c.state.main = .idle
  disconnected : lastEvent c.log = some .disconnect → c.state.main = .idle
  connects : c.log.countP isHandshake = c.log.countP isConnect +
    if c.state.main = .startHandshake then 1 else 0

theorem consistent_initial : Consistent initial where
  nested := trivial
  receiving h := absurd rfl h
  opening h := by cases h
  disconnecting h := by simp [initial] at h
  disconnected _ := rfl
  connects := rfl

/-- The call on top of other regions' turns for a disconnect is such a turn itself. -/
theorem disconnect_on_top {call : Call} {rest : List Call}
    (h : call :: rest <:+ (broughtToAll .disconnect).tail)
    (hrest : ∃ region, .dispatch region .disconnect ∈ rest) :
    ∃ region, call = .dispatch region .disconnect := by
  obtain ⟨region, hmem⟩ := hrest
  simp only [broughtToAll, List.tail_cons, List.suffix_cons_iff, List.suffix_nil,
    List.cons.injEq, reduceCtorEq, or_false] at h
  rcases h with ⟨rfl, -⟩ | ⟨rfl, -⟩ | ⟨rfl, -⟩ | ⟨-, rfl⟩
  · exact ⟨.rx, rfl⟩
  · exact ⟨.ping, rfl⟩
  · exact ⟨.keepAlive, rfl⟩
  · cases hmem

theorem Consistent.nested_react {c : Config} (h : Consistent c) {call : Call} {rest : List Call}
    (hstack : c.stack = call :: rest) {r : Reaction} (hraises : Raises Nested r.calls) :
    WellNested (client.react c rest r).stack := by
  have hnested := h.nested
  rw [hstack] at hnested
  rw [Program.react]
  dsimp only
  split
  · exact hnested.2.suffix (List.dropWhile_suffix _)
  · exact hnested.2.raises hraises

theorem Consistent.disconnected_unseen {c : Config} (h : Consistent c) {effects : List Effect}
    (heffects : ∀ e ∈ effects, Unseen e) {main : MainState} (hmain : main = c.state.main)
    (hlast : lastEvent (effects ++ c.log) = some .disconnect) : main = .idle := by
  rw [lastEvent_unseen heffects] at hlast
  exact hmain.trans (h.disconnected hlast)

theorem Consistent.connects_unseen {c : Config} (h : Consistent c) {effects : List Effect}
    (heffects : ∀ e ∈ effects, Unseen e) {main : MainState} (hmain : main = c.state.main) :
    (effects ++ c.log).countP isHandshake = (effects ++ c.log).countP isConnect +
      if main = .startHandshake then 1 else 0 := by
  obtain ⟨hhandshake, hconnect⟩ := countP_unseen heffects c.log
  rw [hhandshake, hconnect, hmain]
  exact h.connects

/-- A reaction that leaves the main region alone. -/
theorem Consistent.other {c : Config} (h : Consistent c) {call : Call} {rest : List Call}
    (hstack : c.stack = call :: rest) {r : Reaction} (hmain : r.state.main = c.state.main)
    (hreceiving : c.state.main ≠ .idle → r.state.rx = .receiving)
    (heffects : ∀ e ∈ r.effects, Unseen e) (hraises : Raises Nested r.calls)
    (hdisconnect : ∀ region, call = .dispatch region .disconnect →
      region ≠ .main ∧ r.calls = [] ∧ r.threw = false)
    (hopening : c.state.main = .startHandshake → call ≠ .anonymous ∧ r.threw = false ∧
      ∀ call ∈ r.calls, Opening call ∨ call = .anonymous) : Consistent (client.react c rest r) := by
  constructor
  · exact h.nested_react hstack hraises
  · intro hidle
    change r.state.main ≠ .idle at hidle
    rw [hmain] at hidle
    exact .inl (hreceiving hidle)
  · intro hstart
    have hstart' : c.state.main = .startHandshake := hmain.symm.trans hstart
    obtain ⟨hcall, hthrew, hcalls⟩ := hopening hstart'
    have hopens := h.opening hstart'
    rw [hstack] at hopens
    rcases opens_cons.mp hopens with heq | ⟨-, hopens⟩
    · exact absurd heq hcall
    · rw [Program.react_of_not_threw hthrew]
      exact hopens.append hcalls
  · rintro ⟨region, hmem⟩
    rcases Program.mem_react hmem with hmem | hmem
    · exact absurd hmem (hraises.not_mem id)
    · have hbefore : ∃ region, .dispatch region .disconnect ∈ c.stack :=
        ⟨region, by rw [hstack]; exact List.mem_cons_of_mem _ hmem⟩
      rcases h.disconnecting hbefore with ⟨hall, -⟩ | ⟨hsuffix, hidle⟩
      · rw [hstack] at hall
        injection hall with heq
        exact absurd rfl (hdisconnect _ heq).1
      · rw [hstack] at hsuffix
        obtain ⟨region', hcall⟩ := disconnect_on_top hsuffix ⟨region, hmem⟩
        obtain ⟨-, hcalls, hthrew⟩ := hdisconnect region' hcall
        refine .inr ⟨?_, hmain.trans hidle⟩
        rw [Program.react_of_not_threw hthrew, hcalls]
        exact (List.suffix_cons call rest).trans hsuffix
  · exact h.disconnected_unseen heffects hmain
  · exact h.connects_unseen heffects hmain

/-! ## The main region's turn -/

theorem unseen_handlePacket (c : Client) (p : ControlPacket) :
    ∀ e ∈ (c.handlePacket p).effects, Unseen e := by
  intro e he
  rcases c.handlePacket_side p with h | h
  · exact unseen_of_receiving (h.effects e he)
  · exact unseen_of_sending (h.effects e he)

theorem lastEvent_entry {effects : List Effect} (h : ∀ e ∈ effects, Unseen e) (event : Event)
    (main : MainState) (log : List Effect) :
    lastEvent (effects ++ [.event event main] ++ log) = some event := by
  rw [List.append_assoc, lastEvent_unseen h]
  rfl

theorem countP_entry {effects : List Effect} (h : ∀ e ∈ effects, Unseen e) (event : Event)
    (main : MainState) (log : List Effect) :
    (effects ++ [Effect.event event main] ++ log).countP isHandshake =
        log.countP isHandshake + (if isHandshake (.event event main) then 1 else 0) ∧
      (effects ++ [Effect.event event main] ++ log).countP isConnect = log.countP isConnect := by
  rw [List.append_assoc]
  obtain ⟨hhandshake, hconnect⟩ := countP_unseen h ([.event event main] ++ log)
  rw [hhandshake, hconnect, List.singleton_append, List.countP_cons, List.countP_cons]
  exact ⟨rfl, rfl⟩

/-- No disconnect is on its way while another event is the main region's. -/
theorem Consistent.no_disconnect {c : Config} (h : Consistent c) {e : Event} {rest : List Call}
    (hstack : c.stack = .dispatch .main e :: rest) (he : e ≠ .disconnect) :
    ¬ ∃ region, .dispatch region .disconnect ∈ c.stack := by
  intro hmem
  rcases h.disconnecting hmem with ⟨hall, -⟩ | ⟨hsuffix, -⟩
  · rw [hstack] at hall
    injection hall with heq
    injection heq with _ heq
    exact he heq
  · rw [hstack] at hsuffix
    have htop := hsuffix.subset List.mem_cons_self
    simp [broughtToAll] at htop

/-- The main region's turn for an event other than a disconnect. -/
theorem Consistent.entry {c : Config} (h : Consistent c) {e : Event} {rest : List Call}
    (hstack : c.stack = .dispatch .main e :: rest) {r : Reaction}
    (heffects : ∀ e ∈ r.effects, Unseen e) (hraises : Raises Nested r.calls)
    (hdisconnect : e ≠ .disconnect)
    (hreceiving : r.state.main ≠ .idle → r.state.rx = .receiving ∨
      r.state.main = .startHandshake ∧ ∃ after, (client.react c rest r).stack =
        .dispatch .rx .handshake :: after)
    (hopening : r.state.main = .startHandshake → Opens (client.react c rest r).stack)
    (hcount : (if isHandshake (.event e c.state.main) then 1 else 0) +
      (if c.state.main = .startHandshake then 1 else 0) =
        if r.state.main = .startHandshake then 1 else 0) :
    Consistent (client.react c rest (withEntry r e c.state.main)) := by
  refine ⟨h.nested_react hstack hraises, hreceiving, hopening, ?_, ?_, ?_⟩
  · rintro ⟨region, hmem⟩
    rcases Program.mem_react hmem with hmem | hmem
    · exact absurd hmem (hraises.not_mem id)
    · refine absurd ⟨region, ?_⟩ (h.no_disconnect hstack hdisconnect)
      rw [hstack]
      exact List.mem_cons_of_mem _ hmem
  · intro hlast
    change lastEvent (r.effects ++ [.event e c.state.main] ++ c.log) = _ at hlast
    rw [lastEvent_entry heffects] at hlast
    exact absurd (Option.some.inj hlast) hdisconnect
  · change (r.effects ++ [Effect.event e c.state.main] ++ c.log).countP isHandshake =
      (r.effects ++ [Effect.event e c.state.main] ++ c.log).countP isConnect +
        if r.state.main = .startHandshake then 1 else 0
    obtain ⟨hhandshake, hconnect⟩ := countP_entry heffects e c.state.main c.log
    have hbefore := h.connects
    rw [hhandshake, hconnect, ← hcount]
    omega

/-- The main region's turn for a disconnect, unless the client is connected. -/
theorem consistent_disconnect {c : Config} (h : Consistent c) {rest : List Call}
    (hstack : c.stack = .dispatch .main .disconnect :: rest) {r : Reaction}
    (hturn : c.state.MainTurn .disconnect r) (hconnected : c.state.main ≠ .connected) :
    Consistent (client.react c rest (withEntry r .disconnect c.state.main)) := by
  have hall : c.stack = broughtToAll .disconnect ∧ c.state.main ≠ .startHandshake := by
    rcases h.disconnecting ⟨.main, by rw [hstack]; exact List.mem_cons_self⟩ with hall | ⟨hsuffix, -⟩
    · exact hall
    · rw [hstack] at hsuffix
      have htop := hsuffix.subset List.mem_cons_self
      simp [broughtToAll] at htop
  have hrest : rest = (broughtToAll .disconnect).tail := by
    have hall := hall.1
    rw [hstack] at hall
    injection hall
  have hidle : r.state.main = .idle ∧ r.calls = [] ∧ r.threw = false ∧
      ∀ e ∈ r.effects, Unseen e := by
    cases hturn with
    | disconnect =>
      refine ⟨rfl, rfl, rfl, ?_⟩
      intro e he
      rw [List.mem_singleton.mp he]
      exact ⟨by simp, rfl⟩
    | ignored _ _ _ _ hhandshaking =>
      cases hmain : c.state.main with
      | idle => exact ⟨rfl, rfl, rfl, by simp⟩
      | startHandshake => exact absurd hmain hall.2
      | handshaking => exact absurd rfl (hhandshaking hmain)
      | connected => exact absurd hmain hconnected
  obtain ⟨hidle, hcalls, hthrew, heffects⟩ := hidle
  have hraises := raises_main hturn
  refine ⟨h.nested_react hstack hraises, ?_, ?_, ?_, fun _ => hidle, ?_⟩
  · exact fun hne => absurd hidle hne
  · exact fun hstart => by cases hidle.symm.trans hstart
  · intro
    refine .inr ⟨?_, hidle⟩
    rw [Program.react_of_not_threw (r := withEntry r .disconnect c.state.main) hthrew]
    change r.calls ++ rest <:+ _
    rw [hcalls, hrest]
    exact List.suffix_rfl
  · change (r.effects ++ [Effect.event .disconnect c.state.main] ++ c.log).countP isHandshake =
      (r.effects ++ [Effect.event .disconnect c.state.main] ++ c.log).countP isConnect +
        if r.state.main = .startHandshake then 1 else 0
    obtain ⟨hhandshake, hconnect⟩ := countP_entry heffects .disconnect c.state.main c.log
    have hbefore := h.connects
    rw [if_neg hall.2] at hbefore
    rw [hhandshake, hconnect, hidle, hbefore]
    rfl

theorem consistent_main {c : Config} (h : Consistent c) {e : Event} {rest : List Call}
    (hstack : c.stack = .dispatch .main e :: rest) {r : Reaction} (hturn : c.state.MainTurn e r)
    (hok : e = .disconnect → c.state.main ≠ .connected) :
    Consistent (client.react c rest (withEntry r e c.state.main)) := by
  have hsubmits := submits_main hturn
  have hraises := raises_main hturn
  -- The receive region was receiving before, since its own turn is not the next one.
  have hreceiving : c.state.main ≠ .idle → r.state.rx = .receiving := by
    intro hidle
    rcases h.receiving hidle with hreceiving | ⟨-, after, htop⟩
    · exact hsubmits.rx.trans hreceiving
    · rw [hstack] at htop
      cases htop
  by_cases hdisconnect : e = .disconnect
  · subst hdisconnect
    exact consistent_disconnect h hstack hturn (hok rfl)
  cases hturn with
  | packet p hmain =>
    have hconnected : (c.state.handlePacket p).state.main = .connected :=
      (handlePacket_main c.state p).trans hmain
    apply h.entry hstack (unseen_handlePacket c.state p) hraises hdisconnect
    · exact fun _ => .inl (hreceiving (by simp [hmain]))
    · rw [hconnected]
      exact fun hstart => by cases hstart
    · rw [hconnected, hmain]
      rfl
  | pubackSent hmain =>
    have hreceives := c.state.handlePubackSent_receives
    have hconnected := hreceives.state.main.trans hmain
    refine h.entry hstack (fun e he => unseen_of_receiving (hreceives.effects e he)) hraises
      hdisconnect ?_ ?_ ?_
    · exact fun _ => .inl (hreceiving (by simp [hmain]))
    · rw [hconnected]
      exact fun hstart => by cases hstart
    · rw [hconnected, hmain]
      rfl
  | connack p hmain =>
    have hrx := hreceiving (by simp [hmain])
    obtain ⟨_, _, hack⟩ := { c.state with main := .connected }.handleConnack_eq p
    rw [hack] at hraises hrx ⊢
    apply h.entry hstack (by simp) hraises hdisconnect
    · exact fun _ => .inl hrx
    · exact fun hstart => by cases hstart
    · rw [hmain]
      rfl
  | handshake hmain =>
    have hnested := h.nested
    rw [hstack] at hnested
    obtain ⟨after, rfl⟩ := hnested.1 .handshake rfl
    apply h.entry hstack (by simp) hraises hdisconnect
    · exact fun _ => .inr ⟨rfl, _, rfl⟩
    · exact fun _ => by simp [Program.react, broughtToAll, Opens, Opening]
    · rw [hmain]
      rfl
  | disconnect => exact absurd rfl hdisconnect
  | ignored e hpacket hsent hhandshake =>
    apply h.entry hstack (by simp) hraises hdisconnect
    · exact fun hidle => .inl (hreceiving hidle)
    · intro hstart
      have hopens := h.opening hstart
      rw [hstack] at hopens
      exact ((opens_cons.mp hopens).resolve_left (by simp)).2
    · cases hmain : c.state.main with
      | idle =>
        cases e with
        | handshake => exact absurd rfl (hhandshake hmain)
        | _ => rfl
      | _ => cases e <;> rfl

/-! ## The other calls -/

/-- The receive region's turn. -/
theorem consistent_rx {c : Config} (h : Consistent c) {e : Event} {rest : List Call}
    (hstack : c.stack = .dispatch .rx e :: rest) {r : Reaction} (hturn : RxTurn c.state e r)
    (hraises : Raises Nested r.calls) : Consistent (client.react c rest r) := by
  have hsame : r.state.main = c.state.main ∧ r.threw = false ∧
      (∀ e ∈ r.effects, Unseen e) ∧ ∀ call ∈ r.calls, call = .receiveOneMessage := by
    cases hturn with
    | handshake | packet | ignored => exact ⟨rfl, rfl, by simp, by simp⟩
    | disconnect => exact ⟨rfl, rfl, by simp [Unseen, isConnect], by simp⟩
  obtain ⟨hmain, hthrew, heffects, hcalls⟩ := hsame
  refine h.other hstack hmain ?_ heffects hraises ?_ ?_
  · intro hidle
    cases hturn with
    | handshake => rfl
    | packet p hrx => exact hrx
    | disconnect =>
      rcases h.disconnecting ⟨.rx, by rw [hstack]; exact List.mem_cons_self⟩ with
        ⟨hall, -⟩ | ⟨-, hmain⟩
      · rw [hstack] at hall
        cases hall
      · exact absurd hmain hidle
    | ignored e _ hhandshake =>
      rcases h.receiving hidle with hreceiving | ⟨-, after, htop⟩
      · exact hreceiving
      · rw [hstack] at htop
        cases htop
        cases hrx : c.state.rx with
        | idle => exact absurd rfl (hhandshake hrx)
        | receiving => rfl
  · intro region heq
    injection heq with hregion he
    subst hregion
    refine ⟨by simp, ?_, hthrew⟩
    cases hturn with
    | handshake | packet => cases he
    | disconnect | ignored => rfl
  · intro
    refine ⟨by simp, hthrew, fun call hcall => .inl ?_⟩
    rw [hcalls call hcall]
    trivial

theorem consistent_anonymous {c : Config} (h : Consistent c) {rest : List Call}
    (hstack : c.stack = .anonymous :: rest) (hmain : c.state.main = .startHandshake)
    (hencodes : Encodes (.connect (Client.connectMessage c.state.connectOpts))) :
    Consistent (client.react c rest c.state.anonymous) := by
  have hrx : c.state.anonymous.state.rx = .receiving := by
    rw [(submits_anonymous c.state).rx]
    rcases h.receiving (by simp [hmain]) with hreceiving | ⟨-, after, htop⟩
    · exact hreceiving
    · rw [hstack] at htop
      cases htop
  obtain ⟨d, hsame, hanonymous⟩ := Client.anonymous_of_encodes hmain hencodes
  rw [hanonymous] at hrx ⊢
  have hraises : Raises Nested [Call.anonymous] := .nothing (by simp [Plain])
  have hhandshaking : d.main = .handshaking := hsame.main
  refine ⟨h.nested_react hstack hraises, fun _ => .inl hrx, ?_, ?_, ?_, ?_⟩
  · exact fun hstart => by cases hhandshaking.symm.trans hstart
  · rintro ⟨region, hmem⟩
    rcases Program.mem_react hmem with hmem | hmem
    · exact absurd hmem (hraises.not_mem id)
    · rcases h.disconnecting ⟨region, by rw [hstack]; exact List.mem_cons_of_mem _ hmem⟩ with
        ⟨hall, -⟩ | ⟨-, hidle⟩
      · rw [hstack] at hall
        cases hall
      · cases hmain.symm.trans hidle
  · intro hlast
    cases hmain.symm.trans (h.disconnected hlast)
  · have hbefore := h.connects
    rw [if_pos hmain] at hbefore
    change (Effect.sent (.connect _) .message :: c.log).countP isHandshake =
      (Effect.sent (.connect _) .message :: c.log).countP isConnect +
        if d.main = .startHandshake then 1 else 0
    rw [hhandshaking, List.countP_cons, List.countP_cons, hbefore]
    rfl

/-- A timer region's turn calls nothing and does not throw. -/
theorem respond_timer {c : Client} {region : Region} {e : Event} {a : Action} {r : Reaction}
    (h : c.respond (.dispatch region e) a = some r) (hmain : region ≠ .main)
    (hrx : region ≠ .rx) : r.calls = [] ∧ r.threw = false := by
  cases a <;> cases h
  cases region with
  | main => exact absurd rfl hmain
  | rx => exact absurd rfl hrx
  | ping => exact ⟨dispatch_ping_calls c e, (c.quiet_ping e).threw⟩
  | keepAlive => exact ⟨dispatch_keepAlive_calls c e, (c.quiet_keepAlive e).threw⟩

/-- The reader only brings packets to the regions. -/
theorem respond_reader {c : Client} {a : Action} {r : Reaction}
    (h : c.respond .receiveOneMessage a = some r) :
    r.threw = false ∧ ∀ call ∈ r.calls, Opening call ∨ call = .anonymous := by
  cases a with
  | buffered packet =>
    cases h
    exact ⟨rfl, by simp [Client.processEvent, Opening]⟩
  | suspend =>
    cases h
    exact ⟨rfl, by simp⟩
  | _ => cases h

/-- Any call but a turn of the two regions and the transition that starts the handshake. -/
theorem consistent_call {c : Config} (h : Consistent c) {call : Call} {rest : List Call}
    (hstack : c.stack = call :: rest) {a : Action} {r : Reaction}
    (hr : c.state.respond call a = some r) (hmain : ∀ e, call ≠ .dispatch .main e)
    (hrx : ∀ e, call ≠ .dispatch .rx e)
    (hanonymous : c.state.main = .startHandshake → call ≠ .anonymous) :
    Consistent (client.react c rest r) := by
  have hsame : r.state.main = c.state.main ∧ ∀ e ∈ r.effects, Unseen e := by
    cases Client.respond_turn hr with
    | main e => exact absurd rfl (hmain e)
    | anonymous hstart => exact absurd rfl (hanonymous hstart)
    | maybeSend =>
      have hsends := c.state.maybeSend_sends
      exact ⟨hsends.state.main, fun e he => unseen_of_sending (hsends.effects e he)⟩
    | operate op =>
      exact ⟨operate_main c.state op,
        fun e he => unseen_of_requested (operate_effects c.state op e he)⟩
    | close => exact ⟨rfl, by simp [Client.close, Unseen, isConnect]⟩
    | quiet _ _ _ hquiet =>
      exact ⟨hquiet.same.main, fun e he => unseen_of_quiet (hquiet.effects e he)⟩
  refine h.other hstack hsame.1 ?_ hsame.2 (respond_raises hr) ?_ ?_
  · intro hidle
    rw [(respond_submits hr hrx).rx]
    rcases h.receiving hidle with hreceiving | ⟨-, after, htop⟩
    · exact hreceiving
    · rw [hstack] at htop
      injection htop with heq
      exact absurd heq (hrx _)
  · rintro region rfl
    have hne : region ≠ .main := fun heq => hmain .disconnect (by rw [heq])
    exact ⟨hne, respond_timer hr hne fun heq => hrx .disconnect (by rw [heq])⟩
  · intro hstart
    have hopens := h.opening hstart
    rw [hstack] at hopens
    obtain ⟨hopening, -⟩ := (opens_cons.mp hopens).resolve_left (hanonymous hstart)
    refine ⟨hanonymous hstart, ?_⟩
    cases call with
    | dispatch region e =>
      obtain ⟨hcalls, hthrew⟩ := respond_timer hr (fun heq => hmain e (by rw [heq]))
        (fun heq => hrx e (by rw [heq]))
      exact ⟨hthrew, by simp [hcalls]⟩
    | receiveOneMessage => exact respond_reader hr
    | _ => exact hopening.elim

/-- What the event loop delivers. -/
theorem consistent_arrive {c : Config} (h : Consistent c) (hstack : c.stack = []) {a : Action}
    {r : Reaction} (hr : c.state.arrive a = some r) : Consistent (client.react c [] r) := by
  have hquiet := Client.arrive_quiet hr
  have hmain := hquiet.same.main
  have heffects : ∀ e ∈ r.effects, Unseen e := fun e he => unseen_of_quiet (hquiet.effects e he)
  have hstart : c.state.main ≠ .startHandshake := by
    intro hstart
    have hopens := h.opening hstart
    rw [hstack] at hopens
    exact hopens
  have hcalls := arrive_calls hr
  rw [Program.react_of_not_threw hquiet.threw, List.append_nil]
  constructor
  · rcases hcalls with hplain | ⟨e, he⟩
    · have hnested : WellNested (r.calls ++ []) := WellNested.plain hplain trivial
      rwa [List.append_nil] at hnested
    · have hraises : Raises (fun _ => True) r.calls := by
        rw [he]
        exact .event e [] trivial plain_nil
      have hnested : WellNested (r.calls ++ []) := WellNested.raises hraises trivial
      rwa [List.append_nil] at hnested
  · intro hidle
    change r.state.main ≠ .idle at hidle
    rw [hmain] at hidle
    rcases h.receiving hidle with hreceiving | ⟨hstart', -⟩
    · exact .inl ((arrive_rx hr).trans hreceiving)
    · exact absurd hstart' hstart
  · exact fun hstart' => absurd (hmain.symm.trans hstart') hstart
  · rintro ⟨region, hmem⟩
    rcases hcalls with hplain | ⟨e, he⟩
    · exact absurd hmem (hplain region .disconnect)
    · refine .inl ⟨?_, fun hstart' => hstart (hmain.symm.trans hstart')⟩
      change r.calls = _
      change _ ∈ r.calls at hmem
      rw [he] at hmem ⊢
      have hdisconnect : e = .disconnect := by
        by_contra hne
        have hraises : Raises (· = e) (broughtToAll e) := .event e [] rfl plain_nil
        exact hraises.not_mem (Ne.symm hne) hmem
      rw [hdisconnect]
  · exact h.disconnected_unseen heffects hmain
  · exact h.connects_unseen heffects hmain

/-- A disconnect reaches no region while the client is connected, and the CONNECT that a
handshake sends can be encoded. -/
def undisturbed (c : Config) (_ : Action) : Bool :=
  match c.stack with
  | .dispatch .main .disconnect :: _ => c.state.main ≠ .connected
  | .anonymous :: _ => c.state.main ≠ .startHandshake ||
      Encodes (.connect (Client.connectMessage c.state.connectOpts))
  | _ => true

theorem consistent_run {c d : Config} (h : Consistent c)
    (run : client.Run (fun c a => undisturbed c a) c d) : Consistent d := by
  apply run.invariant h
  · intro c a r hc _ hstack hr
    exact consistent_arrive hc hstack hr
  · intro c a call rest r hc hok hstack hr
    by_cases hrx : ∃ e, call = .dispatch .rx e
    · obtain ⟨e, rfl⟩ := hrx
      exact consistent_rx hc hstack (respond_rx hr) (respond_raises hr)
    by_cases hmain : ∃ e, call = .dispatch .main e
    · obtain ⟨e, rfl⟩ := hmain
      cases Client.respond_turn hr with
      | main e r hturn =>
        apply consistent_main hc hstack hturn
        rintro rfl
        simpa [undisturbed, hstack] using hok
      | quiet _ _ _ _ hcall => exact absurd rfl (hcall.2.2 e)
    by_cases hanonymous : call = .anonymous ∧ c.state.main = .startHandshake
    · obtain ⟨rfl, hstart⟩ := hanonymous
      have hencodes : Encodes (.connect (Client.connectMessage c.state.connectOpts)) := by
        simpa [undisturbed, hstack, hstart] using hok
      have hr' : r = c.state.anonymous := by
        cases a <;> cases hr
        rfl
      rw [hr']
      exact consistent_anonymous hc hstack hstart hencodes
    · exact consistent_call hc hstack hr (fun e he => hmain ⟨e, he⟩) (fun e he => hrx ⟨e, he⟩)
        fun hstart hcall => hanonymous ⟨hcall, hstart⟩

/-- In every run in which no disconnect reaches a connected client and every CONNECT can be
encoded: a connected client reads; after a disconnect it is not connected, and connecting it
raises a handshake event; at rest, each handshake event that came while idle has sent a
CONNECT. -/
theorem connection_follows_disconnection {c : Config}
    (run : client.Run (fun c a => undisturbed c a) initial c) :
    (c.state.isConnected = true → c.state.rx = .receiving) ∧
    (lastEvent c.log = some .disconnect → c.state.isConnected = false ∧
      c.state.main = .idle ∧ c.state.startConnect = c.state.processEvent .handshake) ∧
    (c.stack = [] → c.log.countP isHandshake = c.log.countP isConnect) := by
  have hconsistent := consistent_run consistent_initial run
  refine ⟨?_, ?_, ?_⟩
  · intro hconnected
    have hmain : c.state.main = .connected := of_decide_eq_true hconnected
    rcases hconsistent.receiving (by simp [hmain]) with hreceiving | ⟨hstart, -⟩
    · exact hreceiving
    · cases hmain.symm.trans hstart
  · intro hlast
    have hidle := hconsistent.disconnected hlast
    have hconnected : c.state.isConnected = false := by simp [Client.isConnected, hidle]
    refine ⟨hconnected, hidle, ?_⟩
    rw [Client.startConnect, if_neg (by simp [hconnected])]
  · intro hstack
    have hconnects := hconsistent.connects
    rw [if_neg] at hconnects
    · exact hconnects
    · intro hstart
      have hopens := hconsistent.opening hstart
      rw [hstack] at hopens
      exact hopens

/-- Nobody answers the CONNECT until the timer expires. -/
def unanswered : List Action := connectActions ++ .connectAndPingTimer :: List.replicate 5 .run

/-- Two handshakes that nobody answers. -/
theorem connection_follows_disconnection_unanswered : ∃ c : Config,
    client.Run (fun c a => undisturbed c a) initial c ∧ c.stack = [] ∧
      c.state.isConnected = false ∧ c.log.countP isConnect = 2 := by
  have hsteps : (client.stepsWhile undisturbed initial (unanswered ++ unanswered)).map
      (fun c => (c.stack, lastEvent c.log, c.log.countP isHandshake)) =
        some ([], some .disconnect, 2) := by decide +kernel
  obtain ⟨c, hc, hfacts⟩ := Option.map_eq_some_iff.mp hsteps
  simp only [Prod.mk.injEq] at hfacts
  obtain ⟨hstack, hlast, hhandshakes⟩ := hfacts
  have run := Program.Run.of_stepsWhile _ hc
  obtain ⟨-, hdisconnected, hconnects⟩ := connection_follows_disconnection run
  exact ⟨c, run, hstack, (hdisconnected hlast).1, by rw [← hconnects hstack, hhandshakes]⟩

/-- The server closes the connection; the client stays connected and no longer reads. -/
theorem connection_outlives_disconnection : ¬ ∀ c : Config,
    client.Run (fun _ _ => True) initial c →
    (c.state.isConnected = true → c.state.rx = .receiving) ∧
    (lastEvent c.log = some .disconnect → c.state.isConnected = false) := by
  intro hfollows
  have hsteps : (client.stepsWhile (fun _ _ => true) initial
      (handshakeActions { flags := 0, reasonCode := 0 } ++ [.run] ++ settleActions ++
        .readDone :: List.replicate 5 .run)).map
      (fun c => (c.stack, lastEvent c.log, c.state.isConnected, c.state.rx)) =
        some ([], some .disconnect, true, .idle) := by decide +kernel
  obtain ⟨c, hc, hfacts⟩ := Option.map_eq_some_iff.mp hsteps
  simp only [Prod.mk.injEq] at hfacts
  obtain ⟨-, hlast, hconnected, hrx⟩ := hfacts
  have hreceiving := (hfollows c
    ((Program.Run.of_stepsWhile _ hc).mono fun _ _ _ => trivial)).1 hconnected
  rw [hrx] at hreceiving
  cases hreceiving

end Mqtt5.ClientConnection
