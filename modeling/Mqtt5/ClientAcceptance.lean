import Mqtt5.ClientCycles

/-!
# Which CONNACK connects

The transition from `handshaking` to `connected` asks for a CONNACK and not for its reason
code, so the first CONNACK connects whatever the server says in it.
-/
namespace Mqtt5.ClientAcceptance
open WirePrimitives WirePublish WireConnect WireControlPacket CallMachine ClientState ClientSession
open ClientStream ClientCycles

/-- The main region's turn for a CONNACK. -/
structure Taken where
  connack : Connack
  before : Config
  after : Config

def note (c : Config) (a : Action) (d : Config) : List Taken :=
  match c.stack, a with
  | .dispatch .main (.packetReceived (.connack connack)) :: _, .run => [⟨connack, c, d⟩]
  | _, _ => []

namespace Taken

/-- The turn is the one the handshake waits for. -/
def Answers (t : Taken) : Prop := t.before.state.main = .handshaking

/-- Nothing came of the turn. -/
def Ignored (t : Taken) : Prop :=
  t.after.state = t.before.state ∧ t.after.stack = t.before.stack.tail

end Taken

/-- The client is connected, has started a cycle or has called back a caller with success. -/
def Connects (c : Config) : Prop :=
  c.state.isConnected = true ∨ c.state.ping = .waiting ∨ c.state.keepAlive = .waiting ∨
    ∃ receiver, .connector receiver true ∈ c.log

/-- Only a CONNACK that says success connects, and any other leaves the client as it was. -/
structure OnlyAccepted (notes : List Taken) (c : Config) : Prop where
  connects : Connects c → ∃ t ∈ notes, t.Answers ∧ t.connack.reasonCode = 0
  refused : ∀ t ∈ notes, t.connack.reasonCode ≠ 0 → t.Ignored

/-! ## Every CONNACK -/

/-- A CONNACK connects where it answers the handshake, and elsewhere nothing comes of it. -/
theorem connack_turn {c : Config} {connack : Connack} {rest : List Call}
    (hstack : c.stack = .dispatch .main (.packetReceived (.connack connack)) :: rest) {r : Reaction}
    (hr : client.respond c.state (.dispatch .main (.packetReceived (.connack connack))) .run =
      some r) :
    (c.state.main = .handshaking → r.state.main = .connected) ∧
      (c.state.main ≠ .handshaking → (⟨connack, c, client.react c rest r⟩ : Taken).Ignored) := by
  constructor
  · intro hmain
    cases hr
    obtain ⟨_, _, hack⟩ := { c.state with main := .connected }.handleConnack_eq connack
    rw [dispatch_connack hmain, withEntry, hack]
  · intro hmain
    obtain ⟨turn, hturn, hdispatch⟩ := c.state.dispatch_main (.packetReceived (.connack connack))
    have hignored : turn = { state := c.state } := by
      cases hturn with
      | packet => rfl
      | connack _ h => exact absurd h hmain
      | ignored => rfl
    cases hr
    rw [hdispatch, hignored, Program.react_of_not_threw rfl]
    exact ⟨rfl, by rw [hstack]; rfl⟩

/-- The main region is connected after a turn that left it so, or that took a CONNACK. -/
theorem respond_connects {c : Client} {call : Call} {a : Action} {r : Reaction}
    (h : client.respond c call a = some r) (hmain : r.state.main = .connected) :
    c.main = .connected ∨ c.main = .handshaking ∧ a = .run ∧
      ∃ connack, call = .dispatch .main (.packetReceived (.connack connack)) := by
  have hmove := respond_move h
  rw [hmain] at hmove
  generalize c.main = main at hmove
  cases hmove with
  | stay => exact .inl rfl
  | connack p => exact .inr ⟨rfl, rfl, p, rfl⟩

/-- What the CONNACKs so far have to do with the client. -/
structure Answered (notes : List Taken) (c : Config) : Prop where
  connected : c.state.main = .connected → ∃ t ∈ notes, t.Answers
  answering : ∀ t ∈ notes, t.Answers → t.after.state.main = .connected
  otherwise : ∀ t ∈ notes, ¬ t.Answers → t.Ignored

theorem Answered.react {notes : List Taken} {c : Config} (h : Answered notes c) {call : Call}
    {rest : List Call} (hstack : c.stack = call :: rest) {a : Action} {r : Reaction}
    (hr : client.respond c.state call a = some r) :
    Answered (note c a (client.react c rest r) ++ notes) (client.react c rest r) := by
  by_cases htaken : a = .run ∧
      ∃ connack, call = .dispatch .main (.packetReceived (.connack connack))
  · obtain ⟨rfl, connack, rfl⟩ := htaken
    obtain ⟨hconnects, hignored⟩ := connack_turn hstack hr
    simp only [note, hstack, List.singleton_append]
    refine ⟨fun hmain => ?_, ?_, ?_⟩
    · rcases respond_connects hr hmain with hconnected | ⟨hhandshaking, -⟩
      · obtain ⟨t, ht, hanswers⟩ := h.connected hconnected
        exact ⟨t, List.mem_cons_of_mem _ ht, hanswers⟩
      · exact ⟨_, List.mem_cons_self, hhandshaking⟩
    · intro t ht
      rcases List.mem_cons.mp ht with rfl | ht
      · exact hconnects
      · exact h.answering t ht
    · intro t ht
      rcases List.mem_cons.mp ht with rfl | ht
      · exact hignored
      · exact h.otherwise t ht
  · have hnote : note c a (client.react c rest r) = [] := by
      unfold note
      rw [hstack]
      split
      · rename_i connack _ heq
        injection heq with heq
        exact absurd ⟨rfl, connack, heq⟩ htaken
      · rfl
    rw [hnote, List.nil_append]
    refine ⟨fun hmain => ?_, h.answering, h.otherwise⟩
    rcases respond_connects hr hmain with hconnected | ⟨-, ha⟩
    · exact h.connected hconnected
    · exact absurd ha htaken

theorem answered_run {notes : List Taken} {c : Config} (run : client.Observed note initial notes c) :
    Answered notes c := by
  apply run.invariant (I := Answered)
  · constructor
    · intro hmain
      cases hmain
    · simp
    · simp
  · intro notes c a r _ hc hstack hr
    have hnote : note c a (client.react c [] r) = [] := by
      unfold note
      rw [hstack]
    rw [hnote, List.nil_append]
    refine ⟨fun hmain => ?_, hc.answering, hc.otherwise⟩
    exact hc.connected ((Client.arrive_quiet hr).same.main.symm.trans hmain)
  · intro notes c a call rest r _ hc hstack hr
    exact hc.react hstack hr

/-! ## The reason code -/

/-- A client that is not connected has nothing of what only a connection brings. -/
theorem connected_of_connects {ok : Config → Action → Prop} {c : Config}
    (run : client.Run ok initial c) (h : Connects c) : c.state.main = .connected := by
  by_contra hmain
  have hunconnected := unconnected_run run hmain
  rcases h with h | h | h | ⟨receiver, h⟩
  · exact hmain (by simpa [Client.isConnected] using h)
  · cases hunconnected.ping.symm.trans h
  · cases hunconnected.keepAlive.symm.trans h
  · exact hunconnected.log _ h trivial

/-- Only accepting CONNACKs connect in a run if and only if every CONNACK that answered its
handshake says success. -/
theorem only_accepted_iff {notes : List Taken} {c : Config}
    (run : client.Observed note initial notes c) :
    OnlyAccepted notes c ↔ ∀ t ∈ notes, t.Answers → t.connack.reasonCode = 0 := by
  have hanswered := answered_run run
  constructor
  · intro h t ht hanswers
    by_contra hcode
    have hconnected := hanswered.answering t ht hanswers
    rw [(h.refused t ht hcode).1, hanswers] at hconnected
    cases hconnected
  · intro hcodes
    constructor
    · intro hconnects
      obtain ⟨t, ht, hanswers⟩ := hanswered.connected (connected_of_connects run.run hconnects)
      exact ⟨t, ht, hanswers, hcodes t ht hanswers⟩
    · intro t ht hcode
      exact hanswered.otherwise t ht fun hanswers => hcode (hcodes t ht hanswers)

/-- A CONNACK without properties. -/
def answer (reasonCode : UInt8) : Connack where
  flags := 0
  reasonCode := reasonCode

theorem only_accepted_success : ∃ t c, client.Observed note initial [t] c ∧ t.Answers ∧
    Connects c ∧ OnlyAccepted [t] c := by
  have hsteps : ∃ t c, client.observe note [] initial (handshakeActions (answer 0) ++ [.run]) =
      some ([t], c) ∧ t.Answers ∧ t.connack.reasonCode = 0 ∧ c.state.main = .connected :=
    ⟨_, _, rfl, rfl, rfl, rfl⟩
  obtain ⟨t, c, hc, hanswers, hcode, hmain⟩ := hsteps
  have run := Program.Observed.of_observe _ .refl hc
  have hconnected : c.state.isConnected = true := by simp [Client.isConnected, hmain]
  refine ⟨t, c, run, hanswers, .inl hconnected, (only_accepted_iff run).mpr ?_⟩
  intro t' ht' _
  rw [List.mem_singleton.mp ht']
  exact hcode

/-- The server is not authorized to let the client in, and the client is connected. -/
theorem refused_connects : ∃ t c, client.Observed note initial [t] c ∧
    t.connack.reasonCode = 135 ∧ c.state.isConnected = true ∧ ¬ OnlyAccepted [t] c := by
  have hsteps : ∃ t c, client.observe note [] initial (handshakeActions (answer 135) ++ [.run]) =
      some ([t], c) ∧ t.connack.reasonCode = 135 ∧ t.Answers ∧ c.state.main = .connected :=
    ⟨_, _, rfl, rfl, rfl, rfl⟩
  obtain ⟨t, c, hc, hcode, hanswers, hmain⟩ := hsteps
  refine ⟨t, c, .of_observe _ .refl hc, hcode, by simp [Client.isConnected, hmain], fun h => ?_⟩
  have hconnected : c.state.isConnected = true := by simp [Client.isConnected, hmain]
  obtain ⟨t', ht', -, hsuccess⟩ := h.connects (.inl hconnected)
  rw [List.mem_singleton.mp ht', hcode] at hsuccess
  cases hsuccess

end Mqtt5.ClientAcceptance
