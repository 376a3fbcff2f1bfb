import Mathlib.Logic.Relation
import Mqtt5.ClientReads
import Mqtt5.WireStreams

/-!
# What the client reads

The bytes of the server beside the client. Each packet that the main region gets is one that a
reader cut off the bytes that arrived; here the readers are run on these bytes, and the
packets are compared with the ones that the bytes carry.
-/
namespace Mqtt5.ClientFeed
open WirePrimitives WireHeader WireConnect WireControlPacket CallMachine ChunkedInput WireFraming WireStreams
open ClientState ClientSession ClientStream ClientExceptions ClientReads

/-! ## The packets that the main region gets -/

def packetOf : Effect → Option ControlPacket
  | .event (.packetReceived p) _ => some p
  | _ => none

/-- The packet that is about to reach the main region. -/
def onItsWay : Call → Option ControlPacket
  | .dispatch .main (.packetReceived p) => some p
  | _ => none

/-- The packets that the main region got, the first one first, and those it is about to get. -/
def taken (c : Config) : List ControlPacket :=
  (c.log.filterMap packetOf).reverse ++ c.stack.filterMap onItsWay

/-- A packet is brought to the main region before anything else is done. -/
def Prompt (c : Config) : Prop := ∀ call ∈ c.stack.tail, onItsWay call = none

/-- The packet that a step takes from a reader. -/
def yields : Action → List ControlPacket
  | .buffered p | .readValue p => [p]
  | _ => []

/-- A packet is noted as the event that brings it. -/
theorem packets_events (effects : List Effect) : effects.filterMap packetOf =
    (effects.filterMap eventOf).filterMap fun noted => onItsWay (.dispatch .main noted.1) := by
  have hnoted : packetOf = fun e => (eventOf e).bind fun noted => onItsWay (.dispatch .main noted.1) := by
    funext e
    cases e with
    | event event main => cases event <;> rfl
    | _ => rfl
  rw [hnoted, ← List.filterMap_filterMap]

theorem respond_packets {c : Client} {call : Call} {a : Action} {r : Reaction}
    (h : c.respond call a = some r) :
    r.effects.filterMap packetOf = (onItsWay call).toList := by
  rw [packets_events, respond_events h]
  cases call with
  | dispatch region e => cases region <;> cases e <;> rfl
  | _ => rfl

theorem arrive_packets {c : Client} {a : Action} {r : Reaction} (h : c.arrive a = some r) :
    r.effects.filterMap packetOf = [] := by
  rw [packets_events, arrive_events h]
  rfl

/-- An event that is brought to the main region is brought to the receive region as well. -/
theorem not_onItsWay {E : Event → Prop} {calls : List Call} (hraises : Raises E calls)
    (h : ∀ call ∈ calls, isReader call = false) : ∀ call ∈ calls, onItsWay call = none := by
  intro call hcall
  cases hraises with
  | nothing hplain =>
    cases call with
    | dispatch region e => exact absurd hcall (hplain region e)
    | _ => rfl
  | event e after _ hplain =>
    obtain hcall | hcall := List.mem_append.mp hcall
    · have hrx : .dispatch .rx e ∈ broughtToAll e := by simp [broughtToAll]
      have hreader := h _ (List.mem_append_left after hrx)
      simp only [broughtToAll, List.mem_cons, List.not_mem_nil, or_false] at hcall
      obtain rfl | rfl | rfl | rfl | rfl := hcall
      case inl =>
        cases e with
        | packetReceived p => cases hreader
        | _ => rfl
      all_goals rfl
    · cases call with
      | dispatch region e => exact absurd hcall (hplain region e)
      | _ => rfl

/-- The calls of a reaction that takes `packets` from a reader. -/
structure Brings (packets : List ControlPacket) (calls : List Call) : Prop where
  packets : calls.filterMap onItsWay = packets
  first : ∀ call ∈ calls.tail, onItsWay call = none

theorem brings_nothing {calls : List Call} (h : ∀ call ∈ calls, onItsWay call = none) :
    Brings [] calls :=
  ⟨List.filterMap_eq_nil_iff.mpr h, fun call hcall => h call (List.mem_of_mem_tail hcall)⟩

theorem brings_packet (p : ControlPacket) : Brings [p] (broughtToAll (.packetReceived p)) :=
  ⟨rfl, by simp [broughtToAll, onItsWay]⟩

/-- Who is not a reader yields no packet. -/
theorem yields_nothing {c : Client} {call : Call} {a : Action} {r : Reaction}
    (h : c.respond call a = some r) (hcall : isReader call = false) : yields a = [] := by
  cases a with
  | buffered =>
    cases call <;> cases h
    cases hcall
  | readValue => cases call <;> cases h
  | _ => rfl

theorem respond_brings {c : Client} {call : Call} {a : Action} {r : Reaction}
    (h : c.respond call a = some r) : Brings (yields a) r.calls := by
  have hraises := respond_raises h
  cases respond_read h with
  | rx e =>
    apply brings_nothing
    have hturn := dispatch_rx c e
    generalize c.dispatch e .rx = r at hturn
    cases hturn <;> simp [onItsWay]
  | buffered p => exact brings_packet p
  | suspend => exact brings_nothing (by simp)
  | other call a r huntouched hcall =>
    rw [yields_nothing h hcall]
    exact brings_nothing (not_onItsWay hraises huntouched.calls)

theorem yields_arrival {c : Client} {a : Action} {r : Reaction} (h : c.arrive a = some r)
    (hvalue : ∀ p, a ≠ .readValue p) : yields a = [] := by
  cases a with
  | buffered => cases h
  | readValue p => exact absurd rfl (hvalue p)
  | _ => rfl

theorem arrive_brings {c : Client} {a : Action} {r : Reaction} (h : c.arrive a = some r) :
    Brings (yields a) r.calls := by
  have hcalls := arrive_calls h
  cases arrive_read h with
  | value p => exact brings_packet p
  | done => exact brings_nothing (by simp [Client.processEvent, onItsWay])
  | other a r huntouched hvalue =>
    have hraises : Raises (fun _ => True) r.calls := by
      obtain hplain | ⟨e, he⟩ := hcalls
      · exact .nothing hplain
      · rw [he]
        exact .event e [] trivial plain_nil
    rw [yields_arrival h hvalue]
    exact brings_nothing (not_onItsWay hraises huntouched.calls)

theorem mem_tail_append {α : Type} {xs ys : List α} {x : α} (h : x ∈ (xs ++ ys).tail) :
    x ∈ xs.tail ∨ x ∈ ys := by
  cases xs with
  | nil => exact .inr (List.mem_of_mem_tail h)
  | cons => exact List.mem_append.mp h

/-- What one step takes from a reader is all that is new to the main region. -/
theorem step_taken {c d : Config} (hc : Prompt c) {a : Action} (h : client.step c a = some d) :
    Prompt d ∧ taken d = taken c ++ yields a := by
  cases Program.step_stepped h with
  | arrive r hstack hr =>
    have hbrings := arrive_brings hr
    have hthrew : r.threw = false := (Client.arrive_quiet hr).threw
    have heffects := arrive_packets hr
    rw [Program.react_of_not_threw hthrew]
    constructor
    · intro call hcall
      exact hbrings.first call (by simpa using hcall)
    · simp [taken, hstack, heffects, hbrings.packets]
  | respond call rest r hstack hr =>
    have hbrings := respond_brings hr
    have hrest : ∀ call ∈ rest, onItsWay call = none := by
      intro call hcall
      exact hc call (by rw [hstack]; exact hcall)
    have hstart : taken c = (c.log.filterMap packetOf).reverse ++ (onItsWay call).toList := by
      rw [taken, hstack, List.filterMap_cons, List.filterMap_eq_nil_iff.mpr hrest]
      cases onItsWay call <;> rfl
    have hlog : ((r.effects ++ c.log).filterMap packetOf).reverse = taken c := by
      rw [List.filterMap_append, List.reverse_append, respond_packets hr, hstart]
      cases onItsWay call <;> rfl
    cases hthrew : r.threw with
    | false =>
      rw [Program.react_of_not_threw hthrew]
      constructor
      · intro call hcall
        obtain hcall | hcall := mem_tail_append hcall
        · exact hbrings.first call hcall
        · exact hrest call hcall
      · change ((r.effects ++ c.log).filterMap packetOf).reverse ++
          (r.calls ++ rest).filterMap onItsWay = _
        rw [hlog, List.filterMap_append, hbrings.packets, List.filterMap_eq_nil_iff.mpr hrest,
          List.append_nil]
    | true =>
      have hyields : yields a = [] := by
        cases a with
        | buffered =>
          cases call <;> cases hr
          cases hthrew
        | readValue => cases call <;> cases hr
        | _ => rfl
      have hunwound : ∀ call ∈ client.unwind rest, onItsWay call = none := fun call hcall =>
        hrest call ((Program.unwind_sublist rest).subset hcall)
      rw [Program.react, if_pos hthrew]
      constructor
      · exact fun call hcall => hunwound call (List.mem_of_mem_tail hcall)
      · change ((r.effects ++ c.log).filterMap packetOf).reverse ++
          (client.unwind rest).filterMap onItsWay = _
        rw [hlog, List.filterMap_eq_nil_iff.mpr hunwound, hyields]

/-! ## The client and its input -/

/-- The client and what it has read. The readers of the client share one input, so a step is
that of a client with one reader. -/
structure Fed where
  config : Config := initial
  /-- `read_buffer_`, and what has come in since the reader began to wait. -/
  input : Input UInt8 := ⟨[], []⟩
  /-- All that has come in so far. -/
  received : Bytes := []

inductive FedAction
  | client (a : Action)
  /-- The stream has read more bytes. -/
  | receive (chunk : Bytes)

namespace Fed

/-- A reader finds a packet in the buffer, or waits. One that fails ends the program. -/
def allows (w : Fed) : Action → Bool
  | .buffered p => match controlPacketReader w.input with
    | .packet q _ => q = p
    | _ => false
  | .suspend | .readDone => match controlPacketReader w.input with
    | .waiting _ _ => true
    | _ => false
  | .readValue _ => false
  | _ => true

/-- The input once a reader has ended. One that is stopped has taken its header with it. -/
def left (w : Fed) : Action → Input UInt8
  | .buffered _ => match controlPacketReader w.input with
    | .packet _ left => left
    | _ => w.input
  | .readDone => match controlPacketReader w.input with
    | .waiting _ buffer => ⟨buffer, []⟩
    | _ => w.input
  | _ => w.input

/-- The input with one more chunk. -/
def fed (w : Fed) (chunk : Bytes) : Input UInt8 :=
  { w.input with chunks := w.input.chunks ++ [chunk] }

def step (w : Fed) : FedAction → Option Fed
  | .client a =>
      if w.allows a then
        (client.step w.config a).map fun config => { w with config, input := w.left a }
      else none
  | .receive chunk =>
      if w.config.stack = [] ∧ w.config.state.pendingReads ≠ 0 then
        let received := w.received ++ chunk
        match controlPacketReader (w.fed chunk) with
        | .packet p left =>
            (client.step w.config (.readValue p)).map fun config => { config, input := left, received }
        | .waiting _ _ => some { w with input := w.fed chunk, received }
        | .failed _ => none
      else none

/-- The runs whose steps all satisfy `ok`. -/
abbrev Run (ok : Fed → FedAction → Bool) : Fed → Fed → Prop :=
  Relation.ReflTransGen fun v u => ∃ a, ok v a = true ∧ v.step a = some u

end Fed

/-- No reader is stopped. -/
def Fed.stays (_ : Fed) : FedAction → Bool
  | .client .readDone => false
  | _ => true

theorem Fed.fed_rest (w : Fed) (chunk : Bytes) : (w.fed chunk).rest = w.input.rest ++ chunk := by
  simp [Fed.fed, Input.rest]

/-- Everything a step can be. -/
inductive FedStep (w : Fed) : FedAction → Fed → Prop
  | client (a : Action) (config : Config) (hallows : w.allows a = true)
      (h : client.step w.config a = some config) :
      FedStep w (.client a) { w with config, input := w.left a }
  | packet (chunk : Bytes) (p : ControlPacket) (left : Input UInt8) (config : Config)
      (hread : controlPacketReader (w.fed chunk) = .packet p left)
      (h : client.step w.config (.readValue p) = some config) :
      FedStep w (.receive chunk) { config, input := left, received := w.received ++ chunk }
  | waiting (chunk : Bytes) (header : Option Header) (buffer : Bytes)
      (hread : controlPacketReader (w.fed chunk) = .waiting header buffer) :
      FedStep w (.receive chunk) { w with input := w.fed chunk, received := w.received ++ chunk }

theorem fedStep_of_step {w u : Fed} {a : FedAction} (h : w.step a = some u) : FedStep w a u := by
  cases a with
  | client a =>
    rw [Fed.step] at h
    split at h
    case isTrue hallows =>
      obtain ⟨config, hconfig, rfl⟩ := Option.map_eq_some_iff.mp h
      exact .client a config hallows hconfig
    case isFalse => cases h
  | receive chunk =>
    simp only [Fed.step, Option.ite_none_right_eq_some] at h
    obtain ⟨-, h⟩ := h
    split at h
    case h_1 p left hread =>
      obtain ⟨config, hconfig, rfl⟩ := Option.map_eq_some_iff.mp h
      exact .packet chunk p left config hread hconfig
    case h_2 header buffer hread =>
      cases h
      exact .waiting chunk header buffer hread
    case h_3 => cases h

/-- A step takes the packets it brings to the main region from what was read. -/
theorem step_carries {w u : Fed} {a : FedAction} (h : w.step a = some u) (hstays : w.stays a = true)
    (hw : Prompt w.config) : Prompt u.config ∧ ∃ bytes packets,
      u.received = w.received ++ bytes ∧ taken u.config = taken w.config ++ packets ∧
      Carries (w.input.rest ++ bytes) packets u.input.rest := by
  cases fedStep_of_step h with
  | client a config hallows hconfig =>
    obtain ⟨hprompt, htaken⟩ := step_taken hw hconfig
    refine ⟨hprompt, [], yields a, (List.append_nil _).symm, htaken, ?_⟩
    rw [List.append_nil]
    cases a with
    | buffered p =>
      simp only [Fed.allows] at hallows
      split at hallows
      case h_1 q left hread =>
        rw [← of_decide_eq_true hallows, Fed.left, hread]
        exact controlPacketReader_took hread
      case h_2 => cases hallows
    | readValue => cases hallows
    | readDone => cases hstays
    | _ => exact .nil _
  | packet chunk p left config hread hconfig =>
    obtain ⟨hprompt, htaken⟩ := step_taken hw hconfig
    refine ⟨hprompt, chunk, [p], rfl, htaken, ?_⟩
    rw [← w.fed_rest]
    exact controlPacketReader_took hread
  | waiting chunk header buffer hread =>
    refine ⟨hw, chunk, [], rfl, (List.append_nil _).symm, ?_⟩
    rw [← w.fed_rest]
    exact .nil _

/-- While it is not closed, what is read becomes packets, and bytes that are left. -/
theorem run_carries {ok : Fed → FedAction → Bool} {v w : Fed}
    (run : Fed.Run (fun u a => ok u a && u.stays a) v w) (hv : Prompt v.config) :
    Prompt w.config ∧ ∃ bytes packets,
      w.received = v.received ++ bytes ∧ taken w.config = taken v.config ++ packets ∧
      Carries (v.input.rest ++ bytes) packets w.input.rest := by
  induction run with
  | refl =>
    refine ⟨hv, [], [], (List.append_nil _).symm, (List.append_nil _).symm, ?_⟩
    rw [List.append_nil]
    exact .nil _
  | @tail u w _ hstep ih =>
    obtain ⟨a, hok, hstep⟩ := hstep
    obtain ⟨hprompt, bytes, packets, hbytes, hpackets, hcarries⟩ := ih
    obtain ⟨-, hstays⟩ := Bool.and_eq_true_iff.mp hok
    obtain ⟨hafter, chunk, more, hchunk, hmore, hlast⟩ := step_carries hstep hstays hprompt
    refine ⟨hafter, bytes ++ chunk, packets ++ more, ?_, ?_, ?_⟩
    · rw [hchunk, hbytes, List.append_assoc]
    · rw [hmore, hpackets, List.append_assoc]
    · rw [← List.append_assoc]
      exact (hcarries.more chunk).trans hlast

/-! ## The reader that waits -/

/-- A reader waits for the rest of a packet. -/
def Waits (w : Fed) : Prop :=
  w.config.state.pendingReads ≠ 0 →
    ∃ header buffer, controlPacketReader w.input = .waiting header buffer

/-- A step that finds no second reader, and asks for nothing that cannot be encoded. -/
def Reasonable (c : Config) (a : Action) : Prop :=
  ¬ Restarts c ∧ ∀ op, a = .operate op → Encodable op

/-- The reads that are under way after a step of the client. -/
theorem step_pendingReads {c d : Config} (hc : readers c ≤ 1) {a : Action}
    (h : client.step c a = some d) :
    d.state.pendingReads = 0 ∨ a = .suspend ∨
      d.state.pendingReads = c.state.pendingReads ∧ yields a = [] ∧ a ≠ .readDone := by
  cases Program.step_stepped h with
  | arrive r hstack hr =>
    have hpending : c.state.pendingReads ≤ 1 := by
      rw [readers] at hc
      omega
    cases arrive_read hr with
    | value p => exact .inl (Nat.sub_eq_zero_of_le hpending)
    | done => exact .inl (Nat.sub_eq_zero_of_le hpending)
    | other a r huntouched hvalue hdone =>
      exact .inr (.inr ⟨huntouched.pendingReads, yields_arrival hr hvalue, hdone⟩)
  | respond call rest r hstack hr =>
    have hreaders := readers_cons hstack
    cases respond_read hr with
    | rx e =>
      refine .inr (.inr ⟨?_, rfl, by simp⟩)
      change (c.state.dispatch e .rx).state.pendingReads = _
      have hturn := dispatch_rx c.state e
      generalize c.state.dispatch e .rx = r at hturn
      cases hturn <;> rfl
    | buffered p =>
      left
      change readers c = c.state.pendingReads + (rest.countP isReader + 1) at hreaders
      change c.state.pendingReads = 0
      omega
    | suspend => exact .inr (.inl rfl)
    | other call a r huntouched hcall =>
      refine .inr (.inr ⟨huntouched.pendingReads, yields_nothing hr hcall, ?_⟩)
      rintro rfl
      cases call <;> cases hr

/-- The input that a step leaves, unless it ends a read. -/
theorem left_of_yields {w : Fed} {a : Action} (h : yields a = []) (hdone : a ≠ .readDone) :
    w.left a = w.input := by
  cases a with
  | buffered => cases h
  | readDone => exact absurd rfl hdone
  | _ => rfl

theorem step_waits {w u : Fed} {a : FedAction} (h : w.step a = some u) (hw : Waits w)
    (hreaders : readers w.config ≤ 1) : Waits u := by
  intro hpending
  cases fedStep_of_step h with
  | client a config hallows hconfig =>
    obtain hzero | rfl | ⟨hsame, hyields, hdone⟩ := step_pendingReads hreaders hconfig
    · exact absurd hzero hpending
    · simp only [Fed.allows] at hallows
      split at hallows
      case h_1 header buffer hread => exact ⟨header, buffer, hread⟩
      case h_2 => cases hallows
    · change config.state.pendingReads ≠ 0 at hpending
      change ∃ header buffer, controlPacketReader (w.left a) = .waiting header buffer
      rw [left_of_yields hyields hdone]
      exact hw (hsame ▸ hpending)
  | packet chunk p left config hread hconfig =>
    obtain hzero | hsuspend | ⟨-, hyields, -⟩ := step_pendingReads hreaders hconfig
    · exact absurd hzero hpending
    · cases hsuspend
    · cases hyields
  | waiting chunk header buffer hread => exact ⟨header, buffer, hread⟩

/-! ## Every run -/

theorem prompt_run {ok : Config → Action → Prop} {c : Config} (run : client.Run ok initial c) :
    Prompt c := by
  induction run with
  | refl => simp [Prompt, initial]
  | tail a _ _ hstep ih => exact (step_taken ih hstep).1

/-- A step of the client and its input is one of the client, or none. -/
theorem run_of_fed {ok : Fed → FedAction → Bool} {P : Config → Action → Prop} {w : Fed}
    (run : Fed.Run ok {} w) (hclient : ∀ u a, ok u (.client a) = true → P u.config a)
    (hreceive : ∀ u chunk p, ok u (.receive chunk) = true → P u.config (.readValue p)) :
    client.Run P initial w.config := by
  induction run with
  | refl => exact .refl
  | @tail u w _ hstep ih =>
    obtain ⟨a, hok, hstep⟩ := hstep
    cases fedStep_of_step hstep with
    | client a config _ hconfig => exact .tail a ih (hclient u a hok) hconfig
    | packet chunk p left config _ hconfig => exact .tail _ ih (hreceive u chunk p hok) hconfig
    | waiting => exact ih

theorem reasonable_run {ok : Fed → FedAction → Bool} {w : Fed} (run : Fed.Run ok {} w)
    (hrestart : ∀ u a, ok u a = true → ¬ Restarts u.config)
    (hop : ∀ u op, ok u (.client (.operate op)) = true → Encodable op) :
    client.Run Reasonable initial w.config := by
  apply run_of_fed run
  · intro u a hok
    refine ⟨hrestart u _ hok, ?_⟩
    rintro op rfl
    exact hop u op hok
  · exact fun u chunk p hok => ⟨hrestart u _ hok, by simp⟩

theorem waits_run {ok : Fed → FedAction → Bool} {w : Fed} (run : Fed.Run ok {} w)
    (hrestart : ∀ u a, ok u a = true → ¬ Restarts u.config)
    (hop : ∀ u op, ok u (.client (.operate op)) = true → Encodable op) : Waits w := by
  induction run with
  | refl => exact fun hpending => absurd rfl hpending
  | @tail u w hrun hstep ih =>
    obtain ⟨a, -, hstep⟩ := hstep
    exact step_waits hstep ih (single_run (reasonable_run hrun hrestart hop) fun _ _ h => h.1)

/-- A client at rest whose receive region is receiving has left no complete packet in its
input. -/
theorem incomplete_run {ok : Fed → FedAction → Bool} {w : Fed} (run : Fed.Run ok {} w)
    (hrestart : ∀ u a, ok u a = true → ¬ Restarts u.config)
    (hop : ∀ u op, ok u (.client (.operate op)) = true → Encodable op)
    (hrx : w.config.state.rx = .receiving) (hstack : w.config.stack = []) :
    Incomplete w.input.rest ∧ Ends w.input.rest (controlPacketReader w.input) := by
  have hclient := reasonable_run run hrestart hop
  have hpending : w.config.state.pendingReads ≠ 0 := by
    obtain hone | hleaving := reads_run hclient (fun _ _ h => h.1) (fun _ _ h => h.2) hrx
    · rw [readers, hstack] at hone
      exact ne_of_eq_of_ne hone Nat.one_ne_zero
    · rw [hstack] at hleaving
      cases hleaving
  obtain ⟨header, buffer, hwait⟩ := waits_run run hrestart hop hpending
  obtain ⟨p, frame, left, -, -, hread⟩ | hends := reader_ends w.input
  · rw [hwait] at hread
    cases hread
  · refine ⟨?_, hends⟩
    rw [hwait] at hends
    exact hends.1

def Fed.stepsWhile (ok : Fed → FedAction → Bool) (w : Fed) : List FedAction → Option Fed
  | [] => some w
  | a :: as => if ok w a then (w.step a).bind (stepsWhile ok · as) else none

theorem Fed.run_of_stepsWhile {ok : Fed → FedAction → Bool} {v w : Fed} (as : List FedAction)
    (h : v.stepsWhile ok as = some w) : Fed.Run ok v w := by
  induction as generalizing v with
  | nil =>
    cases h
    exact .refl
  | cons a as ih =>
    rw [stepsWhile] at h
    split at h
    case isTrue hok =>
      obtain ⟨u, hstep, hrest⟩ := Option.bind_eq_some_iff.mp h
      exact .head ⟨a, hok, hstep⟩ (ih hrest)
    case isFalse => cases h

/-- A CONNACK and two PINGRESPs, in chunks that end inside of packets. -/
def pingsFed : List FedAction :=
  connectActions.map .client ++ [.receive [0x20, 3, 0], .receive [0, 0, 0xD0]] ++
    (.run :: settleActions).map .client ++ [.receive [0, 0xD0]] ++
    (.run :: readOn).map .client

def connectsOnlyFed (w : Fed) : FedAction → Bool
  | .client a => connectsOnly w.config a && !decide (Restarts w.config)
  | .receive _ => !decide (Restarts w.config)

end Mqtt5.ClientFeed
