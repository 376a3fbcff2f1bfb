import Mathlib.Data.List.InsertIdx
import Mathlib.Logic.Relation
import Mqtt5.ClientStream
import Mqtt5.OutstandingWrites

/-!
# The bytes on the wire

Every packet is written on its own: `control_packet_writer` is started without waiting for
the writes that are under way, and nothing in the client keeps the order of their parts.
Here the stream is run beside the client, and transmits what it is given in pieces.
-/
namespace Mqtt5.ClientWire
open WirePrimitives WirePublish WireConnect WireControlPacket CallMachine ClientState ClientSession
open ClientActs ClientStream OutstandingWrites

/-- The client and its stream. `outstanding` has the place on the stream of each pending
write, in the order of these. -/
structure Wired where
  config : Config := initial
  stream : Stream UInt8 := {}
  outstanding : List ℕ := []

inductive WireAction
  | client (a : Action)
  /-- The stream transmits `n` more bytes of a pending write. -/
  | transmit (write n : ℕ)

namespace Wired

/-- A write's value comes when its buffer has been transmitted. -/
def allows (w : Wired) : Action → Bool
  | .writeValue i =>
      ((w.outstanding[i]?).bind fun place => w.stream.writes[place]?).any (·.rest.isEmpty)
  | _ => true

/-- The writes that are left when an action has ended one. -/
def remaining (w : Wired) : Action → List ℕ
  | .writeValue i | .writeDone i => w.outstanding.eraseIdx i
  | _ => w.outstanding

def step (w : Wired) : WireAction → Option Wired
  | .client a =>
      if w.allows a then
        (client.step w.config a).map fun config =>
          let outstanding := w.remaining a
          let new := (config.state.pendingWrites.drop outstanding.length).map (·.buffer)
          { config
            stream := w.stream.submit new
            outstanding := outstanding ++ List.range' w.stream.writes.length new.length }
      else none
  | .transmit write n => do
      let place ← w.outstanding[write]?
      let stream ← w.stream.transmit place n
      some { w with stream }

/-- A partial write of a packet before which all packets have been transmitted. -/
def inTurn (w : Wired) : WireAction → Bool
  | .client _ => true
  | .transmit write _ => (w.outstanding[write]?).all fun place =>
      (w.stream.writes.take place).all (·.rest.isEmpty)

/-- The runs from the start whose steps all satisfy `ok`. -/
abbrev Run (ok : Wired → WireAction → Bool) (w : Wired) : Prop :=
  Relation.ReflTransGen (fun v u => ∃ a, ok v a = true ∧ v.step a = some u) {} w

end Wired

def encoded : Effect → Option Bytes
  | .sent packet _ => packet.serialize.result.toOption
  | _ => none

/-- The complete encoded packets, in the order in which they were submitted. -/
def encodedPackets (log : List Effect) : List Bytes := (log.filterMap encoded).reverse

/-- The stream got the packets that the client submitted, and what was put on it is made of
their bytes, those of each packet in their order and once. -/
structure OnTheWire (w : Wired) : Prop where
  packets : w.stream.buffers = encodedPackets w.config.log
  pending : w.outstanding.map (w.stream.buffers[·]?) =
    w.config.state.pendingWrites.map fun write => some write.buffer
  pieces : w.stream.InPieces

/-! ## What the client submits -/

theorem encodedPackets_append (newer older : List Effect) :
    encodedPackets (newer ++ older) = encodedPackets older ++ encodedPackets newer := by
  rw [encodedPackets, List.filterMap_append, List.reverse_append, encodedPackets, encodedPackets]

/-- The writes that acts add are those of the packets they encode. -/
theorem acts_writes {c d : Client} {effects : List Effect} (h : Acts Aside c d effects) :
    ∃ new, d.pendingWrites = c.pendingWrites ++ new ∧
      encodedPackets effects = new.map (·.buffer) := by
  induction h with
  | nothing => exact ⟨[], (List.append_nil _).symm, rfl⟩
  | @write d effects _ packet receiver buffer hbuffer ih =>
    obtain ⟨new, hnew, hencoded⟩ := ih
    have hpacket : encodedPackets [.sent packet receiver] = [buffer] := by
      simp [encodedPackets, encoded, hbuffer, Except.toOption]
    refine ⟨new ++ [⟨buffer, receiver⟩], ?_, ?_⟩
    · change d.pendingWrites ++ _ = _
      rw [hnew, List.append_assoc]
    · rw [← List.singleton_append, encodedPackets_append, hencoded, hpacket, List.map_append]
      rfl
  | exchange _ ih => exact ih
  | @note d effects _ e he ih =>
    have hnothing : encodedPackets [e] = [] := by cases e <;> first | exact he.elim | rfl
    rw [← List.singleton_append, encodedPackets_append, hnothing, List.append_nil]
    exact ih
  | @other d e effects _ he ih =>
    obtain ⟨new, hnew, hencoded⟩ := ih
    exact ⟨new, he.pendingWrites.trans hnew, hencoded⟩

theorem respond_writes {c : Client} {call : Call} {a : Action} {r : Reaction}
    (h : c.respond call a = some r) : ∃ new, r.state.pendingWrites = c.pendingWrites ++ new ∧
      encodedPackets r.effects = new.map (·.buffer) := by
  have hnothing : ∃ new, c.pendingWrites = c.pendingWrites ++ new ∧
      [] = new.map (fun write : PendingWrite => write.buffer) :=
    ⟨[], (List.append_nil _).symm, rfl⟩
  cases respond_acts h with
  | filterSubscribe => exact hnothing
  | waiter => exact hnothing
  | rx e =>
    have hturn := dispatch_rx c e
    generalize c.dispatch e .rx = r at hturn
    cases hturn <;> exact hnothing
  | performs _ _ _ hperforms =>
    cases hperforms with
    | acts _ hacts => exact acts_writes hacts
    | @delivers d effects hacts publish =>
      obtain ⟨new, hnew, hencoded⟩ := acts_writes hacts
      refine ⟨new, hnew, ?_⟩
      rw [← List.singleton_append, encodedPackets_append, hencoded]
      exact List.append_nil _

/-- The writes that are left when an action has ended one. -/
def remainingWrites (c : Client) : Action → List PendingWrite
  | .writeValue i | .writeDone i => c.pendingWrites.eraseIdx i
  | _ => c.pendingWrites

/-- The event loop submits nothing. -/
theorem arrive_writes {c : Client} {a : Action} {r : Reaction} (h : c.arrive a = some r) :
    r.state.pendingWrites = remainingWrites c a ∧ encodedPackets r.effects = [] := by
  cases a with
  | enter =>
    cases h
    exact ⟨rfl, rfl⟩
  | readValue | readDone =>
    simp only [Client.arrive, Option.ite_none_left_eq_some] at h
    obtain ⟨-, h⟩ := h
    cases h
    exact ⟨rfl, rfl⟩
  | writeValue i | writeDone i =>
    obtain ⟨write, -, rfl⟩ := Option.map_eq_some_iff.mp h
    cases write.receiver <;> exact ⟨rfl, rfl⟩
  | connectAndPingTimer | keepAliveTimer =>
    obtain ⟨wait, -, rfl⟩ := Option.map_eq_some_iff.mp h
    exact ⟨rfl, rfl⟩
  | _ => cases h

/-- Code that runs ends no write. -/
theorem remaining_of_respond {c : Client} {call : Call} {a : Action} {r : Reaction}
    (h : c.respond call a = some r) : remainingWrites c a = c.pendingWrites := by
  cases a with
  | writeValue | writeDone => cases call <;> cases h
  | _ => rfl

theorem step_writes {c d : Config} {a : Action} (h : client.step c a = some d) :
    ∃ new, d.state.pendingWrites = remainingWrites c.state a ++ new ∧
      encodedPackets d.log = encodedPackets c.log ++ new.map (·.buffer) := by
  cases Program.step_stepped h with
  | arrive r _ hr =>
    obtain ⟨hwrites, hnothing⟩ := arrive_writes hr
    refine ⟨[], hwrites.trans (List.append_nil _).symm, ?_⟩
    change encodedPackets (r.effects ++ c.log) = _
    rw [encodedPackets_append, hnothing]
    rfl
  | respond call rest r _ hr =>
    obtain ⟨new, hwrites, hencoded⟩ := respond_writes hr
    refine ⟨new, ?_, ?_⟩
    · rw [remaining_of_respond hr]
      exact hwrites
    · change encodedPackets (r.effects ++ c.log) = _
      rw [encodedPackets_append, hencoded]

/-! ## Every run -/

namespace Wired

/-- The places of the writes that an action leaves. -/
theorem remaining_pending {w : Wired} (h : OnTheWire w) (a : Action) :
    (w.remaining a).map (w.stream.buffers[·]?) =
      (remainingWrites w.config.state a).map fun write => some write.buffer := by
  cases a with
  | writeValue i | writeDone i =>
    rw [remaining, remainingWrites, ← List.eraseIdx_map, ← List.eraseIdx_map, h.pending]
  | _ => exact h.pending

theorem onTheWire_client {w : Wired} (h : OnTheWire w) {a : Action} {config : Config}
    (hstep : client.step w.config a = some config) {outstanding : List ℕ}
    (hremaining : w.remaining a = outstanding) {buffers : List Bytes}
    (hnew : (config.state.pendingWrites.drop outstanding.length).map (·.buffer) = buffers) :
    OnTheWire
      { config
        stream := w.stream.submit buffers
        outstanding := outstanding ++ List.range' w.stream.writes.length buffers.length } := by
  obtain ⟨new, hwrites, hencoded⟩ := step_writes hstep
  have hpending := remaining_pending h a
  rw [hremaining] at hpending
  have hlength : outstanding.length = (remainingWrites w.config.state a).length := by
    rw [← List.length_map, hpending, List.length_map]
  have hbuffers : new.map (·.buffer) = buffers := by
    rw [← hnew, hwrites, hlength, List.drop_left]
  refine ⟨?_, ?_, h.pieces.submit buffers⟩
  · rw [Stream.buffers_submit, h.packets, hencoded, hbuffers]
  · have hold : ∀ place ∈ outstanding, (w.stream.buffers[place]?).isSome := by
      intro place hplace
      have hmem := List.mem_map_of_mem (f := (w.stream.buffers[·]?)) hplace
      rw [hpending] at hmem
      obtain ⟨write, -, hwrite⟩ := List.mem_map.mp hmem
      rw [← hwrite]
      rfl
    dsimp only
    rw [List.map_append, w.stream.buffers_submit_old buffers hold, hpending,
      w.stream.buffers_submit_new, hwrites, List.map_append, ← hbuffers, List.map_map]
    rfl

theorem onTheWire_transmit {w : Wired} (h : OnTheWire w) {place n : ℕ} {stream : Stream UInt8}
    (htransmit : w.stream.transmit place n = some stream) : OnTheWire { w with stream } := by
  obtain ⟨write, ht⟩ := Stream.transmitted_of_eq htransmit
  refine ⟨?_, ?_, h.pieces.transmit ht⟩
  · exact ht.buffers.trans h.packets
  · dsimp only
    rw [ht.buffers]
    exact h.pending

theorem onTheWire_step {w v : Wired} (h : OnTheWire w) {a : WireAction} (hstep : w.step a = some v) :
    OnTheWire v := by
  cases a with
  | client a =>
    rw [step] at hstep
    split at hstep
    case isTrue =>
      obtain ⟨config, hconfig, rfl⟩ := Option.map_eq_some_iff.mp hstep
      exact onTheWire_client h hconfig rfl rfl
    case isFalse => cases hstep
  | transmit write n =>
    obtain ⟨place, -, hstep⟩ := Option.bind_eq_some_iff.mp hstep
    obtain ⟨stream, htransmit, hstep⟩ := Option.bind_eq_some_iff.mp hstep
    cases hstep
    exact onTheWire_transmit h htransmit

/-- A step in its turn transmits nothing out of order. -/
theorem consecutive_step {w v : Wired} (h : w.stream.Consecutive) {a : WireAction}
    (hturn : w.inTurn a = true) (hstep : w.step a = some v) : v.stream.Consecutive := by
  cases a with
  | client a =>
    rw [step] at hstep
    split at hstep
    case isTrue =>
      obtain ⟨config, -, rfl⟩ := Option.map_eq_some_iff.mp hstep
      exact h.submit _
    case isFalse => cases hstep
  | transmit write n =>
    obtain ⟨place, hplace, hstep⟩ := Option.bind_eq_some_iff.mp hstep
    obtain ⟨stream, htransmit, hstep⟩ := Option.bind_eq_some_iff.mp hstep
    cases hstep
    obtain ⟨write, ht⟩ := Stream.transmitted_of_eq htransmit
    refine h.transmit ht fun earlier hearlier => ?_
    simp only [inTurn, hplace, Option.all_some, List.all_eq_true] at hturn
    exact List.isEmpty_iff.mp (hturn earlier hearlier)

theorem onTheWire_run {ok : Wired → WireAction → Bool} {w : Wired} (run : Run ok w) :
    OnTheWire w := by
  induction run with
  | refl => exact ⟨rfl, rfl, ⟨by simp, by simp⟩⟩
  | tail _ hstep ih =>
    obtain ⟨a, -, hstep⟩ := hstep
    exact onTheWire_step ih hstep

theorem consecutive_run {ok : Wired → WireAction → Bool} {w : Wired} (run : Run ok w)
    (hok : ∀ v a, ok v a = true → v.inTurn a = true) : w.stream.Consecutive := by
  induction run with
  | refl => exact ⟨rfl, .nil⟩
  | tail _ hstep ih =>
    obtain ⟨a, hallowed, hstep⟩ := hstep
    exact consecutive_step ih (hok _ a hallowed) hstep

end Wired

/-- Whatever the order of the partial writes, the stream gets the packets' bytes, those of
each packet in their order; one packet after the other if every partial write is in turn. -/
theorem packets_on_the_wire {ok : Wired → WireAction → Bool} {w : Wired} (run : Wired.Run ok w) :
    OnTheWire w ∧ ((∀ v a, ok v a = true → v.inTurn a = true) →
      w.stream.bytes <+: (encodedPackets w.config.log).flatten) := by
  have hwire := Wired.onTheWire_run run
  refine ⟨hwire, fun hok => ?_⟩
  rw [← hwire.packets]
  exact (Wired.consecutive_run run hok).isPrefix

namespace Wired

/-- What a sequence of actions leads to, as long as `ok` holds. -/
def stepsWhile (ok : Wired → WireAction → Bool) (w : Wired) : List WireAction → Option Wired
  | [] => some w
  | a :: as => if ok w a then (w.step a).bind (stepsWhile ok · as) else none

theorem run_of_stepsWhile {ok : Wired → WireAction → Bool} {w v : Wired} {as : List WireAction}
    (run : Run ok w) (h : w.stepsWhile ok as = some v) : Run ok v := by
  induction as generalizing w with
  | nil =>
    cases h
    exact run
  | cons a as ih =>
    rw [stepsWhile] at h
    split at h
    case isTrue hok =>
      obtain ⟨u, hstep, hrest⟩ := Option.bind_eq_some_iff.mp h
      exact ih (run.tail ⟨a, hok, hstep⟩) hrest
    case isFalse => cases h

end Wired

/-- Two publishes without acknowledgement, the second before the first has been written. -/
def twoPublishes : List WireAction :=
  ([.enter, .operate (.publish { topic := [97] }), .return,
    .operate (.publish { topic := [98] }), .return, .return]).map .client

/-- The bytes of the first publish, and one byte of the second. -/
theorem packets_on_the_wire_two : ∃ w, Wired.Run Wired.inTurn w ∧ w.stream.bytes.length = 7 ∧
    OnTheWire w ∧ w.stream.bytes <+: (encodedPackets w.config.log).flatten := by
  have hsteps : ((({} : Wired).stepsWhile Wired.inTurn
      (twoPublishes ++ [.transmit 0 2, .transmit 0 4, .transmit 1 1])).map
        (·.stream.bytes.length)) = some 7 := by
    decide +kernel
  obtain ⟨w, hw, hlength⟩ := Option.map_eq_some_iff.mp hsteps
  have run := Wired.run_of_stepsWhile .refl hw
  obtain ⟨hwire, hprefix⟩ := packets_on_the_wire run
  exact ⟨w, run, hlength, hwire, hprefix fun _ _ h => h⟩

/-- A byte of the first publish is followed by one of the second. -/
theorem packets_interleave : ∃ w, Wired.Run (fun _ _ => true) w ∧ w.stream.bytes = [48, 48] ∧
    ¬ w.stream.bytes <+: (encodedPackets w.config.log).flatten := by
  have hsteps : ((({} : Wired).stepsWhile (fun _ _ => true)
      (twoPublishes ++ [.transmit 0 1, .transmit 1 1])).map fun w =>
        (w.stream.bytes, encodedPackets w.config.log)) =
          some ([48, 48], [[48, 4, 0, 1, 97, 0], [48, 4, 0, 1, 98, 0]]) := by
    decide +kernel
  obtain ⟨w, hw, hfacts⟩ := Option.map_eq_some_iff.mp hsteps
  simp only [Prod.mk.injEq] at hfacts
  obtain ⟨hbytes, hpackets⟩ := hfacts
  refine ⟨w, Wired.run_of_stepsWhile .refl hw, hbytes, ?_⟩
  rw [hbytes, hpackets]
  decide

end Mqtt5.ClientWire
