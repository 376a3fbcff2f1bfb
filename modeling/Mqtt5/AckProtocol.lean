import Mathlib.Algebra.BigOperators.Group.Multiset.Basic
import Mathlib.Algebra.Order.Group.Multiset
import Mathlib.Data.Multiset.Bind
import Mathlib.Logic.Relation
import Mathlib.Tactic.Abel
import Mqtt5.AckEndpoint

/-!
# Two endpoints

Two endpoints send each other messages, and the messages may overtake each other on their way.
As long as neither side uses an identifier again that it has in flight, every message is
delivered once, nobody is asked about an identifier that it does not know, and an exchange
left alone comes to an end with nothing kept on either side.
-/
namespace Mqtt5.AckProtocol
open AckEndpoint

variable {ι : Type}

/-! ## Messages -/

/-- What a reply is to the other side. -/
def arrives : Reply ι → Input ι
  | .ack id => .acknowledged id
  | .receipt id => .receipt id true
  | .release id _ => .release id
  | .complete id _ => .completed id

def opening (id : ι) (twice : Bool) : Input ι := if twice then .twice id else .once id

def starts : Input ι → List ι
  | .sent id _ => [id]
  | _ => []

/-- The messages of an exchange, with what their sender waits for: on the way there, -/
def forth : Input ι → Multiset (ι × Stage)
  | .once id => {(id, .ack)}
  | .twice id => {(id, .receipt)}
  | .release id => {(id, .completion)}
  | _ => 0

/-- and on the way back. -/
def back : Input ι → Multiset (ι × Stage)
  | .acknowledged id => {(id, .ack)}
  | .receipt id _ => {(id, .receipt)}
  | .completed id => {(id, .completion)}
  | _ => 0

def firsts : Input ι → Multiset ι
  | .once id | .twice id => {id}
  | _ => 0

def receipts : Input ι → Multiset ι
  | .receipt id _ => {id}
  | _ => 0

def releases : Input ι → Multiset ι
  | .release id => {id}
  | _ => 0

/-! ## One direction -/

/-- An endpoint, its messages that are on their way, and what it has done so far. -/
structure Side (ι : Type) where
  endpoint : Endpoint ι := {}
  outbound : Multiset (Input ι) := 0
  sent : Multiset ι := 0
  delivered : Multiset ι := 0

/-- What `a` sends to `b`. Each message in flight has one message on its way. -/
structure Direction (a b : Side ι) : Prop where
  distinct : (a.endpoint.inFlight.map Prod.fst).Nodup
  underWay : (a.endpoint.inFlight : Multiset (ι × Stage)) =
    a.outbound.bind forth + b.outbound.bind back
  kept : (b.endpoint.unreleased : Multiset ι) = b.outbound.bind receipts + a.outbound.bind releases
  accepted : ∀ id, .receipt id false ∉ b.outbound
  counted : a.sent = b.delivered + a.outbound.bind firsts + b.endpoint.unreleased

theorem mem_back_of_receipts {msgs : Multiset (Input ι)} {id : ι} (h : id ∈ msgs.bind receipts) :
    (id, .receipt) ∈ msgs.bind back := by
  obtain ⟨msg, hmsg, hid⟩ := Multiset.mem_bind.mp h
  refine Multiset.mem_bind.mpr ⟨msg, hmsg, ?_⟩
  cases msg with
  | receipt => rw [Multiset.mem_singleton.mp hid, back, Multiset.mem_singleton]
  | _ => cases hid

theorem mem_forth_of_releases {msgs : Multiset (Input ι)} {id : ι} (h : id ∈ msgs.bind releases) :
    (id, .completion) ∈ msgs.bind forth := by
  obtain ⟨msg, hmsg, hid⟩ := Multiset.mem_bind.mp h
  refine Multiset.mem_bind.mpr ⟨msg, hmsg, ?_⟩
  cases msg with
  | release => rw [Multiset.mem_singleton.mp hid, forth, Multiset.mem_singleton]
  | _ => cases hid

namespace Direction
variable {a b : Side ι} {rest : Multiset (Input ι)} {id : ι}

/-- What is on its way back to the sender is known to it. -/
theorem mem_inFlight (h : Direction a b) {input : Input ι} {stage : Stage}
    (hb : b.outbound = input ::ₘ rest) (hback : back input = {(id, stage)}) :
    (id, stage) ∈ a.endpoint.inFlight := by
  rw [← Multiset.mem_coe, h.underWay, hb, Multiset.cons_bind, hback]
  simp

/-- A message that comes is not one that is kept already, for then its identifier would be in
flight twice. -/
theorem not_kept (h : Direction a b) (ha : a.outbound = .twice id ::ₘ rest) :
    id ∉ b.endpoint.unreleased := by
  intro hmem
  have hother : ∃ stage, (id, stage) ∈ rest.bind forth + b.outbound.bind back := by
    rw [← Multiset.mem_coe, h.kept, ha, Multiset.cons_bind] at hmem
    obtain hreceipt | hrelease := Multiset.mem_add.mp hmem
    · exact ⟨_, Multiset.mem_add.mpr (.inr (mem_back_of_receipts hreceipt))⟩
    · simp only [releases, zero_add] at hrelease
      exact ⟨_, Multiset.mem_add.mpr (.inl (mem_forth_of_releases hrelease))⟩
  obtain ⟨stage, hstage⟩ := hother
  have hall := h.underWay
  rw [ha, Multiset.cons_bind, add_assoc] at hall
  have hdistinct : ((a.endpoint.inFlight : Multiset (ι × Stage)).map Prod.fst).Nodup := h.distinct
  rw [hall, forth, Multiset.singleton_add, Multiset.map_cons, Multiset.nodup_cons] at hdistinct
  exact hdistinct.1 (Multiset.mem_map.mpr ⟨_, hstage, rfl⟩)

/-- A release is for a message that is kept. -/
theorem mem_unreleased (h : Direction a b) (ha : a.outbound = .release id ::ₘ rest) :
    id ∈ b.endpoint.unreleased := by
  rw [← Multiset.mem_coe, h.kept, ha, Multiset.cons_bind]
  simp [releases]

/-- With nothing on its way, every exchange has come to its end. -/
theorem settled (h : Direction a b) (ha : a.outbound = 0)
    (hb : b.outbound = 0) :
    a.endpoint.inFlight = [] ∧ b.endpoint.unreleased = [] ∧ a.sent = b.delivered := by
  have hinFlight := h.underWay
  have hunreleased := h.kept
  rw [ha, hb, Multiset.zero_bind, Multiset.zero_bind, zero_add, Multiset.coe_eq_zero]
    at hinFlight hunreleased
  refine ⟨hinFlight, hunreleased, ?_⟩
  rw [h.counted, ha, hunreleased]
  simp

end Direction

/-! ## Both directions -/

structure Pair (ι : Type) where
  here : Side ι := {}
  there : Side ι := {}

def Pair.flip (p : Pair ι) : Pair ι := ⟨p.there, p.here⟩

/-- What is on its way was not sent by who gets it. -/
def Travels (s : Side ι) : Prop := ∀ id twice, .sent id twice ∉ s.outbound

structure Consistent (p : Pair ι) : Prop where
  forward : Direction p.here p.there
  backward : Direction p.there p.here
  here : Travels p.here
  there : Travels p.there

theorem Consistent.flip {p : Pair ι} (h : Consistent p) : Consistent p.flip :=
  ⟨h.backward, h.forward, h.there, h.here⟩

/-- The endpoint knows what the message is about. -/
def Expected (s : Endpoint ι) : Input ι → Prop
  | .acknowledged id => (id, .ack) ∈ s.inFlight
  | .receipt id accepted => accepted = true ∧ (id, .receipt) ∈ s.inFlight
  | .completed id => (id, .completion) ∈ s.inFlight
  | .once _ => True
  | .twice id => id ∉ s.unreleased
  | .release id => id ∈ s.unreleased
  | .sent _ _ => False

theorem Consistent.expected {p : Pair ι} (h : Consistent p) {input : Input ι}
    (hinput : input ∈ p.there.outbound) : Expected p.here.endpoint input := by
  obtain ⟨rest, hrest⟩ := Multiset.exists_cons_of_mem hinput
  cases input with
  | sent id twice => exact h.there id twice hinput
  | acknowledged id => exact h.forward.mem_inFlight hrest rfl
  | completed id => exact h.forward.mem_inFlight hrest rfl
  | receipt id accepted =>
    cases accepted with
    | true => exact ⟨rfl, h.forward.mem_inFlight hrest rfl⟩
    | false => exact absurd hinput (h.forward.accepted id)
  | once id => exact trivial
  | twice id => exact h.backward.not_kept hrest
  | release id => exact h.backward.mem_unreleased hrest

/-! ## Messages in flight -/

/-- With distinct identifiers, a message is the first one of its identifier. -/
theorem exists_split {msgs : List (ι × Stage)} {id : ι} {stage : Stage}
    (hdistinct : (msgs.map Prod.fst).Nodup) (h : (id, stage) ∈ msgs) :
    ∃ before after, msgs = before ++ (id, stage) :: after ∧ ∀ msg ∈ before, msg.1 ≠ id := by
  obtain ⟨before, after, rfl⟩ := List.append_of_mem h
  refine ⟨before, after, rfl, ?_⟩
  intro msg hmsg heq
  rw [List.map_append, List.map_cons, List.nodup_append] at hdistinct
  exact hdistinct.2.2 msg.1 (List.mem_map_of_mem hmsg) id List.mem_cons_self heq

theorem coe_middle {α : Type} (before after : List α) (x : α) :
    (↑(before ++ x :: after) : Multiset α) = {x} + ↑(before ++ after) := by
  rw [Multiset.singleton_add, Multiset.cons_coe, Multiset.coe_eq_coe]
  exact List.perm_middle

/-! ## The protocol -/

variable [DecidableEq ι]

/-- The messages that an endpoint gives to the other side. -/
def emits (s : Endpoint ι) : Input ι → List (Input ι)
  | .sent id twice => [opening id twice]
  | input => (s.react input).2.map arrives

/-- A message is delivered at once, or with its release. -/
def delivers (s : Endpoint ι) : Input ι → List ι
  | .once id => [id]
  | .release id => if id ∈ s.unreleased then [id] else []
  | _ => []

def Side.take (s : Side ι) (input : Input ι) : Side ι where
  endpoint := (s.endpoint.react input).1
  outbound := s.outbound + emits s.endpoint input
  sent := s.sent + starts input
  delivered := s.delivered + delivers s.endpoint input

/-- This side sends a message under an identifier that it has not in flight. -/
inductive Sends : Pair ι → Pair ι → Prop
  | send {a b : Side ι} (id : ι) (twice : Bool) (hfresh : ∀ msg ∈ a.endpoint.inFlight, msg.1 ≠ id) :
      Sends ⟨a, b⟩ ⟨a.take (.sent id twice), b⟩

/-- This side gets one of the messages that are on their way to it. -/
inductive Receives : Pair ι → Pair ι → Prop
  | receive {a b : Side ι} (input : Input ι) (rest : Multiset (Input ι))
      (h : b.outbound = input ::ₘ rest) :
      Receives ⟨a, b⟩ ⟨a.take input, { b with outbound := rest }⟩

/-- Either side does something. -/
def Step (p q : Pair ι) : Prop :=
  (Sends p q ∨ Receives p q) ∨ Sends p.flip q.flip ∨ Receives p.flip q.flip

def Reachable (p : Pair ι) : Prop := Relation.ReflTransGen Step {} p

/-! ## Finding a message -/

section
variable {msgs : List (ι × Stage)} {id : ι} {stage : Stage}

theorem find_of_mem (hdistinct : (msgs.map Prod.fst).Nodup) (h : (id, stage) ∈ msgs) :
    msgs.find? (fun msg => msg.1 = id) = some (id, stage) := by
  obtain ⟨before, after, rfl, hbefore⟩ := exists_split hdistinct h
  have hnone : before.find? (fun msg => msg.1 = id) = none :=
    List.find?_eq_none.mpr fun msg hmsg => by simpa using hbefore msg hmsg
  rw [List.find?_append, hnone]
  simp

theorem singleton_add_eraseP (hdistinct : (msgs.map Prod.fst).Nodup) (h : (id, stage) ∈ msgs) :
    ({(id, stage)} + ↑(msgs.eraseP fun msg => msg.1 = id) : Multiset (ι × Stage)) = msgs := by
  obtain ⟨before, after, rfl, hbefore⟩ := exists_split hdistinct h
  rw [List.eraseP_append_right _ fun msg hmsg => by simpa using hbefore msg hmsg,
    List.eraseP_cons_of_pos (by simp), coe_middle]

theorem advance_append {before after : List (ι × Stage)} (hbefore : ∀ msg ∈ before, msg.1 ≠ id) :
    advance id (before ++ (id, stage) :: after) = before ++ (id, .completion) :: after := by
  induction before with
  | nil => exact if_pos rfl
  | cons msg before ih =>
    rw [List.cons_append, advance, if_neg (hbefore msg List.mem_cons_self)]
    exact congrArg _ (ih fun other hother => hbefore other (List.mem_cons_of_mem _ hother))

theorem singleton_add_advance (hdistinct : (msgs.map Prod.fst).Nodup) (h : (id, stage) ∈ msgs) :
    ({(id, stage)} + ↑(advance id msgs) : Multiset (ι × Stage)) = {(id, .completion)} + ↑msgs := by
  obtain ⟨before, after, rfl, hbefore⟩ := exists_split hdistinct h
  rw [advance_append hbefore, coe_middle, coe_middle]
  abel

theorem map_fst_advance (id : ι) (msgs : List (ι × Stage)) :
    (advance id msgs).map Prod.fst = msgs.map Prod.fst := by
  induction msgs with
  | nil => rfl
  | cons msg msgs ih =>
    rw [advance]
    split
    · rfl
    · rw [List.map_cons, List.map_cons, ih]

end

/-! ## What an endpoint makes of a message -/

section
variable (s : Side ι) {id : ι}

theorem take_sent (id : ι) (twice : Bool) : s.take (.sent id twice) = { s with
    endpoint := { s.endpoint with
      inFlight := s.endpoint.inFlight ++ [(id, if twice then .receipt else .ack)] }
    outbound := s.outbound + {opening id twice}
    sent := s.sent + {id} } := by
  simp [Side.take, Endpoint.react, emits, starts, delivers]

theorem take_once (id : ι) : s.take (.once id) = { s with
    outbound := s.outbound + {.acknowledged id}
    delivered := s.delivered + {id} } := by
  simp [Side.take, Endpoint.react, emits, arrives, starts, delivers]

theorem take_twice (hnew : id ∉ s.endpoint.unreleased) : s.take (.twice id) = { s with
    endpoint := { s.endpoint with unreleased := s.endpoint.unreleased ++ [id] }
    outbound := s.outbound + {.receipt id true} } := by
  simp [Side.take, Endpoint.react, emits, arrives, starts, delivers, hnew]

theorem take_release (hold : id ∈ s.endpoint.unreleased) : s.take (.release id) = { s with
    endpoint := { s.endpoint with unreleased := s.endpoint.unreleased.erase id }
    outbound := s.outbound + {.completed id}
    delivered := s.delivered + {id} } := by
  simp [Side.take, Endpoint.react, emits, arrives, starts, delivers, hold]

theorem take_finish {input : Input ι} (hinput : input = .acknowledged id ∨ input = .completed id) :
    s.take input = { s with endpoint := { s.endpoint with
      inFlight := s.endpoint.inFlight.eraseP fun msg => msg.1 = id } } := by
  obtain rfl | rfl := hinput <;> simp [Side.take, Endpoint.react, emits, starts, delivers]

theorem take_receipt (hdistinct : (s.endpoint.inFlight.map Prod.fst).Nodup)
    (hmem : (id, .receipt) ∈ s.endpoint.inFlight) : s.take (.receipt id true) = { s with
      endpoint := { s.endpoint with inFlight := advance id s.endpoint.inFlight }
      outbound := s.outbound + {.release id} } := by
  simp [Side.take, Endpoint.react, emits, arrives, starts, delivers, find_of_mem hdistinct hmem]

/-- To an answer an endpoint has at most a release to say. -/
theorem take_answer {input : Input ι} (hasks : input.asks = none)
    (hsent : ∀ id twice, input ≠ .sent id twice) :
    (s.take input).endpoint.unreleased = s.endpoint.unreleased ∧
      (s.take input).delivered = s.delivered ∧
      ((s.take input).outbound = s.outbound ∨
        ∃ id, (s.take input).outbound = s.outbound + {.release id}) := by
  cases input with
  | sent id twice => exact absurd rfl (hsent id twice)
  | acknowledged | completed => simp [Side.take, Endpoint.react, emits, delivers]
  | receipt id accepted =>
    simp only [Side.take, emits, Endpoint.react]
    split
    · exact ⟨rfl, add_zero _, .inr ⟨id, rfl⟩⟩
    · split
      · exact ⟨rfl, add_zero _, .inr ⟨id, rfl⟩⟩
      · exact ⟨rfl, add_zero _, .inl (add_zero _)⟩
  | once | twice | release => cases hasks

/-- What is asked is not about the messages of this side. -/
theorem take_asked {input : Input ι} (hasks : input.asks.isSome) :
    (s.take input).endpoint.inFlight = s.endpoint.inFlight ∧ (s.take input).sent = s.sent ∧
      ∃ answer, (s.take input).outbound = s.outbound + {answer} ∧ answer.asks = none := by
  cases input with
  | once id => exact ⟨rfl, add_zero _, _, rfl, rfl⟩
  | twice id => exact ⟨rfl, add_zero _, _, rfl, rfl⟩
  | release id => exact ⟨rfl, add_zero _, _, rfl, rfl⟩
  | _ => cases hasks

end

/-! ## One step -/

section
variable {a b : Side ι} {rest : Multiset (Input ι)} {id : ι} {input : Input ι}

theorem Direction.send (h : Direction a b) (twice : Bool)
    (hfresh : ∀ msg ∈ a.endpoint.inFlight, msg.1 ≠ id) :
    Direction (a.take (.sent id twice)) b := by
  have hopening : forth (opening id twice) = {(id, if twice then .receipt else .ack)} ∧
      firsts (opening id twice) = {id} ∧ releases (opening id twice) = 0 := by
    cases twice <;> exact ⟨rfl, rfl, rfl⟩
  obtain ⟨hforth, hfirsts, hreleases⟩ := hopening
  rw [take_sent]
  constructor
  · simpa [List.nodup_append] using ⟨h.distinct, fun other stage => hfresh (other, stage)⟩
  · rw [← Multiset.coe_add, h.underWay, Multiset.add_bind, Multiset.singleton_bind, hforth,
      Multiset.coe_singleton]
    abel
  · rw [h.kept, Multiset.add_bind, Multiset.singleton_bind, hreleases, add_zero]
  · exact h.accepted
  · rw [h.counted, Multiset.add_bind, Multiset.singleton_bind, hfirsts, add_right_comm,
      add_assoc b.delivered]

theorem Direction.sendBack (h : Direction a b) (id : ι) (twice : Bool) :
    Direction a (b.take (.sent id twice)) := by
  have hopening : back (opening id twice) = 0 ∧ receipts (opening id twice) = 0 := by
    cases twice <;> exact ⟨rfl, rfl⟩
  rw [take_sent]
  constructor
  · exact h.distinct
  · rw [h.underWay, Multiset.add_bind, Multiset.singleton_bind, hopening.1, add_zero]
  · rw [h.kept, Multiset.add_bind, Multiset.singleton_bind, hopening.2, add_zero]
  · intro id' hmem
    obtain hmem | hmem := Multiset.mem_add.mp hmem
    · exact h.accepted id' hmem
    · cases twice <;> cases Multiset.mem_singleton.mp hmem
  · exact h.counted

/-- An acknowledgement or a completion ends the exchange that it names. -/
theorem Direction.finish (h : Direction a b) {stage : Stage} (hb : b.outbound = input ::ₘ rest)
    (hback : back input = {(id, stage)})
    (hinput : input = .acknowledged id ∨ input = .completed id) :
    Direction (a.take input) { b with outbound := rest } := by
  have herase := singleton_add_eraseP h.distinct (h.mem_inFlight hb hback)
  have hreceipts : receipts input = 0 := by obtain rfl | rfl := hinput <;> rfl
  rw [take_finish a hinput]
  constructor
  · exact h.distinct.sublist (List.eraseP_sublist.map _)
  · apply add_left_cancel (a := {(id, stage)})
    rw [herase, h.underWay, hb, Multiset.cons_bind, hback]
    abel
  · rw [h.kept, hb, Multiset.cons_bind, hreceipts, zero_add]
  · exact fun id' hmem => h.accepted id' (hb ▸ Multiset.mem_cons_of_mem hmem)
  · exact h.counted

/-- A receipt is answered with the release. -/
theorem Direction.release (h : Direction a b) (hb : b.outbound = .receipt id true ::ₘ rest) :
    Direction (a.take (.receipt id true)) { b with outbound := rest } := by
  have hmem := h.mem_inFlight hb rfl
  have hadvance := singleton_add_advance h.distinct hmem
  rw [take_receipt a h.distinct hmem]
  constructor
  · rw [map_fst_advance]
    exact h.distinct
  · apply add_left_cancel (a := {(id, .receipt)})
    rw [hadvance, h.underWay, hb, Multiset.cons_bind, Multiset.add_bind, Multiset.singleton_bind]
    simp only [back, forth]
    abel
  · rw [h.kept, hb, Multiset.cons_bind, Multiset.add_bind, Multiset.singleton_bind]
    simp only [receipts, releases]
    abel
  · exact fun id' hmem => h.accepted id' (hb ▸ Multiset.mem_cons_of_mem hmem)
  · rw [h.counted, Multiset.add_bind, Multiset.singleton_bind]
    simp only [firsts, add_zero]

/-- What the sender is asked is the other direction's, -/
theorem Direction.asked (h : Direction a b) (hb : b.outbound = input ::ₘ rest)
    (hasks : input.asks.isSome) : Direction (a.take input) { b with outbound := rest } := by
  obtain ⟨hinFlight, hsent, answer, houtbound, hanswer⟩ := take_asked a hasks
  have hinput : back input = 0 ∧ receipts input = 0 := by
    cases input with
    | once | twice | release => exact ⟨rfl, rfl⟩
    | _ => cases hasks
  have hforth : forth answer = 0 ∧ releases answer = 0 ∧ firsts answer = 0 := by
    cases answer with
    | once | twice | release => cases hanswer
    | _ => exact ⟨rfl, rfl, rfl⟩
  obtain ⟨hforth, hreleases, hfirsts⟩ := hforth
  constructor
  · rw [hinFlight]
    exact h.distinct
  · rw [hinFlight, h.underWay, houtbound, hb, Multiset.cons_bind, Multiset.add_bind,
      Multiset.singleton_bind, hforth, hinput.1, add_zero, zero_add]
  · rw [h.kept, houtbound, hb, Multiset.cons_bind, Multiset.add_bind, Multiset.singleton_bind,
      hreleases, hinput.2, add_zero, zero_add]
  · exact fun id' hmem => h.accepted id' (hb ▸ Multiset.mem_cons_of_mem hmem)
  · rw [hsent, h.counted, houtbound, Multiset.add_bind, Multiset.singleton_bind, hfirsts, add_zero]

/-- and so is what the receiver gets for an answer. -/
theorem Direction.answered (h : Direction a b) (ha : a.outbound = input ::ₘ rest)
    (hasks : input.asks = none) (hsent : ∀ id twice, input ≠ .sent id twice) :
    Direction { a with outbound := rest } (b.take input) := by
  obtain ⟨hunreleased, hdelivered, houtbound⟩ := take_answer b hasks hsent
  have hinput : forth input = 0 ∧ releases input = 0 ∧ firsts input = 0 := by
    cases input with
    | once | twice | release => cases hasks
    | _ => exact ⟨rfl, rfl, rfl⟩
  obtain ⟨hforth, hreleases, hfirsts⟩ := hinput
  constructor
  · exact h.distinct
  · rw [h.underWay, ha, Multiset.cons_bind, hforth, zero_add]
    obtain houtbound | ⟨id, houtbound⟩ := houtbound <;> simp [houtbound, back]
  · rw [hunreleased, h.kept, ha, Multiset.cons_bind, hreleases, zero_add]
    obtain houtbound | ⟨id, houtbound⟩ := houtbound <;> simp [houtbound, receipts]
  · obtain houtbound | ⟨id, houtbound⟩ := houtbound <;> simpa [houtbound] using h.accepted
  · rw [h.counted, hunreleased, hdelivered, ha, Multiset.cons_bind, hfirsts, zero_add]

/-- The receiver gets a message or its release. -/
theorem Direction.receive (h : Direction a b) (ha : a.outbound = input ::ₘ rest)
    (hasks : input.asks.isSome) : Direction { a with outbound := rest } (b.take input) := by
  cases input with
  | once id =>
    rw [take_once]
    constructor
    · exact h.distinct
    · rw [h.underWay, ha, Multiset.cons_bind, Multiset.add_bind, Multiset.singleton_bind]
      simp only [forth, back]
      abel
    · simp [h.kept, ha, receipts, releases]
    · simpa using h.accepted
    · rw [h.counted, ha, Multiset.cons_bind]
      simp only [firsts]
      abel
  | twice id =>
    rw [take_twice b (h.not_kept ha)]
    constructor
    · exact h.distinct
    · rw [h.underWay, ha, Multiset.cons_bind, Multiset.add_bind, Multiset.singleton_bind]
      simp only [forth, back]
      abel
    · rw [← Multiset.coe_add, h.kept, ha, Multiset.cons_bind, Multiset.add_bind,
        Multiset.singleton_bind]
      simp only [receipts, releases, Multiset.coe_singleton]
      abel
    · simpa using h.accepted
    · rw [h.counted, ha, Multiset.cons_bind, ← Multiset.coe_add, Multiset.coe_singleton]
      simp only [firsts]
      abel
  | release id =>
    have hold := h.mem_unreleased ha
    have herase : ({id} + ↑(b.endpoint.unreleased.erase id) : Multiset ι) =
        b.endpoint.unreleased := by
      rw [Multiset.singleton_add, ← Multiset.coe_erase]
      exact Multiset.cons_erase hold
    rw [take_release b hold]
    constructor
    · exact h.distinct
    · rw [h.underWay, ha, Multiset.cons_bind, Multiset.add_bind, Multiset.singleton_bind]
      simp only [forth, back]
      abel
    · apply add_left_cancel (a := {id})
      rw [herase, h.kept, ha, Multiset.cons_bind, Multiset.add_bind, Multiset.singleton_bind]
      simp only [receipts, releases]
      abel
    · simpa using h.accepted
    · rw [h.counted, ha, Multiset.cons_bind, ← herase]
      simp only [firsts]
      abel
  | _ => cases hasks

end

/-! ## Every run -/

theorem Travels.take {s : Side ι} (h : Travels s) (input : Input ι) : Travels (s.take input) := by
  intro id twice hmem
  obtain hmem | hmem := Multiset.mem_add.mp hmem
  · exact h id twice hmem
  · cases input with
    | sent id' twice' => cases twice' <;> simp [emits, opening] at hmem
    | _ =>
      obtain ⟨reply, -, hreply⟩ := List.mem_map.mp hmem
      cases reply <;> cases hreply

namespace Consistent
variable {p q : Pair ι}

theorem sends (h : Consistent p) (hstep : Sends p q) : Consistent q := by
  cases hstep with
  | send id twice hfresh =>
    exact ⟨h.forward.send twice hfresh, h.backward.sendBack id twice, h.here.take _, h.there⟩

theorem receives (h : Consistent p) (hstep : Receives p q) : Consistent q := by
  cases hstep with
  | @receive a b input rest hb =>
    have hsent : ∀ id twice, input ≠ .sent id twice := by
      rintro id twice rfl
      exact h.there id twice (hb ▸ Multiset.mem_cons_self _ _)
    have hrest : Travels { b with outbound := rest } := fun id twice hmem =>
      h.there id twice (hb ▸ Multiset.mem_cons_of_mem hmem)
    cases hasks : input.asks with
    | some asked =>
      have hsome : input.asks.isSome := by rw [hasks]; rfl
      exact ⟨h.forward.asked hb hsome, h.backward.receive hb hsome, h.here.take _, hrest⟩
    | none =>
      refine ⟨?_, h.backward.answered hb hasks hsent, h.here.take _, hrest⟩
      cases input with
      | sent id twice => exact absurd rfl (hsent id twice)
      | acknowledged id => exact h.forward.finish hb rfl (.inl rfl)
      | completed id => exact h.forward.finish hb rfl (.inr rfl)
      | receipt id accepted =>
        cases accepted with
        | true => exact h.forward.release hb
        | false => exact absurd (hb ▸ Multiset.mem_cons_self _ _) (h.forward.accepted id)
      | once | twice | release => cases hasks

theorem step (h : Consistent p) (hstep : Step p q) : Consistent q := by
  obtain (hsends | hreceives) | hsends | hreceives := hstep
  · exact h.sends hsends
  · exact h.receives hreceives
  · exact (h.flip.sends hsends).flip
  · exact (h.flip.receives hreceives).flip

theorem of_reachable (h : Reachable p) : Consistent p := by
  induction h with
  | refl =>
    have hdirection : Direction (ι := ι) {} {} := ⟨List.nodup_nil, rfl, rfl, by simp, rfl⟩
    exact ⟨hdirection, hdirection, by simp [Travels], by simp [Travels]⟩
  | tail _ hstep ih => exact ih.step hstep

end Consistent

/-- An answer that knows what it answers for. -/
def IsKnown : Reply ι → Prop
  | .release _ known | .complete _ known => known = true
  | _ => True

/-- Nobody is asked about what it does not know. -/
theorem Consistent.known {p : Pair ι} (h : Consistent p) {input : Input ι}
    (hinput : input ∈ p.there.outbound) :
    ∀ reply ∈ (p.here.endpoint.react input).2, IsKnown reply := by
  have hexpected := h.expected hinput
  cases input with
  | receipt id accepted =>
    obtain ⟨rfl, hmem⟩ := hexpected
    intro reply hreply
    rw [Endpoint.react, find_of_mem h.forward.distinct hmem] at hreply
    rw [List.mem_singleton.mp hreply]
    exact rfl
  | release id =>
    intro reply hreply
    rw [List.mem_singleton.mp hreply]
    exact decide_eq_true hexpected
  | once | twice =>
    intro reply hreply
    rw [List.mem_singleton.mp hreply]
    exact trivial
  | acknowledged | completed | sent =>
    intro reply hreply
    cases hreply

/-! ## Several messages at once -/

/-- What an endpoint gives to the other side when it takes one message after another, -/
def gives (s : Endpoint ι) : List (Input ι) → List (Input ι)
  | [] => []
  | input :: inputs => emits s input ++ gives (s.react input).1 inputs

/-- and what it delivers. -/
def passes (s : Endpoint ι) : List (Input ι) → List ι
  | [] => []
  | input :: inputs => delivers s input ++ passes (s.react input).1 inputs

theorem passes_append (s : Endpoint ι) (inputs later : List (Input ι)) :
    passes s (inputs ++ later) = passes s inputs ++ passes (s.run inputs).1 later := by
  induction inputs generalizing s with
  | nil => rfl
  | cons input inputs ih =>
    rw [List.cons_append, passes, passes, ih, Endpoint.run, List.append_assoc]

theorem takes_eq (s : Side ι) (inputs : List (Input ι)) : inputs.foldl Side.take s =
    { endpoint := (s.endpoint.run inputs).1
      outbound := s.outbound + gives s.endpoint inputs
      sent := s.sent + inputs.flatMap starts
      delivered := s.delivered + passes s.endpoint inputs } := by
  induction inputs generalizing s with
  | nil => simp [Endpoint.run, gives, passes]
  | cons input inputs ih =>
    rw [List.foldl_cons, ih]
    simp only [Side.take, Endpoint.run, gives, passes, List.flatMap_cons, ← Multiset.coe_add,
      add_assoc]

def opens : Input ι → Option (Input ι)
  | .sent id twice => some (opening id twice)
  | _ => none

/-- An endpoint gives its replies to the other side and the messages that it begins with. -/
theorem gives_eq (s : Endpoint ι) (inputs : List (Input ι)) :
    (gives s inputs : Multiset (Input ι)) =
      ↑((s.run inputs).2.map arrives) + ↑(inputs.filterMap opens) := by
  induction inputs generalizing s with
  | nil => rfl
  | cons input inputs ih =>
    have hemits : (emits s input : Multiset (Input ι)) =
        ↑((s.react input).2.map arrives) + ↑(opens input).toList := by
      cases input <;> simp [emits, opens, Endpoint.react]
    have hopens : (input :: inputs).filterMap opens =
        (opens input).toList ++ inputs.filterMap opens := by
      cases hopen : opens input <;> simp [hopen]
    rw [gives, Endpoint.run, hopens, List.map_append, ← Multiset.coe_add, ← Multiset.coe_add,
      ← Multiset.coe_add, hemits, ih]
    abel

theorem Reachable.take {a b : Side ι} (h : Reachable ⟨a, b⟩) {rest : Multiset (Input ι)}
    {asked : List (Input ι)} (hb : b.outbound = ↑asked + rest) :
    Reachable ⟨asked.foldl Side.take a, { b with outbound := rest }⟩ := by
  induction asked generalizing a b with
  | nil =>
    have hrest : b.outbound = rest := by simpa using hb
    rw [← hrest]
    exact h
  | cons input asked ih =>
    rw [← Multiset.cons_coe, Multiset.cons_add] at hb
    have hnext : Reachable ⟨a.take input, { b with outbound := ↑asked + rest }⟩ :=
      .tail h (.inl (.inr (.receive input (↑asked + rest) hb)))
    exact ih (b := { b with outbound := ↑asked + rest }) hnext rfl

theorem Reachable.send {a b : Side ι} (h : Reachable ⟨a, b⟩) {id : ι} {twice : Bool}
    (hdistinct : ((a.take (.sent id twice)).endpoint.inFlight.map Prod.fst).Nodup) :
    Reachable ⟨a.take (.sent id twice), b⟩ := by
  refine .tail h (.inl (.inl (.send id twice ?_)))
  rw [take_sent, List.map_append, List.nodup_append] at hdistinct
  intro msg hmsg heq
  exact hdistinct.2.2 msg.1 (List.mem_map_of_mem hmsg) id (by simp) heq

end Mqtt5.AckProtocol
