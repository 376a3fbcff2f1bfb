import Mathlib.Data.List.Basic
import Mathlib.Tactic.Common

/-!
# An endpoint of acknowledged messages

Two sides send each other messages that are acknowledged once, or twice: with a receipt, a
release and a completion. An endpoint is what one side keeps of them, by identifiers alone,
and what it answers.
-/
namespace Mqtt5.AckEndpoint

/-- What a message that was sent waits for. -/
inductive Stage
  | ack | receipt | completion
  deriving DecidableEq, Repr

inductive Input (ι : Type)
  /-- This side sends a message that is acknowledged once or twice. -/
  | sent (id : ι) (twice : Bool)
  | acknowledged (id : ι)
  | receipt (id : ι) (accepted : Bool)
  | completed (id : ι)
  /-- The other side sends one. -/
  | once (id : ι)
  | twice (id : ι)
  | release (id : ι)
  deriving DecidableEq, Repr

/-- An answer says whether the endpoint knew what it answers for. -/
inductive Reply (ι : Type)
  | ack (id : ι)
  | receipt (id : ι)
  | release (id : ι) (known : Bool)
  | complete (id : ι) (known : Bool)
  deriving DecidableEq, Repr

structure Endpoint (ι : Type) where
  inFlight : List (ι × Stage) := []
  /-- The other side's messages that it has not released. -/
  unreleased : List ι := []
  deriving DecidableEq, Repr

variable {ι : Type} [DecidableEq ι]

/-- The first message of this identifier waits for its completion. -/
def advance (id : ι) : List (ι × Stage) → List (ι × Stage)
  | [] => []
  | msg :: msgs => if msg.1 = id then (msg.1, .completion) :: msgs else msg :: advance id msgs

namespace Endpoint

/-- A message is done with when it is acknowledged, when its receipt is a refusal, and when it
gets a receipt where it waits for an acknowledgement. -/
def react (s : Endpoint ι) : Input ι → Endpoint ι × List (Reply ι)
  | .sent id twice =>
      ({ s with inFlight := s.inFlight ++ [(id, if twice then .receipt else .ack)] }, [])
  | .acknowledged id | .completed id =>
      ({ s with inFlight := s.inFlight.eraseP fun msg => msg.1 = id }, [])
  | .receipt id accepted => match s.inFlight.find? fun msg => msg.1 = id with
    | none => (s, [.release id false])
    | some msg =>
        if accepted ∧ msg.2 ≠ .ack then
          ({ s with inFlight := advance id s.inFlight }, [.release id true])
        else ({ s with inFlight := s.inFlight.eraseP fun msg => msg.1 = id }, [])
  | .once id => (s, [.ack id])
  | .twice id =>
      ({ s with unreleased := if id ∈ s.unreleased then s.unreleased else s.unreleased ++ [id] },
        [.receipt id])
  | .release id => ({ s with unreleased := s.unreleased.erase id }, [.complete id (id ∈ s.unreleased)])

/-- The inputs one after another, and all the replies. -/
def run (s : Endpoint ι) : List (Input ι) → Endpoint ι × List (Reply ι)
  | [] => (s, [])
  | input :: inputs =>
      let after := (s.react input).1.run inputs
      (after.1, (s.react input).2 ++ after.2)

theorem run_append (s : Endpoint ι) (inputs later : List (Input ι)) :
    s.run (inputs ++ later) = (((s.run inputs).1.run later).1,
      (s.run inputs).2 ++ ((s.run inputs).1.run later).2) := by
  induction inputs generalizing s with
  | nil => rfl
  | cons input inputs ih => simp only [List.cons_append, run, ih, List.append_assoc]

end Endpoint

/-! ## What is answered -/

/-- The other side's inputs, with what it waits for. -/
def Input.asks : Input ι → Option (Stage × ι)
  | .once id => some (.ack, id)
  | .twice id => some (.receipt, id)
  | .release id => some (.completion, id)
  | _ => none

def Reply.meets : Reply ι → Option (Stage × ι)
  | .ack id => some (.ack, id)
  | .receipt id => some (.receipt, id)
  | .complete id _ => some (.completion, id)
  | .release _ _ => none

def Input.receipt? : Input ι → Option ι
  | .receipt id _ => some id
  | _ => none

def Reply.release? : Reply ι → Option ι
  | .release id _ => some id
  | _ => none

namespace Endpoint

theorem react_meets (s : Endpoint ι) (input : Input ι) :
    (s.react input).2.filterMap Reply.meets = input.asks.toList := by
  cases input with
  | receipt id accepted =>
    rw [react]
    split
    · rfl
    · split <;> rfl
  | _ => rfl

/-- Whatever the other side sends is answered, and in the order in which it came. -/
theorem run_meets (s : Endpoint ι) (inputs : List (Input ι)) :
    (s.run inputs).2.filterMap Reply.meets = inputs.filterMap Input.asks := by
  induction inputs generalizing s with
  | nil => rfl
  | cons input inputs ih =>
    rw [run, List.filterMap_append, react_meets, ih, List.filterMap_cons]
    cases input.asks <;> rfl

theorem react_releases (s : Endpoint ι) (input : Input ι) :
    ((s.react input).2.filterMap Reply.release?).Sublist input.receipt?.toList := by
  cases input with
  | receipt id accepted =>
    rw [react]
    split
    · exact .refl _
    · split
      · exact .refl _
      · exact List.nil_sublist _
  | _ => exact .refl _

/-- Releases are sent in the order of the receipts that they answer. -/
theorem run_releases (s : Endpoint ι) (inputs : List (Input ι)) :
    ((s.run inputs).2.filterMap Reply.release?).Sublist (inputs.filterMap Input.receipt?) := by
  induction inputs generalizing s with
  | nil => exact .refl _
  | cons input inputs ih =>
    have hsplit : (input :: inputs).filterMap Input.receipt? =
        input.receipt?.toList ++ inputs.filterMap Input.receipt? := by
      rw [List.filterMap_cons]
      cases input.receipt? <;> rfl
    rw [run, List.filterMap_append, hsplit]
    exact (react_releases s input).append (ih _)

end Endpoint
end Mqtt5.AckEndpoint
