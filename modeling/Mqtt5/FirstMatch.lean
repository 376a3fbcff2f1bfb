import Mathlib.Data.List.Perm.Basic

/-!
# Waiting for the first match

Receivers are registered with a filter, and items are handed out. Each registration waits
for the first item after it that its filter lets through. What waits and what has been
served is defined from the history alone.
-/
namespace Mqtt5.FirstMatch
variable {φ ρ δ : Type}

inductive Happening (φ ρ δ : Type)
  | registered (filter : φ) (receiver : ρ)
  | delivered (item : δ)

structure Registration (φ ρ δ : Type) where
  filter : φ
  receiver : ρ
  /-- What was delivered after it, in its order. -/
  later : List δ := []

namespace Registration

def deliver (item : δ) (g : Registration φ ρ δ) : Registration φ ρ δ :=
  { g with later := g.later ++ [item] }

variable (fits : φ → δ → Bool)

def first (g : Registration φ ρ δ) : Option δ := g.later.find? (fits g.filter)

theorem first_deliver (g : Registration φ ρ δ) (item : δ) : (g.deliver item).first fits =
    (g.first fits).or (if fits g.filter item then some item else none) := by
  rw [first, deliver, List.find?_append, first, List.find?_singleton]

variable {fits} {g : Registration φ ρ δ} {item : δ}

theorem first_deliver_of_some {first : δ} (h : g.first fits = some first) :
    (g.deliver item).first fits = some first := by
  rw [first_deliver, h, Option.some_or]

theorem first_deliver_of_fits (h : g.first fits = none) (hfits : fits g.filter item = true) :
    (g.deliver item).first fits = some item := by
  rw [first_deliver, h, if_pos hfits, Option.none_or]

theorem first_deliver_of_not_fits (h : g.first fits = none)
    (hfits : fits g.filter item = false) : (g.deliver item).first fits = none := by
  rw [first_deliver, h, if_neg (by simp [hfits]), Option.none_or]

end Registration

/-- The registrations of a history that has its last happening first, in their order. -/
def registrations : List (Happening φ ρ δ) → List (Registration φ ρ δ)
  | [] => []
  | .registered filter receiver :: history => registrations history ++ [⟨filter, receiver, []⟩]
  | .delivered item :: history => (registrations history).map (.deliver item)

variable (fits : φ → δ → Bool)

def unserved (gs : List (Registration φ ρ δ)) : List (φ × ρ) :=
  (gs.filter fun g => (g.first fits).isNone).map fun g => (g.filter, g.receiver)

def served (gs : List (Registration φ ρ δ)) : List (ρ × δ) :=
  gs.filterMap fun g => (g.first fits).map (g.receiver, ·)

section Cons
variable {fits} {g : Registration φ ρ δ} {first : δ} (gs : List (Registration φ ρ δ))

theorem unserved_cons_of_none (h : g.first fits = none) :
    unserved fits (g :: gs) = (g.filter, g.receiver) :: unserved fits gs := by
  rw [unserved, List.filter_cons_of_pos (by simp [h])]
  rfl

theorem unserved_cons_of_some (h : g.first fits = some first) :
    unserved fits (g :: gs) = unserved fits gs := by
  rw [unserved, List.filter_cons_of_neg (by simp [h])]
  rfl

theorem served_cons_of_none (h : g.first fits = none) :
    served fits (g :: gs) = served fits gs := by
  rw [served, List.filterMap_cons_none (by rw [h]; rfl)]
  rfl

theorem served_cons_of_some (h : g.first fits = some first) :
    served fits (g :: gs) = (g.receiver, first) :: served fits gs := by
  rw [served, List.filterMap_cons_some (by rw [h]; rfl)]
  rfl

end Cons

theorem unserved_register (gs : List (Registration φ ρ δ)) (filter : φ) (receiver : ρ) :
    unserved fits (gs ++ [⟨filter, receiver, []⟩]) = unserved fits gs ++ [(filter, receiver)] := by
  rw [unserved, List.filter_append, List.map_append]
  rfl

theorem served_register (gs : List (Registration φ ρ δ)) (filter : φ) (receiver : ρ) :
    served fits (gs ++ [⟨filter, receiver, []⟩]) = served fits gs := by
  rw [served, List.filterMap_append]
  exact List.append_nil _

/-- A registration goes on waiting unless the item is one that it waits for. -/
theorem unserved_deliver (gs : List (Registration φ ρ δ)) (item : δ) :
    unserved fits (gs.map (.deliver item)) =
      (unserved fits gs).filter fun waiting => !fits waiting.1 item := by
  induction gs with
  | nil => rfl
  | cons g gs ih =>
    rw [List.map_cons]
    cases hfirst : g.first fits with
    | some first =>
      rw [unserved_cons_of_some _ (Registration.first_deliver_of_some hfirst),
        unserved_cons_of_some _ hfirst, ih]
    | none =>
      rw [unserved_cons_of_none _ hfirst]
      cases hfits : fits g.filter item with
      | true =>
        rw [unserved_cons_of_some _ (Registration.first_deliver_of_fits hfirst hfits),
          List.filter_cons_of_neg (by simp [hfits]), ih]
      | false =>
        rw [unserved_cons_of_none _ (Registration.first_deliver_of_not_fits hfirst hfits),
          List.filter_cons_of_pos (by simp [hfits]), ih]
        rfl

/-- An item serves the registrations that wait for it, and no others. -/
theorem served_deliver (gs : List (Registration φ ρ δ)) (item : δ) :
    (served fits (gs.map (.deliver item))).Perm
      (served fits gs ++
        ((unserved fits gs).filter fun waiting => fits waiting.1 item).map (·.2, item)) := by
  induction gs with
  | nil => exact .nil
  | cons g gs ih =>
    rw [List.map_cons]
    cases hfirst : g.first fits with
    | some first =>
      rw [served_cons_of_some _ (Registration.first_deliver_of_some hfirst),
        served_cons_of_some _ hfirst, unserved_cons_of_some _ hfirst]
      exact ih.cons _
    | none =>
      rw [served_cons_of_none _ hfirst, unserved_cons_of_none _ hfirst]
      cases hfits : fits g.filter item with
      | true =>
        rw [served_cons_of_some _ (Registration.first_deliver_of_fits hfirst hfits),
          List.filter_cons_of_pos (by simp [hfits]), List.map_cons]
        exact (ih.cons _).trans List.perm_middle.symm
      | false =>
        rw [served_cons_of_none _ (Registration.first_deliver_of_not_fits hfirst hfits),
          List.filter_cons_of_neg (by simp [hfits])]
        exact ih

end Mqtt5.FirstMatch
