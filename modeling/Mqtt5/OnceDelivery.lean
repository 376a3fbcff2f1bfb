import Mathlib.Tactic.Common
import Mathlib.Data.List.Basic

/-!
# Exactly-once delivery

A receiver gets messages, each under a key, that may be repeated until they are released,
and releases that may be repeated too. It keeps the first message under a key since the
key's last release, and delivers it on the next release. Histories have the last arrival
first.
-/
namespace Mqtt5.OnceDelivery

inductive Arrival (ι μ : Type) where
  | message (m : μ)
  | release (id : ι)
  deriving DecidableEq

variable {ι μ : Type} [DecidableEq ι] (key : μ → ι)

/-- The message that a release of `id` would deliver. -/
def held : List (Arrival ι μ) → ι → Option μ
  | [], _ => none
  | .message m :: older, id =>
      if key m = id then some ((held older id).getD m) else held older id
  | .release id' :: older, id => if id' = id then none else held older id

variable {key}

/-- What is held under a key came first since the key was last released. -/
theorem held_eq_some_iff {h : List (Arrival ι μ)} {id : ι} {m : μ} :
    held key h id = some m ↔ ∃ newer older, h = newer ++ .message m :: older ∧ key m = id ∧
      (∀ r ∈ newer, r ≠ .release id) ∧ held key older id = none := by
  induction h with
  | nil => simp [held]
  | cons r h ih =>
    constructor
    · intro hheld
      cases r with
      | message m' =>
        rw [held] at hheld
        split at hheld
        case isTrue hkey =>
          cases hold : held key h id with
          | none =>
            rw [hold] at hheld
            cases hheld
            exact ⟨[], h, rfl, hkey, by simp, hold⟩
          | some m₀ =>
            rw [hold] at hheld
            cases hheld
            obtain ⟨newer, older, rfl, hm, hrel, hnone⟩ := ih.mp hold
            exact ⟨.message m' :: newer, older, rfl, hm, by simpa using hrel, hnone⟩
        case isFalse =>
          obtain ⟨newer, older, rfl, hm, hrel, hnone⟩ := ih.mp hheld
          exact ⟨.message m' :: newer, older, rfl, hm, by simpa using hrel, hnone⟩
      | release id' =>
        rw [held] at hheld
        split at hheld
        case isTrue => cases hheld
        case isFalse hne =>
          obtain ⟨newer, older, rfl, hm, hrel, hnone⟩ := ih.mp hheld
          refine ⟨.release id' :: newer, older, rfl, hm, ?_, hnone⟩
          intro r hr
          rcases List.mem_cons.mp hr with rfl | hr
          · intro h
            injection h with h
            exact hne h
          · exact hrel r hr
    · rintro ⟨newer, older, heq, hm, hrel, hnone⟩
      cases newer with
      | nil =>
        cases heq
        rw [held, if_pos hm, hnone]
        rfl
      | cons r' newer =>
        injection heq with hr hh
        subst hr
        have hheld : held key h id = some m :=
          ih.mpr ⟨newer, older, hh, hm, fun r hr => hrel r (List.mem_cons_of_mem _ hr), hnone⟩
        cases r with
        | message m' =>
          rw [held]
          split
          · rw [hheld]
            rfl
          · exact hheld
        | release id' =>
          have hne : id' ≠ id := fun h => hrel _ List.mem_cons_self (by rw [h])
          rw [held, if_neg hne, hheld]

/-! ## A list that keeps the messages -/

variable (key) in
/-- A list holds what the history says, under pairwise different keys. -/
structure Represents (store : List μ) (h : List (Arrival ι μ)) : Prop where
  nodup : (store.map key).Nodup
  find : ∀ id, store.find? (fun m => key m = id) = held key h id

theorem represents_nil : Represents key [] ([] : List (Arrival ι μ)) := ⟨by simp, fun _ => rfl⟩

/-- A message under a key that is taken changes nothing. -/
theorem Represents.repeated {store : List μ} {h : List (Arrival ι μ)} (hs : Represents key store h)
    {m : μ} (htaken : store.any (fun m' => key m' = key m) = true) :
    Represents key store (.message m :: h) := by
  refine ⟨hs.nodup, fun id => ?_⟩
  rw [held, hs.find]
  split
  case isTrue hkey =>
    rw [← hkey, ← hs.find]
    obtain ⟨m', hm', hm⟩ := List.any_eq_true.mp htaken
    cases hfind : store.find? (fun m' => key m' = key m) with
    | none => exact absurd hm (by simpa using List.find?_eq_none.mp hfind m' hm')
    | some m₀ => rfl
  case isFalse => rfl

/-- A message under a free key is kept at the end. -/
theorem Represents.kept {store : List μ} {h : List (Arrival ι μ)} (hs : Represents key store h)
    {m : μ} (hfree : store.any (fun m' => key m' = key m) = false) :
    Represents key (store ++ [m]) (.message m :: h) := by
  have hnone : store.find? (fun m' => key m' = key m) = none := by
    rw [List.find?_eq_none]
    intro m' hm'
    have hany := List.any_eq_false.mp hfree m' hm'
    exact hany
  constructor
  · rw [List.map_append, List.nodup_append]
    refine ⟨hs.nodup, by simp, ?_⟩
    intro k hk k' hk'
    obtain ⟨m', hm', rfl⟩ := List.mem_map.mp hk
    rw [List.mem_singleton.mp hk']
    simpa using List.any_eq_false.mp hfree m' hm'
  · intro id
    rw [held, List.find?_append, hs.find]
    split
    case isTrue hkey =>
      rw [← hkey, ← hs.find, hnone]
      simp
    case isFalse hkey =>
      have hlast : List.find? (fun m' => decide (key m' = id)) [m] = none := by simp [hkey]
      rw [hlast, Option.or_none]

/-- A release takes the message under its key away. -/
theorem Represents.released {store : List μ} {h : List (Arrival ι μ)} (hs : Represents key store h)
    (id : ι) : Represents key (store.eraseP fun m => key m = id) (.release id :: h) := by
  have hsub : (store.eraseP fun m => key m = id).Sublist store := List.eraseP_sublist
  refine ⟨(hsub.map key).nodup hs.nodup, fun id' => ?_⟩
  rw [held, ← hs.find]
  have hnodup := hs.nodup
  clear hs hsub
  induction store with
  | nil => simp
  | cons m store ih =>
    rw [List.map_cons, List.nodup_cons] at hnodup
    by_cases hm : key m = id
    · rw [List.eraseP_cons_of_pos (by simpa using hm)]
      split
      case isTrue hid =>
        rw [List.find?_eq_none]
        intro m' hm' hkey
        apply hnodup.1
        rw [hm, hid, ← of_decide_eq_true hkey]
        exact List.mem_map_of_mem hm'
      case isFalse hid =>
        rw [List.find?_cons_of_neg (by simpa [hm] using hid)]
    · rw [List.eraseP_cons_of_neg (by simpa using hm)]
      by_cases hm' : key m = id'
      · have hne : id ≠ id' := fun h => hm (hm'.trans h.symm)
        rw [List.find?_cons_of_pos (by simpa using hm'), if_neg hne,
          List.find?_cons_of_pos (by simpa using hm')]
      · rw [List.find?_cons_of_neg (by simpa using hm'), List.find?_cons_of_neg (by simpa using hm'),
          ih hnodup.2]

end Mqtt5.OnceDelivery
