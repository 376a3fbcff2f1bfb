import Mathlib.Data.List.TakeDrop

/-!
# Patterns over levels

A name is a list of levels, and a level is a word. Two letters are kept back from names: in a
pattern, one alone on a level stands for any one level, the other alone on the last level
stands for whatever is left of the name.
-/
namespace Mqtt5.LevelPatterns

variable {α : Type*}

structure Wildcards (α : Type*) where
  single : α
  multi : α
  distinct : single ≠ multi

variable (w : Wildcards α)

/-- The rest of a name may be empty, so that a pattern covers the parent level as well. -/
inductive Covers : List (List α) → List (List α) → Prop
  | nil : Covers [] []
  | rest (name : List (List α)) : Covers [[w.multi]] name
  | single (level : List α) {pattern name : List (List α)} :
      Covers pattern name → Covers ([w.single] :: pattern) (level :: name)
  | level (level : List α) {pattern name : List (List α)} :
      Covers pattern name → Covers (level :: pattern) (level :: name)

/-- What every level but the last has to be. -/
def Inner (level : List α) : Prop :=
  w.multi ∉ level ∧ (w.single ∈ level → level = [w.single])

/-- A wildcard is alone on its level, and the one for the rest of a name is on the last level. -/
def Grammatical : List (List α) → Prop
  | [] => True
  | level :: rest =>
      (w.multi ∈ level → level = [w.multi] ∧ rest = []) ∧
        (w.single ∈ level → level = [w.single]) ∧ Grammatical rest

/-- A name has none of the wildcards. -/
def Plain (name : List (List α)) : Prop :=
  ∀ level ∈ name, w.single ∉ level ∧ w.multi ∉ level

variable {w}

instance Grammatical.decidable [DecidableEq α] : DecidablePred (Grammatical w)
  | [] => isTrue trivial
  | level :: rest =>
    have := Grammatical.decidable rest
    inferInstanceAs (Decidable ((w.multi ∈ level → level = [w.multi] ∧ rest = []) ∧
      (w.single ∈ level → level = [w.single]) ∧ Grammatical w rest))

section Grammar

theorem grammatical_cons {level : List α} {rest : List (List α)} (h : rest ≠ []) :
    Grammatical w (level :: rest) ↔ Inner w level ∧ Grammatical w rest := by
  simp only [Grammatical, Inner, h, and_false, imp_false, and_assoc]

theorem grammatical_append {inner rest : List (List α)} (h : rest ≠ []) :
    Grammatical w (inner ++ rest) ↔ (∀ level ∈ inner, Inner w level) ∧ Grammatical w rest := by
  induction inner with
  | nil => simp
  | cons level inner ih =>
    have more : inner ++ rest ≠ [] := by simp [h]
    rw [List.cons_append, grammatical_cons more, ih, List.forall_mem_cons, and_assoc]

theorem grammatical_nil_level : Grammatical w [[]] := by simp [Grammatical]

theorem Plain.grammatical {name : List (List α)} (h : Plain w name) : Grammatical w name := by
  induction name with
  | nil => trivial
  | cons level rest ih =>
    obtain ⟨single, multi⟩ := h level (by simp)
    have plain : Plain w rest := fun l hl => h l (List.mem_cons_of_mem _ hl)
    exact ⟨fun hm => absurd hm multi, fun hs => absurd hs single, ih plain⟩

end Grammar

section Coverage

theorem covers_cons {level l : List α} {pattern name : List (List α)}
    (h : ¬(level = [w.multi] ∧ pattern = [])) :
    Covers w (level :: pattern) (l :: name) ↔
      (level = [w.single] ∨ level = l) ∧ Covers w pattern name := by
  constructor
  · intro covers
    cases covers with
    | rest => exact absurd ⟨rfl, rfl⟩ h
    | single _ rest => exact ⟨.inl rfl, rest⟩
    | level _ rest => exact ⟨.inr rfl, rest⟩
  · intro ⟨agree, rest⟩
    obtain rfl | rfl := agree
    · exact .single _ rest
    · exact .level _ rest

instance Covers.decidable [DecidableEq α] :
    (pattern name : List (List α)) → Decidable (Covers w pattern name)
  | [], [] => isTrue .nil
  | [], _ :: _ => isFalse nofun
  | p :: pattern, name =>
    if h : p = [w.multi] ∧ pattern = [] then
      isTrue (by rw [h.1, h.2]; exact .rest name)
    else
      match name with
      | [] => isFalse fun covers => by
          cases covers
          exact h ⟨rfl, rfl⟩
      | l :: name =>
        have := Covers.decidable pattern name
        decidable_of_iff _ (covers_cons h).symm

/-- A pattern is at most one level longer, and only a last wildcard lets the lengths differ. -/
theorem Covers.lengths {pattern name : List (List α)} (h : Covers w pattern name) :
    pattern.length = name.length ∨
      pattern.length ≤ name.length + 1 ∧ pattern.getLastD [] = [w.multi] := by
  induction h with
  | nil => exact .inl rfl
  | rest name => exact .inr ⟨by simp, rfl⟩
  | single level rest ih | level level rest ih =>
    obtain same | ⟨length, last⟩ := ih
    · exact .inl (by simp [same])
    · rename_i pattern name
      cases pattern with
      | nil => exact .inl (by simp at last)
      | cons p ps => exact .inr ⟨by simpa using length, by simpa using last⟩

theorem Covers.last {pattern name : List (List α)} (h : Covers w pattern name)
    (ne : name.length ≠ pattern.length) : pattern.getLastD [] = [w.multi] := by
  obtain same | ⟨_, last⟩ := h.lengths
  · exact absurd same.symm ne
  · exact last

theorem covers_rest_of_last {pattern : List (List α)} (name : List (List α))
    (ne : pattern ≠ []) (last : pattern.getLastD [] = [w.multi]) :
    Covers w (pattern.drop (pattern.length - 1)) name := by
  rw [List.getLastD_eq_getLast?, List.getLast?_eq_some_getLast ne, Option.getD_some] at last
  rw [List.drop_length_sub_one ne, last]
  exact .rest name

end Coverage
end Mqtt5.LevelPatterns
