import Mqtt5.LevelPatterns
import Mqtt5.TopicMatching

/-!
# The assertions of the topic filter

`mqtt5::topic_filter` with its assertions compiled in: `none` is a failed assertion.
-/
namespace Mqtt5.TopicMatching
open WirePrimitives LevelPatterns

def wildcards : Wildcards UInt8 := ⟨43, 35, by decide⟩

def isValidLevel (level : Level) (restOfFilter : Bytes) : Bool :=
  if level = multiLevel then restOfFilter.isEmpty
  else if 35 ∈ level then false
  else if 43 ∈ level ∧ level.length > 1 then false
  else true

/-- The loop of `parse_inplace`. When a separator ends the filter, the level checked is the empty
one just appended, and the level before that separator is not checked at all. -/
def parseLevelsAsserting : Bytes → Level → Option (List Level)
  | [], level => if isValidLevel level.reverse [] then some [level.reverse] else none
  | b :: rest, level =>
      if b = separator then
        if rest = [] then
          if isValidLevel [] rest then some [level.reverse, []] else none
        else if isValidLevel level.reverse rest then
          (parseLevelsAsserting rest []).map (level.reverse :: ·)
        else none
      else parseLevelsAsserting rest (b :: level)

namespace TopicFilter

def fromStringAsserting (filter : Bytes) : Option TopicFilter :=
  if filter = [] then none else (parseLevelsAsserting filter []).map (⟨·⟩)

/-- The topic name is parsed as a filter, with the assertions of a filter, and only a dollar
at its front returns before that. -/
def matchesAsserting (f : TopicFilter) (topicName : Bytes) : Option Bool :=
  if topicName.any (fun ch => ch = 43 ∨ ch = 35) then none
  else if topicName.head? = some dollar ∧ (f.levels.headD []).head? ≠ some dollar then some false
  else (fromStringAsserting topicName).map fun _ => f.matches topicName

end TopicFilter

theorem isValidLevel_iff {level : Level} {rest : Bytes} :
    isValidLevel level rest = true ↔
      (35 ∈ level → level = [35] ∧ rest = []) ∧ (43 ∈ level → level = [43]) := by
  have alone : 43 ∈ level → (level = [43] ↔ ¬level.length > 1) := by
    intro mem
    cases level with
    | nil => simp at mem
    | cons b more =>
      cases more with
      | nil => simpa [eq_comm] using mem
      | cons c more => simp
  unfold isValidLevel
  split
  · rename_i h
    simp [h, multiLevel]
  · rename_i h
    have hash : ¬level = [35] := h
    simp only [hash, false_and, imp_false]
    split
    · simp_all
    · split
      · simp_all
      · simp_all

theorem parseLevels_eq_splitOnPPrepend (s : Bytes) (level : Level) :
    parseLevels s level = s.splitOnPPrepend (· == separator) level := by
  fun_induction parseLevels s level with
  | case1 level => simp
  | case2 rest level ih =>
    rw [List.splitOnPPrepend_cons_pos (by simp), ih, List.splitOnPPrepend_nil_right]
  | case3 b rest level h ih => rw [List.splitOnPPrepend_cons_neg (by simpa using h), ih]

theorem parseLevels_nil (s : Bytes) : parseLevels s [] = s.splitOn separator := by
  rw [parseLevels_eq_splitOnPPrepend, List.splitOnPPrepend_nil_right, List.splitOn_eq_splitOnP]

theorem fromString_levels {s : Bytes} (h : s ≠ []) :
    (TopicFilter.fromString s).levels = s.splitOn separator := by
  rw [TopicFilter.fromString, if_neg h, parseLevels_nil]

theorem splitOn_eq_nil_level {s : Bytes} : s.splitOn separator = [[]] ↔ s = [] := by
  constructor
  · intro h
    have joined : [separator].intercalate (s.splitOn separator) = s :=
      List.intercalate_splitOn separator
    rw [← joined, h]
    rfl
  · intro h
    rw [h, List.splitOn_nil]

/-- The levels that the loop has checked, each against what follows it. -/
def Checked : List Level → Prop
  | [] => True
  | [level] => Grammatical wildcards [level]
  | [_, []] => True
  | level :: next :: rest => Inner wildcards level ∧ Checked (next :: rest)

theorem isValidLevel_inner {level : Level} {rest : Bytes} (h : rest ≠ []) :
    isValidLevel level rest = true ↔ Inner wildcards level := by
  rw [isValidLevel_iff]
  simp only [h, and_false, imp_false]
  rfl

theorem isValidLevel_last {level : Level} :
    isValidLevel level [] = true ↔ Grammatical wildcards [level] := by
  rw [isValidLevel_iff]
  simp only [Grammatical, and_true]
  rfl

theorem checked_cons {level : Level} {rest : List Level} (some : rest ≠ []) (h : rest ≠ [[]]) :
    Checked (level :: rest) ↔ Inner wildcards level ∧ Checked rest := by
  match rest with
  | [] => exact absurd rfl some
  | [[]] => exact absurd rfl h
  | (_ :: _) :: _ => rfl
  | [] :: _ :: _ => rfl

theorem parseLevelsAsserting_iff {s : Bytes} {level : Level} {levels : List Level} :
    parseLevelsAsserting s level = some levels ↔
      levels = parseLevels s level ∧ Checked levels := by
  induction s generalizing level levels with
  | nil =>
    have check : isValidLevel level.reverse [] = true ↔ Grammatical wildcards [level.reverse] :=
      isValidLevel_last
    simp only [parseLevelsAsserting, parseLevels, check, Option.ite_none_right_eq_some,
      Option.some.injEq]
    constructor
    · intro ⟨valid, same⟩
      subst same
      exact ⟨rfl, valid⟩
    · intro ⟨same, checked⟩
      subst same
      exact ⟨checked, rfl⟩
  | cons b rest ih =>
    by_cases sep : b = separator
    · by_cases last : rest = []
      · subst last
        have check : isValidLevel [] [] = true := rfl
        simp only [parseLevelsAsserting, parseLevels, sep, if_true, check, Option.some.injEq,
          List.reverse_nil]
        constructor
        · intro same
          subst same
          exact ⟨rfl, trivial⟩
        · intro ⟨same, _⟩
          exact same.symm
      · have more : parseLevels rest [] ≠ [[]] := by
          rw [parseLevels_nil]
          exact fun h => last (splitOn_eq_nil_level.mp h)
        have ne : parseLevels rest [] ≠ [] := by
          rw [parseLevels_nil]
          exact List.splitOn_ne_nil _ _
        simp only [parseLevelsAsserting, parseLevels, sep, if_true, last, if_false,
          isValidLevel_inner last, Option.ite_none_right_eq_some, Option.map_eq_some_iff, ih]
        constructor
        · intro ⟨inner, tail, ⟨parsed, checked⟩, same⟩
          subst parsed same
          exact ⟨rfl, (checked_cons ne more).mpr ⟨inner, checked⟩⟩
        · intro ⟨same, checked⟩
          subst same
          obtain ⟨inner, checked⟩ := (checked_cons ne more).mp checked
          exact ⟨inner, _, ⟨rfl, checked⟩, rfl⟩
    · simp only [parseLevelsAsserting, parseLevels, sep, if_false, ih]

theorem fromStringAsserting_iff {s : Bytes} (h : s ≠ []) {f : TopicFilter} :
    TopicFilter.fromStringAsserting s = some f ↔
      f = TopicFilter.fromString s ∧ Checked (s.splitOn separator) := by
  have released := fromString_levels h
  simp only [TopicFilter.fromStringAsserting, h, if_false, Option.map_eq_some_iff,
    parseLevelsAsserting_iff, parseLevels_nil]
  constructor
  · intro ⟨levels, ⟨parsed, checked⟩, same⟩
    subst parsed same
    exact ⟨congrArg TopicFilter.mk released.symm, checked⟩
  · intro ⟨same, checked⟩
    exact ⟨_, ⟨rfl, checked⟩, by rw [same, ← released]⟩

theorem fromStringAsserting_isSome {s : Bytes} (h : s ≠ []) :
    (TopicFilter.fromStringAsserting s).isSome ↔ Checked (s.splitOn separator) := by
  rw [Option.isSome_iff_exists]
  simp [fromStringAsserting_iff h]

section Grammar

/-- A separator ends the filter, and a misplaced wildcard just before it is the only fault. -/
def Overlooked (levels : List Level) : Prop :=
  ∃ checked level, levels = checked ++ [level, []] ∧
    (∀ l ∈ checked, Inner wildcards l) ∧ ¬Inner wildcards level

theorem checked_trailing {checked : List Level} {level : Level} :
    Checked (checked ++ [level, []]) ↔ ∀ l ∈ checked, Inner wildcards l := by
  induction checked with
  | nil => simp [Checked]
  | cons l checked ih =>
    have some : checked ++ [level, []] ≠ [] := by simp
    have more : checked ++ [level, []] ≠ [[]] := by
      intro h
      have := congrArg List.length h
      simp at this
    rw [List.cons_append, checked_cons some more, ih, List.forall_mem_cons]

theorem grammatical_trailing {checked : List Level} {level : Level} :
    Grammatical wildcards (checked ++ [level, []]) ↔
      (∀ l ∈ checked, Inner wildcards l) ∧ Inner wildcards level := by
  rw [grammatical_append (by simp), grammatical_cons (by simp)]
  simp only [grammatical_nil_level, and_true]

theorem checked_of_not_trailing {levels : List Level}
    (h : ∀ checked level, levels ≠ checked ++ [level, []]) :
    Checked levels ↔ Grammatical wildcards levels := by
  induction levels with
  | nil => rfl
  | cons level rest ih =>
    by_cases last : rest = []
    · rw [last]
      rfl
    · have more : rest ≠ [[]] := fun same => h [] level (by rw [same]; rfl)
      have tail : ∀ checked l, rest ≠ checked ++ [l, []] :=
        fun checked l same => h (level :: checked) l (by rw [same]; rfl)
      rw [checked_cons last more, grammatical_cons last, ih tail]

theorem checked_iff_grammatical {levels : List Level} :
    (Checked levels ↔ Grammatical wildcards levels) ↔ ¬Overlooked levels := by
  by_cases trailing : ∃ checked level, levels = checked ++ [level, []]
  · obtain ⟨checked, level, rfl⟩ := trailing
    have overlooked : Overlooked (checked ++ [level, []]) ↔
        (∀ l ∈ checked, Inner wildcards l) ∧ ¬Inner wildcards level := by
      constructor
      · intro ⟨checked', level', same, inner⟩
        have parts := List.append_inj' same rfl
        simp only [List.cons.injEq, and_true] at parts
        rw [parts.1, parts.2]
        exact inner
      · intro inner
        exact ⟨checked, level, rfl, inner⟩
    rw [checked_trailing, grammatical_trailing, overlooked]
    tauto
  · have agree := checked_of_not_trailing fun checked level same =>
      trailing ⟨checked, level, same⟩
    have none : ¬Overlooked levels :=
      fun ⟨checked, level, same, _⟩ => trailing ⟨checked, level, same⟩
    simp only [agree, none, not_false_eq_true]

theorem checked_of_grammatical {levels : List Level} (h : Grammatical wildcards levels) :
    Checked levels := by
  have fine : ¬Overlooked levels := by
    intro ⟨checked, level, same, _, misplaced⟩
    rw [same] at h
    exact misplaced (grammatical_trailing.mp h).2
  exact (checked_iff_grammatical.mpr fine).mpr h

/-- With assertions, a filter is accepted exactly when it is grammatical, unless a separator
ends it: the level before that separator is never checked. -/
theorem accepted_iff_grammatical {s : Bytes} (h : s ≠ []) :
    ((TopicFilter.fromStringAsserting s).isSome ↔ Grammatical wildcards (s.splitOn separator)) ↔
      ¬Overlooked (s.splitOn separator) := by
  rw [fromStringAsserting_isSome h]
  exact checked_iff_grammatical

/-- For `a/` and for `#/+`. -/
theorem accepted_iff_grammatical_at :
    (((TopicFilter.fromStringAsserting [97, 47]).isSome ↔
        Grammatical wildcards ([97, 47].splitOn separator)) ↔
      ¬Overlooked ([97, 47].splitOn separator)) ∧
    (((TopicFilter.fromStringAsserting [35, 47, 43]).isSome ↔
        Grammatical wildcards ([35, 47, 43].splitOn separator)) ↔
      ¬Overlooked ([35, 47, 43].splitOn separator)) :=
  ⟨accepted_iff_grammatical (by decide), accepted_iff_grammatical (by decide)⟩

/-- `#/` is accepted although its last level is empty. -/
theorem hash_before_separator_accepted :
    TopicFilter.fromStringAsserting [35, 47] = some ⟨[[35], []]⟩ ∧
      ¬Grammatical wildcards ([35, 47].splitOn separator) := by
  constructor
  · decide
  · decide

end Grammar
end Mqtt5.TopicMatching
