import Mathlib.Data.List.GetD
import Mqtt5.TopicAssertions

/-!
# What a topic filter matches

The matching of section 4.7 of the MQTT standard, over the levels between separators, and
`topic_filter::matches` against it.
-/
namespace Mqtt5.TopicMatching
open WirePrimitives LevelPatterns

/-- A topic name that starts with a dollar is left to the filters that start with one. -/
def MqttMatches (filter topicName : Bytes) : Prop :=
  (topicName.head? = some dollar → filter.head? = some dollar) ∧
    Covers wildcards (filter.splitOn separator) (topicName.splitOn separator)

instance (filter topicName : Bytes) : Decidable (MqttMatches filter topicName) :=
  inferInstanceAs (Decidable ((_ → _) ∧ Covers wildcards _ _))

/-- What a client may subscribe with. -/
def ValidFilter (filter : Bytes) : Prop :=
  filter ≠ [] ∧ Grammatical wildcards (filter.splitOn separator)

/-- What a server may publish to. -/
def ProperTopic (topicName : Bytes) : Prop := topicName ≠ [] ∧ 43 ∉ topicName ∧ 35 ∉ topicName

instance (topicName : Bytes) : Decidable (ProperTopic topicName) :=
  inferInstanceAs (Decidable (_ ∧ _ ∧ _))

section Loop
variable {levels name : List Level}

/-- The loop decides the levels it passes, for a pattern that covers what is left after them. -/
theorem matchesNLevels_iff {i n : ℕ} (inFilter : i + n ≤ levels.length)
    (inName : i + n ≤ name.length)
    (left : Covers wildcards (levels.drop (i + n)) (name.drop (i + n))) :
    TopicFilter.matchesNLevels levels name i n = true ↔
      Covers wildcards (levels.drop i) (name.drop i) := by
  induction n generalizing i with
  | zero => simpa [TopicFilter.matchesNLevels] using left
  | succ n ih =>
    have hf : i < levels.length := by omega
    have hn : i < name.length := by omega
    have filterLevel : levels.getD i [] = levels[i] := List.getD_eq_getElem _ _ hf
    have nameLevel : name.getD i [] = name[i] := List.getD_eq_getElem _ _ hn
    have next : i + (n + 1) = i + 1 + n := by omega
    rw [next] at inFilter inName left
    rw [List.drop_eq_getElem_cons hf, List.drop_eq_getElem_cons hn, TopicFilter.matchesNLevels,
      filterLevel, nameLevel]
    by_cases last : i = levels.length - 1 ∧ levels[i] = multiLevel
    · have empty : levels.drop (i + 1) = [] := List.drop_eq_nil_of_le (by omega)
      rw [if_pos last, empty, last.2]
      exact iff_of_true rfl (.rest _)
    · have inner : ¬(levels[i] = [wildcards.multi] ∧ levels.drop (i + 1) = []) := by
        intro ⟨hash, empty⟩
        have short := List.drop_eq_nil_iff.mp empty
        exact last ⟨by omega, hash⟩
      rw [if_neg last, covers_cons inner]
      by_cases agree : levels[i] = singleLevel ∨ levels[i] = name[i]
      · have pass : ¬(levels[i] ≠ singleLevel ∧ levels[i] ≠ name[i]) := by tauto
        rw [if_neg pass, ih inFilter inName left]
        exact (and_iff_right agree).symm
      · have stop : levels[i] ≠ singleLevel ∧ levels[i] ≠ name[i] := not_or.mp agree
        rw [if_pos stop]
        exact iff_of_false Bool.false_ne_true fun covers => agree covers.1

theorem matchesNLevels_all (same : name.length = levels.length) :
    TopicFilter.matchesNLevels levels name 0 levels.length = true ↔
      Covers wildcards levels name := by
  have left : Covers wildcards (levels.drop (0 + levels.length))
      (name.drop (0 + levels.length)) := by
    rw [Nat.zero_add, List.drop_length, ← same, List.drop_length]
    exact .nil
  have decided := matchesNLevels_iff (by omega) (by omega) left
  simpa using decided

/-- The levels before a last wildcard, for a name that has at least as many. -/
theorem matchesNLevels_rest {n : ℕ} (ne : levels ≠ []) (last : levels.getLastD [] = multiLevel)
    (inner : n = levels.length - 1) (long : n ≤ name.length) :
    TopicFilter.matchesNLevels levels name 0 n = true ↔ Covers wildcards levels name := by
  have left : Covers wildcards (levels.drop (0 + n)) (name.drop (0 + n)) := by
    rw [Nat.zero_add, inner]
    exact covers_rest_of_last _ ne last
  have decided := matchesNLevels_iff (by omega) (by omega) left
  simpa using decided

end Loop

section Matches
variable {f : TopicFilter} {topicName : Bytes}

/-- The three comparisons of lengths, against one recursion over levels. -/
theorem matches_iff_covers (hf : f.levels ≠ []) (ht : topicName ≠ []) :
    f.matches topicName = true ↔
      (topicName.head? = some dollar → (f.levels.headD []).head? = some dollar) ∧
        Covers wildcards f.levels (topicName.splitOn separator) := by
  unfold TopicFilter.matches
  simp only [fromString_levels ht]
  by_cases hidden : topicName.head? = some dollar ∧ (f.levels.headD []).head? ≠ some dollar
  · rw [if_pos hidden]
    exact iff_of_false Bool.false_ne_true fun ⟨front, _⟩ => hidden.2 (front hidden.1)
  · have front : topicName.head? = some dollar → (f.levels.headD []).head? = some dollar := by
      intro h
      by_contra other
      exact hidden ⟨h, other⟩
    rw [if_neg hidden, and_iff_right front]
    have filterLength : 0 < f.levels.length := List.length_pos_iff.mpr hf
    generalize topicName.splitOn separator = name
    by_cases shorter : name.length < f.levels.length
    · rw [if_pos shorter]
      by_cases parent : name.length = f.levels.length - 1
      · rw [if_neg (not_not.mpr parent)]
        by_cases last : f.levels.getLastD [] = multiLevel
        · rw [if_neg (not_not.mpr last)]
          exact matchesNLevels_rest hf last parent le_rfl
        · rw [if_pos last]
          exact iff_of_false Bool.false_ne_true fun covers => last (covers.last (by omega))
      · rw [if_pos parent]
        apply iff_of_false Bool.false_ne_true
        intro covers
        have := covers.lengths
        omega
    · rw [if_neg shorter]
      by_cases longer : name.length > f.levels.length
      · rw [if_pos longer]
        by_cases last : f.levels.getLastD [] = multiLevel
        · rw [if_pos last]
          exact matchesNLevels_rest hf last rfl (by omega)
        · rw [if_neg last]
          exact iff_of_false Bool.false_ne_true fun covers => last (covers.last (by omega))
      · rw [if_neg longer]
        exact matchesNLevels_all (by omega)

theorem head_of_levels (s : Bytes) :
    ((s.splitOn separator).headD []).head? = some dollar ↔ s.head? = some dollar := by
  cases s with
  | nil => simp
  | cons b rest =>
    rw [List.splitOn_cons_eq_if_modifyHead]
    by_cases sep : b = separator
    · subst sep
      have other : separator ≠ dollar := by decide
      simp [other]
    · obtain ⟨level, levels, split⟩ :=
        List.exists_cons_of_ne_nil (List.splitOn_ne_nil separator rest)
      simp [sep, split]

theorem matches_eq_mqtt {filter : Bytes} (hf : filter ≠ []) (ht : topicName ≠ []) :
    (TopicFilter.fromString filter).matches topicName = decide (MqttMatches filter topicName) := by
  have levels := fromString_levels hf
  have ne : (TopicFilter.fromString filter).levels ≠ [] := by
    rw [levels]
    exact List.splitOn_ne_nil _ _
  have covers := matches_iff_covers ne ht
  rw [levels, head_of_levels] at covers
  exact Bool.eq_iff_iff.mpr (covers.trans decide_eq_true_iff.symm)

end Matches

section Assertions

theorem mem_of_mem_parseLevels {s : Bytes} {level l : Level} (hl : l ∈ parseLevels s level)
    {b : UInt8} (hb : b ∈ l) : b ∈ s ∨ b ∈ level := by
  fun_induction parseLevels s level with
  | case1 level =>
    rw [List.mem_singleton] at hl
    subst hl
    exact .inr (List.mem_reverse.mp hb)
  | case2 rest level ih =>
    obtain first | later := List.mem_cons.mp hl
    · subst first
      exact .inr (List.mem_reverse.mp hb)
    · have mem := ih later
      simp only [List.not_mem_nil, or_false] at mem
      exact .inl (List.mem_cons_of_mem _ mem)
  | case3 c rest level _ ih =>
    have mem := ih hl
    simp only [List.mem_cons] at mem ⊢
    tauto

theorem ProperTopic.plain {topicName : Bytes} (h : ProperTopic topicName) :
    Plain wildcards (topicName.splitOn separator) := by
  have among : ∀ level ∈ topicName.splitOn separator, ∀ b ∈ level, b ∈ topicName := by
    intro level hl b hb
    rw [← parseLevels_nil] at hl
    simpa using mem_of_mem_parseLevels hl hb
  obtain ⟨_, plus, hash⟩ := h
  exact fun level hl => ⟨fun hb => plus (among _ hl _ hb), fun hb => hash (among _ hl _ hb)⟩

theorem matchesAsserting_of_proper {f : TopicFilter} {topicName : Bytes}
    (h : ProperTopic topicName) : f.matchesAsserting topicName = some (f.matches topicName) := by
  have free : ¬topicName.any (fun ch => ch = 43 ∨ ch = 35) := by
    obtain ⟨_, plus, hash⟩ := h
    simp only [List.any_eq_true, decide_eq_true_eq]
    intro ⟨ch, mem, either⟩
    obtain rfl | rfl := either
    · exact plus mem
    · exact hash mem
  have parsed := (fromStringAsserting_iff h.1).mpr
    ⟨rfl, checked_of_grammatical h.plain.grammatical⟩
  rw [TopicFilter.matchesAsserting, if_neg free, parsed]
  by_cases hidden : topicName.head? = some dollar ∧ (f.levels.headD []).head? ≠ some dollar
  · rw [if_pos hidden, TopicFilter.matches, if_pos hidden]
  · rw [if_neg hidden, Option.map_some]

/-- The assertions that `matches` reaches are about the topic name alone. -/
theorem matchesAsserting_isSome {f : TopicFilter} {topicName : Bytes} :
    (f.matchesAsserting topicName).isSome ↔ ProperTopic topicName := by
  constructor
  · intro held
    unfold TopicFilter.matchesAsserting at held
    split at held
    · simp at held
    · rename_i free
      simp only [List.any_eq_true, decide_eq_true_eq, not_exists, not_and, not_or] at free
      refine ⟨?_, fun plus => (free 43 plus).1 rfl, fun hash => (free 35 hash).2 rfl⟩
      intro empty
      subst empty
      simp [TopicFilter.fromStringAsserting] at held
  · intro h
    rw [matchesAsserting_of_proper h]
    rfl

end Assertions

/-- Matching is that of the standard, and with assertions none fails on the way. -/
theorem valid_filter_matches {filter topicName : Bytes} (valid : ValidFilter filter)
    (proper : ProperTopic topicName) :
    (TopicFilter.fromString filter).matches topicName = decide (MqttMatches filter topicName) ∧
      (TopicFilter.fromStringAsserting filter).bind (·.matchesAsserting topicName) =
        some (decide (MqttMatches filter topicName)) := by
  have decided := matches_eq_mqtt valid.1 proper.1
  have parsed := (fromStringAsserting_iff valid.1).mpr ⟨rfl, checked_of_grammatical valid.2⟩
  constructor
  · exact decided
  · rw [parsed, Option.bind_some, matchesAsserting_of_proper proper, decided]

/-- `a/+/#` and the name `a/`, whose second level is empty. -/
theorem valid_filter_matches_empty_level :
    (TopicFilter.fromString [97, 47, 43, 47, 35]).matches [97, 47] =
        decide (MqttMatches [97, 47, 43, 47, 35] [97, 47]) ∧
      (TopicFilter.fromStringAsserting [97, 47, 43, 47, 35]).bind
          (·.matchesAsserting [97, 47]) =
        some (decide (MqttMatches [97, 47, 43, 47, 35] [97, 47])) :=
  valid_filter_matches ⟨by decide, by decide⟩ ⟨by decide, by decide, by decide⟩

example : MqttMatches [97, 47, 43, 47, 35] [97, 47] ∧ ¬MqttMatches [43, 47, 35] [36, 83] := by
  decide
end Mqtt5.TopicMatching
