import Mathlib.Data.List.TakeWhile
import Mqtt5.ClientAccounting
import Mqtt5.TopicAssertions

/-!
# Topic filters and their text

The loop of `parse_inplace` cuts a filter at each separator and `to_string` puts them back,
so a filter is its text, and a subscribe sends the text that its filters were made from.
-/
namespace Mqtt5.TopicMatching
open ByteWriter WirePrimitives WireHeader

/-! ## The loops of the source -/

/-- `parse_inplace` on the view that is left, with the levels found before it. -/
def parseInplace (filter : Bytes) (levels : List Level) : List Level :=
  if filter = [] then levels
  else
    let level := filter.takeWhile (· ≠ separator)
    match h : filter.dropWhile (· ≠ separator) with
    | [] => levels ++ [level]
    | _ :: rest =>
        if rest = [] then levels ++ [level] ++ [[]]
        else parseInplace rest (levels ++ [level])
termination_by filter.length
decreasing_by
  have hle := (List.dropWhile_sublist (l := filter) (· ≠ separator)).length_le
  rw [h, List.length_cons] at hle
  omega

/-- `to_string` on the levels that are left; the separator comes before all but the first. -/
def appendLevels : List Level → Bool → Bytes → Bytes
  | [], _, retval => retval
  | level :: levels, isFirst, retval =>
      let retval := if isFirst then retval else retval ++ [separator]
      appendLevels levels false (retval ++ level)

/-- Without a separator, the level is all that is left. -/
theorem not_mem_of_dropWhile {s : Bytes} (h : s.dropWhile (· ≠ separator) = []) :
    separator ∉ s ∧ s.takeWhile (· ≠ separator) = s := by
  have hall := List.dropWhile_eq_nil_iff.mp h
  have hwhole := List.takeWhile_append_dropWhile (p := (· ≠ separator)) (l := s)
  rw [h, List.append_nil] at hwhole
  refine ⟨fun hmem => ?_, hwhole⟩
  simpa using hall separator hmem

/-- Otherwise the level ends at the first one. -/
theorem split_of_dropWhile {s rest : Bytes} {b : UInt8}
    (h : s.dropWhile (· ≠ separator) = b :: rest) :
    separator ∉ s.takeWhile (· ≠ separator) ∧
      s = s.takeWhile (· ≠ separator) ++ separator :: rest := by
  have hwhole := List.takeWhile_append_dropWhile (p := (· ≠ separator)) (l := s)
  have hhead := List.head?_dropWhile_not (· ≠ separator) s
  rw [h] at hwhole hhead
  obtain rfl : b = separator := by simpa using hhead
  refine ⟨fun hmem => ?_, hwhole.symm⟩
  simpa using List.mem_takeWhile_imp hmem

theorem parseInplace_eq (filter : Bytes) (levels : List Level) :
    parseInplace filter levels =
      levels ++ if filter = [] then [] else filter.splitOn separator := by
  fun_induction parseInplace filter levels with
  | case1 levels => simp
  | case2 filter levels hne level h =>
    obtain ⟨hmem, hlevel⟩ := not_mem_of_dropWhile h
    rw [if_neg hne, List.splitOn_eq_singleton hmem]
    exact congrArg (levels ++ [·]) hlevel
  | case3 filter levels hne level b h =>
    obtain ⟨hmem, hsplit⟩ := split_of_dropWhile h
    rw [if_neg hne, hsplit, List.splitOn_append_cons_self_of_not_mem hmem, List.append_assoc]
    rfl
  | case4 filter levels hne level b rest h hrest ih =>
    obtain ⟨hmem, hsplit⟩ := split_of_dropWhile h
    rw [ih, if_neg hrest, if_neg hne]
    conv_rhs => rw [hsplit, List.splitOn_append_cons_self_of_not_mem hmem]
    rw [List.append_assoc]
    rfl

theorem fromString_eq_loop (s : Bytes) : TopicFilter.fromString s = ⟨parseInplace s []⟩ := by
  rw [parseInplace_eq, List.nil_append]
  by_cases h : s = []
  · rw [TopicFilter.fromString, if_pos h, if_pos h]
  · rw [if_neg h, ← fromString_levels h]

theorem appendLevels_false (levels : List Level) (retval : Bytes) :
    appendLevels levels false retval = retval ++ levels.flatMap (separator :: ·) := by
  induction levels generalizing retval with
  | nil => simp [appendLevels]
  | cons level levels ih =>
    rw [appendLevels, ih, List.flatMap_cons]
    simp

theorem intercalate_eq_flatMap (level : Level) (levels : List Level) :
    [separator].intercalate (level :: levels) = level ++ levels.flatMap (separator :: ·) := by
  induction levels generalizing level with
  | nil => simp
  | cons next levels ih =>
    rw [List.intercalate_cons_cons, ih, List.flatMap_cons]
    simp

theorem toString_eq_loop (f : TopicFilter) : f.toString = appendLevels f.levels true [] := by
  rw [TopicFilter.toString]
  cases f.levels with
  | nil => rfl
  | cons level levels =>
    rw [intercalate_eq_flatMap, appendLevels, appendLevels_false]
    rfl

/-! ## Filters and strings -/

theorem toString_fromString {s : Bytes} (h : s ≠ []) : (TopicFilter.fromString s).toString = s := by
  rw [TopicFilter.toString, fromString_levels h]
  exact List.intercalate_splitOn separator

theorem length_splitOn (s : Bytes) : (s.splitOn separator).length = s.count separator + 1 := by
  induction s with
  | nil => rfl
  | cons b s ih =>
    rw [List.splitOn_cons_eq_if_modifyHead]
    by_cases h : b = separator
    · rw [if_pos (beq_iff_eq.mpr h), List.length_cons, ih, h, List.count_cons_self]
    · rw [if_neg (fun hb => h (beq_iff_eq.mp hb)), List.length_modifyHead, ih, List.count_cons_of_ne h]

/-- Only the single empty level is joined to the empty string. -/
theorem fromString_join {levels : List Level} (hne : levels ≠ []) (hsingle : levels ≠ [[]])
    (hfree : ∀ level ∈ levels, separator ∉ level) :
    (TopicFilter.fromString ([separator].intercalate levels)).levels = levels := by
  have hsplit : ([separator].intercalate levels).splitOn separator = levels :=
    List.splitOn_intercalate separator hfree hne
  have hjoin : [separator].intercalate levels ≠ [] := by
    intro hempty
    rw [hempty, List.splitOn_nil] at hsplit
    exact hsingle hsplit.symm
  rw [fromString_levels hjoin, hsplit]

theorem fromString_inj {s t : Bytes} (hs : s ≠ []) (ht : t ≠ []) :
    TopicFilter.fromString s = TopicFilter.fromString t ↔ s = t := by
  constructor
  · intro h
    rw [← toString_fromString hs, h, toString_fromString ht]
  · intro h
    rw [h]

/-! ## The text that a subscribe sends -/

section Subscribe
open WireSubscribe hiding TopicFilter
open ByteParser WireControlPacket ClientState ClientAccounting

/-- A string, and what is asked for of the filter made from it. -/
abbrev Asked := Bytes × Client.SingleSubscription

def Asked.subscription (s : Asked) : Client.SingleSubscription :=
  { s.2 with topic := TopicFilter.fromString s.1 }

def Asked.topic (s : Asked) : WireSubscribe.TopicFilter := ⟨s.1, s.2.flags⟩

/-- What a client does with subscriptions to filters made from strings. -/
structure SendsStrings (c : Client) (asked : List Asked) (modifier : Subscribe → Subscribe) :
    Prop where
  /-- The modifier is handed the strings. -/
  message : subscribeMessage c (asked.map Asked.subscription) modifier =
    { modifier { topics := asked.map Asked.topic } with
      packetIdentifier := c.nextPacketIdentifier.next }
  /-- Nothing but its message is sent, and it is sent if it can be encoded. -/
  sent : ∀ e, e ∈ (c.startSubscribe (asked.map Asked.subscription) modifier).effects ↔
    Encodes (.subscribe (subscribeMessage c (asked.map Asked.subscription) modifier)) ∧
      e = .sent (.subscribe (subscribeMessage c (asked.map Asked.subscription) modifier)) .message
  /-- When the modifier leaves the topics alone, the frame ends in the strings as they are
  written, and these are read back when a length field can count them. -/
  wire : (∀ m, (modifier m).topics = m.topics) → ∀ frame,
    (ControlPacket.subscribe (subscribeMessage c (asked.map Asked.subscription) modifier)).serialize =
      .emit frame → ∃ front tail, frame = front ++ tail ∧
        Written.forEach (fun s : Asked => writeString s.1 ++ writeInt8 s.2.flags) asked =
          .emit tail ∧
        ((∀ s ∈ asked, s.1.length < 65536) →
          (untilEmpty .unfinished readTopicFilter).run tail = .ok (asked.map Asked.topic, []))

theorem topics_of_strings {asked : List Asked} (h : ∀ s ∈ asked, s.1 ≠ []) :
    ((asked.map Asked.subscription).map fun s =>
      (⟨s.topic.toString, s.flags⟩ : WireSubscribe.TopicFilter)) = asked.map Asked.topic := by
  rw [List.map_map]
  apply List.map_congr_left
  intro s hs
  have htext : s.subscription.topic.toString = s.1 := toString_fromString (h s hs)
  rw [Function.comp_apply, htext]
  rfl

theorem subscribeMessage_of_strings (c : Client) {asked : List Asked} (h : ∀ s ∈ asked, s.1 ≠ [])
    (modifier : Subscribe → Subscribe) :
    subscribeMessage c (asked.map Asked.subscription) modifier =
      { modifier { topics := asked.map Asked.topic } with
        packetIdentifier := c.nextPacketIdentifier.next } := by
  rw [subscribeMessage, topics_of_strings h]

/-- The topics are the end of the frame. -/
theorem tail_of_serialize {p : Subscribe} {frame : Bytes}
    (h : (ControlPacket.subscribe p).serialize = .emit frame) :
    ∃ front tail, frame = front ++ tail ∧
      Written.forEach writeTopicFilter p.topics = .emit tail := by
  have hwrite : writePacket Subscribe.typeValue 2 p.serializeBody = .emit frame := h
  obtain ⟨zs, hbody⟩ := body_of_writePacket hwrite
  rw [hbody, writePacket_of_emit] at hwrite
  obtain ⟨header, body, -, hemit, rfl⟩ := Written.append_eq_emit.mp hwrite
  cases hemit
  rw [Subscribe.serializeBody] at hbody
  obtain ⟨fields, tail, -, htail, rfl⟩ := Written.append_eq_emit.mp hbody
  exact ⟨header ++ fields, tail, by rw [List.append_assoc], htail⟩

theorem read_topics {topics : List WireSubscribe.TopicFilter} (h : ∀ f ∈ topics, Sized f.topic)
    {tail : Bytes} (hw : Written.forEach writeTopicFilter topics = .emit tail) :
    (untilEmpty .unfinished readTopicFilter).run tail = .ok (topics, []) := by
  refine (untilEmpty_ok_iff readTopicFilter_parses (fun _ _ hword => by simp [hword.1]) _ _ _).mpr
    ⟨rfl, ?_⟩
  induction topics generalizing tail with
  | nil => cases hw; exact .nil
  | cons f topics ih =>
    obtain ⟨xs, ys, hx, hy, rfl⟩ := Written.append_eq_emit.mp hw
    rw [writeTopicFilter, writeString_eq (h f (by simp)), writeInt8_eq,
      Written.emit_append_emit] at hx
    cases hx
    exact .cons ⟨rfl, h f (by simp)⟩ (ih (fun g hg => h g (by simp [hg])) hy)

theorem forEach_topics (asked : List Asked) :
    Written.forEach writeTopicFilter (asked.map Asked.topic) =
      Written.forEach (fun s : Asked => writeString s.1 ++ writeInt8 s.2.flags) asked := by
  induction asked with
  | nil => rfl
  | cons s asked ih =>
    rw [List.map_cons, Written.forEach_cons, Written.forEach_cons, ih]
    rfl

theorem sendsStrings (c : Client) {asked : List Asked} (h : ∀ s ∈ asked, s.1 ≠ [])
    (modifier : Subscribe → Subscribe) : SendsStrings c asked modifier := by
  have hmessage := subscribeMessage_of_strings c h modifier
  constructor
  · exact hmessage
  · intro e
    by_cases hencodes :
        Encodes (.subscribe (subscribeMessage c (asked.map Asked.subscription) modifier))
    · obtain ⟨pendingWrites, hstart⟩ := startSubscribe_of_encodes c hencodes
      rw [hstart]
      simp [hencodes]
    · rw [startSubscribe_of_not_encodes c hencodes]
      simp [hencodes]
  · intro hkeeps frame hframe
    obtain ⟨front, tail, rfl, htail⟩ := tail_of_serialize hframe
    have htopics : (subscribeMessage c (asked.map Asked.subscription) modifier).topics =
        asked.map Asked.topic := by
      rw [hmessage]
      exact hkeeps _
    rw [htopics] at htail
    refine ⟨front, tail, rfl, forEach_topics asked ▸ htail, fun hsized => read_topics ?_ htail⟩
    intro f hf
    obtain ⟨s, hs, rfl⟩ := List.mem_map.mp hf
    exact hsized s hs

theorem filter_text :
    (∀ s : Bytes, s ≠ [] → (TopicFilter.fromString s).toString = s ∧
      (TopicFilter.fromString s).levels.length = s.count separator + 1) ∧
    (∀ levels : List Level, levels ≠ [] → levels ≠ [[]] → (∀ level ∈ levels, separator ∉ level) →
      (TopicFilter.fromString ([separator].intercalate levels)).levels = levels) ∧
    (∀ s t : Bytes, s ≠ [] → t ≠ [] →
      (TopicFilter.fromString s = TopicFilter.fromString t ↔ s = t)) ∧
    ∀ (c : Client) (asked : List Asked) (modifier : Subscribe → Subscribe),
      (∀ s ∈ asked, s.1 ≠ []) → SendsStrings c asked modifier := by
  refine ⟨?_, ?_, ?_, ?_⟩
  · intro s hs
    exact ⟨toString_fromString hs, by rw [fromString_levels hs, length_splitOn]⟩
  · intro levels hne hsingle hfree
    exact fromString_join hne hsingle hfree
  · intro s t hs ht
    exact fromString_inj hs ht
  · intro c asked modifier h
    exact sendsStrings c h modifier

/-- For `/a//`, of four levels, and for `a` with an empty level behind it. -/
theorem filter_text_separators :
    ((TopicFilter.fromString [47, 97, 47, 47]).toString = [47, 97, 47, 47] ∧
      (TopicFilter.fromString [47, 97, 47, 47]).levels.length =
        List.count separator [47, 97, 47, 47] + 1) ∧
    (TopicFilter.fromString ([separator].intercalate [[97], []])).levels = [[97], []] ∧
    (TopicFilter.fromString [97] = TopicFilter.fromString [97, 47] ↔ ([97] : Bytes) = [97, 47]) ∧
    SendsStrings {} [([47, 97], { topic := {} })] id :=
  ⟨filter_text.1 _ (by decide), filter_text.2.1 _ (by decide) (by decide) (by decide),
    filter_text.2.2.1 _ _ (by decide) (by decide), filter_text.2.2.2 _ _ _ (by decide)⟩

end Subscribe

end Mqtt5.TopicMatching
