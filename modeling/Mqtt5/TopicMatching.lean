import Mqtt5.WirePrimitives

/-!
# Topic filters

`mqtt5::topic_filter`, as it runs when assertions are compiled out.
-/
namespace Mqtt5.TopicMatching
open WirePrimitives

abbrev Level := Bytes

def separator : UInt8 := 47
def multiLevel : Level := [35]
def singleLevel : Level := [43]
def dollar : UInt8 := 36

/-- The loop of `parse_inplace`: a separator at the very end opens an empty last level. -/
def parseLevels : Bytes → Level → List Level
  | [], level => [level.reverse]
  | b :: rest, level =>
      if b = separator then level.reverse :: parseLevels rest []
      else parseLevels rest (b :: level)

structure TopicFilter where
  levels : List Level := []
  deriving DecidableEq, Repr

namespace TopicFilter

/-- `parse_inplace`, whose loop an empty filter does not enter. -/
def fromString (filter : Bytes) : TopicFilter :=
  if filter = [] then {} else ⟨parseLevels filter []⟩

/-- The separator stands before every level but the first. -/
def toString (f : TopicFilter) : Bytes := [separator].intercalate f.levels

/-- `matches_n_levels`, from level `i` on with `n` levels to go. -/
def matchesNLevels (levels name : List Level) (i : ℕ) : ℕ → Bool
  | 0 => true
  | n + 1 =>
      if i = levels.length - 1 ∧ levels.getD i [] = multiLevel then true
      else if levels.getD i [] ≠ singleLevel ∧ levels.getD i [] ≠ name.getD i [] then false
      else matchesNLevels levels name (i + 1) n

/-- `topic_filter::matches`; the first character of an empty string is not a dollar. -/
def «matches» (f : TopicFilter) (topicName : Bytes) : Bool :=
  if topicName.head? = some dollar ∧ (f.levels.headD []).head? ≠ some dollar then false
  else
    let name := (fromString topicName).levels
    if name.length < f.levels.length then
      if name.length ≠ f.levels.length - 1 then false
      else if f.levels.getLastD [] ≠ multiLevel then false
      else matchesNLevels f.levels name 0 name.length
    else if name.length > f.levels.length then
      if f.levels.getLastD [] = multiLevel then
        matchesNLevels f.levels name 0 (f.levels.length - 1)
      else false
    else matchesNLevels f.levels name 0 f.levels.length

end TopicFilter
end Mqtt5.TopicMatching
