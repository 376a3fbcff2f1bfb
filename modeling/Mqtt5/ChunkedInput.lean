import Mathlib.Tactic.Common

/-!
# Input that arrives in chunks

A buffer in front of the chunks that a stream still holds. `fill` takes chunks until the
buffer satisfies a predicate; what it then holds depends on the chunks, but not what
buffer and stream hold together.
-/
namespace Mqtt5.ChunkedInput

structure Input (τ : Type) where
  buffer : List τ
  chunks : List (List τ)
  deriving DecidableEq, Repr

variable {τ : Type}

/-- All that is left to be read, in order. -/
def Input.rest (i : Input τ) : List τ := i.buffer ++ i.chunks.flatten

/-- Read chunks until the buffer is `enough`; fails with the last buffer when the stream
holds no more of them. -/
def fillFrom (enough : List τ → Bool) (buffer : List τ) :
    List (List τ) → Except (List τ) (Input τ)
  | [] => if enough buffer then .ok ⟨buffer, []⟩ else .error buffer
  | c :: cs => if enough buffer then .ok ⟨buffer, c :: cs⟩ else fillFrom enough (buffer ++ c) cs

def fill (enough : List τ → Bool) (i : Input τ) : Except (List τ) (Input τ) :=
  fillFrom enough i.buffer i.chunks

theorem fill_ok {enough : List τ → Bool} {i i' : Input τ} (h : fill enough i = .ok i') :
    enough i'.buffer = true ∧ i'.rest = i.rest := by
  obtain ⟨buffer, chunks⟩ := i
  change fillFrom enough buffer chunks = _ at h
  induction chunks generalizing buffer with
  | nil =>
    rw [fillFrom] at h
    split at h
    case isTrue he => cases h; exact ⟨he, rfl⟩
    case isFalse => cases h
  | cons c cs ih =>
    rw [fillFrom] at h
    split at h
    case isTrue he => cases h; exact ⟨he, rfl⟩
    case isFalse =>
      obtain ⟨he, hr⟩ := ih _ h
      exact ⟨he, by rw [hr]; simp [Input.rest]⟩

/-- Without enough, all the input ends up in the buffer. -/
theorem fill_error {enough : List τ → Bool} {i : Input τ} {buffer : List τ}
    (h : fill enough i = .error buffer) : buffer = i.rest ∧ enough buffer = false := by
  obtain ⟨start, chunks⟩ := i
  change fillFrom enough start chunks = _ at h
  induction chunks generalizing start with
  | nil =>
    rw [fillFrom] at h
    split at h
    case isTrue => cases h
    case isFalse he => cases h; exact ⟨by simp [Input.rest], by simpa using he⟩
  | cons c cs ih =>
    rw [fillFrom] at h
    split at h
    case isTrue => cases h
    case isFalse =>
      obtain ⟨hb, he⟩ := ih _ h
      exact ⟨by rw [hb]; simp [Input.rest], he⟩

/-- Chunks that make up enough together are enough, however they are cut. -/
theorem exists_fill (enough : List τ → Bool) {i : Input τ} (h : enough i.rest = true) :
    ∃ i', fill enough i = .ok i' ∧ enough i'.buffer = true ∧ i'.rest = i.rest := by
  cases hf : fill enough i with
  | ok i' => exact ⟨i', rfl, fill_ok hf⟩
  | error buffer =>
    obtain ⟨rfl, he⟩ := fill_error hf
    rw [h] at he
    cases he

theorem fill_starved {enough : List τ → Bool} {i : Input τ}
    (h : ∀ xs ys, i.rest = xs ++ ys → enough xs = false) :
    fill enough i = .error i.rest := by
  cases hf : fill enough i with
  | ok i' =>
    obtain ⟨he, hr⟩ := fill_ok hf
    rw [h i'.buffer i'.chunks.flatten hr.symm] at he
    cases he
  | error buffer => rw [(fill_error hf).1]

end Mqtt5.ChunkedInput
