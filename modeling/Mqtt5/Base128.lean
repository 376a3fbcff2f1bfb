import Mathlib.Data.Nat.Digits.Defs
import Mathlib.Tactic.Common
import Mathlib.Tactic.Ring
import Mathlib.Tactic.Linarith

/-!
# Numbers in groups of seven bits

A number is cut into base-128 digits, least significant first; the high bit of a byte
says that more follow. `Word` is the language of such numbers, shortest or not.
-/
namespace Mqtt5.Base128

inductive Word : List UInt8 → ℕ → Prop
  | last {b : UInt8} (h : b.toNat < 128) : Word [b] b.toNat
  | more {b : UInt8} {bs : List UInt8} {n : ℕ} (h : 128 ≤ b.toNat) (tail : Word bs n) :
      Word (b :: bs) (b.toNat % 128 + 128 * n)

/-- The shortest word of a number. -/
def digits (n : ℕ) : List UInt8 :=
  if n < 128 then [UInt8.ofNat n] else UInt8.ofNat (n % 128 + 128) :: digits (n / 128)
termination_by n
decreasing_by omega

theorem Word.ne_nil {bs : List UInt8} {n : ℕ} (h : Word bs n) : bs ≠ [] := by
  cases h <;> simp

/-- The first byte decides whether the word ends there. -/
theorem word_prefix_iff {b : UInt8} {xs : List UInt8} {P : List UInt8 → ℕ → Prop} :
    (∃ enc rest n, b :: xs = enc ++ rest ∧ Word enc n ∧ P enc n) ↔
      (b.toNat < 128 ∧ P [b] b.toNat) ∨ (128 ≤ b.toNat ∧
        ∃ enc rest n, xs = enc ++ rest ∧ Word enc n ∧ P (b :: enc) (b.toNat % 128 + 128 * n)) := by
  constructor
  · rintro ⟨enc, rest, n, he, hw, hP⟩
    cases hw with
    | last h =>
      simp only [List.cons_append, List.nil_append, List.cons.injEq] at he
      obtain ⟨rfl, -⟩ := he
      exact .inl ⟨h, hP⟩
    | more h tail =>
      simp only [List.cons_append, List.cons.injEq] at he
      obtain ⟨rfl, he⟩ := he
      exact .inr ⟨h, _, rest, _, he, tail, hP⟩
  · rintro (⟨h, hP⟩ | ⟨h, enc, rest, n, rfl, hw, hP⟩)
    · exact ⟨[b], xs, b.toNat, rfl, .last h, hP⟩
    · exact ⟨b :: enc, rest, _, rfl, .more h hw, hP⟩

theorem Word.lt {bs : List UInt8} {n : ℕ} (h : Word bs n) : n < 128 ^ bs.length := by
  induction h with
  | last h => simpa using h
  | more h tail ih =>
    simp only [List.length_cons, Nat.pow_succ]
    omega

/-- What a word counts, as a sum of its digits. -/
theorem Word.eq_ofDigits {bs : List UInt8} {n : ℕ} (h : Word bs n) :
    n = Nat.ofDigits 128 (bs.map fun b => b.toNat % 128) := by
  induction h with
  | @last b hlt =>
    have hmod : b.toNat % 128 = b.toNat := Nat.mod_eq_of_lt hlt
    simp [hmod]
  | more hge tail ih =>
    rw [List.map_cons, Nat.ofDigits_cons, ← ih]

/-- The first `m` bytes hold a word, or each of them says that more follow. -/
theorem word_or_continues (m : ℕ) (xs : List UInt8) :
    (∃ enc rest n, xs = enc ++ rest ∧ Word enc n ∧ enc.length ≤ m) ∨
      ∀ b ∈ xs.take m, 128 ≤ b.toNat := by
  induction xs generalizing m with
  | nil => exact .inr (by simp)
  | cons x xs ih =>
    cases m with
    | zero => exact .inr (by simp)
    | succ m =>
      by_cases hx : x.toNat < 128
      · exact .inl ⟨[x], xs, _, rfl, .last hx, by simp⟩
      · have hge : 128 ≤ x.toNat := Nat.not_lt.mp hx
        obtain ⟨enc, rest, n, rfl, hw, hlen⟩ | hall := ih m
        · exact .inl ⟨x :: enc, rest, _, rfl, .more hge hw, by simpa using hlen⟩
        · exact .inr (by simpa using ⟨hge, hall⟩)

/-- No word is a proper prefix of another, so what follows a word cannot change it. -/
theorem Word.append_inj {as bs xs ys : List UInt8} {m n : ℕ} (ha : Word as m) (hb : Word bs n)
    (h : as ++ xs = bs ++ ys) : as = bs ∧ m = n ∧ xs = ys := by
  induction ha generalizing bs n with
  | @last b hlt =>
    cases hb with
    | last => simp_all
    | more hge => simp only [List.cons_append, List.cons.injEq] at h; rw [← h.1] at hge; omega
  | @more b as m hge tail ih =>
    cases hb with
    | last hlt => simp only [List.cons_append, List.cons.injEq] at h; rw [← h.1] at hlt; omega
    | more hge' tail' =>
      simp only [List.cons_append, List.cons.injEq] at h
      obtain ⟨rfl, h⟩ := h
      obtain ⟨rfl, rfl, rfl⟩ := ih tail' h
      exact ⟨rfl, rfl, rfl⟩

/-- A word ends in the only byte of it below 128. -/
theorem Word.exists_last {bs : List UInt8} {n : ℕ} (h : Word bs n) : ∃ b ∈ bs, b.toNat < 128 := by
  induction h with
  | last h => exact ⟨_, by simp, h⟩
  | more h tail ih =>
    obtain ⟨b, hb, hlt⟩ := ih
    exact ⟨b, by simp [hb], hlt⟩

theorem Word.proper_prefix {bs xs ys : List UInt8} {n : ℕ} (h : Word bs n) (he : bs = xs ++ ys)
    (hne : ys ≠ []) : ∀ b ∈ xs, 128 ≤ b.toNat := by
  induction h generalizing xs with
  | last h =>
    cases xs with
    | nil => simp
    | cons x xs =>
      simp only [List.cons_append, List.cons.injEq, List.nil_eq, List.append_eq_nil_iff] at he
      exact absurd he.2.2 hne
  | more h tail ih =>
    cases xs with
    | nil => simp
    | cons x xs =>
      simp only [List.cons_append, List.cons.injEq] at he
      obtain ⟨rfl, he⟩ := he
      simpa using ⟨h, ih he⟩

theorem digits_of_lt {n : ℕ} (h : n < 128) : digits n = [UInt8.ofNat n] := by
  rw [digits, if_pos h]

theorem digits_of_ge {n : ℕ} (h : 128 ≤ n) :
    digits n = UInt8.ofNat (n % 128 + 128) :: digits (n / 128) := by
  rw [digits, if_neg (by omega)]

theorem digits_word (n : ℕ) : Word (digits n) n := by
  induction n using Nat.strongRecOn with
  | ind n ih =>
    by_cases h : n < 128
    · rw [digits_of_lt h]
      have hb : (UInt8.ofNat n).toNat = n := by rw [UInt8.toNat_ofNat']; omega
      simpa [hb] using Word.last (b := UInt8.ofNat n) (by omega)
    · rw [digits_of_ge (by omega)]
      have hb : (UInt8.ofNat (n % 128 + 128)).toNat = n % 128 + 128 := by
        rw [UInt8.toNat_ofNat']; omega
      have hw := Word.more (b := UInt8.ofNat (n % 128 + 128)) (by omega) (ih (n / 128) (by omega))
      rwa [hb, show (n % 128 + 128) % 128 + 128 * (n / 128) = n by omega] at hw

theorem digits_length_le {n k : ℕ} (h : n < 128 ^ (k + 1)) : (digits n).length ≤ k + 1 := by
  induction k generalizing n with
  | zero => rw [digits_of_lt (by simpa using h)]; simp
  | succ k ih =>
    by_cases hn : n < 128
    · rw [digits_of_lt hn]; simp
    · rw [digits_of_ge (by omega), List.length_cons]
      have := ih (n := n / 128) (by rw [Nat.pow_succ] at h; omega)
      omega

/-- No word of a number is shorter than its digits. -/
theorem Word.digits_length_le {bs : List UInt8} {n : ℕ} (h : Word bs n) :
    (digits n).length ≤ bs.length := by
  induction h with
  | last h => rw [digits_of_lt h]; simp
  | @more b bs m h tail ih =>
    by_cases hn : b.toNat % 128 + 128 * m < 128
    · rw [digits_of_lt hn]; simp
    · rw [digits_of_ge (by omega), List.length_cons, List.length_cons,
        show (b.toNat % 128 + 128 * m) / 128 = m by omega]
      omega

/-- One digit more at each power of the base. -/
theorem digits_length_le_iff {n k : ℕ} : (digits n).length ≤ k + 1 ↔ n < 128 ^ (k + 1) := by
  constructor
  · intro hlen
    have hlt := (digits_word n).lt
    have hpow : 128 ^ (digits n).length ≤ 128 ^ (k + 1) := Nat.pow_le_pow_right (by decide) hlen
    omega
  · exact digits_length_le

theorem digits_length_mono {m n : ℕ} (h : m ≤ n) : (digits m).length ≤ (digits n).length := by
  induction n using Nat.strongRecOn generalizing m with
  | ind n ih =>
    by_cases hm : m < 128
    · rw [digits_of_lt hm]
      exact List.length_pos_iff.mpr (digits_word n).ne_nil
    · rw [digits_of_ge (n := m) (by omega), digits_of_ge (n := n) (by omega), List.length_cons,
        List.length_cons]
      have hdiv : m / 128 ≤ n / 128 := Nat.div_le_div_right h
      have := ih (n / 128) (by omega) hdiv
      omega

end Mqtt5.Base128
