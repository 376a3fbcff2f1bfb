import Mathlib.Tactic.Common

/-!
# What a writer was handed

An encoder calls its writer once for each token and may throw on the way. `Written`
keeps the tokens handed over so far and the exception that ended the call, if any;
`++` is calling one encoder after another.
-/
namespace Mqtt5.ByteWriter

structure Written (τ ε : Type) where
  tokens : List τ
  thrown : Option ε
  deriving DecidableEq, Repr

namespace Written
variable {τ ε α : Type}

/-- Hand over `ts`, one token after another. -/
def emit (ts : List τ) : Written τ ε := ⟨ts, none⟩

def throw (e : ε) : Written τ ε := ⟨[], some e⟩

/-- Nothing is written after an exception. -/
def append (w v : Written τ ε) : Written τ ε :=
  match w.thrown with
  | none => ⟨w.tokens ++ v.tokens, v.thrown⟩
  | some _ => w

instance : Append (Written τ ε) := ⟨append⟩

/-- The buffer a complete call leaves, or the exception that leaves none. -/
def result (w : Written τ ε) : Except ε (List τ) :=
  match w.thrown with
  | none => .ok w.tokens
  | some e => .error e

/-- `for (auto &a : as) f(a);` -/
def forEach (f : α → Written τ ε) (as : List α) : Written τ ε :=
  as.foldr (fun a w => f a ++ w) (emit [])

@[simp] theorem emit_append_emit (xs ys : List τ) :
    (emit xs ++ emit ys : Written τ ε) = emit (xs ++ ys) := rfl

@[simp] theorem throw_append (e : ε) (w : Written τ ε) : throw e ++ w = throw e := rfl

@[simp] theorem result_emit (xs : List τ) : (emit xs : Written τ ε).result = .ok xs := rfl

@[simp] theorem result_throw (e : ε) : (throw e : Written τ ε).result = .error e := rfl

@[simp] theorem tokens_emit (xs : List τ) : (emit xs : Written τ ε).tokens = xs := rfl

@[simp] theorem emit_nil_append (w : Written τ ε) : emit [] ++ w = w := rfl

theorem append_assoc (u v w : Written τ ε) : u ++ v ++ w = u ++ (v ++ w) := by
  rcases u with ⟨xs, _ | e⟩
  · rcases v with ⟨ys, _ | e⟩
    · exact congrArg (Written.mk · w.thrown) (List.append_assoc xs ys w.tokens)
    · rfl
  · rfl

theorem result_ok_iff {w : Written τ ε} {xs : List τ} : w.result = .ok xs ↔ w = emit xs := by
  rcases w with ⟨ts, _ | e⟩ <;> simp [result, emit]

/-- A sequence of calls completes just when each of them does. -/
theorem append_eq_emit {w v : Written τ ε} {zs : List τ} :
    w ++ v = emit zs ↔ ∃ xs ys, w = emit xs ∧ v = emit ys ∧ zs = xs ++ ys := by
  constructor
  · rcases w with ⟨xs, _ | e⟩
    · rcases v with ⟨ys, _ | e⟩
      · intro h
        cases h
        exact ⟨xs, ys, rfl, rfl, rfl⟩
      · intro h
        cases h
    · intro h
      cases h
  · rintro ⟨xs, ys, rfl, rfl, rfl⟩
    rfl

@[simp] theorem forEach_nil (f : α → Written τ ε) : forEach f [] = emit [] := rfl

@[simp] theorem forEach_cons (f : α → Written τ ε) (a : α) (as : List α) :
    forEach f (a :: as) = f a ++ forEach f as := rfl

/-- A call throws or completes. -/
theorem thrown_or_emit (w : Written τ ε) : w.thrown.isSome ∨ ∃ zs, w = emit zs := by
  rcases w with ⟨zs, _ | e⟩
  · exact .inr ⟨zs, rfl⟩
  · exact .inl rfl

theorem thrown_append_left {w : Written τ ε} (h : w.thrown.isSome) (v : Written τ ε) :
    (w ++ v).thrown.isSome := by
  rcases w with ⟨zs, _ | e⟩
  · cases h
  · rfl

theorem thrown_append_right (w : Written τ ε) {v : Written τ ε} (h : v.thrown.isSome) :
    (w ++ v).thrown.isSome := by
  rcases w with ⟨zs, _ | e⟩
  · exact h
  · rfl

theorem thrown_forEach {f : α → Written τ ε} {as : List α} {a : α} (ha : a ∈ as)
    (h : (f a).thrown.isSome) : (forEach f as).thrown.isSome := by
  induction as with
  | nil => cases ha
  | cons b as ih =>
    rw [forEach_cons]
    obtain rfl | ha := List.mem_cons.mp ha
    · exact thrown_append_left h _
    · exact thrown_append_right _ (ih ha)

end Written
end Mqtt5.ByteWriter
