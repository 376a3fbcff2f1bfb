import Mathlib.Data.List.Basic

/-!
# Folds over interleaved channels

Every entry of a list belongs to a channel. A fold whose steps commute when they are of
different channels cannot tell how the channels are interleaved.
-/
namespace Mqtt5.Channels

variable {α κ σ : Type} {channel : α → κ}

/-! ## The same channels -/

section
variable [DecidableEq κ]

/-- Each channel has the same entries, in the same order. -/
def SameOn (channel : α → κ) (xs ys : List α) : Prop :=
  ∀ k, xs.filter (channel · = k) = ys.filter (channel · = k)

/-- The first entry of one list stands in the other behind entries of other channels only. -/
theorem SameOn.exists_front {x : α} {xs ys : List α} (h : SameOn channel (x :: xs) ys) :
    ∃ before after, ys = before ++ x :: after ∧ (∀ y ∈ before, channel y ≠ channel x) ∧
      SameOn channel xs (before ++ after) := by
  have hx := h (channel x)
  rw [List.filter_cons_of_pos (by simp)] at hx
  obtain ⟨before, after, rfl, hbefore, -, hafter⟩ := List.filter_eq_cons_iff.mp hx.symm
  have hother : ∀ y ∈ before, channel y ≠ channel x := by
    intro y hy
    simpa using hbefore y hy
  refine ⟨before, after, rfl, hother, fun k => ?_⟩
  by_cases hk : channel x = k
  · subst hk
    rw [List.filter_append, List.filter_eq_nil_iff.mpr hbefore, hafter]
    rfl
  · have hrest := h k
    rwa [List.filter_cons_of_neg (by simpa using hk), List.filter_append,
      List.filter_cons_of_neg (by simpa using hk), ← List.filter_append] at hrest

theorem SameOn.eq_nil {ys : List α} (h : SameOn channel [] ys) : ys = [] := by
  cases ys with
  | nil => rfl
  | cons y ys =>
    have hy := h (channel y)
    rw [List.filter_nil, List.filter_cons_of_pos (by simp)] at hy
    cases hy

end

/-! ## Steps that commute -/

section
variable {m : Type → Type} [Monad m] {step : σ → α → m σ}

/-- Steps of different channels can be taken in either order. -/
def Commutes (channel : α → κ) (step : σ → α → m σ) : Prop :=
  ∀ a b, channel a ≠ channel b → ∀ s,
    (step s a >>= fun t => step t b) = step s b >>= fun t => step t a

variable [LawfulMonad m]

theorem Commutes.foldlM_front (h : Commutes channel step) {x : α} {before : List α}
    (hbefore : ∀ y ∈ before, channel y ≠ channel x) (after : List α) (s : σ) :
    (before ++ x :: after).foldlM step s = (x :: (before ++ after)).foldlM step s := by
  induction before generalizing s with
  | nil => rfl
  | cons y before ih =>
    have hy : channel y ≠ channel x := hbefore y List.mem_cons_self
    have hrest : ∀ t, (before ++ x :: after).foldlM step t =
        step t x >>= fun u => (before ++ after).foldlM step u := by
      intro t
      rw [ih fun z hz => hbefore z (List.mem_cons_of_mem y hz), List.foldlM_cons]
    calc (y :: before ++ x :: after).foldlM step s
        = step s y >>= fun t => step t x >>= fun u => (before ++ after).foldlM step u := by
          rw [List.cons_append, List.foldlM_cons]
          exact bind_congr hrest
      _ = step s x >>= fun t => step t y >>= fun u => (before ++ after).foldlM step u := by
          rw [← bind_assoc, h y x hy s, bind_assoc]
      _ = (x :: (y :: before ++ after)).foldlM step s := by
          rw [List.foldlM_cons, List.cons_append]
          exact bind_congr fun t => (List.foldlM_cons ..).symm

/-- The fold depends on the entries of each channel only. -/
theorem Commutes.foldlM_eq [DecidableEq κ] (h : Commutes channel step) {xs ys : List α}
    (hsame : SameOn channel xs ys) (s : σ) : xs.foldlM step s = ys.foldlM step s := by
  induction xs generalizing ys s with
  | nil => rw [hsame.eq_nil]
  | cons x xs ih =>
    obtain ⟨before, after, rfl, hbefore, hrest⟩ := hsame.exists_front
    rw [h.foldlM_front hbefore, List.foldlM_cons, List.foldlM_cons]
    exact bind_congr fun t => ih hrest t

end
end Mqtt5.Channels
