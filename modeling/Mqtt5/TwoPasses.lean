import Mathlib.Data.List.Induction
import Mathlib.Tactic.Common

/-!
# Actions in two passes

A list of actions is run on a state, either in its own order or with some of the actions put
off until the others are done. Where the two kinds commute this makes no difference; of
actions that assign to one place, the last one counts.
-/
namespace Mqtt5.TwoPasses

variable {α σ τ : Type}

def run (act : α → σ → σ) (xs : List α) (s : σ) : σ := xs.foldl (fun s a => act a s) s

/-- Those that `late` holds of come last; both parts keep their order. -/
def putOff (late : α → Bool) (xs : List α) : List α :=
  xs.filter (fun a => !late a) ++ xs.filter late

variable {act : α → σ → σ}

@[simp] theorem run_nil (s : σ) : run act [] s = s := rfl

@[simp] theorem run_cons (a : α) (xs : List α) (s : σ) :
    run act (a :: xs) s = run act xs (act a s) := rfl

theorem run_append (xs ys : List α) (s : σ) :
    run act (xs ++ ys) s = run act ys (run act xs s) :=
  List.foldl_append

theorem run_invariant {I : σ → Prop} {xs : List α} (h : ∀ a ∈ xs, ∀ s, I s → I (act a s)) {s : σ}
    (hs : I s) : I (run act xs s) := by
  induction xs generalizing s with
  | nil => exact hs
  | cons a xs ih =>
    rw [run_cons]
    exact ih (fun b hb => h b (by simp [hb])) (h a (by simp) s hs)

/-- What a view of the state shows of a run is a run of its own. -/
theorem view_run (view : σ → τ) {act' : α → τ → τ} {xs : List α}
    (h : ∀ a ∈ xs, ∀ s, view (act a s) = act' a (view s)) (s : σ) :
    view (run act xs s) = run act' xs (view s) := by
  induction xs generalizing s with
  | nil => rfl
  | cons a xs ih =>
    rw [run_cons, run_cons, ih (fun b hb => h b (by simp [hb])), h a (by simp)]

theorem run_swap {a : α} {xs : List α} (h : ∀ b ∈ xs, ∀ s, act b (act a s) = act a (act b s))
    (s : σ) : run act xs (act a s) = act a (run act xs s) := by
  induction xs generalizing s with
  | nil => rfl
  | cons b xs ih =>
    rw [run_cons, run_cons, h b (by simp), ih fun c hc => h c (by simp [hc])]

theorem run_putOff {late : α → Bool} {xs : List α}
    (h : ∀ a ∈ xs, ∀ b ∈ xs, late a = true → late b = false →
      ∀ s, act b (act a s) = act a (act b s)) (s : σ) :
    run act (putOff late xs) s = run act xs s := by
  induction xs generalizing s with
  | nil => rfl
  | cons a xs ih =>
    have htail := ih (s := act a s) fun b hb c hc => h b (by simp [hb]) c (by simp [hc])
    rw [run_cons, ← htail, putOff, putOff, run_append, run_append]
    cases hlate : late a with
    | false =>
      have hnow : (a :: xs).filter (fun b => !late b) = a :: xs.filter fun b => !late b :=
        List.filter_cons_of_pos (by simp [hlate])
      have hlater : (a :: xs).filter late = xs.filter late :=
        List.filter_cons_of_neg (by simp [hlate])
      rw [hnow, hlater, run_cons]
    | true =>
      have hnow : (a :: xs).filter (fun b => !late b) = xs.filter fun b => !late b :=
        List.filter_cons_of_neg (by simp [hlate])
      have hlater : (a :: xs).filter late = a :: xs.filter late := List.filter_cons_of_pos hlate
      have hswap : ∀ b ∈ xs.filter (fun b => !late b), ∀ s, act b (act a s) = act a (act b s) := by
        intro b hb
        obtain ⟨hmem, hearly⟩ := List.mem_filter.mp hb
        exact h a (by simp) b (by simp [hmem]) hlate (by simpa using hearly)
      rw [hnow, hlater, run_cons, run_swap hswap]

/-- Of the values that are assigned, the last one stays. -/
theorem run_assign (value : α → Option τ) (xs : List α) (v : τ) :
    run (fun a v => (value a).getD v) xs v = (xs.filterMap value).getLast?.getD v := by
  induction xs using List.reverseRecOn with
  | nil => rfl
  | append_singleton xs a ih =>
    rw [run_append, ih, run_cons, run_nil, List.filterMap_append]
    cases h : value a with
    | none => simp [h]
    | some w => simp [h]

@[simp] theorem mem_putOff {late : α → Bool} {xs : List α} {a : α} :
    a ∈ putOff late xs ↔ a ∈ xs := by
  rw [putOff, List.mem_append, List.mem_filter, List.mem_filter]
  cases late a <;> simp

/-- Where two choices differ, nothing is assigned. -/
theorem filterMap_filter_congr {value : α → Option τ} {p q : α → Bool} {xs : List α}
    (h : ∀ a ∈ xs, p a = q a ∨ value a = none) :
    (xs.filter p).filterMap value = (xs.filter q).filterMap value := by
  induction xs with
  | nil => rfl
  | cons a xs ih =>
    have htail := ih fun b hb => h b (by simp [hb])
    rw [List.filter_cons, List.filter_cons]
    obtain hsame | hnone := h a (by simp)
    · rw [hsame]
      split_ifs
      · rw [List.filterMap_cons, List.filterMap_cons, htail]
      · exact htail
    · split_ifs <;> simp [hnone, htail]

/-- The same value is assigned last just when none is put off, or the last one put off is it. -/
theorem getLast_putOff_iff {value : α → Option τ} {late : α → Bool} {xs : List α} :
    ((putOff late xs).filterMap value).getLast? = (xs.filterMap value).getLast? ↔
      ∀ v, ((xs.filter late).filterMap value).getLast? = some v →
        (xs.filterMap value).getLast? = some v := by
  rw [putOff, List.filterMap_append, List.getLast?_append]
  cases hlate : ((xs.filter late).filterMap value).getLast? with
  | none =>
    have hnone : ∀ a ∈ xs, late a = true → value a = none := by
      intro a ha hl
      have hnil := List.getLast?_eq_none_iff.mp hlate
      exact List.filterMap_eq_nil_iff.mp hnil a (List.mem_filter.mpr ⟨ha, hl⟩)
    have hall : (xs.filter fun a => !late a).filterMap value = xs.filterMap value := by
      have hcongr : (xs.filter fun a => !late a).filterMap value =
          (xs.filter fun _ => true).filterMap value := by
        apply filterMap_filter_congr
        intro a ha
        cases hl : late a with
        | false => exact .inl rfl
        | true => exact .inr (hnone a ha hl)
      rwa [List.filter_eq_self.mpr fun _ _ => rfl] at hcongr
    simp [hall]
  | some v =>
    rw [Option.some_or]
    constructor
    · intro h w hw
      rw [← h, hw]
    · intro h
      exact (h v rfl).symm

theorem filterMap_putOff_eq_nil {value : α → Option τ} {late : α → Bool} {xs : List α} :
    (putOff late xs).filterMap value = [] ↔ xs.filterMap value = [] := by
  rw [List.filterMap_eq_nil_iff, List.filterMap_eq_nil_iff]
  simp only [mem_putOff]

theorem exists_last {p : α → Bool} {xs : List α} (h : ∃ a ∈ xs, p a = true) :
    ∃ before a after, xs = before ++ a :: after ∧ p a = true ∧ ∀ b ∈ after, p b = false := by
  induction xs using List.reverseRecOn with
  | nil => simp at h
  | append_singleton xs b ih =>
    cases hb : p b with
    | true => exact ⟨xs, b, [], rfl, hb, by simp⟩
    | false =>
      have hearlier : ∃ a ∈ xs, p a = true := by
        obtain ⟨a, ha, hpa⟩ := h
        obtain ha | ha := List.mem_append.mp ha
        · exact ⟨a, ha, hpa⟩
        · rw [List.mem_singleton.mp ha, hb] at hpa
          cases hpa
      obtain ⟨before, a, after, rfl, hpa, hafter⟩ := ih hearlier
      refine ⟨before, a, after ++ [b], by simp, hpa, fun c hc => ?_⟩
      obtain hc | hc := List.mem_append.mp hc
      · exact hafter c hc
      · rw [List.mem_singleton.mp hc, hb]

/-- Where some `q` stands behind a `p`, the last of the `q` does. -/
theorem exists_last_behind {p q : α → Bool} {xs : List α}
    (h : ¬ xs.Pairwise fun a b => p a = true → q b = false) :
    ∃ before b after, xs = before ++ b :: after ∧ q b = true ∧ (∃ a ∈ before, p a = true) ∧
      ∀ c ∈ after, q c = false := by
  induction xs with
  | nil => exact absurd List.Pairwise.nil h
  | cons a xs ih =>
    by_cases htail : xs.Pairwise fun a b => p a = true → q b = false
    · have hhead : ∃ b ∈ xs, p a = true ∧ q b = true := by
        by_contra hnone
        refine h (List.pairwise_cons.mpr ⟨fun b hb hpa => ?_, htail⟩)
        by_contra hqb
        exact hnone ⟨b, hb, hpa, by simpa using hqb⟩
      obtain ⟨b, hb, hpa, hqb⟩ := hhead
      obtain ⟨before, c, after, rfl, hqc, hafter⟩ := exists_last ⟨b, hb, hqb⟩
      exact ⟨a :: before, c, after, rfl, hqc, ⟨a, by simp, hpa⟩, hafter⟩
    · obtain ⟨before, b, after, rfl, hqb, ⟨c, hc, hpc⟩, hafter⟩ := ih htail
      exact ⟨a :: before, b, after, rfl, hqb, ⟨c, by simp [hc], hpc⟩, hafter⟩

end Mqtt5.TwoPasses
