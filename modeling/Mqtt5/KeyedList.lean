import Mathlib.Algebra.Ring.Nat
import Mathlib.Data.List.Induction
import Mathlib.Tactic.Common

/-!
# Lists with a key for each entry

An entry replaces the first one of its key, or is put at the end. Entries of a key that
may be repeated are always put at the end. After any number of such calls the list is
determined by what was put: its keys by their first calls, its entries by their last ones.
-/
namespace Mqtt5.KeyedList

variable {α κ : Type} [DecidableEq κ] (key : α → κ) (many : κ → Prop) [DecidablePred many]

def put (a : α) : List α → List α
  | [] => [a]
  | x :: xs => if ¬ many (key a) ∧ key x = key a then a :: xs else x :: put a xs

/-- The entries of a run of calls, oldest first. -/
def putAll (calls : List α) : List α := calls.foldl (fun xs a => put key many a xs) []

/-- The keys of a run of calls, without the repetitions of those that occur once. -/
def firsts : List κ → List κ
  | [] => []
  | k :: ks => k :: (firsts ks).filter fun other => many other ∨ other ≠ k

/-- No two entries have one key, unless it may be repeated. -/
def Distinct (xs : List α) : Prop := xs.Pairwise fun x y => many (key x) ∨ key x ≠ key y

@[simp] theorem putAll_nil : putAll key many [] = [] := rfl

theorem putAll_append (calls : List α) (a : α) :
    putAll key many (calls ++ [a]) = put key many a (putAll key many calls) := by
  rw [putAll, List.foldl_append]
  rfl

variable {key many}

/-- An entry whose key does not occur in the front leaves the front alone. -/
theorem put_append {a : α} {xs : List α} (h : many (key a) ∨ ∀ x ∈ xs, key x ≠ key a)
    (ys : List α) : put key many a (xs ++ ys) = xs ++ put key many a ys := by
  induction xs with
  | nil => rfl
  | cons x xs ih =>
    have hcond : ¬ (¬ many (key a) ∧ key x = key a) := by
      intro ⟨hmany, hkey⟩
      exact (h.resolve_left hmany) x (by simp) hkey
    have htail : many (key a) ∨ ∀ y ∈ xs, key y ≠ key a :=
      h.imp id fun hne y hy => hne y (by simp [hy])
    rw [List.cons_append, put, if_neg hcond, ih htail]
    rfl

theorem put_fresh {a : α} {xs : List α} (h : many (key a) ∨ ∀ x ∈ xs, key x ≠ key a) :
    put key many a xs = xs ++ [a] := by
  have hput := put_append h []
  rw [List.append_nil] at hput
  exact hput

theorem foldl_put_append {xs calls : List α}
    (h : ∀ a ∈ calls, many (key a) ∨ ∀ x ∈ xs, key x ≠ key a) (ys : List α) :
    calls.foldl (fun xs a => put key many a xs) (xs ++ ys) =
      xs ++ calls.foldl (fun xs a => put key many a xs) ys := by
  induction calls generalizing ys with
  | nil => rfl
  | cons a calls ih =>
    rw [List.foldl_cons, List.foldl_cons, put_append (h a (by simp))]
    exact ih (fun b hb => h b (by simp [hb])) _

theorem map_key_put (a : α) (xs : List α) :
    (put key many a xs).map key =
      if many (key a) ∨ key a ∉ xs.map key then xs.map key ++ [key a] else xs.map key := by
  induction xs with
  | nil => simp [put]
  | cons x xs ih =>
    rw [put]
    by_cases hmany : many (key a)
    · rw [if_neg (fun h => h.1 hmany), if_pos (.inl hmany), List.map_cons, ih,
        if_pos (.inl hmany)]
      rfl
    · by_cases hkey : key x = key a
      · rw [if_pos ⟨hmany, hkey⟩, if_neg (by simp [hmany, hkey])]
        simp [hkey]
      · have hhead : key a ≠ key x := Ne.symm hkey
        rw [if_neg (fun h => hkey h.2), List.map_cons, ih]
        by_cases hmem : key a ∈ xs.map key
        · rw [if_neg (by simp [hmany, hmem]), if_neg (by simp [hmany, hmem])]
          rfl
        · have hnew : key a ∉ (x :: xs).map key := by
            rw [List.map_cons, List.mem_cons, not_or]
            exact ⟨hhead, hmem⟩
          rw [if_pos (.inr hmem), if_pos (.inr hnew)]
          rfl

theorem firsts_append (ks : List κ) (k : κ) :
    firsts many (ks ++ [k]) =
      if many k ∨ k ∉ firsts many ks then firsts many ks ++ [k] else firsts many ks := by
  induction ks with
  | nil => simp [firsts]
  | cons j ks ih =>
    rw [List.cons_append, firsts, ih, firsts]
    by_cases hmany : many k
    · rw [if_pos (.inl hmany), if_pos (.inl hmany), List.filter_append]
      simp [hmany]
    · by_cases hkj : k = j
      · subst hkj
        rw [if_neg (c := many k ∨ k ∉ k :: _) (by simp [hmany])]
        by_cases hmem : k ∈ firsts many ks
        · rw [if_neg (by simp [hmany, hmem])]
        · rw [if_pos (.inr hmem), List.filter_append]
          simp [hmany]
      · by_cases hmem : k ∈ firsts many ks
        · rw [if_neg (by simp [hmany, hmem]), if_neg (by simp [hmany, hmem, hkj])]
        · rw [if_pos (.inr hmem), if_pos (.inr (by simp [hmem, hkj])), List.filter_append]
          simp [hkj]

/-- The keys stand where they were first put. -/
theorem map_key_putAll (calls : List α) :
    (putAll key many calls).map key = firsts many (calls.map key) := by
  induction calls using List.reverseRecOn with
  | nil => rfl
  | append_singleton calls a ih =>
    rw [putAll_append, map_key_put, ih, List.map_append, List.map_singleton, firsts_append]

theorem mem_put {a x : α} {xs : List α} (h : x ∈ put key many a xs) : x = a ∨ x ∈ xs := by
  induction xs with
  | nil => simpa [put] using h
  | cons y ys ih =>
    rw [put] at h
    split_ifs at h with hcond
    · exact (List.mem_cons.mp h).imp id (List.mem_cons_of_mem y)
    · obtain rfl | htail := List.mem_cons.mp h
      · exact .inr (by simp)
      · exact (ih htail).imp id (List.mem_cons_of_mem y)

theorem mem_putAll {x : α} {calls : List α} (h : x ∈ putAll key many calls) : x ∈ calls := by
  induction calls using List.reverseRecOn with
  | nil => exact h
  | append_singleton calls a ih =>
    rw [putAll_append] at h
    obtain rfl | hx := mem_put h
    · simp
    · simp [ih hx]

theorem Distinct.put {xs : List α} (h : Distinct key many xs) (a : α) :
    Distinct key many (put key many a xs) := by
  induction xs with
  | nil => exact List.pairwise_singleton _ _
  | cons x xs ih =>
    obtain ⟨hx, hxs⟩ := List.pairwise_cons.mp h
    rw [KeyedList.put]
    split_ifs with hcond
    · refine List.pairwise_cons.mpr ⟨fun y hy => ?_, hxs⟩
      rw [← hcond.2]
      exact hx y hy
    · refine List.pairwise_cons.mpr ⟨fun y hy => ?_, ih hxs⟩
      obtain rfl | hy := mem_put hy
      · by_cases hmany : many (key y)
        · by_cases hkey : key x = key y
          · exact .inl (hkey ▸ hmany)
          · exact .inr hkey
        · exact .inr fun hkey => hcond ⟨hmany, hkey⟩
      · exact hx y hy

theorem distinct_putAll (calls : List α) : Distinct key many (putAll key many calls) := by
  induction calls using List.reverseRecOn with
  | nil => exact .nil
  | append_singleton calls a ih =>
    rw [putAll_append]
    exact ih.put a

theorem putAll_of_distinct {xs : List α} (h : Distinct key many xs) : putAll key many xs = xs := by
  induction xs using List.reverseRecOn with
  | nil => rfl
  | append_singleton xs a ih =>
    obtain ⟨hxs, -, hlast⟩ := List.pairwise_append.mp h
    have hfresh : many (key a) ∨ ∀ x ∈ xs, key x ≠ key a := by
      by_cases hmany : many (key a)
      · exact .inl hmany
      · refine .inr fun x hx hkey => ?_
        obtain hrepeated | hne := hlast x hx a (by simp)
        · exact hmany (hkey ▸ hrepeated)
        · exact hne hkey
    rw [putAll_append, ih hxs, put_fresh hfresh]

/-- Nothing is larger for having been put. -/
theorem sum_put_le (size : α → ℕ) (a : α) (xs : List α) :
    ((put key many a xs).map size).sum ≤ (xs.map size).sum + size a := by
  induction xs with
  | nil => simp [put]
  | cons x xs ih =>
    rw [put]
    split_ifs
    · simp only [List.map_cons, List.sum_cons]
      omega
    · simp only [List.map_cons, List.sum_cons]
      omega

theorem sum_putAll_le (size : α → ℕ) (calls : List α) :
    ((putAll key many calls).map size).sum ≤ (calls.map size).sum := by
  induction calls using List.reverseRecOn with
  | nil => exact le_rfl
  | append_singleton calls a ih =>
    have hput : ((put key many a (putAll key many calls)).map size).sum ≤
        ((putAll key many calls).map size).sum + size a := sum_put_le size a _
    rw [putAll_append, List.map_append, List.sum_append, List.map_singleton, List.sum_singleton]
    omega

/-- What is left beside the new entry has another key. -/
theorem Distinct.mem_put {xs : List α} (h : Distinct key many xs) {a x : α}
    (hx : x ∈ KeyedList.put key many a xs) (hmany : ¬ many (key x)) :
    x = a ∨ x ∈ xs ∧ key x ≠ key a := by
  induction xs with
  | nil => exact .inl (by simpa [KeyedList.put] using hx)
  | cons y ys ih =>
    obtain ⟨hy, hys⟩ := List.pairwise_cons.mp h
    rw [KeyedList.put] at hx
    split_ifs at hx with hcond
    · obtain rfl | htail := List.mem_cons.mp hx
      · exact .inl rfl
      · have hne := (hy x htail).resolve_left (hcond.2 ▸ hcond.1)
        exact .inr ⟨by simp [htail], hcond.2 ▸ hne.symm⟩
    · obtain rfl | htail := List.mem_cons.mp hx
      · refine .inr ⟨by simp, fun hkey => hcond ⟨hkey ▸ hmany, hkey⟩⟩
      · exact (ih hys htail).imp id fun hold => ⟨by simp [hold.1], hold.2⟩

/-- An entry of a key that occurs once is the last one put under it. -/
theorem last_of_mem_putAll {x : α} {calls : List α} (h : x ∈ putAll key many calls)
    (hmany : ¬ many (key x)) : calls.reverse.find? (fun a => key a = key x) = some x := by
  induction calls using List.reverseRecOn with
  | nil => cases h
  | append_singleton calls a ih =>
    rw [putAll_append] at h
    rw [List.reverse_append, List.reverse_singleton, List.singleton_append]
    obtain rfl | ⟨hold, hne⟩ := (distinct_putAll calls).mem_put h hmany
    · exact List.find?_cons_of_pos (by simp)
    · rw [List.find?_cons_of_neg (by simpa using hne.symm)]
      exact ih hold

theorem filter_put_of_not {a : α} (hmany : ¬ many (key a)) (xs : List α) :
    (put key many a xs).filter (fun x => many (key x)) = xs.filter fun x => many (key x) := by
  induction xs with
  | nil => simp [put, hmany]
  | cons x xs ih =>
    rw [put]
    split_ifs with hcond
    · have hx : ¬ many (key x) := hcond.2 ▸ hmany
      simp [hmany, hx]
    · rw [List.filter_cons, List.filter_cons, ih]

theorem filter_put (a : α) (xs : List α) :
    (put key many a xs).filter (fun x => many (key x)) =
      (xs ++ [a]).filter fun x => many (key x) := by
  by_cases hmany : many (key a)
  · rw [put_fresh (.inl hmany)]
  · rw [filter_put_of_not hmany, List.filter_append]
    simp [hmany]

/-- Every entry of a key that may be repeated is kept, in order. -/
theorem filter_putAll (calls : List α) :
    (putAll key many calls).filter (fun x => many (key x)) =
      calls.filter fun x => many (key x) := by
  induction calls using List.reverseRecOn with
  | nil => rfl
  | append_singleton calls a ih =>
    rw [putAll_append, filter_put, List.filter_append, ih, List.filter_append]

end Mqtt5.KeyedList
