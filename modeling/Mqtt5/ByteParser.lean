import Mathlib.Tactic.Common

/-!
# Readers of a token list

A reader takes tokens from the front of a list or stops with a fault. `Decodes`
says that one encoding is read back whatever follows it; `Parses` gives the whole
language of a reader, so it yields both what is accepted and what is rejected.
-/
namespace Mqtt5.ByteParser

abbrev Parser (τ ε α : Type) := StateT (List τ) (Except ε) α

variable {τ ε α β : Type}

theorem bind_ok {x : Except ε α} {f : α → Except ε β} {b : β} :
    (x >>= f) = .ok b ↔ ∃ a, x = .ok a ∧ f a = .ok b := by
  cases x with
  | error e => simp [bind, Except.bind]
  | ok a => simp [bind, Except.bind]

theorem run_bind_ok {p : Parser τ ε α} {f : α → Parser τ ε β} {xs rest : List τ} {b : β} :
    (p >>= f).run xs = .ok (b, rest) ↔
      ∃ a mid, p.run xs = .ok (a, mid) ∧ (f a).run mid = .ok (b, rest) := by
  rw [StateT.run_bind]
  cases h : p.run xs with
  | error e => simp [bind, Except.bind]
  | ok r =>
    constructor
    · intro hr
      exact ⟨r.1, r.2, rfl, hr⟩
    · rintro ⟨a, mid, ⟨⟩, hr⟩
      exact hr

theorem run_bind_error {p : Parser τ ε α} {f : α → Parser τ ε β} {xs : List τ} {e : ε} :
    (p >>= f).run xs = .error e ↔
      p.run xs = .error e ∨ ∃ a mid, p.run xs = .ok (a, mid) ∧ (f a).run mid = .error e := by
  rw [StateT.run_bind]
  cases h : p.run xs with
  | error e' => simp [bind, Except.bind]
  | ok r =>
    constructor
    · intro hr
      exact .inr ⟨r.1, r.2, rfl, hr⟩
    · rintro (⟨⟨⟩⟩ | ⟨a, mid, ⟨⟩, hr⟩)
      exact hr

theorem run_bind_of_ok {p : Parser τ ε α} {f : α → Parser τ ε β} {xs m : List τ} {a : α}
    (h : p.run xs = .ok (a, m)) : (p >>= f).run xs = (f a).run m := by
  rw [StateT.run_bind, h]
  rfl

theorem run_bind_of_error {p : Parser τ ε α} {f : α → Parser τ ε β} {xs : List τ} {e : ε}
    (h : p.run xs = .error e) : (p >>= f).run xs = .error e := by
  rw [StateT.run_bind, h]
  rfl

theorem run_map_ok {p : Parser τ ε α} {f : α → β} {xs rest : List τ} {b : β} :
    (f <$> p).run xs = .ok (b, rest) ↔ ∃ a, p.run xs = .ok (a, rest) ∧ b = f a := by
  rw [StateT.run_map]
  cases p.run xs with
  | error e => simp [Functor.map, Except.map]
  | ok r =>
    obtain ⟨a, ys⟩ := r
    simp only [Functor.map, Except.map, Except.ok.injEq, Prod.mk.injEq]
    constructor
    · rintro ⟨rfl, rfl⟩
      exact ⟨a, ⟨rfl, rfl⟩, rfl⟩
    · rintro ⟨_, ⟨rfl, rfl⟩, rfl⟩
      exact ⟨rfl, rfl⟩

theorem run_map_error {p : Parser τ ε α} {f : α → β} {xs : List τ} {e : ε} :
    (f <$> p).run xs = .error e ↔ p.run xs = .error e := by
  rw [StateT.run_map]
  cases p.run xs <;> simp [Functor.map, Except.map]

theorem run_liftM_ok {x : Except ε α} {xs rest : List τ} {a : α} :
    (liftM x : Parser τ ε α).run xs = .ok (a, rest) ↔ x = .ok a ∧ xs = rest := by
  cases x with
  | error e => simp [liftM, bind, Except.bind]
  | ok b => simp [liftM, bind, Except.bind, pure, Except.pure]

theorem run_liftM_error {x : Except ε α} {xs : List τ} {e : ε} :
    (liftM x : Parser τ ε α).run xs = .error e ↔ x = .error e := by
  cases x with
  | error e' => simp [liftM, bind, Except.bind]
  | ok b => simp [liftM, bind, Except.bind, pure, Except.pure]

/-- The reader returns `a` on `enc` and leaves exactly what follows. -/
def Decodes (p : Parser τ ε α) (enc : List τ) (a : α) : Prop :=
  ∀ rest, p.run (enc ++ rest) = .ok (a, rest)

/-- `W` is the language of `p`: a run succeeds just when the input starts with a
word of `W`, and that word is what it consumes. -/
def Parses (p : Parser τ ε α) (W : List τ → α → Prop) : Prop :=
  ∀ xs a rest, p.run xs = .ok (a, rest) ↔ ∃ enc, xs = enc ++ rest ∧ W enc a

/-- Every successful run takes at least one token. -/
def Progress (p : Parser τ ε α) : Prop :=
  ∀ ⦃xs a rest⦄, p.run xs = .ok (a, rest) → rest.length < xs.length

theorem Decodes.pure (a : α) : Decodes (Pure.pure a : Parser τ ε α) [] a := fun _ => rfl

theorem Decodes.bind {p : Parser τ ε α} {f : α → Parser τ ε β} {e₁ e₂ : List τ} {a : α} {b : β}
    (h₁ : Decodes p e₁ a) (h₂ : Decodes (f a) e₂ b) : Decodes (p >>= f) (e₁ ++ e₂) b := by
  intro rest
  rw [List.append_assoc]
  exact run_bind_ok.mpr ⟨a, e₂ ++ rest, h₁ _, h₂ rest⟩

theorem Decodes.bind_run {p : Parser τ ε α} {f : α → Parser τ ε β} {e : List τ} {a : α}
    (h : Decodes p e a) (rest : List τ) : (p >>= f).run (e ++ rest) = (f a).run rest :=
  run_bind_of_ok (h rest)

theorem Parses.decodes {p : Parser τ ε α} {W : List τ → α → Prop} (h : Parses p W)
    {enc : List τ} {a : α} (hw : W enc a) : Decodes p enc a := by
  intro rest
  exact (h _ a rest).mpr ⟨enc, rfl, hw⟩

theorem Parses.decodes_iff {p : Parser τ ε α} {W : List τ → α → Prop} (h : Parses p W)
    {enc : List τ} {a : α} : Decodes p enc a ↔ W enc a := by
  constructor
  · intro decodes
    obtain ⟨word, same, hword⟩ := (h _ _ _).mp (decodes [])
    rw [List.append_nil, List.append_nil] at same
    exact same ▸ hword
  · exact h.decodes

theorem Parses.bind {p : Parser τ ε α} {f : α → Parser τ ε β} {W : List τ → α → Prop}
    {V : α → List τ → β → Prop} (hp : Parses p W) (hf : ∀ a, Parses (f a) (V a)) :
    Parses (p >>= f) (fun enc b => ∃ e₁ a e₂, enc = e₁ ++ e₂ ∧ W e₁ a ∧ V a e₂ b) := by
  intro xs b rest
  rw [run_bind_ok]
  constructor
  · rintro ⟨a, mid, h₁, h₂⟩
    obtain ⟨e₁, rfl, hw⟩ := (hp _ _ _).mp h₁
    obtain ⟨e₂, rfl, hv⟩ := (hf a _ _ _).mp h₂
    exact ⟨e₁ ++ e₂, by rw [List.append_assoc], e₁, a, e₂, rfl, hw, hv⟩
  · rintro ⟨_, rfl, e₁, a, e₂, rfl, hw, hv⟩
    refine ⟨a, e₂ ++ rest, ?_, (hf a).decodes hv rest⟩
    rw [List.append_assoc]
    exact hp.decodes hw _

theorem Parses.pure (a : α) :
    Parses (Pure.pure a : Parser τ ε α) (fun enc b => enc = [] ∧ b = a) := by
  intro xs b rest
  change Except.ok (a, xs) = .ok (b, rest) ↔ _
  constructor
  · rintro ⟨⟩
    exact ⟨[], rfl, rfl, rfl⟩
  · rintro ⟨_, rfl, rfl, rfl⟩
    rfl

theorem Parses.map {p : Parser τ ε α} {W : List τ → α → Prop} (h : Parses p W) (f : α → β) :
    Parses (f <$> p) (fun enc b => ∃ a, W enc a ∧ b = f a) := by
  intro xs b rest
  rw [run_map_ok]
  constructor
  · rintro ⟨a, ha, rfl⟩
    obtain ⟨enc, rfl, hw⟩ := (h _ _ _).mp ha
    exact ⟨enc, rfl, a, hw, rfl⟩
  · rintro ⟨enc, rfl, a, hw, rfl⟩
    exact ⟨a, h.decodes hw _, rfl⟩

theorem Parses.congr {p : Parser τ ε α} {W V : List τ → α → Prop} (h : Parses p W)
    (hv : ∀ enc a, W enc a ↔ V enc a) : Parses p V := by
  have he : W = V := by
    funext enc a
    exact propext (hv enc a)
  exact he ▸ h

theorem Parses.progress {p : Parser τ ε α} {W : List τ → α → Prop} (h : Parses p W)
    (hne : ∀ enc a, W enc a → enc ≠ []) : Progress p := by
  intro xs a rest hr
  obtain ⟨enc, rfl, hw⟩ := (h _ _ _).mp hr
  have := List.length_pos_iff.mpr (hne enc a hw)
  simp only [List.length_append]
  omega

/-- The loop `while (!data.empty()) { read one }`, at most `fuel` times. -/
def many (stuck : ε) (p : Parser τ ε α) : ℕ → Parser τ ε (List α)
  | 0 => do
      let data ← get
      if data.isEmpty then return [] else throw stuck
  | fuel + 1 => do
      let data ← get
      if data.isEmpty then return []
      let a ← p
      let as ← many stuck p fuel
      return a :: as

/-- One round for each token of the input. -/
def untilEmpty (stuck : ε) (p : Parser τ ε α) : Parser τ ε (List α) := do
  many stuck p (← get).length

theorem many_nil (stuck : ε) (p : Parser τ ε α) (fuel : ℕ) :
    (many stuck p fuel).run [] = .ok ([], []) := by
  cases fuel <;> rfl

theorem many_cons (stuck : ε) (p : Parser τ ε α) (fuel : ℕ) (x : τ) (xs : List τ) :
    (many stuck p (fuel + 1)).run (x :: xs) =
      (do let a ← p; let as ← many stuck p fuel; return a :: as : Parser τ ε (List α)).run
        (x :: xs) := rfl

/-- A loop whose body takes something each time never uses up its fuel. -/
theorem many_fuel {stuck : ε} {p : Parser τ ε α} (hp : Progress p) {fuel fuel' : ℕ}
    {xs : List τ} (h : xs.length ≤ fuel) (h' : xs.length ≤ fuel') :
    (many stuck p fuel).run xs = (many stuck p fuel').run xs := by
  induction fuel generalizing fuel' xs with
  | zero =>
    obtain rfl := List.length_eq_zero_iff.mp (Nat.le_zero.mp h)
    rw [many_nil, many_nil]
  | succ fuel ih =>
    cases xs with
    | nil => rw [many_nil, many_nil]
    | cons x xs =>
      obtain ⟨k, rfl⟩ : ∃ k, fuel' = k + 1 := ⟨fuel' - 1, by simp at h'; omega⟩
      rw [many_cons, many_cons, StateT.run_bind, StateT.run_bind]
      cases hr : p.run (x :: xs) with
      | error e => rfl
      | ok r =>
        have hlt := hp hr
        simp only [List.length_cons] at h h' hlt
        have hmid := @ih k r.2 (by omega) (by omega)
        simp only [bind, Except.bind, StateT.run, StateT.bind] at hmid ⊢
        rw [hmid]

/-- The loop's own equation, with no fuel in it. -/
theorem untilEmpty_cons {stuck : ε} {p : Parser τ ε α} (hp : Progress p) (x : τ) (xs : List τ) :
    (untilEmpty stuck p).run (x :: xs) =
      (do let a ← p; let as ← untilEmpty stuck p; return a :: as : Parser τ ε (List α)).run
        (x :: xs) := by
  change (many stuck p (xs.length + 1)).run (x :: xs) = _
  rw [many_cons, StateT.run_bind, StateT.run_bind]
  cases hr : p.run (x :: xs) with
  | error e => rfl
  | ok r =>
    have hlt := hp hr
    simp only [List.length_cons] at hlt
    have hmid : (many stuck p xs.length).run r.2 = (many stuck p r.2.length).run r.2 :=
      many_fuel hp (by omega) (Nat.le_refl _)
    simp only [bind, Except.bind, StateT.run, StateT.bind] at hmid ⊢
    rw [hmid]
    rfl

@[simp] theorem untilEmpty_nil (stuck : ε) (p : Parser τ ε α) :
    (untilEmpty stuck p).run [] = .ok ([], []) := rfl

/-- Words of a loop: any number of nonempty words of its body. -/
inductive Star (W : List τ → α → Prop) : List τ → List α → Prop
  | nil : Star W [] []
  | cons {e es : List τ} {a : α} {as : List α} (head : W e a) (tail : Star W es as) :
      Star W (e ++ es) (a :: as)

theorem untilEmpty_ok_iff {stuck : ε} {p : Parser τ ε α} {W : List τ → α → Prop}
    (hp : Parses p W) (hne : ∀ enc a, W enc a → enc ≠ []) (xs : List τ) (as : List α)
    (rest : List τ) :
    (untilEmpty stuck p).run xs = .ok (as, rest) ↔ rest = [] ∧ Star W xs as := by
  have hprog := hp.progress hne
  constructor
  · intro h
    induction hn : xs.length using Nat.strongRecOn generalizing xs as with
    | ind n ih =>
      cases xs with
      | nil =>
        obtain ⟨rfl, rfl⟩ : as = [] ∧ rest = [] := by
          simpa [eq_comm] using h
        exact ⟨rfl, .nil⟩
      | cons x xs =>
        rw [untilEmpty_cons hprog] at h
        obtain ⟨a, mid, h₁, h₂⟩ := run_bind_ok.mp h
        obtain ⟨as', mid', h₃, h₄⟩ := run_bind_ok.mp h₂
        cases h₄
        obtain ⟨e, he, hw⟩ := (hp _ _ _).mp h₁
        have hlt := hprog h₁
        obtain ⟨hr, hs⟩ := ih mid.length (hn ▸ hlt) mid as' h₃ rfl
        exact ⟨hr, he ▸ .cons hw hs⟩
  · rintro ⟨rfl, hs⟩
    induction hs with
    | nil => rfl
    | @cons e es a as head tail ih =>
      obtain ⟨x, e', rfl⟩ := List.exists_cons_of_ne_nil (hne e a head)
      rw [List.cons_append, untilEmpty_cons hprog]
      refine run_bind_ok.mpr ⟨a, es, (hp.decodes head) es, run_bind_ok.mpr ⟨as, [], ih, rfl⟩⟩

/-- Words that a reader takes from the front are what a longer word starts with. -/
theorem Star.split {p : Parser τ ε α} {W : List τ → α → Prop} (hp : Parses p W)
    (hne : ∀ enc a, W enc a → enc ≠ []) {es tail : List τ} {as bs : List α} (h : Star W es as)
    (hs : Star W (es ++ tail) bs) : ∃ cs, bs = as ++ cs ∧ Star W tail cs := by
  induction h generalizing bs with
  | nil => exact ⟨bs, rfl, hs⟩
  | @cons e es a as head _ ih =>
    rw [List.append_assoc] at hs
    generalize hxs : e ++ (es ++ tail) = xs at hs
    cases hs with
    | nil => exact absurd (List.append_eq_nil_iff.mp hxs).1 (hne e a head)
    | @cons e' es' b bs head' rest =>
      have hrun := hp.decodes head (es ++ tail)
      rw [hxs, hp.decodes head' es'] at hrun
      cases hrun
      obtain ⟨cs, rfl, hcs⟩ := ih rest
      exact ⟨cs, rfl, hcs⟩

/-- A word that is cut short is no end of a run of words. -/
theorem Star.not_of_cut {p : Parser τ ε α} {W : List τ → α → Prop} (hp : Parses p W)
    (hne : ∀ enc a, W enc a → enc ≠ []) {body cut more : List τ} {as bs : List α} {b : α}
    (h : Star W body as) (hword : W (cut ++ more) b) (hcut : cut ≠ []) (hmore : more ≠ []) :
    ¬ Star W (body ++ cut) bs := by
  intro hs
  obtain ⟨cs, -, hcs⟩ := h.split hp hne hs
  cases hcs with
  | nil => exact hcut rfl
  | @cons e es c cs head tail =>
    have hshort := hp.decodes head (es ++ more)
    have hlong := hp.decodes hword []
    rw [List.append_nil, List.append_assoc, hshort, Except.ok.injEq, Prod.mk.injEq] at hlong
    exact hmore (List.append_eq_nil_iff.mp hlong.2).2

/-- The loop stops with a fault only where its body does. -/
theorem untilEmpty_error {stuck e : ε} {p : Parser τ ε α} (hp : Progress p)
    (he : ∀ x xs, p.run (x :: xs) ≠ .error e) (xs : List τ) :
    (untilEmpty stuck p).run xs ≠ .error e := by
  induction hn : xs.length using Nat.strongRecOn generalizing xs with
  | ind n ih =>
    cases xs with
    | nil => simp
    | cons x xs =>
      rw [untilEmpty_cons hp, Ne, run_bind_error]
      rintro (h | ⟨a, mid, h₁, h₂⟩)
      · exact he x xs h
      · rcases run_bind_error.mp h₂ with h | ⟨_, _, _, h⟩
        · exact ih mid.length (hn ▸ hp h₁) mid rfl h
        · cases h

end Mqtt5.ByteParser
