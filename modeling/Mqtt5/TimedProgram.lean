import Mqtt5.CallMachine

/-!
# Programs beside a clock

A program leaves its waits to the environment. A wait has a delay, which counts from the step
that started it, and its end is an action like any other. Here a clock runs beside the program:
no wait ends before it is due, and time passes only while nothing is left to be run and no wait
is due. What happens is kept with the time at which it did.
-/
namespace Mqtt5.TimedProgram
open CallMachine
variable {σ κ α ε τ : Type}

/-- The timers of a program: the delay of the wait that is pending on one, the state without
that wait, and the timer whose wait an action ends. -/
structure Waits (σ α τ : Type) where
  timers : List τ
  pending : σ → τ → Option ℕ
  without : σ → τ → σ
  ends : α → Option τ

/-- The past has what happened last first. -/
structure TimedConfig (σ κ ε τ : Type) where
  config : Config σ κ ε
  now : ℕ := 0
  due : τ → ℕ := fun _ => 0
  past : List (ℕ × ε) := []

inductive TimedAction (α : Type)
  | elapse
  | act (a : α)

section Clock
variable (P : Program σ κ α ε) (W : Waits σ α τ) (unit : ℕ)

/-- The delay of the wait that a step starts. It leaves one where none was pending before. -/
def started (c : Config σ κ ε) (a : α) (t : τ) : Option ℕ :=
  (P.step { c with state := W.without c.state t } a).bind fun d => W.pending d.state t

/-- Nothing is left to be run, and no wait is due. -/
def Idle (v : TimedConfig σ κ ε τ) : Prop :=
  v.config.stack = [] ∧ ∀ t ∈ W.timers, (W.pending v.config.state t).isSome → v.now < v.due t

instance (v : TimedConfig σ κ ε τ) : Decidable (Idle W v) :=
  inferInstanceAs (Decidable (_ ∧ _))

/-- A step of the program takes no time. The clock has `unit` ticks for each unit of a delay. -/
def next (v : TimedConfig σ κ ε τ) (a : α) (d : Config σ κ ε) : TimedConfig σ κ ε τ where
  config := d
  now := v.now
  due t := match started P W v.config a t with
    | some delay => v.now + unit * delay
    | none => v.due t
  past := (d.log.take (d.log.length - v.config.log.length)).map (v.now, ·) ++ v.past

def timedStep (v : TimedConfig σ κ ε τ) : TimedAction α → Option (TimedConfig σ κ ε τ)
  | .elapse => if Idle W v then some { v with now := v.now + 1 } else none
  | .act a =>
      if (W.ends a).all (v.due · ≤ v.now) then (P.step v.config a).map (next P W unit v a) else none

/-- The timed runs whose steps all satisfy `ok`. -/
inductive TimedRun (ok : Config σ κ ε → α → Prop) (v : TimedConfig σ κ ε τ) :
    TimedConfig σ κ ε τ → Prop
  | refl : TimedRun ok v v
  | elapse {w : TimedConfig σ κ ε τ} (run : TimedRun ok v w) (hidle : Idle W w) :
      TimedRun ok v { w with now := w.now + 1 }
  | act {w : TimedConfig σ κ ε τ} {d : Config σ κ ε} (a : α) (run : TimedRun ok v w)
      (hok : ok w.config a) (hdue : ∀ t, W.ends a = some t → w.due t ≤ w.now)
      (hstep : P.step w.config a = some d) : TimedRun ok v (next P W unit w a d)

/-- What a sequence of timed actions leads to, as long as `ok` holds. -/
def timedSteps (ok : Config σ κ ε → α → Bool) (v : TimedConfig σ κ ε τ) :
    List (TimedAction α) → Option (TimedConfig σ κ ε τ)
  | [] => some v
  | .elapse :: as => (timedStep P W unit v .elapse).bind (timedSteps ok · as)
  | .act a :: as =>
      if ok v.config a then (timedStep P W unit v (.act a)).bind (timedSteps ok · as) else none

end Clock

variable {P : Program σ κ α ε} {W : Waits σ α τ} {unit : ℕ}
variable {ok : Config σ κ ε → α → Prop} {u v w : TimedConfig σ κ ε τ}

/-- A reaction's effects happen now. -/
theorem next_past (v : TimedConfig σ κ ε τ) (a : α) (rest : List κ) (r : Reaction σ κ ε) :
    (next P W unit v a (P.react v.config rest r)).past = r.effects.map (v.now, ·) ++ v.past := by
  have hnew : (r.effects ++ v.config.log).length - v.config.log.length = r.effects.length := by
    rw [List.length_append, Nat.add_sub_cancel]
  simp only [next, Program.react, hnew, List.take_left']

theorem next_due_of_some {a : α} {t : τ} {delay : ℕ} (h : started P W v.config a t = some delay)
    (d : Config σ κ ε) : (next P W unit v a d).due t = v.now + unit * delay := by
  simp only [next, h]

theorem next_due_of_none {a : α} {t : τ} (h : started P W v.config a t = none)
    (d : Config σ κ ε) : (next P W unit v a d).due t = v.due t := by
  simp only [next, h]

namespace TimedRun

theorem trans (first : TimedRun P W unit ok u v) (second : TimedRun P W unit ok v w) :
    TimedRun P W unit ok u w := by
  induction second with
  | refl => exact first
  | elapse _ hidle ih => exact .elapse ih hidle
  | act a _ hok hdue hstep ih => exact .act a ih hok hdue hstep

theorem of_timedSteps {okb : Config σ κ ε → α → Bool} (as : List (TimedAction α))
    (h : timedSteps P W unit okb v as = some w) :
    TimedRun P W unit (fun c a => okb c a = true) v w := by
  induction as generalizing v with
  | nil =>
    cases h
    exact .refl
  | cons a as ih =>
    cases a with
    | elapse =>
      obtain ⟨u, hstep, hrest⟩ := Option.bind_eq_some_iff.mp h
      obtain ⟨hidle, hu⟩ := Option.ite_none_right_eq_some.mp hstep
      cases hu
      exact (TimedRun.elapse .refl hidle).trans (ih hrest)
    | act a =>
      obtain ⟨hok, hafter⟩ := Option.ite_none_right_eq_some.mp h
      obtain ⟨u, hstep, hrest⟩ := Option.bind_eq_some_iff.mp hafter
      obtain ⟨hall, hmap⟩ := Option.ite_none_right_eq_some.mp hstep
      obtain ⟨d, hd, rfl⟩ := Option.map_eq_some_iff.mp hmap
      have hdue : ∀ t, W.ends a = some t → v.due t ≤ v.now := by
        intro t ht
        simpa [ht] using hall
      exact (TimedRun.act a .refl hok hdue hd).trans (ih hrest)

/-- Without its clock it is a run of the program. -/
theorem untimed (run : TimedRun P W unit ok v w) : P.Run ok v.config w.config := by
  induction run with
  | refl => exact .refl
  | elapse _ _ ih => exact ih
  | act a _ hok _ hstep ih => exact .tail a ih hok hstep

/-- What holds at the start, does not end with time and survives every reaction holds at the
end. -/
theorem invariant {I : TimedConfig σ κ ε τ → Prop} (run : TimedRun P W unit ok v w) (hstart : I v)
    (helapse : ∀ w, I w → Idle W w → I { w with now := w.now + 1 })
    (harrive : ∀ w a r, TimedRun P W unit ok v w → I w → ok w.config a →
      (∀ t, W.ends a = some t → w.due t ≤ w.now) → w.config.stack = [] →
      P.arrive w.config.state a = some r → I (next P W unit w a (P.react w.config [] r)))
    (hrespond : ∀ w a call rest r, TimedRun P W unit ok v w → I w → ok w.config a →
      w.config.stack = call :: rest → P.respond w.config.state call a = some r →
      I (next P W unit w a (P.react w.config rest r))) : I w := by
  induction run with
  | refl => exact hstart
  | elapse _ hidle ih => exact helapse _ ih hidle
  | act a run hok hdue hstep ih =>
    cases Program.step_stepped hstep with
    | arrive r hstack hr => exact harrive _ a r run ih hok hdue hstack hr
    | respond call rest r hstack hr => exact hrespond _ a call rest r run ih hok hstack hr

/-- The past is the log with its times, none of which is still to come. -/
theorem past_log (run : TimedRun P W unit ok v w) (hlog : v.past.map Prod.snd = v.config.log)
    (hnow : ∀ e ∈ v.past, e.1 ≤ v.now) :
    w.past.map Prod.snd = w.config.log ∧ ∀ e ∈ w.past, e.1 ≤ w.now := by
  have hreact : ∀ w a rest r, (w.past.map Prod.snd = w.config.log ∧ ∀ e ∈ w.past, e.1 ≤ w.now) →
      ((next P W unit w a (P.react w.config rest r)).past.map Prod.snd =
          (P.react w.config rest r).log ∧
        ∀ e ∈ (next P W unit w a (P.react w.config rest r)).past, e.1 ≤ w.now) := by
    intro w a rest r h
    rw [next_past, List.map_append, h.1, List.map_map]
    refine ⟨by simp [Program.react, Function.comp_def], ?_⟩
    intro e he
    rcases List.mem_append.mp he with he | he
    · obtain ⟨_, -, rfl⟩ := List.mem_map.mp he
      exact Nat.le_refl _
    · exact h.2 e he
  refine run.invariant
    (I := fun w => w.past.map Prod.snd = w.config.log ∧ ∀ e ∈ w.past, e.1 ≤ w.now)
    ⟨hlog, hnow⟩ ?_ ?_ ?_
  · intro w h _
    exact ⟨h.1, fun e he => Nat.le_succ_of_le (h.2 e he)⟩
  · exact fun w a r _ h _ _ _ _ => hreact w a [] r h
  · exact fun w a call rest r _ h _ _ _ => hreact w a rest r h

end TimedRun

/-- What is `later` comes at least `gap` after what is `earlier`. -/
def Spaced (later earlier : ε → Prop) (gap : ℕ) (x y : ℕ × ε) : Prop :=
  later x.2 → earlier y.2 → y.1 + gap ≤ x.1

theorem spaced_next {later earlier : ε → Prop} {gap : ℕ} (h : v.past.Pairwise (Spaced later earlier gap))
    {a : α} {rest : List κ} {r : Reaction σ κ ε}
    (hnew : r.effects.Pairwise fun x y => later x → ¬ earlier y)
    (hold : (∃ x ∈ r.effects, later x) → ∀ y ∈ v.past, earlier y.2 → y.1 + gap ≤ v.now) :
    (next P W unit v a (P.react v.config rest r)).past.Pairwise (Spaced later earlier gap) := by
  rw [next_past]
  refine List.pairwise_append.mpr ⟨List.pairwise_map.mpr ?_, h, ?_⟩
  · exact hnew.imp fun hne hlater hearlier => absurd hearlier (hne hlater)
  · intro x hx y hy hlater hearlier
    obtain ⟨e, he, rfl⟩ := List.mem_map.mp hx
    exact hold ⟨e, he, hlater⟩ y hy hearlier

/-! ## Waits end when they are due -/

variable (P W) in
/-- A wait that is pending after a step was so before, or is started by it. -/
def Waits.Kept : Prop := ∀ c a d, P.step c a = some d → ∀ t, started P W c a t = none →
  W.pending d.state t = none ∨ W.pending d.state t = W.pending c.state t

variable (W) in
/-- No wait is overdue. -/
def OnTime (v : TimedConfig σ κ ε τ) : Prop :=
  ∀ t ∈ W.timers, (W.pending v.config.state t).isSome → v.now ≤ v.due t

theorem OnTime.next (hkept : W.Kept P) (h : OnTime W v) {a : α} {d : Config σ κ ε}
    (hstep : P.step v.config a = some d) : OnTime W (next P W unit v a d) := by
  intro t ht hpending
  cases hstarted : started P W v.config a t with
  | some delay =>
    rw [next_due_of_some hstarted]
    exact Nat.le_add_right _ _
  | none =>
    rw [next_due_of_none hstarted]
    change (W.pending d.state t).isSome at hpending
    rcases hkept _ _ _ hstep t hstarted with hnone | hsame
    · rw [hnone] at hpending
      cases hpending
    · exact h t ht (hsame ▸ hpending)

theorem TimedRun.onTime (run : TimedRun P W unit ok v w) (hkept : W.Kept P) (hstart : OnTime W v) :
    OnTime W w := by
  induction run with
  | refl => exact hstart
  | elapse _ hidle => exact hidle.2
  | act a _ _ _ hstep ih => exact ih.next hkept hstep

/-! ## Time goes on -/

variable (W) in
def Due (v : TimedConfig σ κ ε τ) (t : τ) : Prop :=
  (W.pending v.config.state t).isSome ∧ v.due t ≤ v.now

instance (v : TimedConfig σ κ ε τ) (t : τ) : Decidable (Due W v t) :=
  inferInstanceAs (Decidable (_ ∧ _))

variable (P W) in
/-- With `free` actions alone the program comes to rest and takes the end of each wait, and the
waits that it starts have a delay. -/
structure Lively (free : α → Prop) (J : Config σ κ ε → Prop) : Prop where
  kept : W.Kept P
  step : ∀ c a d, J c → free a → P.step c a = some d → J d
  delay : ∀ c a d t delay, J c → free a → P.step c a = some d → started P W c a t = some delay →
    0 < delay
  rests : ∀ c, J c → ∃ as d, (∀ a ∈ as, free a ∧ W.ends a = none) ∧
    P.stepsWhile (fun _ _ => true) c as = some d ∧ d.stack = []
  fires : ∀ c t, J c → c.stack = [] → t ∈ W.timers → (W.pending c.state t).isSome →
    ∃ a d, free a ∧ W.ends a = some t ∧ P.step c a = some d ∧ W.pending d.state t = none

theorem countP_lt {p q : τ → Bool} {timers : List τ} (h : ∀ t ∈ timers, p t → q t) {t : τ}
    (ht : t ∈ timers) (hp : p t = false) (hq : q t = true) : timers.countP p < timers.countP q := by
  obtain ⟨before, after, rfl⟩ := List.append_of_mem ht
  have hbefore : before.countP p ≤ before.countP q :=
    List.countP_mono_left fun s hs => h s (List.mem_append_left _ hs)
  have hafter : after.countP p ≤ after.countP q :=
    List.countP_mono_left fun s hs => h s (List.mem_append_right _ (List.mem_cons_of_mem _ hs))
  rw [List.countP_append, List.countP_append, List.countP_cons_of_neg (by simp [hp]),
    List.countP_cons_of_pos hq]
  omega

section Lively
variable {free : α → Prop} {J : Config σ κ ε → Prop}

/-- A step makes no wait due. -/
theorem Lively.due_next (h : Lively P W free J) (hunit : 0 < unit) (hJ : J v.config) {a : α}
    (ha : free a) {d : Config σ κ ε} (hstep : P.step v.config a = some d) {t : τ}
    (hdue : Due W (next P W unit v a d) t) : started P W v.config a t = none ∧ Due W v t := by
  obtain ⟨hpending, hle⟩ := hdue
  cases hstarted : started P W v.config a t with
  | some delay =>
    have hpos := Nat.mul_pos hunit (h.delay _ _ _ _ _ hJ ha hstep hstarted)
    rw [next_due_of_some hstarted] at hle
    change _ ≤ v.now at hle
    omega
  | none =>
    rw [next_due_of_none hstarted] at hle
    refine ⟨rfl, ?_, hle⟩
    change (W.pending d.state t).isSome at hpending
    rcases h.kept _ _ _ hstep t hstarted with hnone | hsame
    · rw [hnone] at hpending
      cases hpending
    · exact hsame ▸ hpending

/-- It comes to rest before any time has passed. -/
theorem Lively.exists_rest (h : Lively P W free J) (hunit : 0 < unit) (hJ : J v.config) :
    ∃ w, TimedRun P W unit (fun _ => free) v w ∧ J w.config ∧ w.now = v.now ∧
      w.config.stack = [] ∧ ∀ t, Due W w t → Due W v t := by
  have hsteps : ∀ as (v : TimedConfig σ κ ε τ) d, J v.config →
      (∀ a ∈ as, free a ∧ W.ends a = none) →
      P.stepsWhile (fun _ _ => true) v.config as = some d →
      ∃ w, TimedRun P W unit (fun _ => free) v w ∧ J w.config ∧ w.now = v.now ∧ w.config = d ∧
        ∀ t, Due W w t → Due W v t := by
    intro as
    induction as with
    | nil =>
      intro v d hJ _ hd
      cases hd
      exact ⟨v, .refl, hJ, rfl, rfl, fun _ ht => ht⟩
    | cons a as ih =>
      intro v d hJ hfree hd
      rw [Program.stepsWhile, if_pos rfl] at hd
      obtain ⟨e, hstep, hrest⟩ := Option.bind_eq_some_iff.mp hd
      obtain ⟨⟨ha, hends⟩, hothers⟩ := List.forall_mem_cons.mp hfree
      obtain ⟨w, run, hJw, hnow, hw, hdue⟩ :=
        ih (next P W unit v a e) d (h.step _ _ _ hJ ha hstep) hothers hrest
      have hfirst : TimedRun P W unit (fun _ => free) v (next P W unit v a e) :=
        .act a .refl ha (by simp [hends]) hstep
      exact ⟨w, hfirst.trans run, hJw, hnow, hw,
        fun t ht => (h.due_next hunit hJ ha hstep (hdue t ht)).2⟩
  obtain ⟨as, d, hfree, hd, hrest⟩ := h.rests _ hJ
  obtain ⟨w, run, hJw, hnow, rfl, hdue⟩ := hsteps as v d hJ hfree hd
  exact ⟨w, run, hJw, hnow, hrest, hdue⟩

/-- From every configuration a run without further input reaches the next tick. -/
theorem Lively.exists_tick (h : Lively P W free J) (hunit : 0 < unit) (hJ : J v.config) :
    ∃ w, TimedRun P W unit (fun _ => free) v w ∧ J w.config ∧ w.now = v.now + 1 := by
  generalize hn : W.timers.countP (Due W v ·) = n
  induction n using Nat.strongRecOn generalizing v with
  | ind n ih =>
    obtain ⟨w, run, hJw, hnow, hstack, hsub⟩ := h.exists_rest hunit hJ
    by_cases hdue : ∃ t ∈ W.timers, Due W w t
    · obtain ⟨t, ht, hpending, hle⟩ := hdue
      obtain ⟨a, d, ha, hends, hstep, hnone⟩ := h.fires _ t hJw hstack ht hpending
      have halarm : TimedRun P W unit (fun _ => free) w (next P W unit w a d) := by
        refine .act a .refl ha ?_ hstep
        intro s hs
        rw [hends] at hs
        cases hs
        exact hle
      have hfewer : W.timers.countP (Due W (next P W unit w a d) ·) < n := by
        have hstrict : W.timers.countP (Due W (next P W unit w a d) ·) <
            W.timers.countP (Due W w ·) := by
          refine countP_lt ?_ ht ?_ (decide_eq_true ⟨hpending, hle⟩)
          · intro s _ hs
            simpa using (h.due_next hunit hJw ha hstep (of_decide_eq_true hs)).2
          · refine decide_eq_false fun hstill => ?_
            have hsome := hstill.1
            change (W.pending d.state t).isSome at hsome
            rw [hnone] at hsome
            cases hsome
        have hmono : W.timers.countP (Due W w ·) ≤ W.timers.countP (Due W v ·) :=
          List.countP_mono_left fun s _ hs => by simpa using hsub s (of_decide_eq_true hs)
        omega
      obtain ⟨x, hrun, hJx, hx⟩ := ih _ hfewer (h.step _ _ _ hJw ha hstep) rfl
      exact ⟨x, (run.trans halarm).trans hrun, hJx, hx.trans (congrArg (· + 1) hnow)⟩
    · have hidle : Idle W w := by
        refine ⟨hstack, fun t ht hpending => ?_⟩
        have hnot : ¬ w.due t ≤ w.now := fun hle => hdue ⟨t, ht, hpending, hle⟩
        omega
      exact ⟨_, run.trans (.elapse .refl hidle), hJw, congrArg (· + 1) hnow⟩

/-- Time goes on without end. -/
theorem Lively.goes_on (h : Lively P W free J) (hunit : 0 < unit) (hJ : J v.config) (n : ℕ) :
    ∃ w, TimedRun P W unit (fun _ => free) v w ∧ J w.config ∧ w.now = v.now + n := by
  induction n with
  | zero => exact ⟨v, .refl, hJ, rfl⟩
  | succ n ih =>
    obtain ⟨w, run, hJw, hw⟩ := ih
    obtain ⟨x, hrun, hJx, hx⟩ := h.exists_tick hunit hJw
    exact ⟨x, run.trans hrun, hJx, by omega⟩

end Lively

end Mqtt5.TimedProgram
