import Mathlib.Algebra.GroupWithZero.Nat
import Mathlib.Data.List.Chain
import Mathlib.Tactic.Common

/-!
# Programs that are called back

A program written with callbacks runs to completion inside the calls that an event
starts, and hands control to code it does not know in the middle of them. `Program`
keeps what remains to be run as a stack of calls: the call on top is answered by a
`Reaction`, and only when the stack is empty can the outside world raise an event.
-/
namespace Mqtt5.CallMachine

/-- What is kept when the top of a stack is taken off holds of all that remains below. -/
theorem of_suffix {κ : Type} {P : List κ → Prop} (tail : ∀ {call calls}, P (call :: calls) → P calls)
    {stack rest : List κ} (h : P stack) (hrest : rest <:+ stack) : P rest := by
  obtain ⟨top, rfl⟩ := hrest
  induction top with
  | nil => exact h
  | cons call top ih => exact ih (tail h)

/-- What one call does before control goes elsewhere: the new state, the calls that come
next, the effects it had (the last one first), and whether it ended with an exception. -/
structure Reaction (σ κ ε : Type) where
  state : σ
  calls : List κ := []
  effects : List ε := []
  threw : Bool := false

namespace Reaction
variable {σ κ ε : Type}

/-- Go on with `next` unless an exception was thrown. -/
def andThen (r : Reaction σ κ ε) (next : σ → Reaction σ κ ε) : Reaction σ κ ε :=
  if r.threw then r
  else
    let s := next r.state
    ⟨s.state, r.calls ++ s.calls, s.effects ++ r.effects, s.threw⟩

theorem andThen_of_threw {r : Reaction σ κ ε} (h : r.threw = true)
    (next : σ → Reaction σ κ ε) : r.andThen next = r := by
  rw [andThen, if_pos h]

theorem andThen_of_not_threw {r : Reaction σ κ ε} (h : r.threw = false)
    (next : σ → Reaction σ κ ε) :
    r.andThen next = ⟨(next r.state).state, r.calls ++ (next r.state).calls,
      (next r.state).effects ++ r.effects, (next r.state).threw⟩ := by
  rw [andThen, if_neg (by simp [h])]

theorem andThen_threw {r : Reaction σ κ ε} {next : σ → Reaction σ κ ε} (h : r.threw = false)
    (hnext : ∀ s, (next s).threw = false) : (r.andThen next).threw = false := by
  rw [andThen_of_not_threw h]
  exact hnext r.state

theorem andThen_state {S : σ → Prop} {r : Reaction σ κ ε} {next : σ → Reaction σ κ ε}
    (h : S r.state) (hnext : ∀ s, S s → S (next s).state) : S (r.andThen next).state := by
  cases hthrew : r.threw with
  | true =>
    rw [andThen_of_threw hthrew]
    exact h
  | false =>
    rw [andThen_of_not_threw hthrew]
    exact hnext r.state h

/-- What a reaction guarantees of the state it leaves, of each call and of each effect. -/
structure Ensures (S : σ → Prop) (K : κ → Prop) (E : ε → Prop) (r : Reaction σ κ ε) : Prop where
  state : S r.state
  calls : ∀ call ∈ r.calls, K call
  effects : ∀ e ∈ r.effects, E e

theorem Ensures.andThen {S : σ → Prop} {K : κ → Prop} {E : ε → Prop} {r : Reaction σ κ ε}
    {next : σ → Reaction σ κ ε} (h : r.Ensures S K E) (hnext : ∀ s, S s → (next s).Ensures S K E) :
    (r.andThen next).Ensures S K E := by
  cases hthrew : r.threw with
  | true =>
    rw [andThen_of_threw hthrew]
    exact h
  | false =>
    have hrest := hnext r.state h.state
    rw [andThen_of_not_threw hthrew]
    constructor
    · exact hrest.state
    · intro call hcall
      exact (List.mem_append.mp hcall).elim (h.calls call) (hrest.calls call)
    · intro e he
      exact (List.mem_append.mp he).elim (hrest.effects e) (h.effects e)

end Reaction

/-- `respond` answers the call on top of the stack, `arrive` an event that comes when the
stack is empty. The action resolves what the program does not decide. A frame that
`catches` stops an exception. -/
structure Program (σ κ α ε : Type) where
  respond : σ → κ → α → Option (Reaction σ κ ε)
  arrive : σ → α → Option (Reaction σ κ ε)
  catches : κ → Bool

/-- The log has the last effect first. -/
structure Config (σ κ ε : Type) where
  state : σ
  stack : List κ := []
  log : List ε := []

namespace Program
variable {σ κ α ε : Type} (P : Program σ κ α ε)

/-- What is left of the stack once an exception is caught. -/
def unwind (stack : List κ) : List κ := stack.dropWhile fun call => !P.catches call

/-- Put a reaction in the place of the call that was on top of `rest`. -/
def react (c : Config σ κ ε) (rest : List κ) (r : Reaction σ κ ε) : Config σ κ ε :=
  ⟨r.state, if r.threw then P.unwind rest else r.calls ++ rest, r.effects ++ c.log⟩

def step (c : Config σ κ ε) (a : α) : Option (Config σ κ ε) :=
  match c.stack with
  | [] => (P.arrive c.state a).map (P.react c [])
  | call :: rest => (P.respond c.state call a).map (P.react c rest)

/-- Everything a step can be. -/
inductive Stepped (c : Config σ κ ε) (a : α) : Config σ κ ε → Prop
  | arrive (r : Reaction σ κ ε) (hstack : c.stack = []) (hr : P.arrive c.state a = some r) :
      Stepped c a (P.react c [] r)
  | respond (call : κ) (rest : List κ) (r : Reaction σ κ ε) (hstack : c.stack = call :: rest)
      (hr : P.respond c.state call a = some r) : Stepped c a (P.react c rest r)

variable {P}

theorem step_stepped {c d : Config σ κ ε} {a : α} (h : P.step c a = some d) :
    P.Stepped c a d := by
  rw [step] at h
  split at h
  case h_1 hstack =>
    obtain ⟨r, hr, rfl⟩ := Option.map_eq_some_iff.mp h
    exact .arrive r hstack hr
  case h_2 call rest hstack =>
    obtain ⟨r, hr, rfl⟩ := Option.map_eq_some_iff.mp h
    exact .respond call rest r hstack hr

theorem react_of_not_threw {c : Config σ κ ε} {rest : List κ} {r : Reaction σ κ ε}
    (h : r.threw = false) :
    P.react c rest r = ⟨r.state, r.calls ++ rest, r.effects ++ c.log⟩ := by
  rw [react, if_neg (by simp [h])]

theorem unwind_sublist (stack : List κ) : (P.unwind stack).Sublist stack :=
  List.dropWhile_sublist _

/-- No frame appears on the stack that was neither there nor called. -/
theorem mem_react {c : Config σ κ ε} {rest : List κ} {r : Reaction σ κ ε} {call : κ}
    (h : call ∈ (P.react c rest r).stack) : call ∈ r.calls ∨ call ∈ rest := by
  rw [react] at h
  cases hthrew : r.threw with
  | true =>
    rw [hthrew, if_pos rfl] at h
    exact .inr ((P.unwind_sublist rest).subset h)
  | false =>
    rw [hthrew, if_neg (by simp)] at h
    exact List.mem_append.mp h

/-- Frames of a kind are those that were there and those that were called. -/
theorem countP_react (p : κ → Bool) (c : Config σ κ ε) (rest : List κ) (r : Reaction σ κ ε) :
    (P.react c rest r).stack.countP p ≤ r.calls.countP p + rest.countP p := by
  rw [react]
  dsimp only
  split
  · have hle := (P.unwind_sublist rest).countP_le (p := p)
    omega
  · exact Nat.le_of_eq List.countP_append

variable (P) in
/-- The runs whose steps all satisfy `ok`. -/
inductive Run (ok : Config σ κ ε → α → Prop) (c : Config σ κ ε) : Config σ κ ε → Prop
  | refl : Run ok c c
  | tail {d e : Config σ κ ε} (a : α) (run : Run ok c d) (hok : ok d a)
      (hstep : P.step d a = some e) : Run ok c e

/-- The configuration that a sequence of actions leads to, as long as `ok` holds. -/
def stepsWhile (P : Program σ κ α ε) (ok : Config σ κ ε → α → Bool) (c : Config σ κ ε) :
    List α → Option (Config σ κ ε)
  | [] => some c
  | a :: as => if ok c a then (P.step c a).bind (stepsWhile P ok · as) else none

theorem stepsWhile_append (ok : Config σ κ ε → α → Bool) (c : Config σ κ ε) (as later : List α) :
    P.stepsWhile ok c (as ++ later) =
      (P.stepsWhile ok c as).bind (P.stepsWhile ok · later) := by
  induction as generalizing c with
  | nil => rfl
  | cons a as ih =>
    rw [List.cons_append, stepsWhile, stepsWhile]
    split
    · rw [Option.bind_assoc]
      exact Option.bind_congr fun d _ => ih d
    · rfl

theorem stepsWhile_suffix {ok : Config σ κ ε → α → Bool} {c d e : Config σ κ ε} {as later : List α}
    (h : P.stepsWhile ok c as = some d) (h' : P.stepsWhile ok c (as ++ later) = some e) :
    P.stepsWhile ok d later = some e := by
  rw [stepsWhile_append, h] at h'
  exact h'

namespace Run
variable {ok ok' : Config σ κ ε → α → Prop} {c d e : Config σ κ ε}

theorem mono (h : ∀ c a, ok c a → ok' c a) (run : P.Run ok c d) : P.Run ok' c d := by
  induction run with
  | refl => exact .refl
  | tail a _ hok hstep ih => exact .tail a ih (h _ _ hok) hstep

theorem trans (first : P.Run ok c d) (second : P.Run ok d e) : P.Run ok c e := by
  induction second with
  | refl => exact first
  | tail a _ hok hstep ih => exact .tail a ih hok hstep

theorem of_stepsWhile {okb : Config σ κ ε → α → Bool} (as : List α)
    (h : P.stepsWhile okb c as = some d) : P.Run (fun c a => okb c a = true) c d := by
  induction as generalizing c with
  | nil =>
    cases h
    exact .refl
  | cons a as ih =>
    rw [stepsWhile] at h
    split at h
    case isTrue hok =>
      obtain ⟨e, hstep, hrest⟩ := Option.bind_eq_some_iff.mp h
      exact (Run.tail a .refl hok hstep).trans (ih hrest)
    case isFalse => cases h

/-- A run goes on with the reaction of the call on top. -/
theorem respond {call : κ} {rest : List κ} {a : α} {r : Reaction σ κ ε} (run : P.Run ok c d)
    (hstack : d.stack = call :: rest) (hr : P.respond d.state call a = some r) (hok : ok d a) :
    P.Run ok c (P.react d rest r) := by
  refine .tail a run hok ?_
  rw [step, hstack]
  exact congrArg (Option.map _) hr

/-- What holds at the start and survives every reaction holds at the end. -/
theorem invariant {I : Config σ κ ε → Prop} (run : P.Run ok c d) (hstart : I c)
    (harrive : ∀ c a r, I c → ok c a → c.stack = [] → P.arrive c.state a = some r →
      I (P.react c [] r))
    (hrespond : ∀ c a call rest r, I c → ok c a → c.stack = call :: rest →
      P.respond c.state call a = some r → I (P.react c rest r)) : I d := by
  induction run with
  | refl => exact hstart
  | tail a _ hok hstep ih =>
    cases step_stepped hstep with
    | arrive r hstack hr => exact harrive _ a r ih hok hstack hr
    | respond call rest r hstack hr => exact hrespond _ a call rest r ih hok hstack hr

/-- What every reaction's effects have, all effects of a run have. -/
theorem logged {E : ε → Prop} (run : P.Run ok c d) (hstart : ∀ e ∈ c.log, E e)
    (harrive : ∀ c a r, P.arrive c a = some r → ∀ e ∈ r.effects, E e)
    (hrespond : ∀ c call a r, P.respond c call a = some r → ∀ e ∈ r.effects, E e) :
    ∀ e ∈ d.log, E e := by
  refine run.invariant (I := fun c => ∀ e ∈ c.log, E e) hstart ?_ ?_
  · intro c a r hc _ _ hr e he
    exact (List.mem_append.mp he).elim (harrive c.state a r hr e) (hc e)
  · intro c a call rest r hc _ _ hr e he
    exact (List.mem_append.mp he).elim (hrespond c.state call a r hr e) (hc e)

/-- What is known of every configuration on the way may be assumed of every step. -/
theorem assume {J : Config σ κ ε → Prop} (hJ : ∀ d, P.Run ok c d → J d) (run : P.Run ok c d) :
    P.Run (fun c a => ok c a ∧ J c) c d := by
  induction run with
  | refl => exact .refl
  | tail a run hok hstep ih => exact .tail a ih ⟨hok, hJ _ run⟩ hstep

end Run

/-! ## Frames that no exception drops -/

section Sheltered
variable {τ : Type} {kept : κ → Option τ} {call : κ} {rest calls : List κ}

variable (P) in
/-- A frame that keeps something stands right below one that does, or that catches. -/
def Sheltered (kept : κ → Option τ) (stack : List κ) : Prop :=
  stack.IsChain fun above below =>
    (kept below).isSome → (kept above).isSome ∨ P.catches above = true

theorem sheltered_of_none (h : ∀ call ∈ calls, kept call = none) : P.Sheltered kept calls := by
  apply List.Pairwise.isChain
  apply List.pairwise_of_forall_mem_list
  intro above _ below hbelow hkept
  rw [h below hbelow] at hkept
  cases hkept

theorem sheltered_of_isSome (h : ∀ call ∈ calls, (kept call).isSome) : P.Sheltered kept calls := by
  apply List.Pairwise.isChain
  apply List.pairwise_of_forall_mem_list
  intro above habove below _ _
  exact .inl (h above habove)

/-- An exception from a frame that keeps nothing drops none that does. -/
theorem Sheltered.unwind (h : P.Sheltered kept (call :: rest)) (hkept : kept call = none)
    (hcatches : P.catches call = false) : P.Sheltered kept (P.unwind rest) ∧
      (P.unwind rest).filterMap kept = rest.filterMap kept := by
  induction rest generalizing call with
  | nil => exact ⟨.nil, rfl⟩
  | cons next rest ih =>
    obtain ⟨hnext, hrest⟩ := List.isChain_cons_cons.mp h
    have hnone : kept next = none := by
      cases hsome : kept next with
      | none => rfl
      | some _ => simp [hsome, hkept, hcatches] at hnext
    cases hcatch : P.catches next with
    | true =>
      rw [Program.unwind, List.dropWhile_cons_of_neg (by simp [hcatch])]
      exact ⟨hrest, rfl⟩
    | false =>
      rw [Program.unwind, List.dropWhile_cons_of_pos (by simp [hcatch]),
        List.filterMap_cons_none hnone]
      exact ih hrest hnone hcatch

/-- The calls that take the place of a frame shelter what it sheltered. -/
theorem Sheltered.append (h : P.Sheltered kept (call :: rest)) (hcalls : P.Sheltered kept calls)
    (hlast : (kept call).isSome ∨ P.catches call = true → ∀ last ∈ calls.getLast?,
      (kept last).isSome ∨ P.catches last = true) : P.Sheltered kept (calls ++ rest) := by
  obtain ⟨hcall, hrest⟩ := List.isChain_cons.mp h
  refine List.isChain_append.mpr ⟨hcalls, hrest, ?_⟩
  intro last hmem below hbelow hkept
  exact hlast (hcall below hbelow hkept) last hmem

end Sheltered

/-! ## Observers -/

section Observers
variable {ω : Type}

variable (P) in
/-- Runs beside what an observer notes of their steps, the last note first. -/
inductive Observed (note : Config σ κ ε → α → Config σ κ ε → List ω) (c : Config σ κ ε) :
    List ω → Config σ κ ε → Prop
  | refl : Observed note c [] c
  | tail {notes : List ω} {d e : Config σ κ ε} (a : α) (run : Observed note c notes d)
      (hstep : P.step d a = some e) : Observed note c (note d a e ++ notes) e

/-- The notes and the configuration that a sequence of actions leads to. -/
def observe (P : Program σ κ α ε) (note : Config σ κ ε → α → Config σ κ ε → List ω)
    (notes : List ω) (c : Config σ κ ε) : List α → Option (List ω × Config σ κ ε)
  | [] => some (notes, c)
  | a :: as => (P.step c a).bind fun d => observe P note (note c a d ++ notes) d as

namespace Observed
variable {note : Config σ κ ε → α → Config σ κ ε → List ω} {c d : Config σ κ ε} {notes : List ω}

theorem run (h : P.Observed note c notes d) : P.Run (fun _ _ => True) c d := by
  induction h with
  | refl => exact .refl
  | tail a _ hstep ih => exact .tail a ih trivial hstep

theorem of_observe {before : List ω} {e : Config σ κ ε} (as : List α)
    (h : P.Observed note c before d) (hsteps : P.observe note before d as = some (notes, e)) :
    P.Observed note c notes e := by
  induction as generalizing before d with
  | nil =>
    cases hsteps
    exact h
  | cons a as ih =>
    obtain ⟨f, hstep, hrest⟩ := Option.bind_eq_some_iff.mp hsteps
    exact ih (.tail a h hstep) hrest

/-- What holds at the start and survives every reaction and its notes holds at the end. -/
theorem invariant {I : List ω → Config σ κ ε → Prop} (h : P.Observed note c notes d)
    (hstart : I [] c)
    (harrive : ∀ notes d a r, P.Run (fun _ _ => True) c d → I notes d → d.stack = [] →
      P.arrive d.state a = some r → I (note d a (P.react d [] r) ++ notes) (P.react d [] r))
    (hrespond : ∀ notes d a call rest r, P.Run (fun _ _ => True) c d → I notes d →
      d.stack = call :: rest → P.respond d.state call a = some r →
      I (note d a (P.react d rest r) ++ notes) (P.react d rest r)) : I notes d := by
  induction h with
  | refl => exact hstart
  | tail a h hstep ih =>
    cases step_stepped hstep with
    | arrive r hstack hr => exact harrive _ _ a r h.run ih hstack hr
    | respond call rest r hstack hr => exact hrespond _ _ a call rest r h.run ih hstack hr

end Observed

/-- Every run can be observed. -/
theorem Run.observed {ok : Config σ κ ε → α → Prop} {c d : Config σ κ ε} (run : P.Run ok c d)
    (note : Config σ κ ε → α → Config σ κ ε → List ω) : ∃ notes, P.Observed note c notes d := by
  induction run with
  | refl => exact ⟨_, .refl⟩
  | tail a _ _ hstep ih =>
    obtain ⟨notes, h⟩ := ih
    exact ⟨_, .tail a h hstep⟩

end Observers

/-! ## Work -/

section Work
variable {owed : σ → ℕ} {work : κ → ℕ} {paid : α → ℕ} {c d : Config σ κ ε}

/-- The work that calls stand for. -/
def load (work : κ → ℕ) (calls : List κ) : ℕ := (calls.map work).sum

/-- The work on the stack, and what the state has still to call. -/
def potential (owed : σ → ℕ) (work : κ → ℕ) (c : Config σ κ ε) : ℕ :=
  owed c.state + load work c.stack

theorem load_cons (call : κ) (calls : List κ) : load work (call :: calls) = work call + load work calls :=
  List.sum_cons

theorem load_append (calls others : List κ) :
    load work (calls ++ others) = load work calls + load work others := by
  rw [load, List.map_append, List.sum_append, load, load]

theorem load_unwind_le (stack : List κ) : load work (P.unwind stack) ≤ load work stack := by
  induction stack with
  | nil => exact Nat.le_refl _
  | cons call rest ih =>
    rw [unwind, List.dropWhile_cons]
    split
    · rw [load_cons]
      exact Nat.le_trans ih (Nat.le_add_left _ _)
    · exact Nat.le_refl _

variable (P owed work paid) in
/-- A reaction is paid for by the call it answers, by what the state was owed, and by its action. -/
structure Pays : Prop where
  arrive : ∀ s a r, P.arrive s a = some r → owed r.state + load work r.calls + 1 ≤ owed s + paid a
  respond : ∀ s call a r, P.respond s call a = some r →
    owed r.state + load work r.calls + 1 ≤ owed s + work call + paid a

theorem potential_react_le (c : Config σ κ ε) (rest : List κ) (r : Reaction σ κ ε) :
    potential owed work (P.react c rest r) ≤
      owed r.state + load work r.calls + load work rest := by
  rw [react, potential]
  dsimp only
  split
  · have hle : load work (P.unwind rest) ≤ load work rest := load_unwind_le rest
    omega
  · rw [load_append]
    omega

theorem Pays.step (h : P.Pays owed work paid) {a : α} (hstep : P.step c a = some d) :
    potential owed work d + 1 ≤ potential owed work c + paid a := by
  cases step_stepped hstep with
  | arrive r hstack hr =>
    have hle : potential owed work (P.react c [] r) ≤
        owed r.state + load work r.calls + load work [] :=
      potential_react_le c [] r
    have hpays := h.arrive _ _ _ hr
    have hbefore : potential owed work c = owed c.state := by rw [potential, hstack]; rfl
    change _ ≤ _ + 0 at hle
    omega
  | respond call rest r hstack hr =>
    have hle : potential owed work (P.react c rest r) ≤
        owed r.state + load work r.calls + load work rest :=
      potential_react_le c rest r
    have hpays := h.respond _ _ _ _ hr
    have hbefore : potential owed work c = owed c.state + (work call + load work rest) := by
      rw [potential, hstack, load_cons]
    omega

/-- A run has no more steps than its actions have paid for. -/
theorem Pays.length_le (h : P.Pays owed work paid) {ok : Config σ κ ε → α → Bool} {as : List α}
    (hsteps : P.stepsWhile ok c as = some d) :
    as.length + potential owed work d ≤ potential owed work c + (as.map paid).sum := by
  induction as generalizing c with
  | nil =>
    cases hsteps
    rw [List.length_nil, List.map_nil, List.sum_nil, Nat.zero_add, Nat.add_zero]
  | cons a as ih =>
    rw [stepsWhile] at hsteps
    split at hsteps
    case isTrue =>
      obtain ⟨e, hstep, hrest⟩ := Option.bind_eq_some_iff.mp hsteps
      have hpays := h.step hstep
      have hle := ih hrest
      rw [List.length_cons, List.map_cons, List.sum_cons]
      omega
    case isFalse => cases hsteps

/-- A program that can go on for nothing comes to rest. -/
theorem Pays.exists_rest (h : P.Pays owed work paid)
    (hgo : ∀ c, c.stack ≠ [] → ∃ a d, paid a = 0 ∧ P.step c a = some d) (c : Config σ κ ε) :
    ∃ as d, (∀ a ∈ as, paid a = 0) ∧ P.stepsWhile (fun _ _ => true) c as = some d ∧ d.stack = [] := by
  generalize hn : potential owed work c = n
  induction n using Nat.strongRecOn generalizing c with
  | ind n ih =>
    by_cases hstack : c.stack = []
    · exact ⟨[], c, by simp, rfl, hstack⟩
    · obtain ⟨a, d, hfree, hstep⟩ := hgo c hstack
      have hless := h.step hstep
      obtain ⟨as, e, hall, hsteps, hrest⟩ := ih (potential owed work d) (by omega) d rfl
      refine ⟨a :: as, e, List.forall_mem_cons.mpr ⟨hfree, hall⟩, ?_, hrest⟩
      rw [stepsWhile, if_pos rfl, hstep]
      exact hsteps

end Work
end Program
end Mqtt5.CallMachine
