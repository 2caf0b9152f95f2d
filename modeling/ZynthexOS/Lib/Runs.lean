import Mathlib.Tactic.Common

/-! Labelled transition systems: the states a system reaches from its initial
states, and the rules that carry a property of one step to every run. A guard
restricts which labels are taken in which states, so that a run whose every
step meets a condition is a run of the guarded system. A function that finds steps
executes runs, and a machine with one step for each state and label runs as a fold. -/
namespace ZynthexOS.Lib

variable {σ α : Type*} {init init' : σ → Prop} {step step' : σ → α → σ → Prop}
  {guard guard' : σ → α → Prop} {s s' : σ}

/-- The states reached from an initial state by finitely many steps. -/
inductive Reachable (init : σ → Prop) (step : σ → α → σ → Prop) : σ → Prop where
  | start {s : σ} : init s → Reachable init step s
  | next {s s' : σ} {a : α} : Reachable init step s → step s a s' → Reachable init step s'

/-- Steps taken only where the guard allows them. -/
def Guarded (guard : σ → α → Prop) (step : σ → α → σ → Prop) : σ → α → σ → Prop :=
  fun s a s' => guard s a ∧ step s a s'

/-- What holds initially and survives every step holds in every reached state. -/
theorem Reachable.induct (invariant : σ → Prop) (base : ∀ s, init s → invariant s)
    (preserve : ∀ s a s', invariant s → step s a s' → invariant s')
    (reached : Reachable init step s) : invariant s := by
  induction reached with
  | start first => exact base _ first
  | next _ taken ih => exact preserve _ _ _ ih taken

/-- A system with more steps reaches more states. -/
theorem Reachable.mono (more : ∀ s a s', step s a s' → step' s a s')
    (reached : Reachable init step s) : Reachable init step' s := by
  induction reached with
  | start first => exact .start first
  | next _ taken ih => exact .next ih (more _ _ _ taken)

/-- A finite sequence of labels taken one after the other. -/
inductive Run (step : σ → α → σ → Prop) : σ → List α → σ → Prop where
  | nil {s : σ} : Run step s [] s
  | cons {s s' s'' : σ} {a : α} {as : List α} :
      step s a s' → Run step s' as s'' → Run step s (a :: as) s''

theorem Run.append (first : Run step s as s') (second : Run step s' bs s'') :
    Run step s (as ++ bs) s'' := by
  induction first with
  | nil => exact second
  | cons taken _ ih => exact .cons taken (ih second)

/-- A run from a reached state ends in a reached state. -/
theorem Reachable.run (reached : Reachable init step s) (taken : Run step s as s') :
    Reachable init step s' := by
  induction taken with
  | nil => exact reached
  | cons first _ ih => exact ih (reached.next first)

/-! ## Runs that are executed -/

/-- Where labels lead that all have a next state. -/
def execute (next : σ → α → Option σ) : σ → List α → Option σ
  | s, [] => some s
  | s, a :: as => (next s a).bind fun s' => execute next s' as

variable {next : σ → α → Option σ} {as : List α}

/-- A function that only finds steps executes runs. -/
theorem execute_run (sound : ∀ s a s', next s a = some s' → step s a s')
    (done : execute next s as = some s') : Run step s as s' := by
  induction as generalizing s with
  | nil =>
    cases done
    exact .nil
  | cons a as ih =>
    obtain ⟨between, first, rest⟩ := Option.bind_eq_some_iff.mp done
    exact .cons (sound s a between first) (ih rest)

theorem executed_run (sound : ∀ s a s', next s a = some s' → step s a s')
    (done : (execute next s as).isSome = true) : Run step s as ((execute next s as).getD s) := by
  obtain ⟨s', same⟩ := Option.isSome_iff_exists.mp done
  rw [same]
  exact execute_run sound same

/-! ## Runs of a function -/

variable {act : σ → α → σ} {law law' invariant : σ → Prop} {a : α}

/-- A law holds before the run, after each of its steps and so at its end. -/
def Always (law : σ → Prop) (act : σ → α → σ) (s : σ) (as : List α) : Prop :=
  ∀ before, before <+: as → law (before.foldl act s)

/-- Each step of the run is taken from a state where the guard allows it. -/
def EachStep (guard : σ → α → Prop) (act : σ → α → σ) (s : σ) (as : List α) : Prop :=
  ∀ before a after, as = before ++ a :: after → guard (before.foldl act s) a

theorem always_nil : Always law act s [] ↔ law s := by
  constructor
  · exact fun always => always [] List.nil_prefix
  · intro here before short
    rw [List.prefix_nil.mp short]
    exact here

theorem always_cons : Always law act s (a :: as) ↔ law s ∧ Always law act (act s a) as := by
  constructor
  · intro always
    refine ⟨always [] List.nil_prefix, fun before short => ?_⟩
    exact always (a :: before) (List.cons_prefix_cons.mpr ⟨rfl, short⟩)
  · rintro ⟨here, always⟩ before short
    cases before with
    | nil => exact here
    | cons b before =>
      obtain ⟨rfl, shorter⟩ := List.cons_prefix_cons.mp short
      exact always before shorter

theorem eachStep_nil : EachStep guard act s [] := by
  intro before a after split
  simp at split

theorem eachStep_cons :
    EachStep guard act s (a :: as) ↔ guard s a ∧ EachStep guard act (act s a) as := by
  constructor
  · intro each
    refine ⟨each [] a as rfl, fun before b after split => ?_⟩
    exact each (a :: before) b after (by rw [split]; rfl)
  · rintro ⟨here, each⟩ before b after split
    cases before with
    | nil =>
      obtain ⟨rfl, -⟩ := List.cons.inj split
      exact here
    | cons c before =>
      obtain ⟨rfl, rest⟩ := List.cons.inj split
      exact each before b after rest

instance decidableEachStep [∀ s a, Decidable (guard s a)] : ∀ s as, Decidable (EachStep guard act s as)
  | _, [] => .isTrue eachStep_nil
  | s, a :: as =>
    have := decidableEachStep (act s a) as
    decidable_of_iff (guard s a ∧ EachStep guard act (act s a) as) eachStep_cons.symm

theorem Always.mono (more : ∀ s, law s → law' s) (always : Always law act s as) :
    Always law' act s as :=
  fun before short => more _ (always before short)

/-- An invariant that the guarded steps keep holds in every state of the run. -/
theorem EachStep.always (keep : ∀ s a, invariant s → guard s a → invariant (act s a))
    (each : EachStep guard act s as) (start : invariant s) : Always invariant act s as := by
  induction as generalizing s with
  | nil => exact always_nil.mpr start
  | cons a as ih =>
    obtain ⟨here, each⟩ := eachStep_cons.mp each
    exact always_cons.mpr ⟨start, ih each (keep s a start here)⟩

/-- Where the guarded steps keep an invariant behind the law and every other step
breaks the law, the law holds throughout a run exactly if the guard does. -/
theorem always_iff_eachStep (lawful : ∀ s, invariant s → law s)
    (keep : ∀ s a, invariant s → guard s a → invariant (act s a))
    (broken : ∀ s a, invariant s → ¬ guard s a → ¬ law (act s a)) (start : invariant s) :
    Always law act s as ↔ EachStep guard act s as := by
  induction as generalizing s with
  | nil => exact iff_of_true (always_nil.mpr (lawful s start)) eachStep_nil
  | cons a as ih =>
    rw [always_cons, eachStep_cons]
    by_cases allowed : guard s a
    · rw [ih (keep s a start allowed)]
      exact and_congr_left' (iff_of_true (lawful s start) allowed)
    · refine iff_of_false ?_ (fun each => allowed each.1)
      rintro ⟨-, always⟩
      exact broken s a start allowed (always [] List.nil_prefix)

end ZynthexOS.Lib
