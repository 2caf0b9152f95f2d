import Mathlib.Tactic.Common

/-! Scans over the numbers below a bound: the first one that yields something,
how many satisfy a test, and loops that apply an update for each of a range. -/
namespace ZynthexOS.Lib.Scan

/-- The first number below `n` for which `g` yields a value. -/
theorem findSome_range (g : Nat → Option α) (n : Nat) :
    ((List.range n).findSome? g = none ∧ ∀ i < n, g i = none) ∨
      ∃ i < n, (List.range n).findSome? g = g i ∧ g i ≠ none ∧ ∀ k < i, g k = none := by
  induction n with
  | zero => exact .inl ⟨rfl, by simp⟩
  | succ n ih =>
    rw [List.range_succ, List.findSome?_append]
    rcases ih with ⟨scan, none⟩ | ⟨i, small, scan, found, first⟩
    · rw [scan, Option.none_or]
      cases here : g n with
      | none =>
        refine .inl ⟨by simp [here], fun i small => ?_⟩
        by_cases last : i = n
        · rwa [last]
        · exact none i (by omega)
      | some a => exact .inr ⟨n, by omega, by simp [here], by simp [here], none⟩
    · obtain ⟨a, same⟩ := Option.ne_none_iff_exists'.mp found
      refine .inr ⟨i, by omega, ?_, found, first⟩
      rw [scan, same, Option.some_or]

/-- A test that fails at one number more holds once less often. -/
theorem countP_range_remove (p : Nat → Bool) (inside : f < n) (here : p f = true) :
    (List.range n).countP (fun i => !decide (i = f) && p i) + 1 = (List.range n).countP p := by
  induction n with
  | zero => cases inside
  | succ n ih =>
    rw [List.range_succ, List.countP_append, List.countP_append, List.countP_singleton,
      List.countP_singleton]
    by_cases last : f = n
    · subst last
      have same : (List.range f).countP (fun i => !decide (i = f) && p i) =
          (List.range f).countP p := by
        refine List.countP_congr fun i member => ?_
        have ne : i ≠ f := Nat.ne_of_lt (List.mem_range.mp member)
        simp [ne]
      simp [same, here]
    · have ne : n ≠ f := fun same => last same.symm
      have rest := ih (by omega)
      simp only [ne, decide_false, Bool.not_false, Bool.true_and]
      omega

/-- Some number below `n` satisfies the test. -/
theorem countP_range_pos (p : Nat → Bool) (n : Nat) :
    0 < (List.range n).countP p ↔ ∃ i < n, p i = true := by
  simp [List.countP_pos_iff]

/-- `for (f = a; f < b; f++) s = step s f`. -/
def forRange (step : σ → Nat → σ) (a b : Nat) (s : σ) : σ := (List.range' a (b - a)).foldl step s

/-- What a loop does to an observation that each round changes at its own number
and nowhere else. -/
theorem forRange_observe (step : σ → Nat → σ) (view : σ → Nat → β) (change : Nat → β → β)
    (round : ∀ s f g, view (step s f) g = if g = f then change g (view s g) else view s g)
    (a b : Nat) (s : σ) (g : Nat) :
    view (forRange step a b s) g = if a ≤ g ∧ g < b then change g (view s g) else view s g := by
  have loop : ∀ n a s, view ((List.range' a n).foldl step s) g =
      if a ≤ g ∧ g < a + n then change g (view s g) else view s g := by
    intro n
    induction n with
    | zero =>
      intro a s
      rw [if_neg (by omega)]
      rfl
    | succ n ih =>
      intro a s
      rw [List.range'_succ, List.foldl_cons, ih, round]
      by_cases here : g = a
      · subst here
        rw [if_neg (by omega), if_pos rfl, if_pos (by omega)]
      · rw [if_neg here]
        by_cases inside : a ≤ g ∧ g < a + (n + 1)
        · rw [if_pos (by omega), if_pos inside]
        · rw [if_neg (by omega), if_neg inside]
  rw [forRange, loop]
  by_cases inside : a ≤ g ∧ g < b
  · rw [if_pos (by omega), if_pos inside]
  · rw [if_neg (by omega), if_neg inside]

/-- What each round carries from its number to the next one holds of the bound behind the
loop. -/
theorem forRange_induct (step : σ → Nat → σ) (invariant : Nat → σ → Prop) (ordered : a ≤ b)
    (round : ∀ s f, a ≤ f → f < b → invariant f s → invariant (f + 1) (step s f)) (s : σ)
    (start : invariant a s) : invariant b (forRange step a b s) := by
  obtain ⟨n, rfl⟩ := Nat.exists_eq_add_of_le ordered
  rw [forRange, Nat.add_sub_cancel_left]
  clear ordered
  induction n with
  | zero => exact start
  | succ n ih =>
    rw [List.range'_1_concat, List.foldl_append, List.foldl_cons, List.foldl_nil]
    exact round _ _ (Nat.le_add_right a n) (Nat.lt_succ_self _)
      (ih fun s f first last => round s f first (Nat.lt_succ_of_lt last))

/-- Two loops side by side. -/
theorem forRange_relate {step : σ → Nat → σ} {step' : τ → Nat → τ} (relation : σ → τ → Prop) {a b : Nat}
    (round : ∀ s t f, a ≤ f → f < b → relation s t → relation (step s f) (step' t f))
    (start : relation s t) : relation (forRange step a b s) (forRange step' a b t) := by
  have loop : ∀ fs : List Nat, (∀ f ∈ fs, a ≤ f ∧ f < b) → ∀ s t, relation s t →
      relation (fs.foldl step s) (fs.foldl step' t) := by
    intro fs
    induction fs with
    | nil => exact fun _ _ _ here => here
    | cons f fs ih =>
      intro inside s t here
      have bounds := inside f (by simp)
      exact ih (fun g member => inside g (by simp [member])) _ _ (round s t f bounds.1 bounds.2 here)
  refine loop _ (fun f member => ?_) s t start
  have bounds := List.mem_range'_1.mp member
  omega

/-- What every round of a loop keeps holds behind the loop. -/
theorem forRange_invariant (step : σ → Nat → σ) (invariant : σ → Prop) (a b : Nat)
    (round : ∀ s f, a ≤ f → f < b → invariant s → invariant (step s f)) (s : σ)
    (start : invariant s) : invariant (forRange step a b s) := by
  have loop : ∀ fs : List Nat, (∀ f ∈ fs, a ≤ f ∧ f < b) → ∀ s, invariant s →
      invariant (fs.foldl step s) := by
    intro fs
    induction fs with
    | nil => exact fun _ _ here => here
    | cons f fs ih =>
      intro inside s here
      have bounds := inside f (by simp)
      exact ih (fun g member => inside g (by simp [member])) _ (round s f bounds.1 bounds.2 here)
  refine loop _ (fun f member => ?_) s start
  have bounds := List.mem_range'_1.mp member
  omega

/-- What a loop leaves alone when each of its rounds does. -/
theorem forRange_keep (step : σ → Nat → σ) (view : σ → β) (a b : Nat)
    (round : ∀ s f, a ≤ f → f < b → view (step s f) = view s) (s : σ) :
    view (forRange step a b s) = view s := by
  refine forRange_invariant step (fun t => view t = view s) a b (fun t f first last same => ?_) s rfl
  rw [round t f first last, same]

end ZynthexOS.Lib.Scan
