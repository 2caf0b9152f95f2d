import Mathlib.Logic.Function.Iterate
import Mathlib.Order.Preorder.Finite
import Mathlib.Tactic.Common

/-! Two runners on the path that a successor function draws from one point, one
of them twice as fast: they meet exactly when the path comes back to a point it
has passed, and the fast one stops exactly when the path meets the stop. A path leaves a
finite region unless it comes back. -/
namespace ZynthexOS.Lib.Races

variable {α : Type*} {next : α → α} {stop a : α}

/-- The race with a bound on its laps: whether the runners met. -/
def race [DecidableEq α] (next : α → α) (stop : α) : Nat → α → α → Option Bool
  | 0, _, _ => none
  | fuel + 1, slow, fast =>
    if fast = stop then some false
    else if next fast = stop then some false
    else if next slow = next (next fast) then some true
    else race next stop fuel (next slow) (next (next fast))

/-- The path from `a` meets the stop. -/
def Ends (next : α → α) (stop a : α) : Prop := ∃ n, next^[n] a = stop

/-- The path from `a` comes back to a point it has passed, the stop not met so far. -/
def Returns (next : α → α) (stop a : α) : Prop :=
  ∃ i j, i < j ∧ next^[i] a = next^[j] a ∧ ∀ k ≤ j, next^[k] a ≠ stop

/-- Equal points stay equal under further steps. -/
theorem iterate_shift (same : next^[i] a = next^[j] a) (n : Nat) :
    next^[n + i] a = next^[n + j] a := by
  rw [Function.iterate_add_apply, Function.iterate_add_apply, same]

/-- Once a path has come back, every later point is one of the cycle. -/
theorem iterate_in_cycle (below : i < j) (same : next^[i] a = next^[j] a) (n : Nat) :
    ∃ k ≤ j, next^[n] a = next^[k] a := by
  induction n using Nat.strong_induction_on with
  | h n ih =>
    by_cases early : n ≤ j
    · exact ⟨n, early, rfl⟩
    have back := iterate_shift same (n - j)
    rw [Nat.sub_add_cancel (by omega : j ≤ n)] at back
    obtain ⟨k, bound, point⟩ := ih (n - j + i) (by omega)
    exact ⟨k, bound, back.symm.trans point⟩

/-- The path from `a` leaves a region. -/
def Leaves (next : α → α) (region : Set α) (a : α) : Prop := ∃ n, next^[n] a ∉ region

/-- The path from `a` comes back to a point it has passed, within the region so far. -/
def Circles (next : α → α) (region : Set α) (a : α) : Prop :=
  ∃ i j, i < j ∧ next^[i] a = next^[j] a ∧ ∀ k ≤ j, next^[k] a ∈ region

theorem Circles.not_leaves (circles : Circles next region a) : ¬ Leaves next region a := by
  obtain ⟨i, j, below, same, inside⟩ := circles
  rintro ⟨n, left⟩
  obtain ⟨k, bound, point⟩ := iterate_in_cycle below same n
  exact left (point ▸ inside k bound)

/-- A path within finitely many points leaves a region or comes back. -/
theorem leaves_or_circles {points region : Set α} (finite : points.Finite)
    (inside : ∀ n, next^[n] a ∈ points) : Leaves next region a ∨ Circles next region a := by
  by_cases leaves : Leaves next region a
  · exact .inl leaves
  obtain ⟨i, j, below, same⟩ := Set.Finite.exists_lt_map_eq_of_forall_mem inside finite
  exact .inr ⟨i, j, below, same, fun k _ => by_contra fun left => leaves ⟨k, left⟩⟩

/-- A path leaves a finite region unless it comes back in there. -/
theorem leaves_iff {region : Set α} (finite : region.Finite) :
    Leaves next region a ↔ ¬ Circles next region a := by
  refine ⟨fun leaves circles => circles.not_leaves leaves, fun straight => ?_⟩
  by_contra stays
  have inside : ∀ n, next^[n] a ∈ region := fun n => by_contra fun left => stays ⟨n, left⟩
  exact (leaves_or_circles finite inside).elim stays straight

theorem ends_iff : Ends next stop a ↔ Leaves next {stop}ᶜ a :=
  exists_congr fun _ => Set.notMem_compl_iff.symm

theorem Returns.not_ends (returns : Returns next stop a) : ¬ Ends next stop a := by
  rw [ends_iff]
  exact Circles.not_leaves returns

/-- A path within finitely many points ends or comes back. -/
theorem ends_or_returns {points : Set α} (finite : points.Finite)
    (inside : ∀ n, next^[n] a ∈ points) : Ends next stop a ∨ Returns next stop a := by
  rw [ends_iff]
  exact leaves_or_circles finite inside

/-- On a path that comes back the double of some lap is the lap itself. -/
theorem Returns.meets (returns : Returns next stop a) :
    ∃ k, 0 < k ∧ next^[k] a = next^[2 * k] a := by
  obtain ⟨i, j, below, same, -⟩ := returns
  -- Every multiple of the period may be added behind `i`.
  have periodic : ∀ c n, i ≤ n → next^[n] a = next^[n + c * (j - i)] a := by
    intro c n late
    induction c with
    | zero => simp
    | succ c ih =>
      have step := iterate_shift same (n - i + c * (j - i))
      have left : n - i + c * (j - i) + i = n + c * (j - i) := by omega
      have right : n - i + c * (j - i) + j = n + (c + 1) * (j - i) := by
        rw [Nat.succ_mul]
        omega
      rw [left, right] at step
      exact ih.trans step
  have late : i ≤ (i + 1) * (j - i) :=
    (Nat.le_succ i).trans (Nat.le_mul_of_pos_right _ (by omega))
  refine ⟨(i + 1) * (j - i), Nat.mul_pos (Nat.succ_pos i) (by omega), ?_⟩
  rw [Nat.two_mul]
  exact periodic (i + 1) _ late

section Laps
variable [DecidableEq α]

theorem race_step (next : α → α) (stop a : α) (fuel i : ℕ) :
    race next stop (fuel + 1) (next^[i] a) (next^[2 * i] a) =
      if next^[2 * i] a = stop then some false
      else if next^[2 * i + 1] a = stop then some false
      else if next^[i + 1] a = next^[2 * i + 2] a then some true
      else race next stop fuel (next^[i + 1] a) (next^[2 * i + 2] a) := by
  rw [race, ← Function.iterate_succ_apply' next, ← Function.iterate_succ_apply' next,
    ← Function.iterate_succ_apply' next]

/-- What a race from lap `i` has found when it stops. -/
theorem race_sound (clear : ∀ k < 2 * i, next^[k] a ≠ stop)
    (raced : race next stop fuel (next^[i] a) (next^[2 * i] a) = some met) :
    if met then Returns next stop a else Ends next stop a := by
  induction fuel generalizing i with
  | zero => cases raced
  | succ fuel ih =>
    rw [race_step] at raced
    split at raced
    next ended =>
      cases raced
      exact ⟨2 * i, ended⟩
    next going =>
    split at raced
    next ended =>
      cases raced
      exact ⟨2 * i + 1, ended⟩
    next going' =>
    have clear' : ∀ k < 2 * (i + 1), next^[k] a ≠ stop := by
      intro k below
      rcases Nat.lt_or_ge k (2 * i) with early | late
      · exact clear k early
      rcases (by omega : k = 2 * i ∨ k = 2 * i + 1) with rfl | rfl
      · exact going
      · exact going'
    split at raced
    next same =>
      cases raced
      refine ⟨i + 1, 2 * i + 2, by omega, same, fun k bound => ?_⟩
      rcases Nat.lt_or_ge k (2 * (i + 1)) with early | late
      · exact clear' k early
      · rw [(by omega : k = 2 * i + 2), ← same]
        exact clear' (i + 1) (by omega)
    next => exact ih clear' raced

/-- A race from lap `i` stops by the lap at which the runners meet. -/
theorem race_meets (same : next^[k] a = next^[2 * k] a) (ahead : i < k) (enough : k - i ≤ fuel) :
    race next stop fuel (next^[i] a) (next^[2 * i] a) ≠ none := by
  induction fuel generalizing i with
  | zero => omega
  | succ fuel ih =>
    rw [race_step]
    split_ifs with ended ended' met
    · simp
    · simp
    · simp
    · have more : i + 1 ≠ k := by
        rintro rfl
        exact met same
      exact ih (i := i + 1) (by omega) (by omega)

/-- A race from lap `i` stops before the fast runner passes the stop. -/
theorem race_ends (stopped : next^[n] a = stop) (behind : 2 * i ≤ n) (enough : n < 2 * (i + fuel)) :
    race next stop fuel (next^[i] a) (next^[2 * i] a) ≠ none := by
  induction fuel generalizing i with
  | zero => omega
  | succ fuel ih =>
    rw [race_step]
    split_ifs with ended ended' met
    · simp
    · simp
    · simp
    · have first : n ≠ 2 * i := by
        rintro rfl
        exact ended stopped
      have second : n ≠ 2 * i + 1 := by
        rintro rfl
        exact ended' stopped
      exact ih (i := i + 1) (by omega) (by omega)

theorem race_start (stops : race next stop fuel a a ≠ none) :
    ∃ met, race next stop fuel a a = some met ∧
      if met then Returns next stop a else Ends next stop a := by
  obtain ⟨met, raced⟩ := Option.ne_none_iff_exists'.mp stops
  exact ⟨met, raced, race_sound (i := 0) (by omega) raced⟩

theorem race_of_returns (returns : Returns next stop a) :
    ∃ laps, ∀ fuel ≥ laps, race next stop fuel a a = some true := by
  obtain ⟨k, positive, same⟩ := returns.meets
  refine ⟨k, fun fuel enough => ?_⟩
  have stops : race next stop fuel a a ≠ none := race_meets (i := 0) same positive enough
  obtain ⟨met, raced, found⟩ := race_start stops
  cases met with
  | true => exact raced
  | false => exact absurd found returns.not_ends

theorem race_of_ends (ends : Ends next stop a) :
    ∃ laps, ∀ fuel ≥ laps, race next stop fuel a a = some false := by
  obtain ⟨n, stopped⟩ := ends
  refine ⟨n + 1, fun fuel enough => ?_⟩
  have stops : race next stop fuel a a ≠ none := race_ends (i := 0) stopped (by omega) (by omega)
  obtain ⟨met, raced, found⟩ := race_start stops
  cases met with
  | true => exact absurd ⟨n, stopped⟩ found.not_ends
  | false => exact raced

end Laps

end ZynthexOS.Lib.Races
