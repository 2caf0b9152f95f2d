import Mathlib.Data.Nat.Count
import Mathlib.Data.Nat.ModEq

/-! Counters that wrap around. How often one comes to a multiple of a number, which is not
the quotient of its steps unless the modulus is a multiple itself, and when a loop that
tests one now and then finds that enough steps have passed. -/
namespace ZynthexOS.Lib.Counters

variable {modulus d n slack wait : Nat} {counts : List Nat}

/-! ## Multiples -/

/-- How often a counter modulo `modulus` comes to a multiple of `d` in its first `n` steps. -/
def hits (modulus d n : Nat) : Nat := Nat.count (fun k => d ∣ (k + 1) % modulus) n

theorem hits_succ (modulus d n : Nat) :
    hits modulus d (n + 1) = hits modulus d n + if d ∣ (n + 1) % modulus then 1 else 0 :=
  Nat.count_succ ..

/-- The multiples in whole periods, one of which is 0, and in the last one. -/
theorem hits_eq (positive : 0 < modulus) (n : Nat) :
    hits modulus d n = n / modulus * ((modulus - 1) / d + 1) + n % modulus / d := by
  obtain ⟨top, rfl⟩ := Nat.exists_eq_add_one.mpr positive
  induction n with
  | zero => simp [hits]
  | succ n ih =>
    rw [hits_succ, ih]
    by_cases wraps : (n + 1) % (top + 1) = 0
    · have last : n % (top + 1) = top := Nat.succ_mod_succ_eq_zero_iff.mp wraps
      rw [wraps, last, Nat.succ_div_of_mod_eq_zero wraps, if_pos (Nat.dvd_zero d), Nat.zero_div,
        Nat.add_one_mul, Nat.add_sub_cancel]
      omega
    · have two : 1 % (top + 1) = 1 := by
        refine Nat.mod_eq_of_lt (Nat.lt_of_not_le fun one => wraps ?_)
        rw [Nat.le_antisymm one (Nat.succ_pos top), Nat.mod_one]
      have inside : n % (top + 1) + 1 % (top + 1) < top + 1 := by
        have below := Nat.mod_lt n positive
        have last := mt Nat.succ_mod_succ_eq_zero_iff.mpr wraps
        omega
      have next : (n + 1) % (top + 1) = n % (top + 1) + 1 := by
        rw [Nat.add_mod_of_add_mod_lt inside, two]
      rw [next, Nat.succ_div_of_mod_ne_zero wraps, Nat.succ_div, Nat.add_assoc]

/-- A sum that is rounded up to a multiple, and the part of it that is rounded down. -/
theorem quotient_split (below : b < d) (sum : n + m = d * x + b) : x = n / d + (m + (d - 1 - b)) / d := by
  have first := Nat.div_add_mod n d
  have second := Nat.div_add_mod (m + (d - 1 - b)) d
  have small := Nat.mod_lt n (Nat.zero_lt_of_lt below)
  have small' := Nat.mod_lt (m + (d - 1 - b)) (Nat.zero_lt_of_lt below)
  rcases Nat.lt_trichotomy x (n / d + (m + (d - 1 - b)) / d) with less | same | more
  · have product := Nat.mul_le_mul_left d (Nat.succ_le_of_lt less)
    rw [Nat.mul_succ, Nat.mul_add] at product
    omega
  · exact same
  · have product := Nat.mul_le_mul_left d (Nat.succ_le_of_lt more)
    rw [Nat.mul_succ, Nat.mul_add] at product
    omega

/-- Every period that is not whole multiples long brings the hits ahead of the quotient. -/
theorem hits_ahead (positive : 0 < modulus) (some : 0 < d)
    (short : modulus + slack = d * ((modulus - 1) / d + 1)) (n : Nat) :
    hits modulus d n = n / d + (slack * (n / modulus) + (d - 1 - n % modulus % d)) / d := by
  rw [hits_eq positive]
  refine quotient_split (Nat.mod_lt _ some) ?_
  have periods : modulus * (n / modulus) + slack * (n / modulus) =
      d * (n / modulus * ((modulus - 1) / d + 1)) := by
    rw [← Nat.add_mul, short, Nat.mul_assoc, Nat.mul_comm (_ + 1)]
  have whole := Nat.div_add_mod n modulus
  have part := Nat.div_add_mod (n % modulus) d
  rw [Nat.mul_add]
  omega

/-! ## Waiting -/

/-- Tests come at these counts of steps. The first that finds the wait ended finds it just ended,
if any test does. -/
theorem find_wait (sorted : counts.Pairwise (· ≤ ·)) (small : wait < modulus) :
    counts.find? (fun count => wait ≤ count % modulus) = some wait ↔ wait ∈ counts := by
  constructor
  · exact List.mem_of_find?_eq_some
  · intro member
    have ended : (counts.find? fun count => wait ≤ count % modulus).isSome := by
      rw [List.find?_isSome]
      exact ⟨wait, member, by simp [Nat.mod_eq_of_lt small]⟩
    obtain ⟨first, found⟩ := Option.isSome_iff_exists.mp ended
    obtain ⟨finds, before, after, rfl, earlier⟩ := List.find?_eq_some_iff_append.mp found
    have least : wait ≤ first := by
      have here := of_decide_eq_true finds
      have rest := Nat.mod_le first modulus
      omega
    have most : first ≤ wait := by
      rcases List.mem_append.mp member with early | late
      · have none := earlier wait early
        simp [Nat.mod_eq_of_lt small] at none
      · rcases List.mem_cons.mp late with rfl | late
        · exact Nat.le_refl _
        · exact (List.pairwise_cons.mp (List.pairwise_append.mp sorted).2.1).1 wait late
    rw [found, Nat.le_antisymm most least]

/-- Counts that go up by one at most miss none. -/
theorem mem_of_gradual {first : Nat} (gradual : (first :: counts).IsChain fun a b => b ≤ a + 1)
    (start : first ≤ wait) (reached : ∃ last ∈ first :: counts, wait ≤ last) : wait ∈ first :: counts := by
  induction counts generalizing first with
  | nil =>
    obtain ⟨last, member, enough⟩ := reached
    obtain rfl := List.mem_singleton.mp member
    exact List.mem_singleton.mpr (Nat.le_antisymm enough start)
  | cons next counts ih =>
    rcases Nat.eq_or_lt_of_le start with rfl | less
    · exact List.mem_cons_self
    · have step := List.isChain_cons_cons.mp gradual
      refine List.mem_cons_of_mem _ (ih step.2 (Nat.le_trans step.1 less) ?_)
      obtain ⟨last, member, enough⟩ := reached
      rcases List.mem_cons.mp member with rfl | later
      · omega
      · exact ⟨last, later, enough⟩

end ZynthexOS.Lib.Counters
