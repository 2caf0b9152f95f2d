import Mathlib.Tactic.Common
import Mathlib.Logic.Function.Iterate

/-! Singly linked rings over a successor function: the cells that a walk visits
between two addresses, and what moving the head and inserting before it do to
the order of a ring. -/
namespace ZynthexOS.Lib.Rings

variable {α : Type*} {next next' : α → α} {a b c t head : α} {cells left right : List α}

/-- Following `next` from `a` visits the cells in this order and ends at `b`. -/
def Chain (next : α → α) : α → List α → α → Prop
  | a, [], b => a = b
  | a, cell :: cells, b => a = cell ∧ Chain next (next cell) cells b

/-- A cycle without repetitions, listed from its head. -/
structure Ring (next : α → α) (head : α) (cells : List α) : Prop where
  nonempty : cells ≠ []
  distinct : cells.Nodup
  cycle : Chain next head cells head

/-- Following `next` from `a` comes to `b`. -/
def Reaches (next : α → α) (a b : α) : Prop := ∃ n, next^[n] a = b

theorem chain_append : Chain next a (left ++ right) b ↔
    ∃ c, Chain next a left c ∧ Chain next c right b := by
  induction left generalizing a with
  | nil => simp [Chain]
  | cons cell left ih =>
    simp only [List.cons_append, Chain, ih]
    constructor
    · rintro ⟨here, c, first, second⟩
      exact ⟨c, ⟨here, first⟩, second⟩
    · rintro ⟨c, ⟨here, first⟩, second⟩
      exact ⟨here, c, first, second⟩

/-- A walk depends only on the successors of the cells it visits. -/
theorem Chain.congr (chain : Chain next a cells b) (same : ∀ c ∈ cells, next' c = next c) :
    Chain next' a cells b := by
  induction cells generalizing a with
  | nil => exact chain
  | cons cell cells ih =>
    refine ⟨chain.1, ?_⟩
    rw [same cell (by simp)]
    exact ih chain.2 fun c member => same c (by simp [member])

theorem Chain.reaches (chain : Chain next a cells b) (member : c ∈ cells) : Reaches next a c := by
  induction cells generalizing a with
  | nil => simp at member
  | cons cell cells ih =>
    obtain ⟨rfl, rest⟩ := chain
    rcases List.mem_cons.mp member with rfl | later
    · exact ⟨0, rfl⟩
    · obtain ⟨n, there⟩ := ih rest later
      exact ⟨n + 1, there⟩

namespace Ring

theorem congr (ring : Ring next head cells) (same : ∀ c ∈ cells, next' c = next c) :
    Ring next' head cells :=
  ⟨ring.nonempty, ring.distinct, ring.cycle.congr same⟩

/-- The head is the first cell. -/
theorem exists_cons (ring : Ring next head cells) : ∃ rest, cells = head :: rest := by
  obtain ⟨nonempty, -, cycle⟩ := ring
  cases cells with
  | nil => exact absurd rfl nonempty
  | cons cell rest => exact ⟨rest, by rw [cycle.1]⟩

theorem head_mem (ring : Ring next head cells) : head ∈ cells := by
  obtain ⟨rest, rfl⟩ := ring.exists_cons
  simp

/-- The successor of every cell is a cell. -/
theorem next_mem (ring : Ring next head cells) (member : c ∈ cells) : next c ∈ cells := by
  obtain ⟨left, right, rfl⟩ := List.append_of_mem member
  obtain ⟨-, -, here, after⟩ := chain_append.mp ring.cycle
  cases right with
  | nil =>
    have back : next c = head := after
    rw [back]
    exact ring.head_mem
  | cons d right =>
    have step : next c = d := after.1
    simp [step]

/-- The cells are what a walk from the head comes to. -/
theorem mem_iff (ring : Ring next head cells) : c ∈ cells ↔ Reaches next head c := by
  constructor
  · exact ring.cycle.reaches
  · rintro ⟨n, rfl⟩
    induction n with
    | zero => exact ring.head_mem
    | succ n ih =>
      rw [Function.iterate_succ_apply']
      exact ring.next_mem ih

/-- The ring with the successor of one of its cells as its new head. -/
theorem advance (ring : Ring next head (left ++ c :: right)) :
    Ring next (next c) (right ++ left ++ [c]) := by
  obtain ⟨d, before, here, after⟩ := chain_append.mp ring.cycle
  subst here
  refine ⟨by simp, ?_, ?_⟩
  · have order : (left ++ d :: right).Perm (right ++ left ++ [d]) :=
      List.perm_append_comm.trans (List.perm_append_singleton d (right ++ left)).symm
    exact order.nodup ring.distinct
  · exact chain_append.mpr ⟨d, chain_append.mpr ⟨head, after, before⟩, rfl, rfl⟩

/-- A ring of one cell. -/
theorem single (self : next t = t) : Ring next t [t] := ⟨by simp, by simp, rfl, self⟩

/-- A cell inserted between the last cell and the head. -/
theorem insert (ring : Ring next head (left ++ [c])) (fresh : t ∉ left ++ [c])
    (last : next' c = t) (first : next' t = head) (same : ∀ d ∈ left, next' d = next d) :
    Ring next' head (left ++ [c] ++ [t]) := by
  obtain ⟨d, before, here, after⟩ := chain_append.mp ring.cycle
  refine ⟨by simp, ?_, ?_⟩
  · refine List.nodup_append.mpr ⟨ring.distinct, by simp, ?_⟩
    rintro d member e here rfl
    rw [List.mem_singleton] at here
    exact fresh (here ▸ member)
  · refine chain_append.mpr ⟨t, chain_append.mpr ⟨d, before.congr same, here, last⟩, rfl, first⟩

end Ring

end ZynthexOS.Lib.Rings
