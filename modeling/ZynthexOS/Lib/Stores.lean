import Mathlib.Data.List.Basic
import Mathlib.Data.List.Induction
import Mathlib.Logic.Function.Basic
import Mathlib.Tactic.Common

/-! Programs that only store: lists of stores in the order they are made, each to a fixed
address and of a value that may be read from the memory at that time. What such a
program may change is told by its addresses alone. -/
namespace ZynthexOS.Lib.Stores

variable {α β : Type*}

structure Store (α β : Type*) where
  address : α
  value : (α → β) → β

/-- A store of a value known beforehand. -/
def const (address : α) (value : β) : Store α β := ⟨address, fun _ => value⟩

/-- A store of what another address holds. -/
def copy (address source : α) : Store α β := ⟨address, fun memory => memory source⟩

/-- `for (i = 0; i < n; i++) body(i)`. -/
def upTo (n : Nat) (body : Nat → List (Store α β)) : List (Store α β) := (List.range n).flatMap body

theorem mem_upTo {s : Store α β} {body : Nat → List (Store α β)} :
    s ∈ upTo n body ↔ ∃ i < n, s ∈ body i := by
  simp [upTo, List.mem_flatMap]

/-- What holds of all stores of a loop holds of those of every round. -/
theorem forall_upTo {P : Store α β → Prop} {body : Nat → List (Store α β)} :
    (∀ s ∈ upTo n body, P s) ↔ ∀ i < n, ∀ s ∈ body i, P s := by
  constructor
  · exact fun all i small s member => all s (mem_upTo.mpr ⟨i, small, member⟩)
  · intro all s member
    obtain ⟨i, small, member⟩ := mem_upTo.mp member
    exact all i small s member

theorem forall_append {P : Store α β → Prop} {left right : List (Store α β)} :
    (∀ s ∈ left ++ right, P s) ↔ (∀ s ∈ left, P s) ∧ ∀ s ∈ right, P s := by
  simp only [List.mem_append, or_imp, forall_and]

/-- A copy, and the address whose first value it is to bring. -/
structure Transfer (α : Type*) where
  address : α
  source : α
  wanted : α

def Transfer.store (t : Transfer α) : Store α β := copy t.address t.source

/-- Each copy reads the address that is wanted, unless an earlier one has stored there;
then that one was to bring the same value. -/
def Sound (transfers : List (Transfer α)) : Prop :=
  ∀ pre t post, transfers = pre ++ t :: post →
    (∀ p ∈ pre, p.address = t.source → p.wanted = t.wanted) ∧
      ((∀ p ∈ pre, p.address ≠ t.source) → t.source = t.wanted)

theorem sound_concat {transfers : List (Transfer α)} {t : Transfer α} :
    Sound (transfers ++ [t]) ↔ Sound transfers ∧
      (∀ p ∈ transfers, p.address = t.source → p.wanted = t.wanted) ∧
        ((∀ p ∈ transfers, p.address ≠ t.source) → t.source = t.wanted) := by
  constructor
  · intro sound
    refine ⟨fun pre u post split => sound pre u (post ++ [t]) (by simp [split]), ?_⟩
    exact sound transfers t [] rfl
  · rintro ⟨sound, last⟩ pre u post split
    rcases List.eq_nil_or_concat' post with rfl | ⟨rest, v, rfl⟩
    · obtain ⟨rfl, single⟩ := List.append_inj' split rfl
      cases single
      exact last
    · rw [← List.cons_append, ← List.append_assoc] at split
      exact sound pre u rest (List.append_inj' split rfl).1

variable [DecidableEq α]

/-- The memory after the stores. -/
def run (stores : List (Store α β)) (memory : α → β) : α → β :=
  stores.foldl (fun m s => Function.update m s.address (s.value m)) memory

/-- An address that is not stored to keeps its value. -/
theorem run_frame {stores : List (Store α β)} (untouched : ∀ s ∈ stores, s.address ≠ a)
    (memory : α → β) : run stores memory a = memory a := by
  induction stores generalizing memory with
  | nil => rfl
  | cons s stores ih =>
    have here : a ≠ s.address := Ne.symm (untouched s (by simp))
    exact (ih (fun t member => untouched t (by simp [member])) _).trans (Function.update_of_ne here _ _)

/-- Copies between two areas that do not meet, each address from one source. -/
theorem run_copies {copies : List (α × α)}
    (apart : ∀ p ∈ copies, ∀ q ∈ copies, p.1 ≠ q.2)
    (single : ∀ p ∈ copies, ∀ q ∈ copies, p.1 = q.1 → p.2 = q.2)
    (memory : α → β) (member : p ∈ copies) :
    run (copies.map fun p => copy p.1 p.2) memory p.1 = memory p.2 := by
  induction copies generalizing memory p with
  | nil => simp at member
  | cons first copies ih =>
    have rest {q : α × α} := @ih q (fun p here q there => apart p (by simp [here]) q (by simp [there]))
      (fun p here q there => single p (by simp [here]) q (by simp [there]))
    by_cases later : ∃ q ∈ copies, q.1 = p.1
    · obtain ⟨q, there, same⟩ := later
      have source := single q (by simp [there]) p member same
      have kept : q.2 ≠ first.1 := Ne.symm (apart first (by simp) q (by simp [there]))
      rw [← same, ← source]
      exact (rest _ there).trans (Function.update_of_ne kept _ _)
    · have here : p = first := by
        rcases List.mem_cons.mp member with here | there
        · exact here
        · exact absurd ⟨p, there, rfl⟩ later
      subst here
      have frame : ∀ s ∈ copies.map fun q => (copy q.1 q.2 : Store α β), s.address ≠ p.1 := by
        intro s stored
        obtain ⟨q, there, rfl⟩ := List.mem_map.mp stored
        exact fun same => later ⟨q, there, same⟩
      exact (run_frame frame _).trans (Function.update_self _ _ _)

/-! ## Copies that may overlap -/

/-- Every address that is stored to ends up with the value wanted. -/
def Brings (β : Type*) (transfers : List (Transfer α)) : Prop :=
  ∀ memory : α → β, ∀ t ∈ transfers,
    run (transfers.map Transfer.store) memory t.address = memory t.wanted

theorem run_concat (transfers : List (Transfer α)) (t : Transfer α) (memory : α → β) :
    run ((transfers ++ [t]).map Transfer.store) memory =
      Function.update (run (transfers.map Transfer.store) memory) t.address
        (run (transfers.map Transfer.store) memory t.source) := by
  rw [List.map_append, run, List.foldl_append]
  rfl

/-- What a further copy to a new address needs. -/
theorem brings_concat {transfers : List (Transfer α)} {t : Transfer α}
    (new : ∀ p ∈ transfers, p.address ≠ t.address) :
    Brings β (transfers ++ [t]) ↔ Brings β transfers ∧
      ∀ memory : α → β, run (transfers.map Transfer.store) memory t.source = memory t.wanted := by
  have earlier {memory : α → β} {p : Transfer α} (member : p ∈ transfers) :
      run ((transfers ++ [t]).map Transfer.store) memory p.address =
        run (transfers.map Transfer.store) memory p.address := by
    rw [run_concat, Function.update_of_ne (new p member)]
  have last {memory : α → β} : run ((transfers ++ [t]).map Transfer.store) memory t.address =
      run (transfers.map Transfer.store) memory t.source := by
    rw [run_concat, Function.update_self]
  constructor
  · intro brings
    refine ⟨fun memory p member => ?_, fun memory => ?_⟩
    · rw [← earlier member]
      exact brings memory p (by simp [member])
    · rw [← last]
      exact brings memory t (by simp)
  · rintro ⟨brings, read⟩ memory p member
    rcases List.mem_append.mp member with member | here
    · rw [earlier member]
      exact brings memory p member
    · rw [List.mem_singleton.mp here, last]
      exact read memory

/-- Two addresses hold the same value in every memory only if they are one. -/
theorem eq_of_values [Nontrivial β] {a b : α} (same : ∀ memory : α → β, memory a = memory b) : a = b := by
  by_contra different
  obtain ⟨x, y, distinct⟩ := exists_pair_ne β
  have values := same (Function.update (fun _ => x) b y)
  rw [Function.update_of_ne different, Function.update_self] at values
  exact distinct values

/-- Copies to different addresses bring what is wanted exactly if they are sound. -/
theorem brings_iff_sound [Nontrivial β] {transfers : List (Transfer α)}
    (distinct : (transfers.map Transfer.address).Nodup) : Brings β transfers ↔ Sound transfers := by
  induction transfers using List.reverseRecOn with
  | nil => simp [Brings, Sound]
  | append_singleton transfers t ih =>
    rw [List.map_append, List.nodup_append] at distinct
    have new : ∀ p ∈ transfers, p.address ≠ t.address := fun p member =>
      distinct.2.2 _ (List.mem_map_of_mem member) _ (by simp)
    rw [brings_concat new, sound_concat, ih distinct.1]
    refine and_congr_right fun sound => ?_
    have brings : Brings β transfers := (ih distinct.1).mpr sound
    have kept (untouched : ∀ p ∈ transfers, p.address ≠ t.source) (memory : α → β) :
        run (transfers.map Transfer.store) memory t.source = memory t.source := by
      refine run_frame (fun s member => ?_) memory
      obtain ⟨p, here, rfl⟩ := List.mem_map.mp member
      exact untouched p here
    constructor
    · intro read
      refine ⟨fun p member same => eq_of_values fun memory : α → β => ?_,
        fun untouched => eq_of_values fun memory : α → β => ?_⟩
      · rw [← brings memory p member, same, read]
      · rw [← kept untouched memory, read]
    · rintro ⟨overwritten, untouched⟩ memory
      by_cases touched : ∃ p ∈ transfers, p.address = t.source
      · obtain ⟨p, member, same⟩ := touched
        rw [← same, brings memory p member, overwritten p member same]
      · have free : ∀ p ∈ transfers, p.address ≠ t.source := fun p member same =>
          touched ⟨p, member, same⟩
        rw [kept free, untouched free]

end ZynthexOS.Lib.Stores
