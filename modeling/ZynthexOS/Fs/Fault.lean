import Mathlib.Tactic.Common

/-! How a call of the file system ends when it does not return: it panics, or it
leaves what C defines. A store behind the end of an array, a copy behind the end
of a buffer and a store through NULL are told apart. -/
namespace ZynthexOS.Fs

/-- The arrays of fixed size: `part` of `path_resolve`, `name` and `children` of a
node, `mounts`. -/
inductive Table where
  | part
  | name
  | children
  | mounts
  deriving DecidableEq, Repr

inductive Fault where
  | panic (message : String)
  | overrun (table : Table) (index : Nat)
  | outside (data : UInt32) (index : Nat)
  | null
  deriving DecidableEq, Repr

/-- A sequence of two calls returns if both do. -/
theorem bind_returns {x : Except Fault α} {f : α → Except Fault β} :
    x >>= f = .ok b ↔ ∃ a, x = .ok a ∧ f a = .ok b := by
  cases x with
  | error fault => exact iff_of_false (by rintro ⟨⟩) (by rintro ⟨a, ⟨⟩, -⟩)
  | ok a => exact ⟨fun done => ⟨a, rfl, done⟩, by rintro ⟨_, ⟨⟩, done⟩; exact done⟩

/-- `MAX_MOUNTS`. -/
def maxMounts : Nat := 8

/-- How many entries an array has. -/
def Table.size : Table → Nat
  | .part => 64
  | .name => 64
  | .children => 32
  | .mounts => maxMounts

/-- Stores at the indices below `count` of an array. -/
def storeBelow (table : Table) (count : Nat) : Except Fault Unit :=
  if count ≤ table.size then .ok () else .error (.overrun table table.size)

end ZynthexOS.Fs
