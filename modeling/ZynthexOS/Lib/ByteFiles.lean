import Mathlib.Tactic.Common

/-! Files as arrays of bytes with holes: a write stores its bytes and extends the
file to their end, what no write stored reads as a default byte. -/
namespace ZynthexOS.Lib

variable {β : Type*}

/-- A file and the bytes written to it; nothing is written behind its end. -/
structure ByteFile (β : Type*) where
  size : Nat
  content : Nat → Option β
  bounded : ∀ p, size ≤ p → content p = none

namespace ByteFile

def empty : ByteFile β := ⟨0, fun _ => none, fun _ _ => rfl⟩

/-- `n` bytes replace what stands from `offset` on. -/
def write (f : ByteFile β) (offset n : Nat) (bytes : Nat → β) : ByteFile β where
  size := max f.size (offset + n)
  content p := if offset ≤ p ∧ p < offset + n then some (bytes (p - offset)) else f.content p
  bounded p outside := by
    have apart : ¬ (offset ≤ p ∧ p < offset + n) := by omega
    rw [if_neg apart]
    exact f.bounded p (by omega)

/-- The byte at a position, with `fill` in the holes. -/
def byte (f : ByteFile β) (fill : Nat → β) (p : Nat) : β := (f.content p).getD (fill p)

/-- How many of `n` bytes from `offset` on the file has. -/
def available (f : ByteFile β) (offset n : Nat) : Nat := min n (f.size - offset)

/-- At most `n` bytes from `offset` on. -/
def read (f : ByteFile β) (fill : Nat → β) (offset n : Nat) : List β :=
  (List.range (f.available offset n)).map fun i => f.byte fill (offset + i)

/-- Every byte that the read covers was written. -/
def Solid (f : ByteFile β) (offset n : Nat) : Prop :=
  ∀ i < f.available offset n, f.content (offset + i) ≠ none

theorem length_read (f : ByteFile β) (fill : Nat → β) (offset n : Nat) :
    (f.read fill offset n).length = f.available offset n := by
  simp [read]

theorem read_outside (f : ByteFile β) (fill : Nat → β) (outside : f.size ≤ offset) (n : Nat) :
    f.read fill offset n = [] := by
  have nothing : f.available offset n = 0 := by
    unfold available
    omega
  rw [read, nothing]
  rfl

/-- Reads that cover no hole are the same whatever fills the holes. -/
theorem read_solid (f : ByteFile β) (fill fill' : Nat → β) (solid : f.Solid offset n) :
    f.read fill offset n = f.read fill' offset n := by
  refine List.map_congr_left fun i member => ?_
  have written := solid i (List.mem_range.mp member)
  obtain ⟨b, here⟩ := Option.ne_none_iff_exists'.mp written
  simp [byte, here]

/-- Reads that are the same for two fills that differ everywhere cover no hole. -/
theorem solid_of_read (f : ByteFile β) (fill fill' : Nat → β) (differ : ∀ p, fill p ≠ fill' p)
    (same : f.read fill offset n = f.read fill' offset n) : f.Solid offset n := by
  intro i inside hole
  have bytes := List.map_inj_left.mp same i (List.mem_range.mpr inside)
  simp only [byte, hole, Option.getD_none] at bytes
  exact differ _ bytes

/-- The bytes of a file after a write, where `fill` is only read below the old end
and what fills the hole behind it is chosen. -/
theorem byte_write (f : ByteFile β) (offset n : Nat) (bytes fill fresh : Nat → β) (p : Nat) :
    (f.write offset n bytes).byte (fun p => if p < f.size then fill p else fresh p) p =
      if offset ≤ p ∧ p < offset + n then bytes (p - offset)
      else if p < f.size then f.byte fill p else fresh p := by
  unfold byte write
  dsimp only
  split
  · rfl
  · split
    · rfl
    · rename_i outside
      rw [f.bounded p (Nat.le_of_not_lt outside)]
      rfl

/-! ## Files without holes -/

@[ext] theorem ext {f g : ByteFile β} (size : f.size = g.size)
    (content : ∀ p, f.content p = g.content p) : f = g := by
  cases f
  cases g
  cases size
  cases funext content
  rfl

/-- The file with these bytes. -/
def ofList (bytes : List β) : ByteFile β :=
  ⟨bytes.length, fun p => bytes[p]?, fun _ outside => List.getElem?_eq_none outside⟩

theorem ofList_nil : ofList ([] : List β) = empty := ByteFile.ext rfl fun _ => rfl

/-- A write replaces as many bytes as it stores. -/
theorem write_middle (before after more : List β) (source : Nat → β)
    (same : ∀ i (inside : i < more.length), source i = more[i]) :
    (ofList (before ++ after)).write before.length more.length source =
      ofList (before ++ (more ++ after.drop more.length)) := by
  refine ByteFile.ext ?_ fun p => ?_
  · simp only [ofList, write, List.length_append, List.length_drop]
    omega
  · simp only [ofList, write]
    by_cases front : p < before.length
    · rw [if_neg (by omega), List.getElem?_append_left front, List.getElem?_append_left front]
    · have behind := Nat.le_of_not_lt front
      rw [List.getElem?_append_right behind, List.getElem?_append_right behind]
      by_cases inside : p < before.length + more.length
      · have place : p - before.length < more.length := by omega
        rw [if_pos ⟨behind, inside⟩, List.getElem?_append_left place, same _ place,
          List.getElem?_eq_getElem place]
      · have beyond : more.length ≤ p - before.length := by omega
        rw [if_neg (by omega), List.getElem?_append_right beyond, List.getElem?_drop,
          Nat.add_sub_cancel' beyond]

/-- A read takes the bytes from its offset on. -/
theorem read_ofList (bytes : List β) (fill : Nat → β) (offset n : Nat) :
    (ofList bytes).read fill offset n = (bytes.drop offset).take n := by
  have count : (ofList bytes).available offset n = ((bytes.drop offset).take n).length := by
    simp [available, ofList]
  refine List.ext_getElem ?_ fun i inside _ => ?_
  · rw [length_read, count]
  · rw [length_read, count, List.length_take, List.length_drop] at inside
    have below : offset + i < bytes.length := by omega
    simp [read, byte, ofList, below]

end ByteFile

end ZynthexOS.Lib
