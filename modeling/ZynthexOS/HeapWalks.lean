import ZynthexOS.HeapConditions

/-! The loops that only read the list: `heap_validate` with its cycle test, and
`heap_dump`. On a well formed list the cycle test finds none, the checks all
pass, and the dump prints one line per block. -/
namespace ZynthexOS.HeapWalks
open Lib Lib.Memory Mm HeapLayout HeapRepresentation HeapPrograms HeapConditions

/-- The headers met from `a` along `next` until NULL. -/
def Follows (m : Mem) : Nat → List Nat → Prop
  | a, [] => a = 0
  | a, b :: bs => a = b ∧ b ≠ 0 ∧ Follows m (nextIn m b) bs

/-- Field addresses are words, so that loading a field reads it. -/
theorem readWord_nextAt (m : Mem) (b : Nat) : readWord m (wrap (nextAt b)) = nextIn m b :=
  congrArg (readWord m) (wrap_wrap _)

theorem follows_of_linked (held : Linked m p bs 0) (addressed : Addressed bs) :
    Follows m (headAddr bs 0) (bs.map Block.addr) := by
  induction bs generalizing p with
  | nil => rfl
  | cons b bs ih =>
    obtain ⟨ne, small⟩ := addressed b (by simp)
    refine ⟨rfl, ne, ?_⟩
    rw [nextIn_eq held.1 small]
    exact ih held.2 fun c member => addressed c (by simp [member])

/-- Two pointers on one increasing list, the fast one behind `mid` and `rest`
still to go: they never meet, and the loop ends when `rest` runs out. -/
theorem run_findCycle (mid : List Nat) (fuel : Nat) (slowAt : Follows m slow (mid ++ rest))
    (fastAt : Follows m fast rest) (sorted : (mid ++ rest).Pairwise (· < ·))
    (enough : rest.length < fuel) :
    ((findCycle fuel slow fast).run m).result = some false ∧
      ((findCycle fuel slow fast).run m).mem = m := by
  induction fuel generalizing slow fast mid rest with
  | zero => cases enough
  | succ fuel ih =>
    have next := readWord_nextAt m
    cases rest with
    | nil =>
      have ended : fast = 0 := fastAt
      simp [findCycle, ended]
    | cons f rest =>
      obtain ⟨rfl, ne, fastAt⟩ := fastAt
      cases rest with
      | nil =>
        have last : nextIn m fast = 0 := fastAt
        simp [findCycle, ne, next, last]
      | cons g rest =>
        obtain ⟨atG, neG, fastAt⟩ := fastAt
        obtain ⟨u, mid', same⟩ : ∃ u mid', (mid ++ fast :: g :: rest).tail = u :: mid' ++ rest := by
          cases mid with
          | nil => exact ⟨g, [], rfl⟩
          | cons s mid => cases mid with
            | nil => exact ⟨fast, [g], rfl⟩
            | cons t mid => exact ⟨t, mid ++ [fast, g], by simp⟩
        obtain ⟨s, tail, whole⟩ := List.exists_cons_of_ne_nil
          (l := mid ++ fast :: g :: rest) (by simp)
        rw [whole, List.tail_cons] at same
        rw [whole] at slowAt sorted
        subst same
        obtain ⟨rfl, -, slowAt⟩ := slowAt
        have sorted' := (List.pairwise_cons.mp sorted).2
        have apart : nextIn m slow ≠ nextIn m g := by
          obtain ⟨atU, neU, -⟩ := slowAt
          rw [atU]
          cases rest with
          | nil =>
            have last : nextIn m g = 0 := fastAt
            rwa [last]
          | cons v rest =>
            rw [fastAt.1]
            have below := (List.pairwise_cons.mp sorted').1 v (by simp)
            omega
        have later := ih _ slowAt fastAt sorted' (by
          simp only [List.length_cons] at enough
          omega)
        simpa [findCycle, ne, next, atG, neG, apart] using later

theorem run_checkBlocks (vars : HeapVars) (held : Linked m p bs 0) (addressed : Addressed bs)
    (inside : ∀ b ∈ bs, vars.heapStart ≤ b.addr ∧ b.addr < vars.heapEnd ∧ b.fin ≤ vars.heapEnd)
    (small : ∀ b ∈ bs, b.fin < 2 ^ 32) (enough : bs.length < fuel) :
    ((checkBlocks vars fuel (headAddr bs 0)).run m).result = some "Heap structure valid.\n" := by
  induction bs generalizing p fuel with
  | nil =>
    obtain ⟨fuel, rfl⟩ := Nat.exists_eq_add_of_lt enough
    simp [checkBlocks]
  | cons b bs ih =>
    obtain ⟨fuel, rfl⟩ : ∃ n, fuel = n + 1 := ⟨fuel - 1, by omega⟩
    obtain ⟨ne, smallB⟩ := addressed b (by simp)
    obtain ⟨low, high, top⟩ := inside b (by simp)
    have finB := small b (by simp)
    obtain ⟨header, rest⟩ := held
    have magic := header.magic
    have size := header.size
    have next := header.next
    have later := ih rest (fun c member => addressed c (by simp [member]))
      (fun c member => inside c (by simp [member])) (fun c member => small c (by simp [member]))
      (Nat.lt_of_succ_lt_succ enough)
    have outside : ¬ (b.addr < vars.heapStart ∨ b.addr ≥ vars.heapEnd) := by omega
    have tail : tailAt b.addr b.size = b.fin := by
      simp only [Block.fin, headerSize] at finB ⊢
      simp (disch := omega) only [tailAt, headerSize, add32, wrap_of_lt]
    have ends : ¬ b.fin > vars.heapEnd := by omega
    cases bs with
    | nil =>
      rw [headAddr_nil] at next later
      simp (disch := omega) [checkBlocks, ne, magicAt, nextAt, sizeAt, add32, wrap_of_lt, magic,
        size, next, outside, tail, ends, later]
    | cons c bs =>
      have back := rest.1.prev
      obtain ⟨neC, smallC⟩ := addressed c (by simp)
      rw [headAddr_cons] at next later
      simp (disch := omega) [checkBlocks, ne, magicAt, nextAt, sizeAt, prevAt, add32, wrap_of_lt,
        magic, size, next, neC, back, outside, tail, ends, later]

/-- The line `heap_dump` prints for each block of a list. -/
def dumpLines : Nat → List Block → List DumpLine
  | _, [] => []
  | index, b :: bs => ⟨index, b.addr, b.size, b.payload, !b.free⟩ :: dumpLines (index + 1) bs

theorem run_heapDumpFrom (held : Linked m p bs 0) (addressed : Addressed bs) (index : Nat)
    (enough : bs.length < fuel) :
    ((heapDumpFrom fuel index (headAddr bs 0)).run m).result = some (dumpLines index bs) := by
  induction bs generalizing p index fuel with
  | nil =>
    obtain ⟨fuel, rfl⟩ := Nat.exists_eq_add_of_lt enough
    simp [heapDumpFrom, dumpLines]
  | cons b bs ih =>
    obtain ⟨fuel, rfl⟩ : ∃ n, fuel = n + 1 := ⟨fuel - 1, by omega⟩
    obtain ⟨ne, small⟩ := addressed b (by simp)
    obtain ⟨header, rest⟩ := held
    have size := header.size
    have free := header.free
    have next := header.next
    have later := ih rest (fun c member => addressed c (by simp [member])) (index + 1)
      (Nat.lt_of_succ_lt_succ enough)
    have flag : decide (b.flag = 0) = !b.free := by
      cases h : b.free <;> simp [Block.flag, h]
    simp (disch := omega) [heapDumpFrom, dumpLines, ne, sizeAt, freeAt, nextAt, add32, wrap_of_lt,
      size, free, next, later, Block.payload, headerSize, flag]

end ZynthexOS.HeapWalks
