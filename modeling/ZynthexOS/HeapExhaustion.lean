import ZynthexOS.HeapChecker

/-! When `kmalloc` answers NULL. The capacity test comes before the search of the
list, so that a request for which there is a free block is refused when there is
little room behind `heap_end`. Everything here holds of any variables and any
memory. -/
namespace ZynthexOS.HeapExhaustion
open Lib Lib.Memory Lib.Races Mm HeapPrograms HeapConditions HeapAllocation HeapVariables HeapRuns
  HeapWalks HeapChecker

/-- A free block of at least this size. -/
def Fits (m : Mem) (size b : Nat) : Prop := freeIn m b ≠ 0 ∧ size ≤ sizeIn m b

instance : Decidable (Fits m size b) := inferInstanceAs (Decidable (_ ∧ _))

/-- From the first block along `next`, the second is the first that fits. -/
inductive FirstFit (m : Mem) (size : Nat) : Nat → Nat → Prop where
  | here {a : Nat} : Fits m size a → FirstFit m size a a
  | later {a b : Nat} : ¬ Fits m size a → nextIn m a ≠ 0 → FirstFit m size (nextIn m a) b →
      FirstFit m size a b

/-- The list holds a free block at least as large as the rounded size. -/
def SomeFits (vars : HeapVars) (m : Mem) (size : Nat) : Prop :=
  ∃ b, Listed vars m b ∧ Fits m (alignUp size) b

/-- A header, the rounded size and a tail word at `heap_end` end below
`KERNEL_HEAP_END`. -/
def RoomBehind (vars : HeapVars) (size : Nat) : Prop :=
  vars.heapEnd + headerSize + alignUp size + tailSize < kernelHeapEnd

/-- `kmalloc` returns and its answer is not NULL. -/
def Succeeds (vars : HeapVars) (m : Mem) (size : Nat) : Prop :=
  ∃ fuel vars' ptr, ((kmalloc fuel vars size).run m).result = some (vars', ptr) ∧ ptr ≠ 0

/-- With a block to reuse or with room for a new one, `kmalloc` succeeds. -/
def FailsOnlyWhenItMust (vars : HeapVars) (m : Mem) (size : Nat) : Prop :=
  SomeFits vars m size ∨ RoomBehind vars size → Succeeds vars m size

/-- A block to reuse comes with room for the request behind `heap_end`, in the
32-bit arithmetic of the capacity test; the list has an end when it is searched
in vain; and no payload to be reused starts at NULL. -/
structure Searchable (vars : HeapVars) (m : Mem) (size : Nat) : Prop where
  room : SomeFits vars m size → alignUp size ≤ heapRoom vars
  ends : RoomBehind vars size → ¬ SomeFits vars m size → ¬ Cyclic vars m
  pointer : Listed vars m (2 ^ 32 - headerSize) →
    ¬ FirstFit m (alignUp size) vars.heapHead (2 ^ 32 - headerSize)

/-! ### The search -/

theorem FirstFit.listed (first : FirstFit m size a b) (here : Listed vars m a) :
    Listed vars m b ∧ Fits m size b := by
  induction first with
  | here fits => exact ⟨here, fits⟩
  | later _ more _ ih => exact ih (here.next more)

theorem FirstFit.unique (first : FirstFit m size a b) (other : FirstFit m size a c) : b = c := by
  induction first with
  | here fits =>
    cases other with
    | here => rfl
    | later unfit => exact absurd fits unfit
  | later unfit _ _ ih =>
    cases other with
    | here fits => exact absurd fits unfit
    | later _ _ other => exact ih other

/-- Where some listed block fits there is a first one. -/
theorem exists_firstFit (listed : Listed vars m b) (fits : Fits m size b) :
    ∃ c, FirstFit m size vars.heapHead c := by
  have passed : (∃ c, FirstFit m size vars.heapHead c) ∨
      ∀ c, FirstFit m size b c → FirstFit m size vars.heapHead c := by
    clear fits
    induction listed with
    | head => exact .inr fun _ first => first
    | @next a _ more ih =>
      refine ih.elim .inl fun passed => ?_
      by_cases fits : Fits m size a
      · exact .inl ⟨a, passed a (.here fits)⟩
      · exact .inr fun c first => passed c (.later fits more first)
  exact passed.elim id fun passed => ⟨b, passed b (.here fits)⟩

theorem run_searchFree_step (m : Mem) (size fuel a : Nat) :
    ((searchFree size (fuel + 1) a).run m).result =
      if Fits m size a then some (.found a)
      else if nextIn m a = 0 then some (.last a)
      else ((searchFree size fuel (nextIn m a)).run m).result := by
  have freeWord : readWord m (wrap (freeAt a)) = freeIn m a := congrArg _ (wrap_wrap _)
  have sizeWord : readWord m (wrap (sizeAt a)) = sizeIn m a := congrArg _ (wrap_wrap _)
  have next := readWord_nextAt m a
  by_cases free : freeIn m a = 0
  · have unfit : ¬ Fits m size a := fun fits => fits.1 free
    by_cases more : nextIn m a = 0 <;> simp [searchFree, freeWord, free, next, more, unfit]
  · by_cases large : size ≤ sizeIn m a
    · have fits : Fits m size a := ⟨free, large⟩
      simp [searchFree, freeWord, free, sizeWord, large, fits]
    · have unfit : ¬ Fits m size a := fun fits => large fits.2
      by_cases more : nextIn m a = 0 <;>
        simp [searchFree, freeWord, free, sizeWord, large, next, more, unfit]

theorem firstFit_of_found (found : ((searchFree size fuel a).run m).result = some (.found b)) :
    FirstFit m size a b := by
  induction fuel generalizing a with
  | zero => cases found
  | succ fuel ih =>
    rw [run_searchFree_step] at found
    split_ifs at found with fits last
    · cases found
      exact .here fits
    · cases found
    · exact .later fits last (ih found)

theorem search_of_firstFit (first : FirstFit m size a b) (fuel : Nat) :
    ((searchFree size fuel a).run m).result = none ∨
      ((searchFree size fuel a).run m).result = some (.found b) := by
  induction first generalizing fuel with
  | here fits =>
    cases fuel with
    | zero => exact .inl rfl
    | succ fuel => exact .inr (by rw [run_searchFree_step, if_pos fits])
  | later unfit more _ ih =>
    cases fuel with
    | zero => exact .inl rfl
    | succ fuel =>
      rw [run_searchFree_step, if_neg unfit, if_neg more]
      exact ih fuel

theorem found_of_firstFit (first : FirstFit m size a b) :
    ∃ fuel, ((searchFree size fuel a).run m).result = some (.found b) := by
  induction first with
  | here fits => exact ⟨1, by rw [run_searchFree_step, if_pos fits]⟩
  | later unfit more _ ih =>
    obtain ⟨fuel, found⟩ := ih
    exact ⟨fuel + 1, by rw [run_searchFree_step, if_neg unfit, if_neg more, found]⟩

theorem ends_of_last (last : ((searchFree size fuel a).run m).result = some (.last b)) :
    Ends (nextIn m) 0 a := by
  induction fuel generalizing a with
  | zero => cases last
  | succ fuel ih =>
    rw [run_searchFree_step] at last
    split_ifs at last with fits stopped
    · cases last
    · exact ⟨1, stopped⟩
    · obtain ⟨n, ended⟩ := ih last
      exact ⟨n + 1, ended⟩

theorem last_of_follows (follows : Follows m a bs) (ne : a ≠ 0)
    (none : ∀ b, ¬ FirstFit m size a b) :
    ∃ fuel l, ((searchFree size fuel a).run m).result = some (.last l) := by
  induction bs generalizing a with
  | nil => exact absurd follows ne
  | cons b bs ih =>
    obtain ⟨rfl, -, follows⟩ := follows
    have unfit : ¬ Fits m size a := fun fits => none a (.here fits)
    by_cases stopped : nextIn m a = 0
    · exact ⟨1, a, by rw [run_searchFree_step, if_neg unfit, if_pos stopped]⟩
    · obtain ⟨fuel, l, last⟩ := ih follows stopped fun b first => none b (.later unfit stopped first)
      exact ⟨fuel + 1, l, by rw [run_searchFree_step, if_neg unfit, if_neg stopped, last]⟩

/-! ### The answer -/

/-- A request past the capacity test, with a list to search. -/
theorem run_kmalloc_searches (positive : size ≠ 0) (aligned : size ≤ alignUp size)
    (room : alignUp size ≤ heapRoom vars) (nonempty : vars.heapHead ≠ 0) (fuel : Nat) :
    ((kmalloc fuel vars size).run m).result =
      match ((searchFree (alignUp size) fuel vars.heapHead).run m).result with
      | none => none
      | some (.found b) => some (vars, add32 b headerSize)
      | some (.last b) => some ((kmallocAppend vars b (alignUp size)).run
          ((searchFree (alignUp size) fuel vars.heapHead).run m).mem).result := by
  rw [kmalloc, if_neg positive, if_neg (Nat.not_lt.mpr aligned), if_neg (Nat.not_lt.mpr room),
    if_neg nonempty, run_bind]
  rcases ((searchFree (alignUp size) fuel vars.heapHead).run m).result with none | found | last
  · rfl
  · rfl
  · rw [run_map]

theorem run_kmalloc_refused (full : heapRoom vars < alignUp size) (fuel : Nat) :
    ((kmalloc fuel vars size).run m).result = some (vars, 0) := by
  unfold kmalloc
  split_ifs <;> rfl

/-- With room for a new block the capacity test passes. -/
theorem RoomBehind.room (behind : RoomBehind vars size) : alignUp size ≤ heapRoom vars := by
  simp only [RoomBehind, headerSize, tailSize, kernelHeapEnd] at behind
  have room : heapRoom vars = 0x800000 - vars.heapEnd - 20 - 4 := by
    simp (disch := omega) only [heapRoom, headerSize, tailSize, kernelHeapEnd, sub32_of_le]
  omega

theorem RoomBehind.first (behind : RoomBehind vars size) :
    ((kmallocFirst vars (alignUp size)).run m).result.2 ≠ 0 := by
  simp only [RoomBehind, tailSize] at behind
  have bound : vars.heapEnd + headerSize + alignUp size < kernelHeapEnd := by omega
  rw [run_kmallocFirst bound]
  simp [headerSize]

theorem RoomBehind.append (behind : RoomBehind vars size) (current : Nat) :
    ((kmallocAppend vars current (alignUp size)).run m).result.2 ≠ 0 := by
  simp only [RoomBehind, headerSize, tailSize, kernelHeapEnd] at behind
  have payload : add32 vars.heapEnd 20 = vars.heapEnd + 20 := add32_of_lt (by omega)
  have newEnd : add32 (add32 (add32 vars.heapEnd 20) (alignUp size)) 4 =
      vars.heapEnd + 20 + alignUp size + 4 := by
    simp (disch := omega) only [add32, wrap_of_lt]
  have above : ¬ vars.heapEnd + 20 + alignUp size + 4 < vars.heapEnd := by omega
  have below : ¬ vars.heapEnd + 20 + alignUp size + 4 ≥ 0x800000 := by omega
  simp only [kmallocAppend, headerSize, tailSize, kernelHeapEnd, newEnd]
  rw [if_neg above, if_neg below]
  simp [payload]

theorem payload_ne_zero (small : b < 2 ^ 32) (other : b ≠ 2 ^ 32 - headerSize) :
    add32 b headerSize ≠ 0 := by
  simp only [add32, wrap, headerSize] at other ⊢
  omega

theorem listed_lt (head : vars.heapHead < 2 ^ 32) (listed : Listed vars m b) : b < 2 ^ 32 := by
  cases listed with
  | head => exact head
  | next => exact nextIn_lt m _

theorem nonempty_of_listed (listed : Listed vars m b) : vars.heapHead ≠ 0 := by
  induction listed with
  | head ne => exact ne
  | next _ _ ih => exact ih

theorem succeeds_of_result {answer : HeapVars × Nat}
    (result : ((kmalloc fuel vars size).run m).result = some answer) (ne : answer.2 ≠ 0) :
    Succeeds vars m size := ⟨fuel, answer.1, answer.2, result, ne⟩

/-- A block that fits is reused once the capacity test has passed. -/
theorem succeeds_of_someFits (positive : size ≠ 0) (aligned : size ≤ alignUp size)
    (head : vars.heapHead < 2 ^ 32) (some : SomeFits vars m size)
    (searchable : Searchable vars m size) : Succeeds vars m size := by
  obtain ⟨b, listed, fits⟩ := some
  have nonempty := nonempty_of_listed listed
  obtain ⟨c, first⟩ := exists_firstFit listed fits
  obtain ⟨fuel, found⟩ := found_of_firstFit first
  have inList := (first.listed (.head nonempty)).1
  refine ⟨fuel, vars, add32 c headerSize, ?_, payload_ne_zero (listed_lt head inList) ?_⟩
  · rw [run_kmalloc_searches positive aligned (searchable.room ⟨b, listed, fits⟩) nonempty, found]
  · rintro rfl
    exact searchable.pointer inList first

/-- With room behind and nothing to reuse a block is placed at `heap_end`. -/
theorem succeeds_of_roomBehind (positive : size ≠ 0) (aligned : size ≤ alignUp size)
    (head : vars.heapHead < 2 ^ 32) (behind : RoomBehind vars size) (none : ¬ SomeFits vars m size)
    (searchable : Searchable vars m size) : Succeeds vars m size := by
  have room := behind.room
  by_cases empty : vars.heapHead = 0
  · have result : ((kmalloc 0 vars size).run m).result =
        some ((kmallocFirst vars (alignUp size)).run m).result := by
      rw [kmalloc, if_neg positive, if_neg (Nat.not_lt.mpr aligned), if_neg (Nat.not_lt.mpr room),
        if_pos empty, run_map]
    exact succeeds_of_result result behind.first
  · have ends := (ends_or_cyclic head).resolve_right (searchable.ends behind none)
    obtain ⟨n, ended⟩ := ends
    obtain ⟨bs, follows⟩ := follows_of_ends ended
    have unfit : ∀ b, ¬ FirstFit m (alignUp size) vars.heapHead b := fun b first =>
      none ⟨b, first.listed (.head empty)⟩
    obtain ⟨fuel, l, last⟩ := last_of_follows follows empty unfit
    have result := run_kmalloc_searches (m := m) positive aligned room empty fuel
    rw [last] at result
    exact succeeds_of_result result (behind.append l)

theorem room_of_succeeds (succeeds : Succeeds vars m size) : alignUp size ≤ heapRoom vars := by
  obtain ⟨fuel, vars', ptr, result, ne⟩ := succeeds
  refine Nat.le_of_not_lt fun full => ne ?_
  rw [run_kmalloc_refused full] at result
  cases result
  rfl

/-- With a block that fits, the answer is the payload of the first one. -/
theorem answer_of_firstFit
    (result : ((kmalloc fuel vars size).run m).result = some (vars', ptr)) (ne : ptr ≠ 0)
    (nonempty : vars.heapHead ≠ 0) (first : FirstFit m (alignUp size) vars.heapHead b) :
    vars' = vars ∧ ptr = add32 b headerSize := by
  have room := room_of_succeeds ⟨fuel, vars', ptr, result, ne⟩
  have positive : size ≠ 0 := by
    rintro rfl
    rw [kmalloc, if_pos rfl] at result
    cases result
    exact ne rfl
  have aligned : size ≤ alignUp size := by
    by_contra overflow
    rw [kmalloc, if_neg positive, if_pos (Nat.lt_of_not_le overflow)] at result
    cases result
    exact ne rfl
  rw [run_kmalloc_searches positive aligned room nonempty] at result
  rcases search_of_firstFit first fuel with unfinished | found
  · rw [unfinished] at result
    cases result
  · rw [found] at result
    cases result
    exact ⟨rfl, rfl⟩

/-- Without such a block the search has come to the end of the list. -/
theorem acyclic_of_succeeds (positive : size ≠ 0) (aligned : size ≤ alignUp size)
    (none : ¬ SomeFits vars m size) (succeeds : Succeeds vars m size) : ¬ Cyclic vars m := by
  intro cyclic
  have nonempty : vars.heapHead ≠ 0 := by
    obtain ⟨i, j, -, -, going⟩ := cyclic
    exact going 0 (Nat.zero_le j)
  have room := room_of_succeeds succeeds
  obtain ⟨fuel, vars', ptr, result, -⟩ := succeeds
  rw [run_kmalloc_searches positive aligned room nonempty] at result
  split at result
  · cases result
  · next found => exact none ⟨_, (firstFit_of_found found).listed (.head nonempty)⟩
  · next last => exact cyclic.not_ends (ends_of_last last)

/-- In every state reached from `heap_init` by any calls of `kmalloc` and `kfree`
the next request fails only when it must, exactly when the list can be searched
for it. -/
theorem kmalloc_fails_only_when_it_must (reached : Reachable Initial HeapStep s) (size : UInt32)
    (positive : 0 < size.toNat) (aligned : size.toNat ≤ alignUp size.toNat) :
    FailsOnlyWhenItMust s.vars s.mem size.toNat ↔ Searchable s.vars s.mem size.toNat := by
  have head := (words_reached reached).head
  have ne := Nat.ne_of_gt positive
  constructor
  · intro served
    refine ⟨fun some => room_of_succeeds (served (.inl some)),
      fun behind none => acyclic_of_succeeds ne aligned none (served (.inr behind)), ?_⟩
    intro listed first
    have nonempty := nonempty_of_listed listed
    have some : SomeFits s.vars s.mem size.toNat := ⟨_, first.listed (.head nonempty)⟩
    obtain ⟨fuel, vars', ptr, result, real⟩ := served (.inl some)
    exact absurd (answer_of_firstFit result real nonempty first).2 real
  · intro searchable choice
    by_cases some : SomeFits s.vars s.mem size.toNat
    · exact succeeds_of_someFits ne aligned head some searchable
    · exact succeeds_of_roomBehind ne aligned head (choice.resolve_left some) some searchable

/-- On a well formed list only the capacity test stands in the way. -/
theorem searchable_iff (held : HeapInv vars m bs stop) : Searchable vars m size ↔
    (SomeFits vars m size → alignUp size ≤ heapRoom vars) := by
  have addressed := addressed_of_stored held.stored
  refine ⟨Searchable.room, fun room => ⟨room, fun _ _ cyclic => cyclic.not_ends ?_, ?_⟩⟩
  · rw [held.head]
    exact ends_of_follows (follows_of_linked held.stored.linked addressed)
  · intro listed _
    obtain ⟨b, member, here⟩ := (listed_iff held.stored held.head).mp listed
    have small := (addressed b member).2
    simp only [headerSize] at here
    omega

/-- Two blocks that leave less than 200 bytes, the first one released. -/
def nearlyFull : HeapState := .after [.kmalloc 0x200000, .kmalloc 0x1FFF00, .kfree 0x400014]

theorem nearlyFull_reached : Reachable Initial (Guarded Legal HeapStep) nearlyFull :=
  after_reached (by decide)

theorem nearlyFull_fits (small : alignUp size ≤ 0x200000) :
    Fits nearlyFull.mem (alignUp size) nearlyFull.vars.heapHead := by
  have large : sizeIn nearlyFull.mem nearlyFull.vars.heapHead = 0x200000 := by decide
  exact ⟨by decide, small.trans (Nat.le_of_eq large.symm)⟩

theorem kmalloc_fails_only_when_it_must_small :
    FailsOnlyWhenItMust nearlyFull.vars nearlyFull.mem 8 := by
  have roomy : Reachable Initial (Guarded (fun s call => Legal s call ∧ Roomy 0 s call) HeapStep) nearlyFull :=
    roomy_tested (by decide +kernel)
  obtain ⟨bs, stop, held, -⟩ := represented roomy
  have reached : Reachable Initial HeapStep nearlyFull := roomy.mono fun _ _ _ taken => taken.2
  exact (kmalloc_fails_only_when_it_must reached 8 (by decide) (by decide)).mpr
    ((searchable_iff held).mpr fun _ => by decide)

/-- A free block of two megabytes does not serve a request for 256 bytes. -/
theorem free_block_not_reused : ¬ ∀ s, Reachable Initial (Guarded Legal HeapStep) s →
    ∀ size : UInt32, 0 < size.toNat → size.toNat ≤ alignUp size.toNat →
      FailsOnlyWhenItMust s.vars s.mem size.toNat := by
  intro claim
  have served := claim nearlyFull nearlyFull_reached 256 (by decide) (by decide)
  have some : SomeFits nearlyFull.vars nearlyFull.mem 256 :=
    ⟨_, .head (by decide), nearlyFull_fits (by decide)⟩
  exact absurd (room_of_succeeds (served (.inl some))) (by decide)

end ZynthexOS.HeapExhaustion
