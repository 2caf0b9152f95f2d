import ZynthexOS.Mm.Heap

/-! What `kmalloc` and `kfree` do to the static variables of the heap, whatever
memory holds: `heap_start` stays, and the others stay words. -/
namespace ZynthexOS.HeapVariables
open Lib.Memory Mm

/-- What one call may do to the variables. -/
inductive Moves (vars : HeapVars) : HeapVars → Prop where
  | stay : Moves vars vars
  | first {stop : Nat} : stop < 2 ^ 32 → Moves vars ⟨vars.heapStart, stop, vars.heapEnd⟩
  | edge {stop : Nat} : stop < 2 ^ 32 ∨ stop = vars.heapHead →
      Moves vars { vars with heapEnd := stop }
  | reset : Moves vars { vars with heapEnd := vars.heapStart, heapHead := 0 }

/-- The answer of a heap function, if there is one, with the variables moved. -/
def Moved (vars : HeapVars) (answer : Option (HeapVars × α)) : Prop :=
  ∀ vars' a, answer = some (vars', a) → Moves vars vars'

theorem Moves.moved (moves : Moves vars vars') (a : α) : Moved vars (some (vars', a)) := by
  rintro _ _ ⟨⟩
  exact moves

theorem moved_none : Moved vars (none : Option (HeapVars × α)) := by
  rintro _ _ ⟨⟩

theorem kmallocFirst_moves (vars : HeapVars) (size : Nat) :
    Yields (kmallocFirst vars size) fun answer => Moved vars (some answer) := by
  unfold kmallocFirst
  dsimp only
  split
  · exact yields_pure (Moves.stay.moved _)
  · iterate 6 refine yields_bind _ fun _ => ?_
    exact yields_pure ((Moves.first (wrap_lt _)).moved _)

theorem kmallocAppend_moves (vars : HeapVars) (current size : Nat) :
    Yields (kmallocAppend vars current size) fun answer => Moved vars (some answer) := by
  unfold kmallocAppend
  dsimp only
  split_ifs
  · exact yields_pure (Moves.stay.moved _)
  · exact yields_pure (Moves.stay.moved _)
  · iterate 8 refine yields_bind _ fun _ => ?_
    exact yields_pure ((Moves.edge (.inl (wrap_lt _))).moved _)

theorem kmalloc_moves (fuel : Nat) (vars : HeapVars) (size : Nat) :
    Yields (kmalloc fuel vars size) (Moved vars) := by
  unfold kmalloc
  split_ifs
  · exact yields_pure (Moves.stay.moved _)
  · exact yields_pure (Moves.stay.moved _)
  · exact yields_pure (Moves.stay.moved _)
  · exact .map (kmallocFirst_moves _ _)
  · refine yields_bind _ fun search => ?_
    rcases search with none | found | last
    · exact yields_pure moved_none
    · exact yields_bind _ fun _ => yields_pure (Moves.stay.moved _)
    · exact .map (kmallocAppend_moves _ _ _)

/-- The walk to the last block ends where it began or at a word of memory. -/
theorem lastBlock_word (fuel current : Nat) :
    Yields (lastBlock fuel current) fun answer => ∀ last, answer = some last →
      last < 2 ^ 32 ∨ last = current := by
  induction fuel generalizing current with
  | zero =>
    refine yields_pure ?_
    rintro _ ⟨⟩
  | succ fuel ih =>
    have word : Yields (load (nextAt current)) (· < 2 ^ 32) := fun m => readWord_lt m _
    refine word.bind fun next small => ?_
    split_ifs
    · refine yields_pure ?_
      rintro _ ⟨⟩
      exact .inr rfl
    · intro m last answer
      exact .inl ((ih next m last answer).elim id fun same => same ▸ small)

theorem giveBack_moves (fuel : Nat) (vars : HeapVars) (message : Option String) :
    Yields (giveBack fuel vars) fun answer => Moved vars (answer.map (·, message)) := by
  unfold giveBack
  split_ifs
  · exact yields_pure (Moves.stay.moved _)
  · refine yields_bind _ fun single => ?_
    split_ifs
    · exact yields_pure (Moves.reset.moved _)
    · refine (lastBlock_word fuel vars.heapHead).bind fun last word => ?_
      rcases last with none | last
      · exact yields_pure moved_none
      · refine yields_bind _ fun lastFree => yields_pure ?_
        split_ifs
        · exact (Moves.edge (word last rfl)).moved _
        · exact Moves.stay.moved _

theorem kfree_moves (fuel : Nat) (vars : HeapVars) (ptr : Nat) :
    Yields (kfree fuel vars ptr) (Moved vars) := by
  have refused : ∀ message : Option String, Yields (pure (some (vars, message))) (Moved vars) :=
    fun message => yields_pure (Moves.stay.moved _)
  have released : Yields (kfreeBlock fuel vars (sub32 ptr headerSize)) (Moved vars) := by
    unfold kfreeBlock
    iterate 3 refine yields_bind _ fun _ => ?_
    exact (giveBack_moves fuel vars none).bind fun answer kept => yields_pure kept
  unfold kfree
  dsimp only
  split_ifs
  · exact refused _
  · exact refused _
  · refine yields_bind _ fun magic => ?_
    split_ifs
    · exact refused _
    · iterate 2 refine yields_bind _ fun _ => ?_
      split_ifs
      · exact refused _
      · exact refused _
      · refine yields_bind _ fun free => ?_
        split_ifs
        · exact refused _
        · exact released

/-- The variables are 32-bit words. -/
structure Words (vars : HeapVars) : Prop where
  start : vars.heapStart < 2 ^ 32
  edge : vars.heapEnd < 2 ^ 32
  head : vars.heapHead < 2 ^ 32

theorem Moves.words (moves : Moves vars vars') (words : Words vars) : Words vars' := by
  obtain ⟨start, edge, head⟩ := words
  cases moves with
  | stay => exact ⟨start, edge, head⟩
  | first small => exact ⟨start, small, edge⟩
  | edge small => exact ⟨start, small.elim id (· ▸ head), head⟩
  | reset => exact ⟨start, start, Nat.two_pow_pos 32⟩

end ZynthexOS.HeapVariables
