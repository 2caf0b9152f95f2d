import ZynthexOS.HeapAllocation

/-! `kfree` as an operation on the list of blocks: the block released is joined
with its free neighbours below `heap_end`, and the end of the heap is given
back. The memory a release leaves holds the joined list as long as there is
room for the merged tail words. -/
namespace ZynthexOS.HeapRelease
open Lib Lib.Memory Mm HeapLayout HeapRepresentation HeapPrograms HeapConditions HeapAllocation

/-- A dereference inside the heap's address range. -/
def InHeap (acc : Access) : Prop :=
  kernelHeapStart ≤ acc.addr ∧ acc.addr + 4 ≤ kernelHeapEnd

@[simp] theorem inHeap_load :
    InHeap (.load a) ↔ kernelHeapStart ≤ a ∧ a + 4 ≤ kernelHeapEnd := Iff.rfl

/-- The neighbours a release joins, `left` and `right`, and the blocks beyond
them. A neighbour is joined when it is free and below `heap_end`. -/
structure Neighbours (stop : Nat) (pre post : List Block) (left right : Option Block)
    (before after : List Block) : Prop where
  pre_eq : pre = before ++ left.toList
  post_eq : post = right.toList ++ after
  leftFree : ∀ w ∈ left, w.free = true ∧ w.addr < stop
  rightFree : ∀ y ∈ right, y.free = true ∧ y.addr < stop
  leftStop : left = none → ∀ w ∈ before.getLast?, ¬ (w.free = true ∧ w.addr < stop)
  rightStop : right = none → ∀ y ∈ after.head?, ¬ (y.free = true ∧ y.addr < stop)

/-- A block joined with the next one, or with the one before, if there is one. -/
def withNext (x : Block) (right : Option Block) : Block := right.elim x (join x)
def withPrev (left : Option Block) (x : Block) : Block := left.elim x (join · x)

@[simp] theorem withNext_none : withNext x none = x := rfl

@[simp] theorem withNext_some : withNext x (some y) = join x y := rfl

@[simp] theorem withPrev_none : withPrev none x = x := rfl

@[simp] theorem withPrev_some : withPrev (some w) x = join w x := rfl

@[simp] theorem withNext_addr : (withNext x right).addr = x.addr := by cases right <;> rfl

theorem withNext_free : (withNext x right).free = x.free := by cases right <;> rfl

theorem neighbours_exist (stop : Nat) (pre post : List Block) :
    ∃ left right before after, Neighbours stop pre post left right before after := by
  obtain ⟨left, before, rfl, leftFree, leftStop⟩ : ∃ (left : Option Block) (before : List Block),
      pre = before ++ left.toList ∧ (∀ w ∈ left, w.free = true ∧ w.addr < stop) ∧
        (left = none → ∀ w ∈ before.getLast?, ¬ (w.free = true ∧ w.addr < stop)) := by
    rcases List.eq_nil_or_concat pre with rfl | ⟨before, w, rfl⟩
    · exact ⟨none, [], rfl, by simp, by simp⟩
    · by_cases joins : w.free = true ∧ w.addr < stop
      · exact ⟨some w, before, by simp, by simpa using joins, by simp⟩
      · exact ⟨none, before ++ [w], by simp, by simp, by simpa using joins⟩
  obtain ⟨right, after, rfl, rightFree, rightStop⟩ : ∃ (right : Option Block) (after : List Block),
      post = right.toList ++ after ∧ (∀ y ∈ right, y.free = true ∧ y.addr < stop) ∧
        (right = none → ∀ y ∈ after.head?, ¬ (y.free = true ∧ y.addr < stop)) := by
    cases post with
    | nil => exact ⟨none, [], rfl, by simp, by simp⟩
    | cons y after =>
      by_cases joins : y.free = true ∧ y.addr < stop
      · exact ⟨some y, after, by simp, by simpa using joins, by simp⟩
      · exact ⟨none, y :: after, by simp, by simp, by simpa using joins⟩
  exact ⟨left, right, before, after, rfl, rfl, leftFree, rightFree, leftStop, rightStop⟩

/-! ## The conditions, on the list -/

theorem word_inHeap (held : Stored m bs stop) (member : b ∈ bs) (low : b.addr ≤ a)
    (high : a ≤ b.fin) : kernelHeapStart ≤ a ∧ a + 4 ≤ kernelHeapEnd := by
  have bounds := held.low member
  have top := held.top
  simp only [tailSize] at top
  omega

theorem joins_iff (held : Stored m bs stop) (start : vars.heapStart = kernelHeapStart)
    (member : b ∈ bs) : Joins vars m b.addr ↔ b.free = true ∧ b.addr < vars.heapEnd := by
  obtain ⟨pre, post, rfl⟩ := List.append_of_mem member
  have ne := (addressed_of_stored held b member).1
  have low := (held.low member).1
  rw [Joins, start, held.around.2.2.2.1.free, Block.flag_ne_zero]
  tauto

theorem not_joins_zero : ¬ Joins vars m 0 := fun joins => joins.1 rfl

/-- What the guards of the two merges decide, in terms of the neighbours. -/
theorem merges_iff (held : Stored m (pre ++ x :: post) stop)
    (start : vars.heapStart = kernelHeapStart)
    (around : Neighbours vars.heapEnd pre post left right before after) :
    (MergesNext vars m x.addr ↔ right.isSome) ∧ (MergesPrev vars m x.addr ↔ left.isSome) := by
  have small := (addressed_of_stored held x (by simp)).2
  obtain ⟨rfl, rfl, leftFree, rightFree, leftStop, rightStop⟩ := around
  have header := held.around.2.2.2.1
  rw [MergesNext, nextIn_eq header small, MergesPrev, prevIn_eq header small]
  constructor
  · cases right with
    | some y => simpa [joins_iff held start (b := y)] using rightFree y rfl
    | none =>
      cases after with
      | nil => simpa using not_joins_zero
      | cons z after => simpa [joins_iff held start (b := z)] using rightStop rfl z rfl
  · cases left with
    | some w => simpa [lastAddr_append, joins_iff held start (b := w)] using leftFree w rfl
    | none =>
      rcases List.eq_nil_or_concat before with rfl | ⟨before, w, rfl⟩
      · simpa using not_joins_zero
      · simpa [lastAddr_append, joins_iff held start (b := w)] using leftStop rfl w (by simp)

/-- The block behind the release and the sizes it produces, read off memory. -/
theorem after_eq (held : Stored m (pre ++ x :: post) stop)
    (start : vars.heapStart = kernelHeapStart)
    (around : Neighbours vars.heapEnd pre post left right before after) :
    nextAfter vars m x.addr = headAddr after 0 ∧
      sizeAfter vars m x.addr = (withNext x right).size ∧
      ∀ w ∈ left, prevIn m x.addr = w.addr ∧
        tailAfter vars m x.addr = (withPrev left (withNext x right)).fin := by
  have small := addressed_of_stored held
  have merges := (merges_iff held start around).1
  obtain ⟨rfl, rfl, -⟩ := around
  have header := held.around.2.2.2.1
  have smallX := (small x (by simp)).2
  have next := nextIn_eq header smallX
  have size := sizeIn_eq header smallX
  have prev := prevIn_eq header smallX
  have sizes : nextAfter vars m x.addr = headAddr after 0 ∧
      sizeAfter vars m x.addr = (withNext x right).size := by
    cases right with
    | none =>
      have apart : ¬ MergesNext vars m x.addr := by simp [merges]
      rw [nextAfter, sizeAfter, if_neg apart, if_neg apart, next, size]
      exact ⟨rfl, rfl⟩
    | some y =>
      have joins : MergesNext vars m x.addr := by simp [merges]
      have smallY := (small y (by simp)).2
      have behind : HeaderIs m y x.addr (headAddr after 0) := held.around.2.2.2.2.1
      rw [Option.toList_some, List.singleton_append, headAddr_cons] at next
      rw [nextAfter, sizeAfter, if_pos joins, if_pos joins, next, size, nextIn_eq behind smallY,
        sizeIn_eq behind smallY]
      exact ⟨rfl, rfl⟩
  refine ⟨sizes.1, sizes.2, ?_⟩
  rintro w rfl
  have smallW := (small w (by simp)).2
  have whole : before ++ (some w).toList ++ x :: (right.toList ++ after) =
      before ++ w :: x :: (right.toList ++ after) := by simp
  have headerW := (whole ▸ held).around.2.2.2.1
  rw [lastAddr_append, Option.toList_some, lastAddr_cons, lastAddr_nil] at prev
  refine ⟨prev, ?_⟩
  rw [tailAfter, prev, sizeIn_eq headerW smallW, sizes.2]
  rfl

/-- `MergeRoom` on the list: neighbours with a block behind them have the slack
that the merged tail word needs. -/
theorem slack_of_room (held : Stored m (pre ++ x :: post) stop)
    (start : vars.heapStart = kernelHeapStart)
    (around : Neighbours vars.heapEnd pre post left right before after)
    (room : MergeRoom r vars m x.addr) (more : after ≠ []) :
    (∀ y ∈ right, tailSize + r ≤ x.slack + y.slack) ∧
      ∀ w ∈ left, tailSize + r ≤ w.slack + (withNext x right).slack := by
  obtain ⟨next, size, prev⟩ := after_eq held start around
  obtain ⟨mergesNext, mergesPrev⟩ := merges_iff held start around
  obtain ⟨z, after, rfl⟩ := List.exists_cons_of_ne_nil more
  have ne : nextAfter vars m x.addr ≠ 0 := by
    obtain ⟨-, rfl, -⟩ := around
    rw [next]
    exact (addressed_of_stored held z (by simp)).1
  obtain ⟨rfl, rfl, -⟩ := around
  constructor
  · rintro y rfl
    have bound := room.next (by simp [mergesNext]) ne
    have place := held.around.2.1
    rw [next, size] at bound
    obtain ⟨here, behind, -⟩ := place
    simp only [headAddr_cons, withNext_some, join_size, Block.width, headerSize, tailSize] at *
    omega
  · rintro w rfl
    have bound := room.prev (by simp [mergesPrev]) ne
    have place : Layout kernelHeapStart (before ++ w :: x :: (right.toList ++ z :: after)) stop := by
      simpa using held.layout
    obtain ⟨c, -, rfl, behind, last⟩ := tiles_append.mp place
    rw [next, (prev w rfl).2] at bound
    cases right with
    | none =>
      obtain ⟨last, -⟩ := last
      simp only [headAddr_cons, withNext_none, withPrev_some, join_fin, Block.width, headerSize,
        tailSize] at *
      omega
    | some y =>
      obtain ⟨here, last, -⟩ := last
      have enough := room.next (by simp [mergesNext]) ne
      rw [next, size] at enough
      simp only [headAddr_cons, withNext_some, withPrev_some, join_fin, join_size, Block.width,
        join_slack, headerSize, tailSize] at *
      omega

/-! ## The merges -/

theorem headAddr_le (held : Stored m (pre ++ x :: post) stop) :
    headAddr post 0 ≤ kernelHeapEnd := by
  have top := held.top
  cases post with
  | nil => decide
  | cons z post =>
    have low := held.low (b := z) (by simp)
    simp only [headAddr_cons, Block.fin] at *
    omega

theorem headAddr_small (held : Stored m (pre ++ x :: post) stop) :
    headAddr post 0 + 20 < 2 ^ 32 := by
  have high := headAddr_le held
  simp only [kernelHeapEnd] at high
  omega

theorem fin_small (held : Stored m bs stop) (member : b ∈ bs) : b.fin + 20 < 2 ^ 32 := by
  have low := held.low member
  have top := held.top
  simp only [tailSize, kernelHeapEnd] at *
  omega

/-- A word of a listed header, or one of these tail words. -/
def Touches (bs : List Block) (tails : List Nat) (acc : Access) : Prop :=
  (∃ b ∈ bs, b.addr ≤ acc.addr ∧ acc.addr + 4 ≤ b.addr + headerSize) ∨ acc.addr ∈ tails

theorem touches_header (member : b ∈ bs) (k : Nat) (field : k + 4 ≤ headerSize := by decide)
    (here : acc.addr = b.addr + k := by rfl) : Touches bs tails acc :=
  .inl ⟨b, member, by omega, by omega⟩

theorem touches_tail (here : acc.addr ∈ tails) : Touches bs tails acc := .inr here

theorem Touches.mono (touches : Touches bs tails acc) (same : ∀ b ∈ bs, ∃ c ∈ bs', c.addr = b.addr)
    (more : tails ⊆ tails') : Touches bs' tails' acc := by
  rcases touches with ⟨b, member, low, high⟩ | member
  · obtain ⟨c, inside, here⟩ := same b member
    exact .inl ⟨c, inside, by rwa [here], by rwa [here]⟩
  · exact .inr (more member)

theorem Touches.inHeap (touches : Touches bs tails acc) (held : Stored m bs stop)
    (inside : ∀ t ∈ tails, kernelHeapStart ≤ t ∧ t + 4 ≤ kernelHeapEnd) : InHeap acc := by
  rcases touches with ⟨b, member, low, high⟩ | member
  · exact word_inHeap held member low (by simp only [Block.fin]; omega)
  · exact inside _ member

theorem relinkLog_touches (held : Stored m (pre ++ x :: post) stop) (q : Nat) (tails : List Nat) :
    ∀ acc ∈ relinkLog (headAddr post 0) q, Touches (pre ++ x :: post) tails acc ∧
      acc = .store (headAddr post 0 + 16) q := by
  intro acc member
  cases post with
  | nil => simp [relinkLog] at member
  | cons z post =>
    have ne := (addressed_of_stored held z (by simp)).1
    rw [headAddr_cons, relinkLog, if_neg ne, List.mem_singleton] at member
    subst member
    exact ⟨touches_header (b := z) (by simp) 16, rfl⟩

/-- What one of the merges leaves, whether or not it joins two blocks: it has
touched headers and the merged tail word, and stored the magic value nowhere else. -/
structure Merges (bs : List Block) (tail : Nat) (joins : Bool) (bs' : List Block) (stop : Nat)
    (o : Outcome Unit) : Prop where
  stored : Stored o.mem bs' stop
  touches : ∀ acc ∈ o.log, Touches bs [tail] acc
  magic : ∀ t, .store t heapMagic ∈ o.log → joins = true ∧ t = tail

theorem mergeNext_stays (held : Stored m (pre ++ x :: after) stop)
    (start : vars.heapStart = kernelHeapStart)
    (ends : ∀ y ∈ after.head?, ¬ (y.free = true ∧ y.addr < vars.heapEnd)) :
    Merges (pre ++ x :: after) x.fin false (pre ++ x :: after) stop
      ((mergeNext vars x.addr).run m) := by
  have header := held.around.2.2.2.1
  have smallX := (addressed_of_stored held x (by simp)).2
  have apart : ¬ Joins vars m (readWord m (x.addr + 12)) := by
    rw [header.next]
    cases after with
    | nil => exact not_joins_zero
    | cons z after => exact fun joins => ends z rfl ((joins_iff held start (by simp)).mp joins)
  have bound := headAddr_small held
  obtain ⟨mem, log⟩ := run_mergeNext_stay apart smallX (by rw [header.next]; omega)
  refine ⟨by rwa [mem], fun acc member => ?_, fun t member => ?_⟩
  · rcases log acc member with rfl | ⟨rfl, low, high⟩
    · exact touches_header (b := x) (by simp) 12
    · rw [header.next, start] at low
      rw [header.next]
      cases after with
      | nil => exact absurd low (by decide)
      | cons z after => exact touches_header (b := z) (by simp) 8
  · rcases log _ member with same | ⟨same, -⟩ <;> cases same

theorem mergeNext_joins (held : Stored m (pre ++ x :: y :: after) stop)
    (start : vars.heapStart = kernelHeapStart) (free : y.free = true ∧ y.addr < vars.heapEnd)
    (room : tailSize ≤ x.slack + y.slack) :
    Merges (pre ++ x :: y :: after) (join x y).fin true (pre ++ join x y :: after) stop
      ((mergeNext vars x.addr).run m) := by
  have top := held.top
  have atX : x ∈ pre ++ x :: y :: after := by simp
  have atY : y ∈ pre ++ x :: y :: after := by simp
  have header := held.around.2.2.2.1
  have behind : HeaderIs m y x.addr (headAddr after 0) := held.around.2.2.2.2.1
  have adjacent : y.addr = x.addr + x.width := held.around.2.1.1
  have whole : pre ++ x :: y :: after = (pre ++ [x]) ++ y :: after := by simp
  have zHigh := headAddr_le (whole ▸ held)
  have lowX := held.low atX
  have lowY := held.low atY
  have order : x.fin ≤ y.addr := by
    simp only [Block.fin, Block.width] at adjacent ⊢
    omega
  have run := run_mergeNext_join vars header behind ((joins_iff held start atY).mpr free) order
    (fin_small held atY) (headAddr_small (whole ▸ held))
  have relinked := relinkLog_touches (whole ▸ held) x.addr [(join x y).fin]
  rw [← whole] at relinked
  rw [run]
  refine ⟨joined_stored held room, ?_, fun t member => ⟨rfl, ?_⟩⟩
  · simp only [List.forall_mem_append, List.forall_mem_cons, List.not_mem_nil, false_imp_iff,
      implies_true, and_true]
    exact ⟨⟨touches_header atX 12, touches_header atY 8, touches_header atX 4, touches_header atY 4,
      touches_header atX 4, touches_header atY 12, touches_header atX 12, touches_header atX 4,
      touches_tail (by simp [Access.addr]), touches_header atX 12⟩,
      fun acc member => (relinked acc member).1⟩
  · rw [join_fin]
    rcases List.mem_append.mp member with member | member
    · simp only [List.mem_cons, Access.store.injEq, reduceCtorEq, List.not_mem_nil, or_false,
        false_or] at member
      rw [join_size, join_fin] at member
      simp only [heapMagic, kernelHeapEnd, Block.fin, Block.width, headerSize, tailSize] at *
      omega
    · have same := (relinked _ member).2
      simp only [Access.store.injEq, heapMagic, kernelHeapEnd, Block.fin] at *
      omega

theorem mergeNext_refines (held : Stored m (pre ++ x :: (right.toList ++ after)) stop)
    (start : vars.heapStart = kernelHeapStart)
    (free : ∀ y ∈ right, y.free = true ∧ y.addr < vars.heapEnd)
    (ends : right = none → ∀ y ∈ after.head?, ¬ (y.free = true ∧ y.addr < vars.heapEnd))
    (room : ∀ y ∈ right, tailSize ≤ x.slack + y.slack) :
    Merges (pre ++ x :: (right.toList ++ after)) (withNext x right).fin right.isSome
      (pre ++ withNext x right :: after) stop ((mergeNext vars x.addr).run m) := by
  cases right with
  | none => exact mergeNext_stays held start (ends rfl)
  | some y => exact mergeNext_joins held start (free y rfl) (room y rfl)

theorem mergePrev_stays (held : Stored m (before ++ x :: after) stop)
    (start : vars.heapStart = kernelHeapStart)
    (ends : ∀ w ∈ before.getLast?, ¬ (w.free = true ∧ w.addr < vars.heapEnd)) :
    Merges (before ++ x :: after) x.fin false (before ++ x :: after) stop
      ((mergePrev vars x.addr).run m) := by
  have header := held.around.2.2.2.1
  have smallX := (addressed_of_stored held x (by simp)).2
  obtain ⟨small, apart, inside⟩ : lastAddr 0 before + 8 < 2 ^ 32 ∧
      ¬ Joins vars m (lastAddr 0 before) ∧
      (kernelHeapStart ≤ lastAddr 0 before → ∃ w ∈ before, w.addr = lastAddr 0 before) := by
    rcases List.eq_nil_or_concat before with rfl | ⟨before, w, rfl⟩
    · exact ⟨by decide, not_joins_zero, fun low => absurd low (by decide)⟩
    · have small := addressed_of_stored held w (by simp)
      have apart := fun joins => ends w (by simp) ((joins_iff held start (by simp)).mp joins)
      simp only [List.concat_eq_append, lastAddr_append, lastAddr_cons, lastAddr_nil]
      exact ⟨by omega, apart, fun _ => ⟨w, by simp, rfl⟩⟩
  obtain ⟨mem, log⟩ := run_mergePrev_stay (by rwa [header.prev]) smallX (by rwa [header.prev])
  refine ⟨by rwa [mem], fun acc member => ?_, fun t member => ?_⟩
  · rcases log acc member with rfl | ⟨rfl, low, high⟩
    · exact touches_header (b := x) (by simp) 16
    · rw [header.prev, start] at low
      rw [header.prev]
      obtain ⟨w, inList, here⟩ := inside low
      rw [← here]
      exact touches_header (b := w) (by simp [inList]) 8
  · rcases log _ member with same | ⟨same, -⟩ <;> cases same

theorem mergePrev_joins (held : Stored m (before ++ w :: x :: after) stop)
    (start : vars.heapStart = kernelHeapStart) (free : w.free = true ∧ w.addr < vars.heapEnd)
    (room : tailSize ≤ w.slack + x.slack) (clear : ClearOfLinks x.addr (join w x).fin) :
    Merges (before ++ w :: x :: after) (join w x).fin true (before ++ join w x :: after) stop
      ((mergePrev vars x.addr).run m) := by
  have top := held.top
  have atX : x ∈ before ++ w :: x :: after := by simp
  have atW : w ∈ before ++ w :: x :: after := by simp
  have ahead := held.around.2.2.2.1
  have adjacent : x.addr = w.addr + w.width := held.around.2.1.1
  have split : before ++ w :: x :: after = (before ++ [w]) ++ x :: after := by simp
  have header : HeaderIs m x w.addr (headAddr after 0) := held.around.2.2.2.2.1
  have zHigh := headAddr_le (split ▸ held)
  have lowX := held.low atX
  have lowW := held.low atW
  have order : w.fin ≤ x.addr := by
    simp only [Block.fin, Block.width] at adjacent ⊢
    omega
  have run := run_mergePrev_join vars ahead header ((joins_iff held start atW).mpr free) order
    clear (fin_small held atX) (headAddr_small (split ▸ held))
  have relinked : ∀ acc ∈ (if headAddr after 0 = 0 then []
      else [Access.load (x.addr + 16), .store (headAddr after 0 + 16) w.addr]),
      Touches (before ++ w :: x :: after) [(join w x).fin] acc ∧ ∀ t, acc ≠ .store t heapMagic := by
    intro acc member
    split_ifs at member with none
    · cases member
    · obtain ⟨linked, -⟩ := relinkLog_touches (split ▸ held) w.addr [(join w x).fin]
        (.store (headAddr after 0 + 16) w.addr) (by simp [relinkLog, none])
      rw [← split] at linked
      simp only [List.mem_cons, List.not_mem_nil, or_false] at member
      rcases member with rfl | rfl
      · exact ⟨touches_header atX 16, by simp⟩
      · refine ⟨linked, fun t same => ?_⟩
        simp only [Access.store.injEq, heapMagic, kernelHeapEnd, Block.fin] at *
        omega
  rw [run]
  refine ⟨joined_stored held room, ?_, fun t member => ⟨rfl, ?_⟩⟩
  · simp only [List.forall_mem_append, List.forall_mem_cons, List.not_mem_nil, false_imp_iff,
      implies_true, and_true]
    exact ⟨⟨touches_header atX 16, touches_header atW 8, touches_header atW 4, touches_header atX 4,
      touches_header atW 4, touches_header atX 16, touches_header atW 4,
      touches_tail (by simp [Access.addr]), touches_header atX 12, touches_header atX 16,
      touches_header atW 12, touches_header atX 12⟩, fun acc member => (relinked acc member).1⟩
  · rw [join_fin]
    rcases List.mem_append.mp member with member | member
    · simp only [List.mem_cons, Access.store.injEq, reduceCtorEq, List.not_mem_nil, or_false,
        false_or] at member
      rw [join_size, join_fin] at member
      simp only [heapMagic, kernelHeapEnd, Block.fin, Block.width, headerSize, tailSize] at *
      omega
    · exact absurd rfl ((relinked _ member).2 t)

theorem mergePrev_refines (held : Stored m (before ++ left.toList ++ x :: after) stop)
    (start : vars.heapStart = kernelHeapStart)
    (free : ∀ w ∈ left, w.free = true ∧ w.addr < vars.heapEnd)
    (ends : left = none → ∀ w ∈ before.getLast?, ¬ (w.free = true ∧ w.addr < vars.heapEnd))
    (room : ∀ w ∈ left, tailSize ≤ w.slack + x.slack)
    (clear : ∀ w ∈ left, ClearOfLinks x.addr (join w x).fin) :
    Merges (before ++ left.toList ++ x :: after) (withPrev left x).fin left.isSome
      (before ++ withPrev left x :: after) stop ((mergePrev vars x.addr).run m) := by
  cases left with
  | none =>
    rw [Option.toList_none, List.append_nil] at held ⊢
    exact mergePrev_stays held start (ends rfl)
  | some w =>
    rw [Option.toList_some, List.append_assoc, List.singleton_append] at held ⊢
    exact mergePrev_joins held start (free w rfl) (room w rfl) (clear w rfl)

/-! ## The give-back -/

/-- The end of `kfree`: a single free block empties the heap, a free last block
lowers `heap_end` to its header, and a used last block changes nothing. -/
inductive GivesBack (vars : HeapVars) (bs : List Block) (stop : Nat) :
    HeapVars → List Block → Nat → Prop where
  | reset {b : Block} : bs = [b] → b.free = true →
      GivesBack vars bs stop { vars with heapEnd := vars.heapStart, heapHead := 0 } []
        kernelHeapStart
  | lower {l : Block} : 1 < bs.length → bs.getLast? = some l → l.free = true →
      GivesBack vars bs stop { vars with heapEnd := l.addr } bs stop
  | keep {l : Block} : bs.getLast? = some l → l.free = false → GivesBack vars bs stop vars bs stop

theorem givesBack_givenBack (vars : HeapVars) (b : Block) (bs : List Block) (stop : Nat) :
    ∃ bs' stop', GivesBack vars (b :: bs) stop (givenBack vars b bs) bs' stop' := by
  have isLast : (b :: bs).getLast? = some ((b :: bs).getLast (by simp)) :=
    List.getLast?_eq_some_getLast (by simp)
  unfold givenBack
  split_ifs with alone free
  · obtain ⟨rfl, free⟩ := alone
    exact ⟨_, _, .reset rfl free⟩
  · refine ⟨_, _, .lower ?_ isLast free⟩
    cases bs with
    | nil => exact absurd ⟨rfl, by simpa using free⟩ alone
    | cons c bs => simp
  · exact ⟨_, _, .keep isLast (by simpa using free)⟩

/-- The variables a give-back leaves fit the list. -/
theorem GivesBack.inv (given : GivesBack vars bs stop vars' bs' stop')
    (stored : Stored m bs stop) (start : vars.heapStart = kernelHeapStart)
    (head : vars.heapHead = headAddr bs 0)
    (used : ∀ l, bs.getLast? = some l → l.free = false →
      (vars.heapEnd = stop ∨ vars.heapEnd ≤ l.addr) ∧
        (vars.heapEnd = stop → 1 < bs.length → tailSize ≤ l.slack)) :
    HeapInv vars' m bs' stop' := by
  cases given with
  | reset same free =>
    rw [start]
    exact ⟨⟨trivial, rfl, by simp, by decide⟩, rfl, rfl, .inl rfl, by simp⟩
  | @lower l more isLast free =>
    refine ⟨stored, start, head, .inr ⟨l, isLast, Nat.le_refl _⟩, fun atStop => ?_⟩
    have low := stored.low (List.mem_of_getLast? isLast)
    simp only [Block.fin, headerSize] at low atStop
    omega
  | @keep l isLast isUsed =>
    obtain ⟨edge, slack⟩ := used l isLast isUsed
    refine ⟨stored, start, head, edge.imp_right fun below => ⟨l, isLast, below⟩, ?_⟩
    intro atStop k isLast'
    obtain rfl : l = k := Option.some.inj (isLast.symm.trans isLast')
    exact ⟨isUsed, slack atStop⟩

theorem giveBack_refines (held : Stored m bs stop) (nonempty : bs ≠ [])
    (head : vars.heapHead = headAddr bs 0) (fuel : Nat) :
    ((giveBack fuel vars).run m).mem = m ∧
      (bs.length ≤ fuel → ((giveBack fuel vars).run m).result ≠ none) ∧
      (∀ vars', ((giveBack fuel vars).run m).result = some vars' →
        ∃ bs' stop', GivesBack vars bs stop vars' bs' stop') ∧
      ∀ acc ∈ ((giveBack fuel vars).run m).log, Touches bs [] acc ∧ ∃ a, acc = .load a := by
  obtain ⟨b, bs, rfl⟩ := List.exists_cons_of_ne_nil nonempty
  obtain ⟨mem, result, total, log⟩ :=
    run_giveBack held.linked (addressed_of_stored held) head fuel
  refine ⟨mem, total, fun vars' returned => ?_, fun acc member => ?_⟩
  · rcases result with none | given
    · rw [none] at returned
      cases returned
    · rw [given] at returned
      cases returned
      exact givesBack_givenBack vars b bs stop
  · obtain ⟨c, inside, rfl | rfl⟩ := log acc member
    · exact ⟨touches_header inside 8, _, rfl⟩
    · exact ⟨touches_header inside 12, _, rfl⟩

/-! ## `kfree` of a block in use -/

/-- The block a release leaves. -/
def released (left : Option Block) (x : Block) (right : Option Block) : Block :=
  withPrev left (withNext (release x) right)

theorem released_addr_le (held : Stored m (before ++ left.toList ++ x :: after) stop) :
    (released left x right).addr ≤ x.addr := by
  cases left with
  | none => simp [released, release]
  | some w =>
    have order := held.layout.pairwise
    simp only [Option.toList_some, List.append_assoc, List.singleton_append,
      List.pairwise_append, List.pairwise_cons] at order
    have below := order.2.1.1 x (by simp)
    simp only [released, withPrev_some, join_addr]
    omega

theorem released_free (left : Option Block) (x : Block) (right : Option Block)
    (free : ∀ w ∈ left, w.free = true) :
    (released left x right).free = true := by
  cases left with
  | none => simp [released, withNext_free, release]
  | some w => exact free w rfl

/-- Releasing a block keeps the head of the list, or the header the head points to. -/
theorem headAddr_released (before : List Block) (left : Option Block) (x : Block) (right : Option Block)
    (after rest : List Block) :
    headAddr (before ++ left.toList ++ x :: rest) 0 =
      headAddr (before ++ released left x right :: after) 0 := by
  cases before with
  | cons b before => rfl
  | nil =>
    cases left with
    | some w => rfl
    | none => simp [released, release]

/-- A block in use at the end of the list was there before the release. -/
theorem last_of_released (isFree : (released left x right).free = true)
    (isLast : (before ++ released left x right :: after).getLast? = some l) (used : l.free = false) :
    (before ++ left.toList ++ x :: (right.toList ++ after)).getLast? = some l ∧ after ≠ [] := by
  rcases List.eq_nil_or_concat after with rfl | ⟨after, k, rfl⟩
  · obtain rfl : released left x right = l := by simpa using isLast
    rw [isFree] at used
    cases used
  · obtain rfl : k = l := by simpa [List.getLast?_append, List.getLast?_cons] using isLast
    exact ⟨by simp [List.getLast?_append, List.getLast?_cons], by simp⟩

/-- The tail word of a block lies before the blocks behind it by its slack. -/
theorem fin_add_le {b : Block} (layout : Layout (b.addr + b.width) after stop)
    (slack : after ≠ [] → r ≤ b.slack) : ∀ c ∈ after, b.fin + r ≤ c.addr := by
  intro c inside
  have bound := (layout.mem inside).1
  have spare := slack (List.ne_nil_of_mem inside)
  simp only [Block.fin, Block.width] at bound ⊢
  omega

/-- What the rest of `kfree` leaves once its checks have passed. `room` is the
number of bytes kept between a merged tail word and the next header. -/
structure Frees (room : Nat) (vars : HeapVars) (before : List Block) (x : Block)
    (after : List Block) (stop fuel : Nat) (o : Outcome (Option (HeapVars × Option String))) :
    Prop where
  total : before.length + after.length < fuel → o.result ≠ none
  stored : Stored o.mem (before ++ x :: after) stop
  result : ∀ vars' msg, o.result = some (vars', msg) → msg = none ∧ ∃ bs' stop',
    GivesBack vars (before ++ x :: after) stop vars' bs' stop' ∧ HeapInv vars' o.mem bs' stop'
  inside : ∀ acc ∈ o.log, InHeap acc
  magic : ∀ t, .store t heapMagic ∈ o.log →
    x.addr + headerSize ≤ t ∧ ∀ b ∈ after, t + room ≤ b.addr

/-- Joins always have the slack they need: by the condition when a block
follows, and by the invariant at the end of the heap. -/
theorem slack_enough (held : HeapInv vars m (pre ++ x :: post) stop)
    (around : Neighbours vars.heapEnd pre post left right before after)
    (below : x.addr < vars.heapEnd) (room : MergeRoom r vars m x.addr) :
    (∀ y ∈ right, tailSize ≤ x.slack + y.slack ∧ after ≠ []) ∧
      ∀ w ∈ left, tailSize ≤ w.slack + (withNext x right).slack := by
  have enough := slack_of_room held.stored held.start around room
  obtain ⟨rfl, rfl, -, rightFree, -⟩ := around
  have rightMore : ∀ y ∈ right, after ≠ [] := by
    rintro y rfl rfl
    obtain ⟨isFree, belowY⟩ := rightFree y rfl
    rcases held.edge with atStop | ⟨l, isLast, above⟩
    · have used := (held.last atStop y (by simp [List.getLast?_append, List.getLast?_cons])).1
      rw [isFree] at used
      cases used
    · obtain rfl : y = l := by simpa [List.getLast?_append, List.getLast?_cons] using isLast
      omega
  refine ⟨fun y here => ⟨?_, rightMore y here⟩, fun w here => ?_⟩
  · have := (enough (rightMore y here)).1 y here
    omega
  · by_cases more : after = []
    · subst more
      cases right with
      | some y => exact absurd rfl (rightMore y rfl)
      | none =>
        obtain rfl := here
        rcases held.edge with atStop | ⟨l, isLast, above⟩
        · have slack := (held.last atStop x (by simp)).2 (by simp)
          rw [withNext_none]
          omega
        · obtain rfl : x = l := by simpa using isLast
          omega
    · have := (enough more).2 w here
      omega

/-- The headers of a list that keeps the address of the block it changes. -/
theorem same_addr {bs : List Block} (before : ∀ b ∈ pre, b ∈ bs) (after : ∀ b ∈ post, b ∈ bs)
    (here : ∃ c ∈ bs, c.addr = y.addr) : ∀ b ∈ pre ++ y :: post, ∃ c ∈ bs, c.addr = b.addr := by
  intro b member
  rcases List.mem_append.mp member with member | member
  · exact ⟨b, before b member, rfl⟩
  rcases List.mem_cons.mp member with rfl | member
  · exact here
  · exact ⟨b, after b member, rfl⟩

theorem withNext_release_fin : (withNext (release x) right).fin = (withNext x right).fin := by
  cases right <;> rfl

/-- The words the parts of a release touch, in terms of the list it starts from. -/
theorem release_touches {next prev give : List Access}
    (touchesNext : ∀ acc ∈ next, Touches (before ++ left.toList ++ release x :: (right.toList ++ after))
      [(withNext (release x) right).fin] acc)
    (touchesPrev : ∀ acc ∈ prev, Touches (before ++ left.toList ++ withNext (release x) right :: after)
      [(released left x right).fin] acc)
    (touchesGive : ∀ acc ∈ give, Touches (before ++ released left x right :: after) [] acc) :
    ∀ acc ∈ Access.store (x.addr + 8) 1 :: (next ++ (prev ++ give)),
      Touches (before ++ left.toList ++ x :: (right.toList ++ after))
        [(withNext x right).fin, (released left x right).fin] acc := by
  have first : ∀ b ∈ before, b ∈ before ++ left.toList ++ x :: (right.toList ++ after) := by
    intro b inside
    simp [inside]
  have firstLeft : ∀ b ∈ before ++ left.toList,
      b ∈ before ++ left.toList ++ x :: (right.toList ++ after) :=
    fun b inside => List.mem_append_left _ inside
  have rightLast : ∀ b ∈ right.toList ++ after,
      b ∈ before ++ left.toList ++ x :: (right.toList ++ after) :=
    fun b inside => List.mem_append_right _ (List.mem_cons_of_mem _ inside)
  have last : ∀ b ∈ after, b ∈ before ++ left.toList ++ x :: (right.toList ++ after) :=
    fun b inside => rightLast b (List.mem_append_right _ inside)
  have atX : x ∈ before ++ left.toList ++ x :: (right.toList ++ after) := by simp
  have addrNext : x.addr = (withNext (release x) right).addr := (withNext_addr (x := release x)).symm
  have here : ∃ c ∈ before ++ left.toList ++ x :: (right.toList ++ after),
      c.addr = (released left x right).addr := by
    cases left with
    | none => exact ⟨x, atX, addrNext⟩
    | some w => exact ⟨w, by simp, rfl⟩
  rw [List.forall_mem_cons, List.forall_mem_append, List.forall_mem_append]
  refine ⟨touches_header atX 8, fun acc member => ?_, fun acc member => ?_,
    fun acc member => ?_⟩
  · exact (touchesNext acc member).mono (same_addr firstLeft rightLast ⟨x, atX, rfl⟩)
      (by simp [withNext_release_fin])
  · exact (touchesPrev acc member).mono (same_addr firstLeft last ⟨x, atX, addrNext⟩) (by simp)
  · exact (touchesGive acc member).mono (same_addr first last here) (by simp)

/-- A merged tail word lies behind the header of the block released and, by the slack
the merge has to spare, before the blocks that follow. -/
theorem release_tail
    (layoutNext : Layout (x.addr + (withNext (release x) right).width) after stop)
    (layoutPrev : Layout ((released left x right).addr + (released left x right).width) after stop)
    (low : (released left x right).addr ≤ x.addr)
    (slack : after ≠ [] → (∀ y ∈ right, tailSize + r ≤ x.slack + y.slack) ∧
      ∀ w ∈ left, tailSize + r ≤ w.slack + (withNext x right).slack)
    (merged : right.isSome = true ∧ t = (withNext (release x) right).fin ∨
      left.isSome = true ∧ t = (released left x right).fin) :
    (released left x right).addr + headerSize ≤ t ∧ ∀ b ∈ after, t + r ≤ b.addr := by
  rcases merged with ⟨joins, rfl⟩ | ⟨joins, rfl⟩
  · obtain ⟨y, rfl⟩ := Option.isSome_iff_exists.mp joins
    have addr : (withNext (release x) (some y)).addr = x.addr := rfl
    rw [← addr] at layoutNext
    refine ⟨?_, fin_add_le layoutNext fun more => ?_⟩
    · simp only [Block.fin, addr]
      omega
    · have spare := (slack more).1 y rfl
      simp only [withNext_some, join_slack, release, tailSize] at spare ⊢
      omega
  · obtain ⟨w, rfl⟩ := Option.isSome_iff_exists.mp joins
    refine ⟨?_, fin_add_le layoutPrev fun more => ?_⟩
    · simp only [Block.fin]
      omega
    · have spare := (slack more).2 w rfl
      cases right <;>
        simp only [released, withPrev_some, withNext_none, withNext_some, join_slack, release,
          tailSize] at spare ⊢ <;>
        omega

/-- A used block at the end of the list a release leaves was at the end before it. -/
theorem edge_of_released (held : HeapInv vars m (pre ++ x :: post) stop)
    (around : Neighbours vars.heapEnd pre post left right before after)
    (isLast : (before ++ released left x right :: after).getLast? = some l) (used : l.free = false) :
    (vars.heapEnd = stop ∨ vars.heapEnd ≤ l.addr) ∧
      (vars.heapEnd = stop → 1 < (before ++ released left x right :: after).length →
        tailSize ≤ l.slack) := by
  obtain ⟨rfl, rfl, leftFree, -⟩ := around
  have isFree := released_free left x right fun w here => (leftFree w here).1
  obtain ⟨wasLast, more⟩ := last_of_released isFree isLast used
  have long : 1 < (before ++ left.toList ++ x :: (right.toList ++ after)).length := by
    have positive := List.length_pos_iff.mpr more
    simp only [List.length_append, List.length_cons]
    omega
  refine ⟨held.edge.imp_right ?_, fun atStop _ => (held.last atStop l wasLast).2 long⟩
  rintro ⟨k, isLast', low⟩
  obtain rfl : l = k := Option.some.inj (wasLast.symm.trans isLast')
  exact low

theorem kfreeBlock_refines (held : HeapInv vars m (pre ++ x :: post) stop)
    (around : Neighbours vars.heapEnd pre post left right before after)
    (below : x.addr < vars.heapEnd) (room : MergeRoom r vars m x.addr) (fuel : Nat) :
    Frees r vars before (released left x right) after stop fuel
        ((kfreeBlock fuel vars x.addr).run m) ∧
      ∀ acc ∈ ((kfreeBlock fuel vars x.addr).run m).log, Touches (pre ++ x :: post)
        [(withNext x right).fin, (released left x right).fin] acc := by
  have enough := slack_enough held around below room
  have strict := slack_of_room held.stored held.start around room
  have tails := (after_eq held.stored held.start around).2.2
  have joins := (merges_iff held.stored held.start around).2
  have lastUsed := fun l => edge_of_released (l := l) held around
  obtain ⟨stored, start, head, -, -⟩ := held
  have smallX := (addressed_of_stored stored x (by simp)).2
  have freed := writeFree_stored stored true 1 rfl
  obtain ⟨rfl, rfl, leftFree, rightFree, leftStop, rightStop⟩ := around
  change Stored _ (_ ++ release x :: _) stop at freed
  obtain ⟨storedNext, touchesNext, magicNext⟩ := mergeNext_refines (x := release x) freed start
    rightFree rightStop (fun y here => (enough.1 y here).1)
  have slackNext : (withNext (release x) right).slack = (withNext x right).slack := by
    cases right <;> rfl
  have finNext : ∀ w, (join w (withNext (release x) right)).fin = (join w (withNext x right)).fin := by
    intro w
    cases right <;> rfl
  have addrNext : (withNext (release x) right).addr = x.addr := withNext_addr
  have addrFree : (release x).addr = x.addr := rfl
  obtain ⟨storedPrev, touchesPrev, magicPrev⟩ := mergePrev_refines storedNext start leftFree leftStop
    (fun w here => by rw [slackNext]; exact enough.2 w here)
    (fun w here => by
      have clear := room.links (by rw [joins, here]; rfl)
      rw [(tails w here).2, here] at clear
      rw [addrNext, finNext]
      exact clear)
  rw [addrNext] at touchesPrev magicPrev storedPrev
  rw [addrFree] at storedNext storedPrev touchesNext touchesPrev magicNext magicPrev
  have headMerged : vars.heapHead = headAddr (before ++ released left x right :: after) 0 := by
    rw [head]
    exact headAddr_released ..
  have nonempty : before ++ released left x right :: after ≠ [] := by simp
  obtain ⟨memGive, totalGive, resultGive, logGive⟩ :=
    giveBack_refines storedPrev nonempty headMerged fuel
  simp (disch := omega) only [kfreeBlock, freeAt, add32, wrap_of_lt, run_bind, run_store, run_pure,
    List.append_nil, memGive]
  generalize (mergeNext vars x.addr).run (writeWord m (x.addr + 8) 1) = next at *
  generalize (mergePrev vars x.addr).run next.mem = prev at *
  generalize (giveBack fuel vars).run prev.mem = give at *
  have touches := release_touches touchesNext touchesPrev fun acc member => (logGive acc member).1
  refine ⟨⟨?_, storedPrev, ?_, ?_, ?_⟩, by simpa using touches⟩
  · intro enoughFuel
    simpa using totalGive (by simp only [List.length_append, List.length_cons]; omega)
  · intro vars' msg returned
    simp only [Option.map_eq_some_iff, Prod.mk.injEq] at returned
    obtain ⟨vars'', returned, rfl, rfl⟩ := returned
    obtain ⟨bs', stop', given⟩ := resultGive vars'' returned
    exact ⟨rfl, bs', stop', given, given.inv storedPrev start headMerged lastUsed⟩
  · intro acc member
    refine (touches acc (by simpa using member)).inHeap stored ?_
    have tailNext := word_inHeap storedNext (b := withNext (release x) right) (by simp)
      (Block.addr_le_fin _) (Nat.le_refl _)
    have tailPrev : kernelHeapStart ≤ (released left x right).fin ∧
        (released left x right).fin + 4 ≤ kernelHeapEnd :=
      word_inHeap storedPrev (List.mem_append_right _ List.mem_cons_self) (Block.addr_le_fin _)
        (Nat.le_refl _)
    rw [withNext_release_fin] at tailNext
    simpa using ⟨tailNext, tailPrev⟩
  · intro t member
    have low : (released left x right).addr ≤ x.addr := released_addr_le stored
    have layoutNext := storedNext.around.2.1
    rw [addrNext] at layoutNext
    simp only [List.mem_append, List.mem_singleton] at member
    rcases member with same | member | member | member
    · simp [heapMagic] at same
    · exact release_tail layoutNext storedPrev.around.2.1 low strict (.inl (magicNext t member))
    · exact release_tail layoutNext storedPrev.around.2.1 low strict (.inr (magicPrev t member))
    · obtain ⟨a, load⟩ := (logGive _ member).2
      cases load

/-- A call that only looked at the heap: it reports an error and changes nothing. -/
def Refused (vars : HeapVars) (m : Mem) (o : Outcome (Option (HeapVars × Option String))) : Prop :=
  (∃ msg, o.result = some (vars, msg)) ∧ o.mem = m ∧
    ∀ acc ∈ o.log, InHeap acc ∧ ∃ a, acc = .load a

theorem Frees.after_loads (held : Frees r vars before x after stop fuel o)
    (loads : ∀ acc ∈ log, InHeap acc ∧ ∃ a, acc = .load a) :
    Frees r vars before x after stop fuel ⟨o.result, o.mem, log ++ o.log⟩ := by
  refine ⟨held.total, held.stored, held.result, ?_, fun t member => ?_⟩
  · rw [List.forall_mem_append]
    exact ⟨fun acc member => (loads acc member).1, held.inside⟩
  · rcases List.mem_append.mp member with member | member
    · obtain ⟨a, load⟩ := (loads _ member).2
      cases load
    · exact held.magic t member

/-- A block in use whose payload does not end below `heap_end` is refused by its
address or by its end. -/
theorem kfree_refused (held : HeapInv vars m (pre ++ x :: post) stop)
    (beyond : vars.heapEnd < x.fin) (fuel : Nat) :
    Refused vars m ((kfree fuel vars x.payload).run m) := by
  have member : x ∈ pre ++ x :: post := by simp
  have header := held.stored.around.2.2.2.1
  have low := (held.stored.low member).1
  have small := fin_small held.stored member
  have behind : x.payload ≤ x.fin := Nat.le_add_right ..
  by_cases below : x.addr < vars.heapEnd
  · have run := run_kfree_checks header.magic header.size (by rwa [held.start]) below (by omega) fuel
    simp only [header.tail, ne_eq, not_true, if_false, if_pos (Or.inr beyond)] at run
    rw [run]
    refine ⟨⟨_, rfl⟩, rfl, ?_⟩
    have word := fun a => word_inHeap (a := a) held.stored member
    simp only [Block.payload, headerSize] at behind
    simp only [List.forall_mem_cons, List.not_mem_nil, false_imp_iff, implies_true, and_true,
      inHeap_load, Access.load.injEq, exists_eq']
    exact ⟨word _ (by omega) (by omega), word _ (by omega) (by omega), word _ (by omega) (by omega)⟩
  · rw [run_kfree_outside (Nat.le_of_not_lt below) (by omega)]
    exact ⟨⟨_, rfl⟩, rfl, by simp⟩

/-- `kfree` of a block in use: refused when `heap_end` has dropped to it or
below, and otherwise the release of the list. -/
theorem kfree_refines (held : HeapInv vars m (pre ++ x :: post) stop) (used : x.free = false)
    (around : Neighbours vars.heapEnd pre post left right before after)
    (room : MergeRoom r vars m x.addr) (fuel : Nat) :
    vars.heapEnd < stop ∧ Refused vars m ((kfree fuel vars x.payload).run m) ∨
      x.addr < vars.heapEnd ∧ Frees r vars before (released left x right) after stop fuel
        ((kfree fuel vars x.payload).run m) := by
  have member : x ∈ pre ++ x :: post := by simp
  have low := held.stored.low member
  have top := held.stored.top
  have edge := heapEnd_le held
  have finX : x.fin = x.addr + 20 + x.size := rfl
  simp only [tailSize, kernelHeapEnd] at top
  by_cases ends : x.fin ≤ vars.heapEnd
  · have below : x.addr < vars.heapEnd := by omega
    have frees := (kfreeBlock_refines held around below room fuel).1
    have positive := (held.stored.wf x member).positive
    rw [run_kfree_passed held.stored.around.2.2.2.1 used positive (by rw [held.start]; exact low.1)
      ends (by omega) fuel]
    refine .inr ⟨below, frees.after_loads ?_⟩
    simp only [List.forall_mem_cons, List.not_mem_nil, false_imp_iff, implies_true, and_true,
      inHeap_load, Access.load.injEq, exists_eq', finX, kernelHeapEnd]
    omega
  · exact .inl ⟨by omega, kfree_refused held (Nat.lt_of_not_le ends) fuel⟩

/-- The used blocks a release keeps: all but the one released. -/
theorem released_used (around : Neighbours edge pre post left right before after)
    (member : b ∈ before ++ released left x right :: after) (used : b.free = false) :
    b ∈ pre ++ post := by
  obtain ⟨rfl, rfl, leftFree, -⟩ := around
  have isFree := released_free left x right fun w here => (leftFree w here).1
  simp only [List.mem_append, List.mem_cons] at member ⊢
  rcases member with member | rfl | member
  · exact .inl (.inl member)
  · rw [isFree] at used
    cases used
  · exact .inr (.inr member)

theorem used_released (around : Neighbours edge pre post left right before after)
    (member : b ∈ pre ++ post) (used : b.free = false) :
    b ∈ before ++ released left x right :: after := by
  obtain ⟨rfl, rfl, leftFree, rightFree, -⟩ := around
  simp only [List.mem_append, Option.mem_toList, List.mem_cons] at member ⊢
  rcases member with (member | member) | (member | member)
  · exact .inl member
  · rw [(leftFree b member).1] at used
    cases used
  · rw [(rightFree b member).1] at used
    cases used
  · exact .inr (.inr member)

/-- A give-back drops no used block. -/
theorem GivesBack.used (given : GivesBack vars bs stop vars' bs' stop') (member : b ∈ bs)
    (used : b.free = false) : b ∈ bs' := by
  cases given with
  | reset same free =>
    subst same
    cases List.mem_singleton.mp member
    rw [free] at used
    cases used
  | lower => exact member
  | keep => exact member

theorem GivesBack.subset (given : GivesBack vars bs stop vars' bs' stop') (member : b ∈ bs') :
    b ∈ bs := by
  cases given with
  | reset => cases member
  | lower => exact member
  | keep => exact member

end ZynthexOS.HeapRelease
