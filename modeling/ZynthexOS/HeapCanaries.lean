import ZynthexOS.HeapDisjointness
import ZynthexOS.HeapExhaustion

/-! Whose overrun a tail word catches. The first block of a heap reserves no room
for its tail word, the allocated part of a split has the remainder's header there
and a reused block has what lies behind it; only an appended block has a word of
its own. As long as no live pointer was handed out without one, a damaged tail
word stops the release of its own block and of no other. -/
namespace ZynthexOS.HeapCanaries
open Lib Lib.Memory Mm HeapLayout HeapRepresentation HeapPrograms HeapConditions HeapAllocation
  HeapRelease HeapRuns HeapWalks HeapChecker HeapDisjointness HeapExhaustion

/-- The tail word of the block behind a pointer. -/
def canary (m : Mem) (ptr : Nat) : Nat :=
  tailAt (sub32 ptr headerSize) (sizeIn m (sub32 ptr headerSize))

/-- Returned by `kmalloc` and not freed since. -/
def Live (s : HeapState) (ptr : Nat) : Prop := ptr ∈ s.live.map Prod.fst

instance : Decidable (Live s ptr) := inferInstanceAs (Decidable (_ ∈ _))

/-- Every live block has a tail word below `heap_end` that no other block covers.
With any other value in it `kfree` refuses the block, and every other live block
is freed as it would have been. -/
structure Isolated (s : HeapState) : Prop where
  below : ∀ p, Live s p → canary s.mem p + tailSize ≤ s.vars.heapEnd
  apart : ∀ p, Live s p → ∀ b, Listed s.vars s.mem b → b ≠ sub32 p headerSize →
    canary s.mem p + tailSize ≤ b ∨ b + headerSize + sizeIn s.mem b ≤ canary s.mem p
  refused : ∀ p, Live s p → ∀ v, wrap v ≠ heapMagic → ∀ fuel,
    let o := (kfree fuel s.vars p).run (writeWord s.mem (canary s.mem p) v)
    o.result = some (s.vars, some "Heap tail corruption detected!\n") ∧
      o.mem = writeWord s.mem (canary s.mem p) v
  freed : ∀ p, Live s p → ∀ q, Live s q → q ≠ p → ∀ v, ∃ laps, ∀ fuel, laps ≤ fuel →
    let o := (kfree fuel s.vars q).run s.mem
    let overwritten := (kfree fuel s.vars q).run (writeWord s.mem (canary s.mem p) v)
    (∃ vars, o.result = some (vars, none)) ∧ overwritten.result = o.result ∧
      overwritten.mem = writeWord o.mem (canary s.mem p) v

/-- The tail word of a block ends below `heap_end` and the next header. -/
def TailFits (vars : HeapVars) (m : Mem) (b : Nat) : Prop :=
  b + headerSize + sizeIn m b + tailSize ≤ vars.heapEnd ∧
    (nextIn m b ≠ 0 → b + headerSize + sizeIn m b + tailSize ≤ nextIn m b)

/-- `kmalloc(size)` hands out a block without a tail word of its own: the first
one of a heap, a part split off, or a free block whose tail word does not fit. -/
def Cramps (vars : HeapVars) (m : Mem) (size : Nat) : Prop :=
  vars.heapHead = 0 ∨ ∃ b, FirstFit m (alignUp size) vars.heapHead b ∧
    (alignUp size + headerSize + tailSize + minBlockSize ≤ sizeIn m b ∨ ¬ TailFits vars m b)

/-- A heap with a record of the live pointers that were handed out so. -/
structure Marked where
  heap : HeapState
  cramped : Nat → Prop

/-- The record after a call: a live pointer keeps its mark, and a new one has it
from the call that returned it. -/
def Marked.after (t : Marked) (call : HeapCall) (s' : HeapState) : Marked where
  heap := s'
  cramped p := Live s' p ∧ (t.cramped p ∨
    ¬ Live t.heap p ∧ ∃ size, call = .kmalloc size ∧ Cramps t.heap.vars t.heap.mem size.toNat)

/-- A step of the heap and of the record beside it. -/
def MarkedStep (t : Marked) (call : HeapCall) (t' : Marked) : Prop :=
  HeapStep t.heap call t'.heap ∧ t' = t.after call t'.heap

/-- Right after `heap_init` nothing is recorded. -/
def Unmarked (t : Marked) : Prop := Initial t.heap ∧ ∀ p, ¬ t.cramped p

/-! ### `kfree` and the words it does not touch -/

theorem framed_joins (vars : HeapVars) (neighbour : Nat) : Framed (joins vars neighbour) := by
  unfold joins
  split_ifs
  · exact .bind (framed_load _) fun _ => framed_pure _
  · exact framed_pure _

theorem framed_setPrev (after block : Nat) : Framed (setPrev after block) := by
  unfold setPrev
  split_ifs
  · exact framed_store _ _
  · exact framed_pure _

theorem framed_mergeNext (vars : HeapVars) (block : Nat) : Framed (mergeNext vars block) := by
  unfold mergeNext
  refine .bind (framed_load _) fun next => .bind (framed_joins _ _) fun joined => ?_
  split_ifs
  · refine .bind (framed_load _) fun size => .bind (framed_load _) fun nextSize => ?_
    refine .bind (framed_store _ _) fun _ => .bind (framed_load _) fun nextNext => ?_
    refine .bind (framed_store _ _) fun _ => .bind (framed_load _) fun newSize => ?_
    exact .bind (framed_store _ _) fun _ => .bind (framed_load _) fun _ => framed_setPrev _ _
  · exact framed_pure _

theorem framed_mergePrev (vars : HeapVars) (block : Nat) : Framed (mergePrev vars block) := by
  unfold mergePrev
  refine .bind (framed_load _) fun prev => .bind (framed_joins _ _) fun joined => ?_
  split_ifs
  · refine .bind (framed_load _) fun prevSize => .bind (framed_load _) fun size => ?_
    refine .bind (framed_store _ _) fun _ => .bind (framed_load _) fun prev => ?_
    refine .bind (framed_load _) fun newSize => .bind (framed_store _ _) fun _ => ?_
    refine .bind (framed_load _) fun next => .bind (framed_load _) fun prev => ?_
    refine .bind (framed_store _ _) fun _ => .bind (framed_load _) fun after => ?_
    split_ifs
    · exact .bind (framed_load _) fun _ => framed_store _ _
    · exact framed_pure _
  · exact framed_pure _

theorem framed_lastBlock (fuel last : Nat) : Framed (lastBlock fuel last) := by
  induction fuel generalizing last with
  | zero => exact framed_pure _
  | succ fuel ih =>
    refine .bind (framed_load _) fun next => ?_
    split_ifs
    · exact framed_pure _
    · exact ih next

theorem framed_singleFree (head : Nat) : Framed (singleFree head) := by
  unfold singleFree
  refine .bind (framed_load _) fun free => ?_
  split_ifs
  · exact .bind (framed_load _) fun _ => framed_pure _
  · exact framed_pure _

theorem framed_giveBack (fuel : Nat) (vars : HeapVars) : Framed (giveBack fuel vars) := by
  unfold giveBack
  split_ifs
  · exact framed_pure _
  · refine .bind (framed_singleFree _) fun single => ?_
    split_ifs
    · exact framed_pure _
    · refine .bind (framed_lastBlock _ _) fun last => ?_
      rcases last with none | last
      · exact framed_pure _
      · exact .bind (framed_load _) fun _ => framed_pure _

theorem framed_kfreeBlock (fuel : Nat) (vars : HeapVars) (block : Nat) :
    Framed (kfreeBlock fuel vars block) := by
  unfold kfreeBlock
  refine .bind (framed_store _ _) fun _ => .bind (framed_mergeNext _ _) fun _ => ?_
  refine .bind (framed_mergePrev _ _) fun _ => ?_
  exact .bind (framed_giveBack _ _) fun _ => framed_pure _

theorem framed_kfree (fuel : Nat) (vars : HeapVars) (ptr : Nat) : Framed (kfree fuel vars ptr) := by
  unfold kfree
  dsimp only
  split_ifs
  · exact framed_pure _
  · exact framed_pure _
  · refine .bind (framed_load _) fun magic => ?_
    split_ifs
    · exact framed_pure _
    · refine .bind (framed_load _) fun size => .bind (framed_load _) fun tail => ?_
      split_ifs
      · exact framed_pure _
      · exact framed_pure _
      · refine .bind (framed_load _) fun free => ?_
        split_ifs
        · exact framed_pure _
        · exact framed_kfreeBlock _ _ _

/-! ### Tail words on the list -/

/-- A block below `heap_end` with room for its tail word. -/
def Tailed (vars : HeapVars) (b : Block) : Prop := tailSize ≤ b.slack ∧ b.addr < vars.heapEnd

/-- A block does not cross the edge; beyond it, it is the last one or a used part. -/
structure Sided (edge stop : Nat) (b : Block) : Prop where
  inside : b.addr < edge → b.addr + b.width ≤ edge
  beyond : edge ≤ b.addr → b.addr + b.width = stop ∨ b.slack = 0 ∧ b.free = false

/-- So do all blocks at `heap_end`. -/
def Edged (vars : HeapVars) (bs : List Block) (stop : Nat) : Prop :=
  ∀ b ∈ bs, Sided vars.heapEnd stop b

theorem canary_payload (held : HeapInv vars m bs stop) (member : x ∈ bs) :
    canary m x.payload = x.fin := by
  have low := held.stored.low member
  have top := held.stored.top
  have small := (addressed_of_stored held.stored x member).2
  obtain ⟨pre, post, rfl⟩ := List.append_of_mem member
  rw [canary, sub32_payload held member, sizeIn_eq held.stored.around.2.2.2.1 small]
  simp only [Block.fin, headerSize, tailSize, kernelHeapEnd] at low top ⊢
  simp (disch := omega) only [tailAt, headerSize, add32, wrap_of_lt]

theorem live_block (owns : Owns bs s.live) (live : Live s p) :
    ∃ x ∈ bs, x.free = false ∧ x.payload = p := by
  obtain ⟨a, inside, rfl⟩ := List.mem_map.mp live
  obtain ⟨x, member, used, here, -⟩ := owns.block a inside
  exact ⟨x, member, used, here⟩

theorem Tailed.below (tailed : Tailed vars b) (edged : Edged vars bs stop) (member : b ∈ bs) :
    b.fin + tailSize ≤ vars.heapEnd := by
  have inside := (edged b member).inside tailed.2
  have slack := tailed.1
  simp only [Block.fin, Block.width] at inside ⊢
  omega

/-- The tail word of a block in memory fits exactly if the block has one. -/
theorem tailFits_iff (held : HeapInv vars m (pre ++ x :: post) stop)
    (edged : Edged vars (pre ++ x :: post) stop) : TailFits vars m x.addr ↔ Tailed vars x := by
  have member : x ∈ pre ++ x :: post := by simp
  have small := (addressed_of_stored held.stored x member).2
  obtain ⟨-, after, -, header, -⟩ := held.stored.around
  have high := heapEnd_le held
  rw [TailFits, sizeIn_eq header small, nextIn_eq header small]
  constructor
  · rintro ⟨below, next⟩
    refine ⟨?_, by simp only [headerSize] at below; omega⟩
    cases post with
    | nil =>
      have stops : x.addr + x.width = stop := after
      simp only [Block.width] at stops
      omega
    | cons z post =>
      have here : z.addr = x.addr + x.width := after.1
      have ne := (addressed_of_stored held.stored z (by simp)).1
      have room := next ne
      simp only [headAddr_cons, Block.width] at room here
      omega
  · intro tailed
    have slack := tailed.1
    refine ⟨tailed.below edged member, fun more => ?_⟩
    cases post with
    | nil => exact absurd rfl more
    | cons z post =>
      have here : z.addr = x.addr + x.width := after.1
      simp only [headAddr_cons, Block.width] at here ⊢
      omega

/-! ### A damaged tail word -/

/-- The tail check refuses the block. -/
theorem run_kfree_damaged (held : HeapInv vars m bs stop) (member : x ∈ bs)
    (below : x.addr < vars.heapEnd) (damaged : wrap v ≠ heapMagic) (fuel : Nat) :
    ((kfree fuel vars x.payload).run (writeWord m x.fin v)).result =
        some (vars, some "Heap tail corruption detected!\n") ∧
      ((kfree fuel vars x.payload).run (writeWord m x.fin v)).mem = writeWord m x.fin v := by
  have low := (held.stored.low member).1
  have small := fin_small held.stored member
  obtain ⟨pre, post, rfl⟩ := List.append_of_mem member
  have header := held.stored.around.2.2.2.1
  have behind : x.payload ≤ x.fin := Nat.le_add_right ..
  simp only [Block.payload, headerSize] at behind
  have magic : readWord (writeWord m x.fin v) x.addr = heapMagic := by
    rw [readWord_writeWord_apart (by omega), header.magic]
  have size : readWord (writeWord m x.fin v) (x.addr + 4) = x.size := by
    rw [readWord_writeWord_apart (by omega), header.size]
  have tail : readWord (writeWord m x.fin v) x.fin ≠ heapMagic := by
    rwa [readWord_writeWord_same]
  have run := run_kfree_checks magic size (by rwa [held.start]) below (by omega) fuel
  rw [if_pos tail] at run
  generalize writeWord m x.fin v = m' at run ⊢
  rw [run]
  exact ⟨rfl, rfl⟩

/-- The tail words a release may touch lie behind the blocks before it and before
the tail words of the blocks behind it. -/
theorem tails_between
    (layout : Layout a (before ++ left.toList ++ x :: (right.toList ++ after)) stop)
    (slack : tailSize ≤ x.slack)
    (member : t ∈ [x.fin, (withNext x right).fin, (released left x right).fin]) :
    (∀ b ∈ before, b.addr + b.width ≤ t) ∧ ∀ b ∈ after, t + tailSize ≤ b.fin := by
  obtain ⟨c, first, here, rest⟩ := tiles_append.mp layout
  obtain ⟨d, first, atLeft⟩ := tiles_append.mp first
  obtain ⟨e, atRight, rest⟩ := tiles_append.mp rest
  have bounds : d ≤ t ∧ t + tailSize ≤ e + headerSize := by
    simp only [List.mem_cons, List.not_mem_nil, or_false] at member
    cases left <;> cases right <;>
      simp only [Option.toList_none, Option.toList_some, tiles_nil, tiles_cons, Block.width,
        Block.fin, withNext_none, withNext_some, withPrev_none, withPrev_some, released, release,
        join_addr, join_size, headerSize, tailSize] at * <;>
      omega
  refine ⟨fun b inside => (first.mem inside).2.trans bounds.1, fun b inside => ?_⟩
  have low := (rest.mem inside).1
  simp only [Block.fin]
  omega

/-- A block in use whose payload ends below `heap_end` passes every check. -/
theorem run_kfree_below (held : HeapInv vars m (pre ++ x :: post) stop) (used : x.free = false)
    (ends : x.fin ≤ vars.heapEnd) (fuel : Nat) :
    x.addr < vars.heapEnd ∧ (kfree fuel vars x.payload).run m =
      ⟨((kfreeBlock fuel vars x.addr).run m).result, ((kfreeBlock fuel vars x.addr).run m).mem,
        ([.load x.addr, .load (x.addr + 4), .load x.fin, .load (x.addr + 8)] : List Access) ++
          ((kfreeBlock fuel vars x.addr).run m).log⟩ := by
  have member : x ∈ pre ++ x :: post := by simp
  have low := (held.stored.low member).1
  have top := held.stored.top
  have high := heapEnd_le held
  have positive := (held.stored.wf x member).positive
  have small : vars.heapEnd < 2 ^ 32 := by
    simp only [tailSize, kernelHeapEnd] at top
    omega
  refine ⟨?_, run_kfree_passed held.stored.around.2.2.2.1 used positive ?_ ends small fuel⟩
  · simp only [Block.fin, headerSize] at ends
    omega
  · rwa [held.start]

theorem kfree_touches (held : HeapInv vars m (pre ++ x :: post) stop) (used : x.free = false)
    (around : Neighbours vars.heapEnd pre post left right before after)
    (ends : x.fin ≤ vars.heapEnd) (room : MergeRoom r vars m x.addr) (fuel : Nat) :
    ∀ acc ∈ ((kfree fuel vars x.payload).run m).log, Touches (pre ++ x :: post)
      [x.fin, (withNext x right).fin, (released left x right).fin] acc := by
  have member : x ∈ pre ++ x :: post := by simp
  obtain ⟨below, run⟩ := run_kfree_below held used ends fuel
  have touches := (kfreeBlock_refines held around below room fuel).2
  rw [run]
  simp only [List.forall_mem_append, List.forall_mem_cons, List.not_mem_nil, false_imp_iff,
    implies_true, and_true]
  refine ⟨⟨touches_header member 0, touches_header member 4,
    touches_tail (by simp [Access.addr]), touches_header member 8⟩, ?_⟩
  exact fun acc inside => (touches acc inside).mono (fun b here => ⟨b, here, rfl⟩)
    (List.subset_cons_self ..)

/-- No word a release touches is the tail word of another block in use. -/
theorem tail_untouched (layout : Layout a (pre ++ x :: post) stop)
    (around : Neighbours edge pre post left right before after) (slack : tailSize ≤ x.slack)
    (member : b ∈ pre ++ post) (used : b.free = false) (own : tailSize ≤ b.slack)
    (touches : Touches (pre ++ x :: post)
      [x.fin, (withNext x right).fin, (released left x right).fin] acc) :
    Apart b.fin acc.addr := by
  rcases touches with ⟨c, inside, low, high⟩ | inside
  · simp only [headerSize, tailSize] at high own
    rcases blocks_apart layout (mem_whole x member) inside with rfl | apart
    · simp only [Block.fin, headerSize]
      omega
    · simp only [Block.fin, Block.width, headerSize] at apart ⊢
      omega
  · obtain ⟨rfl, rfl, leftFree, rightFree, -⟩ := around
    obtain ⟨behind, ahead⟩ := tails_between layout slack inside
    simp only [List.mem_append, Option.mem_toList] at member
    rcases member with (member | member) | member | member
    · have room := behind b member
      simp only [Block.fin, Block.width, tailSize] at room own ⊢
      omega
    · rw [(leftFree b member).1] at used
      cases used
    · rw [(rightFree b member).1] at used
      cases used
    · exact .inr (ahead b member)

/-- The tail word of another block in use may hold anything: the release does the
same and leaves it. -/
theorem run_kfree_beside (held : HeapInv vars m (pre ++ x :: post) stop) (used : x.free = false)
    (slack : tailSize ≤ x.slack) (ends : x.fin ≤ vars.heapEnd) (room : MergeRoom r vars m x.addr)
    (member : b ∈ pre ++ post) (usedB : b.free = false) (own : tailSize ≤ b.slack) (v fuel : Nat) :
    ((kfree fuel vars x.payload).run (writeWord m b.fin v)).result =
        ((kfree fuel vars x.payload).run m).result ∧
      ((kfree fuel vars x.payload).run (writeWord m b.fin v)).mem =
        writeWord ((kfree fuel vars x.payload).run m).mem b.fin v := by
  obtain ⟨left, right, before, after, around⟩ := neighbours_exist vars.heapEnd pre post
  refine (framed_kfree fuel vars x.payload).same fun acc inside => ?_
  exact tail_untouched held.stored.layout around slack member usedB own
    (kfree_touches held used around ends room fuel acc inside)

/-- A release of a block below `heap_end` ends, and prints nothing. -/
theorem kfree_silent (held : HeapInv vars m (pre ++ x :: post) stop) (used : x.free = false)
    (ends : x.fin ≤ vars.heapEnd) (room : MergeRoom r vars m x.addr)
    (enough : pre.length + post.length < fuel) :
    ∃ vars', ((kfree fuel vars x.payload).run m).result = some (vars', none) := by
  obtain ⟨left, right, before, after, around⟩ := neighbours_exist vars.heapEnd pre post
  obtain ⟨below, run⟩ := run_kfree_below held used ends fuel
  have frees := (kfreeBlock_refines held around below room fuel).1
  have total := frees.total (by
    obtain ⟨rfl, rfl, -⟩ := around
    simp only [List.length_append] at enough
    omega)
  obtain ⟨⟨vars', msg⟩, result⟩ := Option.ne_none_iff_exists'.mp total
  obtain ⟨rfl, -⟩ := frees.result vars' msg result
  rw [run]
  exact ⟨vars', result⟩

/-! ### What isolates a tail word -/

theorem room_of_releases (held : HeapInv s.vars s.mem bs stop) (member : x ∈ bs)
    (live : Live s x.payload)
    (releases : ∀ ptr, Legal s (.kfree ptr) → Roomy 0 s (.kfree ptr)) :
    MergeRoom 0 s.vars s.mem x.addr := by
  have small : x.payload < 2 ^ 32 := (addressed_of_stored held.stored x member).2
  have pointer : (UInt32.ofNat x.payload).toNat = x.payload := UInt32.toNat_ofNat_of_lt' small
  have room := releases (UInt32.ofNat x.payload) (by rwa [Legal, pointer])
  rwa [Roomy, pointer, sub32_payload held member] at room

/-- Tail words of their own isolate the live blocks. -/
theorem isolated_of_tailed (held : Represents s bs stop) (edged : Edged s.vars bs stop)
    (tailed : ∀ b ∈ bs, Live s b.payload → Tailed s.vars b)
    (releases : ∀ ptr, Legal s (.kfree ptr) → Roomy 0 s (.kfree ptr)) : Isolated s := by
  obtain ⟨inv, owns⟩ := held
  refine ⟨fun p live => ?_, fun p live b listed other => ?_, fun p live v damaged fuel => ?_,
    fun p live q liveQ other v => ?_⟩
  all_goals obtain ⟨x, member, used, rfl⟩ := live_block owns live
  all_goals rw [canary_payload inv member]
  · exact (tailed x member live).below edged member
  · obtain ⟨y, inside, rfl⟩ := (listed_iff inv.stored inv.head).mp listed
    have slack := (tailed x member live).1
    have small := (addressed_of_stored inv.stored y inside).2
    obtain ⟨pre, post, same⟩ := List.append_of_mem inside
    rw [sizeIn_eq (same ▸ inv.stored).around.2.2.2.1 small]
    rw [sub32_payload inv member] at other
    rcases blocks_apart inv.stored.layout member inside with rfl | apart
    · exact absurd rfl other
    · simp only [Block.fin, Block.width] at apart ⊢
      omega
  · exact run_kfree_damaged inv member (tailed x member live).2 damaged fuel
  · obtain ⟨y, inside, usedY, rfl⟩ := live_block owns liveQ
    have room := room_of_releases inv inside liveQ releases
    have tailedY := tailed y inside liveQ
    have ends := tailedY.below edged inside
    have endsY : y.fin ≤ s.vars.heapEnd := by omega
    have slack := (tailed x member live).1
    obtain ⟨pre, post, rfl⟩ := List.append_of_mem inside
    have beside : x ∈ pre ++ post := by
      refine mem_beside member ?_
      rintro rfl
      exact other rfl
    refine ⟨pre.length + post.length + 1, fun fuel enough => ?_⟩
    exact ⟨kfree_silent inv usedY endsY room enough,
      run_kfree_beside inv usedY tailedY.1 endsY room beside used slack v fuel⟩

/-- A live block whose tail word is isolated has one. -/
theorem tailed_of_isolated (held : HeapInv s.vars s.mem bs stop) (edged : Edged s.vars bs stop)
    (isolated : Isolated s) (member : x ∈ bs) (live : Live s x.payload) : Tailed s.vars x := by
  have below := isolated.below _ live
  have apart := isolated.apart _ live
  rw [canary_payload held member] at below apart
  rw [sub32_payload held member] at apart
  have listed := fun a => listed_iff (a := a) held.stored held.head
  have addressed := addressed_of_stored held.stored
  obtain ⟨pre, post, rfl⟩ := List.append_of_mem member
  obtain ⟨-, after, -, header, -⟩ := held.stored.around
  rw [← tailFits_iff held edged, TailFits, sizeIn_eq header (addressed x member).2,
    nextIn_eq header (addressed x member).2]
  refine ⟨below, fun more => ?_⟩
  cases post with
  | nil => exact absurd rfl more
  | cons z post =>
    have here : z.addr = x.addr + x.width := after.1
    have away := apart z.addr ((listed _).mpr ⟨z, by simp, rfl⟩) (by
      simp only [Block.width, headerSize] at here
      omega)
    simp only [headAddr_cons, Block.fin, Block.width, headerSize] at here away ⊢
    omega

/-! ### The calls and `heap_end` -/

theorem last_ends (layout : Layout a bs e) (isLast : bs.getLast? = some l) :
    l.addr + l.width = e := by
  obtain ⟨pre, rfl⟩ := List.getLast?_eq_some_iff.mp isLast
  obtain ⟨c, -, here, ends⟩ := tiles_append.mp layout
  rwa [here]

/-- What becomes of a free block lies on the same side of the edge as the block. -/
theorem carve_sided (free : x.free = true) (sided : Sided edge stop x)
    (member : b ∈ carve x size) : Sided edge stop b := by
  obtain ⟨inside, beyond⟩ := sided
  have ends : edge ≤ x.addr → x.addr + x.width = stop :=
    fun high => (beyond high).resolve_right (by simp [free])
  unfold carve at member
  split_ifs at member with splits
  · simp only [Splits, headerSize, tailSize, minBlockSize] at splits
    simp only [List.mem_cons, List.not_mem_nil, or_false] at member
    rcases member with rfl | rfl <;> constructor <;>
      simp only [splitFirst, splitRest, Block.width, headerSize, tailSize, and_self, or_true,
        implies_true] at inside ends ⊢ <;>
      omega
  · cases List.mem_singleton.mp member
    exact ⟨inside, fun high => .inl (ends high)⟩

theorem Alloc.edged (alloc : Alloc vars size bs stop vars' bs' stop' ptr)
    (held : HeapInv vars m bs stop) (edged : Edged vars bs stop) : Edged vars' bs' stop' := by
  cases alloc with
  | refused => exact edged
  | first empty new =>
    subst new
    intro b member
    cases List.mem_singleton.mp member
    constructor <;> simp [Block.fin, Block.width, Nat.add_assoc]
  | @reuse pre x post same fit =>
    subst same
    simp only [fits, Bool.and_eq_true] at fit
    intro b member
    simp only [List.mem_append] at member
    rcases member with (member | member) | member
    · exact edged b (by simp [member])
    · exact carve_sided fit.1 (edged x (by simp)) member
    · exact edged b (by simp [member])
  | @append b nonempty atStop new =>
    subst new
    intro c member
    have ends : c.addr + c.width ≤ stop + headerSize + size + tailSize := by
      rcases List.mem_append.mp member with member | member
      · have bound := (held.stored.layout.mem member).2
        omega
      · cases List.mem_singleton.mp member
        simp only [Block.width]
        omega
    refine ⟨fun _ => ends, fun high => ?_⟩
    simp only [Block.fin, Block.width, headerSize] at ends high
    omega

/-- A release leaves one block below `heap_end` in the place of those it joins. -/
theorem released_edged (held : HeapInv vars m (pre ++ x :: post) stop)
    (around : Neighbours vars.heapEnd pre post left right before after)
    (below : x.addr < vars.heapEnd) (edged : Edged vars (pre ++ x :: post) stop)
    (layout : Layout kernelHeapStart (before ++ released left x right :: after) stop) :
    Edged vars (before ++ released left x right :: after) stop := by
  have rest := held.stored.around.2.1
  obtain ⟨rfl, rfl, -, rightFree, -⟩ := around
  have low : (released left x right).addr < vars.heapEnd :=
    (released_addr_le held.stored).trans_lt below
  have ends : (released left x right).addr + (released left x right).width ≤ vars.heapEnd := by
    obtain ⟨c, -, here, behind⟩ := tiles_append.mp layout
    obtain ⟨e, joined, further⟩ := tiles_append.mp rest
    have same := behind.start_eq further
    cases right with
    | none =>
      have bound := (edged x (by simp)).inside below
      simp only [Option.toList_none, tiles_nil] at joined
      omega
    | some y =>
      have bound := (edged y (by simp)).inside (rightFree y rfl).2
      simp only [Option.toList_some, tiles_cons, tiles_nil] at joined
      omega
  intro b member
  by_cases here : b = released left x right
  · rw [here]
    exact ⟨fun _ => ends, fun high => absurd low (Nat.not_lt.mpr high)⟩
  · apply edged
    rcases List.mem_append.mp (mem_beside member here) with member | member <;> simp [member]

theorem GivesBack.edged (given : GivesBack vars bs stop vars' bs' stop')
    (layout : Layout a bs stop) (edged : Edged vars bs stop) : Edged vars' bs' stop' := by
  cases given with
  | reset => simp [Edged]
  | keep => exact edged
  | @lower l more isLast free =>
    intro b inside
    have ends := last_ends layout isLast
    have bound := (layout.mem inside).2
    have apart := blocks_apart layout inside (List.mem_of_getLast? isLast)
    refine ⟨fun low => ?_, fun high => ?_⟩
    all_goals simp only [Block.width, headerSize] at *
    · rcases apart with rfl | apart
      · omega
      · omega
    · rcases apart with rfl | apart
      · exact .inl ends
      · omega

/-- An allocation leaves the tail words that blocks have. -/
theorem Alloc.tailed (alloc : Alloc vars size bs stop vars' bs' stop' ptr)
    (layout : Layout a bs stop) (member : b ∈ bs) : Tailed vars' b ↔ Tailed vars b := by
  cases alloc with
  | refused => exact Iff.rfl
  | first empty => simp [empty] at member
  | reuse => exact Iff.rfl
  | append nonempty atStop new =>
    subst new
    have bound := (layout.mem member).2
    simp only [Block.width, headerSize] at bound
    have below : b.addr < vars.heapEnd := by omega
    have behind : b.addr < stop + headerSize + size + tailSize := by omega
    exact and_congr_right' (iff_of_true behind below)

/-- So does a give-back to the blocks in use that stay. -/
theorem GivesBack.tailed (given : GivesBack vars bs stop vars' bs' stop')
    (layout : Layout a bs stop) (edged : Edged vars bs stop) (member : b ∈ bs) (stays : b ∈ bs')
    (used : b.free = false) : Tailed vars' b ↔ Tailed vars b := by
  cases given with
  | reset => cases stays
  | keep => exact Iff.rfl
  | @lower l more isLast free =>
    have ends := last_ends layout isLast
    have bound := (layout.mem member).2
    have before : b.addr + b.width ≤ l.addr := by
      rcases blocks_apart layout member (List.mem_of_getLast? isLast) with rfl | apart
      · rw [free] at used
        cases used
      · simp only [Block.width, headerSize] at *
        omega
    refine and_congr_right fun slack => iff_of_true ?_ ?_
    · simp only [Block.width, headerSize] at before
      exact (by omega : b.addr < l.addr)
    · by_contra high
      rcases (edged b member).beyond (Nat.le_of_not_lt high) with atStop | ⟨none, -⟩
      · simp only [Block.width, headerSize] at *
        omega
      · rw [none] at slack
        exact absurd slack (by decide)

/-! ### What an allocation hands out -/

/-- The block reused is the first one that fits. -/
theorem firstFit_of_reuse (held : HeapInv vars m (pre ++ x :: post) stop)
    (fit : fits (alignUp size) x = true)
    (result : ((kmalloc fuel vars size).run m).result = some (vars', x.payload)) :
    FirstFit m (alignUp size) vars.heapHead x.addr := by
  have member : x ∈ pre ++ x :: post := by simp
  have addressed := addressed_of_stored held.stored
  have header := held.stored.around.2.2.2.1
  have small := (addressed x member).2
  have listed : Listed vars m x.addr := (listed_iff held.stored held.head).mpr ⟨x, member, rfl⟩
  have here : Fits m (alignUp size) x.addr := by
    rw [Fits, freeIn_eq header small, sizeIn_eq header small, Block.flag_ne_zero]
    simpa [fits] using fit
  obtain ⟨c, first⟩ := exists_firstFit listed here
  have nonempty := nonempty_of_listed listed
  have ne : x.payload ≠ 0 := by simp [Block.payload, headerSize]
  have answer := (answer_of_firstFit result ne nonempty first).2
  obtain ⟨y, inside, rfl⟩ :=
    (listed_iff held.stored held.head).mp (first.listed (.head nonempty)).1
  have same : x.payload = y.addr + headerSize := answer.trans (add32_of_lt (addressed y inside).2)
  rwa [Nat.add_right_cancel same]

/-- A reuse is cramped exactly if it splits the block or the block has no tail word. -/
theorem cramps_reuse (held : HeapInv vars m (pre ++ x :: post) stop)
    (edged : Edged vars (pre ++ x :: post) stop)
    (first : FirstFit m (alignUp size) vars.heapHead x.addr) :
    Cramps vars m size ↔ Splits x (alignUp size) ∨ ¬ Tailed vars x := by
  have small := (addressed_of_stored held.stored x (by simp)).2
  have nonempty : vars.heapHead ≠ 0 := fun empty => by simpa using held.head_eq_zero.mp empty
  rw [← tailFits_iff held edged, Splits, ← sizeIn_eq held.stored.around.2.2.2.1 small]
  constructor
  · rintro (empty | ⟨c, other, cramped⟩)
    · exact absurd empty nonempty
    · rwa [first.unique other]
  · exact fun cramped => .inr ⟨x.addr, first, cramped⟩

/-- An allocation is cramped exactly if the block it hands out has no tail word. -/
theorem cramps_iff (held : HeapInv vars m bs stop) (edged : Edged vars bs stop)
    (result : ((kmalloc fuel vars size).run m).result = some (vars', ptr)) (ne : ptr ≠ 0)
    (alloc : Alloc vars (alignUp size) bs stop vars' bs' stop' ptr)
    (layout : Layout a bs' stop') (member : b ∈ bs') (here : b.payload = ptr) :
    Cramps vars m size ↔ ¬ Tailed vars' b := by
  have bare : ∀ c : Block, c.slack = 0 → ¬ Tailed vars' c := by
    intro c none tailed
    rw [Tailed, none] at tailed
    exact absurd tailed.1 (by decide)
  -- the block handed out is the one of the new list with this address
  have handed : ∀ c ∈ bs', c.payload = ptr → b = c := fun c inside same =>
    layout_inj layout member inside (Nat.add_right_cancel (here.trans same.symm))
  cases alloc with
  | refused => exact absurd rfl ne
  | first empty new =>
    subst empty new
    rw [handed _ (by simp) rfl]
    exact iff_of_true (.inl (held.head_eq_zero.mpr rfl)) (bare _ rfl)
  | @reuse pre x post same fit =>
    subst same
    rw [cramps_reuse held edged (firstFit_of_reuse held fit result)]
    by_cases splits : Splits x (alignUp size)
    · rw [handed (splitFirst x (alignUp size)) (by simp [carve, splits]) rfl]
      exact iff_of_true (.inl splits) (bare _ rfl)
    · rw [handed { x with free := false } (by simp [carve, splits]) rfl, or_iff_right splits]
      exact Iff.rfl
  | @append new nonempty atStop same =>
    have listed : vars.heapHead ≠ 0 := fun empty => nonempty (held.head_eq_zero.mp empty)
    have cramped : ¬ Cramps vars m size := by
      rintro (empty | ⟨c, first, -⟩)
      · exact listed empty
      · have kept := congrArg HeapVars.heapEnd (answer_of_firstFit result ne listed first).1
        simp only [same, Block.fin, headerSize, atStop] at kept
        omega
    rw [handed new (by simp) rfl]
    refine iff_of_false cramped (not_not.mpr ?_)
    rw [same]
    refine ⟨Nat.le_refl _, ?_⟩
    simp only [Block.fin, headerSize]
    omega

/-! ### The record along a run -/

/-- The blocks behind a state, and what the record says of the live ones. -/
structure Tracked (t : Marked) (bs : List Block) (stop : Nat) : Prop where
  represents : Represents t.heap bs stop
  edged : Edged t.heap.vars bs stop
  live : ∀ p, t.cramped p → Live t.heap p
  marked : ∀ b ∈ bs, Live t.heap b.payload → (t.cramped b.payload ↔ ¬ Tailed t.heap.vars b)

/-- The record stays right when the call leaves the tail words of the blocks that
were live and is cramped exactly if the new block has none. -/
theorem Tracked.after (tracked : Tracked t bs stop) (held : Represents s' bs' stop')
    (edged : Edged s'.vars bs' stop')
    (old : ∀ b ∈ bs, b.free = false → Live s' b.payload →
      b ∈ bs' ∧ (Tailed s'.vars b ↔ Tailed t.heap.vars b))
    (new : ∀ b ∈ bs', Live s' b.payload → ¬ Live t.heap b.payload →
      ((∃ size, call = .kmalloc size ∧ Cramps t.heap.vars t.heap.mem size.toNat) ↔
        ¬ Tailed s'.vars b)) :
    Tracked (t.after call s') bs' stop' := by
  refine ⟨held, edged, fun p cramped => cramped.1, fun b member live => ?_⟩
  by_cases was : Live t.heap b.payload
  · obtain ⟨x, inside, used, here⟩ := live_block tracked.represents.2 was
    obtain ⟨stays, same⟩ := old x inside used (by rwa [here])
    obtain rfl : x = b :=
      layout_inj held.1.stored.layout stays member (Nat.add_right_cancel here)
    have marked := tracked.marked x inside was
    rw [← same] at marked
    refine Iff.trans ⟨fun cramped => ?_, fun kept => ⟨live, .inl kept⟩⟩ marked
    exact cramped.2.resolve_right fun new => new.1 was
  · refine Iff.trans ⟨fun cramped => ?_, fun given => ⟨live, .inr ⟨was, given⟩⟩⟩ (new b member live was)
    exact (cramped.2.resolve_left fun kept => was (tracked.live _ kept)).2

theorem tracked_kmalloc (tracked : Tracked t bs stop) (roomy : Roomy 0 t.heap (.kmalloc size))
    (step : HeapStep t.heap (.kmalloc size) s') :
    ∃ bs' stop', Tracked (t.after (.kmalloc size) s') bs' stop' := by
  obtain ⟨fuel, ptr, bs', stop', result, alloc, live, held'⟩ :=
    kmalloc_cases tracked.represents roomy step
  have inv := tracked.represents.1
  refine ⟨bs', stop', tracked.after held' (Alloc.edged alloc inv tracked.edged)
    (fun b member used _ => ?_) fun b member now was => ?_⟩
  · exact ⟨alloc.keeps member (by simp [used]), Alloc.tailed alloc inv.stored.layout member⟩
  · have new : ptr ≠ 0 ∧ b.payload = ptr := by
      rw [Live, live] at now
      split_ifs at now with null
      · exact absurd now was
      · exact ⟨null, (List.mem_cons.mp now).resolve_right was⟩
    rw [← cramps_iff inv tracked.edged result new.1 alloc held'.1.stored.layout member new.2]
    constructor
    · rintro ⟨_, ⟨⟩, cramps⟩
      exact cramps
    · exact fun cramps => ⟨size, rfl, cramps⟩

/-- A release ends the life of the pointer it is given. -/
theorem live_of_release (step : HeapStep s (.kfree ptr) s') (live : Live s' p) :
    Live s p ∧ p ≠ ptr.toNat := by
  obtain ⟨fuel, returned⟩ := step
  simp only [HeapState.call, Option.map_eq_some_iff] at returned
  obtain ⟨answer, -, rfl⟩ := returned
  obtain ⟨a, inside, rfl⟩ := List.mem_map.mp live
  obtain ⟨inside, other⟩ := List.mem_filter.mp inside
  exact ⟨List.mem_map_of_mem inside, by simpa using other⟩

/-- A give-back empties the list or leaves it. -/
theorem GivesBack.list (given : GivesBack vars bs stop vars' bs' stop') :
    bs' = [] ∨ bs' = bs ∧ stop' = stop := by
  cases given with
  | reset => exact .inl rfl
  | lower => exact .inr ⟨rfl, rfl⟩
  | keep => exact .inr ⟨rfl, rfl⟩

theorem tracked_kfree (tracked : Tracked t bs stop) (legal : Legal t.heap (.kfree ptr))
    (roomy : Roomy 0 t.heap (.kfree ptr)) (step : HeapStep t.heap (.kfree ptr) s') :
    ∃ bs' stop', Tracked (t.after (.kfree ptr) s') bs' stop' := by
  obtain ⟨bs', stop', did, held', choice⟩ := kfree_cases tracked.represents legal roomy step
  have inv := tracked.represents.1
  refine ⟨bs', stop', ?_⟩
  suffices kept : Edged s'.vars bs' stop' ∧ ∀ b ∈ bs, b.free = false → Live s' b.payload →
      b ∈ bs' ∧ (Tailed s'.vars b ↔ Tailed t.heap.vars b) from
    tracked.after held' kept.1 kept.2 fun b _ now was =>
      absurd (live_of_release step now).1 was
  have unchanged : s'.vars = t.heap.vars → Edged s'.vars bs stop ∧ ∀ b ∈ bs, b.free = false →
      Live s' b.payload → b ∈ bs ∧ (Tailed s'.vars b ↔ Tailed t.heap.vars b) := by
    intro same
    rw [same]
    exact ⟨tracked.edged, fun b member _ _ => ⟨member, Iff.rfl⟩⟩
  cases did with
  | refused _ same => exact unchanged same
  | @kfree _ _ pre x post left right before after _ _ same here used around given =>
    subst same
    rcases choice with ⟨same, rfl, rfl⟩ | below
    · exact unchanged same
    rw [here, sub32_payload inv (by simp)] at below
    have stays : ∀ b ∈ pre ++ x :: post, b.free = false → Live s' b.payload →
        b ∈ before ++ released left x right :: after := by
      intro b member usedB live
      have other := (live_of_release step live).2
      rw [here] at other
      refine used_released around (mem_beside member ?_) usedB
      rintro rfl
      exact other rfl
    rcases GivesBack.list given with rfl | ⟨rfl, rfl⟩
    · refine ⟨by simp [Edged], fun b member usedB live => ?_⟩
      cases given.used (stays b member usedB live) usedB
    · have layout := held'.1.stored.layout
      have edged := released_edged inv around below tracked.edged layout
      refine ⟨GivesBack.edged given layout edged, fun b member usedB live => ?_⟩
      have inside := stays b member usedB live
      exact ⟨inside, GivesBack.tailed given layout edged inside inside usedB⟩

theorem tracked_step (tracked : Tracked t bs stop) (legal : Legal t.heap call)
    (roomy : Roomy 0 t.heap call) (step : MarkedStep t call t') :
    ∃ bs' stop', Tracked t' bs' stop' := by
  obtain ⟨step, same⟩ := step
  rw [same]
  cases call with
  | kmalloc size => exact tracked_kmalloc tracked roomy step
  | kfree ptr => exact tracked_kfree tracked legal roomy step

theorem tracked_reached (reached : Reachable Unmarked
    (Guarded (fun t call => Legal t.heap call ∧ Roomy 0 t.heap call) MarkedStep) t) :
    ∃ bs stop, Tracked t bs stop := by
  refine reached.induct (fun t => ∃ bs stop, Tracked t bs stop) ?_ ?_
  · rintro ⟨⟨vars, m, live⟩, cramped⟩ ⟨⟨rfl, rfl⟩, unmarked⟩
    exact ⟨[], kernelHeapStart, ⟨heapInit_inv m, List.Pairwise.nil, by simp⟩,
      by simp [Edged], fun p marked => absurd marked (unmarked p), by simp⟩
  · rintro t call t' ⟨bs, stop, tracked⟩ ⟨⟨legal, roomy⟩, step⟩
    exact tracked_step tracked legal roomy step

/-- Every run of the heap has its record. -/
theorem marked_of_reached {guard : HeapState → HeapCall → Prop}
    (reached : Reachable Initial (Guarded guard HeapStep) s) :
    ∃ t, t.heap = s ∧
      Reachable Unmarked (Guarded (fun t call => guard t.heap call) MarkedStep) t := by
  induction reached with
  | @start s initial => exact ⟨⟨s, fun _ => False⟩, rfl, .start ⟨initial, fun _ => id⟩⟩
  | @next s s' call _ taken ih =>
    obtain ⟨t, rfl, reached⟩ := ih
    exact ⟨t.after call s', rfl, reached.next ⟨taken.1, taken.2, rfl⟩⟩

/-- In every run of calls that meet their conditions, whose next release has room
for its tail words, a damaged tail word is a matter of its own block exactly when
no live pointer was handed out cramped. -/
theorem tails_isolated (reached : Reachable Unmarked
      (Guarded (fun t call => Legal t.heap call ∧ Roomy 0 t.heap call) MarkedStep) t)
    (releases : ∀ ptr, Legal t.heap (.kfree ptr) → Roomy 0 t.heap (.kfree ptr)) :
    Isolated t.heap ↔ ∀ p, ¬ t.cramped p := by
  obtain ⟨bs, stop, held, edged, live, marked⟩ := tracked_reached reached
  constructor
  · intro isolated p cramped
    obtain ⟨x, member, -, rfl⟩ := live_block held.2 (live p cramped)
    exact (marked x member (live _ cramped)).mp cramped
      (tailed_of_isolated held.1 edged isolated member (live _ cramped))
  · intro none
    refine isolated_of_tailed held edged (fun b member isLive => ?_) releases
    by_contra bare
    exact none _ ((marked b member isLive).mpr bare)

/-- One block, a second one behind it, and the first one released. -/
def oneUsed : HeapState := .after [.kmalloc 8]
def twoUsed : HeapState := .after [.kmalloc 8, .kmalloc 8]
def firstReleased : HeapState := .after [.kmalloc 8, .kmalloc 8, .kfree 0x400014]

def oneMarked : Marked := Marked.after ⟨clearHeap, fun _ => False⟩ (.kmalloc 8) oneUsed
def twoMarked : Marked := oneMarked.after (.kmalloc 8) twoUsed
def firstReleasedMarked : Marked := twoMarked.after (.kfree 0x400014) firstReleased

theorem marked_next (reached : Reachable Unmarked
      (Guarded (fun t call => Legal t.heap call ∧ Roomy 0 t.heap call) MarkedStep) t)
    (legal : Legal t.heap call) (roomy : Roomy 0 t.heap call) (step : HeapStep t.heap call s') :
    Reachable Unmarked (Guarded (fun t call => Legal t.heap call ∧ Roomy 0 t.heap call) MarkedStep)
      (t.after call s') :=
  reached.next ⟨⟨legal, roomy⟩, step, rfl⟩

theorem oneUsed_listed (listed : Listed oneUsed.vars oneUsed.mem b) : b = 0x400000 := by
  have last : nextIn oneUsed.mem 0x400000 = 0 := by decide
  have follows : Follows oneUsed.mem oneUsed.vars.heapHead [0x400000] :=
    ⟨by decide, by decide, last⟩
  exact List.mem_singleton.mp ((follows_listed follows).mp listed)

theorem firstReleased_reached : Reachable Unmarked
    (Guarded (fun t call => Legal t.heap call ∧ Roomy 0 t.heap call) MarkedStep)
    firstReleasedMarked := by
  have sound : Roomy 0 oneUsed (.kmalloc 8) := by
    refine fun _ => ⟨fun b listed => ?_, by decide⟩
    rw [oneUsed_listed listed]
    decide
  have room : Roomy 0 twoUsed (.kfree 0x400014) :=
    ⟨fun merges => absurd merges (by decide), fun merges => absurd merges (by decide),
      fun merges => absurd merges (by decide)⟩
  have start : Unmarked ⟨clearHeap, fun _ => False⟩ := ⟨clearHeap_initial, fun _ => id⟩
  refine marked_next (marked_next (marked_next (.start start) trivial (roomy_empty rfl) ?_)
    trivial sound ?_) (by decide) room ?_
  · exact ⟨9, rfl⟩
  · exact ⟨9, rfl⟩
  · exact ⟨9, rfl⟩

theorem firstReleased_live (live : Live firstReleased p) : p = 0x400030 := by
  have listed : firstReleased.live.map Prod.fst = [0x400030] := by decide
  rw [Live, listed] at live
  exact List.mem_singleton.mp live

theorem oneUsed_not_cramped : ¬ Cramps oneUsed.vars oneUsed.mem 8 := by
  rintro (empty | ⟨b, first, -⟩)
  · exact absurd empty (by decide)
  · cases first with
    | here fits => exact absurd fits (by decide)
    | later _ more => exact absurd more (by decide)

/-- The block behind the first one has a tail word of its own. -/
theorem tails_isolated_firstReleased : Isolated firstReleased := by
  refine (tails_isolated firstReleased_reached fun ptr legal => ?_).mpr ?_
  · have here : ptr.toNat = 0x400030 := firstReleased_live legal
    have last : nextAfter firstReleased.vars firstReleased.mem 0x40001c = 0 := by decide
    have room : MergeRoom 0 firstReleased.vars firstReleased.mem 0x40001c := by
      refine ⟨fun _ more => absurd last more, fun _ more => absurd last more, fun _ => ?_⟩
      exact .inr (by decide)
    rw [Roomy, here]
    exact room
  · rintro p ⟨live, (⟨-, (⟨early, -⟩ | ⟨-, size, same, cramps⟩)⟩ | ⟨-, size, same, -⟩)⟩
    · rw [firstReleased_live live] at early
      exact absurd early (by decide)
    · cases same
      exact oneUsed_not_cramped cramps
    · cases same

/-- The tail word of the first block starts at `heap_end`. -/
theorem first_tail_beyond_heap :
    ¬ ∀ s, Reachable Initial (Guarded Legal HeapStep) s → Isolated s := by
  intro claim
  have below := (claim oneUsed (after_reached (by decide))).below 0x400014 (by decide)
  exact absurd below (by decide)

end ZynthexOS.HeapCanaries
