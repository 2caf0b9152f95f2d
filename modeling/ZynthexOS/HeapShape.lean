import Mathlib.Data.List.Chain
import ZynthexOS.HeapRuns
import ZynthexOS.HeapWalks

/-! The shape of the block list over whole runs. While no release leaves a free
block at the end of a longer list, `heap_end` is exactly where the blocks end,
no two neighbours are free, and the used blocks are the live ones; the list is
then well formed, every loop over it ends, and freeing everything brings the
allocator back to where it started. -/
namespace ZynthexOS.HeapShape
open Lib Lib.Memory Mm HeapLayout HeapRepresentation HeapPrograms HeapConditions HeapAllocation
  HeapRelease HeapRuns HeapWalks

/-! ## The invariant -/

/-- No two neighbours are both free. -/
def Coalesced (bs : List Block) : Prop := bs.IsChain fun x y => ¬ (x.free = true ∧ y.free = true)

/-- The blocks behind a state whose `heap_end` was never left behind a block. -/
structure Tidy (s : HeapState) (bs : List Block) (stop : Nat) : Prop where
  represents : Represents s bs stop
  edge : s.vars.heapEnd = stop
  coalesced : Coalesced bs
  owned : ∀ b ∈ bs, b.free = false → b.payload ∈ s.live.map Prod.fst

/-- A release that keeps `heap_end` at the end of the list. -/
def Tops (s : HeapState) : HeapCall → Prop
  | .kmalloc _ => True
  | .kfree ptr => KeepsTop s.vars s.mem (sub32 ptr.toNat headerSize)

/-- A legal call with room for its tail words that keeps the top. -/
def TidyCall (s : HeapState) (call : HeapCall) : Prop :=
  Legal s call ∧ Roomy 0 s call ∧ Tops s call

theorem Alloc.coalesced (alloc : Alloc vars size bs stop vars' bs' stop' ptr)
    (held : HeapInv vars m bs stop) (edge : vars.heapEnd = stop) (coalesced : Coalesced bs) :
    Coalesced bs' ∧ vars'.heapEnd = stop' := by
  cases alloc with
  | refused => exact ⟨coalesced, edge⟩
  | first empty new => exact ⟨List.isChain_singleton _, rfl⟩
  | @reuse pre x post same fit =>
    subst same
    refine ⟨?_, edge⟩
    simp only [fits, Bool.and_eq_true] at fit
    simp only [Coalesced, List.append_assoc, List.isChain_append, List.isChain_cons] at coalesced ⊢
    obtain ⟨before, ⟨follows, after⟩, joint⟩ := coalesced
    have headUsed : ∀ y ∈ post.head?, y.free = false := by
      intro y member
      simpa [fit.1] using follows y member
    unfold carve
    split
    · refine ⟨before, ⟨by simp [splitFirst], after, ?_⟩, by simp [splitFirst]⟩
      intro x member y next
      simp [headUsed y next]
    · exact ⟨before, ⟨by simp, after, by simp⟩, by simp⟩
  | append nonempty atStop new =>
    subst new
    refine ⟨?_, rfl⟩
    refine List.isChain_append.mpr ⟨coalesced, List.isChain_singleton _, ?_⟩
    simp

/-- Joining a block with its free neighbours leaves no free neighbours. -/
theorem released_coalesced (around : Neighbours edge pre post left right before after)
    (below : ∀ b ∈ pre ++ post, b.addr < edge) (coalesced : Coalesced (pre ++ x :: post)) :
    Coalesced (before ++ released left x right :: after) := by
  obtain ⟨rfl, rfl, leftFree, rightFree, leftStop, rightStop⟩ := around
  have parts : Coalesced (before ++ left.toList) ∧ Coalesced (right.toList ++ after) := by
    obtain ⟨first, rest, -⟩ := List.isChain_append.mp coalesced
    exact ⟨first, (List.isChain_cons.mp rest).2⟩
  obtain ⟨first, rest⟩ := parts
  have beforeUsed : ∀ w ∈ before.getLast?, w.free = false := by
    intro w member
    cases left with
    | none =>
      have apart := leftStop rfl w member
      have low := below w (by simp [List.mem_of_getLast? member])
      simpa [low] using apart
    | some v =>
      have apart := (List.isChain_append.mp first).2.2 w member v (by simp)
      simpa [(leftFree v rfl).1] using apart
  have afterUsed : ∀ y ∈ after.head?, y.free = false := by
    intro y member
    cases right with
    | none =>
      have apart := rightStop rfl y member
      have low := below y (by simp [List.mem_of_mem_head? member])
      simpa [low] using apart
    | some z =>
      have apart := (List.isChain_append.mp rest).2.2 z (by simp) y member
      simpa [(rightFree z rfl).1] using apart
  refine List.isChain_append.mpr ⟨(List.isChain_append.mp first).1,
    List.isChain_cons.mpr ⟨fun y member => ?_, (List.isChain_append.mp rest).2.1⟩, ?_⟩
  · simp [afterUsed y member]
  · intro w member y _
    simp [beforeUsed w member]

/-- `KeepsTop` on the list: the block released has a block behind it, or it is
all there is. -/
theorem tops_iff (held : Stored m (pre ++ x :: post) stop) (start : vars.heapStart = kernelHeapStart)
    (head : vars.heapHead = headAddr (pre ++ x :: post) 0)
    (around : Neighbours vars.heapEnd pre post left right before after) :
    KeepsTop vars m x.addr ↔ after ≠ [] ∨ before = [] := by
  obtain ⟨next, -, prev⟩ := after_eq held start around
  have merges := (merges_iff held start around).2
  have small := addressed_of_stored held
  have layout := held.layout
  obtain ⟨rfl, rfl, -⟩ := around
  rw [KeepsTop, next, merges, head]
  have behind : headAddr after 0 ≠ 0 ↔ after ≠ [] := by
    cases after with
    | nil => simp
    | cons z after => simpa using (small z (by simp)).1
  rw [behind]
  apply or_congr_right
  cases before with
  | cons b before =>
    simp only [List.cons_append, headAddr_cons, reduceCtorEq, iff_false, not_or, not_and]
    have order := (List.pairwise_cons.mp layout.pairwise).1
    refine ⟨fun same => ?_, fun some same => ?_⟩
    · have apart := order x (by simp)
      simp only [Block.width, headerSize] at apart
      omega
    · obtain ⟨w, rfl⟩ := Option.isSome_iff_exists.mp some
      have apart := order w (by simp)
      rw [(prev w rfl).1] at same
      simp only [Block.width, headerSize] at apart
      omega
  | nil =>
    cases left with
    | none => simp
    | some w => simp [(prev w rfl).1]

/-- An allocation uses the block it hands out and no other. -/
theorem Alloc.newly_used (alloc : Alloc vars size bs stop vars' bs' stop' ptr) (member : b ∈ bs')
    (used : b.free = false) : b ∈ bs ∨ b.payload = ptr ∧ ptr ≠ 0 := by
  have ne : ∀ x : Block, x.payload ≠ 0 := by simp [Block.payload, headerSize]
  cases alloc with
  | refused => exact .inl member
  | first empty new =>
    cases List.mem_singleton.mp member
    exact .inr ⟨rfl, ne _⟩
  | @reuse pre x post same fit =>
    subst same
    simp only [List.mem_append, List.mem_cons] at member ⊢
    rcases member with (member | member) | member
    · exact .inl (.inl member)
    · refine .inr ?_
      unfold carve at member
      split at member
      · simp only [List.mem_cons, List.not_mem_nil, or_false] at member
        rcases member with rfl | rfl
        · exact ⟨rfl, ne x⟩
        · cases used
      · cases List.mem_singleton.mp member
        exact ⟨rfl, ne x⟩
    · exact .inl (.inr (.inr member))
  | append nonempty atStop new =>
    rcases List.mem_append.mp member with member | member
    · exact .inl member
    · cases List.mem_singleton.mp member
      exact .inr ⟨rfl, ne _⟩

theorem tidy_step (held : Tidy s bs stop) (allowed : TidyCall s call) (step : HeapStep s call s') :
    ∃ bs' stop', Tidy s' bs' stop' := by
  obtain ⟨⟨inv, owns⟩, edge, coalesced, owned⟩ := held
  obtain ⟨legal, roomy, tops⟩ := allowed
  obtain ⟨bs', stop', did, represents'⟩ := step_cases ⟨inv, owns⟩ legal roomy step
  refine ⟨bs', stop', ?_⟩
  cases did with
  | @kmalloc size _ _ _ ptr alloc live =>
    obtain ⟨coalesced', edge'⟩ := Alloc.coalesced alloc inv edge coalesced
    refine ⟨represents', edge', coalesced', fun b member used => ?_⟩
    rw [live]
    rcases Alloc.newly_used alloc member used with old | ⟨rfl, ne⟩
    · have inLive := owned b old used
      split
      · exact inLive
      · exact List.mem_cons_of_mem _ inLive
    · simp [ne]
  | refused low => omega
  | @kfree ptr _ pre x post left right before after _ _ same here used around given live =>
    subst same
    rw [Tops, here, sub32_payload inv (by simp), tops_iff inv.stored inv.start inv.head around] at tops
    have below : ∀ b ∈ pre ++ post, b.addr < s.vars.heapEnd := by
      intro b member
      have low := inv.stored.low (mem_whole x member)
      simp only [Block.fin, headerSize] at low
      omega
    have joined := released_coalesced around below coalesced
    have owned' : ∀ b ∈ bs', b.free = false → b.payload ∈ s'.live.map Prod.fst := by
      intro b member used
      have inList := released_used around (given.subset member) used
      have inLive := owned b (mem_whole x inList) used
      have other := layout_addr_ne inv.stored.layout inList
      obtain ⟨a, inside, payload⟩ := List.mem_map.mp inLive
      rw [live]
      refine List.mem_map.mpr ⟨a, List.mem_filter.mpr ⟨inside, decide_eq_true fun same => ?_⟩, payload⟩
      simp only [Block.payload] at payload same
      omega
    generalize after' : s'.vars = vars' at given
    cases given with
    | reset same free =>
      exact ⟨represents', by rw [after']; exact inv.start, List.isChain_nil, owned'⟩
    | keep => exact ⟨represents', by rw [after']; exact edge, joined, owned'⟩
    | @lower l more isLast free =>
      obtain rfl | ⟨after, k, rfl⟩ := List.eq_nil_or_concat after
      · rcases tops with tops | rfl
        · exact absurd rfl tops
        · simp at more
      · obtain rfl : k = l := by simpa [List.getLast?_append, List.getLast?_cons] using isLast
        obtain ⟨-, rfl, -⟩ := around
        have wasUsed := (inv.last edge k (by simp [List.getLast?_append, List.getLast?_cons])).1
        rw [free] at wasUsed
        cases wasUsed

theorem tidy (reached : Reachable Initial (Guarded TidyCall HeapStep) s) :
    ∃ bs stop, Tidy s bs stop := by
  refine reached.induct (fun s => ∃ bs stop, Tidy s bs stop) ?_ ?_
  · rintro ⟨vars, m, live⟩ ⟨rfl, rfl⟩
    exact ⟨[], kernelHeapStart, ⟨heapInit_inv m, List.Pairwise.nil, by simp⟩, rfl,
      List.isChain_nil, by simp⟩
  · rintro s call s' ⟨bs, stop, held⟩ ⟨allowed, step⟩
    exact tidy_step held allowed step

/-! ## The shape of the list -/

/-- The block list is a finite increasing chain inside `[heap_start, heap_end)`,
linked both ways; the loops over it end, and `heap_validate` finds it valid. -/
structure ListShape (vars : HeapVars) (m : Mem) : Prop where
  chain : ∃ headers, Follows m vars.heapHead headers ∧ headers.Pairwise (· < ·)
  back : ∀ b, Listed vars m b → nextIn m b ≠ 0 → prevIn m (nextIn m b) = b
  first : vars.heapHead ≠ 0 → prevIn m vars.heapHead = 0
  inside : ∀ b, Listed vars m b → vars.heapStart ≤ b ∧ b < vars.heapEnd
  search : vars.heapHead ≠ 0 →
    ∃ fuel, ∀ size, ((searchFree size fuel vars.heapHead).run m).result ≠ none
  walk : vars.heapHead ≠ 0 → ∃ fuel, ((lastBlock fuel vars.heapHead).run m).result ≠ none
  dump : ∃ fuel, ((heapDump fuel vars).run m).result ≠ none
  valid : ∃ fuel, ((heapValidate fuel vars).run m).result = some "Heap structure valid.\n"

theorem stored_sorted (held : Stored m bs stop) : (bs.map Block.addr).Pairwise (· < ·) := by
  rw [List.pairwise_map]
  refine held.layout.pairwise.imp fun {a b} apart => ?_
  simp only [Block.width, headerSize] at apart
  omega

theorem Tidy.shape (held : Tidy s bs stop) : ListShape s.vars s.mem := by
  obtain ⟨⟨inv, -⟩, edge, -, -⟩ := held
  obtain ⟨stored, start, head, -, -⟩ := inv
  have addressed := addressed_of_stored stored
  have follows := follows_of_linked stored.linked addressed
  have sorted := stored_sorted stored
  have top := stored.top
  have low := fun b member => stored.low (b := b) member
  simp only [Block.fin, headerSize, tailSize, kernelHeapEnd] at low top
  have listed := fun a => listed_iff (a := a) stored head
  have found : ∀ fuel, bs.length < fuel → ∀ b rest, bs = b :: rest →
      (∀ size, ((searchFree size fuel b.addr).run s.mem).result ≠ none) ∧
        ((lastBlock fuel b.addr).run s.mem).result ≠ none := by
    rintro fuel enough b rest rfl
    have more : rest.length < fuel := Nat.lt_of_succ_lt enough
    refine ⟨fun size => (run_searchFree stored.linked addressed size fuel).2.2.1 more, ?_⟩
    rw [(run_lastBlock stored.linked addressed fuel).2.1, if_pos more]
    simp
  refine ⟨⟨_, head ▸ follows, sorted⟩, ?_, ?_, ?_, ?_, ?_, ?_, ?_⟩
  · intro a here ne
    obtain ⟨b, member, rfl⟩ := (listed a).mp here
    obtain ⟨pre, post, rfl⟩ := List.append_of_mem member
    have next := nextIn_eq stored.around.2.2.2.1 (addressed b member).2
    rw [next] at ne ⊢
    cases post with
    | nil => exact absurd rfl ne
    | cons c post => exact prevIn_eq stored.around.2.2.2.2.1 (addressed c (by simp)).2
  · intro ne
    cases bs with
    | nil => exact absurd head ne
    | cons b bs =>
      rw [head, headAddr_cons]
      exact prevIn_eq stored.linked.1 (addressed b (by simp)).2
  · intro a here
    obtain ⟨b, member, rfl⟩ := (listed a).mp here
    have bounds := low b member
    rw [start, edge]
    omega
  · intro ne
    cases bs with
    | nil => exact absurd head ne
    | cons b bs => exact ⟨_, by rw [head]; exact (found _ (Nat.lt_succ_self _) b bs rfl).1⟩
  · intro ne
    cases bs with
    | nil => exact absurd head ne
    | cons b bs => exact ⟨_, by rw [head]; exact (found _ (Nat.lt_succ_self _) b bs rfl).2⟩
  · refine ⟨bs.length + 1, ?_⟩
    rw [heapDump, head, run_heapDumpFrom stored.linked addressed 0 (Nat.lt_succ_self _)]
    simp
  · refine ⟨bs.length + 1, ?_⟩
    have cycle := run_findCycle [] (bs.length + 1) (head ▸ follows) (head ▸ follows) sorted
      (by simp)
    have checks := run_checkBlocks s.vars stored.linked addressed
      (fun b member => by
        have bounds := low b member
        simp only [Block.fin, headerSize]
        omega)
      (fun b member => by
        have bounds := low b member
        simp only [Block.fin, headerSize]
        omega) (Nat.lt_succ_self _)
    rw [head] at cycle
    simp only [heapValidate, run_bind, head, cycle.1, cycle.2]
    exact checks

/-- List shape: in every run whose calls all keep room for their tail words and
keep the top, the list is well formed in every state, and every further such
call returns. -/
theorem heap_list_shape (reached : Reachable Initial (Guarded TidyCall HeapStep) s) :
    ListShape s.vars s.mem ∧ ∀ call, TidyCall s call → ∃ s', HeapStep s call s' := by
  obtain ⟨bs, stop, held⟩ := tidy reached
  exact ⟨held.shape, fun call allowed => step_total held.represents allowed.1 allowed.2.1⟩

instance : Decidable (KeepsTop vars m x) := inferInstanceAs (Decidable (_ ∨ _ ∨ _ ∧ _))

instance : DecidablePred (Tops s) := fun call =>
  match call with
  | .kmalloc _ => .isTrue trivial
  | .kfree ptr => inferInstanceAs (Decidable (KeepsTop s.vars s.mem (sub32 ptr.toNat headerSize)))

def tidyTest (s : HeapState) (call : HeapCall) : Bool := roomyTest 0 s call && decide (Tops s call)

theorem tidy_tested (passed : clearHeap.passes tidyTest calls = true) :
    Reachable Initial (Guarded TidyCall HeapStep) (.after calls) := by
  refine tested_reached (fun s call passed legal => ?_) passed
  rw [tidyTest, Bool.and_eq_true] at passed
  exact ⟨legal, roomy_of_test passed.1, of_decide_eq_true passed.2⟩

theorem mergedBetween_tidy : Reachable Initial (Guarded TidyCall HeapStep) mergedBetween :=
  tidy_tested (by decide +kernel)

/-- Three blocks, the second of them merged from two. -/
theorem heap_list_shape_merged :
    walk mergedBetween.mem 9 mergedBetween.vars.heapHead = some [0x400000, 0x40001c, 0x40005c] ∧
      ListShape mergedBetween.vars mergedBetween.mem ∧
      ∀ call, TidyCall mergedBetween call → ∃ s', HeapStep mergedBetween call s' :=
  ⟨by decide +kernel, heap_list_shape mergedBetween_tidy⟩

/-- Two blocks, the last of them freed. -/
def lastFreed : HeapState := .after [.kmalloc 8, .kmalloc 8, .kfree 0x400030]

theorem lastFreed_reached : Reachable Initial (Guarded Legal HeapStep) lastFreed :=
  after_reached (by decide)

/-- The header of the freed block stays in the list, and `heap_end` is lowered
to it, so that it is no longer below `heap_end`. -/
theorem given_back_header_stays_listed : ¬ ∀ s, Reachable Initial (Guarded Legal HeapStep) s →
    ListShape s.vars s.mem ∧ ∀ call, Legal s call → ∃ s', HeapStep s call s' := by
  intro claim
  obtain ⟨head, next, edge⟩ : lastFreed.vars.heapHead = 0x400000 ∧
      nextIn lastFreed.mem lastFreed.vars.heapHead = 0x40001c ∧
      lastFreed.vars.heapEnd = 0x40001c := by decide
  have listed : Listed lastFreed.vars lastFreed.mem (nextIn lastFreed.mem lastFreed.vars.heapHead) :=
    .next (.head (by rw [head]; decide)) (by rw [next]; decide)
  have below := ((claim lastFreed lastFreed_reached).1.inside _ listed).2
  rw [next, edge] at below
  exact absurd below (Nat.lt_irrefl _)

/-! ## Nothing is lost -/

/-- No two list neighbours are both free, and with nothing live the allocator
is as `heap_init` left it. -/
structure Conserves (s : HeapState) : Prop where
  coalesced : ∀ b, Listed s.vars s.mem b → nextIn s.mem b ≠ 0 →
    ¬ (freeIn s.mem b ≠ 0 ∧ freeIn s.mem (nextIn s.mem b) ≠ 0)
  reset : s.live = [] → s.vars.heapHead = 0 ∧ s.vars.heapEnd = s.vars.heapStart

theorem Tidy.conserves (held : Tidy s bs stop) : Conserves s := by
  obtain ⟨⟨inv, -⟩, edge, coalesced, owned⟩ := held
  have addressed := addressed_of_stored inv.stored
  constructor
  · intro a here ne
    obtain ⟨b, member, rfl⟩ := (listed_iff inv.stored inv.head).mp here
    obtain ⟨pre, post, rfl⟩ := List.append_of_mem member
    obtain ⟨-, -, -, header, rest⟩ := inv.stored.around
    have next := nextIn_eq header (addressed b member).2
    rw [next] at ne ⊢
    cases post with
    | nil => exact absurd rfl ne
    | cons c post =>
      rw [headAddr_cons, freeIn_eq header (addressed b member).2,
        freeIn_eq rest.1 (addressed c (by simp)).2, b.flag_ne_zero, c.flag_ne_zero]
      exact (List.isChain_cons_cons.mp (List.isChain_append.mp coalesced).2.1).1
  · intro empty
    obtain rfl : bs = [] := by
      by_contra nonempty
      obtain ⟨l, isLast⟩ := Option.ne_none_iff_exists'.mp (mt List.getLast?_eq_none_iff.mp nonempty)
      have inLive := owned l (List.mem_of_getLast? isLast) (inv.last edge l isLast).1
      simp [empty] at inLive
    obtain ⟨-, atStart⟩ := inv.empty
    exact ⟨inv.head_eq_zero.mpr rfl, by rw [atStart, inv.start]⟩

/-- No heap memory is lost in a run whose calls all keep room for their tail
words and keep the top. -/
theorem heap_conserves (reached : Reachable Initial (Guarded TidyCall HeapStep) s) :
    Conserves s := by
  obtain ⟨bs, stop, held⟩ := tidy reached
  exact held.conserves

/-- The first block and then the last are freed as well. -/
def allFreed : HeapState := .after [.kmalloc 8, .kmalloc 8, .kmalloc 8, .kmalloc 8, .kfree 0x400030,
  .kfree 0x400050, .kfree 0x400014, .kfree 0x400070]

/-- Four blocks freed from the inside out, with one merge backwards, one forwards and the reset. -/
theorem heap_conserves_allFreed : Conserves mergedBetween ∧ allFreed.live = [] ∧ Conserves allFreed :=
  ⟨heap_conserves mergedBetween_tidy, by decide +kernel, heap_conserves (tidy_tested (by decide +kernel))⟩

/-- Of two blocks the last is freed first: the other is then not merged with it,
and with nothing live the list still holds both. -/
theorem freed_blocks_stay : ¬ ∀ s ptr s', Reachable Initial (Guarded Legal HeapStep) s →
    Guarded Legal HeapStep s (.kfree ptr) s' → Conserves s' := by
  intro claim
  have last : (lastFreed.call 9 (.kfree 0x400014)).map (fun s => (s.live, s.vars.heapHead)) =
      some ([], 0x400000) := by decide
  obtain ⟨s, step, seen⟩ := Option.map_eq_some_iff.mp last
  obtain ⟨empty, head⟩ : s.live = [] ∧ s.vars.heapHead = 0x400000 := by simpa using seen
  have reset := (claim _ _ s lastFreed_reached ⟨by decide, 9, step⟩).reset empty
  rw [head] at reset
  exact absurd reset.1 (by decide)

end ZynthexOS.HeapShape
