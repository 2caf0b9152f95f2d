import ZynthexOS.HeapExhaustion
import ZynthexOS.HeapShape

/-! A block taken from the list and released at once. The list is any well
formed one: it may start anywhere in the heap and leave any gaps between its
blocks. A request that is served from a free block, split or whole, is undone by
the release: the sizes subtracted are added again, and every header is as it
was. -/
namespace ZynthexOS.SplitCoalesce
open Lib Lib.Memory Mm HeapLayout HeapRepresentation HeapPrograms HeapConditions HeapVariables
  HeapRuns HeapShape HeapWalks HeapChecker HeapExhaustion

/-- A heap list with its blocks in order of their addresses between `heap_start`
and `heap_end`, linked both ways, with magic and tail words intact, no two
neighbours free and the last block in use. The slack of a block is whatever
lies between its payload and the next header. -/
structure WellFormed (vars : HeapVars) (m : Mem) (bs : List Block) : Prop where
  words : Words vars
  head : vars.heapHead = headAddr bs 0
  linked : Linked m 0 bs 0
  low : ∀ b ∈ bs, vars.heapStart ≤ b.addr
  layout : Layout (headAddr bs vars.heapEnd) bs vars.heapEnd
  coalesced : Coalesced bs
  last : ∀ l, bs.getLast? = some l → l.free = false

/-- `kmalloc(size)` gets past its checks and finds a free block for the request. -/
structure Reuses (vars : HeapVars) (m : Mem) (size : Nat) : Prop where
  positive : size ≠ 0
  aligned : size ≤ alignUp size
  room : alignUp size ≤ heapRoom vars
  fits : SomeFits vars m size

/-- The block that `kmalloc(size)` returns, freed at once, leaves the variables
and the list as they were. -/
def Restores (vars : HeapVars) (m : Mem) (bs : List Block) (size fuel : Nat) : Prop :=
  ∃ ptr, ptr ≠ 0 ∧ ((kmalloc fuel vars size).run m).result = some (vars, ptr) ∧
    ((kfree fuel vars ptr).run ((kmalloc fuel vars size).run m).mem).result = some (vars, none) ∧
    WellFormed vars ((kfree fuel vars ptr).run ((kmalloc fuel vars size).run m).mem).mem bs

/-! ### The list -/

theorem WellFormed.addressed (held : WellFormed vars m bs) (nonempty : vars.heapHead ≠ 0) :
    Addressed bs := by
  intro b member
  have words := held.words.edge
  have inside := held.layout.mem member
  have positive : headAddr bs vars.heapEnd ≠ 0 := by
    rw [held.head] at nonempty
    cases bs with
    | nil => cases member
    | cons c bs => exact nonempty
  simp only [Block.width, headerSize] at inside
  omega

/-- The list met along `next` is the one of the blocks. -/
theorem WellFormed.listed (held : WellFormed vars m bs) (nonempty : vars.heapHead ≠ 0) :
    Listed vars m a ↔ ∃ b ∈ bs, b.addr = a := by
  have follows := follows_of_linked held.linked (held.addressed nonempty)
  rw [← held.head] at follows
  rw [follows_listed follows, List.mem_map]

theorem fits_iff {b : Block} {p z : Nat} (header : HeaderIs m b p z)
    (small : b.addr + 20 < 2 ^ 32) : Fits m size b.addr ↔ fits size b = true := by
  rw [Fits, freeIn_eq header small, sizeIn_eq header small, Block.flag_ne_zero]
  simp [fits]

/-- A block of the list with its header. -/
theorem header_of_mem (linked : Linked m p bs z) (member : b ∈ bs) :
    ∃ prev next, HeaderIs m b prev next := by
  obtain ⟨pre, post, rfl⟩ := List.append_of_mem member
  exact ⟨_, _, (linked_append.mp linked).2.1⟩

/-- The request takes a free block that has another one behind it. -/
theorem kmalloc_reuses (held : WellFormed vars m bs) (reuses : Reuses vars m size)
    (enough : bs.length ≤ fuel) : ∃ pre x z post, bs = pre ++ x :: z :: post ∧
      fits (alignUp size) x = true ∧
      ((kmalloc fuel vars size).run m).result =
        some (vars, ((kmallocReuse x.addr (alignUp size)).run m).result) ∧
      ((kmalloc fuel vars size).run m).mem = ((kmallocReuse x.addr (alignUp size)).run m).mem := by
  obtain ⟨positive, aligned, room, a, listed, fit⟩ := reuses
  have nonempty := nonempty_of_listed listed
  have addressed := held.addressed nonempty
  have some := (held.listed nonempty).mp listed
  have head := held.head
  have last := held.last
  have linked := held.linked
  cases bs with
  | nil => exact absurd head nonempty
  | cons b bs =>
    obtain ⟨kept, result, total, -⟩ := run_searchFree linked addressed (alignUp size) fuel
    have found := result.resolve_left (total enough)
    rcases searchList_cases (alignUp size) b bs with ⟨pre, x, post, same, -, here, at_⟩ | ⟨none, -⟩
    · have isFree : x.free = true := by
        simp only [fits, Bool.and_eq_true] at here
        exact here.1
      rw [same] at last
      cases post with
      | nil =>
        have used := last x (by simp)
        rw [isFree] at used
        cases used
      | cons z post =>
        refine ⟨pre, x, z, post, same, here, ?_⟩
        rw [at_] at found
        rw [headAddr_cons] at head
        rw [← head] at found kept
        rw [kmalloc, if_neg positive, if_neg (Nat.not_lt.mpr aligned), if_neg (Nat.not_lt.mpr room),
          if_neg nonempty, run_bind, found, kept]
        exact ⟨rfl, rfl⟩
    · obtain ⟨c, member, rfl⟩ := some
      obtain ⟨prev, next, header⟩ := header_of_mem linked member
      have here := (fits_iff header (addressed c member).2).mp fit
      rw [none c member] at here
      cases here

/-! ### Memory after a split and its merge -/

/-- What a split of `x`, the release of its first part and the merge with the
remainder leave. -/
def rejoined (m : Mem) (x : Block) (size z : Nat) : Mem :=
  joined (writeWord (split m x.addr size (splitRest x size).addr (splitRest x size).size z)
    (x.addr + 8) 1) x.addr x.size z

/-- Outside the block only the `prev` field behind it is stored to. -/
theorem readWord_rejoined {x : Block} {p z : Nat} (header : HeaderIs m x p z)
    (splits : Splits x size) (order : x.fin ≤ z)
    (outside : c ≤ x.addr ∨ c = x.addr + 16 ∨ x.fin ≤ c) (apart : Apart (z + 16) c) :
    readWord (rejoined m x size z) c = readWord m c := by
  have finX : x.fin = x.addr + headerSize + x.size := rfl
  have large : 32 ≤ x.size := by
    simp only [Splits, headerSize, tailSize, minBlockSize] at splits
    omega
  have behind : z ≠ 0 := by
    rw [finX, headerSize] at order
    omega
  have kept : ∀ a, a ≤ x.addr ∨ a = x.addr + 16 ∨ x.fin ≤ a → Apart (z + 16) a →
      readWord (split m x.addr size (splitRest x size).addr (splitRest x size).size z) a =
        readWord m a := fun a outside apart => by
    rw [readWord_split splits outside, readWord_relink (.inr apart)]
  have tail := (kept x.fin (by omega) (by omega)).trans header.tail
  have here := kept c outside apart
  rw [finX, headerSize] at tail outside order
  -- The tail word behind the block is stored again with the value it has.
  rw [rejoined, joined, relink_of_ne behind, readWord_writeWord_apart apart, writeWord_self]
  all_goals simp (disch := omega) only [headerSize, readWord_writeWord_apart, here, tail]
  rfl

/-- The block has its own size again and is free again. -/
theorem rejoined_header {x : Block} {p z : Nat} (header : HeaderIs m x p z) (splits : Splits x size)
    (order : x.fin ≤ z) (isFree : x.free = true) (bound : x.fin + 20 < 2 ^ 32)
    (zbound : z + 20 < 2 ^ 32) : HeaderIs (rejoined m x size z) x p z := by
  have finX : x.fin = x.addr + headerSize + x.size := rfl
  have kept : ∀ c, c ≤ x.addr ∨ c = x.addr + 16 ∨ x.fin ≤ c → Apart (z + 16) c →
      readWord (rejoined m x size z) c = readWord m c :=
    fun c => readWord_rejoined header splits order
  have flag : x.flag = 1 := by simp [Block.flag, isFree]
  rw [finX, headerSize] at order bound kept
  have behind : z ≠ 0 := by omega
  refine ⟨(kept _ (by omega) (by omega)).trans header.magic, ?_, ?_, ?_,
    (kept _ (by omega) (by omega)).trans header.prev, ?_⟩
  · simp (disch := omega) only [rejoined, joined, relink_of_ne behind, headerSize,
      readWord_writeWord_apart, readWord_writeWord_same, wrap_of_lt]
  · simp (disch := omega) only [rejoined, joined, relink_of_ne behind, headerSize,
      readWord_writeWord_apart, readWord_writeWord_same, wrap_of_lt, flag]
  · simp (disch := omega) only [rejoined, joined, relink_of_ne behind, headerSize,
      readWord_writeWord_apart, readWord_writeWord_same, wrap_of_lt]
  · rw [finX, headerSize, kept _ (by omega) (by omega)]
    exact header.tail

theorem rejoined_prev {x : Block} (order : x.fin ≤ z) (bound : x.fin + 20 < 2 ^ 32) :
    readWord (rejoined m x size z) (z + 16) = x.addr := by
  simp only [Block.fin, headerSize] at order bound
  rw [rejoined, joined, relink_of_ne (by omega), readWord_writeWord_same, wrap_of_lt (by omega)]

/-- Where a block of the list and the one behind it lie. -/
theorem WellFormed.pair (held : WellFormed vars m (pre ++ x :: z :: post)) :
    (∀ b ∈ pre, b.fin ≤ x.addr) ∧ x.fin ≤ z.addr ∧ (∀ b ∈ post, z.fin ≤ b.addr) ∧
      z.fin ≤ vars.heapEnd := by
  have layout := held.layout
  generalize headAddr _ _ = start at layout
  obtain ⟨c, before, rfl, behind, after⟩ := tiles_append.mp layout
  have low := after.le
  have inside : ∀ b : Block, b.fin ≤ b.addr + b.width := fun b => by
    simp only [Block.fin, Block.width]
    omega
  have endX := inside x
  have endZ := inside z
  refine ⟨fun b member => ?_, by omega, fun b member => ?_, by omega⟩
  · exact (inside b).trans (before.mem member).2
  · have starts := (after.mem member).1
    omega

/-- The whole list is held as before. -/
theorem rejoined_linked (held : WellFormed vars m (pre ++ x :: z :: post)) (splits : Splits x size)
    (isFree : x.free = true) :
    Linked (rejoined m x size z.addr) 0 (pre ++ x :: z :: post) 0 := by
  obtain ⟨below, order, above, ends⟩ := held.pair
  have small := Nat.lt_of_le_of_lt ends held.words.edge
  obtain ⟨before, header, headerZ, after⟩ := linked_append.mp held.linked
  have finZ : z.fin = z.addr + headerSize + z.size := rfl
  have kept : ∀ c, c ≤ x.addr ∨ c = x.addr + 16 ∨ x.fin ≤ c → Apart (z.addr + 16) c →
      readWord (rejoined m x size z.addr) c = readWord m c :=
    fun c => readWord_rejoined header splits order
  rw [headerSize] at finZ
  rw [headAddr_cons] at header
  refine linked_append.mpr ⟨?_, ?_, ?_, ?_⟩
  · refine before.frame fun b member c hc => ?_
    have inside := blockWords_bounds hc
    have ends := below b member
    have finX : x.addr ≤ x.fin := by unfold Block.fin; omega
    exact kept c (by omega) (by omega)
  · exact rejoined_header header splits order isFree (by omega) (by omega)
  · refine ⟨(kept _ ?_ ?_).trans headerZ.magic, (kept _ ?_ ?_).trans headerZ.size,
      (kept _ ?_ ?_).trans headerZ.free, (kept _ ?_ ?_).trans headerZ.next,
      rejoined_prev order (by omega), (kept _ ?_ ?_).trans headerZ.tail⟩
    all_goals omega
  · refine after.frame fun b member c hc => ?_
    have inside := blockWords_bounds hc
    have starts := above b member
    exact kept c (by omega) (by omega)

/-! ### The release -/

/-- A neighbour in use is not merged. -/
theorem not_joins_used (linked : Linked m 0 bs 0) (member : b ∈ bs) (used : b.free = false) :
    ¬ Joins vars m b.addr := by
  obtain ⟨prev, next, header⟩ := header_of_mem linked member
  rintro ⟨-, -, -, free⟩
  rw [header.free, Block.flag_ne_zero, used] at free
  cases free

section Release
variable {x z : Block} (held : WellFormed vars m (pre ++ x :: z :: post))
  (nonempty : vars.heapHead ≠ 0) (isFree : x.free = true)
include held nonempty isFree

theorem mergeNext_keeps : ((mergeNext vars x.addr).run m).mem = m := by
  have header := (linked_append.mp held.linked).2.1
  have small := held.addressed nonempty
  have smallX := (small x (by simp)).2
  have smallZ := (small z (by simp)).2
  have chain := (List.isChain_cons_cons.mp (List.isChain_append.mp held.coalesced).2.1).1
  have used : z.free = false := by simpa [isFree] using chain
  have apart : ¬ Joins vars m z.addr := not_joins_used held.linked (by simp) used
  have next : readWord m (x.addr + 12) = z.addr := header.next
  exact (run_mergeNext_stay (by rwa [next]) smallX (by omega)).1

theorem mergePrev_keeps : ((mergePrev vars x.addr).run m).mem = m := by
  have header := (linked_append.mp held.linked).2.1
  have small := held.addressed nonempty
  have smallX := (small x (by simp)).2
  have prev := header.prev
  have chain := (List.isChain_append.mp held.coalesced).2.2
  have bound : ¬ Joins vars m (lastAddr 0 pre) ∧ lastAddr 0 pre + 8 < 2 ^ 32 := by
    rcases List.eq_nil_or_concat pre with rfl | ⟨pre, w, rfl⟩
    · exact ⟨fun joins => joins.1 rfl, by decide⟩
    · have used : w.free = false := by simpa [isFree] using chain w (by simp) x (by simp)
      have apart : ¬ Joins vars m w.addr := not_joins_used held.linked (by simp) used
      have smallW := (small w (by simp)).2
      simp only [List.concat_eq_append, lastAddr_append, lastAddr_cons, lastAddr_nil]
      exact ⟨apart, by omega⟩
  exact (run_mergePrev_stay (by rw [prev]; exact bound.1) smallX (by rw [prev]; exact bound.2)).1

end Release

theorem giveBack_keeps (held : WellFormed vars m bs) (nonempty : vars.heapHead ≠ 0)
    (enough : bs.length ≤ fuel) :
    ((giveBack fuel vars).run m).result = some vars ∧ ((giveBack fuel vars).run m).mem = m := by
  have linked := held.linked
  have addressed := held.addressed nonempty
  have head := held.head
  have last := held.last
  cases bs with
  | nil => exact absurd head nonempty
  | cons b bs =>
    obtain ⟨kept, result, total, -⟩ := run_giveBack linked addressed head fuel
    have given := result.resolve_left (total enough)
    have used := last _ (List.getLast?_eq_some_getLast (by simp))
    have same : givenBack vars b bs = vars := by
      have single : ¬ (bs = [] ∧ b.free = true) := by
        rintro ⟨rfl, free⟩
        simp [free] at used
      rw [givenBack, if_neg single, used]
      rfl
    rw [same] at given
    exact ⟨given, kept⟩

/-- Once the merge with the next block has put a well formed list together, the
rest of the release changes nothing. -/
theorem kfreeBlock_restores {x z : Block} (held : WellFormed vars m' (pre ++ x :: z :: post))
    (nonempty : vars.heapHead ≠ 0) (isFree : x.free = true)
    (enough : (pre ++ x :: z :: post).length ≤ fuel)
    (merged : ((mergeNext vars x.addr).run (writeWord m (x.addr + 8) 1)).mem = m') :
    ((kfreeBlock fuel vars x.addr).run m).result = some (vars, none) ∧
      ((kfreeBlock fuel vars x.addr).run m).mem = m' := by
  have small := (held.addressed nonempty x (by simp)).2
  have prev := mergePrev_keeps held nonempty isFree
  obtain ⟨given, kept⟩ := giveBack_keeps held nonempty enough
  simp (disch := omega) only [kfreeBlock, freeAt, add32, wrap_of_lt, run_bind, run_store, run_pure,
    merged, prev, given, kept, Option.map_some, and_self]

/-- The same of a call that frees the block, in use by now, of a list that the
merge with the next block restores. -/
theorem kfree_restores {x y z : Block} (held : WellFormed vars m' (pre ++ x :: z :: post))
    (nonempty : vars.heapHead ≠ 0) (isFree : x.free = true)
    (enough : (pre ++ x :: z :: post).length ≤ fuel)
    (header : HeaderIs m y p q) (here : y.addr = x.addr) (inside : y.fin ≤ x.fin)
    (used : y.free = false) (positive : 0 < y.size)
    (merged : ((mergeNext vars x.addr).run (writeWord m (x.addr + 8) 1)).mem = m') :
    ((kfree fuel vars x.payload).run m).result = some (vars, none) ∧
      ((kfree fuel vars x.payload).run m).mem = m' := by
  have low := held.low x (by simp)
  have edge := held.words.edge
  obtain ⟨-, order, -, ends⟩ := held.pair
  have belowZ : z.addr ≤ z.fin := by unfold Block.fin; omega
  have passed := run_kfree_passed header used positive (by rwa [here]) (by omega) edge fuel
  have payload : y.payload = x.payload := by rw [Block.payload, here, Block.payload]
  rw [payload, here] at passed
  simpa only [passed] using kfreeBlock_restores held nonempty isFree enough merged

/-- Storing the `free` field of a free block twice changes nothing in the end. -/
theorem writeFree_twice {x : Block} {p z : Nat} (header : HeaderIs m x p z) (isFree : x.free = true) :
    writeWord (writeWord m (x.addr + 8) 0) (x.addr + 8) 1 = m := by
  have free := header.free
  rw [Block.flag, if_pos isFree] at free
  rw [writeWord_writeWord, writeWord_self (free.trans rfl)]

/-- A block that is handed out whole. -/
theorem whole_restores {x z : Block} (held : WellFormed vars m (pre ++ x :: z :: post))
    (nonempty : vars.heapHead ≠ 0) (fit : fits size x = true) (positive : 0 < size)
    (whole : ¬ Splits x size) (enough : (pre ++ x :: z :: post).length ≤ fuel) :
    ((kmallocReuse x.addr size).run m).result = x.payload ∧
      ((kfree fuel vars x.payload).run ((kmallocReuse x.addr size).run m).mem).result =
        some (vars, none) ∧
      ((kfree fuel vars x.payload).run ((kmallocReuse x.addr size).run m).mem).mem = m := by
  obtain ⟨isFree, large⟩ : x.free = true ∧ size ≤ x.size := by simpa [fits] using fit
  have header := (linked_append.mp held.linked).2.1
  have edge := held.words.edge
  obtain ⟨-, order, -, ends⟩ := held.pair
  have finZ : z.addr + 20 ≤ z.fin := by unfold Block.fin headerSize; omega
  rw [run_kmallocReuse_whole header whole large (by omega)]
  refine ⟨rfl, kfree_restores held nonempty isFree enough (storedHeader header false) rfl (Nat.le_refl _) rfl
    (Nat.lt_of_lt_of_le positive large) ?_⟩
  rw [writeFree_twice header isFree]
  exact mergeNext_keeps held nonempty isFree

/-- The list and the variables after a split has been undone. -/
theorem WellFormed.rejoined {x z : Block} (held : WellFormed vars m (pre ++ x :: z :: post))
    (splits : Splits x size) (isFree : x.free = true) :
    WellFormed vars (rejoined m x size z.addr) (pre ++ x :: z :: post) :=
  ⟨held.words, held.head, rejoined_linked held splits isFree, held.low, held.layout, held.coalesced,
    held.last⟩

/-- The merge with the remainder undoes a split. -/
theorem mergeNext_rejoins {x z : Block} (held : WellFormed vars m (pre ++ x :: z :: post))
    (splits : Splits x size) :
    ((mergeNext vars x.addr).run (writeWord (split m x.addr size (splitRest x size).addr
      (splitRest x size).size z.addr) (x.addr + 8) 1)).mem = rejoined m x size z.addr := by
  have header : HeaderIs m x (lastAddr 0 pre) z.addr := (linked_append.mp held.linked).2.1
  have low := held.low x (by simp)
  have edge := held.words.edge
  obtain ⟨-, order, -, ends⟩ := held.pair
  have finZ : z.addr + 20 ≤ z.fin := by unfold Block.fin headerSize; omega
  have finX : x.fin = x.addr + 20 + x.size := rfl
  obtain ⟨first, rest⟩ := split_headers header splits (.inr order) (by omega) (by omega)
  simp only [Splits, headerSize, tailSize, minBlockSize] at splits
  have atRest : (splitRest x size).addr = x.addr + 20 + size := rfl
  have restFin : (splitRest x size).fin + 4 = x.fin := by
    simp only [splitRest, Block.fin, headerSize, tailSize]
    omega
  have whole : (join (release (splitFirst x size)) (splitRest x size)).size = x.size := by
    simp only [join, release, splitFirst, splitRest, headerSize, tailSize]
    omega
  rw [rejoined]
  generalize split m x.addr size _ _ z.addr = m₁ at *
  have freed : HeaderIs (writeWord m₁ (x.addr + 8) 1) (release (splitFirst x size)) (lastAddr 0 pre)
      (splitRest x size).addr := storedHeader first true
  have behind : HeaderIs (writeWord m₁ (x.addr + 8) 1) (splitRest x size) x.addr z.addr :=
    rest.frame fun c hc => by
      have inside := blockWords_bounds hc
      exact readWord_writeWord_apart (by omega)
  have isFree : readWord (writeWord m₁ (x.addr + 8) 1) ((splitRest x size).addr + 8) ≠ 0 := by
    rw [behind.free]
    exact (Block.flag_ne_zero _).mpr rfl
  have joins : Joins vars (writeWord m₁ (x.addr + 8) 1) (splitRest x size).addr :=
    ⟨by omega, by omega, by omega, isFree⟩
  have here : (release (splitFirst x size)).addr = x.addr := rfl
  have meets : (release (splitFirst x size)).fin ≤ (splitRest x size).addr := Nat.le_refl _
  generalize release (splitFirst x size) = y at *
  generalize writeWord m₁ (x.addr + 8) 1 = m₂ at *
  rw [← here] at behind
  have run := run_mergeNext_join vars freed behind joins meets (by omega) (by omega)
  rw [here, whole] at run
  rw [run]

theorem split_restores {x z : Block} (held : WellFormed vars m (pre ++ x :: z :: post))
    (nonempty : vars.heapHead ≠ 0) (fit : fits size x = true) (positive : 0 < size)
    (splits : Splits x size) (enough : (pre ++ x :: z :: post).length ≤ fuel) :
    ((kmallocReuse x.addr size).run m).result = x.payload ∧
      ((kfree fuel vars x.payload).run ((kmallocReuse x.addr size).run m).mem).result =
        some (vars, none) ∧
      ((kfree fuel vars x.payload).run ((kmallocReuse x.addr size).run m).mem).mem =
        rejoined m x size z.addr := by
  obtain ⟨isFree, large⟩ : x.free = true ∧ size ≤ x.size := by simpa [fits] using fit
  have header : HeaderIs m x (lastAddr 0 pre) z.addr := (linked_append.mp held.linked).2.1
  have edge := held.words.edge
  obtain ⟨-, order, -, ends⟩ := held.pair
  have finZ : z.addr + 20 ≤ z.fin := by unfold Block.fin headerSize; omega
  have first := (split_headers header splits (.inr order) (by omega) (by omega)).1
  have inside : (splitFirst x size).fin ≤ x.fin := by
    simp only [splitFirst, Block.fin]
    omega
  have freed := kfree_restores (held.rejoined splits isFree) nonempty isFree enough first rfl inside
    rfl positive (mergeNext_rejoins held splits)
  have memory : ((kmallocReuse x.addr size).run m).mem =
      split m x.addr size (splitRest x size).addr (splitRest x size).size z.addr := by
    rw [run_kmallocReuse_split header splits (by omega) (by omega)]
  have result : ((kmallocReuse x.addr size).run m).result = x.payload := by
    rw [run_kmallocReuse_split header splits (by omega) (by omega)]
  rw [memory]
  exact ⟨result, freed⟩

/-- Splitting and coalescing are inverse: on every well formed list a request
that is served from a free block is undone by the release of that block. -/
theorem split_and_coalesce (held : WellFormed vars m bs) (reuses : Reuses vars m size)
    (enough : bs.length ≤ fuel) : Restores vars m bs size fuel := by
  obtain ⟨pre, x, z, post, rfl, fit, returned, memory⟩ := kmalloc_reuses held reuses enough
  have nonempty : vars.heapHead ≠ 0 := by
    obtain ⟨a, listed, -⟩ := reuses.fits
    exact nonempty_of_listed listed
  have isFree : x.free = true := by
    simp only [fits, Bool.and_eq_true] at fit
    exact fit.1
  have positive : 0 < alignUp size := Nat.lt_of_lt_of_le (Nat.pos_of_ne_zero reuses.positive)
    reuses.aligned
  have notNull : x.payload ≠ 0 := by simp [Block.payload, headerSize]
  rw [Restores, returned, memory]
  by_cases splits : Splits x (alignUp size)
  · obtain ⟨ptr, freed, left⟩ := split_restores held nonempty fit positive splits enough
    rw [ptr]
    refine ⟨x.payload, notNull, rfl, freed, ?_⟩
    rw [left]
    exact held.rejoined splits isFree
  · obtain ⟨ptr, freed, left⟩ := whole_restores held nonempty fit positive splits enough
    rw [ptr]
    refine ⟨x.payload, notNull, rfl, freed, ?_⟩
    rw [left]
    exact held

/-- A free block of 64 bytes with a used one behind it. -/
def firstFreed : HeapState := .after [.kmalloc 64, .kmalloc 8, .kfree 0x400014]

theorem firstFreed_wellFormed : WellFormed firstFreed.vars firstFreed.mem
    [⟨0x400000, 64, true, 0⟩, ⟨0x400054, 8, false, 4⟩] where
  words := ⟨by decide, by decide, by decide⟩
  head := by decide
  linked := ⟨⟨by decide, by decide, by decide, by decide, by decide, by decide⟩,
    ⟨by decide, by decide, by decide, by decide, by decide, by decide⟩, trivial⟩
  low := by decide
  layout := by
    have edge : firstFreed.vars.heapEnd = 0x400074 := by decide
    rw [edge]
    exact ⟨rfl, rfl, rfl⟩
  coalesced := by simp [Coalesced]
  last := by simp

/-- A request for eight bytes splits the block. -/
theorem split_and_coalesce_small : Restores firstFreed.vars firstFreed.mem
    [⟨0x400000, 64, true, 0⟩, ⟨0x400054, 8, false, 4⟩] 8 2 :=
  split_and_coalesce firstFreed_wellFormed
    ⟨by decide, by decide, by decide, 0x400000, .head (by decide), by decide⟩ (Nat.le_refl 2)

end ZynthexOS.SplitCoalesce
