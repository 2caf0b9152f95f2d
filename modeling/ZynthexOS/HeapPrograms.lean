import ZynthexOS.HeapRepresentation

/-! Each part of `kmalloc` and `kfree` run once on a memory that holds a list
of blocks: its result, the memory it leaves and the words it touches. Nothing
later unfolds a program again. -/
namespace ZynthexOS.HeapPrograms
open Lib Lib.Memory Mm HeapLayout HeapRepresentation

/-- The neighbour test of both merges, read off memory. -/
def Joins (vars : HeapVars) (m : Mem) (neighbour : Nat) : Prop :=
  neighbour ≠ 0 ∧ vars.heapStart ≤ neighbour ∧ neighbour < vars.heapEnd ∧
    readWord m (neighbour + 8) ≠ 0

theorem run_joins_true (h : Joins vars m y) (hy : y + 8 < 2 ^ 32) :
    (joins vars y).run m = ⟨true, m, [.load (y + 8)]⟩ := by
  obtain ⟨ne, low, high, free⟩ := h
  unfold joins
  rw [if_pos ⟨ne, low, high⟩]
  simp only [freeAt, add32, run_bind, run_load, run_pure, decide_eq_true free, wrap_of_lt hy,
    List.append_nil]

theorem run_joins_false (h : ¬ Joins vars m y) (hy : y + 8 < 2 ^ 32) :
    ((joins vars y).run m).result = false ∧ ((joins vars y).run m).mem = m ∧
      ∀ acc ∈ ((joins vars y).run m).log,
        acc = .load (y + 8) ∧ y ≠ 0 ∧ vars.heapStart ≤ y ∧ y < vars.heapEnd := by
  unfold joins
  split
  · rename_i inside
    simp only [freeAt, add32, run_bind, run_load, run_pure, wrap_of_lt hy, List.append_nil,
      List.mem_singleton, decide_eq_false_iff_not, forall_eq]
    exact ⟨fun free => h ⟨inside.1, inside.2.1, inside.2.2, free⟩, trivial, trivial, inside⟩
  · simp

def relinkLog (z q : Nat) : List Access := if z = 0 then [] else [.store (z + 16) q]

theorem run_setPrev (hz : z + 20 < 2 ^ 32) (hq : q < 2 ^ 32) :
    (setPrev z q).run m =
      ⟨(), relink m z q, relinkLog z q⟩ := by
  unfold setPrev
  by_cases h : z = 0
  · simp [h, relink, relinkLog]
  · simp only [ne_eq, h, not_false_eq_true, if_true, run_store, prevAt, add32, relink, relinkLog, if_false,
      wrap_of_lt hq, wrap_of_lt (show z + 16 < 2 ^ 32 by omega)]

theorem run_mergeNext_join {m : Mem} {x y : Block} {p z : Nat} (vars : HeapVars)
    (hx : HeaderIs m x p y.addr) (hy : HeaderIs m y x.addr z) (joined : Joins vars m y.addr)
    (order : x.fin ≤ y.addr) (bound : y.fin + 20 < 2 ^ 32) (zbound : z + 20 < 2 ^ 32) :
    (mergeNext vars x.addr).run m = ⟨(), HeapRepresentation.joined m x.addr (join x y).size z,
      ([.load (x.addr + 12), .load (y.addr + 8), .load (x.addr + 4), .load (y.addr + 4),
        .store (x.addr + 4) (join x y).size, .load (y.addr + 12), .store (x.addr + 12) z,
        .load (x.addr + 4), .store (join x y).fin heapMagic, .load (x.addr + 12)] : List Access) ++
        relinkLog z x.addr⟩ := by
  have test := run_joins_true joined (by unfold Block.fin headerSize at bound; omega)
  unfold Block.fin headerSize at *
  simp (disch := omega) only [mergeNext, nextAt, sizeAt, tailAt, add32, run_bind, run_load,
    hx.next, test, if_true, run_store, hx.size, hy.size, hy.next, headerSize, tailSize,
    readWord_writeWord_apart, readWord_writeWord_same, wrap_of_lt, run_setPrev]
  simp (disch := omega) [HeapRepresentation.joined, headerSize, tailSize, wrap_of_lt, heapMagic, join]

/-- The tail word of a merge with the previous block must not fall on the link
fields of the block released, which are read after it is written. -/
def ClearOfLinks (x t : Nat) : Prop := t + 4 ≤ x + 12 ∨ x + 20 ≤ t

theorem run_mergePrev_join {m : Mem} {w x : Block} {p z : Nat} (vars : HeapVars)
    (hw : HeaderIs m w p x.addr) (hx : HeaderIs m x w.addr z) (joined : Joins vars m w.addr)
    (order : w.fin ≤ x.addr) (clear : ClearOfLinks x.addr (join w x).fin)
    (bound : x.fin + 20 < 2 ^ 32) (zbound : z + 20 < 2 ^ 32) :
    (mergePrev vars x.addr).run m = ⟨(), HeapRepresentation.joined m w.addr (join w x).size z,
      ([.load (x.addr + 16), .load (w.addr + 8), .load (w.addr + 4), .load (x.addr + 4),
        .store (w.addr + 4) (join w x).size, .load (x.addr + 16), .load (w.addr + 4),
        .store (join w x).fin heapMagic, .load (x.addr + 12), .load (x.addr + 16),
        .store (w.addr + 12) z, .load (x.addr + 12)] : List Access) ++
        if z = 0 then [] else [.load (x.addr + 16), .store (z + 16) w.addr]⟩ := by
  unfold ClearOfLinks at clear
  rw [join_fin] at clear
  simp only [Block.fin, headerSize] at order bound
  have test := run_joins_true joined (by omega)
  rw [HeapRepresentation.joined, join_size, headerSize, writeWord_comm (by omega)]
  simp (disch := omega) only [mergePrev, nextAt, sizeAt, tailAt, prevAt, add32, run_bind, run_load,
    hx.prev, test, if_true, run_store, hx.size, hw.size, headerSize, tailSize,
    readWord_writeWord_apart, readWord_writeWord_same, wrap_of_lt, hx.next]
  by_cases hz : z = 0
  · simp (disch := omega) [hz, wrap_of_lt, heapMagic, join_fin, relink]
  · simp (disch := omega) [hz, wrap_of_lt, heapMagic, join_fin, relink,
      readWord_writeWord_apart, hx.prev]

theorem run_mergeNext_stay (apart : ¬ Joins vars m (readWord m (x + 12))) (hx : x + 20 < 2 ^ 32)
    (hy : readWord m (x + 12) + 8 < 2 ^ 32) :
    ((mergeNext vars x).run m).mem = m ∧ ∀ acc ∈ ((mergeNext vars x).run m).log,
      acc = .load (x + 12) ∨ acc = .load (readWord m (x + 12) + 8) ∧
        vars.heapStart ≤ readWord m (x + 12) ∧ readWord m (x + 12) < vars.heapEnd := by
  obtain ⟨test, kept, log⟩ := run_joins_false apart hy
  simp (disch := omega) only [mergeNext, nextAt, add32, run_bind, run_load, wrap_of_lt, test, kept,
    Bool.false_eq_true, if_false, run_pure, List.append_nil, List.mem_append, List.mem_singleton,
    true_and]
  rintro acc (rfl | member)
  · exact .inl rfl
  · exact .inr ⟨(log acc member).1, (log acc member).2.2⟩

theorem run_mergePrev_stay (apart : ¬ Joins vars m (readWord m (x + 16))) (hx : x + 20 < 2 ^ 32)
    (hw : readWord m (x + 16) + 8 < 2 ^ 32) :
    ((mergePrev vars x).run m).mem = m ∧ ∀ acc ∈ ((mergePrev vars x).run m).log,
      acc = .load (x + 16) ∨ acc = .load (readWord m (x + 16) + 8) ∧
        vars.heapStart ≤ readWord m (x + 16) ∧ readWord m (x + 16) < vars.heapEnd := by
  obtain ⟨test, kept, log⟩ := run_joins_false apart hw
  simp (disch := omega) only [mergePrev, prevAt, add32, run_bind, run_load, wrap_of_lt, test, kept,
    Bool.false_eq_true, if_false, run_pure, List.append_nil, List.mem_append, List.mem_singleton,
    true_and]
  rintro acc (rfl | member)
  · exact .inl rfl
  · exact .inr ⟨(log acc member).1, (log acc member).2.2⟩

/-- Every header of a list lies in the address space and none is NULL. -/
def Addressed (bs : List Block) : Prop := ∀ c ∈ bs, c.addr ≠ 0 ∧ c.addr + 20 < 2 ^ 32

/-- The walk to the end of the list reads `next` fields only and ends at the
last block once the fuel covers the list. -/
theorem run_lastBlock (held : Linked m p (b :: bs) 0) (addressed : Addressed (b :: bs))
    (fuel : Nat) :
    ((lastBlock fuel b.addr).run m).mem = m ∧
      ((lastBlock fuel b.addr).run m).result =
        (if bs.length < fuel then some (lastAddr b.addr bs) else none) ∧
      ∀ acc ∈ ((lastBlock fuel b.addr).run m).log, ∃ c ∈ b :: bs, acc = .load (c.addr + 12) := by
  have small := (addressed b (by simp)).2
  induction bs generalizing p b fuel with
  | nil =>
    cases fuel with
    | zero => simp [lastBlock]
    | succ fuel =>
      have next := held.1.next
      simp (disch := omega) [lastBlock, nextAt, add32, wrap_of_lt, next]
  | cons c bs ih =>
    cases fuel with
    | zero => simp [lastBlock]
    | succ fuel =>
      obtain ⟨header, rest⟩ := held
      have next := header.next
      have tail : Addressed (c :: bs) := fun d member => addressed d (by simp [member])
      obtain ⟨ne, smallC⟩ := tail c (by simp)
      obtain ⟨mem, result, log⟩ := ih rest tail fuel smallC
      simp (disch := omega) only [lastBlock, nextAt, add32, run_bind, run_load, wrap_of_lt, next,
        headAddr_cons, if_neg ne, mem, result, lastAddr_cons, List.length_cons,
        Nat.succ_lt_succ_iff, true_and]
      intro acc member
      simp only [List.mem_append, List.mem_singleton] at member
      rcases member with rfl | member
      · exact ⟨b, by simp, rfl⟩
      · obtain ⟨d, inside, same⟩ := log acc member
        exact ⟨d, List.mem_cons_of_mem _ inside, same⟩

/-- The search of `kmalloc` over a list: the first free block that is large
enough, or the last block of the list. -/
def searchList (size : Nat) : Block → List Block → Search
  | b, [] => if fits size b then .found b.addr else .last b.addr
  | b, c :: bs => if fits size b then .found b.addr else searchList size c bs

/-- The search stops at a block that fits. -/
theorem run_searchFree_fits (header : HeaderIs m b p z) (small : b.addr + 20 < 2 ^ 32)
    (here : fits size b = true) (fuel : Nat) :
    (searchFree size (fuel + 1) b.addr).run m =
      ⟨some (.found b.addr), m, [.load (b.addr + 8), .load (b.addr + 4)]⟩ := by
  obtain ⟨isFree, big⟩ : b.free = true ∧ size ≤ b.size := by simpa [fits] using here
  have free : readWord m (b.addr + 8) ≠ 0 := by rwa [header.free, Block.flag_ne_zero]
  simp (disch := omega) only [searchFree, freeAt, sizeAt, add32, run_bind, run_load, run_pure, wrap_of_lt,
    if_pos free, header.size, decide_eq_true big, if_true, List.append_nil, List.cons_append,
    List.nil_append]

/-- It goes on to the next block from any other. -/
theorem run_searchFree_skips (header : HeaderIs m b p z) (small : b.addr + 20 < 2 ^ 32)
    (skip : fits size b = false) (fuel : Nat) :
    ∃ log : List Access, (∀ acc ∈ log, ∃ a, acc = .load a) ∧
      (searchFree size (fuel + 1) b.addr).run m =
        if z = 0 then ⟨some (.last b.addr), m, log⟩
        else ⟨((searchFree size fuel z).run m).result, ((searchFree size fuel z).run m).mem,
          log ++ ((searchFree size fuel z).run m).log⟩ := by
  by_cases isFree : b.free = true
  · have short : ¬ size ≤ b.size := by simpa [fits, isFree] using skip
    have free : readWord m (b.addr + 8) ≠ 0 := by rwa [header.free, Block.flag_ne_zero]
    refine ⟨[.load (b.addr + 8), .load (b.addr + 4), .load (b.addr + 12)], by simp, ?_⟩
    simp (disch := omega) only [searchFree, freeAt, sizeAt, nextAt, add32, run_bind, run_load,
      run_pure, wrap_of_lt, if_pos free, header.size, decide_eq_false short, header.next,
      Bool.false_eq_true, if_false]
    split_ifs <;> rfl
  · have used : ¬ readWord m (b.addr + 8) ≠ 0 := by rwa [header.free, Block.flag_ne_zero]
    refine ⟨[.load (b.addr + 8), .load (b.addr + 12)], by simp, ?_⟩
    simp (disch := omega) only [searchFree, freeAt, nextAt, add32, run_bind, run_load, run_pure,
      wrap_of_lt, if_neg used, header.next, Bool.false_eq_true, if_false]
    split_ifs <;> rfl

theorem run_searchFree (held : Linked m p (b :: bs) 0) (addressed : Addressed (b :: bs))
    (size fuel : Nat) :
    ((searchFree size fuel b.addr).run m).mem = m ∧
      (((searchFree size fuel b.addr).run m).result = none ∨
        ((searchFree size fuel b.addr).run m).result = some (searchList size b bs)) ∧
      (bs.length < fuel → ((searchFree size fuel b.addr).run m).result ≠ none) ∧
      ∀ acc ∈ ((searchFree size fuel b.addr).run m).log, ∃ a, acc = .load a := by
  have small := (addressed b (by simp)).2
  induction bs generalizing p b fuel with
  | nil =>
    cases fuel with
    | zero => simp [searchFree]
    | succ fuel =>
      cases here : fits size b with
      | true =>
        rw [run_searchFree_fits held.1 small here]
        simp [searchList, here]
      | false =>
        have header : HeaderIs m b p 0 := held.1
        obtain ⟨log, loads, run⟩ := run_searchFree_skips header small here fuel
        rw [run, if_pos rfl]
        simpa [searchList, here] using loads
  | cons c bs ih =>
    cases fuel with
    | zero => simp [searchFree]
    | succ fuel =>
      cases here : fits size b with
      | true =>
        rw [run_searchFree_fits held.1 small here]
        simp [searchList, here]
      | false =>
        have header : HeaderIs m b p c.addr := held.1
        obtain ⟨log, loads, run⟩ := run_searchFree_skips header small here fuel
        have tail : Addressed (c :: bs) := fun d member => addressed d (by simp [member])
        obtain ⟨ne, smallC⟩ := tail c (by simp)
        obtain ⟨mem, result, total, rest⟩ := ih held.2 tail fuel smallC
        rw [run, if_neg ne]
        simp only [searchList, here, Bool.false_eq_true, if_false, List.length_cons,
          Nat.succ_lt_succ_iff, List.mem_append]
        refine ⟨mem, result, total, fun acc member => ?_⟩
        exact member.elim (loads acc) (rest acc)

theorem searchList_cases (size : Nat) (b : Block) (bs : List Block) :
    (∃ pre x post, b :: bs = pre ++ x :: post ∧ (∀ c ∈ pre, fits size c = false) ∧
      fits size x = true ∧ searchList size b bs = .found x.addr) ∨
    ((∀ c ∈ b :: bs, fits size c = false) ∧ searchList size b bs = .last (lastAddr b.addr bs)) := by
  induction bs generalizing b with
  | nil =>
    by_cases here : fits size b = true
    · exact .inl ⟨[], b, [], rfl, by simp, here, by simp [searchList, here]⟩
    · exact .inr ⟨by simpa using here, by simp [searchList, here]⟩
  | cons c bs ih =>
    by_cases here : fits size b = true
    · exact .inl ⟨[], b, c :: bs, rfl, by simp, here, by simp [searchList, here]⟩
    · rcases ih c with ⟨pre, x, post, same, before, this, found⟩ | ⟨none, last⟩
      · refine .inl ⟨b :: pre, x, post, by simp [same], ?_, this, by simp [searchList, here, found]⟩
        simpa using ⟨by simpa using here, before⟩
      · refine .inr ⟨?_, by simp [searchList, here, last]⟩
        intro d member
        rcases List.mem_cons.mp member with rfl | member
        · simpa using here
        · exact none d member

/-- The six stores that make a block: its header and its tail word. -/
def blockAt (m : Mem) (n size free next prev : Nat) : Mem :=
  writeWord (writeWord (writeWord (writeWord (writeWord (writeWord m n heapMagic) (n + 4) size)
    (n + 8) free) (n + 12) next) (n + 16) prev) (n + headerSize + size) heapMagic

theorem readWord_blockAt (outside : c + 4 ≤ n ∨ n + headerSize + size + 4 ≤ c) :
    readWord (blockAt m n size free next prev) c = readWord m c := by
  unfold headerSize at outside
  unfold blockAt
  simp (disch := omega) only [headerSize, readWord_writeWord_apart]

theorem blockAt_header {next prev : Nat} (bound : b.fin + 4 ≤ 2 ^ 32) (small : next < 2 ^ 32)
    (small' : prev < 2 ^ 32) : HeaderIs (blockAt m b.addr b.size b.flag next prev) b prev next := by
  simp only [Block.fin, headerSize] at bound
  have flag : b.flag < 2 ^ 32 := by
    unfold Block.flag
    split <;> decide
  unfold blockAt
  constructor
  all_goals simp (disch := omega) only [Block.fin, headerSize, readWord_writeWord_apart,
    readWord_writeWord_same, wrap_of_lt, heapMagic]

/-- The header and tail word `splitBlock` writes for the remainder at `n`. -/
def remainder (m : Mem) (x n rest z : Nat) : Mem :=
  writeWord (writeWord (writeWord (writeWord (writeWord (writeWord m n heapMagic) (n + 4) rest)
    (n + 8) 1) (n + 12) z) (n + 16) x) (n + headerSize + rest) heapMagic

/-- The memory `splitBlock` and the final `current->free = 0` leave, `n` being
the remainder's header, `rest` its size and `z` the header after it. -/
def split (m : Mem) (x size n rest z : Nat) : Mem :=
  writeWord (writeWord (writeWord (writeWord (relink (remainder m x n rest z) z n) (x + 4) size)
    (x + 12) n) n heapMagic) (x + 8) 0

/-- The remainder of a split, in terms of what is left of the payload. -/
theorem splitRest_eq (x : Block) (size : Nat) (room : size + 24 ≤ x.size) :
    ∃ rest, x.size = size + rest + 24 ∧ (splitRest x size).size = rest ∧
      (splitRest x size).fin = x.addr + 20 + size + 20 + rest := by
  refine ⟨x.size - size - 24, by omega, ?_, ?_⟩
  all_goals simp only [Block.fin, splitRest, headerSize, tailSize]
  all_goals omega

theorem run_kmallocReuse_split {m : Mem} {x : Block} {p z size : Nat}
    (hx : HeaderIs m x p z) (splits : Splits x size) (bound : x.fin + 20 < 2 ^ 32)
    (zbound : z + 20 < 2 ^ 32) :
    (kmallocReuse x.addr size).run m =
      ⟨x.payload, split m x.addr size (splitRest x size).addr (splitRest x size).size z,
        ([.load (x.addr + 4), .store (splitRest x size).addr heapMagic, .load (x.addr + 4),
          .store ((splitRest x size).addr + 4) (splitRest x size).size,
          .store ((splitRest x size).addr + 8) 1, .load (x.addr + 12),
          .store ((splitRest x size).addr + 12) z, .store ((splitRest x size).addr + 16) x.addr,
          .load ((splitRest x size).addr + 4), .store (splitRest x size).fin heapMagic,
          .load ((splitRest x size).addr + 12)] : List Access) ++
        relinkLog z (splitRest x size).addr ++
        ([.store (x.addr + 4) size, .store (x.addr + 12) (splitRest x size).addr,
          .store (splitFirst x size).fin heapMagic, .store (x.addr + 8) 0] : List Access)⟩ := by
  simp only [Splits, Block.fin, headerSize, tailSize, minBlockSize] at splits bound
  obtain ⟨rest, hrest, restSize, restFin⟩ := splitRest_eq x size (by omega)
  have restAddr : (splitRest x size).addr = x.addr + 20 + size := rfl
  have firstFin : (splitFirst x size).fin = x.addr + 20 + size := rfl
  simp only [restSize, restAddr, restFin, firstFin]
  have large : x.size ≥ add32 (add32 (add32 size 20) 4) 8 := by
    simp (disch := omega) only [add32, wrap_of_lt]
    omega
  simp (disch := omega) only [kmallocReuse, splitIfLarge, sizeAt, run_bind, run_load, add32,
    wrap_of_lt, hx.size, headerSize, tailSize, minBlockSize] at large ⊢
  rw [if_pos large]
  have subs : sub32 (sub32 (sub32 x.size size) 20) 4 = rest := by
    simp (disch := omega) only [sub32_of_le]
    omega
  simp (disch := omega) only [splitBlock, tailAt, magicAt, sizeAt, freeAt, nextAt, prevAt, add32,
    run_bind, run_load, run_store, hx.size, hx.next, headerSize, tailSize, subs,
    readWord_writeWord_apart, readWord_writeWord_same, wrap_of_lt, run_setPrev, Nat.add_zero]
  simp [split, remainder, heapMagic, wrap_of_lt, Block.payload, headerSize]

theorem run_kmallocReuse_whole {m : Mem} {x : Block} {p z size : Nat}
    (hx : HeaderIs m x p z) (whole : ¬ Splits x size) (big : size ≤ x.size) (bound : x.fin + 20 < 2 ^ 32) :
    (kmallocReuse x.addr size).run m =
      ⟨x.payload, writeWord m (x.addr + 8) 0, [.load (x.addr + 4), .store (x.addr + 8) 0]⟩ := by
  simp only [Splits, Block.fin, headerSize, tailSize, minBlockSize] at whole bound
  have small : ¬ x.size ≥ add32 (add32 (add32 size 20) 4) 8 := by
    simp (disch := omega) only [add32, wrap_of_lt]
    omega
  simp (disch := omega) only [kmallocReuse, splitIfLarge, sizeAt, freeAt, run_bind, run_load,
    run_store, run_pure, hx.size, wrap_of_lt, headerSize, tailSize, minBlockSize, add32] at small ⊢
  rw [if_neg small]
  simp [Block.payload, headerSize]

/-- The header after a store to its `free` field. -/
theorem storedHeader {x : Block} {p z : Nat} (header : HeaderIs m x p z) (free : Bool) :
    HeaderIs (writeWord m (x.addr + 8) (Block.flag { x with free := free })) { x with free := free }
      p z := by
  have small : Block.flag { x with free := free } < 2 ^ 32 := by
    unfold Block.flag
    split <;> decide
  have magic := header.magic
  have size := header.size
  have next := header.next
  have prev := header.prev
  have tail := header.tail
  simp only [Block.fin, headerSize] at tail
  constructor
  all_goals simp (disch := omega) only [Block.fin, headerSize, readWord_writeWord_apart,
    readWord_writeWord_same, wrap_of_lt, magic, size, next, prev, tail]

/-- Changing the `free` field of one block. -/
theorem writeFree_stored (held : Stored m (pre ++ x :: post) stop) (f : Bool) (v : Nat)
    (hv : v = Block.flag { x with free := f }) :
    Stored (writeWord m (x.addr + 8) v) (pre ++ { x with free := f } :: post) stop := by
  obtain ⟨layoutPre, layoutPost, linkedPre, header, linkedPost⟩ := held.around
  have top := held.top
  have wx := held.wf x (by simp)
  have lowX := layoutPre.le
  have highX := layoutPost.le
  simp only [Block.width, headerSize, tailSize, kernelHeapStart, kernelHeapEnd] at lowX highX top
  have layout : Layout kernelHeapStart (pre ++ { x with free := f } :: post) stop := by
    have whole : Layout kernelHeapStart (pre ++ [x] ++ post) stop := by simpa using held.layout
    have moved : Layout kernelHeapStart (pre ++ [{ x with free := f }] ++ post) stop :=
      whole.replace fun c d same => ⟨same.1, same.2⟩
    simpa using moved
  refine ⟨linked_append.mpr ⟨?_, ?_, ?_⟩, layout, ?_, held.top⟩
  · refine linkedPre.write fun b member => ?_
    have bounds := layoutPre.mem member
    simp only [Block.fin, Block.width, headerSize] at bounds ⊢
    omega
  · rw [hv]
    exact storedHeader header f
  · refine linkedPost.write fun b member => ?_
    have bounds := layoutPost.mem member
    simp only [Block.fin, Block.width, headerSize] at bounds ⊢
    omega
  · intro b member
    simp only [List.mem_append, List.mem_cons] at member
    rcases member with member | rfl | member
    · exact held.wf b (by simp [member])
    · exact ⟨wx.positive, wx.aligned, wx.words⟩
    · exact held.wf b (by simp [member])

/-- Outside the block a split changes the `prev` field behind it only; inside,
the block's magic and `prev` stay. -/
theorem readWord_split {x : Block} (splits : Splits x size)
    (outside : c ≤ x.addr ∨ c = x.addr + 16 ∨ x.fin ≤ c) :
    readWord (split m x.addr size (splitRest x size).addr (splitRest x size).size z) c =
      readWord (relink m z (splitRest x size).addr) c := by
  obtain ⟨n, atN⟩ : ∃ n, (splitRest x size).addr = n := ⟨_, rfl⟩
  obtain ⟨rest, hrest⟩ : ∃ rest, (splitRest x size).size = rest := ⟨_, rfl⟩
  simp only [Splits, Block.fin, splitRest, headerSize, tailSize, minBlockSize] at *
  have kept : readWord (remainder m x.addr n rest z) c = readWord m c := by
    apply readWord_blockAt
    simp only [headerSize]
    omega
  have relinked : readWord (relink (remainder m x.addr n rest z) z n) c =
      readWord (relink m z n) c := by
    unfold relink
    split_ifs
    · exact kept
    · exact readWord_writeWord_congr kept _ _
  rw [atN, hrest, ← relinked]
  unfold split
  simp (disch := omega) only [readWord_writeWord_apart]

/-- The two headers a split leaves. -/
theorem split_headers {x : Block} {p z : Nat} (header : HeaderIs m x p z) (splits : Splits x size)
    (order : z = 0 ∨ x.fin ≤ z) (bound : x.fin + 20 < 2 ^ 32) (zbound : z + 20 < 2 ^ 32) :
    HeaderIs (split m x.addr size (splitRest x size).addr (splitRest x size).size z)
      (splitFirst x size) p (splitRest x size).addr ∧
    HeaderIs (split m x.addr size (splitRest x size).addr (splitRest x size).size z)
      (splitRest x size) x.addr z := by
  have finX : x.fin = x.addr + 20 + x.size := rfl
  have magic : readWord (split m x.addr size (splitRest x size).addr (splitRest x size).size z)
      x.addr = heapMagic := by
    rw [readWord_split splits (.inl (Nat.le_refl _)), readWord_relink (by omega), header.magic]
  have prev : readWord (split m x.addr size (splitRest x size).addr (splitRest x size).size z)
      (x.addr + 16) = p := by
    simp only [Splits, headerSize] at splits
    rw [readWord_split splits (.inr (.inl rfl)), readWord_relink (by omega), header.prev]
  simp only [Splits, Block.fin, headerSize, tailSize, minBlockSize] at splits order bound
  obtain ⟨rest, hrest, restSize, restFin⟩ := splitRest_eq x size (by omega)
  have restAddr : (splitRest x size).addr = x.addr + 20 + size := rfl
  constructor
  · simp only [split, restAddr] at magic prev ⊢
    generalize relink _ _ _ = before at magic prev
    simp (disch := omega) only [readWord_writeWord_apart] at magic prev
    constructor
    all_goals simp (disch := omega) only [splitFirst, Block.flag, Block.fin, headerSize,
      readWord_writeWord_apart, readWord_writeWord_same, wrap_of_lt, magic, prev, heapMagic,
      Bool.false_eq_true, if_false]
  · have new : HeaderIs (remainder m x.addr (splitRest x size).addr (splitRest x size).size z)
        (splitRest x size) x.addr z := blockAt_header (by omega) (by omega) (by omega)
    have linked : Linked (relink (remainder m x.addr (splitRest x size).addr (splitRest x size).size
        z) z (splitRest x size).addr) x.addr [splitRest x size] z := by
      refine ⟨new.frame fun c hc => readWord_relink ?_, trivial⟩
      have inside := blockWords_bounds hc
      omega
    refine (Linked.write (.writeMagic (.write (.write linked ?_) ?_) ?_) ?_).1
    all_goals
      intro b member
      cases List.mem_singleton.mp member
      omega

theorem split_stored (held : Stored m (pre ++ x :: post) stop) (splits : Splits x size)
    (positive : 0 < size) (aligned : size % 8 = 0) :
    Stored (split m x.addr size (splitRest x size).addr (splitRest x size).size (headAddr post 0))
      (pre ++ carve x size ++ post) stop := by
  obtain ⟨layoutPre, layoutPost, linkedPre, header, linkedPost⟩ := held.around
  have top := held.top
  have wx := held.wf x (by simp)
  have lowX := layoutPre.le
  have highX := layoutPost.le
  have layout : Layout kernelHeapStart (pre ++ carve x size ++ post) stop :=
    Tiles.replace (by simpa using held.layout) fun c d => carve_layout
  have wf : ∀ b ∈ pre ++ carve x size ++ post, b.Wf := by
    intro b member
    simp only [List.mem_append] at member
    rcases member with (member | member) | member
    · exact held.wf b (by simp [member])
    · exact carve_wf wx positive aligned b member
    · exact held.wf b (by simp [member])
  refine ⟨?_, layout, wf, held.top⟩
  have hz : headAddr post 0 = 0 ∨ headAddr post 0 = x.addr + x.width := by
    cases post with
    | nil => exact .inl rfl
    | cons z post => exact .inr layoutPost.1
  simp only [Block.width, headerSize, tailSize, kernelHeapStart, kernelHeapEnd] at lowX highX top hz
  have bound : x.fin + 20 < 2 ^ 32 := by
    simp only [Block.fin, headerSize]
    omega
  have order : headAddr post 0 = 0 ∨ x.fin ≤ headAddr post 0 := by
    simp only [Block.fin, headerSize]
    omega
  obtain ⟨first, rest⟩ := split_headers header splits order bound (by omega)
  rw [List.append_assoc, linked_append, carve, if_pos splits]
  refine ⟨linkedPre.frame fun b member c hc => ?_, first, rest, ?_⟩
  · have bounds := layoutPre.mem member
    have inside := blockWords_bounds hc
    simp only [Block.fin, Block.width, headerSize] at bounds inside
    rw [readWord_split splits (.inl (by omega)), readWord_relink (by omega)]
  · have relinked := linkedPost.relink (q := (splitRest x size).addr) layoutPost
      (by simp only [Block.width, headerSize]; omega)
      (by simp only [Splits, splitRest, headerSize, tailSize, minBlockSize] at splits ⊢; omega)
    refine relinked.frame fun b member c hc => ?_
    have bounds := layoutPost.mem member
    have inside := blockWords_bounds hc
    simp only [Block.width, headerSize] at bounds inside
    exact readWord_split splits (.inr (.inr (by simp only [Block.fin, headerSize]; omega)))

/-- The header and tail word of a new block at `e`, its predecessor being `p`. -/
def fresh (m : Mem) (e size p : Nat) : Mem :=
  writeWord (writeWord (writeWord (writeWord (writeWord (writeWord m e heapMagic) (e + 4) size)
    (e + 8) 0) (e + 12) 0) (e + 16) p) (e + headerSize + size) heapMagic

theorem run_kmallocFirst {vars : HeapVars} {size : Nat}
    (bound : vars.heapEnd + headerSize + size < kernelHeapEnd) :
    (kmallocFirst vars size).run m =
      ⟨({ vars with heapHead := vars.heapEnd, heapEnd := vars.heapEnd + headerSize + size },
          vars.heapEnd + headerSize), fresh m vars.heapEnd size 0,
        [.store vars.heapEnd heapMagic, .store (vars.heapEnd + 4) size, .store (vars.heapEnd + 8) 0,
          .store (vars.heapEnd + 12) 0, .store (vars.heapEnd + 16) 0,
          .store (vars.heapEnd + headerSize + size) heapMagic]⟩ := by
  have inside : ¬ add32 (add32 vars.heapEnd headerSize) size ≥ kernelHeapEnd := by
    simp only [headerSize, kernelHeapEnd] at *
    simp (disch := omega) only [add32, wrap_of_lt]
    omega
  rw [kmallocFirst, if_neg inside]
  simp only [headerSize, kernelHeapEnd] at *
  simp (disch := omega) [magicAt, sizeAt, freeAt, nextAt, prevAt, tailAt, add32, wrap_of_lt, fresh, headerSize,
    heapMagic]

theorem run_kmallocFirst_full {vars : HeapVars} {size : Nat} (small : vars.heapEnd + headerSize + size < 2 ^ 32)
    (full : kernelHeapEnd ≤ vars.heapEnd + headerSize + size) :
    (kmallocFirst vars size).run m = ⟨(vars, 0), m, []⟩ := by
  have outside : add32 (add32 vars.heapEnd headerSize) size ≥ kernelHeapEnd := by
    simp only [headerSize] at *
    simp (disch := omega) only [add32, wrap_of_lt]
    omega
  simp only [kmallocFirst]
  rw [if_pos outside, run_pure]

theorem run_kmallocAppend {vars : HeapVars} {current size : Nat}
    (bound : vars.heapEnd + headerSize + size + tailSize < kernelHeapEnd) (small : current < kernelHeapEnd) :
    (kmallocAppend vars current size).run m =
      ⟨({ vars with heapEnd := vars.heapEnd + headerSize + size + tailSize }, vars.heapEnd + headerSize),
        writeWord (fresh m vars.heapEnd size current) (current + 12) vars.heapEnd,
        [.store vars.heapEnd heapMagic, .store (vars.heapEnd + 4) size, .store (vars.heapEnd + 8) 0,
          .store (vars.heapEnd + 12) 0, .store (vars.heapEnd + 16) current, .load (vars.heapEnd + 4),
          .store (vars.heapEnd + headerSize + size) heapMagic, .store (current + 12) vars.heapEnd]⟩ := by
  simp only [headerSize, tailSize, kernelHeapEnd] at bound small
  have newEnd : add32 (add32 (add32 vars.heapEnd 20) size) 4 = vars.heapEnd + 20 + size + 4 := by
    simp (disch := omega) only [add32, wrap_of_lt]
  simp only [kmallocAppend, kernelHeapEnd, headerSize, tailSize, newEnd]
  rw [if_neg (by omega), if_neg (by omega)]
  simp (disch := omega) [magicAt, sizeAt, freeAt, nextAt, prevAt, tailAt, add32, wrap_of_lt, fresh, headerSize,
    heapMagic, readWord_writeWord_apart, readWord_writeWord_same]

theorem run_kmallocAppend_full {vars : HeapVars} {current size : Nat}
    (full : add32 (add32 (add32 vars.heapEnd headerSize) size) tailSize < vars.heapEnd ∨
      add32 (add32 (add32 vars.heapEnd headerSize) size) tailSize ≥ kernelHeapEnd) :
    (kmallocAppend vars current size).run m = ⟨(vars, 0), m, []⟩ := by
  simp only [kmallocAppend]
  by_cases wraps : add32 (add32 (add32 vars.heapEnd headerSize) size) tailSize < vars.heapEnd
  · rw [if_pos wraps, run_pure]
  · rw [if_neg wraps, if_pos (full.resolve_left wraps), run_pure]

theorem fresh_header {p : Nat} (bound : b.fin + 4 ≤ 2 ^ 32) (used : b.free = false) (hp : p < 2 ^ 32) :
    HeaderIs (fresh m b.addr b.size p) b p 0 := by
  have header : HeaderIs (blockAt m b.addr b.size b.flag 0 p) b p 0 :=
    blockAt_header bound (by decide) hp
  have flag : b.flag = 0 := by simp [Block.flag, used]
  rwa [flag] at header

theorem append_stored (held : Stored m (pre ++ [l]) stop) (used : b.free = false)
    (here : b.addr = stop) (wf : b.Wf) (top : b.fin + b.slack + 4 ≤ kernelHeapEnd) :
    Stored (writeWord (fresh m b.addr b.size l.addr) (l.addr + 12) b.addr) (pre ++ [l, b])
      (b.fin + b.slack) := by
  obtain ⟨layoutPre, layoutPost, linkedPre, header, -⟩ := held.around
  have atStop : l.addr + l.width = stop := layoutPost
  have lowL := layoutPre.le
  have words := (held.wf l (by simp)).words
  simp only [Block.width, Block.fin, headerSize, kernelHeapStart, kernelHeapEnd] at atStop lowL top
  have layout : Layout kernelHeapStart (pre ++ [l, b]) (b.fin + b.slack) := by
    have before := held.layout
    rw [show pre ++ [l, b] = (pre ++ [l]) ++ [b] by simp]
    refine tiles_append.mpr ⟨stop, before, here, ?_⟩
    simp only [tiles_nil, Block.width, Block.fin, headerSize]
    omega
  refine ⟨linked_append.mpr ⟨?_, ?_, ?_, trivial⟩, layout, ?_, ?_⟩
  · refine linkedPre.frame fun c member k hk => ?_
    have bounds := layoutPre.mem member
    have inside := blockWords_bounds hk
    simp only [Block.fin, Block.width, headerSize] at bounds inside
    refine readWord_writeWord_apart (by omega) |>.trans (readWord_blockAt (.inl ?_))
    omega
  · have written : Linked (fresh m b.addr b.size l.addr) (lastAddr 0 pre) [l] 0 := by
      unfold fresh
      refine Linked.write (.write (.write (.write (.write (.writeMagic ⟨header, trivial⟩
        ?_) ?_) ?_) ?_) ?_) ?_
      all_goals
        intro c member
        cases List.mem_singleton.mp member
        simp only [Block.fin, headerSize]
        omega
    obtain ⟨magic, size, free, -, prev, tail⟩ := written.1
    simp only [Block.fin, headerSize] at tail
    constructor
    all_goals simp (disch := omega) only [headAddr_cons, Block.fin, headerSize,
      readWord_writeWord_apart, readWord_writeWord_same, wrap_of_lt, magic, size, free, prev, tail]
  · have new : Linked (fresh m b.addr b.size l.addr) l.addr [b] 0 :=
      ⟨fresh_header (by simp only [Block.fin, headerSize]; omega) used (by omega), trivial⟩
    refine (new.write fun c member => ?_).1
    cases List.mem_singleton.mp member
    simp only [Block.fin, headerSize]
    omega
  · intro c member
    simp only [List.mem_append, List.mem_cons, List.not_mem_nil, or_false] at member
    rcases member with member | rfl | rfl
    · exact held.wf c (by simp [member])
    · exact held.wf c (by simp)
    · exact wf
  · simp only [Block.fin, headerSize, tailSize, kernelHeapEnd]
    omega

/-- The first block of an empty heap. -/
theorem first_stored (used : b.free = false) (here : b.addr = kernelHeapStart) (wf : b.Wf)
    (top : b.fin + b.slack + 4 ≤ kernelHeapEnd) :
    Stored (fresh m b.addr b.size 0) [b] (b.fin + b.slack) := by
  simp only [Block.fin, headerSize, kernelHeapEnd] at top
  refine ⟨⟨fresh_header (by simp only [Block.fin, headerSize]; omega) used (by decide), trivial⟩,
    ⟨here, ?_⟩, by simpa using wf, ?_⟩
  · simp only [tiles_nil, Block.width, Block.fin, here]
    omega
  · simp only [Block.fin, headerSize, tailSize, kernelHeapEnd]
    omega

/-- The end of `kfree` over a nonempty list: a single free block empties the
heap, and otherwise `heap_end` drops to a last block that is free. -/
def givenBack (vars : HeapVars) (b : Block) (bs : List Block) : HeapVars :=
  if bs = [] ∧ b.free = true then { vars with heapEnd := vars.heapStart, heapHead := 0 }
  else if (b :: bs).getLast (by simp) |>.free then
    { vars with heapEnd := ((b :: bs).getLast (by simp)).addr } else vars

theorem lastAddr_getLast (prev : Nat) (b : Block) (bs : List Block) :
    lastAddr prev (b :: bs) = ((b :: bs).getLast (by simp)).addr := by
  induction bs generalizing prev b with
  | nil => rfl
  | cons c bs ih => simpa using ih b.addr c

theorem Linked.getLast (held : Linked m prev (b :: bs) after) :
    ∃ p, HeaderIs m ((b :: bs).getLast (by simp)) p after := by
  induction bs generalizing prev b with
  | nil => exact ⟨prev, held.1⟩
  | cons c bs ih => simpa using ih held.2

theorem run_singleFree (held : Linked m p (b :: bs) 0) (addressed : Addressed (b :: bs)) :
    ((singleFree b.addr).run m).mem = m ∧
      (((singleFree b.addr).run m).result = true ↔ bs = [] ∧ b.free = true) ∧
      ∀ acc ∈ ((singleFree b.addr).run m).log,
        acc = .load (b.addr + 8) ∨ acc = .load (b.addr + 12) := by
  obtain ⟨ne, small⟩ := addressed b (by simp)
  have free := held.1.free
  have next := held.1.next
  have last : headAddr bs 0 = 0 ↔ bs = [] := by
    cases bs with
    | nil => simp
    | cons c bs => simpa using (addressed c (by simp)).1
  cases isFree : b.free <;>
    simp (disch := omega) [singleFree, freeAt, nextAt, add32, wrap_of_lt, free, next, isFree,
      Block.flag, last]

theorem run_giveBack {vars : HeapVars} (held : Linked m 0 (b :: bs) 0)
    (addressed : Addressed (b :: bs)) (head : vars.heapHead = b.addr) (fuel : Nat) :
    ((giveBack fuel vars).run m).mem = m ∧
      (((giveBack fuel vars).run m).result = none ∨
        ((giveBack fuel vars).run m).result = some (givenBack vars b bs)) ∧
      (bs.length < fuel → ((giveBack fuel vars).run m).result ≠ none) ∧
      ∀ acc ∈ ((giveBack fuel vars).run m).log,
        ∃ c ∈ b :: bs, acc = .load (c.addr + 8) ∨ acc = .load (c.addr + 12) := by
  have ne := (addressed b (by simp)).1
  obtain ⟨testMem, test, testLog⟩ := run_singleFree held addressed
  obtain ⟨walkMem, walk, walkLog⟩ := run_lastBlock held addressed fuel
  have atLast : lastAddr b.addr bs = ((b :: bs).getLast (by simp)).addr := lastAddr_getLast 0 b bs
  have inList : (b :: bs).getLast (by simp) ∈ b :: bs := List.getLast_mem _
  have smallLast := (addressed _ inList).2
  obtain ⟨p, lastHeader⟩ := Linked.getLast held
  have lastFree := lastHeader.free
  rw [atLast] at walk
  have stop : givenBack vars b bs = if bs = [] ∧ b.free = true then
      { vars with heapEnd := vars.heapStart, heapHead := 0 }
    else if ((b :: bs).getLast (by simp)).free then
      { vars with heapEnd := ((b :: bs).getLast (by simp)).addr } else vars := rfl
  generalize (b :: bs).getLast (by simp) = l at *
  simp only [giveBack, head, if_neg ne, run_bind, testMem]
  by_cases alone : bs = [] ∧ b.free = true
  · simp only [test.mpr alone, if_true, run_pure, List.append_nil, stop, if_pos alone]
    refine ⟨trivial, .inr trivial, by simp, fun acc member => ⟨b, by simp, testLog acc member⟩⟩
  · have more : ((singleFree b.addr).run m).result = false :=
      Bool.eq_false_iff.mpr fun h => alone (test.mp h)
    simp only [more, Bool.false_eq_true, if_false, run_bind, walk, walkMem, stop, if_neg alone]
    by_cases enough : bs.length < fuel
    · have flag := l.flag_ne_zero
      simp (disch := omega) only [if_pos enough, run_bind, run_load, run_pure, freeAt, add32,
        wrap_of_lt, lastFree, flag, List.append_nil, List.mem_append, List.mem_singleton]
      refine ⟨trivial, .inr (by rw [← head]), by simp, ?_⟩
      rintro acc (member | member | rfl)
      · exact ⟨b, by simp, testLog acc member⟩
      · obtain ⟨c, inside, same⟩ := walkLog acc member
        exact ⟨c, inside, .inr same⟩
      · exact ⟨l, inList, .inl rfl⟩
    · simp only [if_neg enough, run_pure, List.append_nil, List.mem_append]
      refine ⟨trivial, .inl trivial, fun more => absurd more enough, ?_⟩
      rintro acc (member | member)
      · exact ⟨b, by simp, testLog acc member⟩
      · obtain ⟨c, inside, same⟩ := walkLog acc member
        exact ⟨c, inside, .inr same⟩

/-- A block at or beyond `heap_end` is not looked at. -/
theorem run_kfree_outside {vars : HeapVars} {x : Block} (beyond : vars.heapEnd ≤ x.addr)
    (small : x.payload < 2 ^ 32) (fuel : Nat) :
    (kfree fuel vars x.payload).run m = ⟨some (vars, some "Invalid free header!\n"), m, []⟩ := by
  simp only [Block.payload, headerSize] at small
  have notNull : x.payload ≠ 0 := by simp [Block.payload, headerSize]
  have block : sub32 x.payload headerSize = x.addr := by
    simp (disch := omega) only [Block.payload, headerSize, sub32_of_le]
    omega
  have outside : x.addr < vars.heapStart ∨ x.addr ≥ vars.heapEnd := .inr beyond
  simp only [kfree, if_neg notNull, block, if_pos outside, run_pure]

/-- The checks of `kfree` behind a header with its magic and size in the heap. -/
theorem run_kfree_checks {vars : HeapVars} {x : Block} (magic : readWord m x.addr = heapMagic)
    (size : readWord m (x.addr + 4) = x.size) (low : vars.heapStart ≤ x.addr)
    (below : x.addr < vars.heapEnd) (small : x.fin < 2 ^ 32) (fuel : Nat) :
    (kfree fuel vars x.payload).run m =
      let header := [Access.load x.addr, .load (x.addr + 4), .load x.fin]
      if readWord m x.fin ≠ heapMagic then
        ⟨some (vars, some "Heap tail corruption detected!\n"), m, header⟩
      else if x.size = 0 ∨ x.fin > vars.heapEnd then
        ⟨some (vars, some "Heap corruption detected!\n"), m, header⟩
      else if readWord m (x.addr + 8) ≠ 0 then
        ⟨some (vars, some "Double free detected!\n"), m, header ++ [.load (x.addr + 8)]⟩
      else ⟨((kfreeBlock fuel vars x.addr).run m).result, ((kfreeBlock fuel vars x.addr).run m).mem,
        header ++ .load (x.addr + 8) :: ((kfreeBlock fuel vars x.addr).run m).log⟩ := by
  simp only [Block.fin, headerSize] at small ⊢
  have notNull : x.payload ≠ 0 := by simp [Block.payload, headerSize]
  have block : sub32 x.payload headerSize = x.addr := by
    simp (disch := omega) only [Block.payload, headerSize, sub32_of_le]
    omega
  have tailWord : tailAt x.addr x.size = x.addr + 20 + x.size := by
    simp (disch := omega) only [tailAt, headerSize, add32, wrap_of_lt]
  have inside : ¬ (x.addr < vars.heapStart ∨ x.addr ≥ vars.heapEnd) := by omega
  simp only [kfree, if_neg notNull, block, if_neg inside]
  simp (disch := omega) only [magicAt, sizeAt, freeAt, add32, Nat.add_zero, run_bind, run_load,
    wrap_of_lt, magic, size, tailWord, ne_eq, not_true, if_false]
  by_cases damaged : readWord m (x.addr + 20 + x.size) = heapMagic
  · by_cases sized : x.size = 0 ∨ x.addr + 20 + x.size > vars.heapEnd
    · simp [damaged, sized]
    · by_cases freed : readWord m (x.addr + 8) = 0 <;>
        simp (disch := omega) [damaged, sized, freed, wrap_of_lt]
  · simp [damaged]

/-- A block in use below `heap_end` passes every check of `kfree`. -/
theorem run_kfree_passed {vars : HeapVars} {x : Block} {p z : Nat} (header : HeaderIs m x p z)
    (used : x.free = false) (positive : 0 < x.size) (low : vars.heapStart ≤ x.addr)
    (ends : x.fin ≤ vars.heapEnd) (small : vars.heapEnd < 2 ^ 32) (fuel : Nat) :
    (kfree fuel vars x.payload).run m =
      ⟨((kfreeBlock fuel vars x.addr).run m).result, ((kfreeBlock fuel vars x.addr).run m).mem,
        ([.load x.addr, .load (x.addr + 4), .load x.fin, .load (x.addr + 8)] : List Access) ++
          ((kfreeBlock fuel vars x.addr).run m).log⟩ := by
  have isUsed : readWord m (x.addr + 8) = 0 := by
    rw [header.free, Block.flag, used]
    rfl
  have sized : ¬ (x.size = 0 ∨ x.fin > vars.heapEnd) := by omega
  have below : x.addr < vars.heapEnd := by
    simp only [Block.fin, headerSize] at ends
    omega
  rw [run_kfree_checks header.magic header.size low below (by omega) fuel]
  simp [header.tail, sized, isUsed]

end ZynthexOS.HeapPrograms
