import ZynthexOS.HeapLayout

/-! How memory holds a list of blocks: one header per block, linked both ways,
and a tail word behind every payload. Stores that miss a list leave it, and the
memory a merge leaves holds the merged list. -/
namespace ZynthexOS.HeapRepresentation
open Lib Lib.Memory Mm HeapLayout

/-- The header and the tail word of one block, between its neighbours. -/
structure HeaderIs (m : Mem) (b : Block) (prev next : Nat) : Prop where
  magic : readWord m b.addr = heapMagic
  size : readWord m (b.addr + 4) = b.size
  free : readWord m (b.addr + 8) = b.flag
  next : readWord m (b.addr + 12) = next
  prev : readWord m (b.addr + 16) = prev
  tail : readWord m b.fin = heapMagic

/-- The first header of a list, or what follows when it is empty. -/
def headAddr : List Block → Nat → Nat
  | [], after => after
  | b :: _, _ => b.addr

/-- The last header of a list, or what precedes when it is empty. -/
def lastAddr : Nat → List Block → Nat
  | prev, [] => prev
  | _, b :: bs => lastAddr b.addr bs

/-- Memory holds these blocks in this order, linked both ways, between a
predecessor and a successor. -/
def Linked (m : Mem) : Nat → List Block → Nat → Prop
  | _, [], _ => True
  | prev, b :: bs, after => HeaderIs m b prev (headAddr bs after) ∧ Linked m b.addr bs after

@[simp] theorem headAddr_nil : headAddr [] after = after := rfl

@[simp] theorem headAddr_cons : headAddr (b :: bs) after = b.addr := rfl

@[simp] theorem lastAddr_nil : lastAddr prev [] = prev := rfl

@[simp] theorem lastAddr_cons : lastAddr prev (b :: bs) = lastAddr b.addr bs := rfl

@[simp] theorem linked_nil : Linked m prev [] after := trivial

@[simp] theorem linked_cons : Linked m prev (b :: bs) after ↔
    HeaderIs m b prev (headAddr bs after) ∧ Linked m b.addr bs after := Iff.rfl

theorem headAddr_append : headAddr (bs ++ cs) after = headAddr bs (headAddr cs after) := by
  cases bs <;> rfl

theorem lastAddr_append : lastAddr prev (bs ++ cs) = lastAddr (lastAddr prev bs) cs := by
  induction bs generalizing prev with
  | nil => rfl
  | cons b bs ih => exact ih

theorem linked_append : Linked m prev (bs ++ cs) after ↔
    Linked m prev bs (headAddr cs after) ∧ Linked m (lastAddr prev bs) cs after := by
  induction bs generalizing prev with
  | nil => simp
  | cons b bs ih => simp [ih, headAddr_append, and_assoc]

/-- The words of memory that make up a block's header and tail. -/
def blockWords (b : Block) : List Nat :=
  [b.addr, b.addr + 4, b.addr + 8, b.addr + 12, b.addr + 16, b.fin]

theorem HeaderIs.frame {prev next : Nat} (held : HeaderIs m b prev next)
    (same : ∀ c ∈ blockWords b, readWord m' c = readWord m c) : HeaderIs m' b prev next := by
  simp only [blockWords, List.forall_mem_cons, List.not_mem_nil, false_imp_iff, implies_true,
    and_true] at same
  obtain ⟨magic, size, free, next, prev, tail⟩ := same
  exact ⟨magic.trans held.magic, size.trans held.size, free.trans held.free,
    next.trans held.next, prev.trans held.prev, tail.trans held.tail⟩

/-- A list survives any change of memory outside its headers and tails. -/
theorem Linked.frame (held : Linked m prev bs after)
    (same : ∀ b ∈ bs, ∀ c ∈ blockWords b, readWord m' c = readWord m c) :
    Linked m' prev bs after := by
  induction bs generalizing prev with
  | nil => trivial
  | cons b bs ih =>
    exact ⟨held.1.frame (same b (by simp)), ih held.2 fun b' member => same b' (by simp [member])⟩

/-- Memory holds the blocks and they cover the heap up to `stop`, which leaves
room for a tail word below the end of the heap's address range. -/
structure Stored (m : Mem) (bs : List Block) (stop : Nat) : Prop where
  linked : Linked m 0 bs 0
  layout : Layout kernelHeapStart bs stop
  wf : ∀ b ∈ bs, b.Wf
  top : stop + tailSize ≤ kernelHeapEnd

/-- What lies on either side of a block of the list. -/
theorem Stored.around (held : Stored m (pre ++ x :: post) stop) :
    Layout kernelHeapStart pre x.addr ∧ Layout (x.addr + x.width) post stop ∧
      Linked m 0 pre x.addr ∧ HeaderIs m x (lastAddr 0 pre) (headAddr post 0) ∧
      Linked m x.addr post 0 := by
  obtain ⟨links, header, tail⟩ := linked_append.mp held.linked
  obtain ⟨c, before, rfl, after⟩ := tiles_append.mp held.layout
  exact ⟨before, after, links, header, tail⟩

theorem Stored.low (held : Stored m bs stop) (member : b ∈ bs) :
    kernelHeapStart ≤ b.addr ∧ b.fin + b.slack ≤ stop := by
  have inside := held.layout.mem member
  simp only [Block.width, Block.fin] at inside ⊢
  omega


theorem blockWords_bounds (member : c ∈ blockWords b) : b.addr ≤ c ∧ c ≤ b.fin := by
  have header : b.addr + 20 ≤ b.fin := by unfold Block.fin headerSize; omega
  simp only [blockWords, List.mem_cons, List.not_mem_nil, or_false] at member
  omega

/-- A store that misses every header and tail word of a list. -/
theorem Linked.write (held : Linked m prev bs after)
    (clear : ∀ b ∈ bs, (a + 4 ≤ b.addr ∨ b.addr + 20 ≤ a) ∧ Apart a b.fin) :
    Linked (writeWord m a v) prev bs after := by
  refine held.frame fun b member c hc => readWord_writeWord_apart ?_
  obtain ⟨offHeader, offTail⟩ := clear b member
  simp only [blockWords, List.mem_cons, List.not_mem_nil, or_false] at hc
  rcases hc with rfl | rfl | rfl | rfl | rfl | rfl <;> omega

/-- Storing the magic value where a header or a tail already has it. -/
theorem Linked.writeMagic (held : Linked m prev bs after)
    (clear : ∀ b ∈ bs, (t + 4 ≤ b.addr ∨ t = b.addr ∨ b.addr + 20 ≤ t) ∧
      (t = b.fin ∨ Apart t b.fin)) :
    Linked (writeWord m t heapMagic) prev bs after := by
  induction bs generalizing prev with
  | nil => trivial
  | cons b bs ih =>
    obtain ⟨header, rest⟩ := held
    obtain ⟨atHeader, atTail⟩ := clear b (by simp)
    have finGe : b.addr + 20 ≤ b.fin := by unfold Block.fin headerSize; omega
    have word : ∀ c, t = c → readWord m c = heapMagic →
        readWord (writeWord m t heapMagic) c = readWord m c := by
      rintro c rfl same
      rw [readWord_writeWord_same, same]
      rfl
    refine ⟨header.frame fun c member => ?_, ih rest fun b' member => clear b' (by simp [member])⟩
    simp only [blockWords, List.mem_cons, List.not_mem_nil, or_false] at member
    by_cases same : t = c
    · subst same
      rcases member with rfl | here | here | here | here | rfl
      · exact word _ rfl header.magic
      · omega
      · omega
      · omega
      · omega
      · exact word _ rfl header.tail
    · exact readWord_writeWord_apart (by omega)

/-- The update of the `prev` field behind a new predecessor. -/
def relink (m : Mem) (z q : Nat) : Mem := if z = 0 then m else writeWord m (z + 16) q

theorem relink_of_ne (h : z ≠ 0) : relink m z q = writeWord m (z + 16) q := if_neg h

theorem readWord_relink (apart : z = 0 ∨ Apart (z + 16) c) :
    readWord (relink m z q) c = readWord m c := by
  unfold relink
  split
  · rfl
  · exact readWord_writeWord_apart (by omega)

theorem Linked.relink (held : Linked m prev bs 0) (layout : Layout c bs stop) (positive : 0 < c)
    (hq : q < 2 ^ 32) :
    Linked (relink m (headAddr bs 0) q) q bs 0 := by
  cases bs with
  | nil => trivial
  | cons z bs =>
    obtain ⟨rfl, rest⟩ := layout
    obtain ⟨header, tail⟩ := held
    have other : ∀ k, Apart (z.addr + 16) k →
        readWord (writeWord m (z.addr + 16) q) k = readWord m k :=
      fun k apart => readWord_writeWord_apart apart
    rw [headAddr_cons, relink_of_ne (Nat.pos_iff_ne_zero.mp positive)]
    refine ⟨⟨?_, ?_, ?_, ?_, ?_, ?_⟩, tail.write fun b member => ?_⟩
    · exact (other _ (by omega)).trans header.magic
    · exact (other _ (by omega)).trans header.size
    · exact (other _ (by omega)).trans header.free
    · exact (other _ (by omega)).trans header.next
    · rw [readWord_writeWord_same, wrap_of_lt hq]
    · have tailWord := header.tail
      simp only [Block.fin, headerSize] at tailWord ⊢
      exact (other _ (by omega)).trans tailWord
    · have inside := rest.mem member
      simp only [Block.fin, Block.width, headerSize] at inside ⊢
      omega


/-- The memory a merge leaves: the first block takes the size of both and the
second one's successor `z`. -/
def joined (m : Mem) (x size z : Nat) : Mem :=
  relink (writeWord (writeWord (writeWord m (x + 4) size) (x + 12) z)
    (x + headerSize + size) heapMagic) z x

theorem joined_stored (held : Stored m (pre ++ x :: y :: post) stop)
    (room : tailSize ≤ x.slack + y.slack) :
    Stored (joined m x.addr (join x y).size (headAddr post 0)) (pre ++ join x y :: post) stop := by
  obtain ⟨layoutPre, ⟨hy, layoutPost⟩, linkedPre, header, headerY, linkedPost⟩ := held.around
  have top := held.top
  have wx := held.wf x (by simp)
  have wy := held.wf y (by simp)
  have lowX := layoutPre.le
  have highY := layoutPost.le
  have layout : Layout kernelHeapStart (pre ++ join x y :: post) stop := by
    have whole : Layout kernelHeapStart (pre ++ [x, y] ++ post) stop := by simpa using held.layout
    have merged := whole.replace fun c d => join_layout room
    simpa using merged
  have wf : ∀ b ∈ pre ++ join x y :: post, b.Wf := by
    intro b member
    simp only [List.mem_append, List.mem_cons] at member
    rcases member with member | rfl | member
    · exact held.wf b (by simp [member])
    · exact join_wf wx wy
    · exact held.wf b (by simp [member])
  have sizeJ : (join x y).size = x.size + (20 + y.size + 4) := rfl
  have hz : headAddr post 0 = 0 ∨ headAddr post 0 = y.addr + y.width := by
    cases post with
    | nil => exact .inl rfl
    | cons z post => exact .inr (layoutPost.1.trans (by rw [← hy]))
  have tailZ : 0 < x.addr + x.width + y.width := by
    simp only [kernelHeapStart] at lowX
    omega
  refine ⟨linked_append.mpr ⟨?_, ?_, ?_⟩, layout, wf, top⟩
  · refine linkedPre.frame fun b member c hc => ?_
    have bounds := layoutPre.mem member
    have inside := blockWords_bounds hc
    simp only [Block.fin, Block.width, headerSize, tailSize, kernelHeapStart, kernelHeapEnd] at *
    unfold joined
    simp (disch := omega) only [headerSize, readWord_relink, readWord_writeWord_apart]
  · have magic := header.magic
    have free := header.free
    have prev := header.prev
    simp only [Block.width, headerSize, tailSize, kernelHeapStart, kernelHeapEnd] at lowX highY hy hz top
    unfold joined
    constructor
    all_goals simp (disch := omega) only [join_addr, join_size, join_flag, join_fin, headerSize,
      readWord_relink, readWord_writeWord_apart, readWord_writeWord_same, wrap_of_lt, magic, free,
      prev, heapMagic]
  · refine Linked.relink (.writeMagic (.write (.write linkedPost ?_) ?_) ?_) layoutPost
      tailZ ?_
    · intro b member
      have bounds := layoutPost.mem member
      simp only [Block.width, Block.fin, headerSize] at bounds ⊢
      omega
    · intro b member
      have bounds := layoutPost.mem member
      simp only [Block.width, Block.fin, headerSize] at bounds ⊢
      omega
    · intro b member
      have bounds := layoutPost.mem member
      have wordsX := wx.words
      have wordsY := wy.words
      have aligned := (layout_aligned layoutPost fun b' h => held.wf b' (by simp [h])).1 b member
      simp only [Block.width, Block.fin, headerSize, tailSize, join_size] at bounds aligned room ⊢
      omega
    · simp only [kernelHeapEnd, tailSize] at top
      omega

end ZynthexOS.HeapRepresentation
