import ZynthexOS.HeapPrograms

/-! Conditions on the state before a call of `kmalloc` or `kfree`, read off the
variables and memory with the code's own tests: which blocks are listed, when a
call appends, what a release merges, and whether the tail word of the merged
block stays below the next header. -/
namespace ZynthexOS.HeapConditions
open Lib Lib.Memory Mm HeapLayout HeapRepresentation HeapPrograms

def sizeIn (m : Mem) (block : Nat) : Nat := readWord m (sizeAt block)
def freeIn (m : Mem) (block : Nat) : Nat := readWord m (freeAt block)
def nextIn (m : Mem) (block : Nat) : Nat := readWord m (nextAt block)
def prevIn (m : Mem) (block : Nat) : Nat := readWord m (prevAt block)

/-- The blocks met on the way from `heap_head` along `next`. -/
inductive Listed (vars : HeapVars) (m : Mem) : Nat → Prop where
  | head : vars.heapHead ≠ 0 → Listed vars m vars.heapHead
  | next {b : Nat} : Listed vars m b → nextIn m b ≠ 0 → Listed vars m (nextIn m b)

/-- `new_end` as `kmalloc` computes it before appending. -/
def newEnd (vars : HeapVars) (size : Nat) : Nat :=
  add32 (add32 (add32 vars.heapEnd headerSize) size) tailSize

/-- `kmalloc(size)` gets past its checks and finds no free block, so that it
appends one at `heap_end`. -/
structure Appends (vars : HeapVars) (m : Mem) (size : Nat) : Prop where
  positive : size ≠ 0
  aligned : ¬ alignUp size < size
  room : ¬ alignUp size > heapRoom vars
  nonempty : vars.heapHead ≠ 0
  unfit : ∀ b, Listed vars m b → ¬ (freeIn m b ≠ 0 ∧ alignUp size ≤ sizeIn m b)
  above : ¬ newEnd vars (alignUp size) < vars.heapEnd
  below : ¬ newEnd vars (alignUp size) ≥ kernelHeapEnd

/-- What an append relies on: every listed header lies below `heap_end`, and
`new_end` does not wrap. -/
def SoundAppend (vars : HeapVars) (m : Mem) (size : Nat) : Prop :=
  Appends vars m size → (∀ b, Listed vars m b → b < vars.heapEnd) ∧
    vars.heapEnd + headerSize + alignUp size + tailSize < kernelHeapEnd

/-- The two merges `kfree(x + 1)` makes, as its guards decide them. -/
def MergesNext (vars : HeapVars) (m : Mem) (x : Nat) : Prop := Joins vars m (nextIn m x)
def MergesPrev (vars : HeapVars) (m : Mem) (x : Nat) : Prop := Joins vars m (prevIn m x)

instance : Decidable (Joins vars m y) := inferInstanceAs (Decidable (_ ∧ _))
instance : Decidable (MergesNext vars m x) := inferInstanceAs (Decidable (Joins ..))
instance : Decidable (MergesPrev vars m x) := inferInstanceAs (Decidable (Joins ..))

/-- The block behind `x` and the size of `x` once the next block is merged. -/
def nextAfter (vars : HeapVars) (m : Mem) (x : Nat) : Nat :=
  if MergesNext vars m x then nextIn m (nextIn m x) else nextIn m x

def sizeAfter (vars : HeapVars) (m : Mem) (x : Nat) : Nat :=
  if MergesNext vars m x then sizeIn m x + (headerSize + sizeIn m (nextIn m x) + tailSize)
  else sizeIn m x

/-- Where the tail word of the block before `x` goes when `x` is merged into it. -/
def tailAfter (vars : HeapVars) (m : Mem) (x : Nat) : Nat :=
  prevIn m x + headerSize +
    (sizeIn m (prevIn m x) + (headerSize + sizeAfter vars m x + tailSize))

/-- The payloads that `kfree` merges end, with `room` bytes to spare, before
the header of the block that follows, and the tail word of a merge with the
previous block misses the links of the block released. -/
structure MergeRoom (room : Nat) (vars : HeapVars) (m : Mem) (x : Nat) : Prop where
  next : MergesNext vars m x → nextAfter vars m x ≠ 0 →
    x + headerSize + sizeAfter vars m x + room ≤ nextAfter vars m x
  prev : MergesPrev vars m x → nextAfter vars m x ≠ 0 →
    tailAfter vars m x + room ≤ nextAfter vars m x
  links : MergesPrev vars m x → ClearOfLinks x (tailAfter vars m x)

/-- The release does not leave a free block at the end of a longer list. -/
def KeepsTop (vars : HeapVars) (m : Mem) (x : Nat) : Prop :=
  nextAfter vars m x ≠ 0 ∨ x = vars.heapHead ∨
    MergesPrev vars m x ∧ prevIn m x = vars.heapHead

/-! ### The same facts of a list of blocks -/

theorem sizeIn_eq {prev next : Nat} (held : HeaderIs m b prev next)
    (small : b.addr + 20 < 2 ^ 32) : sizeIn m b.addr = b.size := by
  simp (disch := omega) only [sizeIn, sizeAt, add32, wrap_of_lt, held.size]

theorem freeIn_eq {prev next : Nat} (held : HeaderIs m b prev next)
    (small : b.addr + 20 < 2 ^ 32) : freeIn m b.addr = b.flag := by
  simp (disch := omega) only [freeIn, freeAt, add32, wrap_of_lt, held.free]

theorem nextIn_eq {prev next : Nat} (held : HeaderIs m b prev next)
    (small : b.addr + 20 < 2 ^ 32) : nextIn m b.addr = next := by
  simp (disch := omega) only [nextIn, nextAt, add32, wrap_of_lt, held.next]

theorem prevIn_eq {prev next : Nat} (held : HeaderIs m b prev next)
    (small : b.addr + 20 < 2 ^ 32) : prevIn m b.addr = prev := by
  simp (disch := omega) only [prevIn, prevAt, add32, wrap_of_lt, held.prev]

theorem addressed_of_stored (held : Stored m bs stop) : Addressed bs := by
  intro b member
  have low := held.low member
  have top := held.top
  simp only [Block.fin, headerSize, tailSize, kernelHeapStart, kernelHeapEnd] at low top
  omega

/-- Every block of a list is met on the way along `next`. -/
theorem listed_of_linked (held : Linked m p (b :: bs) 0) (addressed : Addressed (b :: bs))
    (here : Listed vars m b.addr) : ∀ c ∈ b :: bs, Listed vars m c.addr := by
  induction bs generalizing p b with
  | nil => simpa using here
  | cons c bs ih =>
    have next := nextIn_eq held.1 (addressed b (by simp)).2
    have step : Listed vars m c.addr := by
      have := Listed.next here (by rw [next]; exact (addressed c (by simp)).1)
      rwa [next] at this
    intro d member
    rcases List.mem_cons.mp member with rfl | member
    · exact here
    · exact ih held.2 (fun e inside => addressed e (by simp [inside])) step d member

/-- The walk along `next` meets the blocks stored and no others. -/
theorem listed_iff (held : Stored m bs stop) (head : vars.heapHead = headAddr bs 0) :
    Listed vars m a ↔ ∃ b ∈ bs, b.addr = a := by
  constructor
  · intro listed
    induction listed with
    | head ne =>
      cases bs with
      | nil => exact absurd head ne
      | cons b bs => exact ⟨b, by simp, head.symm⟩
    | @next a listed ne ih =>
      obtain ⟨b, member, rfl⟩ := ih
      obtain ⟨pre, post, rfl⟩ := List.append_of_mem member
      have next := nextIn_eq held.around.2.2.2.1 (addressed_of_stored held b member).2
      rw [next] at ne ⊢
      cases post with
      | nil => exact absurd rfl ne
      | cons c post => exact ⟨c, by simp, rfl⟩
  · rintro ⟨b, member, rfl⟩
    cases bs with
    | nil => cases member
    | cons c bs =>
      have ne := (addressed_of_stored held c (by simp)).1
      refine listed_of_linked held.linked (addressed_of_stored held) ?_ b member
      rw [headAddr_cons] at head
      rw [← head]
      exact .head (by rwa [head])

end ZynthexOS.HeapConditions
