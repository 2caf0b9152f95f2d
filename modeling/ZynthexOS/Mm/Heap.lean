import ZynthexOS.Lib.Memory

/-! `mm/heap.c` and the heap's address range in `mm/vm.h`. Headers and tail
words live in memory; `heap_start`, `heap_end` and `heap_head` are the file's
static variables. Loops that follow `next` pointers carry fuel and return
`none` when it runs out, so a loop that never ends is one that returns `none`
for every fuel. -/
namespace ZynthexOS.Mm
open Lib.Memory

/-- `KERNEL_HEAP_START`. -/
def kernelHeapStart : Nat := 0x400000

/-- `KERNEL_HEAP_END`. -/
def kernelHeapEnd : Nat := 0x800000

/-- `HEAP_MAGIC`. -/
def heapMagic : Nat := 0xDEADBEEF

/-- `MIN_BLOCK_SIZE`. -/
def minBlockSize : Nat := 8

/-- `sizeof(block_header_t)`: magic, size, free, next and prev, four bytes each. -/
def headerSize : Nat := 20

/-- `sizeof(uint32_t)`, the tail word behind a payload. -/
def tailSize : Nat := 4

/-- The static variables of `heap.c`; `heap_head = 0` is the NULL pointer. -/
structure HeapVars where
  heapStart : Nat
  heapEnd : Nat
  heapHead : Nat
  deriving DecidableEq, Repr

/-- The variables before any code has run. -/
def heapStatics : HeapVars := ⟨0, 0, 0⟩

def heapInit (vars : HeapVars) : HeapVars :=
  { vars with heapStart := kernelHeapStart, heapEnd := kernelHeapStart }

/-! ### Fields of `block_header_t` -/

def magicAt (block : Nat) : Nat := add32 block 0
def sizeAt (block : Nat) : Nat := add32 block 4
def freeAt (block : Nat) : Nat := add32 block 8
def nextAt (block : Nat) : Nat := add32 block 12
def prevAt (block : Nat) : Nat := add32 block 16

/-- `(char*)(block + 1) + size`. -/
def tailAt (block size : Nat) : Nat := add32 (add32 block headerSize) size

/-- How the search loop of `kmalloc` ends: at a free block that is large
enough, or at the last block of the list. -/
inductive Search where
  | found (block : Nat)
  | last (block : Nat)
  deriving DecidableEq, Repr

/-- The `while (current)` loop of `kmalloc`. -/
def searchFree (size : Nat) : Nat → Nat → MemM (Option Search)
  | 0, _ => pure none
  | fuel + 1, current => do
    let free ← load (freeAt current)
    let fits ← if free ≠ 0 then do
        let have_ ← load (sizeAt current)
        pure (decide (size ≤ have_))
      else pure false
    if fits then pure (some (.found current))
    else do
      let next ← load (nextAt current)
      if next = 0 then pure (some (.last current))
      else searchFree size fuel next

/-- The first allocation: the list is empty and the block starts at `heap_end`.
The new `heap_end` leaves no room for the tail word. -/
def kmallocFirst (vars : HeapVars) (size : Nat) : MemM (HeapVars × Nat) :=
  let newEnd := add32 (add32 vars.heapEnd headerSize) size
  if newEnd ≥ kernelHeapEnd then pure (vars, 0)
  else do
    let head := vars.heapEnd
    store (magicAt head) heapMagic
    store (sizeAt head) size
    store (freeAt head) 0
    store (nextAt head) 0
    store (prevAt head) 0
    store (tailAt head size) heapMagic
    pure ({ vars with heapHead := head, heapEnd := newEnd }, add32 head headerSize)

/-- `if (after) after->prev = block`. -/
def setPrev (after block : Nat) : MemM Unit :=
  if after ≠ 0 then store (prevAt after) block else pure ()

/-- Splitting a free block: the remainder starts where the tail of the
allocated part is written. -/
def splitBlock (current size : Nat) : MemM Unit := do
  let newBlock := tailAt current size
  store (magicAt newBlock) heapMagic
  let oldSize ← load (sizeAt current)
  store (sizeAt newBlock) (sub32 (sub32 (sub32 oldSize size) headerSize) tailSize)
  store (freeAt newBlock) 1
  let next ← load (nextAt current)
  store (nextAt newBlock) next
  store (prevAt newBlock) current
  let newSize ← load (sizeAt newBlock)
  store (tailAt newBlock newSize) heapMagic
  let after ← load (nextAt newBlock)
  setPrev after newBlock
  store (sizeAt current) size
  store (nextAt current) newBlock
  store (tailAt current size) heapMagic

/-- The split is made when the rest can hold a block of its own. -/
def splitIfLarge (oldSize current size : Nat) : MemM Unit :=
  if oldSize ≥ add32 (add32 (add32 size headerSize) tailSize) minBlockSize then
    splitBlock current size
  else pure ()

/-- A free block is reused, whole or split. -/
def kmallocReuse (current size : Nat) : MemM Nat := do
  let oldSize ← load (sizeAt current)
  splitIfLarge oldSize current size
  store (freeAt current) 0
  pure (add32 current headerSize)

/-- A new block is appended at `heap_end` behind the last block of the list. -/
def kmallocAppend (vars : HeapVars) (current size : Nat) : MemM (HeapVars × Nat) :=
  let newEnd := add32 (add32 (add32 vars.heapEnd headerSize) size) tailSize
  if newEnd < vars.heapEnd then pure (vars, 0)
  else if newEnd ≥ kernelHeapEnd then pure (vars, 0)
  else do
    let newBlock := vars.heapEnd
    store (magicAt newBlock) heapMagic
    store (sizeAt newBlock) size
    store (freeAt newBlock) 0
    store (nextAt newBlock) 0
    store (prevAt newBlock) current
    let newSize ← load (sizeAt newBlock)
    store (tailAt newBlock newSize) heapMagic
    store (nextAt current) newBlock
    pure ({ vars with heapEnd := newEnd }, add32 newBlock headerSize)

/-- `(size + 7) & ~7` in 32-bit arithmetic. -/
def alignUp (size : Nat) : Nat := add32 size 7 &&& 0xFFFFFFF8

/-- The bytes left for a payload behind `heap_end`, as `kmalloc` computes them. -/
def heapRoom (vars : HeapVars) : Nat :=
  sub32 (sub32 (sub32 kernelHeapEnd vars.heapEnd) headerSize) tailSize

/-- `kmalloc`: the new variables and the pointer returned, 0 for NULL. -/
def kmalloc (fuel : Nat) (vars : HeapVars) (size : Nat) : MemM (Option (HeapVars × Nat)) :=
  if size = 0 then pure (some (vars, 0))
  else if alignUp size < size then pure (some (vars, 0))
  else if alignUp size > heapRoom vars then pure (some (vars, 0))
  else if vars.heapHead = 0 then some <$> kmallocFirst vars (alignUp size)
  else do
    match ← searchFree (alignUp size) fuel vars.heapHead with
    | none => pure none
    | some (.found current) => do
      let ptr ← kmallocReuse current (alignUp size)
      pure (some (vars, ptr))
    | some (.last current) => some <$> kmallocAppend vars current (alignUp size)

/-- The guard of both merges: a neighbour inside the heap that is free. -/
def joins (vars : HeapVars) (neighbour : Nat) : MemM Bool :=
  if neighbour ≠ 0 ∧ neighbour ≥ vars.heapStart ∧ neighbour < vars.heapEnd then do
    let free ← load (freeAt neighbour)
    pure (decide (free ≠ 0))
  else pure false

/-- `kfree`, "Merge with next". -/
def mergeNext (vars : HeapVars) (block : Nat) : MemM Unit := do
  let next ← load (nextAt block)
  if ← joins vars next then do
    let size ← load (sizeAt block)
    let nextSize ← load (sizeAt next)
    store (sizeAt block) (size + (headerSize + nextSize + tailSize))
    let nextNext ← load (nextAt next)
    store (nextAt block) nextNext
    let newSize ← load (sizeAt block)
    store (tailAt block newSize) heapMagic
    let after ← load (nextAt block)
    setPrev after block
  else pure ()

/-- `kfree`, "Merge with previous". -/
def mergePrev (vars : HeapVars) (block : Nat) : MemM Unit := do
  let prev ← load (prevAt block)
  if ← joins vars prev then do
    let prevSize ← load (sizeAt prev)
    let size ← load (sizeAt block)
    store (sizeAt prev) (prevSize + (headerSize + size + tailSize))
    let prev ← load (prevAt block)
    let newSize ← load (sizeAt prev)
    store (tailAt prev newSize) heapMagic
    let next ← load (nextAt block)
    let prev ← load (prevAt block)
    store (nextAt prev) next
    let after ← load (nextAt block)
    if after ≠ 0 then do
      let prev ← load (prevAt block)
      store (prevAt after) prev
    else pure ()
  else pure ()

/-- `while (last && last->next)`, entered with a block. -/
def lastBlock : Nat → Nat → MemM (Option Nat)
  | 0, _ => pure none
  | fuel + 1, last => do
    let next ← load (nextAt last)
    if next = 0 then pure (some last) else lastBlock fuel next

/-- `heap_head->free && heap_head->next == NULL`. -/
def singleFree (head : Nat) : MemM Bool := do
  let free ← load (freeAt head)
  if free ≠ 0 then do
    let next ← load (nextAt head)
    pure (decide (next = 0))
  else pure false

/-- The end of `kfree`: an empty heap is reset, otherwise `heap_end` is
lowered to a last block that is free, which stays in the list. -/
def giveBack (fuel : Nat) (vars : HeapVars) : MemM (Option HeapVars) :=
  if vars.heapHead = 0 then pure (some vars)
  else do
    let single ← singleFree vars.heapHead
    if single then pure (some { vars with heapEnd := vars.heapStart, heapHead := 0 })
    else do
      match ← lastBlock fuel vars.heapHead with
      | none => pure none
      | some last => do
        let lastFree ← load (freeAt last)
        pure (some (if lastFree ≠ 0 then { vars with heapEnd := last } else vars))

/-- `kfree` once every check has passed. -/
def kfreeBlock (fuel : Nat) (vars : HeapVars) (block : Nat) :
    MemM (Option (HeapVars × Option String)) := do
  store (freeAt block) 1
  mergeNext vars block
  mergePrev vars block
  let vars ← giveBack fuel vars
  pure (vars.map (·, none))

/-- `kfree`: the new variables and the message printed, if any. -/
def kfree (fuel : Nat) (vars : HeapVars) (ptr : Nat) :
    MemM (Option (HeapVars × Option String)) :=
  if ptr = 0 then pure (some (vars, none))
  else
    let block := sub32 ptr headerSize
    if block < vars.heapStart ∨ block ≥ vars.heapEnd then
      pure (some (vars, some "Invalid free header!\n"))
    else do
      let magic ← load (magicAt block)
      if magic ≠ heapMagic then pure (some (vars, some "Heap header corrupted!\n"))
      else do
        let size ← load (sizeAt block)
        let tail ← load (tailAt block size)
        if tail ≠ heapMagic then pure (some (vars, some "Heap tail corruption detected!\n"))
        else if size = 0 ∨ tailAt block size > vars.heapEnd then
          pure (some (vars, some "Heap corruption detected!\n"))
        else do
          let free ← load (freeAt block)
          if free ≠ 0 then pure (some (vars, some "Double free detected!\n"))
          else kfreeBlock fuel vars block

/-- What `heap_dump` prints for one block. -/
structure DumpLine where
  index : Nat
  addr : Nat
  size : Nat
  payload : Nat
  used : Bool
  deriving DecidableEq, Repr

/-- The loop of `heap_dump`. -/
def heapDumpFrom : Nat → Nat → Nat → MemM (Option (List DumpLine))
  | 0, _, _ => pure none
  | fuel + 1, index, current =>
    if current = 0 then pure (some [])
    else do
      let size ← load (sizeAt current)
      let free ← load (freeAt current)
      let next ← load (nextAt current)
      let rest ← heapDumpFrom fuel (index + 1) next
      pure (rest.map (⟨index, current, size, add32 current headerSize, decide (free = 0)⟩ :: ·))

/-- `heap_dump`: no lines stand for "Heap empty.". -/
def heapDump (fuel : Nat) (vars : HeapVars) : MemM (Option (List DumpLine)) :=
  heapDumpFrom fuel 0 vars.heapHead

/-- The tortoise and hare loop of `heap_validate`: whether it meets a cycle. -/
def findCycle : Nat → Nat → Nat → MemM (Option Bool)
  | 0, _, _ => pure none
  | fuel + 1, slow, fast =>
    if fast = 0 then pure (some false)
    else do
      let fastNext ← load (nextAt fast)
      if fastNext = 0 then pure (some false)
      else do
        let slow ← load (nextAt slow)
        let fast ← load (nextAt fastNext)
        if slow = fast then pure (some true) else findCycle fuel slow fast

/-- The second loop of `heap_validate`, with the message it ends with. -/
def checkBlocks (vars : HeapVars) : Nat → Nat → MemM (Option String)
  | 0, _ => pure none
  | fuel + 1, current =>
    if current = 0 then pure (some "Heap structure valid.\n")
    else do
      let magic ← load (magicAt current)
      if magic ≠ heapMagic then pure (some "Heap magic corrupted!\n")
      else do
        let next ← load (nextAt current)
        let linked ← if next ≠ 0 then do
            let back ← load (prevAt next)
            pure (decide (back = current))
          else pure true
        if ¬ linked then pure (some "Heap corruption detected!\n")
        else if current < vars.heapStart ∨ current ≥ vars.heapEnd then
          pure (some "Block outside heap range!\n")
        else do
          let size ← load (sizeAt current)
          if tailAt current size > vars.heapEnd then
            pure (some "Block exceeds heap boundary!\n")
          else do
            let next ← load (nextAt current)
            checkBlocks vars fuel next

/-- `heap_validate`: the message it prints. -/
def heapValidate (fuel : Nat) (vars : HeapVars) : MemM (Option String) := do
  match ← findCycle fuel vars.heapHead vars.heapHead with
  | none => pure none
  | some true => pure (some "Heap cycle detected!\n")
  | some false => checkBlocks vars fuel vars.heapHead

end ZynthexOS.Mm
