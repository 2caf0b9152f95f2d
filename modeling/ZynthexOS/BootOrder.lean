import ZynthexOS.Core.Boot
import ZynthexOS.DemandPaging
import ZynthexOS.HeapPrograms
import ZynthexOS.HeapVariables

/-! The two memory managers in the order that `kernel_boot` starts them. The tasks of
`scheduler_init` are allocated before `heap_init`, when the static variables of the
heap are zero: their blocks start at address 0, in frames that the allocator still
hands out, and `heap_init` turns them into blocks that `kfree` refuses. -/
namespace ZynthexOS.BootOrder
open Lib Lib.Memory Mm ZynthexOS.Core Sched HeapLayout HeapRepresentation HeapPrograms HeapVariables
  FrameAccounting PageTranslation

/-! ## Allocation before `heap_init` -/

/-- A request that needs no rounding and leaves room behind the heap. -/
structure Fits (vars : HeapVars) (size : Nat) : Prop where
  positive : size ≠ 0
  aligned : alignUp size = size
  room : size ≤ heapRoom vars
  bound : vars.heapEnd + headerSize + size + tailSize < kernelHeapEnd

/-- The kernel after a successful `kmalloc`. -/
def Kernel.allocated (k : Kernel) (heap : HeapVars) (memory : Mem) (ptr size : Nat) : Kernel :=
  { k with heap := heap, sched := { k.sched with memory := memory }, live := (ptr, size) :: k.live }

theorem kmalloc_first (k : Kernel) (fuel size : Nat) (fits : Fits k.heap size)
    (empty : k.heap.heapHead = 0) :
    k.kmalloc fuel size = some
      (Kernel.allocated k
        { k.heap with heapHead := k.heap.heapEnd, heapEnd := k.heap.heapEnd + headerSize + size }
        (fresh k.sched.memory k.heap.heapEnd size 0) (k.heap.heapEnd + headerSize) size,
      k.heap.heapEnd + headerSize) := by
  obtain ⟨positive, aligned, room, bound⟩ := fits
  have inside : k.heap.heapEnd + headerSize + size < kernelHeapEnd := by omega
  have nonNull : k.heap.heapEnd + headerSize ≠ 0 := by unfold headerSize; omega
  unfold Kernel.kmalloc Mm.kmalloc
  rw [aligned, if_neg positive, if_neg (Nat.lt_irrefl _), if_neg (Nat.not_lt.mpr room), if_pos empty,
    run_map, run_kmallocFirst inside]
  simp only [Option.map_some, if_neg nonNull]
  rfl

theorem kmalloc_append (k : Kernel) (fuel size : Nat) (fits : Fits k.heap size)
    (linked : Linked k.sched.memory 0 (b :: bs) 0) (addressed : Addressed (b :: bs))
    (used : ∀ c ∈ b :: bs, c.free = false) (head : k.heap.heapHead = b.addr)
    (low : lastAddr b.addr bs < kernelHeapEnd) (enough : bs.length < fuel) :
    k.kmalloc fuel size = some
      (Kernel.allocated k { k.heap with heapEnd := k.heap.heapEnd + headerSize + size + tailSize }
        (writeWord (fresh k.sched.memory k.heap.heapEnd size (lastAddr b.addr bs))
          (lastAddr b.addr bs + 12) k.heap.heapEnd)
        (k.heap.heapEnd + headerSize) size,
      k.heap.heapEnd + headerSize) := by
  obtain ⟨positive, aligned, room, bound⟩ := fits
  have nonNull : k.heap.heapEnd + headerSize ≠ 0 := by unfold headerSize; omega
  have nonempty : k.heap.heapHead ≠ 0 := head ▸ (addressed b (by simp)).1
  obtain ⟨kept, found, total, -⟩ := run_searchFree linked addressed size fuel
  have last : searchList size b bs = .last (lastAddr b.addr bs) := by
    rcases searchList_cases size b bs with ⟨pre, x, post, same, -, fit, -⟩ | ⟨-, last⟩
    · have member : x ∈ b :: bs := by simp [same]
      simp [HeapLayout.fits, used x member] at fit
    · exact last
  have search := found.resolve_left (total enough)
  rw [last] at search
  unfold Kernel.kmalloc Mm.kmalloc
  rw [aligned, if_neg positive, if_neg (Nat.lt_irrefl _), if_neg (Nat.not_lt.mpr room),
    if_neg nonempty, head, run_bind, kept, search]
  dsimp only
  rw [run_map, run_kmallocAppend bound low]
  simp only [Option.map_some, if_neg nonNull]
  rfl

/-! ## The tasks of `scheduler_init` -/

/-- `task_create_kernel` where both calls of `kmalloc` succeed. -/
theorem taskCreateKernel_eq (entry : UInt32)
    (stack : k.kmalloc fuel kernelStackSize.toNat = some (k₁, p))
    (task : k₁.kmalloc fuel taskSize = some (k₂, q)) (hp : UInt32.ofNat p ≠ 0)
    (hq : UInt32.ofNat q ≠ 0)
    (added : schedulerAddTask fuel (prepareTask k₂.sched entry (.ofNat p) (.ofNat q)) (.ofNat q) = some s) :
    Kernel.taskCreateKernel fuel k entry = some { k₂ with sched := s } := by
  have stackPtr : p ≠ 0 := by rintro rfl; exact hp rfl
  have taskPtr : q ≠ 0 := by rintro rfl; exact hq rfl
  unfold Kernel.taskCreateKernel Sched.taskCreateKernel
  rw [stack, Option.bind_eq_bind, Option.bind_some]
  dsimp only
  rw [if_neg stackPtr, task, Option.bind_eq_bind, Option.bind_some]
  dsimp only
  rw [if_neg taskPtr, if_neg hp, if_neg hq, added]
  rfl

/-- The heap after the first task: its stack is the block at address 0, which the list
has lost, because a head at address 0 is NULL. -/
def firstHeap : HeapVars := ⟨0, 4160, 4116⟩

/-- The block of the first task's structure. -/
def firstTask : Block := ⟨4116, 24, false, 0⟩

theorem taskCreateKernel_first (k : Kernel) (heap : k.heap = heapStatics)
    (queue : k.sched.readyQueue = 0) (fuel : Nat) (entry : UInt32) :
    ∃ sched, k.taskCreateKernel fuel entry = some { k with
        heap := firstHeap, sched := sched, live := (4136, 24) :: (20, 4096) :: k.live } ∧
      Linked sched.memory 0 [firstTask] 0 ∧ sched.readyQueue = 4136 ∧
      (sched.tasks 4136).next = 4136 := by
  have stack := kmalloc_first k fuel 4096 (heap ▸ ⟨by decide, by decide, by decide, by decide⟩) (heap ▸ rfl)
  rw [heap] at stack
  generalize same : Kernel.allocated k _ _ _ _ = k₁ at stack
  have heap₁ : k₁.heap = ⟨0, 4116, 0⟩ := by rw [← same]; rfl
  have queue₁ : k₁.sched.readyQueue = 0 := by rw [← same]; exact queue
  have task := kmalloc_first k₁ fuel 24 (heap₁ ▸ ⟨by decide, by decide, by decide, by decide⟩) (heap₁ ▸ rfl)
  rw [heap₁] at task
  have header : Linked (fresh k₁.sched.memory 4116 24 0) 0 [firstTask] 0 :=
    ⟨fresh_header (b := firstTask) (by decide) rfl (by decide), trivial⟩
  have created := taskCreateKernel_eq entry stack task (by decide) (by decide) (if_pos queue₁)
  subst same
  refine ⟨_, created, header.write (a := 4112) (v := entry.toNat) ?_, rfl, ?_⟩
  · simp [firstTask, Block.fin, headerSize, Apart]
  · simp [Scheduler.setNext, Scheduler.setTask, headerSize]

/-- The block of the second task's stack. -/
def secondStack : Block := ⟨4160, 4096, false, tailSize⟩

theorem linked_secondStack (linked : Linked m 0 [firstTask] 0) :
    Linked (writeWord (fresh m 4160 4096 4116) 4128 4160) 0 [firstTask, secondStack] 0 := by
  obtain ⟨⟨magic, size, free, -, prev, -⟩, -⟩ := linked
  have new : Linked (fresh m 4160 4096 4116) 4116 [secondStack] 0 :=
    ⟨fresh_header (b := secondStack) (by decide) rfl (by decide), trivial⟩
  refine ⟨?_, new.write (by simp [secondStack, Block.fin, headerSize, Apart])⟩
  unfold fresh
  constructor
  all_goals simp only [firstTask, Block.fin, Block.flag, headerSize] at magic size free prev ⊢
  all_goals simp (disch := omega) [readWord_writeWord_apart, readWord_writeWord_same, wrap_of_lt, magic,
    size, free, prev, secondStack, heapMagic]

/-- The second task joins a queue of one. -/
theorem addTask_second (s : Scheduler) (queue : s.readyQueue = 4136)
    (ring : (s.tasks 4136).next = 4136) (enough : 0 < fuel) (entry : UInt32) :
    ∃ s', schedulerAddTask fuel (prepareTask s entry 4180 8300) 8300 = some s' := by
  obtain ⟨fuel, rfl⟩ := Nat.exists_eq_succ_of_ne_zero (Nat.ne_of_gt enough)
  have nonempty : (prepareTask s entry 4180 8300).readyQueue ≠ 0 := by
    change s.readyQueue ≠ 0
    rw [queue]
    decide
  have tail : findTail (prepareTask s entry 4180 8300) (fuel + 1) s.readyQueue = some s.readyQueue := by
    simp [findTail, prepareTask, queue, ring]
  exact ⟨_, (if_neg nonempty).trans (congrArg _ tail)⟩

theorem taskCreateKernel_second (k : Kernel) (heap : k.heap = firstHeap)
    (linked : Linked k.sched.memory 0 [firstTask] 0) (queue : k.sched.readyQueue = 4136)
    (ring : (k.sched.tasks 4136).next = 4136) (enough : 2 ≤ fuel) (entry : UInt32) :
    ∃ sched, k.taskCreateKernel fuel entry = some { k with
      heap := ⟨0, 8328, 4116⟩, sched := sched, live := (8300, 24) :: (4180, 4096) :: k.live } := by
  have stack := kmalloc_append k fuel 4096
    (heap ▸ ⟨by decide, by decide, by decide, by decide⟩) linked (by simp [Addressed, firstTask])
    (by simp [firstTask]) (heap ▸ rfl) (by decide) (by simp; omega)
  rw [heap] at stack
  generalize same : Kernel.allocated k _ _ _ _ = k₁ at stack
  have heap₁ : k₁.heap = ⟨0, 8280, 4116⟩ := by rw [← same]; rfl
  have linked₁ : Linked k₁.sched.memory 0 [firstTask, secondStack] 0 := by
    rw [← same]
    exact linked_secondStack linked
  have task := kmalloc_append k₁ fuel 24
    (heap₁ ▸ ⟨by decide, by decide, by decide, by decide⟩) linked₁
    (by simp [Addressed, firstTask, secondStack]) (by simp [firstTask, secondStack]) (heap₁ ▸ rfl)
    (by decide) (by simp; omega)
  rw [heap₁] at task
  generalize same₂ : Kernel.allocated k₁ _ _ _ _ = k₂ at task
  obtain ⟨sched, added⟩ := addTask_second k₂.sched (by rw [← same₂, ← same]; exact queue)
    (by rw [← same₂, ← same]; exact ring) (by omega : 0 < fuel) entry
  refine ⟨sched, (taskCreateKernel_eq entry stack task (by decide) (by decide) added).trans ?_⟩
  rw [← same₂, ← same]
  rfl

theorem schedulerInit_eq (k : Kernel) (heap : k.heap = heapStatics) (queue : k.sched.readyQueue = 0)
    (enough : 2 ≤ fuel) (testTaskA testTaskB : UInt32) :
    ∃ sched, k.schedulerInit fuel testTaskA testTaskB = some { k with
      heap := ⟨0, 8328, 4116⟩
      sched := sched
      live := (8300, 24) :: (4180, 4096) :: (4136, 24) :: (20, 4096) :: k.live } := by
  obtain ⟨first, created, linked, queue', ring⟩ := taskCreateKernel_first k heap queue fuel testTaskA
  obtain ⟨second, created'⟩ := taskCreateKernel_second
    { k with heap := firstHeap, sched := first, live := (4136, 24) :: (20, 4096) :: k.live }
    rfl linked queue' ring enough testTaskB
  refine ⟨second, ?_⟩
  rw [Kernel.schedulerInit, created, Option.bind_eq_bind, Option.bind_some]
  exact created'

/-! ## The kernel after `heap_init` -/

/-- What the boot leaves: four blocks below the heap, of which the list knows three. -/
structure Started (k : Kernel) : Prop where
  heap : k.heap = ⟨kernelHeapStart, kernelHeapStart, 4116⟩
  live : k.live = [(8300, 24), (4180, 4096), (4136, 24), (20, 4096)]
  taken : k.taken = []

/-- Where `pmm_init` succeeds, `kernel_boot` comes to the end of `heap_init`, with the
page tables that `paging_init` makes. -/
theorem kernelBoot_started (statics : k.Statics) (enough : 2 ≤ fuel)
    (succeeds : pmmInit fuel kernelEnd k.pmm k.sched.memory mbi = some (pmm, 0))
    (testTaskA testTaskB : UInt32) :
    ∃ k' before, kernelBoot fuel kernelEnd mbi testTaskA testTaskB k = some k' ∧ Started k' ∧
      before.pmm = pmm ∧ k'.pmm = (pagingInit before).pmm ∧
      k'.directory = (pagingInit before).directory ∧ k'.tables = (pagingInit before).tables ∧
      k'.sched.memory = bytesOf (pagingInit before).phys := by
  obtain ⟨sched, init⟩ := schedulerInit_eq { k with pmm := pmm } statics.heap statics.sched.2.1
    enough testTaskA testTaskB
  generalize same : ({ pmm := pmm, heap := ⟨0, 8328, 4116⟩, .. } : Kernel) = ready at init
  have pmm' : ready.vm.pmm = pmm := by rw [← same]; rfl
  have heap : heapInit ready.heap = ⟨kernelHeapStart, kernelHeapStart, 4116⟩ := by rw [← same]; rfl
  have live : ready.live = [(8300, 24), (4180, 4096), (4136, 24), (20, 4096)] := by
    rw [← same, ← statics.live]
  have taken : ready.taken = [] := by
    rw [← same]
    exact statics.taken
  refine ⟨{ ready.setVm (pagingInit ready.vm) with heap := heapInit ready.heap }, ready.vm, ?_,
    ⟨heap, live, taken⟩, pmm', rfl, rfl, rfl, rfl⟩
  rw [kernelBoot, succeeds, Option.bind_eq_bind, Option.bind_some]
  dsimp only
  rw [if_neg (not_not_intro rfl), init]
  rfl

/-! ## Runs -/

inductive KernelCall where
  | kmalloc (size : Nat)
  | kfree (ptr : Nat)
  | pageFault (faultAddr errorCode : UInt32)
  | allocFrame
  deriving DecidableEq, Repr

def Kernel.onMemory (k : Kernel) (memory : Mem) : Kernel :=
  { k with sched := { k.sched with memory := memory } }

/-- The calls after the boot. The rest of the kernel runs between them, so what a call
of the heap finds in memory is left open, and what it leaves there too. -/
def KernelStep (k : Kernel) : KernelCall → Kernel → Prop
  | .kmalloc size, k' => ∃ fuel found ptr k₁ left,
      (Kernel.onMemory k found).kmalloc fuel size = some (k₁, ptr) ∧ k' = Kernel.onMemory k₁ left
  | .kfree ptr, k' => ∃ fuel found k₁ left,
      (Kernel.onMemory k found).kfree fuel ptr = some k₁ ∧ k' = Kernel.onMemory k₁ left
  | .pageFault faultAddr errorCode, k' => ∃ fuel vm,
      isrHandler fuel k.vm faultAddr errorCode = .ok vm ∧ k' = k.setVm vm
  | .allocFrame, k' => k' = { k with
      pmm := (pmmAllocFrame k.pmm).1
      taken := if (pmmAllocFrame k.pmm).2 = 0 then k.taken else (pmmAllocFrame k.pmm).2 :: k.taken }

/-- A frame that the page tables put behind a live block. -/
def Backs (k : Kernel) (p : Nat) : Prop :=
  ∃ b ∈ k.live, ∃ a : UInt32, b.1 ≤ a.toNat ∧ a.toNat < b.1 + b.2 ∧ translate k.vm a = some p

/-- Live blocks lie in the heap, and the frames behind them are used for nothing else. -/
structure Separate (k : Kernel) : Prop where
  inHeap : ∀ b ∈ k.live, kernelHeapStart ≤ b.1 ∧ b.1 + b.2 ≤ kernelHeapEnd
  used : ∀ p, Backs k p → Pmm.used k.pmm (p / frameSize) = true
  notTaken : ∀ p, Backs k p → p ∉ k.taken
  notTable : ∀ p, Backs k p → ∀ d < 1024, k.directory d ≠ 0 → k.tables d ≠ p

/-! ### The stack of the first task -/

/-- The heap has its range, and a block at address 0 is live. -/
def Stranded (k : Kernel) : Prop := k.heap.heapStart = kernelHeapStart ∧ (20, 4096) ∈ k.live

theorem Stranded.not_separate (stranded : Stranded k) : ¬ Separate k := by
  intro separate
  have inside := (separate.inHeap _ stranded.2).1
  exact absurd inside (by decide)

/-- The answer of a heap function, if there is one, with `heap_start` as it was. -/
def StartKept (vars : HeapVars) (answer : Option (HeapVars × α)) : Prop :=
  ∀ vars' a, answer = some (vars', a) → vars'.heapStart = vars.heapStart

theorem StartKept.of_moved (moved : Moved vars answer) : StartKept vars answer := by
  intro vars' a same
  cases moved vars' a same <;> rfl

theorem kmalloc_start (fuel : Nat) (vars : HeapVars) (size : Nat) :
    Yields (Mm.kmalloc fuel vars size) (StartKept vars) :=
  fun m => .of_moved (kmalloc_moves fuel vars size m)

theorem kfree_start (fuel : Nat) (vars : HeapVars) (ptr : Nat) :
    Yields (Mm.kfree fuel vars ptr) (StartKept vars) :=
  fun m => .of_moved (kfree_moves fuel vars ptr m)

/-- `kfree` refuses what lies below the heap. -/
theorem kfree_below (start : vars.heapStart = kernelHeapStart) :
    (Mm.kfree fuel vars 20).run m = ⟨some (vars, some "Invalid free header!\n"), m, []⟩ := by
  have below : sub32 20 headerSize < vars.heapStart := by
    rw [start]
    decide
  rw [Mm.kfree, if_neg (by decide), if_pos (.inl below)]
  rfl

/-- No call frees the block or gives it back to the heap. -/
theorem stranded_step (stranded : Stranded k) (taken : KernelStep k call k') : Stranded k' := by
  obtain ⟨start, live⟩ := stranded
  cases call with
  | kmalloc size =>
    obtain ⟨fuel, found, ptr, k₁, left, done, rfl⟩ := taken
    obtain ⟨⟨heap, ptr'⟩, result, same⟩ := Option.map_eq_some_iff.mp done
    cases same
    refine ⟨(kmalloc_start fuel k.heap size found _ _ result).trans start, ?_⟩
    change (20, 4096) ∈ if ptr = 0 then k.live else (ptr, size) :: k.live
    split
    · exact live
    · exact List.mem_cons_of_mem _ live
  | kfree ptr =>
    obtain ⟨fuel, found, k₁, left, done, rfl⟩ := taken
    obtain ⟨⟨heap, message⟩, result, rfl⟩ := Option.map_eq_some_iff.mp done
    refine ⟨(kfree_start fuel k.heap ptr found _ _ result).trans start, ?_⟩
    change (20, 4096) ∈ if message = none then k.live.filter (·.1 ≠ ptr) else k.live
    split
    · rename_i freed
      have other : (20 : Nat) ≠ ptr := by
        rintro rfl
        change ((Mm.kfree fuel k.heap 20).run found).result = _ at result
        rw [kfree_below start] at result
        cases result
        cases freed
      exact List.mem_filter.mpr ⟨live, by simpa using other⟩
    · exact live
  | pageFault faultAddr errorCode =>
    obtain ⟨fuel, vm, -, rfl⟩ := taken
    exact ⟨start, live⟩
  | allocFrame =>
    cases taken
    exact ⟨start, live⟩

/-- Whatever the memory map, the managers are never separate: in every state of every
run after the boot the stack of the first test task lies below the heap. -/
theorem managers_overlap (statics : k.Statics) (enough : 2 ≤ fuel)
    (succeeds : pmmInit fuel kernelEnd k.pmm k.sched.memory mbi = some (pmm, 0))
    (testTaskA testTaskB : UInt32) :
    ∃ k', kernelBoot fuel kernelEnd mbi testTaskA testTaskB k = some k' ∧
      ∀ k'', Reachable (· = k') KernelStep k'' → ¬ Separate k'' := by
  obtain ⟨k', -, booted, started, -⟩ := kernelBoot_started statics enough succeeds testTaskA testTaskB
  refine ⟨k', booted, fun k'' reached => Stranded.not_separate ?_⟩
  refine reached.induct Stranded ?_ fun _ _ _ => stranded_step
  rintro _ rfl
  exact ⟨by rw [started.heap], by simp [started.live]⟩

/-- Static variables before the boot, and a memory map whose frame 1 is usable. -/
def smallKernel : Kernel where
  pmm := ⟨fun _ => 0, 0⟩
  directory := fun _ => 0
  tables := fun _ => 0
  heap := heapStatics
  sched := ⟨fun _ => ⟨0, .ready, 0, 0, 0, 0⟩, 0, 0, 1, 0, smallMap 0x1000⟩
  live := []
  taken := []

theorem smallKernel_statics : smallKernel.Statics := ⟨rfl, ⟨rfl, rfl, rfl⟩, rfl, rfl, rfl⟩

theorem smallKernel_succeeds : ∃ pmm,
    pmmInit 3 0x108000 smallKernel.pmm smallKernel.sched.memory 0 = some (pmm, 0) := by
  have done : (pmmInit 3 0x108000 smallKernel.pmm smallKernel.sched.memory 0).map Prod.snd = some 0 := by
    decide +kernel
  obtain ⟨⟨pmm, code⟩, same, rfl⟩ := Option.map_eq_some_iff.mp done
  exact ⟨pmm, same⟩

/-- The overlap on a machine of 320 frames. -/
theorem managers_overlap_small : ∃ k', kernelBoot 3 0x108000 0 0x101000 0x102000 smallKernel = some k' ∧
    ∀ k'', Reachable (· = k') KernelStep k'' → ¬ Separate k'' := by
  obtain ⟨pmm, succeeds⟩ := smallKernel_succeeds
  exact managers_overlap smallKernel_statics (by decide) succeeds 0x101000 0x102000

/-- Right after `heap_init` the managers are not separate. -/
theorem blocks_below_the_heap : ¬ ∀ (fuel kernelEnd mbi : Nat) (testTaskA testTaskB : UInt32) (k k' : Kernel),
    k.Statics → (∃ pmm, pmmInit fuel kernelEnd k.pmm k.sched.memory mbi = some (pmm, 0)) →
    kernelBoot fuel kernelEnd mbi testTaskA testTaskB k = some k' →
    ∀ k'', Reachable (· = k') KernelStep k'' → Separate k'' := by
  intro claim
  obtain ⟨pmm, succeeds⟩ := smallKernel_succeeds
  obtain ⟨k', before, booted, started, -⟩ :=
    kernelBoot_started smallKernel_statics (by decide) succeeds 0x101000 0x102000
  have separate := claim 3 0x108000 0 0x101000 0x102000 smallKernel k' smallKernel_statics
    ⟨pmm, succeeds⟩ booted k' (.start rfl)
  exact Stranded.not_separate ⟨by rw [started.heap], by simp [started.live]⟩ separate

/-! ### The table in the stack -/

theorem readWord_bytesOf (words : Nat → Nat) (aligned : a % 4 = 0) :
    readWord (bytesOf words) a = wrap (words a) := by
  have byte : ∀ i < 4, bytesOf words (a + i) = .ofNat (words a / 2 ^ (8 * i)) := by
    intro i small
    have word : (a + i) / 4 * 4 = a := by omega
    have place : (a + i) % 4 = i := by omega
    rw [bytesOf, word, place]
  have b0 := byte 0 (by decide)
  have b1 := byte 1 (by decide)
  have b2 := byte 2 (by decide)
  have b3 := byte 3 (by decide)
  rw [Nat.add_zero] at b0
  simp only [readWord, b0, b1, b2, b3, UInt8.toNat_ofNat', wrap]
  omega

/-- Where frame 1 is free and frame 0 is not, `paging_init` puts the first page table
into the frame behind the stack of the first test task. -/
theorem first_table_in_stack (statics : k.Statics) (enough : 2 ≤ fuel)
    (succeeds : pmmInit fuel kernelEnd k.pmm k.sched.memory mbi = some (pmm, 0))
    (zero : ¬ Allocatable pmm 0) (one : Allocatable pmm 1) (testTaskA testTaskB : UInt32) :
    ∃ k', kernelBoot fuel kernelEnd mbi testTaskA testTaskB k = some k' ∧
      k'.directory 0 ≠ 0 ∧ k'.tables 0 = 0x1000 ∧ Backs k' 0x1000 := by
  obtain ⟨k', before, booted, started, rfl, -, directory, tables, memory⟩ :=
    kernelBoot_started statics enough succeeds testTaskA testTaskB
  have small : before.pmm.totalFrames < 2 ^ 20 :=
    started_total ⟨fuel, kernelEnd, k.pmm.bitmap, k.sched.memory, mbi, by
      rw [← succeeds, ← statics.frames]⟩
  have frame : (pmmAllocFrame before.pmm).2 = 0x1000 := by
    rcases alloc_cases before.pmm small with ⟨-, none⟩ | ⟨f, free, low, alloc⟩
    · exact absurd one (none 1)
    · obtain rfl : f = 1 := by
        have positive : f ≠ 0 := by
          rintro rfl
          exact zero free
        have least : ¬ 1 < f := fun more => low 1 more one
        omega
      rw [alloc]
      rfl
  obtain ⟨directory', tables', phys, result, -, -, entries⟩ := pagingInit_spec before
  rw [result] at directory tables memory
  rw [frame] at directory tables entries
  have table := entries 1 (by decide)
  have first : k'.directory 0 = entry (some 0x1000) := by
    rw [directory]
    rfl
  refine ⟨k', booted, ?_, ?_, (20, 4096), by simp [started.live], 0x1000, by decide, by decide, ?_⟩
  · rw [first]
    decide
  · rw [tables]
    rfl
  · have page : pageOf 0x1000 = 1 := rfl
    rw [translate_eq, page]
    change (decode (k'.directory 0)).bind (fun table => decode (readWord k'.sched.memory (table + 4 * 1))) = _
    rw [first, memory]
    change decode (readWord (bytesOf phys) (0x1000 + 4 * 1)) = _
    rw [readWord_bytesOf _ rfl, table]
    rfl

end ZynthexOS.BootOrder
