import ZynthexOS.Core.Idt
import ZynthexOS.PageTranslation

/-! Demand paging of the heap. Every frame that the page tables name has one use:
it is the table of one directory entry or the memory of one heap page. The handler
checks one of the two frames it may need; that the other one is missing shows in
the stores to the table, since page 0 is not mapped. Only the first table is
stored to before paging is on, and nothing checks that there was a frame for it. -/
namespace ZynthexOS.DemandPaging
open Lib Lib.Memory Lib.Scan Mm ZynthexOS.Core FrameAccounting PageTranslation

/-- An address of the kernel heap. -/
def HeapAddr (v : UInt32) : Prop := kernelHeapStart ≤ v.toNat ∧ v.toNat < kernelHeapEnd

/-- The heap is what the second directory entry covers. -/
theorem heapAddr_iff (v : UInt32) : HeapAddr v ↔ pageOf v / 1024 = 1 := by
  unfold HeapAddr pageOf kernelHeapStart kernelHeapEnd pageSize
  omega

/-- An address that the table of `paging_init` maps. -/
def LowAddr (v : UInt32) : Prop := 0x1000 ≤ v.toNat ∧ v.toNat < 0x400000

/-- The tables with nothing mapped outside the identity mapping and the heap. -/
structure Mapped (vm : Vm) (map : Nat → Option Nat) : Prop where
  represents : Represents vm map
  low : ∀ k < 1024, map k = identityMap k
  others : ∀ d < 1024, 2 ≤ d → vm.directory d = 0

theorem Mapped.translate_low (mapped : Mapped vm map) (low : LowAddr a) :
    translate vm a = some (pageBase a) := by
  have page : pageOf a < 1024 := by
    unfold LowAddr at low
    unfold pageOf pageSize
    omega
  rw [mapped.represents.translate, mapped.low _ page, identityMap_pageOf]
  exact if_pos low

/-- Without a table for the heap only the low addresses are mapped. -/
theorem Mapped.translate_none (mapped : Mapped vm map) (noHeap : vm.directory 1 = 0)
    (outside : ¬ LowAddr a) : translate vm a = none := by
  rw [mapped.represents.translate]
  by_cases page : pageOf a < 1024
  · rw [mapped.low _ page, identityMap_pageOf]
    exact if_neg outside
  · have inside := pageOf_lt a
    have absent : vm.directory (pageOf a / 1024) = 0 := by
      by_cases heap : pageOf a / 1024 = 1
      · rw [heap, noHeap]
      · exact mapped.others _ inside (by omega)
    have none := (mapped.represents.table _ inside).resolve_right fun table => table.entry_ne absent
    have unmapped := none.unmapped (pageOf a % 1024) (Nat.mod_lt _ (by decide))
    rwa [Nat.div_add_mod'] at unmapped

/-- The words of a frame that the first table maps. -/
structure LowFrame (t : Nat) : Prop where
  frame : FrameAddr t
  above : 0x1000 ≤ t
  below : t < 0x400000

theorem LowFrame.word (low : LowFrame t) (inside : i < 1024) :
    (UInt32.ofNat (t + 4 * i)).toNat = t + 4 * i ∧ LowAddr (.ofNat (t + 4 * i)) ∧
      pageBase (.ofNat (t + 4 * i)) = t ∧ t + (t + 4 * i) % pageSize = t + 4 * i := by
  obtain ⟨⟨aligned, -⟩, above, below⟩ := low
  have number : (UInt32.ofNat (t + 4 * i)).toNat = t + 4 * i := by
    rw [UInt32.toNat_ofNat']
    omega
  unfold LowAddr pageBase
  rw [number]
  unfold pageSize at aligned ⊢
  refine ⟨rfl, ⟨?_, ?_⟩, ?_, ?_⟩ <;> omega

/-- Stores to such a frame do not fault. -/
theorem storeWord_low (mapped : Mapped vm map) (low : LowFrame t) (inside : i < 1024) (n v : Nat) :
    storeWord handler (n + 1) vm (.ofNat (t + 4 * i)) v =
      .ok { vm with phys := storeEntry vm.phys t i v } := by
  obtain ⟨number, lowAddr, base, word⟩ := low.word inside
  rw [storeWord, mapped.translate_low lowAddr, base]
  dsimp only
  rw [number, word]
  rfl

/-- The frame holds no table. -/
def NotTable (vm : Vm) (t : Nat) : Prop := ∀ d < 1024, vm.directory d ≠ 0 → vm.tables d ≠ t

/-- Stores outside the tables change no translation. -/
theorem Mapped.storeEntry (mapped : Mapped vm map) (frame : FrameAddr t) (apart : NotTable vm t)
    (inside : i < 1024) (v : Nat) :
    Mapped { vm with phys := Mm.storeEntry vm.phys t i v } map := by
  have held := mapped.represents
  refine ⟨⟨held.small, held.null, held.frames, fun d small => ?_, held.apart⟩, mapped.low, mapped.others⟩
  rcases held.table d small with none | table
  · exact .inl ⟨none.entry, none.cache, none.unmapped⟩
  · refine .inr ⟨table.entry, table.frame, table.taken, fun j hj => ?_⟩
    rw [← table.entries j hj]
    exact assign_ne _ _ (words_apart table.frame frame (apart d small table.entry_ne) hj inside)

theorem foldlM_store (mapped : Mapped vm map) (low : LowFrame t) (apart : NotTable vm t)
    (is : List Nat) (inside : ∀ i ∈ is, i < 1024) (n : Nat) :
    is.foldlM (fun vm i => storeWord handler (n + 1) vm (.ofNat (t + 4 * i)) 0) vm =
      .ok { vm with phys := is.foldl (fun phys i => storeEntry phys t i 0) vm.phys } := by
  induction is generalizing vm with
  | nil => rfl
  | cons i is ih =>
    have small := inside i List.mem_cons_self
    rw [List.foldlM_cons, storeWord_low mapped low small]
    exact ih (mapped.storeEntry low.frame apart small 0) apart
      fun j member => inside j (List.mem_cons_of_mem _ member)

/-! ## `map_page` -/

/-- Taking a frame changes no translation. -/
theorem Mapped.take (mapped : Mapped vm map) (f : Nat) :
    Mapped { vm with pmm := setFrame vm.pmm f } map := by
  have held := mapped.represents
  have less : ∀ g, Allocatable (setFrame vm.pmm f) g → Allocatable vm.pmm g :=
    fun g free => ((allocatable_setFrame _ _ _).mp free).2
  refine ⟨⟨held.small, fun free => held.null (less 0 free), held.frames, fun d small => ?_, held.apart⟩,
    mapped.low, mapped.others⟩
  rcases held.table d small with none | table
  · exact .inl ⟨none.entry, none.cache, none.unmapped⟩
  · exact .inr ⟨table.entry, table.frame, fun free => table.taken (less _ free), table.entries⟩

theorem Mapped.notTable (mapped : Mapped vm map) (free : Allocatable vm.pmm f) :
    NotTable vm (f * frameSize) :=
  fun _ small present => (mapped.represents.table_of_ne small present).ne_allocated free

/-- The heap's table is not there, or in the identity mapping, and then a new table is
there too. -/
theorem Mapped.ensure (mapped : Mapped vm map) (available : vm.tables 1 = 0 → ∃ f, Allocatable vm.pmm f) :
    Mapped (ensureTable vm 1) (forget vm map 1) := by
  obtain ⟨represents, -, -⟩ := ensureTable_represents mapped.represents (d := 1) (by decide) available
  refine ⟨represents, fun k small => ?_, fun d small two => ?_⟩
  · have other : ¬ (vm.tables 1 = 0 ∧ k / 1024 = 1) := by omega
    rw [forget, if_neg other, mapped.low k small]
  · have other : d ≠ 1 := by omega
    rw [← mapped.others d small two]
    unfold ensureTable
    split
    · exact assign_ne _ _ other
    · rfl

theorem newTable_low (mapped : Mapped vm map) (empty : vm.tables d = 0)
    (alloc : pmmAllocFrame vm.pmm = (setFrame vm.pmm f, f * frameSize)) (free : Allocatable vm.pmm f)
    (low : LowFrame (f * frameSize)) (n : Nat) :
    newTable (storeWord handler (n + 1)) vm d = .ok (ensureTable vm d) := by
  have apart : NotTable { vm with pmm := setFrame vm.pmm f } (f * frameSize) := mapped.notTable free
  have inside : ∀ i ∈ List.range' 0 pageEntries, i < 1024 := by
    intro i member
    have bounds := List.mem_range'_1.mp member
    exact bounds.2
  have cleared : clearTable vm.phys (f * frameSize) = (List.range' 0 pageEntries).foldl
      (fun phys i => storeEntry phys (f * frameSize) i 0) vm.phys := by
    unfold clearTable forRange
    rw [Nat.sub_zero]
  unfold newTable ensureTable
  rw [alloc, if_pos empty]
  dsimp only
  rw [foldlM_store (mapped.take f) low apart _ inside, cleared]
  generalize List.foldl _ _ _ = phys
  rfl

/-- With a table in the identity mapping no store of `map_page` faults. -/
theorem mapPageThrough_low (mapped : Mapped vm map) (heap : HeapAddr v)
    (table : (vm.tables 1 ≠ 0 ∧ LowFrame (vm.tables 1)) ∨ (vm.tables 1 = 0 ∧
      ∃ f, pmmAllocFrame vm.pmm = (setFrame vm.pmm f, f * frameSize) ∧ Allocatable vm.pmm f ∧
        LowFrame (f * frameSize)))
    (p : UInt32) (n : Nat) :
    mapPageThrough (storeWord handler (n + 1)) vm v p = .ok (mapPage vm v p) := by
  have entry : v.toNat >>> 22 = 1 := by rw [dirIndex_eq, (heapAddr_iff v).mp heap]
  have index : (v.toNat >>> 12) &&& 0x03FF < 1024 := by
    rw [tableIndex_eq]
    exact Nat.mod_lt _ (by decide)
  have ensured : ensureTableThrough (storeWord handler (n + 1)) vm 1 = .ok (ensureTable vm 1) ∧
      LowFrame ((ensureTable vm 1).tables 1) ∧ Mapped (ensureTable vm 1) (forget vm map 1) := by
    rcases table with ⟨cached, low⟩ | ⟨empty, f, alloc, free, low⟩
    · have same : ensureTable vm 1 = vm := if_neg cached
      rw [ensureTableThrough, if_neg cached, same, forget_known cached]
      exact ⟨rfl, low, mapped⟩
    · have ensure := mapped.ensure fun _ => ⟨f, free⟩
      have tables : (ensureTable vm 1).tables 1 = f * frameSize := by
        rw [ensureTable, if_pos empty, alloc]
        dsimp only
        exact assign_same _ _ _
      rw [ensureTableThrough, if_pos empty, newTable_low mapped empty alloc free low, tables]
      exact ⟨rfl, low, ensure⟩
  obtain ⟨result, low, mapped'⟩ := ensured
  unfold mapPageThrough mapPage
  rw [entry]
  dsimp only
  rw [result]
  exact storeWord_low mapped' low index n _

/-! ## The handler -/

/-- A fault of the kernel on a page of the heap that is not present. -/
def HeapFault (a e : UInt32) : Prop := HeapAddr a ∧ e &&& 0x1 = 0 ∧ e &&& 0x4 = 0

/-- The handler ends in `debug_panic`. -/
def Panics (vm : Vm) (a e : UInt32) : Prop :=
  (∃ fuel message, isrHandler fuel vm a e = .error (.panic message)) ∧
    ∀ fuel vm', isrHandler fuel vm a e ≠ .ok vm'

/-- `fault_addr & 0xFFFFF000`. -/
def aligned (a : UInt32) : UInt32 := a &&& 0xFFFFF000

theorem toNat_aligned (a : UInt32) : (aligned a).toNat = pageBase a := by
  rw [aligned, UInt32.toNat_and]
  exact and_page_mask a.toNat_lt

theorem pageOf_aligned (a : UInt32) : pageOf (aligned a) = pageOf a := by
  rw [pageOf, toNat_aligned, pageBase, Nat.mul_div_cancel _ (by decide)]
  rfl

theorem heapAddr_aligned (a : UInt32) : HeapAddr (aligned a) ↔ HeapAddr a := by
  rw [heapAddr_iff, heapAddr_iff, pageOf_aligned]

theorem isrHandler_heap (fault : HeapFault a e) (fuel : Nat) (vm : Vm) :
    isrHandler (fuel + 1) vm a e =
      if (pmmAllocFrame vm.pmm).2 = 0 then
        .error (.panic "Out of physical memory during demand paging")
      else mapPageThrough (storeWord (isrHandler fuel) (fuel + 1))
        { vm with pmm := (pmmAllocFrame vm.pmm).1 } (aligned a) (.ofNat (pmmAllocFrame vm.pmm).2) := by
  obtain ⟨heap, present, user⟩ := fault
  have inside : HeapAddr (aligned a) := (heapAddr_aligned a).mpr heap
  rw [isrHandler]
  exact if_pos ⟨present, not_not.mpr user, inside.1, inside.2⟩

theorem isrHandler_elsewhere (outside : ¬ HeapAddr a) (fuel : Nat) (vm : Vm) (e : UInt32) :
    isrHandler (fuel + 1) vm a e = .error (.panic "Unhandled Page Fault") := by
  rw [isrHandler]
  exact if_neg fun both => outside ((heapAddr_aligned a).mp both.2.2)

/-- The state in which a new table is stored to for the first time. -/
def beforeTable (vm : Vm) : Vm := { vm with pmm := (pmmAllocFrame vm.pmm).1 }

/-- A new table that is not mapped makes the first store to it fault. -/
theorem mapPageThrough_faults (heap : HeapAddr v) (empty : vm.tables 1 = 0)
    (absent : translate (beforeTable vm) (.ofNat (pmmAllocFrame vm.pmm).2) = none) (p : UInt32)
    (n : Nat) : ∃ rest, mapPageThrough (storeWord handler (n + 1)) vm v p =
      handler (beforeTable vm) (.ofNat (pmmAllocFrame vm.pmm).2) 0x2 >>= rest := by
  have entry : v.toNat >>> 22 = 1 := by rw [dirIndex_eq, (heapAddr_iff v).mp heap]
  have words : List.range' 0 pageEntries = 0 :: List.range' 1 1023 := rfl
  have first : storeWord handler (n + 1) (beforeTable vm)
      (.ofNat ((pmmAllocFrame vm.pmm).2 + 4 * 0)) 0 =
      handler (beforeTable vm) (.ofNat (pmmAllocFrame vm.pmm).2) 0x2 >>= fun w =>
        storeWord handler n w (.ofNat (pmmAllocFrame vm.pmm).2) 0 := by
    have same : (pmmAllocFrame vm.pmm).2 + 4 * 0 = (pmmAllocFrame vm.pmm).2 := rfl
    rw [same, storeWord, absent]
  have table : ∃ rest, newTable (storeWord handler (n + 1)) vm 1 =
      handler (beforeTable vm) (.ofNat (pmmAllocFrame vm.pmm).2) 0x2 >>= rest := by
    unfold newTable
    rw [words]
    dsimp only
    rw [List.foldlM_cons]
    change ∃ rest, (storeWord handler (n + 1) (beforeTable vm) _ 0 >>= _) >>= _ = _
    rw [first, bind_assoc, bind_assoc]
    exact ⟨_, rfl⟩
  obtain ⟨rest, same⟩ := table
  unfold mapPageThrough ensureTableThrough
  rw [entry]
  dsimp only
  rw [if_pos empty, same, bind_assoc]
  exact ⟨_, rfl⟩

/-- A handler that runs into a panic panics. -/
theorem panics_of_fault
    (passes : ∀ fuel, ∃ rest, isrHandler (fuel + 1) vm a e = isrHandler fuel vm' a' 0x2 >>= rest)
    (panics : Panics vm' a' 0x2) : Panics vm a e := by
  obtain ⟨⟨fuel, message, ends⟩, never⟩ := panics
  refine ⟨⟨fuel + 1, message, ?_⟩, fun fuel' vm'' done => ?_⟩
  · obtain ⟨rest, same⟩ := passes fuel
    rw [same, ends]
    rfl
  · cases fuel' with
    | zero => cases done
    | succ fuel' =>
      obtain ⟨rest, same⟩ := passes fuel'
      rw [same] at done
      cases nested : isrHandler fuel' vm' a' 0x2 with
      | error stop =>
        rw [nested] at done
        cases done
      | ok w => exact never _ _ nested

theorem Mapped.heap_empty (mapped : Mapped vm map) (noHeap : vm.directory 1 = 0) : vm.tables 1 = 0 :=
  ((mapped.represents.table 1 (by decide)).resolve_right fun table => table.entry_ne noHeap).cache

theorem Mapped.beforeTable (mapped : Mapped vm map) : Mapped (beforeTable vm) map := by
  rcases alloc_cases vm.pmm mapped.represents.small with ⟨alloc, -⟩ | ⟨f, -, -, alloc⟩
  · have same : DemandPaging.beforeTable vm = vm := by rw [DemandPaging.beforeTable, alloc]
    rwa [same]
  · rw [DemandPaging.beforeTable, alloc]
    exact mapped.take f

/-- What is left after an allocation lies behind the frame taken. -/
theorem allocatable_after (small : pmm.totalFrames < 2 ^ 20)
    (free : Allocatable (pmmAllocFrame pmm).1 g) :
    Allocatable pmm g ∧ ∃ f < g, Allocatable pmm f := by
  rcases alloc_cases pmm small with ⟨alloc, none⟩ | ⟨f, first, low, alloc⟩
  · rw [alloc] at free
    exact absurd free (none g)
  · rw [alloc, allocatable_setFrame] at free
    refine ⟨free.2, f, ?_, first⟩
    by_contra before
    exact low g (by omega) free.2

theorem scanned_after (pmm : Pmm) : scanned (pmmAllocFrame pmm).1 = scanned pmm := by
  unfold pmmAllocFrame
  split <;> rfl

theorem panics_no_frame (fault : HeapFault a e) (none : (pmmAllocFrame vm.pmm).2 = 0) :
    Panics vm a e := by
  have ends : ∀ fuel, isrHandler (fuel + 1) vm a e =
      .error (.panic "Out of physical memory during demand paging") :=
    fun fuel => by rw [isrHandler_heap fault, if_pos none]
  refine ⟨⟨1, _, ends 0⟩, fun fuel vm' done => ?_⟩
  cases fuel with
  | zero => cases done
  | succ fuel => cases (ends fuel).symm.trans done

theorem panics_elsewhere (outside : ¬ HeapAddr a) : Panics vm a e := by
  refine ⟨⟨1, _, isrHandler_elsewhere outside 0 vm e⟩, fun fuel vm' done => ?_⟩
  cases fuel with
  | zero => cases done
  | succ fuel => cases (isrHandler_elsewhere outside fuel vm e).symm.trans done

/-- A handler that needs a table and gets no frame for it, or one that is not mapped,
ends as the handler of the first store to that table does. -/
theorem panics_step (mapped : Mapped vm map) (noHeap : vm.directory 1 = 0) (fault : HeapFault a e)
    (outside : ¬ LowAddr (.ofNat (pmmAllocFrame (beforeTable vm).pmm).2))
    (nested : HeapFault (.ofNat (pmmAllocFrame (beforeTable vm).pmm).2) 0x2 →
      Panics (beforeTable (beforeTable vm)) (.ofNat (pmmAllocFrame (beforeTable vm).pmm).2) 0x2) :
    Panics vm a e := by
  by_cases none : (pmmAllocFrame vm.pmm).2 = 0
  · exact panics_no_frame fault none
  · have mapped' := mapped.beforeTable
    have noHeap' : (beforeTable vm).directory 1 = 0 := noHeap
    have absent := mapped'.beforeTable.translate_none (a := .ofNat (pmmAllocFrame (beforeTable vm).pmm).2)
      noHeap' outside
    have heap : HeapAddr (aligned a) := (heapAddr_aligned a).mpr fault.1
    have panics : Panics (beforeTable (beforeTable vm))
        (.ofNat (pmmAllocFrame (beforeTable vm).pmm).2) 0x2 := by
      by_cases inside : HeapAddr (.ofNat (pmmAllocFrame (beforeTable vm).pmm).2)
      · exact nested ⟨inside, by decide, by decide⟩
      · exact panics_elsewhere inside
    refine panics_of_fault (fun fuel => ?_) panics
    rw [isrHandler_heap fault, if_neg none]
    exact mapPageThrough_faults heap (mapped'.heap_empty noHeap') absent _ fuel

/-- Without a low frame for the table of the heap every fault panics: it runs into
faults whose handlers are in the same position with fewer frames. -/
theorem panics_without_table (mapped : Mapped vm map) (noHeap : vm.directory 1 = 0)
    (fault : HeapFault a e) (frames : ∀ f, Allocatable vm.pmm f → scanned vm.pmm ≤ f + m)
    (high : ∀ f, Allocatable (pmmAllocFrame vm.pmm).1 f → 1024 ≤ f) : Panics vm a e := by
  have small := mapped.represents.small
  induction m generalizing vm a e with
  | zero =>
    apply panics_no_frame fault
    rcases alloc_cases vm.pmm small with ⟨alloc, -⟩ | ⟨f, free, -, -⟩
    · rw [alloc]
    · exact absurd free.1 (Nat.not_lt_of_le (frames f free))
  | succ m ih =>
    have small' : (pmmAllocFrame vm.pmm).1.totalFrames < 2 ^ 20 := mapped.beforeTable.represents.small
    refine panics_step mapped noHeap fault ?_ fun fault' =>
      ih mapped.beforeTable.beforeTable noHeap fault' (fun f free => ?_) (fun f free => ?_)
        mapped.beforeTable.beforeTable.represents.small
    · unfold beforeTable LowAddr
      dsimp only
      rcases alloc_cases _ small' with ⟨alloc, -⟩ | ⟨g, free, -, alloc⟩
      · rw [alloc]
        dsimp only
        decide
      · have above := high g free
        have inside := free.1
        have whole := scanned_le (pmmAllocFrame vm.pmm).1
        rw [alloc, UInt32.toNat_ofNat']
        simp only [frameSize]
        omega
    · obtain ⟨free', -⟩ := allocatable_after small' free
      obtain ⟨-, g, before, first⟩ := allocatable_after small free'
      have enough := frames g first
      have same : scanned (beforeTable (beforeTable vm)).pmm = scanned vm.pmm :=
        (scanned_after _).trans (scanned_after _)
      omega
    · obtain ⟨free', -⟩ := allocatable_after mapped.beforeTable.beforeTable.represents.small free
      exact high f (allocatable_after small' free').1

/-- The heap has its table, or there is a low frame for it. -/
def TableReady (vm : Vm) : Prop := vm.directory 1 = 0 → ∃ g, Allocatable vm.pmm g ∧
  pmmAllocFrame vm.pmm = (setFrame vm.pmm g, g * frameSize) ∧ LowFrame (g * frameSize)

/-- A fault panics, or takes a frame and maps it. -/
theorem isrHandler_cases (mapped : Mapped vm map)
    (reach : vm.directory 1 ≠ 0 → LowFrame (vm.tables 1)) (fault : HeapFault a e) :
    Panics vm a e ∨ ∃ f, Allocatable vm.pmm f ∧
      pmmAllocFrame vm.pmm = (setFrame vm.pmm f, f * frameSize) ∧
      TableReady { vm with pmm := setFrame vm.pmm f } ∧ ∀ fuel, isrHandler (fuel + 1) vm a e =
        .ok (mapPage { vm with pmm := setFrame vm.pmm f } (aligned a) (.ofNat (f * frameSize))) := by
  have small := mapped.represents.small
  have heap : HeapAddr (aligned a) := (heapAddr_aligned a).mpr fault.1
  rcases alloc_cases vm.pmm small with ⟨alloc, -⟩ | ⟨f, free, -, alloc⟩
  · exact .inl (panics_no_frame fault (by rw [alloc]))
  have positive : (pmmAllocFrame vm.pmm).2 ≠ 0 := by
    rw [alloc]
    intro zero
    have first : f = 0 := by
      simp only [frameSize] at zero
      omega
    exact mapped.represents.null (first ▸ free)
  have stuck : vm.directory 1 = 0 → (∀ g, Allocatable (setFrame vm.pmm f) g → 1024 ≤ g) →
      Panics vm a e := by
    intro noHeap high
    refine panics_without_table (m := scanned vm.pmm) mapped noHeap fault
      (fun g _ => Nat.le_add_left _ _) ?_
    rw [alloc]
    exact high
  have done : TableReady { vm with pmm := setFrame vm.pmm f } → ∀ fuel, isrHandler (fuel + 1) vm a e =
      .ok (mapPage { vm with pmm := setFrame vm.pmm f } (aligned a) (.ofNat (f * frameSize))) := by
    intro ready fuel
    rw [isrHandler_heap fault, if_neg positive, alloc]
    refine mapPageThrough_low (mapped.take f) heap ?_ _ fuel
    by_cases noHeap : vm.directory 1 = 0
    · obtain ⟨g, free', alloc', low⟩ := ready noHeap
      exact .inr ⟨mapped.heap_empty noHeap, g, alloc', free', low⟩
    · have low := reach noHeap
      refine .inl ⟨fun null => ?_, low⟩
      have above := low.above
      dsimp only at null
      omega
  by_cases noHeap : vm.directory 1 = 0
  · rcases alloc_cases (setFrame vm.pmm f) small with ⟨-, none⟩ | ⟨g, free', low, alloc'⟩
    · exact .inl (stuck noHeap fun g free' => absurd free' (none g))
    by_cases below : g < 1024
    · have other : g ≠ 0 := by
        rintro rfl
        exact mapped.represents.null ((allocatable_setFrame _ _ _).mp free').2
      have lowFrame : LowFrame (g * frameSize) := by
        refine ⟨allocated_frameAddr small ((allocatable_setFrame _ _ _).mp free').2, ?_, ?_⟩ <;>
          simp only [frameSize] <;> omega
      have ready : TableReady { vm with pmm := setFrame vm.pmm f } :=
        fun _ => ⟨g, free', alloc', lowFrame⟩
      exact .inr ⟨f, free, alloc, ready, done ready⟩
    · refine .inl (stuck noHeap fun h free'' => ?_)
      by_contra lower
      exact low h (by omega) free''
  · have ready : TableReady { vm with pmm := setFrame vm.pmm f } := fun absent => absurd absent noHeap
    exact .inr ⟨f, free, alloc, ready, done ready⟩

/-! ## What every frame is used for -/

inductive Use where
  | table (d : Nat)
  | page (k : Nat)

/-- A frame that was free at first and is marked used. -/
def FromPmm (start pmm : Pmm) (f : Nat) : Prop := Allocatable start f ∧ Pmm.used pmm f = true

/-- One more frame in use. -/
def use (uses : Nat → Option Use) (f : Nat) (u : Use) : Nat → Option Use :=
  fun g => if g = f then some u else uses g

/-- The frames that the directory and the heap's pages name, each with its use. -/
structure Paged (start : Pmm) (vm : Vm) (map : Nat → Option Nat) (uses : Nat → Option Use) : Prop where
  mapped : Mapped vm map
  within : ∀ f, Allocatable vm.pmm f → Allocatable start f
  held : ∀ f u, uses f = some u → FromPmm start vm.pmm f
  tables : ∀ d < 1024, vm.directory d ≠ 0 → ∃ f, vm.tables d = f * frameSize ∧ uses f = some (.table d)
  pages : ∀ k, k / 1024 = 1 → ∀ p ∈ map k, ∃ f, p = f * frameSize ∧ uses f = some (.page k)
  reach : vm.directory 1 ≠ 0 → LowFrame (vm.tables 1)

theorem Paged.unused (paged : Paged start vm map uses) (free : Allocatable vm.pmm f) : uses f = none := by
  cases here : uses f with
  | none => rfl
  | some u =>
    have set := (paged.held f u here).2
    rw [free.2] at set
    cases set

theorem use_old (fresh : uses f = none) (old : uses g = some v) : use uses f u g = some v := by
  have other : g ≠ f := by
    rintro rfl
    cases fresh.symm.trans old
  rw [use, if_neg other, old]

theorem Paged.held_use (paged : Paged start vm map uses) (free : Allocatable vm.pmm f)
    (here : use uses f u g = some v) : FromPmm start (setFrame vm.pmm f) g := by
  unfold use at here
  split at here
  · rename_i same
    subst same
    exact ⟨paged.within g free, by rw [used_setFrame]; simp⟩
  · obtain ⟨origin, set⟩ := paged.held g v here
    exact ⟨origin, by rw [used_setFrame, set, Bool.or_true]⟩

/-- The handler takes a frame for the page. -/
theorem Paged.take (paged : Paged start vm map uses) (free : Allocatable vm.pmm f) (u : Use) :
    Paged start { vm with pmm := setFrame vm.pmm f } map (use uses f u) where
  mapped := paged.mapped.take f
  within g free' := paged.within g ((allocatable_setFrame _ _ _).mp free').2
  held _ _ here := paged.held_use free here
  tables d small present := by
    obtain ⟨g, table, old⟩ := paged.tables d small present
    exact ⟨g, table, use_old (paged.unused free) old⟩
  pages k heap p member := by
    obtain ⟨g, page, old⟩ := paged.pages k heap p member
    exact ⟨g, page, use_old (paged.unused free) old⟩
  reach := paged.reach

/-- The table of the heap with nothing mapped in it loses nothing. -/
theorem Mapped.forget_same (mapped : Mapped vm map) (noHeap : vm.directory 1 = 0) :
    forget vm map 1 = map := by
  funext k
  unfold forget
  split
  · rename_i lost
    have none := (mapped.represents.table 1 (by decide)).resolve_right
      fun table => table.entry_ne noHeap
    have unmapped := none.unmapped (k % 1024) (Nat.mod_lt _ (by decide))
    have split : 1 * 1024 + k % 1024 = k := by omega
    rw [split] at unmapped
    exact unmapped.symm
  · rfl

/-- `map_page` takes a frame for the table of the heap. -/
theorem Paged.newTable (paged : Paged start vm map uses) (noHeap : vm.directory 1 = 0)
    (free : Allocatable vm.pmm g) (alloc : pmmAllocFrame vm.pmm = (setFrame vm.pmm g, g * frameSize))
    (low : LowFrame (g * frameSize)) :
    Paged start (ensureTable vm 1) map (use uses g (.table 1)) ∧ (ensureTable vm 1).directory 1 ≠ 0 := by
  have fresh := paged.unused free
  have ensured := paged.mapped.ensure fun _ => ⟨g, free⟩
  rw [paged.mapped.forget_same noHeap] at ensured
  have result : ensureTable vm 1 =
      { pmm := setFrame vm.pmm g
        directory := assign vm.directory 1 (g * frameSize ||| presentWritable)
        tables := assign vm.tables 1 (g * frameSize)
        phys := clearTable vm.phys (g * frameSize) } := by
    rw [ensureTable, if_pos (paged.mapped.heap_empty noHeap), alloc]
  have directory : ∀ d, (ensureTable vm 1).directory d =
      if d = 1 then g * frameSize ||| presentWritable else vm.directory d := fun d => by rw [result]; rfl
  have tables : ∀ d, (ensureTable vm 1).tables d = if d = 1 then g * frameSize else vm.tables d :=
    fun d => by rw [result]; rfl
  have pmm : (ensureTable vm 1).pmm = setFrame vm.pmm g := by rw [result]
  refine ⟨⟨ensured, fun f free' => ?_, fun f u here => ?_, fun d small there => ?_, fun k heap p member => ?_,
    fun _ => ?_⟩, ?_⟩
  · rw [pmm] at free'
    exact paged.within f ((allocatable_setFrame _ _ _).mp free').2
  · rw [pmm]
    exact paged.held_use free here
  · rw [tables]
    rw [directory] at there
    by_cases one : d = 1
    · subst one
      exact ⟨g, if_pos rfl, if_pos rfl⟩
    · rw [if_neg one] at there ⊢
      obtain ⟨f, table, old⟩ := paged.tables d small there
      exact ⟨f, table, use_old fresh old⟩
  · obtain ⟨f, page, old⟩ := paged.pages k heap p member
    exact ⟨f, page, use_old fresh old⟩
  · rw [tables]
    exact low
  · rw [directory, if_pos rfl]
    intro absent
    have none : entry (some (g * frameSize)) = 0 := absent
    cases entry_eq_zero.mp none

/-- After the table is ensured every use is still there. -/
theorem Paged.ensure (paged : Paged start vm map uses) (ready : TableReady vm) :
    ∃ uses', Paged start (ensureTable vm 1) map uses' ∧ (ensureTable vm 1).directory 1 ≠ 0 ∧
      ∀ f u, uses f = some u → uses' f = some u := by
  by_cases noHeap : vm.directory 1 = 0
  · obtain ⟨g, free, alloc, low⟩ := ready noHeap
    obtain ⟨paged', present⟩ := paged.newTable noHeap free alloc low
    exact ⟨_, paged', present, fun f u old => use_old (paged.unused free) old⟩
  · have cached : vm.tables 1 ≠ 0 := by
      have above := (paged.reach noHeap).above
      omega
    have same : ensureTable vm 1 = vm := if_neg cached
    rw [same]
    exact ⟨uses, paged, noHeap, fun _ _ old => old⟩

/-- `map_page` enters the frame of the page. -/
theorem Paged.enter (paged : Paged start vm map uses) (heap : k / 1024 = 1)
    (present : vm.directory 1 ≠ 0) (small : start.totalFrames < 2 ^ 20)
    (held : uses f = some (.page k)) :
    Paged start (setPage vm k (f * frameSize ||| presentWritable)) (mapTo map k (f * frameSize)) uses := by
  have frame : FrameAddr (f * frameSize) := allocated_frameAddr small (paged.held f _ held).1
  have table : Table vm map (k / 1024) :=
    heap ▸ paged.mapped.represents.table_of_ne (d := 1) (by decide) present
  have stored := setPage_represents paged.mapped.represents table (by omega) frame
  refine ⟨⟨stored, fun j low => ?_, paged.mapped.others⟩, paged.within, paged.held, paged.tables,
    fun j heap' p member => ?_, paged.reach⟩
  · have other : j ≠ k := by omega
    rw [mapTo, if_neg other, paged.mapped.low j low]
  · unfold mapTo at member
    split at member
    · rename_i same
      cases member
      exact ⟨f, rfl, same ▸ held⟩
    · exact paged.pages j heap' p member

/-- What a handled fault leaves. -/
theorem paged_isrHandler (paged : Paged start vm map uses) (small : start.totalFrames < 2 ^ 20)
    (fault : HeapFault a e) (done : isrHandler fuel vm a e = .ok vm') :
    ∃ map' uses', Paged start vm' map' uses' := by
  rcases isrHandler_cases paged.mapped paged.reach fault with panics | ⟨f, free, -, ready, returns⟩
  · exact absurd done (panics.2 fuel vm')
  cases fuel with
  | zero => cases done
  | succ fuel =>
    cases (returns fuel).symm.trans done
    have heap : pageOf (aligned a) / 1024 = 1 := (heapAddr_iff _).mp ((heapAddr_aligned a).mpr fault.1)
    obtain ⟨uses', paged', present, kept⟩ := (paged.take free (.page (pageOf (aligned a)))).ensure ready
    have base : pageBase (.ofNat (f * frameSize)) = f * frameSize := by
      obtain ⟨aligned, below⟩ := allocated_frameAddr small (paged.within f free)
      rw [pageBase, UInt32.toNat_ofNat', Nat.mod_eq_of_lt below]
      unfold frameSize pageSize at *
      omega
    rw [mapPage_eq, heap, base]
    exact ⟨_, _, paged'.enter heap present small (kept _ _ (if_pos rfl))⟩

/-- `paging_init` uses a frame for the first table. -/
theorem paged_pagingInit (vm : Vm) (small : vm.pmm.totalFrames < 2 ^ 20)
    (available : ∃ f, Allocatable vm.pmm f) :
    ∃ uses, Paged vm.pmm (pagingInit vm) identityMap uses := by
  obtain ⟨represents, first⟩ := pagingInit_represents vm small
  obtain ⟨directory, tables, phys, result, noEntry, noTable, -⟩ := pagingInit_spec vm
  obtain ⟨f, free, -, alloc⟩ : ∃ f, Allocatable vm.pmm f ∧ (∀ g < f, ¬ Allocatable vm.pmm g) ∧
      pmmAllocFrame vm.pmm = (setFrame vm.pmm f, f * frameSize) := by
    rcases alloc_cases vm.pmm small with ⟨-, none⟩ | found
    · obtain ⟨f, free⟩ := available
      exact absurd free (none f)
    · exact found
  have pmm : (pagingInit vm).pmm = setFrame vm.pmm f := by rw [result, alloc]
  have absent : ∀ d < 1024, d ≠ 0 → (pagingInit vm).directory d = 0 := by
    intro d inside other
    rw [result]
    exact (assign_ne _ _ other).trans (noEntry d inside)
  refine ⟨use (fun _ => none) f (.table 0), ⟨represents, fun _ _ => rfl, ?_⟩, ?_, ?_, ?_, ?_, ?_⟩
  · exact fun d inside two => absent d inside (by omega)
  · intro g free'
    rw [pmm] at free'
    exact ((allocatable_setFrame _ _ _).mp free').2
  · intro g u here
    unfold use at here
    split at here
    · rename_i same
      subst same
      rw [pmm]
      exact ⟨free, by rw [used_setFrame]; simp⟩
    · cases here
  · intro d inside present
    by_cases zero : d = 0
    · subst zero
      exact ⟨f, by rw [first, alloc], if_pos rfl⟩
    · exact absurd (absent d inside zero) present
  · intro k heap p member
    have outside : ¬ (1 ≤ k ∧ k < pageEntries) := by
      unfold pageEntries
      omega
    rw [identityMap, if_neg outside] at member
    cases member
  · exact fun present => absurd (absent 1 (by decide) (by decide)) present

/-- Every frame that the directory or a page of the heap names is a frame of the
allocator of its own. -/
structure NoAliasing (start : Pmm) (vm : Vm) : Prop where
  tables : ∀ d < 1024, ∀ p, decode (vm.directory d) = some p →
    ∃ f, p = f * frameSize ∧ FromPmm start vm.pmm f
  tablesApart : ∀ d < 1024, ∀ e < 1024, ∀ p, decode (vm.directory d) = some p →
    decode (vm.directory e) = some p → d = e
  pages : ∀ v, HeapAddr v → ∀ p, translate vm v = some p →
    ∃ f, p = f * frameSize ∧ FromPmm start vm.pmm f
  pagesApart : ∀ v w, HeapAddr v → HeapAddr w → ∀ p, translate vm v = some p →
    translate vm w = some p → pageOf v = pageOf w
  disjoint : ∀ d < 1024, ∀ v, HeapAddr v → ∀ p, decode (vm.directory d) = some p →
    translate vm v ≠ some p

theorem Paged.noAliasing (paged : Paged start vm map uses) : NoAliasing start vm := by
  have table : ∀ d < 1024, ∀ p, decode (vm.directory d) = some p →
      ∃ f, p = f * frameSize ∧ uses f = some (.table d) := by
    intro d small p here
    have present : vm.directory d ≠ 0 := by
      intro none
      rw [none] at here
      cases here
    have held := paged.mapped.represents.table_of_ne small present
    obtain ⟨f, address, use⟩ := paged.tables d small present
    rw [held.entry, decode_entry (by rintro q ⟨⟩; exact held.frame)] at here
    cases here
    exact ⟨f, address, use⟩
  have page : ∀ v, HeapAddr v → ∀ p, translate vm v = some p →
      ∃ f, p = f * frameSize ∧ uses f = some (.page (pageOf v)) := by
    intro v heap p here
    rw [paged.mapped.represents.translate] at here
    exact paged.pages _ ((heapAddr_iff v).mp heap) p here
  have frame : ∀ {f g : Nat}, f * frameSize = g * frameSize → f = g :=
    fun same => Nat.eq_of_mul_eq_mul_right (by decide) same
  refine ⟨fun d small p here => ?_, fun d hd e he p here there => ?_, fun v heap p here => ?_,
    fun v w heap heap' p here there => ?_, fun d small v heap p here there => ?_⟩
  · obtain ⟨f, address, use⟩ := table d small p here
    exact ⟨f, address, paged.held f _ use⟩
  · obtain ⟨f, rfl, use⟩ := table d hd p here
    obtain ⟨g, same, use'⟩ := table e he _ there
    rw [frame same, use'] at use
    cases use
    rfl
  · obtain ⟨f, address, use⟩ := page v heap p here
    exact ⟨f, address, paged.held f _ use⟩
  · obtain ⟨f, rfl, use⟩ := page v heap p here
    obtain ⟨g, same, use'⟩ := page w heap' _ there
    rw [frame same, use'] at use
    injection use with use
    injection use with use
    exact use.symm
  · obtain ⟨f, rfl, use⟩ := table d small p here
    obtain ⟨g, same, use'⟩ := page v heap _ there
    rw [frame same, use'] at use
    cases use

/-! ## Every sequence of faults -/

/-- Faults handled one after the other. -/
def handleFaults (fuel : Nat) (vm : Vm) (faults : List (UInt32 × UInt32)) : Except Stop Vm :=
  faults.foldlM (fun vm fault => isrHandler fuel vm fault.1 fault.2) vm

theorem paged_handleFaults (paged : Paged start vm map uses) (small : start.totalFrames < 2 ^ 20)
    (heap : ∀ fault ∈ faults, HeapFault fault.1 fault.2)
    (done : handleFaults fuel vm faults = .ok vm') : ∃ map' uses', Paged start vm' map' uses' := by
  induction faults generalizing vm map uses with
  | nil =>
    cases done
    exact ⟨map, uses, paged⟩
  | cons fault faults ih =>
    rw [handleFaults, List.foldlM_cons] at done
    cases first : isrHandler fuel vm fault.1 fault.2 with
    | error stop =>
      rw [first] at done
      cases done
    | ok w =>
      rw [first] at done
      obtain ⟨map', uses', paged'⟩ := paged_isrHandler paged small (heap fault List.mem_cons_self) first
      exact ih paged' (fun fault member => heap fault (List.mem_cons_of_mem _ member)) done

/-- A frame that the next fault needs cannot be allocated. -/
def Missing (vm : Vm) : Prop := firstFreeFrame vm.pmm = none ∨
  (vm.tables 1 = 0 ∧ firstFreeFrame (pmmAllocFrame vm.pmm).1 = none)

theorem firstFreeFrame_none {pmm : Pmm} (none : firstFreeFrame pmm = none) (f : Nat) :
    ¬ Allocatable pmm f := by
  intro free
  rcases firstFreeFrame_spec pmm with ⟨-, used⟩ | ⟨g, -, found, -⟩
  · have set := used f free.1
    rw [free.2] at set
    cases set
  · rw [none] at found
    cases found

/-- Every fault ends, and in a panic where a frame is missing. -/
theorem Paged.ends (paged : Paged start vm map uses) (fault : HeapFault a e) :
    (∃ fuel, isrHandler fuel vm a e ≠ .error .fuel) ∧ (Missing vm → Panics vm a e) := by
  rcases isrHandler_cases paged.mapped paged.reach fault with panics | ⟨f, free, alloc, ready, returns⟩
  · obtain ⟨fuel, message, ends⟩ := panics.1
    refine ⟨⟨fuel, ?_⟩, fun _ => panics⟩
    rw [ends]
    simp
  · refine ⟨⟨1, by rw [returns]; simp⟩, fun missing => ?_⟩
    rcases missing with none | ⟨empty, none⟩
    · exact absurd free (firstFreeFrame_none none f)
    · have noHeap : vm.directory 1 = 0 := by
        by_contra present
        have above := (paged.reach present).above
        omega
      obtain ⟨g, free', -, -⟩ := ready noHeap
      rw [alloc] at none
      exact absurd free' (firstFreeFrame_none none g)

/-- Along a sequence of faults no frame is used twice, every fault ends, and where a
frame is missing it panics. -/
def DemandSafe (vm : Vm) (faults : List (UInt32 × UInt32)) : Prop :=
  ∀ handled, handled <+: faults → ∀ fuel vm', handleFaults fuel (pagingInit vm) handled = .ok vm' →
    NoAliasing vm.pmm vm' ∧ ∀ a e, HeapFault a e →
      (∃ fuel, isrHandler fuel vm' a e ≠ .error .fuel) ∧ (Missing vm' → Panics vm' a e)

/-- Demand paging after `paging_init` in every state of the frame allocator, along
every sequence of faults: it is safe exactly if `paging_init` finds a frame for the
first table. -/
theorem demand_paging (reached : Reachable FrameInitial FrameStep s) (vm : Vm)
    (booted : vm.pmm = s.pmm) (heap : ∀ fault ∈ faults, HeapFault fault.1 fault.2) :
    DemandSafe vm faults ↔ ∃ f, Allocatable s.pmm f := by
  have small : vm.pmm.totalFrames < 2 ^ 20 := booted ▸ reached_total reached
  rw [← booted]
  constructor
  · intro safe
    obtain ⟨aliasing, -⟩ := safe [] List.nil_prefix 0 _ rfl
    obtain ⟨frame, -⟩ := alloc_taken small
    obtain ⟨directory, tables, phys, result, -⟩ := pagingInit_spec vm
    have first : decode ((pagingInit vm).directory 0) = some (pmmAllocFrame vm.pmm).2 := by
      rw [result]
      exact decode_entry (p := some _) (by rintro q ⟨⟩; exact frame)
    obtain ⟨f, -, free, -⟩ := aliasing.tables 0 (by decide) _ first
    exact ⟨f, free⟩
  · intro available handled isPrefix fuel vm' done
    obtain ⟨uses, paged⟩ := paged_pagingInit vm small available
    obtain ⟨map', uses', paged'⟩ := paged_handleFaults paged small
      (fun fault member => heap fault (isPrefix.subset member)) done
    exact ⟨paged'.noAliasing, fun a e fault => paged'.ends fault⟩

/-- A fault at the start of the heap, with frames left. -/
theorem demand_paging_first : DemandSafe (bootVm (smallPmm 0x1000)) [(0x400000, 0x2)] := by
  have started : Started (smallPmm 0x1000) := smallPmm_started (by decide +kernel)
  have one : Pmm.used (smallPmm 0x1000) 1 = false := by decide +kernel
  have inside : 1 < scanned (smallPmm 0x1000) := by decide +kernel
  have heap : ∀ fault ∈ [((0x400000 : UInt32), (0x2 : UInt32))], HeapFault fault.1 fault.2 := by
    intro fault member
    rw [List.mem_singleton.mp member]
    exact ⟨⟨by decide, by decide⟩, by decide, by decide⟩
  exact (demand_paging (started_reached started) (bootVm (smallPmm 0x1000)) rfl heap).mpr ⟨1, inside, one⟩

/-- A memory map whose usable memory is what the kernel occupies. -/
def kernelMap : Mem :=
  [(0, 64), (44, 24), (48, 64), (64, 20), (68, 0x100000), (76, 0x8000), (84, 1)].foldl
    (fun m (a, v) => writeWord m a v) fun _ => 0

@[irreducible] def kernelPmm : Pmm :=
  ((pmmInit 2 0x108000 ⟨fun _ => 0, 0⟩ kernelMap 0).map Prod.fst).getD ⟨fun _ => 0, 0⟩

theorem kernelPmm_started : Started kernelPmm := by
  have done : (pmmInit 2 0x108000 ⟨fun _ => 0, 0⟩ kernelMap 0).map Prod.snd = some 0 := by
    decide +kernel
  obtain ⟨⟨pmm, code⟩, same, rfl⟩ := Option.map_eq_some_iff.mp done
  exact ⟨2, 0x108000, fun _ => 0, kernelMap, 0, by rw [kernelPmm, same]; rfl⟩

/-- Without a free frame the first table is put at address 0, which was never
allocated. -/
theorem first_table_unallocated : ¬ ∀ s, Reachable FrameInitial FrameStep s →
    ∀ vm : Vm, vm.pmm = s.pmm → ∀ faults : List (UInt32 × UInt32),
      (∀ fault ∈ faults, HeapFault fault.1 fault.2) → DemandSafe vm faults := by
  intro claim
  have none : firstFreeFrame kernelPmm = none := by decide +kernel
  have safe := claim _ (started_reached kernelPmm_started) (bootVm kernelPmm) rfl [] (by simp)
  obtain ⟨aliasing, -⟩ := safe [] List.nil_prefix 0 _ rfl
  have null : (pmmAllocFrame kernelPmm).2 = 0 := by rw [pmmAllocFrame, none]
  obtain ⟨directory, tables, phys, result, -⟩ := pagingInit_spec (bootVm kernelPmm)
  have first : decode ((pagingInit (bootVm kernelPmm)).directory 0) = some 0 := by
    rw [result]
    change decode ((pmmAllocFrame kernelPmm).2 ||| presentWritable) = some 0
    rw [null]
    rfl
  obtain ⟨f, -, free, -⟩ := aliasing.tables 0 (by decide) _ first
  exact firstFreeFrame_none none f free

end ZynthexOS.DemandPaging
