import ZynthexOS.FrameAccounting
import ZynthexOS.Mm.Paging

/-! What the processor's walk over the page tables yields. The directory, the
cache of table pointers and the tables in physical memory represent one map from
page numbers to frames; `map_page` updates that map at its own page, except that
a first table in frame 0 is taken for no table at all and replaced. -/
namespace ZynthexOS.PageTranslation
open Lib Lib.Memory Lib.Bits Lib.Scan Mm FrameAccounting

/-! ## Entries and indices -/

/-- The address of a frame. -/
def FrameAddr (p : Nat) : Prop := p % pageSize = 0 ∧ p < 2 ^ 32

/-- A directory or table entry for a frame, or an absent one. -/
def entry : Option Nat → Nat
  | none => 0
  | some p => p ||| presentWritable

/-- What the walk reads out of an entry. -/
def decode (e : Nat) : Option Nat := if e &&& 0x1 = 0 then none else some (e &&& 0xFFFFF000)

/-- The page number of an address. -/
def pageOf (v : UInt32) : Nat := v.toNat / pageSize

/-- The address with its low twelve bits cleared. -/
def pageBase (v : UInt32) : Nat := v.toNat / pageSize * pageSize

theorem frameAddr_entry (h : FrameAddr p) : p ||| presentWritable = p + 3 :=
  or_low (k := 12) h.1 (by decide)

theorem and_page_mask (small : x < 2 ^ 32) : x &&& 0xFFFFF000 = x / pageSize * pageSize := by
  have mask : 0xFFFFF000 = 2 ^ 32 - 2 ^ 12 := rfl
  rw [mask]
  exact and_high_mask (by decide) small

theorem decode_entry (held : ∀ q ∈ p, FrameAddr q) : decode (entry p) = p := by
  cases p with
  | none => rfl
  | some p =>
    obtain ⟨aligned, small⟩ := held p rfl
    have sum := frameAddr_entry ⟨aligned, small⟩
    have odd : (p + 3) &&& 0x1 = (p + 3) % 2 := Nat.and_one_is_mod _
    simp only [pageSize] at aligned
    rw [decode, entry, sum, odd, if_neg (by omega), and_page_mask (by omega), pageSize]
    exact congrArg some (by omega)

theorem entry_eq_zero : entry p = 0 ↔ p = none := by
  cases p with
  | none => simp [entry]
  | some p =>
    have low : (p ||| presentWritable) % 2 ^ 1 = 1 := by
      rw [Nat.or_mod_two_pow]
      have : p % 2 ^ 1 < 2 := Nat.mod_lt _ (by decide)
      have cases2 : p % 2 ^ 1 = 0 ∨ p % 2 ^ 1 = 1 := by omega
      rcases cases2 with h | h <;> rw [h] <;> rfl
    simp only [entry, reduceCtorEq, iff_false]
    omega

theorem frameAddr_pageBase (v : UInt32) : FrameAddr (pageBase v) := by
  have small := v.toNat_lt
  constructor <;> simp only [pageBase, pageSize] <;> omega

theorem dirIndex_eq (v : UInt32) : v.toNat >>> 22 = pageOf v / 1024 := by
  rw [Nat.shiftRight_eq_div_pow, pageOf, pageSize]
  omega

theorem tableIndex_eq (v : UInt32) : (v.toNat >>> 12) &&& 0x03FF = pageOf v % 1024 := by
  rw [Nat.shiftRight_eq_div_pow, show 0x03FF = 2 ^ 10 - 1 from rfl, Nat.and_two_pow_sub_one_eq_mod]
  rfl

theorem pageOf_lt (v : UInt32) : pageOf v / 1024 < 1024 := by
  have small := v.toNat_lt
  rw [pageOf, pageSize]
  omega

/-- The walk, as two entries decoded one after the other. -/
theorem translate_eq (vm : Vm) (v : UInt32) : translate vm v =
    (decode (vm.directory (pageOf v / 1024))).bind fun table =>
      decode (vm.phys (table + 4 * (pageOf v % 1024))) := by
  rw [Mm.translate, dirIndex_eq, tableIndex_eq]
  unfold decode
  split <;> rfl

/-! ## The arrays -/

theorem assign_same (words : Nat → Nat) (i v : Nat) : assign words i v i = v := if_pos rfl

theorem assign_ne (words : Nat → Nat) (v : Nat) (ne : k ≠ i) : assign words i v k = words k :=
  if_neg ne

theorem clearTable_inside (phys : Nat → Nat) (table : Nat) (inside : i < 1024) :
    clearTable phys table (table + 4 * i) = 0 := by
  have cleared := forRange_observe (fun phys i => storeEntry phys table i 0)
    (fun phys i => phys (table + 4 * i)) (fun _ _ => 0) (fun phys f g => by
      unfold storeEntry assign
      split_ifs <;> first | rfl | omega) 0 pageEntries phys i
  exact cleared.trans (if_pos ⟨Nat.zero_le _, inside⟩)

theorem clearTable_outside (phys : Nat → Nat) (table : Nat)
    (outside : ∀ i < 1024, a ≠ table + 4 * i) : clearTable phys table a = phys a :=
  forRange_keep _ (fun phys => phys a) 0 pageEntries
    (fun phys f _ high => assign_ne phys 0 (outside f high)) phys

/-! ## What the tables represent -/

/-- Directory entry `d` points at the cached table, a frame that cannot be handed
out again, whose entries are those of the map. -/
structure Table (vm : Vm) (map : Nat → Option Nat) (d : Nat) : Prop where
  entry : vm.directory d = entry (some (vm.tables d))
  frame : FrameAddr (vm.tables d)
  taken : ¬ Allocatable vm.pmm (vm.tables d / pageSize)
  entries : ∀ i < 1024, vm.phys (vm.tables d + 4 * i) = PageTranslation.entry (map (d * 1024 + i))

/-- No table: nothing is mapped. -/
structure NoTable (vm : Vm) (map : Nat → Option Nat) (d : Nat) : Prop where
  entry : vm.directory d = 0
  cache : vm.tables d = 0
  unmapped : ∀ i < 1024, map (d * 1024 + i) = none

structure Represents (vm : Vm) (map : Nat → Option Nat) : Prop where
  small : vm.pmm.totalFrames < 2 ^ 20
  null : ¬ Allocatable vm.pmm 0
  frames : ∀ k, ∀ p ∈ map k, FrameAddr p
  table : ∀ d < 1024, NoTable vm map d ∨ Table vm map d
  apart : ∀ d < 1024, ∀ e < 1024, vm.directory d ≠ 0 → vm.directory e ≠ 0 →
    vm.tables d = vm.tables e → d = e

/-- The walk yields what the map says. -/
theorem Represents.translate (held : Represents vm map) (v : UInt32) :
    translate vm v = map (pageOf v) := by
  have split : pageOf v / 1024 * 1024 + pageOf v % 1024 = pageOf v := Nat.div_add_mod' ..
  have place : pageOf v % 1024 < 1024 := Nat.mod_lt _ (by decide)
  rw [translate_eq]
  rcases held.table _ (pageOf_lt v) with none | table
  · rw [none.entry]
    have unmapped := none.unmapped _ place
    rw [split] at unmapped
    exact unmapped.symm
  · rw [table.entry, decode_entry (by rintro q ⟨⟩; exact table.frame), Option.bind_some,
      table.entries _ place, split, decode_entry (held.frames _)]

/-! ## `map_page` -/

/-- Words of two different frames are different words. -/
theorem words_apart (ht : FrameAddr t) (hu : FrameAddr u) (ne : t ≠ u) (hi : i < 1024)
    (hj : j < 1024) : t + 4 * i ≠ u + 4 * j := by
  have alignedT := ht.1
  have alignedU := hu.1
  simp only [pageSize] at alignedT alignedU
  omega

theorem Represents.table_of_ne (held : Represents vm map) (small : d < 1024)
    (present : vm.directory d ≠ 0) : Table vm map d :=
  (held.table d small).resolve_left fun none => present none.entry

theorem Table.entry_ne (table : Table vm map d) : vm.directory d ≠ 0 := by
  rw [table.entry, ne_eq, entry_eq_zero]
  simp

/-- A frame the allocator hands out is no table. -/
theorem Table.ne_allocated (table : Table vm map d) (free : Allocatable vm.pmm f) :
    vm.tables d ≠ f * frameSize := by
  intro same
  have taken := table.taken
  rw [same, pageSize, frameSize, Nat.mul_div_cancel _ (by decide)] at taken
  exact taken free

theorem allocated_frameAddr {pmm : Pmm} (small : pmm.totalFrames < 2 ^ 20)
    (free : Allocatable pmm f) : FrameAddr (f * frameSize) := by
  have inside := free.1
  have whole := scanned_le pmm
  constructor <;> simp only [pageSize, frameSize] <;> omega

/-- The map once the directory entry has a table: a table that the cache does
not know is forgotten. -/
def forget (vm : Vm) (map : Nat → Option Nat) (d : Nat) : Nat → Option Nat :=
  fun k => if vm.tables d = 0 ∧ k / 1024 = d then none else map k

theorem forget_known (cached : vm.tables d ≠ 0) : forget vm map d = map := by
  funext k
  exact if_neg fun h => cached h.1

/-- Frame `f` as the empty table of a directory entry. -/
def withTable (vm : Vm) (d f : Nat) : Vm where
  pmm := setFrame vm.pmm f
  directory := assign vm.directory d (f * frameSize ||| presentWritable)
  tables := assign vm.tables d (f * frameSize)
  phys := clearTable vm.phys (f * frameSize)

theorem ensureTable_new (held : Represents vm map) (unknown : vm.tables d = 0)
    (available : ∃ f, Allocatable vm.pmm f) :
    ∃ f, Allocatable vm.pmm f ∧ ensureTable vm d = withTable vm d f := by
  rcases alloc_cases vm.pmm held.small with ⟨-, none⟩ | ⟨f, free, -, alloc⟩
  · obtain ⟨f, free⟩ := available
    exact absurd free (none f)
  · exact ⟨f, free, by rw [ensureTable, if_pos unknown, alloc]; rfl⟩

theorem withTable_same (held : Represents vm map) (unknown : vm.tables d = 0)
    (free : Allocatable vm.pmm f) : Table (withTable vm d f) (forget vm map d) d := by
  have number : f * frameSize / pageSize = f := Nat.mul_div_cancel f (by decide)
  refine ⟨?_, ?_, ?_, fun i hi => ?_⟩
  · simp only [withTable, assign_same, entry]
  · simpa only [withTable, assign_same] using allocated_frameAddr held.small free
  · simp only [withTable, assign_same, number]
    exact fun again => ((allocatable_setFrame _ _ _).mp again).1 rfl
  · have here : (d * 1024 + i) / 1024 = d := by omega
    simp only [withTable, assign_same]
    rw [clearTable_inside _ _ hi, forget, if_pos ⟨unknown, here⟩]
    rfl

/-- The other directory entries keep their tables. -/
theorem withTable_other (held : Represents vm map) (free : Allocatable vm.pmm f) (inside : e < 1024)
    (other : e ≠ d) : NoTable (withTable vm d f) (forget vm map d) e ∨
      Table (withTable vm d f) (forget vm map d) e := by
  have forgets : ∀ i < 1024, forget vm map d (e * 1024 + i) = map (e * 1024 + i) := by
    intro i hi
    exact if_neg fun h => other (by omega)
  have tables : (withTable vm d f).tables e = vm.tables e := assign_ne _ _ other
  have directory : (withTable vm d f).directory e = vm.directory e := assign_ne _ _ other
  rcases held.table e inside with none | table
  · refine .inl ⟨directory.trans none.entry, tables.trans none.cache, fun i hi => ?_⟩
    rw [forgets i hi, none.unmapped i hi]
  · refine .inr ⟨?_, ?_, ?_, fun i hi => ?_⟩
    · rw [tables]
      exact directory.trans table.entry
    · rw [tables]
      exact table.frame
    · rw [tables]
      exact fun again => table.taken ((allocatable_setFrame _ _ _).mp again).2
    · have frame := allocated_frameAddr held.small free
      have phys : (withTable vm d f).phys = clearTable vm.phys (f * frameSize) := by
        simp only [withTable]
      rw [tables, forgets i hi, ← table.entries i hi, phys, clearTable_outside]
      exact fun j hj => words_apart table.frame frame (table.ne_allocated free) hi hj

theorem withTable_represents (held : Represents vm map) (inside : d < 1024) (unknown : vm.tables d = 0)
    (free : Allocatable vm.pmm f) : Represents (withTable vm d f) (forget vm map d) := by
  refine ⟨held.small, ?_, ?_, ?_, ?_⟩
  · exact fun zero => held.null ((allocatable_setFrame _ _ _).mp zero).2
  · intro k p member
    unfold forget at member
    split at member
    · cases member
    · exact held.frames k p member
  · intro e inE
    by_cases same : e = d
    · subst same
      exact .inr (withTable_same held unknown free)
    · exact withTable_other held free inE same
  · intro a ha b hb entryA entryB same
    simp only [withTable] at entryA entryB same
    by_cases isA : a = d <;> by_cases isB : b = d
    · rw [isA, isB]
    · subst isA
      simp only [assign_same, assign_ne _ _ isB] at same entryB
      exact absurd same.symm ((held.table_of_ne hb entryB).ne_allocated free)
    · subst isB
      simp only [assign_same, assign_ne _ _ isA] at same entryA
      exact absurd same ((held.table_of_ne ha entryA).ne_allocated free)
    · simp only [assign_ne _ _ isA, assign_ne _ _ isB] at same entryA entryB
      exact held.apart a ha b hb entryA entryB same

theorem ensureTable_represents (held : Represents vm map) (inside : d < 1024)
    (available : vm.tables d = 0 → ∃ f, Allocatable vm.pmm f) :
    Represents (ensureTable vm d) (forget vm map d) ∧ (ensureTable vm d).tables d ≠ 0 ∧
      ∀ e ≠ d, (ensureTable vm d).tables e = vm.tables e := by
  by_cases unknown : vm.tables d = 0
  · obtain ⟨f, free, result⟩ := ensureTable_new held unknown (available unknown)
    have positive : f ≠ 0 := by
      rintro rfl
      exact held.null free
    rw [result]
    refine ⟨withTable_represents held inside unknown free, ?_, fun e ne => assign_ne _ _ ne⟩
    simp only [withTable, assign_same, frameSize]
    omega
  · have result : ensureTable vm d = vm := if_neg unknown
    rw [result, forget_known unknown]
    exact ⟨held, unknown, fun _ _ => rfl⟩

/-- The map with one page mapped. -/
def mapTo (map : Nat → Option Nat) (page frame : Nat) : Nat → Option Nat :=
  fun k => if k = page then some frame else map k

/-- The entry of one page stored in its table. -/
def setPage (vm : Vm) (page e : Nat) : Vm :=
  { vm with phys := storeEntry vm.phys (vm.tables (page / 1024)) (page % 1024) e }

theorem setPage_represents (held : Represents vm map) (table : Table vm map (page / 1024))
    (inside : page / 1024 < 1024) (frame : FrameAddr p) :
    Represents (setPage vm page (p ||| presentWritable)) (mapTo map page p) := by
  refine ⟨held.small, held.null, fun k q member => ?_, fun d hd => ?_, held.apart⟩
  · unfold mapTo at member
    split at member
    · cases member
      exact frame
    · exact held.frames k q member
  · have place : page % 1024 < 1024 := Nat.mod_lt _ (by decide)
    have split : page / 1024 * 1024 + page % 1024 = page := Nat.div_add_mod' ..
    rcases held.table d hd with none | other
    · refine .inl ⟨none.entry, none.cache, fun i hi => ?_⟩
      have elsewhere : d * 1024 + i ≠ page := by
        intro same
        have here : d = page / 1024 := by omega
        exact table.entry_ne (here ▸ none.entry)
      rw [mapTo, if_neg elsewhere, none.unmapped i hi]
    · refine .inr ⟨other.entry, other.frame, other.taken, fun i hi => ?_⟩
      simp only [setPage, storeEntry]
      by_cases same : d * 1024 + i = page
      · have here : d = page / 1024 := by omega
        have there : i = page % 1024 := by omega
        rw [here, there, assign_same, split, mapTo, if_pos rfl]
        rfl
      · rw [mapTo, if_neg same, ← other.entries i hi]
        apply assign_ne
        by_cases here : d = page / 1024
        · rw [here]
          omega
        · refine words_apart other.frame table.frame (fun same => here ?_) hi place
          exact held.apart d hd _ inside other.entry_ne table.entry_ne same

theorem mapPage_eq (vm : Vm) (v p : UInt32) : mapPage vm v p =
    setPage (ensureTable vm (pageOf v / 1024)) (pageOf v) (pageBase p ||| presentWritable) := by
  rw [mapPage, dirIndex_eq, tableIndex_eq, and_page_mask p.toNat_lt]
  rfl

/-- `map_page` updates the map at its own page, in a directory entry whose table
it knows or makes. -/
theorem mapPage_represents (held : Represents vm map) (v p : UInt32)
    (available : vm.tables (pageOf v / 1024) = 0 → ∃ f, Allocatable vm.pmm f) :
    Represents (mapPage vm v p) (mapTo (forget vm map (pageOf v / 1024)) (pageOf v) (pageBase p)) ∧
      (mapPage vm v p).tables (pageOf v / 1024) ≠ 0 ∧
      ∀ d ≠ pageOf v / 1024, (mapPage vm v p).tables d = vm.tables d := by
  have inside := pageOf_lt v
  obtain ⟨ensured, cached, others⟩ := ensureTable_represents held inside available
  have table : Table (ensureTable vm (pageOf v / 1024)) (forget vm map (pageOf v / 1024))
      (pageOf v / 1024) := (ensured.table _ inside).resolve_left fun none => cached none.cache
  have stored := setPage_represents ensured table inside (frameAddr_pageBase p)
  rw [mapPage_eq]
  exact ⟨stored, cached, others⟩

/-! ## `paging_init` -/

/-- The map of the identity mapped pages. -/
def identityMap (k : Nat) : Option Nat :=
  if 1 ≤ k ∧ k < pageEntries then some (k * pageSize) else none

theorem cleared_array (words : Nat → Nat) (inside : k < 1024) :
    forRange (fun words i => assign words i 0) 0 pageEntries words k = 0 := by
  have cleared := forRange_observe (fun words i => assign words i 0) (fun words k => words k)
    (fun _ _ => 0) (fun _ _ _ => rfl) 0 pageEntries words k
  exact cleared.trans (if_pos ⟨Nat.zero_le _, inside⟩)

theorem identity_entries (phys : Nat → Nat) (table : Nat) (inside : i < 1024) :
    forRange (fun phys i => storeEntry phys table i (i * pageSize ||| presentWritable)) 1 pageEntries
      (clearTable phys table) (table + 4 * i) = entry (identityMap i) := by
  have stored := forRange_observe
    (fun phys i => storeEntry phys table i (i * pageSize ||| presentWritable))
    (fun phys i => phys (table + 4 * i)) (fun i _ => i * pageSize ||| presentWritable)
    (fun phys f g => by
      by_cases same : g = f
      · subst same
        rw [if_pos rfl]
        exact assign_same _ _ _
      · rw [if_neg same]
        exact assign_ne _ _ (by omega)) 1 pageEntries (clearTable phys table) i
  apply stored.trans
  unfold identityMap
  split
  · rfl
  · exact clearTable_inside phys table inside

/-- The frame `pmm_alloc_frame` returns, or frame 0 if it returns NULL, can not
be handed out again, and neither can frame 0. -/
theorem alloc_taken {pmm : Pmm} (small : pmm.totalFrames < 2 ^ 20) :
    FrameAddr (pmmAllocFrame pmm).2 ∧
      ¬ Allocatable (pmmAllocFrame pmm).1 ((pmmAllocFrame pmm).2 / pageSize) ∧
      ¬ Allocatable (pmmAllocFrame pmm).1 0 ∧
      (pmmAllocFrame pmm).1.totalFrames = pmm.totalFrames := by
  rcases alloc_cases pmm small with ⟨alloc, none⟩ | ⟨f, free, low, alloc⟩
  · rw [alloc]
    exact ⟨⟨rfl, Nat.two_pow_pos 32⟩, none _, none 0, rfl⟩
  · have number : f * frameSize / pageSize = f := Nat.mul_div_cancel f (by decide)
    rw [alloc]
    refine ⟨allocated_frameAddr small free, ?_, ?_, rfl⟩
    · rw [number, allocatable_setFrame]
      exact fun again => again.1 rfl
    · rw [allocatable_setFrame]
      exact fun zero => low 0 (Nat.pos_of_ne_zero zero.1.symm) zero.2

theorem pagingInit_spec (vm : Vm) : ∃ directory tables phys,
    pagingInit vm =
      { pmm := (pmmAllocFrame vm.pmm).1
        directory := assign directory 0 ((pmmAllocFrame vm.pmm).2 ||| presentWritable)
        tables := assign tables 0 (pmmAllocFrame vm.pmm).2
        phys := phys } ∧
      (∀ d < 1024, directory d = 0) ∧ (∀ d < 1024, tables d = 0) ∧
      ∀ i < 1024, phys ((pmmAllocFrame vm.pmm).2 + 4 * i) = entry (identityMap i) :=
  ⟨_, _, _, rfl, fun _ inside => cleared_array _ inside, fun _ inside => cleared_array _ inside,
    fun _ inside => identity_entries _ _ inside⟩

/-- `paging_init` builds the identity map, in a table at the address that
`pmm_alloc_frame` returned. -/
theorem pagingInit_represents (vm : Vm) (small : vm.pmm.totalFrames < 2 ^ 20) :
    Represents (pagingInit vm) identityMap ∧
      (pagingInit vm).tables 0 = (pmmAllocFrame vm.pmm).2 := by
  obtain ⟨frame, taken, null, total⟩ := alloc_taken small
  obtain ⟨directory, tables, phys, result, noEntry, noTable, entries⟩ := pagingInit_spec vm
  rw [result]
  refine ⟨⟨total ▸ small, null, fun k p member => ?_, fun d inside => ?_, ?_⟩,
    by simp only [assign_same]⟩
  · unfold identityMap pageEntries at member
    split at member
    · cases member
      constructor <;> simp only [pageSize] <;> omega
    · cases member
  · by_cases first : d = 0
    · subst first
      refine .inr ⟨rfl, frame, taken, fun i hi => ?_⟩
      rw [Nat.zero_mul, Nat.zero_add]
      exact entries i hi
    · refine .inl ⟨(assign_ne _ _ first).trans (noEntry d inside),
        (assign_ne _ _ first).trans (noTable d inside), fun i hi => if_neg ?_⟩
      simp only [pageEntries]
      omega
  · have isFirst : ∀ d < 1024, assign directory 0 ((pmmAllocFrame vm.pmm).2 ||| presentWritable) d ≠ 0 →
        d = 0 := by
      intro d inside present
      by_contra other
      exact present ((assign_ne _ _ other).trans (noEntry d inside))
    intro d hd e he present present' _
    rw [isFirst d hd present, isFirst e he present']

/-! ## Sequences of `map_page` -/

/-- `map_page(v_i, p_i)`, one after the other. -/
def mapPages (vm : Vm) (calls : List (UInt32 × UInt32)) : Vm :=
  calls.foldl (fun vm c => mapPage vm c.1 c.2) vm

/-- `first_free_frame` finds a frame whenever a page table has to be allocated. -/
def Supplied : Vm → List (UInt32 × UInt32) → Prop
  | _, [] => True
  | vm, c :: calls =>
    (vm.tables (c.1.toNat >>> 22) = 0 → firstFreeFrame vm.pmm ≠ none) ∧
      Supplied (mapPage vm c.1 c.2) calls

/-- The frame that the last call for a page maps it to. -/
def lastMapped (calls : List (UInt32 × UInt32)) (page : Nat) : Option Nat :=
  (calls.reverse.find? fun c => pageOf c.1 = page).map fun c => pageBase c.2

theorem lastMapped_cons (c : UInt32 × UInt32) (calls : List (UInt32 × UInt32)) (k : Nat) :
    lastMapped (c :: calls) k =
      (lastMapped calls k).or (if pageOf c.1 = k then some (pageBase c.2) else none) := by
  unfold lastMapped
  rw [List.reverse_cons, List.find?_append, List.find?_singleton]
  cases calls.reverse.find? fun c => pageOf c.1 = k with
  | some last => rfl
  | none =>
    rw [Option.none_or, Option.map_none, Option.none_or]
    by_cases here : pageOf c.1 = k <;> simp [here]

theorem lastMapped_eq_none : lastMapped calls k = none ↔ ∀ c ∈ calls, pageOf c.1 ≠ k := by
  simp [lastMapped]

/-- The page loses its mapping: the cache has no table for it when a call of the
sequence looks for one. -/
def Lost (vm : Vm) (calls : List (UInt32 × UInt32)) (k : Nat) : Prop :=
  vm.tables (k / 1024) = 0 ∧ ∃ c ∈ calls, pageOf c.1 / 1024 = k / 1024

open Classical in
/-- The map after a sequence of calls. -/
noncomputable def mapAfter (vm : Vm) (map : Nat → Option Nat) (calls : List (UInt32 × UInt32)) :
    Nat → Option Nat :=
  fun k => (lastMapped calls k).or (if Lost vm calls k then none else map k)

theorem supplied_allocatable {pmm : Pmm} (found : firstFreeFrame pmm ≠ none) :
    ∃ f, Allocatable pmm f := by
  rcases firstFreeFrame_spec pmm with ⟨none, -⟩ | ⟨f, inside, -, free, -⟩
  · exact absurd none found
  · exact ⟨f, inside, free⟩

/-- One call in front of a sequence. -/
theorem mapAfter_cons {vm vm' : Vm} (c : UInt32 × UInt32) (calls : List (UInt32 × UInt32))
    (cached : vm'.tables (pageOf c.1 / 1024) ≠ 0)
    (others : ∀ d ≠ pageOf c.1 / 1024, vm'.tables d = vm.tables d) :
    mapAfter vm' (mapTo (forget vm map (pageOf c.1 / 1024)) (pageOf c.1) (pageBase c.2)) calls =
      mapAfter vm map (c :: calls) := by
  funext k
  unfold mapAfter
  rw [lastMapped_cons]
  cases lastMapped calls k with
  | some last => rfl
  | none =>
    simp only [Option.none_or]
    by_cases entry : k / 1024 = pageOf c.1 / 1024
    · have kept : ¬ Lost vm' calls k := fun lost => cached (entry ▸ lost.1)
      have lost : Lost vm (c :: calls) k ↔ vm.tables (pageOf c.1 / 1024) = 0 := by
        rw [Lost, entry]
        exact and_iff_left ⟨c, by simp, rfl⟩
      rw [if_neg kept]
      by_cases page : k = pageOf c.1
      · simp [mapTo, page]
      · simp [mapTo, page, forget, entry, lost, Ne.symm page]
    · have page : pageOf c.1 ≠ k := by
        rintro rfl
        exact entry rfl
      have same : Lost vm' calls k ↔ Lost vm (c :: calls) k := by
        have elsewhere : pageOf c.1 / 1024 ≠ k / 1024 := Ne.symm entry
        simp [Lost, others _ entry, elsewhere]
      by_cases lost : Lost vm (c :: calls) k
      · simp [same.mpr lost, lost, page]
      · simp [mt same.mp lost, lost, mapTo, page, page.symm, forget, entry]

/-- A sequence of calls updates the map call by call. -/
theorem mapPages_represents (held : Represents vm map) (supplied : Supplied vm calls) :
    Represents (mapPages vm calls) (mapAfter vm map calls) := by
  induction calls generalizing vm map with
  | nil =>
    have same : mapAfter vm map [] = map := by
      funext k
      simp [mapAfter, lastMapped, Lost]
    rw [same]
    exact held
  | cons c calls ih =>
    obtain ⟨available, supplied⟩ := supplied
    rw [dirIndex_eq] at available
    obtain ⟨next, cached, others⟩ :=
      mapPage_represents held c.1 c.2 fun empty => supplied_allocatable (available empty)
    rw [← mapAfter_cons c calls cached others]
    exact ih next supplied

/-- What the walk has to yield: the frame of the last call for the page, else
the identity mapping, else nothing. -/
def expected (calls : List (UInt32 × UInt32)) (v : UInt32) : Option Nat :=
  (lastMapped calls (pageOf v)).or
    (if 0x1000 ≤ v.toNat ∧ v.toNat < 0x400000 then some (pageBase v) else none)

theorem identityMap_pageOf (v : UInt32) : identityMap (pageOf v) =
    if 0x1000 ≤ v.toNat ∧ v.toNat < 0x400000 then some (pageBase v) else none := by
  unfold identityMap pageOf pageBase pageSize pageEntries
  split_ifs <;> first | rfl | omega

/-- No call replaces identity mappings that it has to keep: the table of
`paging_init` is not at address 0, or no call looks for it, or every page of it is
mapped by a call. -/
def IdentityKept (pmm : Pmm) (calls : List (UInt32 × UInt32)) : Prop :=
  Servable pmm ∨ (∀ c ∈ calls, 0x400000 ≤ c.1.toNat) ∨
    ∀ k, 1 ≤ k → k < 1024 → ∃ c ∈ calls, pageOf c.1 = k

theorem first_table_iff (v : UInt32) : pageOf v / 1024 = 0 ↔ ¬ 0x400000 ≤ v.toNat := by
  unfold pageOf pageSize
  omega

/-- Every page below `2 ^ 20` is the page of an address. -/
theorem page_has_address (small : k < 2 ^ 20) : pageOf (UInt32.ofNat (k * pageSize)) = k := by
  rw [pageOf, pageSize, UInt32.toNat_ofNat']
  omega

/-- Translation after `paging_init` and any sequence of `map_page` calls that
finds its page tables: it is the expected one exactly where the identity mapping
is kept. -/
theorem translation (reached : Reachable FrameInitial FrameStep s) (vm : Vm)
    (booted : vm.pmm = s.pmm) (supplied : Supplied (pagingInit vm) calls) :
    (∀ v, translate (mapPages (pagingInit vm) calls) v = expected calls v) ↔
      IdentityKept s.pmm calls := by
  have small : vm.pmm.totalFrames < 2 ^ 20 := booted ▸ reached_total reached
  obtain ⟨init, table⟩ := pagingInit_represents vm small
  have final := mapPages_represents init supplied
  have served : (pagingInit vm).tables 0 ≠ 0 ↔ Servable s.pmm := by
    rw [table, booted]
    exact alloc_ne_zero_iff s.pmm (booted ▸ small)
  have walk : ∀ v, translate (mapPages (pagingInit vm) calls) v =
      mapAfter (pagingInit vm) identityMap calls (pageOf v) := final.translate
  have wanted : ∀ v, expected calls v =
      (lastMapped calls (pageOf v)).or (identityMap (pageOf v)) := by
    intro v
    rw [identityMap_pageOf, expected]
  constructor
  · intro property
    by_cases cached : (pagingInit vm).tables 0 = 0
    · refine .inr ?_
      by_contra neither
      obtain ⟨⟨c, member, low⟩, k, one, inside, missed⟩ :
          (∃ c ∈ calls, ¬ 0x400000 ≤ c.1.toNat) ∧
            ∃ k, 1 ≤ k ∧ k < 1024 ∧ ∀ c ∈ calls, pageOf c.1 ≠ k := by
        simpa using neither
      have lost : Lost (pagingInit vm) calls k := by
        have first : k / 1024 = 0 := by omega
        exact ⟨first ▸ cached, c, member, first ▸ (first_table_iff c.1).mpr low⟩
      have here := property (UInt32.ofNat (k * pageSize))
      rw [walk, wanted, page_has_address (by omega), mapAfter, lastMapped_eq_none.mpr missed,
        if_pos lost, identityMap, if_pos ⟨one, inside⟩] at here
      cases here
    · exact .inl (served.mp cached)
  · intro kept v
    rw [walk, wanted, mapAfter]
    by_cases lost : Lost (pagingInit vm) calls (pageOf v)
    · obtain ⟨empty, c, member, entry⟩ := lost
      rw [if_pos ⟨empty, c, member, entry⟩]
      by_cases page : 1 ≤ pageOf v ∧ pageOf v < pageEntries
      · have first : pageOf v / 1024 = 0 := Nat.div_eq_of_lt page.2
        rw [first] at empty entry
        have all := (kept.resolve_left (mt served.mpr (not_not.mpr empty))).resolve_left
          fun high => (first_table_iff c.1).mp entry (high c member)
        obtain ⟨c', member', same⟩ := all (pageOf v) page.1 page.2
        cases last : lastMapped calls (pageOf v) with
        | none => exact absurd same (lastMapped_eq_none.mp last c' member')
        | some p => rfl
      · rw [identityMap, if_neg page]
    · rw [if_neg lost]

/-- The allocator at `paging_init`, over cleared arrays and memory. -/
def bootVm (pmm : Pmm) : Vm := ⟨pmm, fun _ => 0, fun _ => 0, fun _ => 0⟩

theorem supplied_once (found : firstFreeFrame (pmmAllocFrame pmm).1 ≠ none)
    (c : UInt32 × UInt32) : Supplied (pagingInit (bootVm pmm)) [c] :=
  ⟨fun _ => found, trivial⟩

/-- With frame 0 in use a new page table leaves the identity mapping. -/
theorem translation_from_frame_one :
    let vm := mapPages (pagingInit (bootVm (smallPmm 0x1000))) [(0x400000, 0x6fff)]
    translate vm 0x400000 = some 0x6000 ∧ translate vm 0x2000 = some 0x2000 := by
  have started : Started (smallPmm 0x1000) := smallPmm_started (by decide +kernel)
  have zero : Pmm.used (smallPmm 0x1000) 0 = true := by decide +kernel
  have one : Pmm.used (smallPmm 0x1000) 1 = false := by decide +kernel
  have inside : 1 < scanned (smallPmm 0x1000) := by decide +kernel
  have more : firstFreeFrame (pmmAllocFrame (smallPmm 0x1000)).1 ≠ none := by decide +kernel
  have all := (translation (started_reached started) (bootVm (smallPmm 0x1000)) rfl
    (supplied_once more (0x400000, 0x6fff))).mpr (.inl ⟨zero, 1, inside, one⟩)
  exact ⟨all 0x400000, all 0x2000⟩

/-- With frame 0 free the first table is at address 0: `map_page` of page 1 takes
it for no table, and page 2 is not mapped any more. -/
theorem table_at_null_is_replaced : ¬ ∀ s, Reachable FrameInitial FrameStep s →
    ∀ vm : Vm, vm.pmm = s.pmm → ∀ calls, Supplied (pagingInit vm) calls →
      ∀ v, translate (mapPages (pagingInit vm) calls) v = expected calls v := by
  intro claim
  have started : Started (smallPmm 0) := smallPmm_started (by decide +kernel)
  have more : firstFreeFrame (pmmAllocFrame (smallPmm 0)).1 ≠ none := by decide +kernel
  have null : (pmmAllocFrame (smallPmm 0)).2 = 0 := by decide +kernel
  have supplied := supplied_once more (0x1000, 0x5000)
  obtain ⟨init, table⟩ := pagingInit_represents (bootVm (smallPmm 0)) (started_total started)
  have final := mapPages_represents init supplied
  have lost : Lost (pagingInit (bootVm (smallPmm 0))) [(0x1000, 0x5000)] 2 :=
    ⟨table.trans null, (0x1000, 0x5000), by simp, by decide⟩
  have walk : translate (mapPages (pagingInit (bootVm (smallPmm 0))) [(0x1000, 0x5000)]) 0x2000 =
      none := by
    have page : pageOf 0x2000 = 2 := by decide
    have missed : lastMapped [(0x1000, 0x5000)] 2 = none := by decide
    rw [final.translate, page, mapAfter, missed, if_pos lost]
    rfl
  have here := claim _ (started_reached started) (bootVm (smallPmm 0)) rfl _ supplied 0x2000
  rw [walk] at here
  exact absurd here (by decide)

end ZynthexOS.PageTranslation
