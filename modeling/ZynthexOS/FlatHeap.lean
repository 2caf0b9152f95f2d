import ZynthexOS.DemandPaging
import Mathlib.Data.Finset.Card

/-! The heap behind demand paging is plain memory: every load gives what was stored last, no
matter which of the accesses fault and which frames the handler takes for them. -/
namespace ZynthexOS.FlatHeap
open ZynthexOS.Core DemandPaging FrameAccounting Lib Lib.Memory Mm PageTranslation

/-- A load or a store of a word. -/
inductive Access where
  | load (a : UInt32)
  | store (a v : UInt32)
  deriving DecidableEq, Repr

def Access.address : Access → UInt32
  | .load a => a
  | .store a _ => a

/-- An access through the page tables, with the value loaded. -/
def access (fuel : Nat) (vm : Vm) : Access → Except Stop (Vm × List Nat)
  | .load a => do
    let (vm, v) ← fetchWord (isrHandler fuel) (fuel + 1) vm a
    .ok (vm, [v])
  | .store a v => do
    let vm ← storeWord (isrHandler fuel) (fuel + 1) vm a v.toNat
    .ok (vm, [])

/-- Accesses one after the other, with the values loaded. -/
def runAccesses (fuel : Nat) : Vm → List Access → Except Stop (Vm × List Nat)
  | vm, [] => .ok (vm, [])
  | vm, x :: xs => do
    let (vm, v) ← access fuel vm x
    let (vm, vs) ← runAccesses fuel vm xs
    .ok (vm, v ++ vs)

/-- The values loaded from plain memory. -/
def loads : (Nat → Nat) → List Access → List Nat
  | _, [] => []
  | m, .load a :: xs => m a.toNat :: loads m xs
  | m, .store a v :: xs => loads (assign m a.toNat v.toNat) xs

/-- An aligned word of the heap. -/
def HeapWord (a : UInt32) : Prop := HeapAddr a ∧ a.toNat % 4 = 0

/-- The accesses end in `debug_panic`, with any fuel that lets a handler start. -/
def RunPanics (vm : Vm) (xs : List Access) : Prop :=
  (∃ fuel message, runAccesses (fuel + 1) vm xs = .error (.panic message)) ∧
    ∀ fuel out, runAccesses (fuel + 1) vm xs ≠ .ok out

/-- The memory holds what the heap's pages hold. -/
def Holds (vm : Vm) (map : Nat → Option Nat) (m : Nat → Nat) : Prop :=
  ∀ k, k / 1024 = 1 → ∀ p ∈ map k, ∀ i < 1024, m (pageSize * k + 4 * i) = vm.phys (p + 4 * i)

variable {start : Pmm} {vm vm' : Vm} {map map' : Nat → Option Nat} {uses : Nat → Option Use} {a e : UInt32}
  {m : Nat → Nat} {p : Nat}

/-! ## Frames that are left -/

/-- The frames that can be allocated, in the order in which they are. -/
def frees (pmm : Pmm) : List Nat := (List.range (scanned pmm)).filter fun f => Pmm.used pmm f = false

theorem mem_frees {pmm : Pmm} : f ∈ frees pmm ↔ Allocatable pmm f := by
  simp [frees, Allocatable]

theorem frame_inj {f g : Nat} (same : f * frameSize = g * frameSize) : f = g := by
  have positive : 0 < frameSize := by decide
  exact Nat.eq_of_mul_eq_mul_right positive same

/-- The first number that is kept, and those kept without it. -/
theorem range_filter_first {p p' : Nat → Bool} (inside : f < n) (here : p f = true) (first : ∀ g < f, p g = false)
    (others : ∀ g, p' g = (decide (g ≠ f) && p g)) :
    (List.range n).filter p = f :: (List.range n).filter p' := by
  induction n with
  | zero => exact absurd inside (Nat.not_lt_zero f)
  | succ n ih =>
    rw [List.range_succ, List.filter_append, List.filter_append]
    by_cases last : f = n
    · subst last
      have none : ∀ q : Nat → Bool, (∀ g < f, q g = false) → (List.range f).filter q = [] := fun q unmet =>
        List.filter_eq_nil_iff.mpr fun g member => by simp [unmet g (List.mem_range.mp member)]
      rw [none p first, none p' fun g below => by rw [others, first g below, Bool.and_false]]
      simp [others, here]
    · have tail : [n].filter p' = [n].filter p := by simp [List.filter_cons, others, Ne.symm last]
      rw [ih (by omega), tail, List.cons_append]

theorem frees_first {pmm : Pmm} (free : Allocatable pmm f) (first : ∀ g < f, ¬ Allocatable pmm g) :
    frees pmm = f :: frees (setFrame pmm f) := by
  refine range_filter_first free.1 (by simp [free.2]) (fun g below => ?_) fun g => ?_
  · have inside := free.1
    exact decide_eq_false fun unused => first g below ⟨by omega, unused⟩
  · rw [used_setFrame]
    by_cases same : g = f <;> simp [same]

theorem frees_cons {pmm : Pmm} (small : pmm.totalFrames < 2 ^ 20) (cons : frees pmm = f :: rest) :
    Allocatable pmm f ∧ pmmAllocFrame pmm = (setFrame pmm f, f * frameSize) ∧ frees (setFrame pmm f) = rest := by
  rcases alloc_cases pmm small with ⟨-, none⟩ | ⟨g, free, first, alloc⟩
  · exact absurd (mem_frees.mp (cons ▸ List.mem_cons_self)) (none f)
  · have same := (frees_first free first).symm.trans cons
    obtain ⟨rfl, rest⟩ := List.cons.inj same
    exact ⟨free, alloc, rest⟩

/-- One more page can be mapped, and these frames are left then: one is taken for the page and,
where the heap has no table yet, a second one for the table, which the first table has to map. -/
def Served (vm : Vm) (rest : List Nat) : Prop :=
  if vm.directory 1 = 0 then ∃ f g, g < 1024 ∧ frees vm.pmm = f :: g :: rest
  else ∃ f, frees vm.pmm = f :: rest

/-- With its frames a fault is handled. -/
theorem isrHandler_served (mapped : Mapped vm map) (reach : vm.directory 1 ≠ 0 → LowFrame (vm.tables 1))
    (fault : HeapFault a e) (served : Served vm rest) : ∃ f, Allocatable vm.pmm f ∧
      TableReady { vm with pmm := setFrame vm.pmm f } ∧
      frees (ensureTable { vm with pmm := setFrame vm.pmm f } 1).pmm = rest ∧
      ∀ fuel, isrHandler (fuel + 1) vm a e =
        .ok (mapPage { vm with pmm := setFrame vm.pmm f } (aligned a) (.ofNat (f * frameSize))) := by
  have small := mapped.represents.small
  have heap : HeapAddr (aligned a) := (heapAddr_aligned a).mpr fault.1
  have handled : ∀ f, Allocatable vm.pmm f → pmmAllocFrame vm.pmm = (setFrame vm.pmm f, f * frameSize) →
      TableReady { vm with pmm := setFrame vm.pmm f } → ∀ fuel, isrHandler (fuel + 1) vm a e =
        .ok (mapPage { vm with pmm := setFrame vm.pmm f } (aligned a) (.ofNat (f * frameSize))) := by
    intro f free alloc ready fuel
    have positive : (pmmAllocFrame vm.pmm).2 ≠ 0 := by
      rw [alloc]
      intro zero
      exact mapped.represents.null (frame_inj (g := 0) (zero.trans (Nat.zero_mul _).symm) ▸ free)
    rw [isrHandler_heap fault, if_neg positive, alloc]
    refine mapPageThrough_low (mapped.take f) heap ?_ _ fuel
    by_cases noHeap : vm.directory 1 = 0
    · obtain ⟨g, free', alloc', low⟩ := ready noHeap
      exact .inr ⟨mapped.heap_empty noHeap, g, alloc', free', low⟩
    · have low := reach noHeap
      have above := low.above
      exact .inl ⟨Nat.ne_of_gt (Nat.lt_of_lt_of_le (by decide) above), low⟩
  unfold Served at served
  split at served
  · rename_i noHeap
    obtain ⟨f, g, low, cons⟩ := served
    obtain ⟨free, alloc, cons'⟩ := frees_cons small cons
    have still : (setFrame vm.pmm f).totalFrames < 2 ^ 20 := small
    obtain ⟨free', alloc', rest'⟩ := frees_cons still cons'
    have other : g ≠ 0 := by
      rintro rfl
      exact mapped.represents.null ((allocatable_setFrame _ _ _).mp free').2
    have lowFrame : LowFrame (g * frameSize) := by
      refine ⟨allocated_frameAddr small ((allocatable_setFrame _ _ _).mp free').2, ?_, ?_⟩ <;>
        simp only [frameSize] <;> omega
    have ready : TableReady { vm with pmm := setFrame vm.pmm f } := fun _ => ⟨g, free', alloc', lowFrame⟩
    refine ⟨f, free, ready, ?_, handled f free alloc ready⟩
    rw [ensureTable, if_pos (mapped.heap_empty noHeap), alloc']
    exact rest'
  · rename_i present
    obtain ⟨f, cons⟩ := served
    obtain ⟨free, alloc, rest'⟩ := frees_cons small cons
    have ready : TableReady { vm with pmm := setFrame vm.pmm f } := fun absent => absurd absent present
    refine ⟨f, free, ready, ?_, handled f free alloc ready⟩
    have cached : vm.tables 1 ≠ 0 := Nat.ne_of_gt (Nat.lt_of_lt_of_le (by decide) (reach present).above)
    rw [ensureTable, if_neg cached]
    exact rest'

/-- Without them it panics. -/
theorem panics_unserved (mapped : Mapped vm map) (reach : vm.directory 1 ≠ 0 → LowFrame (vm.tables 1))
    (fault : HeapFault a e) (unserved : ∀ rest, ¬ Served vm rest) : Panics vm a e := by
  have small := mapped.represents.small
  refine (isrHandler_cases mapped reach fault).resolve_right ?_
  rintro ⟨f, free, alloc, ready, -⟩
  obtain ⟨h, rest, cons⟩ := List.exists_cons_of_ne_nil (List.ne_nil_of_mem (mem_frees.mpr free))
  obtain ⟨-, alloc', cons'⟩ := frees_cons small cons
  have same : h = f := frame_inj (congrArg Prod.snd (alloc'.symm.trans alloc))
  subst same
  by_cases noHeap : vm.directory 1 = 0
  · obtain ⟨g, free', allocTable, low⟩ := ready noHeap
    rw [← mem_frees, cons'] at free'
    obtain ⟨i, rest', cons''⟩ := List.exists_cons_of_ne_nil (List.ne_nil_of_mem free')
    have still : (setFrame vm.pmm h).totalFrames < 2 ^ 20 := small
    obtain ⟨-, alloc'', -⟩ := frees_cons still (cons'.trans cons'')
    have same : i = g := frame_inj (congrArg Prod.snd (alloc''.symm.trans allocTable))
    have below := low.below
    refine unserved rest' ?_
    rw [Served, if_pos noHeap]
    refine ⟨h, i, ?_, by rw [cons, cons'']⟩
    rw [same]
    unfold frameSize at below
    omega
  · exact unserved rest (by rw [Served, if_neg noHeap]; exact ⟨h, cons⟩)

/-! ## A fault keeps the other pages -/

/-- The page of an address is there, and what the pages held before they still hold. -/
structure Touched (start : Pmm) (vm : Vm) (map : Nat → Option Nat) (a : UInt32) (vm' : Vm)
    (map' : Nat → Option Nat) (p : Nat) : Prop where
  paged : ∃ uses, Paged start vm' map' uses
  present : map' (pageOf a) = some p
  kept : ∀ k, k / 1024 = 1 → ∀ q ∈ map k, map' k = some q ∧ ∀ i < 1024, vm'.phys (q + 4 * i) = vm.phys (q + 4 * i)

/-- The frame of a page is not the frame of a table. -/
theorem page_ne_table (paged : Paged start vm map uses) (present : vm.directory d ≠ 0) (inside : d < 1024)
    (heap : k / 1024 = 1) (member : p ∈ map k) : p ≠ vm.tables d := by
  obtain ⟨f, rfl, page⟩ := paged.pages k heap p member
  obtain ⟨g, table, used⟩ := paged.tables d inside present
  rw [table]
  intro same
  rw [frame_inj same, used] at page
  cases page

/-- The frame of a page is not free. -/
theorem page_ne_free (paged : Paged start vm map uses) (free : Allocatable vm.pmm f)
    (heap : k / 1024 = 1) (member : p ∈ map k) : p ≠ f * frameSize := by
  obtain ⟨g, rfl, page⟩ := paged.pages k heap p member
  intro same
  rw [frame_inj same, paged.unused free] at page
  cases page

/-- A new table is cleared in a free frame. -/
theorem ensureTable_kept (paged : Paged start vm map uses) (ready : TableReady vm) (heap : k / 1024 = 1)
    (member : p ∈ map k) (inside : i < 1024) : (ensureTable vm 1).phys (p + 4 * i) = vm.phys (p + 4 * i) := by
  have frame := paged.mapped.represents.frames k p member
  by_cases noHeap : vm.directory 1 = 0
  · obtain ⟨g, free, alloc, -⟩ := ready noHeap
    have cleared : (ensureTable vm 1).phys = clearTable vm.phys (g * frameSize) := by
      rw [ensureTable, if_pos (paged.mapped.heap_empty noHeap), alloc]
    have other := allocated_frameAddr paged.mapped.represents.small free
    rw [cleared, clearTable_outside]
    exact fun j small => words_apart frame other (page_ne_free paged free heap member) inside small
  · have cached : vm.tables 1 ≠ 0 := by
      have above := (paged.reach noHeap).above
      omega
    rw [ensureTable, if_neg cached]

/-- A fault panics where a frame is missing. Otherwise it maps its page and no other. -/
theorem fault_touches (paged : Paged start vm map uses) (small : start.totalFrames < 2 ^ 20)
    (fault : HeapFault a e) (absent : map (pageOf a) = none) :
    (Panics vm a e ∧ ∀ rest, ¬ Served vm rest) ∨ ∃ vm' p, Touched start vm map a vm' (mapTo map (pageOf a) p) p ∧
      vm'.directory 1 ≠ 0 ∧ Served vm (frees vm'.pmm) ∧ ∀ fuel, isrHandler (fuel + 1) vm a e = .ok vm' := by
  by_cases served : ∃ rest, Served vm rest
  swap
  · rw [not_exists] at served
    exact .inl ⟨panics_unserved paged.mapped paged.reach fault served, served⟩
  obtain ⟨rest, served⟩ := served
  obtain ⟨f, free, ready, left, returns⟩ := isrHandler_served paged.mapped paged.reach fault served
  have heap : pageOf a / 1024 = 1 := (heapAddr_iff a).mp fault.1
  have taken := paged.take free (.page (pageOf a))
  obtain ⟨uses', paged', present, kept⟩ := taken.ensure ready
  have base : pageBase (.ofNat (f * frameSize)) = f * frameSize := by
    obtain ⟨aligned, below⟩ := allocated_frameAddr small (paged.within f free)
    rw [pageBase, UInt32.toNat_ofNat', Nat.mod_eq_of_lt below]
    unfold frameSize pageSize at *
    omega
  have entered := paged'.enter heap present small (kept _ _ (if_pos rfl))
  refine .inr ⟨_, f * frameSize, ⟨⟨uses', entered⟩, if_pos rfl, fun k heap' q member => ?_⟩, present,
    left ▸ served, fun fuel => ?_⟩
  · have other : k ≠ pageOf a := by
      rintro rfl
      rw [absent] at member
      cases member
    refine ⟨(if_neg other).trans member, fun i inside => ?_⟩
    have frame := paged.mapped.represents.frames k q member
    have table := paged'.mapped.represents.table_of_ne (d := 1) (by decide) present
    rw [← ensureTable_kept taken ready heap' member inside]
    refine assign_ne _ _ (words_apart frame ?_ ?_ inside (Nat.mod_lt _ (by decide)))
    · rw [heap]
      exact table.frame
    · rw [heap]
      exact page_ne_table paged' present (by decide) heap' member
  · rw [returns, mapPage_eq, pageOf_aligned, heap, base]

/-! ## One access -/

theorem Touched.refl (paged : Paged start vm map uses) (present : map (pageOf a) = some p) :
    Touched start vm map a vm map p := ⟨⟨uses, paged⟩, present, fun _ _ _ member => ⟨member, fun _ _ => rfl⟩⟩

theorem Touched.translate (touched : Touched start vm map a vm' map' p) : translate vm' a = some p := by
  obtain ⟨uses, paged⟩ := touched.paged
  rw [paged.mapped.represents.translate, touched.present]

/-- The frames that a touched page has cost: none if it was there. -/
inductive Spent (vm : Vm) (map : Nat → Option Nat) (a : UInt32) (vm' : Vm) (map' : Nat → Option Nat) : Prop where
  | present (there : map (pageOf a) ≠ none) (pmm : vm'.pmm = vm.pmm) (directory : vm'.directory = vm.directory)
      (same : map' = map) : Spent vm map a vm' map'
  | fault (absent : map (pageOf a) = none) (directory : vm'.directory 1 ≠ 0) (served : Served vm (frees vm'.pmm))
      (p : Nat) (mapped : map' = mapTo map (pageOf a) p) : Spent vm map a vm' map'

/-- A page that is not there and that no frame is left for. -/
def Unserved (vm : Vm) (map : Nat → Option Nat) (a : UInt32) : Prop :=
  map (pageOf a) = none ∧ ∀ rest, ¬ Served vm rest

/-- The page of an address is there already, or a fault panics, or the handler provides it. -/
theorem touches (paged : Paged start vm map uses) (small : start.totalFrames < 2 ^ 20) (fault : HeapFault a e) :
    (Mm.translate vm a = none ∧ Panics vm a e ∧ Unserved vm map a) ∨
    ∃ vm' map' p, Touched start vm map a vm' map' p ∧ Spent vm map a vm' map' ∧
      (vm' = vm ∨ Mm.translate vm a = none ∧ ∀ fuel, isrHandler (fuel + 1) vm a e = .ok vm') := by
  have walk : Mm.translate vm a = map (pageOf a) := paged.mapped.represents.translate a
  cases here : map (pageOf a) with
  | some p =>
    have there : map (pageOf a) ≠ none := by simp [here]
    exact .inr ⟨vm, map, p, .refl paged here, .present there rfl rfl rfl, .inl rfl⟩
  | none =>
    rw [here] at walk
    refine (fault_touches paged small fault here).imp (fun both => ⟨walk, both.1, here, both.2⟩) ?_
    rintro ⟨vm', p, touched, directory, served, returns⟩
    exact ⟨vm', _, p, touched, .fault here directory served p rfl, .inr ⟨walk, returns⟩⟩

theorem fetchWord_touched (touched : Touched start vm map a vm' map' p)
    (came : vm' = vm ∨ translate vm a = none ∧ ∀ fuel, isrHandler (fuel + 1) vm a 0x0 = .ok vm') (fuel : Nat) :
    fetchWord (isrHandler (fuel + 1)) (fuel + 1 + 1) vm a = .ok (vm', vm'.phys (p + a.toNat % pageSize)) := by
  have again : ∀ n, fetchWord (isrHandler (fuel + 1)) (n + 1) vm' a =
      .ok (vm', vm'.phys (p + a.toNat % pageSize)) := fun n => by
    rw [fetchWord, touched.translate]
  obtain same | ⟨absent, returns⟩ := came
  · rw [← same]
    exact again _
  · rw [fetchWord, absent]
    dsimp only
    rw [returns]
    exact again fuel

theorem storeWord_touched (touched : Touched start vm map a vm' map' p)
    (came : vm' = vm ∨ translate vm a = none ∧ ∀ fuel, isrHandler (fuel + 1) vm a 0x2 = .ok vm') (fuel v : Nat) :
    storeWord (isrHandler (fuel + 1)) (fuel + 1 + 1) vm a v =
      .ok { vm' with phys := assign vm'.phys (p + a.toNat % pageSize) v } := by
  have again : ∀ n, storeWord (isrHandler (fuel + 1)) (n + 1) vm' a v =
      .ok { vm' with phys := assign vm'.phys (p + a.toNat % pageSize) v } := fun n => by
    rw [storeWord, touched.translate]
  obtain same | ⟨absent, returns⟩ := came
  · rw [← same]
    exact again _
  · rw [storeWord, absent]
    dsimp only
    rw [returns]
    exact again fuel

/-- The place of a word in its page. -/
theorem HeapWord.place (word : HeapWord a) : ∃ i < 1024, a.toNat % pageSize = 4 * i ∧
    a.toNat = pageSize * pageOf a + 4 * i := by
  have aligned := word.2
  refine ⟨a.toNat % pageSize / 4, ?_, ?_, ?_⟩ <;> unfold pageSize
  · omega
  · omega
  · rw [pageOf, pageSize]
    omega

/-- Words of heap pages have a place each. -/
theorem heapWord_inj (paged : Paged start vm map uses) (heap : k / 1024 = 1) (heap' : l / 1024 = 1)
    (member : p ∈ map k) (member' : q ∈ map l) (inside : i < 1024) (inside' : j < 1024)
    (same : p + 4 * i = q + 4 * j) : k = l ∧ i = j := by
  have frame := paged.mapped.represents.frames k p member
  have frame' := paged.mapped.represents.frames l q member'
  have frames : p = q := by
    by_contra apart
    exact words_apart frame frame' apart inside inside' same
  subst frames
  obtain ⟨f, page, use⟩ := paged.pages k heap p member
  obtain ⟨g, page', use'⟩ := paged.pages l heap' p member'
  rw [frame_inj (page.symm.trans page'), use'] at use
  injection use with use
  injection use with use
  exact ⟨use.symm, by omega⟩

/-- A store to a page of the heap leaves the tables alone. -/
theorem paged_store (paged : Paged start vm map uses) (heap : k / 1024 = 1) (member : p ∈ map k)
    (inside : i < 1024) (v : Nat) : Paged start { vm with phys := assign vm.phys (p + 4 * i) v } map uses where
  mapped := paged.mapped.storeEntry (paged.mapped.represents.frames k p member)
    (fun _ small present => (page_ne_table paged present small heap member).symm) inside v
  within := paged.within
  held := paged.held
  tables := paged.tables
  pages := paged.pages
  reach := paged.reach

/-- What an access leaves, and what it gives against plain memory: whatever plain memory the
state behind it stands for, there is one that the state before it stands for. -/
structure Stepped (start : Pmm) (vm : Vm) (map : Nat → Option Nat) (x : Access) (vm' : Vm)
    (map' : Nat → Option Nat) (v : List Nat) : Prop where
  paged : ∃ uses, Paged start vm' map' uses
  returns : ∀ fuel, access (fuel + 1) vm x = .ok (vm', v)
  spent : Spent vm map x.address vm' map'
  flat : ∀ m', Holds vm' map' m' → ∃ m, Holds vm map m ∧ ∀ xs, loads m (x :: xs) = v ++ loads m' xs

/-- The access ends in `debug_panic`. -/
def AccessPanics (vm : Vm) (x : Access) : Prop :=
  (∃ fuel message, access (fuel + 1) vm x = .error (.panic message)) ∧ ∀ fuel out, access fuel vm x ≠ .ok out

/-- An access to a page that is not there ends as its fault does. -/
theorem accessPanics_of_fault (panics : Panics vm x.address e)
    (fails : ∀ fuel, ∃ rest, access fuel vm x = isrHandler fuel vm x.address e >>= rest) : AccessPanics vm x := by
  obtain ⟨⟨fuel, message, ends⟩, never⟩ := panics
  refine ⟨?_, fun fuel out done => ?_⟩
  · cases fuel with
    | zero => cases ends
    | succ fuel =>
      obtain ⟨rest, same⟩ := fails (fuel + 1)
      exact ⟨fuel, message, by rw [same, ends]; rfl⟩
  · obtain ⟨rest, same⟩ := fails fuel
    rw [same] at done
    cases nested : isrHandler fuel vm x.address e with
    | error stop =>
      rw [nested] at done
      cases done
    | ok vm' => exact never _ _ nested

theorem load_cases (paged : Paged start vm map uses) (small : start.totalFrames < 2 ^ 20) (word : HeapWord a) :
    (AccessPanics vm (.load a) ∧ Unserved vm map a) ∨
      ∃ vm' map' v, Stepped start vm map (.load a) vm' map' v := by
  have fault : HeapFault a 0x0 := ⟨word.1, by decide, by decide⟩
  obtain ⟨absent, panics, unserved⟩ | ⟨vm', map', p, touched, spent, came⟩ := touches paged small fault
  · refine .inl ⟨accessPanics_of_fault (x := .load a) panics fun fuel => ?_, unserved⟩
    rw [access, fetchWord, absent]
    dsimp only [Access.address]
    rw [bind_assoc]
    exact ⟨_, rfl⟩
  · refine .inr ⟨vm', map', [vm'.phys (p + a.toNat % pageSize)], touched.paged, fun fuel => ?_, spent,
      fun m' holds => ?_⟩
    · rw [access, fetchWord_touched touched came]
      rfl
    · have heap := (heapAddr_iff a).mp word.1
      obtain ⟨i, inside, offset, place⟩ := word.place
      refine ⟨m', fun k inHeap q member j small => ?_, fun xs => ?_⟩
      · obtain ⟨still, same⟩ := touched.kept k inHeap q member
        rw [holds k inHeap q still j small, same j small]
      · have here := holds _ heap p touched.present i inside
        rw [← place, ← offset] at here
        rw [loads, here]
        rfl

theorem store_cases (paged : Paged start vm map uses) (small : start.totalFrames < 2 ^ 20) (word : HeapWord a)
    (v : UInt32) : (AccessPanics vm (.store a v) ∧ Unserved vm map a) ∨
      ∃ vm' map' out, Stepped start vm map (.store a v) vm' map' out := by
  have fault : HeapFault a 0x2 := ⟨word.1, by decide, by decide⟩
  obtain ⟨absent, panics, unserved⟩ | ⟨vm', map', p, touched, spent, came⟩ := touches paged small fault
  · refine .inl ⟨accessPanics_of_fault (x := .store a v) panics fun fuel => ?_, unserved⟩
    rw [access, storeWord, absent]
    dsimp only [Access.address]
    rw [bind_assoc]
    exact ⟨_, rfl⟩
  · have heap := (heapAddr_iff a).mp word.1
    obtain ⟨i, inside, offset, place⟩ := word.place
    obtain ⟨uses', paged'⟩ := touched.paged
    refine .inr ⟨{ vm' with phys := assign vm'.phys (p + 4 * i) v.toNat }, map', [],
      ⟨uses', paged_store paged' heap touched.present inside _⟩, fun fuel => ?_, ?_, fun m' holds => ?_⟩
    · rw [access, storeWord_touched touched came, offset]
      rfl
    · cases spent with
      | present there pmm directory same => exact .present there pmm directory same
      | fault absent directory served p mapped => exact .fault absent directory served p mapped
    · have here : m' a.toNat = v.toNat := by
        rw [place, holds _ heap p touched.present i inside]
        exact assign_same ..
      -- before the store the word had what its page holds there
      refine ⟨assign m' a.toNat (vm'.phys (p + 4 * i)), fun k inHeap q member j small => ?_, fun xs => ?_⟩
      · obtain ⟨still, same⟩ := touched.kept k inHeap q member
        by_cases word : k = pageOf a ∧ j = i
        · obtain ⟨rfl, rfl⟩ := word
          cases touched.present.symm.trans still
          rw [place, assign_same, same j small]
        · have elsewhere : pageSize * k + 4 * j ≠ a.toNat := fun equal => word (by
            rw [place] at equal
            unfold pageSize at equal
            omega)
          have apart : q + 4 * j ≠ p + 4 * i := fun equal =>
            word (heapWord_inj paged' inHeap heap still touched.present small inside equal)
          rw [assign_ne _ _ elsewhere, holds k inHeap q still j small, ← same j small]
          exact assign_ne _ _ apart
      · have back : assign (assign m' a.toNat (vm'.phys (p + 4 * i))) a.toNat v.toNat = m' := by
          funext n
          by_cases same : n = a.toNat
          · rw [same, assign_same, here]
          · rw [assign_ne _ _ same, assign_ne _ _ same]
        rw [loads, back]
        rfl

/-! ## Runs -/

theorem access_cases (paged : Paged start vm map uses) (small : start.totalFrames < 2 ^ 20) (x : Access)
    (word : HeapWord x.address) : (AccessPanics vm x ∧ Unserved vm map x.address) ∨
      ∃ vm' map' v, Stepped start vm map x vm' map' v := by
  cases x with
  | load a => exact load_cases paged small word
  | store a v => exact store_cases paged small word v

theorem holds_some (vm : Vm) (map : Nat → Option Nat) : ∃ m, Holds vm map m := by
  refine ⟨fun a => ((map (a / pageSize)).map fun p => vm.phys (p + a % pageSize)).getD 0, ?_⟩
  intro k _ p member i inside
  have page : (pageSize * k + 4 * i) / pageSize = k := by
    unfold pageSize
    omega
  have offset : (pageSize * k + 4 * i) % pageSize = 4 * i := by
    unfold pageSize
    omega
  dsimp only
  rw [page, offset, member]
  rfl

/-- The pages still to be mapped. -/
def toMap (map : Nat → Option Nat) (xs : List Access) : Finset Nat :=
  (xs.map fun x => pageOf x.address).toFinset.filter fun k => map k = none

/-- The frames suffice for so many pages. -/
def Enough (vm : Vm) (n : Nat) : Prop := n = 0 ∨ ∃ rest, Served vm rest ∧ n ≤ rest.length + 1

theorem toMap_present (there : map (pageOf x.address) ≠ none) : toMap map (x :: xs) = toMap map xs := by
  rw [toMap, List.map_cons, List.toFinset_cons, Finset.filter_insert, if_neg there]
  rfl

theorem toMap_fault (absent : map (pageOf x.address) = none) (p : Nat) :
    (toMap map (x :: xs)).card = (toMap (mapTo map (pageOf x.address) p) xs).card + 1 := by
  have later : toMap (mapTo map (pageOf x.address) p) xs = (toMap map xs).erase (pageOf x.address) := by
    ext k
    rw [toMap, toMap, Finset.mem_erase, Finset.mem_filter, Finset.mem_filter, mapTo]
    by_cases same : k = pageOf x.address <;> simp [same]
  have first : toMap map (x :: xs) = insert (pageOf x.address) (toMap map xs) := by
    rw [toMap, List.map_cons, List.toFinset_cons, Finset.filter_insert, if_pos absent]
    rfl
  have member : pageOf x.address ∈ insert (pageOf x.address) (toMap map xs) := Finset.mem_insert_self ..
  rw [later, first, ← Finset.card_erase_add_one member, Finset.erase_insert_eq_erase]

theorem Served.unique (served : Served vm rest) (served' : Served vm rest') : rest = rest' := by
  unfold Served at served served'
  split at served
  · rename_i noHeap
    rw [if_pos noHeap] at served'
    obtain ⟨f, g, -, cons⟩ := served
    obtain ⟨f', g', -, cons'⟩ := served'
    exact (List.cons.inj (List.cons.inj (cons.symm.trans cons')).2).2
  · rename_i present
    rw [if_neg present] at served'
    obtain ⟨f, cons⟩ := served
    obtain ⟨f', cons'⟩ := served'
    exact (List.cons.inj (cons.symm.trans cons')).2

theorem enough_fault (directory : vm'.directory 1 ≠ 0) (served : Served vm (frees vm'.pmm)) :
    Enough vm (n + 1) ↔ Enough vm' n := by
  have before : Enough vm (n + 1) ↔ n ≤ (frees vm'.pmm).length := by
    constructor
    · rintro (none | ⟨rest, served', enough⟩)
      · cases none
      · rw [served.unique served']
        exact Nat.le_of_succ_le_succ enough
    · exact fun enough => .inr ⟨_, served, Nat.succ_le_succ enough⟩
  rw [before, Enough]
  constructor
  · intro enough
    cases frees : frees vm'.pmm with
    | nil =>
      rw [frees] at enough
      exact .inl (Nat.le_zero.mp enough)
    | cons f rest =>
      rw [frees] at enough
      exact .inr ⟨rest, by rw [Served, if_neg directory]; exact ⟨f, frees⟩, enough⟩
  · rintro (none | ⟨rest, served', enough⟩)
    · exact none ▸ Nat.zero_le _
    · rw [Served, if_neg directory] at served'
      obtain ⟨f, cons⟩ := served'
      rw [cons]
      exact enough

/-- An access uses up what the page it maps needs. -/
theorem Spent.enough (spent : Spent vm map x.address vm' map') :
    Enough vm (toMap map (x :: xs)).card ↔ Enough vm' (toMap map' xs).card := by
  cases spent with
  | present there pmm directory same =>
    rw [toMap_present there, same, Enough, Enough]
    simp only [Served, pmm, directory]
  | fault absent directory served p mapped =>
    rw [toMap_fault absent p, mapped]
    exact enough_fault directory served

theorem run_panics_of_first (panics : AccessPanics vm x) (xs : List Access) : RunPanics vm (x :: xs) := by
  obtain ⟨⟨fuel, message, ends⟩, never⟩ := panics
  refine ⟨⟨fuel, message, by rw [runAccesses, ends]; rfl⟩, fun fuel' out done => ?_⟩
  rw [runAccesses] at done
  cases first : access (fuel' + 1) vm x with
  | error stop =>
    rw [first] at done
    cases done
  | ok out' => exact never _ _ first

theorem Stepped.run (stepped : Stepped start vm map x vm' map' v) (xs : List Access) (fuel : Nat) :
    runAccesses (fuel + 1) vm (x :: xs) = (runAccesses (fuel + 1) vm' xs).map fun out => (out.1, v ++ out.2) := by
  rw [runAccesses, stepped.returns]
  change (runAccesses (fuel + 1) vm' xs >>= fun out => Except.ok (out.1, v ++ out.2)) = _
  cases runAccesses (fuel + 1) vm' xs <;> rfl

theorem Stepped.panics (stepped : Stepped start vm map x vm' map' v) (panics : RunPanics vm' xs) :
    RunPanics vm (x :: xs) := by
  obtain ⟨⟨fuel, message, ends⟩, never⟩ := panics
  refine ⟨⟨fuel, message, by rw [stepped.run, ends]; rfl⟩, fun fuel' out done => ?_⟩
  rw [stepped.run] at done
  cases last : runAccesses (fuel' + 1) vm' xs with
  | error stop =>
    rw [last] at done
    cases done
  | ok out' => exact never _ _ last

/-- With enough frames the accesses give what plain memory gives, and otherwise they panic. -/
theorem run_flat (paged : Paged start vm map uses) (small : start.totalFrames < 2 ^ 20)
    (words : ∀ x ∈ xs, HeapWord x.address) :
    (Enough vm (toMap map xs).card → ∃ m vm', Holds vm map m ∧
      ∀ fuel, runAccesses (fuel + 1) vm xs = .ok (vm', loads m xs)) ∧
    (¬ Enough vm (toMap map xs).card → RunPanics vm xs) := by
  induction xs generalizing vm map uses with
  | nil =>
    obtain ⟨m, holds⟩ := holds_some vm map
    exact ⟨fun _ => ⟨m, vm, holds, fun _ => rfl⟩, fun few => absurd (.inl rfl) few⟩
  | cons x xs ih =>
    obtain ⟨panics, absent, unserved⟩ | ⟨vm', map', v, stepped⟩ :=
      access_cases paged small x (words x List.mem_cons_self)
    · refine ⟨fun enough => ?_, fun _ => run_panics_of_first panics xs⟩
      rw [toMap_fault absent 0] at enough
      obtain none | ⟨rest, served, -⟩ := enough
      · cases none
      · exact absurd served (unserved rest)
    · obtain ⟨uses', paged'⟩ := stepped.paged
      obtain ⟨goes, stops⟩ := ih paged' fun y member => words y (List.mem_cons_of_mem x member)
      rw [stepped.spent.enough]
      refine ⟨fun enough => ?_, fun few => stepped.panics (stops few)⟩
      obtain ⟨m', vm'', holds, rest⟩ := goes enough
      obtain ⟨m, before, same⟩ := stepped.flat m' holds
      refine ⟨m, vm'', before, fun fuel => ?_⟩
      rw [stepped.run, rest, same]
      rfl

/-- The pages of the heap that are touched. -/
def touchedPages (xs : List Access) : Finset Nat := (xs.map fun x => pageOf x.address).toFinset

/-- Free frames that suffice for so many pages: the first fault takes two, the second of them
below 4 MiB for the table, and every other fault takes one. -/
def Suffice (frames : List Nat) (pages : Nat) : Prop :=
  pages = 0 ∨ ∃ f g rest, g < 1024 ∧ frames = f :: g :: rest ∧ pages ≤ rest.length + 1

theorem enough_iff (noHeap : vm.directory 1 = 0) : Enough vm n ↔ Suffice (frees vm.pmm) n := by
  refine or_congr_right ⟨?_, ?_⟩
  · rintro ⟨rest, served, few⟩
    rw [Served, if_pos noHeap] at served
    obtain ⟨f, g, low, cons⟩ := served
    exact ⟨f, g, rest, low, cons, few⟩
  · rintro ⟨f, g, rest, low, cons, few⟩
    exact ⟨rest, by rw [Served, if_pos noHeap]; exact ⟨f, g, low, cons⟩, few⟩

theorem pagingInit_noHeap (vm : Vm) : (pagingInit vm).directory 1 = 0 := by
  obtain ⟨directory, tables, phys, result, noEntry, -⟩ := pagingInit_spec vm
  rw [result]
  have first : directory 1 = 0 := noEntry 1 (by decide)
  exact (assign_ne directory ((pmmAllocFrame vm.pmm).2 ||| presentWritable) Nat.one_ne_zero).trans first

/-- After `paging_init` any loads and stores of the heap, in any order, behave as on plain memory
if the free frames suffice for the pages they touch, and otherwise end in `debug_panic`. -/
theorem heap_is_memory (reached : Reachable FrameInitial FrameStep s) (vm : Vm) (booted : vm.pmm = s.pmm)
    (available : ∃ f, Allocatable s.pmm f) (xs : List Access) (words : ∀ x ∈ xs, HeapWord x.address) :
    (Suffice (frees (pagingInit vm).pmm) (touchedPages xs).card →
      ∃ m vm', ∀ fuel, runAccesses (fuel + 1) (pagingInit vm) xs = .ok (vm', loads m xs)) ∧
    (¬ Suffice (frees (pagingInit vm).pmm) (touchedPages xs).card → RunPanics (pagingInit vm) xs) := by
  have small : vm.pmm.totalFrames < 2 ^ 20 := booted ▸ reached_total reached
  rw [← booted] at available
  obtain ⟨uses, paged⟩ := paged_pagingInit vm small available
  have noHeap := pagingInit_noHeap vm
  have all : toMap identityMap xs = touchedPages xs := by
    refine Finset.filter_true_of_mem fun k member => if_neg ?_
    obtain ⟨x, inside, rfl⟩ := List.mem_map.mp (List.mem_toFinset.mp member)
    have heap := (heapAddr_iff _).mp (words x inside).1
    unfold pageEntries
    omega
  obtain ⟨goes, stops⟩ := run_flat paged small words
  rw [all, enough_iff noHeap] at goes stops
  refine ⟨fun suffice => ?_, stops⟩
  obtain ⟨m, vm', -, run⟩ := goes suffice
  exact ⟨m, vm', run⟩

/-- A word of the first page, stored and loaded. -/
theorem heap_is_memory_word : ∃ vm', ∀ fuel, runAccesses (fuel + 1) (pagingInit (bootVm (smallPmm 0x1000)))
    [.store 0x400000 7, .load 0x400000] = .ok (vm', [7]) := by
  have started : Started (smallPmm 0x1000) := smallPmm_started (by decide +kernel)
  have one : Pmm.used (smallPmm 0x1000) 1 = false := by decide +kernel
  have inside : 1 < scanned (smallPmm 0x1000) := by decide +kernel
  have words : ∀ x ∈ [Access.store 0x400000 7, .load 0x400000], HeapWord x.address := by
    unfold HeapWord HeapAddr
    decide
  have frames : frees (pagingInit (bootVm (smallPmm 0x1000))).pmm =
      2 :: 3 :: (frees (pagingInit (bootVm (smallPmm 0x1000))).pmm).drop 2 := by decide +kernel
  have suffice : Suffice (frees (pagingInit (bootVm (smallPmm 0x1000))).pmm)
      (touchedPages [Access.store 0x400000 7, .load 0x400000]).card :=
    .inr ⟨2, 3, _, by decide, frames, Nat.le_add_left 1 _⟩
  obtain ⟨m, vm', run⟩ := (heap_is_memory (started_reached started) (bootVm (smallPmm 0x1000)) rfl
    ⟨1, inside, one⟩ _ words).1 suffice
  refine ⟨vm', fun fuel => ?_⟩
  rw [run, loads, loads, assign_same]
  rfl

end ZynthexOS.FlatHeap
