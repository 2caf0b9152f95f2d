import ZynthexOS.HeapRuns

/-! What `kfree` does with an arbitrary pointer. Its checks read a header where
there may be none: the size they find is followed to a tail word before it is
checked, and a stale or forged header passes them all. A pointer that the checks
reject inside the heap's address range leaves everything as it was. -/
namespace ZynthexOS.HeapRejection
open Lib Lib.Memory Mm HeapLayout HeapRepresentation HeapPrograms HeapConditions HeapAllocation
  HeapRelease HeapRuns

def magicOf (m : Mem) (block : Nat) : Nat := readWord m (magicAt block)

/-- The tail word behind the size that the header claims. -/
def tailOf (m : Mem) (block : Nat) : Nat := readWord m (tailAt block (sizeIn m block))

/-- A word of the heap's address range. -/
def WordInHeap (a : Nat) : Prop := kernelHeapStart ≤ a ∧ a + 4 ≤ kernelHeapEnd

instance : Decidable (WordInHeap a) := inferInstanceAs (Decidable (_ ∧ _))

/-- The pointer is the payload of a listed block that is in use. -/
def InUse (vars : HeapVars) (m : Mem) (ptr : Nat) : Prop :=
  ∃ b, Listed vars m b ∧ freeIn m b = 0 ∧ ptr = add32 b headerSize

/-- One of the checks of `kfree` fails on a word of the heap. -/
def Rejected (vars : HeapVars) (m : Mem) (ptr : Nat) : Prop :=
  let block := sub32 ptr headerSize
  ptr = 0 ∨ block < vars.heapStart ∨ block ≥ vars.heapEnd ∨ magicOf m block ≠ heapMagic ∨
    WordInHeap (sizeAt block) ∧ WordInHeap (tailAt block (sizeIn m block)) ∧
      (tailOf m block ≠ heapMagic ∨ sizeIn m block = 0 ∨
        tailAt block (sizeIn m block) > vars.heapEnd ∨
        WordInHeap (freeAt block) ∧ freeIn m block ≠ 0)

/-- A call the checks decide correctly: a sound append, a release of a block in
use with room for its tail words, or a pointer rejected. -/
def Checked (s : HeapState) : HeapCall → Prop
  | .kmalloc size => SoundAppend s.vars s.mem size.toNat
  | .kfree ptr => InUse s.vars s.mem ptr.toNat ∧
      MergeRoom 0 s.vars s.mem (sub32 ptr.toNat headerSize) ∨ Rejected s.vars s.mem ptr.toNat

/-- The block list, every block's fields and `heap_end` are the same. -/
structure SameHeap (vars : HeapVars) (m : Mem) (vars' : HeapVars) (m' : Mem) : Prop where
  listed : ∀ b, Listed vars' m' b ↔ Listed vars m b
  head : vars'.heapHead = vars.heapHead
  links : ∀ b, Listed vars m b → nextIn m' b = nextIn m b ∧ prevIn m' b = prevIn m b
  size : ∀ b, Listed vars m b → sizeIn m' b = sizeIn m b
  free : ∀ b, Listed vars m b → freeIn m' b = freeIn m b
  edge : vars'.heapEnd = vars.heapEnd

/-- `kfree(ptr)` dereferences only the heap, and changes it only when `ptr` is
a block in use. -/
structure Validates (s : HeapState) (ptr : UInt32) : Prop where
  inside : ∀ fuel, ∀ acc ∈ ((kfree fuel s.vars ptr.toNat).run s.mem).log, InHeap acc
  unchanged : ¬ InUse s.vars s.mem ptr.toNat → ∀ fuel vars msg,
    ((kfree fuel s.vars ptr.toNat).run s.mem).result = some (vars, msg) →
    SameHeap s.vars s.mem vars ((kfree fuel s.vars ptr.toNat).run s.mem).mem

theorem magicAt_of_lt (small : block < 2 ^ 32) : magicAt block = block := by
  rw [magicAt, add32, Nat.add_zero, wrap_of_lt small]

/-- A rejected pointer is refused, whatever it points at. -/
theorem kfree_rejected (held : HeapInv vars m bs stop) (rejected : Rejected vars m ptr)
    (fuel : Nat) : Refused vars m ((kfree fuel vars ptr).run m) := by
  have high := heapEnd_le held
  have top := held.stored.top
  have start := held.start
  by_cases null : ptr = 0
  · simp [Refused, kfree, null]
  simp only [kfree, if_neg null]
  simp only [Rejected, null, false_or] at rejected
  generalize sub32 ptr headerSize = block at rejected ⊢
  by_cases outside : block < vars.heapStart ∨ block ≥ vars.heapEnd
  · rw [if_pos outside]
    exact ⟨⟨some _, rfl⟩, rfl, by simp⟩
  obtain ⟨low, below⟩ := not_or.mp outside
  have rejected := (rejected.resolve_left low).resolve_left below
  have insideMagic : WordInHeap block := by
    clear rejected
    simp only [WordInHeap, tailSize] at top ⊢
    omega
  have small : block < 2 ^ 32 := by
    clear rejected
    simp only [WordInHeap, kernelHeapEnd] at insideMagic
    omega
  have magicIs : magicOf m block = readWord m block := by rw [magicOf, magicAt_of_lt small]
  have magicWord : wrap (magicAt block) = block := by rw [magicAt_of_lt small, wrap_of_lt small]
  have sizeWord : wrap (sizeAt block) = sizeAt block := wrap_wrap _
  have tailWord : wrap (tailAt block (sizeIn m block)) = tailAt block (sizeIn m block) :=
    wrap_wrap _
  have freeWord : wrap (freeAt block) = freeAt block := wrap_wrap _
  have sizeIs : readWord m (sizeAt block) = sizeIn m block := rfl
  have freeIs : readWord m (freeAt block) = freeIn m block := rfl
  rw [if_neg outside]
  simp only [run_bind, run_load, magicWord]
  by_cases magic : readWord m block ≠ heapMagic
  · rw [if_pos magic]
    refine ⟨⟨some _, rfl⟩, rfl, ?_⟩
    simpa [WordInHeap] using insideMagic
  rw [magicIs] at rejected
  obtain ⟨insideSize, insideTail, rejected⟩ := rejected.resolve_left magic
  rw [if_neg magic]
  simp only [run_bind, run_load, sizeWord, sizeIs, tailWord]
  by_cases tail : tailOf m block ≠ heapMagic
  · rw [tailOf] at tail
    rw [if_pos tail]
    refine ⟨⟨some _, rfl⟩, rfl, ?_⟩
    simpa [WordInHeap] using ⟨insideMagic, insideSize, insideTail⟩
  have rejected := rejected.resolve_left tail
  rw [tailOf] at tail
  rw [if_neg tail]
  by_cases size : sizeIn m block = 0 ∨ tailAt block (sizeIn m block) > vars.heapEnd
  · rw [if_pos size]
    refine ⟨⟨some _, rfl⟩, rfl, ?_⟩
    simpa [WordInHeap] using ⟨insideMagic, insideSize, insideTail⟩
  obtain ⟨positive, ends⟩ := not_or.mp size
  obtain ⟨insideFree, free⟩ := (rejected.resolve_left positive).resolve_left ends
  rw [if_neg size]
  simp only [run_bind, run_load, freeWord, freeIs, if_pos free]
  refine ⟨⟨some _, rfl⟩, rfl, ?_⟩
  simpa [WordInHeap] using ⟨insideMagic, insideSize, insideTail, insideFree⟩

/-- The block of the list behind a pointer in use. -/
theorem inUse_block (held : HeapInv vars m bs stop) (inUse : InUse vars m ptr) :
    ∃ pre x post, bs = pre ++ x :: post ∧ ptr = x.payload ∧ x.free = false := by
  obtain ⟨a, listed, free, rfl⟩ := inUse
  obtain ⟨x, member, rfl⟩ := (listed_iff held.stored held.head).mp listed
  have small := (addressed_of_stored held.stored x member).2
  obtain ⟨pre, post, rfl⟩ := List.append_of_mem member
  refine ⟨pre, x, post, rfl, add32_of_lt small, ?_⟩
  rw [freeIn_eq held.stored.around.2.2.2.1 small] at free
  by_contra isFree
  exact x.flag_ne_zero.mpr (by simpa using isFree) free

/-- `kfree` of a block in use stays in the heap and keeps the invariant. -/
theorem kfree_inUse (held : HeapInv vars m bs stop) (inUse : InUse vars m ptr)
    (room : MergeRoom 0 vars m (sub32 ptr headerSize)) (fuel : Nat) :
    (∀ acc ∈ ((kfree fuel vars ptr).run m).log, InHeap acc) ∧
      ∀ vars' msg, ((kfree fuel vars ptr).run m).result = some (vars', msg) →
        ∃ bs' stop', HeapInv vars' ((kfree fuel vars ptr).run m).mem bs' stop' := by
  obtain ⟨pre, x, post, rfl, rfl, used⟩ := inUse_block held inUse
  obtain ⟨left, right, before, after, around⟩ := neighbours_exist vars.heapEnd pre post
  rw [sub32_payload held (by simp)] at room
  rcases kfree_refines held used around room fuel with ⟨-, ⟨msg, same⟩, kept, loads⟩ | ⟨-, frees⟩
  · refine ⟨fun acc member => (loads acc member).1, fun vars' msg' returned => ?_⟩
    rw [same] at returned
    cases returned
    rw [kept]
    exact ⟨_, _, held⟩
  · refine ⟨frees.inside, fun vars' msg returned => ?_⟩
    obtain ⟨-, bs', stop', -, held'⟩ := frees.result vars' msg returned
    exact ⟨bs', stop', held'⟩

theorem checked_step (held : HeapInv s.vars s.mem bs stop) (checked : Checked s call)
    (step : HeapStep s call s') : ∃ bs' stop', HeapInv s'.vars s'.mem bs' stop' := by
  obtain ⟨fuel, returned⟩ := step
  cases call with
  | kmalloc size =>
    simp only [HeapState.call, Option.map_eq_some_iff, Prod.exists] at returned
    obtain ⟨vars', ptr, result, rfl⟩ := returned
    obtain ⟨bs', stop', -, held', -⟩ := (kmalloc_refines held checked fuel).alloc vars' ptr result
    exact ⟨bs', stop', held'⟩
  | kfree ptr =>
    simp only [HeapState.call, Option.map_eq_some_iff, Prod.exists] at returned
    obtain ⟨vars', msg, result, rfl⟩ := returned
    rcases checked with ⟨inUse, room⟩ | rejected
    · exact (kfree_inUse held inUse room fuel).2 vars' msg result
    · obtain ⟨⟨msg', same⟩, kept, -⟩ := kfree_rejected held rejected fuel
      rw [same] at result
      cases result
      exact ⟨bs, stop, by rwa [kept]⟩

/-- `kfree` validates: in every run of sound appends, of releases with room and
of pointers the checks reject, the next such pointer is dereferenced inside the
heap only, and when it is no block in use nothing changes. -/
theorem kfree_validates (reached : Reachable Initial (Guarded Checked HeapStep) s)
    (checked : Checked s (.kfree ptr)) : Validates s ptr := by
  obtain ⟨bs, stop, held⟩ : ∃ bs stop, HeapInv s.vars s.mem bs stop := by
    refine reached.induct (fun s => ∃ bs stop, HeapInv s.vars s.mem bs stop) ?_ ?_
    · rintro ⟨vars, m, live⟩ ⟨rfl, -⟩
      exact ⟨[], kernelHeapStart, heapInit_inv m⟩
    · rintro s call s' ⟨bs, stop, held⟩ ⟨allowed, step⟩
      exact checked_step held allowed step
  rcases checked with ⟨inUse, room⟩ | rejected
  · exact ⟨fun fuel => (kfree_inUse held inUse room fuel).1, fun notInUse => absurd inUse notInUse⟩
  · refine ⟨fun fuel acc member => ((kfree_rejected held rejected fuel).2.2 acc member).1, ?_⟩
    intro _ fuel vars msg returned
    obtain ⟨⟨msg', same⟩, kept, -⟩ := kfree_rejected held rejected fuel
    rw [same] at returned
    cases returned
    rw [kept]
    exact ⟨fun _ => Iff.rfl, rfl, fun _ _ => ⟨rfl, rfl⟩, fun _ _ => rfl, fun _ _ => rfl, rfl⟩

/-- A pointer into the middle of the only block. -/
theorem kfree_validates_inside_block : Validates oneBlock 0x40001c :=
  kfree_validates (oneBlock_reached fun appends => absurd rfl appends.nonempty)
    (.inr (.inr (.inr (.inr (.inl (by decide))))))

/-- Three blocks: the tail word of the second is followed by the third header,
so that a pointer behind the latter's magic finds a header whose size is the
magic word. -/
def threeBlocks : HeapState := .after [.kmalloc 8, .kmalloc 8, .kmalloc 8]

/-- The size is followed to a tail word far outside the heap before any check
has rejected it. -/
theorem size_followed_before_checked : ¬ ∀ s ptr,
    Reachable Initial HeapStep s → Validates s ptr := by
  intro claim
  have reached : Reachable Initial HeapStep threeBlocks :=
    (after_reached (by decide)).mono fun _ _ _ taken => taken.2
  have inside := (claim threeBlocks 0x40004c reached).inside 1
    (.load 0xdeedbf3b) (by decide)
  exact absurd inside.2 (by decide)

end ZynthexOS.HeapRejection
