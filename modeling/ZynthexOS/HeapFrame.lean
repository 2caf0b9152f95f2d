import ZynthexOS.HeapRuns

/-! What one call leaves alone. A call changes the magic, size and free fields
of the block it allocates or frees, of the remainder of a split and of the
neighbours it merges; its tail words fall on no other header as long as merged
payloads leave room for them. Merges count a header and a tail word between two
payloads, which split blocks and the first block do not have. -/
namespace ZynthexOS.HeapFrame
open Lib Lib.Memory Mm HeapLayout HeapRepresentation HeapPrograms HeapConditions HeapAllocation
  HeapRelease HeapRuns

def magicIn (m : Mem) (block : Nat) : Nat := readWord m (magicAt block)

/-- The magic, size and free fields of a block read the same. -/
structure KeepsHeader (m m' : Mem) (block : Nat) : Prop where
  magic : magicIn m' block = magicIn m block
  size : sizeIn m' block = sizeIn m block
  free : freeIn m' block = freeIn m block

/-- A call that returns keeps the headers of the blocks it does not work on,
and stores no tail word over them. -/
def FrameLaw (s : HeapState) : HeapCall → Prop
  | .kmalloc size => ∀ fuel vars ptr,
    ((kmalloc fuel s.vars size.toNat).run s.mem).result = some (vars, ptr) →
    ∀ b, Listed s.vars s.mem b → add32 b headerSize ≠ ptr →
      KeepsHeader s.mem ((kmalloc fuel s.vars size.toNat).run s.mem).mem b ∧
        MagicClear ((kmalloc fuel s.vars size.toNat).run s.mem).log b
  | .kfree ptr => ∀ fuel result,
    ((kfree fuel s.vars ptr.toNat).run s.mem).result = some result →
    ∀ b, Listed s.vars s.mem b → b ≠ sub32 ptr.toNat headerSize →
      ¬ (MergesNext s.vars s.mem (sub32 ptr.toNat headerSize) ∧
        b = nextIn s.mem (sub32 ptr.toNat headerSize)) →
      ¬ (MergesPrev s.vars s.mem (sub32 ptr.toNat headerSize) ∧
        b = prevIn s.mem (sub32 ptr.toNat headerSize)) →
      KeepsHeader s.mem ((kfree fuel s.vars ptr.toNat).run s.mem).mem b ∧
        MagicClear ((kfree fuel s.vars ptr.toNat).run s.mem).log b

/-- A block that two lists share has the same header in both memories. -/
theorem keepsHeader_of_shared (held : Stored m bs stop) (held' : Stored m' bs' stop')
    (member : b ∈ bs) (member' : b ∈ bs') : KeepsHeader m m' b.addr := by
  have small := (addressed_of_stored held b member).2
  obtain ⟨pre, post, rfl⟩ := List.append_of_mem member
  obtain ⟨pre', post', rfl⟩ := List.append_of_mem member'
  have before := held.around.2.2.2.1
  have after := held'.around.2.2.2.1
  refine ⟨?_, ?_, ?_⟩
  · simp (disch := omega) only [magicIn, magicAt, add32, wrap_of_lt, Nat.add_zero, before.magic,
      after.magic]
  · rw [sizeIn_eq before small, sizeIn_eq after small]
  · rw [freeIn_eq before small, freeIn_eq after small]

theorem kmalloc_frame (held : Represents s bs stop) (sound : SoundAppend s.vars s.mem size.toNat) :
    FrameLaw s (.kmalloc size) := by
  intro fuel vars ptr result b listed other
  obtain ⟨inv, -⟩ := held
  obtain ⟨c, member, rfl⟩ := (listed_iff inv.stored inv.head).mp listed
  obtain ⟨bs', stop', alloc, inv', -, clear⟩ := (kmalloc_refines inv sound fuel).alloc vars ptr result
  have small := (addressed_of_stored inv.stored c member).2
  rw [headerSize, add32_of_lt small] at other
  exact ⟨keepsHeader_of_shared inv.stored inv'.stored member (alloc.keeps member fun _ => other),
    clear c member other⟩

theorem kfree_frame (held : Represents s bs stop) (legal : Legal s (.kfree ptr))
    (room : MergeRoom tailSize s.vars s.mem (sub32 ptr.toNat headerSize)) :
    FrameLaw s (.kfree ptr) := by
  intro fuel result returned b listed other notNext notPrev
  obtain ⟨inv, owns⟩ := held
  obtain ⟨pre, x, post, rfl, here, used⟩ := legal_block owns legal
  obtain ⟨c, member, rfl⟩ := (listed_iff inv.stored inv.head).mp listed
  obtain ⟨left, right, before, after, around⟩ := neighbours_exist s.vars.heapEnd pre post
  rw [here, sub32_payload inv (by simp)] at room other notNext notPrev
  have layout := inv.stored.layout
  have merges := merges_iff inv.stored inv.start around
  obtain ⟨next, -, prev⟩ := after_eq inv.stored inv.start around
  rw [here] at returned ⊢
  rcases kfree_refines inv used around room fuel with ⟨-, -, kept, loads⟩ | ⟨-, frees⟩
  · refine ⟨?_, fun t stored => ?_⟩
    · rw [kept]
      exact ⟨rfl, rfl, rfl⟩
    · obtain ⟨a, load⟩ := (loads _ stored).2
      cases load
  have kept : c ∈ before ∨ c ∈ after := by
    have nextX := nextIn_eq inv.stored.around.2.2.2.1 (addressed_of_stored inv.stored x (by simp)).2
    obtain ⟨rfl, rfl, -⟩ := around
    simp only [List.mem_append, Option.mem_toList, List.mem_cons] at member
    rcases member with (member | member) | rfl | member | member
    · exact .inl member
    · exact absurd ⟨merges.2.mpr (by simp [show left = some c from member]), (prev c member).1.symm⟩ notPrev
    · exact absurd rfl other
    · obtain rfl : right = some c := member
      exact absurd ⟨merges.1.mpr rfl, nextX.symm⟩ notNext
    · exact .inr member
  have member' : c ∈ before ++ released left x right :: after := by
    rcases kept with kept | kept <;> simp [kept]
  refine ⟨keepsHeader_of_shared inv.stored frees.stored member member', fun t stored => ?_⟩
  obtain ⟨low, high⟩ := frees.magic t stored
  rcases kept with kept | kept
  · have bound := frees.stored.around.1.mem kept
    simp only [Block.width, headerSize] at bound low ⊢
    omega
  · exact .inl (high c kept)

/-- The frame law: after any run whose merges stay below the next header, a
call whose appends and merged tail words fit keeps every header it does not
work on. -/
theorem heap_frame (reached : Reachable Initial
    (Guarded (fun s call => Legal s call ∧ Roomy 0 s call) HeapStep) s) (legal : Legal s call)
    (roomy : Roomy tailSize s call) : FrameLaw s call := by
  obtain ⟨bs, stop, held⟩ := represented reached
  cases call with
  | kmalloc size => exact kmalloc_frame held roomy
  | kfree ptr => exact kfree_frame held legal roomy

/-- Four blocks, the second of them free. -/
def secondFreed : HeapState := .after [.kmalloc 8, .kmalloc 8, .kmalloc 8, .kmalloc 8, .kfree 0x400030]

/-- The third is merged with it, between the first and the last. -/
theorem heap_frame_merges : MergesPrev secondFreed.vars secondFreed.mem 0x40003c ∧
    walk secondFreed.mem 9 secondFreed.vars.heapHead = some [0x400000, 0x40001c, 0x40003c, 0x40005c] ∧
    FrameLaw secondFreed (.kfree 0x400050) := by
  have reached : Reachable Initial (Guarded (fun s call => Legal s call ∧ Roomy 0 s call) HeapStep) secondFreed :=
    roomy_tested (by decide +kernel)
  have room : Roomy tailSize secondFreed (.kfree 0x400050) := roomy_of_test (by decide +kernel)
  exact ⟨by decide +kernel, by decide +kernel, heap_frame reached (by decide +kernel) room⟩

/-- The first block has been freed and allocated again in three pieces, the
first of which is free. -/
def splitInThree : HeapState := .after [.kmalloc 200, .kmalloc 8, .kfree 0x400014, .kmalloc 8,
  .kmalloc 8, .kmalloc 136, .kfree 0x400014]

/-- Pieces of the first block have no tail words of their own, and merging two
of them writes one over the size of the third. -/
theorem merged_tail_overwrites_size : ¬ ∀ s call, Reachable Initial (Guarded Legal HeapStep) s →
    Legal s call → FrameLaw s call := by
  intro claim
  have reached : Reachable Initial (Guarded Legal HeapStep) splitInThree :=
    after_reached (by decide +kernel)
  obtain ⟨head, second, third⟩ : splitInThree.vars.heapHead = 0x400000 ∧
      nextIn splitInThree.mem splitInThree.vars.heapHead = 0x40001c ∧
      nextIn splitInThree.mem 0x40001c = 0x400038 := by decide +kernel
  have listed : Listed splitInThree.vars splitInThree.mem 0x400038 := by
    have := Listed.next (.next (.head (by rw [head]; decide)) (by rw [second]; decide))
      (by rw [second, third]; decide)
    rwa [second, third] at this
  have returned : ((kfree 9 splitInThree.vars (0x400030 : UInt32).toNat).run
      splitInThree.mem).result.isSome := by decide +kernel
  obtain ⟨result, returned⟩ := Option.isSome_iff_exists.mp returned
  have kept := (claim splitInThree (.kfree 0x400030) reached (by decide +kernel) 9 result returned
    0x400038 listed (by decide +kernel) (by decide +kernel) (by decide +kernel)).1.size
  exact absurd kept (by decide +kernel)

end ZynthexOS.HeapFrame
