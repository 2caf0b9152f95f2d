import ZynthexOS.HeapRuns

/-! Which bytes live allocations occupy. As long as every append finds
`heap_end` behind the last block and every merged payload ends before the next
header, the live ranges are disjoint, lie in the heap's address range and miss
every listed header. A `kfree` that lowers `heap_end` to a block it leaves in
the list breaks this at the next append. -/
namespace ZynthexOS.HeapDisjointness
open Lib Lib.Memory Mm HeapLayout HeapRepresentation HeapPrograms HeapConditions HeapAllocation
  HeapRelease HeapRuns

/-- Live allocations occupy `[p, p + requested)`: disjoint ranges of the heap
that overlap no listed header. -/
structure LiveDisjoint (s : HeapState) : Prop where
  apart : s.live.Pairwise fun a b => a.1 + a.2 ≤ b.1 ∨ b.1 + b.2 ≤ a.1
  inside : ∀ a ∈ s.live, kernelHeapStart ≤ a.1 ∧ a.1 + a.2 ≤ kernelHeapEnd
  clear : ∀ a ∈ s.live, ∀ header, Listed s.vars s.mem header →
    a.1 + a.2 ≤ header ∨ header + headerSize ≤ a.1

/-- Two blocks of a list are the same or one lies behind the other. -/
theorem blocks_apart (layout : Layout a bs e) (hx : x ∈ bs) (hy : y ∈ bs) :
    x = y ∨ x.addr + x.width ≤ y.addr ∨ y.addr + y.width ≤ x.addr := by
  obtain ⟨pre, post, rfl⟩ := List.append_of_mem hx
  obtain ⟨c, before, here, after⟩ := tiles_append.mp layout
  simp only [List.mem_append, List.mem_cons] at hy
  rcases hy with hy | rfl | hy
  · have bound := before.mem hy
    omega
  · exact .inl rfl
  · have bound := after.mem hy
    omega

theorem Represents.disjoint (held : Represents s bs stop) : LiveDisjoint s := by
  obtain ⟨inv, owns⟩ := held
  have layout := inv.stored.layout
  have top := inv.stored.top
  refine ⟨?_, fun a member => ?_, fun a member header listed => ?_⟩
  · refine owns.distinct.imp_of_mem fun {a b} ha hb ne => ?_
    obtain ⟨x, hx, -, hereA, sizeA⟩ := owns.block a ha
    obtain ⟨y, hy, -, hereB, sizeB⟩ := owns.block b hb
    simp only [Block.payload] at hereA hereB
    rcases blocks_apart layout hx hy with rfl | apart
    · omega
    · simp only [Block.width] at apart
      omega
  · obtain ⟨x, hx, -, here, size⟩ := owns.block a member
    have low := inv.stored.low hx
    simp only [Block.payload, Block.fin] at here low
    omega
  · obtain ⟨x, hx, -, here, size⟩ := owns.block a member
    obtain ⟨y, hy, rfl⟩ := (listed_iff inv.stored inv.head).mp listed
    simp only [Block.payload] at here
    rcases blocks_apart layout hx hy with rfl | apart
    · omega
    · simp only [Block.width] at apart
      omega

/-- Heap disjointness: in every run of `kmalloc` and of `kfree` of live pointers
whose calls meet their conditions, at every point. -/
theorem live_blocks_disjoint (reached : Reachable Initial
    (Guarded (fun s call => Legal s call ∧ Roomy 0 s call) HeapStep) s) : LiveDisjoint s := by
  obtain ⟨bs, stop, held⟩ := represented reached
  exact Represents.disjoint held

/-- Two live blocks around a merged one. -/
theorem live_blocks_disjoint_merged :
    mergedBetween.live = [(0x400070, 8), (0x400014, 8)] ∧ LiveDisjoint mergedBetween :=
  ⟨by decide +kernel, live_blocks_disjoint mergedBetween_reached⟩

/-- The last of two blocks is freed and allocated again, and the next request
appends a block over it. -/
def overlaid : HeapState := .after [.kmalloc 8, .kmalloc 8, .kfree 0x400030, .kmalloc 8, .kmalloc 8]

/-- The pointer `0x400030` is live twice. -/
theorem append_over_given_back_block :
    ¬ ∀ s, Reachable Initial (Guarded Legal HeapStep) s → LiveDisjoint s := by
  intro claim
  have live : overlaid.live = [(0x400030, 8), (0x400030, 8), (0x400014, 8)] := by decide
  have apart := (claim overlaid (after_reached (by decide))).apart
  rw [live] at apart
  simp at apart

end ZynthexOS.HeapDisjointness
