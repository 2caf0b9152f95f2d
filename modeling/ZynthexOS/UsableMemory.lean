import Mathlib.Data.List.Pairwise
import ZynthexOS.FrameAccounting

/-! Which frames `pmm_init` leaves free. The three passes over the bitmap are said
once, frame by frame; against the memory map they go wrong where a region reaches
4 GiB, because its end is cut to 32 bits, and where a region starts inside a
frame, because its start is rounded down. -/
namespace ZynthexOS.UsableMemory
open Lib Lib.Memory Lib.Bits Lib.Scan Mm FrameAccounting

/-! ## The passes over the bitmap -/

/-- The frame lies between the frame numbers computed for a usable region. -/
def Freed (entries : List MmapEntry) (f : Nat) : Prop :=
  ∃ entry ∈ entries, entry.type = 1 ∧ startFrame entry ≤ f ∧ f < endFrame entry

/-- The frame lies between the frame numbers computed for the kernel or the bitmap. -/
def Reserved (kernelEnd totalFrames f : Nat) : Prop :=
  (kernelStart / frameSize ≤ f ∧ f < add32 kernelEnd (frameSize - 1) / frameSize) ∨
    (kernelEnd / frameSize ≤ f ∧ f < bitmapEnd kernelEnd totalFrames / frameSize)

/-- The end of the bitmap behind the kernel, rounded up to a frame. -/
def bitmapStop (kernelEnd totalFrames : Nat) : Nat :=
  (kernelEnd + bitmapEntries totalFrames * 4 + (frameSize - 1)) / frameSize * frameSize

/-- The frame touches the kernel or the bitmap behind it. -/
def InKernel (kernelEnd totalFrames f : Nat) : Prop :=
  kernelStart < f * frameSize + frameSize ∧ f * frameSize < bitmapStop kernelEnd totalFrames

theorem used_markAllUsed (pmm : Pmm) (inside : f < pmm.totalFrames) :
    Pmm.used (markAllUsed pmm) f = true := by
  have word : f / 32 < bitmapEntries pmm.totalFrames := by
    unfold bitmapEntries
    omega
  have place : f % 32 < 32 := Nat.mod_lt _ (by omega)
  simp only [Pmm.used, bitAt, markAllUsed, word, if_true]
  exact BitVec.getLsbD_allOnes.trans (decide_eq_true place)

/-- Clearing the frames of one region. -/
theorem used_clearFrames (pmm : Pmm) (a b : Nat) (inside : g < pmm.totalFrames) :
    Pmm.used (forRange (fun pmm f => if f < pmm.totalFrames then clearFrame pmm f else pmm) a b pmm) g =
      if a ≤ g ∧ g < b then false else Pmm.used pmm g := by
  have loop := forRange_observe (fun pmm f => if f < pmm.totalFrames then clearFrame pmm f else pmm)
    (fun (pmm : Pmm) g => (pmm.totalFrames, Pmm.used pmm g))
    (fun g seen => (seen.1, if g < seen.1 then false else seen.2)) ?_ a b pmm g
  · have seen := congrArg Prod.snd loop
    simp only [apply_ite Prod.snd, inside, if_true] at seen
    exact seen
  · intro pmm f g
    by_cases below : f < pmm.totalFrames
    · have total : (clearFrame pmm f).totalFrames = pmm.totalFrames := rfl
      by_cases here : g = f
      · subst here
        simp [below, total, used_clearFrame]
      · simp [below, total, here, used_clearFrame]
    · by_cases here : g = f
      · subst here
        simp [below]
      · simp [below, here]

theorem used_freeUsable (pmm : Pmm) (entries : List MmapEntry) (inside : f < pmm.totalFrames) :
    Pmm.used (freeUsable pmm entries) f = false ↔ Pmm.used pmm f = false ∨ Freed entries f := by
  unfold freeUsable
  induction entries generalizing pmm with
  | nil => simp [Freed]
  | cons entry entries ih =>
    have more : Freed (entry :: entries) f ↔
        (entry.type = 1 ∧ startFrame entry ≤ f ∧ f < endFrame entry) ∨ Freed entries f := by
      simp [Freed]
    simp only [List.foldl_cons, more]
    by_cases usable : entry.type = 1
    · have total := forRange_total
        (fun pmm f => if f < pmm.totalFrames then clearFrame pmm f else pmm)
        (fun pmm f => by split <;> rfl) (startFrame entry) (endFrame entry) pmm
      rw [if_pos usable, ih _ (total.symm ▸ inside), used_clearFrames pmm _ _ inside]
      by_cases within : startFrame entry ≤ f ∧ f < endFrame entry
      · simp [within, usable]
      · simp only [within, usable, if_false, and_false, false_or]
    · rw [if_neg usable, ih pmm inside]
      simp [usable]

theorem used_setFrames (pmm : Pmm) (a b g : Nat) :
    Pmm.used (forRange setFrame a b pmm) g = if a ≤ g ∧ g < b then true else Pmm.used pmm g := by
  refine forRange_observe setFrame Pmm.used (fun _ _ => true) (fun pmm f g => ?_) a b pmm g
  by_cases here : g = f <;> simp [used_setFrame, here]

theorem used_reserveKernel (pmm : Pmm) (kernelEnd f : Nat) :
    Pmm.used (reserveKernel pmm kernelEnd) f = false ↔
      Pmm.used pmm f = false ∧ ¬ Reserved kernelEnd pmm.totalFrames f := by
  have total := forRange_total setFrame (fun _ _ => rfl) (kernelStart / frameSize)
    (add32 kernelEnd (frameSize - 1) / frameSize) pmm
  unfold reserveKernel Reserved
  rw [used_setFrames, used_setFrames]
  split_ifs with bitmap kernel
  · simp [bitmap]
  · simp [kernel]
  · simp [bitmap, kernel]

/-- Where the bitmap ends below 4 GiB the loops mark the frames of the kernel and
of the bitmap. -/
theorem reserved_iff (image : kernelStart ≤ kernelEnd)
    (below : bitmapStop kernelEnd totalFrames < 2 ^ 32) (f : Nat) :
    Reserved kernelEnd totalFrames f ↔ InKernel kernelEnd totalFrames f := by
  unfold Reserved InKernel
  unfold bitmapEnd
  simp only [bitmapStop, frameSize, kernelStart, Nat.reduceSub] at below image ⊢
  generalize bitmapEntries totalFrames = words at below ⊢
  have sum : kernelEnd + words * 4 + 4095 < 2 ^ 32 := by omega
  have kernelSum : kernelEnd + 4095 < 2 ^ 32 := by omega
  have kernel := add32_of_lt kernelSum
  have bitmap : add32 kernelEnd (words * 4 + 4095) &&& 0xFFFFF000 =
      (kernelEnd + words * 4 + 4095) / 4096 * 4096 := by
    rw [Nat.add_assoc] at sum ⊢
    rw [add32_of_lt sum]
    exact and_high_mask (k := 12) (n := 32) (by omega) sum
  rw [kernel, bitmap]
  omega

/-- What `pmm_init` computes from the map it read, frame by frame. -/
theorem pmmInit_spec (flags : mbiFlags m mbi &&& (1 <<< 6) ≠ 0)
    (read : mmapEntries m (add32 (mbiMmapAddr m mbi) (mbiMmapLength m mbi)) fuel
      (mbiMmapAddr m mbi) = some entries) (kernelEnd : Nat) (raw : Nat → BitVec 32) :
    ∃ pmm, pmmInit fuel kernelEnd ⟨raw, 0⟩ m mbi = some (pmm, 0) ∧
      pmm.totalFrames = highestAddr entries / frameSize ∧
      ∀ f < pmm.totalFrames, Pmm.used pmm f = false ↔
        Freed entries f ∧ ¬ Reserved kernelEnd pmm.totalFrames f := by
  let sized : Pmm := ⟨raw, highestAddr entries / frameSize⟩
  have marked : (markAllUsed sized).totalFrames = sized.totalFrames := rfl
  have total := (reserveKernel_total (freeUsable (markAllUsed sized) entries) kernelEnd).trans
    (freeUsable_total (markAllUsed sized) entries)
  refine ⟨reserveKernel (freeUsable (markAllUsed sized) entries) kernelEnd, ?_, total, fun f inside => ?_⟩
  · simp only [pmmInit, flags, if_false, read, Option.map_some]
    rfl
  · rw [total] at inside ⊢
    rw [used_reserveKernel, used_freeUsable _ _ inside, freeUsable_total,
      used_markAllUsed sized inside]
    simp [marked]

/-! ## The memory map -/

/-- The end of a region. -/
def regionStop (entry : MmapEntry) : Nat := entry.addr + entry.len

/-- The address lies in the region. -/
def InRegion (entry : MmapEntry) (a : Nat) : Prop := entry.addr ≤ a ∧ a < regionStop entry

/-- The regions have no address in common. -/
def Separate (entry other : MmapEntry) : Prop := ∀ a, ¬ (InRegion entry a ∧ InRegion other a)

instance : Std.Symm Separate := ⟨fun _ _ separate a both => separate a both.symm⟩

/-- No region exceeds the 64-bit addresses and no two overlap. -/
structure WellFormedMap (entries : List MmapEntry) : Prop where
  sums : ∀ entry ∈ entries, regionStop entry ≤ 2 ^ 64 - 1
  apart : entries.Pairwise Separate

def highestEnd (entries : List MmapEntry) : Nat :=
  entries.foldr (fun entry highest => max (regionStop entry) highest) 0

/-- The frames of the memory below 4 GiB. -/
def memoryFrames (entries : List MmapEntry) : Nat := min (highestEnd entries) (2 ^ 32) / frameSize

/-- The whole frame lies in one usable region. -/
def Usable (entries : List MmapEntry) (f : Nat) : Prop :=
  ∃ entry ∈ entries, entry.type = 1 ∧ entry.addr ≤ f * frameSize ∧
    f * frameSize + frameSize ≤ regionStop entry

/-- The free frames are those of the usable memory behind and before the kernel. -/
structure FreesUsable (entries : List MmapEntry) (kernelEnd : Nat) (pmm : Pmm) : Prop where
  total : pmm.totalFrames = memoryFrames entries
  frames : ∀ f < pmm.totalFrames,
    Pmm.used pmm f = false ↔ Usable entries f ∧ ¬ InKernel kernelEnd (memoryFrames entries) f

/-- Every region ends below 4 GiB, and a usable one that starts inside a frame ends
before that frame does, or starts in a frame of the kernel. -/
structure WholeFrames (entries : List MmapEntry) (kernelEnd : Nat) : Prop where
  low : ∀ entry ∈ entries, regionStop entry < 2 ^ 32
  starts : ∀ entry ∈ entries, entry.type = 1 → frameSize ∣ entry.addr ∨
    regionStop entry < entry.addr / frameSize * frameSize + frameSize ∨
    InKernel kernelEnd (memoryFrames entries) (entry.addr / frameSize)

theorem le_highestEnd (member : entry ∈ entries) : regionStop entry ≤ highestEnd entries := by
  induction entries with
  | nil => cases member
  | cons first entries ih =>
    rcases List.mem_cons.mp member with rfl | later
    · exact Nat.le_max_left _ _
    · exact Nat.le_trans (ih later) (Nat.le_max_right _ _)

theorem highestEnd_lt (low : ∀ entry ∈ entries, regionStop entry < 2 ^ 32) :
    highestEnd entries < 2 ^ 32 := by
  induction entries with
  | nil => exact Nat.two_pow_pos 32
  | cons first entries ih =>
    exact Nat.max_lt.mpr ⟨low first (by simp), ih fun entry later => low entry (by simp [later])⟩

/-- Below 4 GiB no end is cut. -/
theorem highestAddr_eq (low : ∀ entry ∈ entries, regionStop entry < 2 ^ 32) :
    highestAddr entries = highestEnd entries := by
  have loop : ∀ highest, entries.foldl (fun highest entry =>
      if regionEnd entry > highest then regionEnd entry else highest) highest =
        max highest (highestEnd entries) := by
    induction entries with
    | nil => exact fun highest => (Nat.max_zero highest).symm
    | cons first entries ih =>
      intro highest
      have whole : regionEnd first = regionStop first := wrap_of_lt (low first (by simp))
      rw [List.foldl_cons, ih fun entry later => low entry (by simp [later])]
      simp only [highestEnd, List.foldr_cons, whole]
      split <;> omega
  exact (loop 0).trans (Nat.zero_max _)

/-- With every region below 4 GiB the loops clear each frame between the rounded
ends of a usable region. -/
theorem freed_iff (low : ∀ entry ∈ entries, regionStop entry < 2 ^ 32) (f : Nat) :
    Freed entries f ↔ ∃ entry ∈ entries, entry.type = 1 ∧ entry.addr / frameSize ≤ f ∧
      f * frameSize + frameSize ≤ regionStop entry := by
  refine exists_congr fun entry => and_congr_right fun member => and_congr_right fun _ => ?_
  have small : entry.addr + entry.len < 2 ^ 32 := low entry member
  have first : startFrame entry = entry.addr / frameSize :=
    wrap_of_lt (by simp only [frameSize]; omega)
  have last : endFrame entry = regionStop entry / frameSize := by
    unfold endFrame regionStop
    rw [Nat.mod_eq_of_lt (by omega), wrap_of_lt (by simp only [frameSize]; omega)]
  rw [first, last]
  simp only [frameSize]
  omega

/-- No other region covers the frame in which an unaligned region starts. -/
theorem not_usable_start (map : WellFormedMap entries) (member : entry ∈ entries)
    (unaligned : ¬ frameSize ∣ entry.addr)
    (longer : entry.addr / frameSize * frameSize + frameSize ≤ regionStop entry) :
    ¬ Usable entries (entry.addr / frameSize) := by
  rintro ⟨other, member', -, first, last⟩
  simp only [frameSize] at unaligned longer first last
  by_cases same : entry = other
  · subst same
    omega
  · have separate := map.apart.forall member member' same entry.addr
    refine separate ⟨⟨Nat.le_refl _, ?_⟩, ?_, ?_⟩ <;> omega

/-- Where some region reaches 4 GiB the number of frames is cut. -/
theorem low_of_total (total : highestAddr entries / frameSize = memoryFrames entries)
    (member : entry ∈ entries) : regionStop entry < 2 ^ 32 := by
  have cut := highestAddr_lt entries
  have high := le_highestEnd member
  simp only [memoryFrames, frameSize] at total
  omega

/-- `pmm_init` on a memory map without overlaps whose memory reaches behind the
kernel and the bitmap: it succeeds, and the free frames are those of the usable
memory exactly if every region ends below 4 GiB and no usable region starts inside
a frame that it goes on behind. -/
theorem usable_memory_free (flags : mbiFlags m mbi &&& (1 <<< 6) ≠ 0)
    (read : mmapEntries m (add32 (mbiMmapAddr m mbi) (mbiMmapLength m mbi)) fuel
      (mbiMmapAddr m mbi) = some entries)
    (map : WellFormedMap entries) (image : kernelStart ≤ kernelEnd)
    (above : bitmapStop kernelEnd (memoryFrames entries) ≤ highestEnd entries) (raw : Nat → BitVec 32) :
    ∃ pmm, pmmInit fuel kernelEnd ⟨raw, 0⟩ m mbi = some (pmm, 0) ∧
      (FreesUsable entries kernelEnd pmm ↔ WholeFrames entries kernelEnd) := by
  obtain ⟨pmm, done, total, frames⟩ := pmmInit_spec flags read kernelEnd raw
  refine ⟨pmm, done, ?_⟩
  -- with every region below 4 GiB the passes compare against the map itself
  have compare : (∀ entry ∈ entries, regionStop entry < 2 ^ 32) →
      pmm.totalFrames = memoryFrames entries ∧ ∀ f < pmm.totalFrames, Pmm.used pmm f = false ↔
        Freed entries f ∧ ¬ InKernel kernelEnd (memoryFrames entries) f := by
    intro low
    have small := highestEnd_lt low
    have sized : pmm.totalFrames = memoryFrames entries := by
      rw [total, highestAddr_eq low, memoryFrames, Nat.min_eq_left (Nat.le_of_lt small)]
    refine ⟨sized, fun f inside => ?_⟩
    rw [frames f inside, sized, reserved_iff image (Nat.lt_of_le_of_lt above small)]
  constructor
  · intro law
    have low : ∀ entry ∈ entries, regionStop entry < 2 ^ 32 :=
      fun entry member => low_of_total (total.symm.trans law.total) member
    obtain ⟨sized, cleared⟩ := compare low
    refine ⟨low, fun entry member usable => ?_⟩
    by_contra neither
    obtain ⟨unaligned, longer, apart⟩ : ¬ frameSize ∣ entry.addr ∧
        ¬ regionStop entry < entry.addr / frameSize * frameSize + frameSize ∧
        ¬ InKernel kernelEnd (memoryFrames entries) (entry.addr / frameSize) := by
      simpa only [not_or] using neither
    have covers := Nat.le_of_not_lt longer
    have inside : entry.addr / frameSize < pmm.totalFrames := by
      have high := le_highestEnd member
      have small := highestEnd_lt low
      rw [sized]
      simp only [memoryFrames, frameSize] at covers ⊢
      omega
    have freed : Freed entries (entry.addr / frameSize) :=
      (freed_iff low _).mpr ⟨entry, member, usable, Nat.le_refl _, covers⟩
    have free := (cleared _ inside).mpr ⟨freed, apart⟩
    exact not_usable_start map member unaligned covers ((law.frames _ inside).mp free).1
  · rintro ⟨low, starts⟩
    obtain ⟨sized, cleared⟩ := compare low
    refine ⟨sized, fun f inside => ?_⟩
    rw [cleared f inside, freed_iff low]
    refine and_congr_left fun apart => ?_
    refine exists_congr fun entry => and_congr_right fun member => and_congr_right fun usable => ?_
    refine and_congr_left fun last => ?_
    simp only [frameSize] at last ⊢
    refine ⟨fun first => ?_, fun first => by omega⟩
    rcases starts entry member usable with aligned | short | kernel
    · simp only [frameSize] at aligned
      omega
    · simp only [frameSize] at short
      omega
    · have later : entry.addr / 4096 ≠ f := by
        rintro rfl
        exact apart kernel
      omega

/-- The regions of `smallMap`. -/
def smallEntries (start : Nat) : List MmapEntry :=
  [⟨20, start, 0x9f000 - start, 1⟩, ⟨20, 0x100000, 0x40000, 1⟩]

theorem smallMap_read (read : mmapEntries (smallMap start) 112 3 64 = some (smallEntries start)) :
    mmapEntries (smallMap start)
      (add32 (mbiMmapAddr (smallMap start) 0) (mbiMmapLength (smallMap start) 0)) 3
      (mbiMmapAddr (smallMap start) 0) = some (smallEntries start) := read

theorem smallEntries_wellFormed (start : Nat) (low : start ≤ 0x9f000) :
    WellFormedMap (smallEntries start) := by
  constructor
  · simp [smallEntries, regionStop]
    omega
  · simp [smallEntries, Separate, InRegion, regionStop]
    omega

/-- The small map with its first region at a frame. -/
theorem usable_memory_free_aligned : ∃ pmm,
    pmmInit 3 0x108000 ⟨fun _ => 0, 0⟩ (smallMap 0x1000) 0 = some (pmm, 0) ∧
      FreesUsable (smallEntries 0x1000) 0x108000 pmm := by
  have read : mmapEntries (smallMap 0x1000) 112 3 64 = some (smallEntries 0x1000) := by
    decide +kernel
  have image : kernelStart ≤ 0x108000 := by decide
  obtain ⟨pmm, done, law⟩ := usable_memory_free (by decide +kernel) (smallMap_read read)
    (smallEntries_wellFormed 0x1000 (by omega)) image (by decide +kernel) fun _ => 0
  refine ⟨pmm, done, law.mpr ⟨?_, ?_⟩⟩
  · simp [smallEntries, regionStop]
  · simp [smallEntries, frameSize]

/-- With its first region in the middle of frame 1 the whole frame is free, the part
before the region too. -/
theorem frame_outside_memory_free : ¬ ∀ m mbi fuel entries kernelEnd raw,
    mbiFlags m mbi &&& (1 <<< 6) ≠ 0 →
    mmapEntries m (add32 (mbiMmapAddr m mbi) (mbiMmapLength m mbi)) fuel (mbiMmapAddr m mbi) =
      some entries →
    WellFormedMap entries → kernelStart ≤ kernelEnd →
    bitmapStop kernelEnd (memoryFrames entries) ≤ highestEnd entries →
    ∃ pmm, pmmInit fuel kernelEnd ⟨raw, 0⟩ m mbi = some (pmm, 0) ∧
      FreesUsable entries kernelEnd pmm := by
  intro claim
  have flags : mbiFlags (smallMap 0x1800) 0 &&& (1 <<< 6) ≠ 0 := by decide +kernel
  have entries : mmapEntries (smallMap 0x1800) 112 3 64 = some (smallEntries 0x1800) := by
    decide +kernel
  have read := smallMap_read entries
  have map := smallEntries_wellFormed 0x1800 (by omega)
  obtain ⟨pmm, done, law⟩ := claim _ 0 3 _ 0x108000 (fun _ => 0) flags read map (by decide)
    (by decide +kernel)
  obtain ⟨pmm', done', total, frames⟩ := pmmInit_spec flags read 0x108000 fun _ => 0
  cases done.symm.trans done'
  have count : highestAddr (smallEntries 0x1800) / frameSize = 320 := by decide +kernel
  have inside : 1 < pmm.totalFrames := by omega
  have freed : Freed (smallEntries 0x1800) 1 :=
    ⟨⟨20, 0x1800, 0x9f000 - 0x1800, 1⟩, by simp [smallEntries], rfl, by decide, by decide⟩
  have notReserved : ¬ Reserved 0x108000 pmm.totalFrames 1 := by
    rintro (⟨first, -⟩ | ⟨first, -⟩)
    · exact absurd first (by decide)
    · exact absurd first (by decide)
  obtain ⟨⟨entry, member, -, first, last⟩, -⟩ :=
    (law.frames 1 inside).mp ((frames 1 inside).mpr ⟨freed, notReserved⟩)
  simp only [smallEntries, List.mem_cons, List.not_mem_nil, or_false] at member
  rcases member with rfl | rfl
  · exact absurd first (by decide)
  · exact absurd first (by decide)

end ZynthexOS.UsableMemory
