import ZynthexOS.FrameAccounting
import ZynthexOS.MemoryMapWalks

/-! Where `pmm_init` keeps its bitmap. Stored to memory, apart from what the walks read, it
goes through the same values as an array of its own. -/
namespace ZynthexOS.BitmapRefinement
open Lib.Memory Lib.Bits Lib.Scan Mm MemoryMapWalks

/-- The words behind the kernel image hold the bitmap of all frames of memory. -/
def Holds (kernelEnd : Nat) (m : Mem) (bitmap : Nat → BitVec 32) : Prop :=
  ∀ i < 2 ^ 15, readWord m (bitmapWord kernelEnd i) = (bitmap i).toNat

variable {m : Mem} {mbi kernelEnd n i frame : Nat} {bitmap : Nat → BitVec 32} {pmm : Pmm} {σ τ : Type}
  {w : MapWalk σ} {t : τ}

/-! ## The bitmap -/

/-- A word of the bitmap is stored. -/
theorem Holds.store (held : Holds kernelEnd m bitmap) (room : kernelEnd + 2 ^ 17 ≤ 2 ^ 32)
    (inside : i < 2 ^ 15) (v : BitVec 32) :
    Holds kernelEnd (writeWord m (bitmapWord kernelEnd i) v.toNat) (update bitmap i v) := by
  have place {j : Nat} (inside : j < 2 ^ 15) : bitmapWord kernelEnd j = kernelEnd + 4 * j :=
    wrap_of_lt (by omega)
  intro j less
  by_cases same : j = i
  · subst same
    rw [readWord_writeWord_same, wrap_of_lt v.isLt, update, if_pos rfl]
  · have apart : Apart (bitmapWord kernelEnd i) (bitmapWord kernelEnd j) := by
      rw [place inside, place less]
      omega
    rw [readWord_writeWord_apart apart, update, if_neg same]
    exact held j less

theorem bit_toNat (small : k < 32) : (bit 32 k).toNat = 1 <<< k := by
  have size : 1 <<< k < 2 ^ 32 := by
    rw [Nat.one_shiftLeft]
    exact Nat.pow_lt_pow_right (by decide) small
  rw [bit, BitVec.toNat_shiftLeft, BitVec.toNat_ofNat]
  exact Nat.mod_eq_of_lt size

theorem Holds.setFrame (held : Holds kernelEnd m pmm.bitmap) (room : kernelEnd + 2 ^ 17 ≤ 2 ^ 32)
    (small : frame < 2 ^ 20) :
    Holds kernelEnd (setFrameIn kernelEnd m frame) (setFrame pmm frame).bitmap := by
  have inside : frame / 32 < 2 ^ 15 := by omega
  have stored := held.store room inside (pmm.bitmap (frame / 32) ||| bit 32 (frame % 32))
  rw [BitVec.toNat_or, bit_toNat (Nat.mod_lt _ (by decide)), ← held _ inside] at stored
  exact stored

theorem Holds.clearFrame (held : Holds kernelEnd m pmm.bitmap) (room : kernelEnd + 2 ^ 17 ≤ 2 ^ 32)
    (small : frame < 2 ^ 20) :
    Holds kernelEnd (clearFrameIn kernelEnd m frame) (clearFrame pmm frame).bitmap := by
  have inside : frame / 32 < 2 ^ 15 := by omega
  have stored := held.store room inside (pmm.bitmap (frame / 32) &&& ~~~ bit 32 (frame % 32))
  rw [BitVec.toNat_and, BitVec.toNat_not, bit_toNat (Nat.mod_lt _ (by decide)), ← held _ inside] at stored
  exact stored

theorem Holds.markAllUsed (pmm : Pmm) (held : Holds kernelEnd m pmm.bitmap)
    (room : kernelEnd + 2 ^ 17 ≤ 2 ^ 32) (small : pmm.totalFrames < 2 ^ 20) :
    Holds kernelEnd (markUsedIn kernelEnd pmm.totalFrames m) (markAllUsed pmm).bitmap := by
  have few : bitmapEntries pmm.totalFrames ≤ 2 ^ 15 := by
    rw [bitmapEntries]
    omega
  refine forRange_induct _ (fun count m' => Holds kernelEnd m' fun i =>
    if i < count then 0xFFFFFFFF else pmm.bitmap i) (Nat.zero_le _) (fun m' i _ less held => ?_) m held
  have stored := held.store room (Nat.lt_of_lt_of_le less few) 0xFFFFFFFF
  have one : update (fun j => if j < i then 0xFFFFFFFF else pmm.bitmap j) i 0xFFFFFFFF =
      fun j => if j < i + 1 then 0xFFFFFFFF else pmm.bitmap j := by
    funext j
    rw [update]
    split_ifs <;> first | rfl | omega
  rw [one] at stored
  exact stored

/-- The loops that reserve frames. -/
theorem Holds.reserveKernel (held : Holds kernelEnd m pmm.bitmap) (room : kernelEnd + 2 ^ 17 ≤ 2 ^ 32) :
    Holds kernelEnd (reserveKernelIn kernelEnd pmm.totalFrames m) (reserveKernel pmm kernelEnd).bitmap := by
  have frames {bound f : Nat} (word : bound < 2 ^ 32) (less : f < bound / frameSize) : f < 2 ^ 20 := by
    have size : bound / frameSize ≤ 2 ^ 20 := Nat.div_le_of_le_mul (Nat.le_of_lt word)
    omega
  have image : add32 kernelEnd (frameSize - 1) < 2 ^ 32 := wrap_lt _
  have stop : bitmapEnd kernelEnd pmm.totalFrames < 2 ^ 32 :=
    Nat.lt_of_le_of_lt Nat.and_le_left (wrap_lt _)
  have round {pmm' : Pmm} {m' : Mem} (f : Nat) (small : f < 2 ^ 20) (held : Holds kernelEnd m' pmm'.bitmap) :
      Holds kernelEnd (setFrameIn kernelEnd m' f) (Mm.setFrame pmm' f).bitmap := held.setFrame room small
  refine forRange_relate (fun m' (pmm' : Pmm) => Holds kernelEnd m' pmm'.bitmap)
    (fun _ _ f _ less => round f (frames stop less)) ?_
  exact forRange_relate (fun m' (pmm' : Pmm) => Holds kernelEnd m' pmm'.bitmap)
    (fun _ _ f _ less => round f (frames image less)) held

/-! ## The walks -/

/-- A walk does to what it keeps and to memory what a fold does with the entries. -/
theorem walkMap_entries {body : Nat → MapWalk σ → MapWalk σ} {fields : MmapEntry → List EntryField}
    {keeps : σ → Prop} (good : Body m mbi body fields keeps) (step : τ → MmapEntry → τ)
    (relation : Mem → σ → τ → Prop)
    (round : ∀ k w t, Visited m mbi k → Same m mbi w.memory → relation w.memory w.kept t →
      relation (body (entryAt m mbi k) w).memory (body (entryAt m mbi k) w).kept
        (step t (readEntry m (entryAt m mbi k))))
    (earlier : ∀ k < i, entryAt m mbi k < mapStop m mbi)
    (listed : mmapEntries m (mapStop m mbi) n (entryAt m mbi i) = some entries)
    (same : Same m mbi w.memory) (start : relation w.memory w.kept t) :
    ∃ w', walkMap mbi body n (entryAt m mbi i) w = (true, w') ∧
      relation w'.memory w'.kept (entries.foldl step t) := by
  induction n generalizing i w t entries with
  | zero => cases listed
  | succ n ih =>
    rw [mmapEntries] at listed
    rw [walkMap, same.stop]
    by_cases here : entryAt m mbi i < mapStop m mbi
    · have visited : Visited m mbi i := fun k most =>
        (Nat.lt_or_eq_of_le most).elim (earlier k) fun last => last ▸ here
      have next : add32 (add32 (entryAt m mbi i) (readEntry m (entryAt m mbi i)).size) 4 =
          entryAt m mbi (i + 1) := (entryAt_succ m mbi i).symm
      simp only [if_pos here, next, Option.map_eq_some_iff] at listed ⊢
      obtain ⟨rest, listed, rfl⟩ := listed
      have same' := good.memory i w visited same
      rw [same'.next visited, List.foldl_cons]
      exact ih (fun k less => visited k (Nat.le_of_lt_succ less)) listed same'
        (round i w t visited same start)
    · rw [if_neg here] at listed ⊢
      cases listed
      exact ⟨w, rfl, start⟩

/-- The highest address is the same one. -/
theorem first_walk (listed : mmapEntries m (mapStop m mbi) n (mbiMmapAddr m mbi) = some entries) :
    ∃ w, walkMap mbi raiseHighest n (mbiMmapAddr m mbi) ⟨m, [], 0⟩ = (true, w) ∧
      w.memory = m ∧ w.kept = highestAddr entries := by
  refine walkMap_entries (i := 0) (raiseHighest_body m mbi)
    (fun highest entry => if regionEnd entry > highest then regionEnd entry else highest)
    (fun memory kept highest => memory = m ∧ kept = highest) ?_ (by simp) listed (Same.refl m mbi) ⟨rfl, rfl⟩
  rintro k w highest visited same ⟨rfl, rfl⟩
  exact ⟨rfl, rfl⟩

/-- Memory holds the bitmap, and the frames are counted. -/
structure Agrees (kernelEnd total : Nat) (m : Mem) (pmm : Pmm) : Prop where
  bitmap : Holds kernelEnd m pmm.bitmap
  total : pmm.totalFrames = total

/-- What the second loop does with an entry. -/
def freeEntry (pmm : Pmm) (entry : MmapEntry) : Pmm :=
  if entry.type = 1 then
    forRange (fun pmm f => if f < pmm.totalFrames then clearFrame pmm f else pmm)
      (startFrame entry) (endFrame entry) pmm
  else pmm

theorem freeRegion_agrees {w : MapWalk Unit} (agrees : Agrees kernelEnd total w.memory pmm)
    (room : kernelEnd + 2 ^ 17 ≤ 2 ^ 32) (small : total < 2 ^ 20) (mmap : Nat) :
    Agrees kernelEnd total (freeRegion kernelEnd total mmap w).memory
      (freeEntry pmm (readEntry w.memory mmap)) := by
  rw [freeRegion, freeEntry]
  split_ifs with usable
  · simp only [MapWalk.read]
    refine forRange_relate (Agrees kernelEnd total) (fun memory pmm f _ _ agrees => ?_) agrees
    rw [agrees.total]
    split_ifs with counted
    · exact ⟨agrees.bitmap.clearFrame room (Nat.lt_trans counted small), agrees.total⟩
    · exact agrees
  · exact agrees

/-- The second walk clears the same bits. -/
theorem second_walk (apart : BitmapApart m mbi kernelEnd) (room : kernelEnd + 2 ^ 17 ≤ 2 ^ 32)
    (highest : Highest m mbi h) (small : h / frameSize < 2 ^ 20)
    (listed : mmapEntries m (mapStop m mbi) n (mbiMmapAddr m mbi) = some entries)
    {w : MapWalk Unit} (same : Same m mbi w.memory) (agrees : Agrees kernelEnd (h / frameSize) w.memory pmm) :
    ∃ w', walkMap mbi (freeRegion kernelEnd (h / frameSize)) n (mbiMmapAddr m mbi) w = (true, w') ∧
      Agrees kernelEnd (h / frameSize) w'.memory (freeUsable pmm entries) := by
  refine walkMap_entries (i := 0) (freeRegion_body apart highest) freeEntry
    (fun memory _ pmm => Agrees kernelEnd (h / frameSize) memory pmm) ?_ (by simp) listed same agrees
  intro k w pmm visited same agrees
  rw [← same.entry visited]
  exact freeRegion_agrees agrees room small _

/-- `pmm_init` with its bitmap in memory does what it does with an array, and leaves the same
bitmap. -/
theorem pmmInitIn_refines (apart : BitmapApart m mbi kernelEnd) (room : kernelEnd + 2 ^ 17 ≤ 2 ^ 32)
    (held : Holds kernelEnd m pmm.bitmap) (ran : pmmInit n kernelEnd pmm m mbi = some (pmm', result)) :
    (pmmInitIn n kernelEnd mbi m).returned = some result ∧
      Holds kernelEnd (pmmInitIn n kernelEnd mbi m).memory pmm'.bitmap := by
  rw [pmmInit] at ran
  rw [pmmInitIn]
  by_cases map : mbiFlags m mbi &&& (1 <<< 6) = 0
  · rw [if_pos map] at ran ⊢
    cases ran
    exact ⟨rfl, held⟩
  · rw [if_neg map] at ran ⊢
    obtain ⟨entries, listed, made⟩ := Option.map_eq_some_iff.mp ran
    cases made
    have walk := walked (n := n) (i := 0) (w := ⟨m, [], 0⟩) (raiseHighest_body m mbi) (Same.refl m mbi)
      (fun k less => absurd less (Nat.not_lt_zero k))
    obtain ⟨w, ended, memory, kept⟩ := first_walk listed
    have start : entryAt m mbi 0 = mbiMmapAddr m mbi := rfl
    rw [start, ended] at walk
    have highest : Highest m mbi (highestAddr entries) := kept ▸ walk.kept (.inl rfl)
    have small : highestAddr entries / frameSize < 2 ^ 20 :=
      Nat.div_lt_of_lt_mul (FrameAccounting.highestAddr_lt entries)
    have same := (Same.refl m mbi).markUsed apart highest
    have used : Holds kernelEnd (markUsedIn kernelEnd (highestAddr entries / frameSize) m)
        (markAllUsed { pmm with totalFrames := highestAddr entries / frameSize }).bitmap :=
      Holds.markAllUsed { pmm with totalFrames := highestAddr entries / frameSize } held room small
    obtain ⟨w', ended', freed⟩ := second_walk apart room highest small listed
      (w := ⟨markUsedIn kernelEnd (highestAddr entries / frameSize) m, w.reads, ()⟩) same ⟨used, rfl⟩
    simp only [ended, memory, kept, same.start, ended']
    refine ⟨trivial, ?_⟩
    have reserved := freed.bitmap.reserveKernel room
    rw [freed.total] at reserved
    exact reserved

/-- The words behind the image, whatever they are, and no frame. -/
def wordsBehind (kernelEnd : Nat) (m : Mem) : Pmm :=
  { bitmap := fun i => .ofNat 32 (readWord m (bitmapWord kernelEnd i)), totalFrames := 0 }

theorem wordsBehind_holds (kernelEnd : Nat) (m : Mem) : Holds kernelEnd m (wordsBehind kernelEnd m).bitmap := by
  intro i _
  exact (Nat.mod_eq_of_lt (readWord_lt m _)).symm

/-- A map of one usable region of 512 frames. -/
theorem pmmInitIn_refines_oneRegion : (pmmInitIn 2 0x200000 0 (oneRegion 24 20)).returned = some 0 ∧
    Holds 0x200000 (pmmInitIn 2 0x200000 0 (oneRegion 24 20)).memory
      (reserveKernel (freeUsable (markAllUsed { wordsBehind 0x200000 (oneRegion 24 20) with totalFrames := 512 })
        [⟨20, 0, 0x200000, 1⟩]) 0x200000).bitmap := by
  have map : ¬ mbiFlags (oneRegion 24 20) 0 &&& (1 <<< 6) = 0 := by decide +kernel
  have listed : mmapEntries (oneRegion 24 20) (mapStop (oneRegion 24 20) 0) 2
      (mbiMmapAddr (oneRegion 24 20) 0) = some [⟨20, 0, 0x200000, 1⟩] := by decide +kernel
  have total : highestAddr [⟨20, 0, 0x200000, 1⟩] / frameSize = 512 := by decide +kernel
  refine pmmInitIn_refines oneRegion_apart (by decide) (wordsBehind_holds _ _) ?_
  rw [pmmInit, if_neg map]
  refine Option.map_eq_some_iff.mpr ⟨_, listed, ?_⟩
  dsimp only
  rw [total]

end ZynthexOS.BitmapRefinement
