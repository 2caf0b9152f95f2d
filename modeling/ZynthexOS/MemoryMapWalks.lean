import Mathlib.Order.Interval.Finset.Nat
import ZynthexOS.Lib.Races
import ZynthexOS.Mm.MemoryMap

/-! The walks over the memory map follow the size fields, whatever these are. They end unless
the sizes lead back to an entry, and they read nothing but the map if every entry that they
come to lies in it. -/
namespace ZynthexOS.MemoryMapWalks
open Lib Lib.Memory Lib.Scan Mm

/-- The multiboot information has a memory map. -/
def HasMap (m : Mem) (mbi : Nat) : Prop := mbiFlags m mbi &&& (1 <<< 6) ≠ 0

/-- The entries in turn. -/
def entryAt (m : Mem) (mbi n : Nat) : Nat := (nextEntry m)^[n] (mbiMmapAddr m mbi)

/-- A walk comes to the entry. -/
def Visited (m : Mem) (mbi n : Nat) : Prop := ∀ k ≤ n, entryAt m mbi k < mapStop m mbi

/-- A walk comes to an entry again. -/
def VisitedTwice (m : Mem) (mbi : Nat) : Prop :=
  ∃ i j, i < j ∧ entryAt m mbi i = entryAt m mbi j ∧ Visited m mbi j

/-- That many bytes of every entry visited lie in the map. -/
def Within (m : Mem) (mbi bytes : Nat) : Prop :=
  ∀ n, Visited m mbi n →
    mbiMmapAddr m mbi ≤ entryAt m mbi n ∧ entryAt m mbi n + bytes ≤ mapStop m mbi

/-- A field of an entry lies in the map. -/
def Inside (m : Mem) (mbi : Nat) (r : Nat × EntryField) : Prop :=
  ∀ i < r.2.bytes, mbiMmapAddr m mbi ≤ wrap (r.1 + r.2.offset + i) ∧
    wrap (r.1 + r.2.offset + i) < mapStop m mbi

/-- A word that the walks read: of the multiboot information or of an entry visited. -/
def MapWord (m : Mem) (mbi x : Nat) : Prop :=
  x = mbi + 44 ∨ x = mbi + 48 ∨ ∃ n, Visited m mbi n ∧ ∃ j < 6, x = entryAt m mbi n + 4 * j

/-- A word of the bitmap, which has a bit for each frame below the highest region end. -/
def BitmapWord (m : Mem) (mbi kernelEnd y : Nat) : Prop :=
  ∃ n, Visited m mbi n ∧
    ∃ i < bitmapEntries (regionEnd (readEntry m (entryAt m mbi n)) / frameSize),
      y = bitmapWord kernelEnd i

/-- The bitmap does not lie on what the walks read. -/
def BitmapApart (m : Mem) (mbi kernelEnd : Nat) : Prop :=
  ∀ x y, MapWord m mbi x → BitmapWord m mbi kernelEnd y → Apart (wrap x) y

/-- What the walks read is still as it was. -/
def Same (m : Mem) (mbi : Nat) (m' : Mem) : Prop :=
  ∀ x, MapWord m mbi x → readWordAt m' x = readWordAt m x

variable {m m' : Mem} {mbi kernelEnd n i k : Nat} {σ : Type} {w : MapWalk σ}
  {body : Nat → MapWalk σ → MapWalk σ} {fields : MmapEntry → List EntryField} {keeps : σ → Prop}

/-! ## Entries -/

theorem entryAt_succ (m : Mem) (mbi n : Nat) :
    entryAt m mbi (n + 1) = nextEntry m (entryAt m mbi n) :=
  Function.iterate_succ_apply' ..

theorem Visited.word (visited : Visited m mbi n) (j : Nat) (less : j < 6) :
    MapWord m mbi (entryAt m mbi n + 4 * j) :=
  .inr (.inr ⟨n, visited, j, less, rfl⟩)

theorem Same.refl (m : Mem) (mbi : Nat) : Same m mbi m := fun _ _ => rfl

theorem Same.start (same : Same m mbi m') : mbiMmapAddr m' mbi = mbiMmapAddr m mbi :=
  same _ (.inr (.inl rfl))

theorem Same.stop (same : Same m mbi m') : mapStop m' mbi = mapStop m mbi := by
  have length : mbiMmapLength m' mbi = mbiMmapLength m mbi := same _ (.inl rfl)
  rw [mapStop, same.start, length]
  rfl

theorem Same.next (same : Same m mbi m') (visited : Visited m mbi n) :
    nextEntry m' (entryAt m mbi n) = entryAt m mbi (n + 1) := by
  have size : readWordAt m' (entryAt m mbi n) = readWordAt m (entryAt m mbi n) :=
    same _ (visited.word 0 (by decide))
  rw [nextEntry, size, entryAt_succ]
  rfl

theorem Same.entry (same : Same m mbi m') (visited : Visited m mbi n) :
    readEntry m' (entryAt m mbi n) = readEntry m (entryAt m mbi n) := by
  have first : readWordAt m' (entryAt m mbi n) = readWordAt m (entryAt m mbi n) :=
    same _ (visited.word 0 (by decide))
  have word (j : Nat) (less : j < 6) : readWordAt m' (entryAt m mbi n + 4 * j) =
      readWordAt m (entryAt m mbi n + 4 * j) := same _ (visited.word j less)
  simp only [readEntry, readQuadAt, Nat.add_assoc, Nat.reduceAdd]
  rw [first, word 1 (by decide), word 2 (by decide), word 3 (by decide), word 4 (by decide),
    word 5 (by decide)]

/-! ## One walk -/

/-- What a body of the loop reads of an entry, what it keeps, and that it leaves alone what the
walks read. -/
structure Body (m : Mem) (mbi : Nat) (body : Nat → MapWalk σ → MapWalk σ)
    (fields : MmapEntry → List EntryField) (keeps : σ → Prop) : Prop where
  reads : ∀ n w, Visited m mbi n → Same m mbi w.memory → (body (entryAt m mbi n) w).reads =
    w.reads ++ (fields (readEntry m (entryAt m mbi n))).map (entryAt m mbi n, ·)
  memory : ∀ n w, Visited m mbi n → Same m mbi w.memory → Same m mbi (body (entryAt m mbi n) w).memory
  kept : ∀ n w, Visited m mbi n → Same m mbi w.memory → keeps w.kept →
    keeps (body (entryAt m mbi n) w).kept

/-- What a walk with `n` tests from the `i`-th entry on does. -/
structure Walked (m : Mem) (mbi : Nat) (fields : MmapEntry → List EntryField) (keeps : σ → Prop) (n i : Nat)
    (w : MapWalk σ) (outcome : Bool × MapWalk σ) : Prop where
  ends : outcome.1 = true ↔ ∃ k, i ≤ k ∧ k < i + n ∧ mapStop m mbi ≤ entryAt m mbi k
  memory : Same m mbi outcome.2.memory
  kept : keeps w.kept → keeps outcome.2.kept
  reads : ∀ r, r ∈ outcome.2.reads ↔ r ∈ w.reads ∨ ∃ k, i ≤ k ∧ k < i + n ∧ Visited m mbi k ∧
    ∃ f ∈ fields (readEntry m (entryAt m mbi k)) ++ [.size], r = (entryAt m mbi k, f)

theorem walked (good : Body m mbi body fields keeps) (same : Same m mbi w.memory)
    (earlier : ∀ k < i, entryAt m mbi k < mapStop m mbi) :
    Walked m mbi fields keeps n i w (walkMap mbi body n (entryAt m mbi i) w) := by
  induction n generalizing i w with
  | zero =>
    refine ⟨⟨fun ended => (nomatch ended), ?_⟩, same, id, fun r => ⟨.inl, ?_⟩⟩
    · rintro ⟨k, first, last, -⟩
      omega
    · rintro (before | ⟨k, first, last, -⟩)
      · exact before
      · omega
  | succ n ih =>
    rw [walkMap, same.stop]
    by_cases here : entryAt m mbi i < mapStop m mbi
    · have visited : Visited m mbi i := fun k most =>
        (Nat.lt_or_eq_of_le most).elim (earlier k) fun last => last ▸ here
      have same' : Same m mbi ((body (entryAt m mbi i) w).read (entryAt m mbi i) [.size]).memory :=
        good.memory i w visited same
      have rest := ih same' fun k less => visited k (Nat.le_of_lt_succ less)
      simp only [if_pos here]
      rw [(good.memory i w visited same).next visited]
      refine ⟨rest.ends.trans ⟨?_, ?_⟩, rest.memory, ?_, fun r => (rest.reads r).trans ?_⟩
      · rintro ⟨k, first, last, behind⟩
        exact ⟨k, by omega, by omega, behind⟩
      · rintro ⟨k, first, last, behind⟩
        have later : k ≠ i := fun same => absurd here (Nat.not_lt.mpr (same ▸ behind))
        exact ⟨k, by omega, by omega, behind⟩
      · exact fun kept => rest.kept (good.kept i w visited same kept)
      · have read : ((body (entryAt m mbi i) w).read (entryAt m mbi i) [.size]).reads = w.reads ++
            (fields (readEntry m (entryAt m mbi i)) ++ [EntryField.size]).map (entryAt m mbi i, ·) := by
          rw [MapWalk.read, good.reads i w visited same, List.append_assoc, List.map_append]
        rw [read, List.mem_append, List.mem_map]
        constructor
        · rintro ((before | ⟨f, field, rfl⟩) | ⟨k, first, last, later⟩)
          · exact .inl before
          · exact .inr ⟨i, Nat.le_refl i, by omega, visited, f, field, rfl⟩
          · exact .inr ⟨k, by omega, by omega, later⟩
        · rintro (before | ⟨k, first, last, entered, f, field, rfl⟩)
          · exact .inl (.inl before)
          · rcases Nat.eq_or_lt_of_le first with rfl | later
            · exact .inl (.inr ⟨f, field, rfl⟩)
            · exact .inr ⟨k, later, by omega, entered, f, field, rfl⟩
    · rw [if_neg here]
      refine ⟨⟨fun _ => ⟨i, Nat.le_refl i, by omega, Nat.not_lt.mp here⟩, fun _ => rfl⟩, same, id,
        fun r => ⟨.inl, ?_⟩⟩
      rintro (before | ⟨k, first, -, entered, -⟩)
      · exact before
      · exact absurd (entered i first) here

/-- Some test fails exactly if no entry is visited twice. -/
theorem leaves_iff_once (m : Mem) (mbi : Nat) :
    (∃ k, mapStop m mbi ≤ entryAt m mbi k) ↔ ¬ VisitedTwice m mbi := by
  have region : Races.Leaves (nextEntry m) (Set.Iio (mapStop m mbi)) (mbiMmapAddr m mbi) ↔
      ¬ VisitedTwice m mbi := Races.leaves_iff (Set.finite_Iio _)
  have leaves : Races.Leaves (nextEntry m) (Set.Iio (mapStop m mbi)) (mbiMmapAddr m mbi) ↔
      ∃ k, mapStop m mbi ≤ entryAt m mbi k := exists_congr fun _ => Set.mem_Iio.not.trans Nat.not_lt
  exact leaves.symm.trans region

/-! ## The bodies -/

/-- `highest_addr` is 0 or the end of a region of the map. -/
def Highest (m : Mem) (mbi highest : Nat) : Prop :=
  highest = 0 ∨ ∃ n, Visited m mbi n ∧ highest = regionEnd (readEntry m (entryAt m mbi n))

theorem raiseHighest_body (m : Mem) (mbi : Nat) :
    Body m mbi raiseHighest (fun _ => [.addr, .len]) (Highest m mbi) where
  reads _ _ _ _ := rfl
  memory _ _ _ same := same
  kept n w visited same kept := by
    simp only [raiseHighest, MapWalk.read]
    split_ifs
    · rw [same.entry visited]
      exact .inr ⟨n, visited, rfl⟩
    · exact kept

theorem printRegion_body (m : Mem) (mbi : Nat) :
    Body m mbi printRegion (fun _ => [.addr, .addr, .len]) fun _ => True where
  reads _ _ _ _ := rfl
  memory _ _ _ same := same
  kept _ _ _ _ _ := trivial

/-- A store to the bitmap. -/
theorem Same.store (same : Same m mbi m') (apart : BitmapApart m mbi kernelEnd)
    (word : BitmapWord m mbi kernelEnd y) (v : Nat) : Same m mbi (writeWord m' y v) := by
  intro x read
  rw [readWordAt, readWord_writeWord_apart (apart x y read word).symm]
  exact same x read

/-- The words of the bitmap that `pmm_init` makes. -/
theorem Highest.bitmapWord (highest : Highest m mbi h) (less : i < bitmapEntries (h / frameSize)) :
    BitmapWord m mbi kernelEnd (bitmapWord kernelEnd i) := by
  rcases highest with rfl | ⟨n, visited, rfl⟩
  · exact absurd less (Nat.not_lt_zero i)
  · exact ⟨n, visited, i, less, rfl⟩

theorem Same.markUsed (same : Same m mbi m') (apart : BitmapApart m mbi kernelEnd)
    (highest : Highest m mbi h) : Same m mbi (markUsedIn kernelEnd (h / frameSize) m') := by
  refine forRange_invariant _ (Same m mbi) _ _ (fun m' i _ less same => ?_) m' same
  exact same.store apart (highest.bitmapWord less) _

/-- What the second loop reads. -/
def freeFields (entry : MmapEntry) : List EntryField :=
  if entry.type = 1 then [.type, .addr, .addr, .len] else [.type]

theorem freeRegion_body (apart : BitmapApart m mbi kernelEnd) (highest : Highest m mbi h) :
    Body m mbi (freeRegion kernelEnd (h / frameSize)) freeFields fun _ => True where
  reads n w visited same := by
    rw [freeRegion, freeFields, same.entry visited]
    split_ifs <;> rfl
  memory n w visited same := by
    rw [freeRegion]
    simp only
    split_ifs
    · refine forRange_invariant _ (Same m mbi) _ _ (fun m' f _ _ same => ?_) w.memory same
      split_ifs with counted
      · refine same.store apart (highest.bitmapWord ?_) _
        rw [bitmapEntries]
        omega
      · exact same
    · exact same
  kept _ _ _ _ _ := trivial

/-! ## What lies in the map -/

theorem inside_iff (f : EntryField) (near : a + f.offset ≤ mapStop m mbi) : Inside m mbi (a, f) ↔
    mbiMmapAddr m mbi ≤ a + f.offset ∧ a + f.offset + f.bytes ≤ mapStop m mbi := by
  have top : mapStop m mbi < 2 ^ 32 := wrap_lt _
  have positive : 0 < f.bytes := by cases f <;> decide
  have bytes : Inside m mbi (a, f) ↔ ∀ i < f.bytes,
      mbiMmapAddr m mbi ≤ wrap (a + f.offset + i) ∧ wrap (a + f.offset + i) < mapStop m mbi := Iff.rfl
  rw [bytes]
  constructor
  · intro inside
    have first := (inside 0 positive).1
    rw [Nat.add_zero, wrap_of_lt (by omega)] at first
    refine ⟨first, ?_⟩
    by_contra longer
    -- the byte at the end of the map would be one of the field
    have last := (inside (mapStop m mbi - (a + f.offset)) (by omega)).2
    rw [Nat.add_sub_cancel' near, wrap_of_lt top] at last
    exact Nat.lt_irrefl _ last
  · rintro ⟨first, last⟩ i less
    rw [wrap_of_lt (by omega)]
    omega

/-- The first three fields. -/
theorem inside_fields (here : a < mapStop m mbi) :
    (Inside m mbi (a, .size) ∧ Inside m mbi (a, .addr) ∧ Inside m mbi (a, .len)) ↔
      mbiMmapAddr m mbi ≤ a ∧ a + 20 ≤ mapStop m mbi := by
  have size : Inside m mbi (a, .size) ↔ mbiMmapAddr m mbi ≤ a ∧ a + 4 ≤ mapStop m mbi :=
    inside_iff .size (Nat.le_of_lt here)
  constructor
  · rintro ⟨inside, inside', inside''⟩
    have four := size.mp inside
    have twelve := (inside_iff .addr four.2).mp inside'
    have twenty := (inside_iff .len twelve.2).mp inside''
    exact ⟨four.1, twenty.2⟩
  · rintro ⟨first, last⟩
    refine ⟨size.mpr ⟨first, by omega⟩, (inside_iff .addr ?_).mpr ?_, (inside_iff .len ?_).mpr ?_⟩
    all_goals simp only [EntryField.offset, EntryField.bytes]
    all_goals omega

theorem inside_type (first : mbiMmapAddr m mbi ≤ a) (near : a + 20 ≤ mapStop m mbi) :
    Inside m mbi (a, .type) ↔ a + 24 ≤ mapStop m mbi := by
  rw [inside_iff .type near]
  simp only [EntryField.offset, EntryField.bytes]
  omega

/-! ## The functions -/

/-- An entry before the `n`-th is visited, and one of these fields is read. -/
def ReadAt (m : Mem) (mbi n : Nat) (fields : MmapEntry → List EntryField) (r : Nat × EntryField) : Prop :=
  ∃ k < n, Visited m mbi k ∧ ∃ f ∈ fields (readEntry m (entryAt m mbi k)) ++ [.size],
    r = (entryAt m mbi k, f)

/-- The first `n` entries go beyond the map. -/
def EndsIn (m : Mem) (mbi n : Nat) : Prop := ∃ k < n, mapStop m mbi ≤ entryAt m mbi k

theorem Walked.ends_in {outcome : Bool × MapWalk σ} (walked : Walked m mbi fields keeps n 0 w outcome) :
    outcome.1 = true ↔ EndsIn m mbi n := by
  rw [walked.ends, EndsIn]
  simp

theorem Walked.read_at {outcome : Bool × MapWalk σ} (walked : Walked m mbi fields keeps n 0 w outcome)
    (r : Nat × EntryField) : r ∈ outcome.2.reads ↔ r ∈ w.reads ∨ ReadAt m mbi n fields r := by
  rw [walked.reads, ReadAt]
  simp

theorem endsIn_iff (m : Mem) (mbi : Nat) : (∃ n, EndsIn m mbi n) ↔ ¬ VisitedTwice m mbi := by
  rw [← leaves_iff_once]
  constructor
  · rintro ⟨n, k, -, behind⟩
    exact ⟨k, behind⟩
  · rintro ⟨k, behind⟩
    exact ⟨k + 1, k, Nat.lt_succ_self k, behind⟩

/-- `multiboot_print_memory` on a map. -/
theorem multibootPrintMemory_spec (map : HasMap m mbi) (n : Nat) :
    ((multibootPrintMemory n mbi m).returned ≠ none ↔ EndsIn m mbi n) ∧
    ∀ r, r ∈ (multibootPrintMemory n mbi m).reads ↔ ReadAt m mbi n (fun _ => [.addr, .addr, .len]) r := by
  have walk := walked (n := n) (i := 0) (w := ⟨m, [], [Text.ascii "Memory map:\n"]⟩)
    (printRegion_body m mbi) (Same.refl m mbi) (fun k less => absurd less (Nat.not_lt_zero k))
  rw [entryAt, Function.iterate_zero, id] at walk
  rw [multibootPrintMemory, if_neg map]
  obtain ⟨⟨ended, w⟩, outcome⟩ :
    ∃ o, walkMap mbi printRegion n (mbiMmapAddr m mbi) ⟨m, [], [Text.ascii "Memory map:\n"]⟩ = o := ⟨_, rfl⟩
  rw [outcome] at walk ⊢
  have reads : ∀ r, r ∈ w.reads ↔ ReadAt m mbi n (fun _ => [.addr, .addr, .len]) r := by
    simpa using walk.read_at
  have ends : ended = true ↔ EndsIn m mbi n := walk.ends_in
  cases ended with
  | false => exact ⟨by simpa using ends, reads⟩
  | true => exact ⟨by simpa using ends, reads⟩

/-- `pmm_init` on a map. -/
theorem pmmInitIn_spec (map : HasMap m mbi) (apart : BitmapApart m mbi kernelEnd) (n : Nat) :
    ((pmmInitIn n kernelEnd mbi m).returned ≠ none ↔ EndsIn m mbi n) ∧
    ∀ r, r ∈ (pmmInitIn n kernelEnd mbi m).reads ↔ ReadAt m mbi n (fun _ => [.addr, .len]) r ∨
      EndsIn m mbi n ∧ ReadAt m mbi n freeFields r := by
  have first := walked (n := n) (i := 0) (w := ⟨m, [], 0⟩) (raiseHighest_body m mbi) (Same.refl m mbi)
    (fun k less => absurd less (Nat.not_lt_zero k))
  rw [entryAt, Function.iterate_zero, id] at first
  rw [pmmInitIn, if_neg map]
  obtain ⟨⟨ended, w⟩, outcome⟩ :
    ∃ o, walkMap mbi raiseHighest n (mbiMmapAddr m mbi) ⟨m, [], 0⟩ = o := ⟨_, rfl⟩
  rw [outcome] at first ⊢
  have reads : ∀ r, r ∈ w.reads ↔ ReadAt m mbi n (fun _ => [.addr, .len]) r := by
    simpa using first.read_at
  have ends : ended = true ↔ EndsIn m mbi n := first.ends_in
  cases ended with
  | false =>
    have endless : ¬ EndsIn m mbi n := by simpa using ends
    simp only [endless, false_and, or_false]
    exact ⟨by simp, reads⟩
  | true =>
    have enough : EndsIn m mbi n := ends.mp rfl
    have highest : Highest m mbi w.kept := first.kept (.inl rfl)
    have same := Same.markUsed first.memory apart highest
    have second := walked (n := n) (i := 0)
      (w := ⟨markUsedIn kernelEnd (w.kept / frameSize) w.memory, w.reads, ()⟩)
      (freeRegion_body apart highest) same (fun k less => absurd less (Nat.not_lt_zero k))
    rw [entryAt, Function.iterate_zero, id] at second
    simp only [same.start]
    obtain ⟨⟨ended, w'⟩, outcome⟩ : ∃ o, walkMap mbi (freeRegion kernelEnd (w.kept / frameSize)) n
      (mbiMmapAddr m mbi) ⟨markUsedIn kernelEnd (w.kept / frameSize) w.memory, w.reads, ()⟩ = o := ⟨_, rfl⟩
    rw [outcome] at second ⊢
    have reads' : ∀ r, r ∈ w'.reads ↔ ReadAt m mbi n (fun _ => [.addr, .len]) r ∨
        ReadAt m mbi n freeFields r := fun r => (second.read_at r).trans (or_congr_left (reads r))
    have ended' : ended = true := second.ends_in.mpr enough
    subst ended'
    simp only [enough, true_and]
    exact ⟨by simp, reads'⟩

/-- An entry that is visited is visited in time. -/
theorem EndsIn.mono (ends : EndsIn m mbi n) (more : n ≤ n') : EndsIn m mbi n' := by
  obtain ⟨k, less, behind⟩ := ends
  exact ⟨k, Nat.lt_of_lt_of_le less more, behind⟩

theorem multibootPrintMemory_returns (m : Mem) (mbi : Nat) :
    (∃ n, (multibootPrintMemory n mbi m).returned ≠ none) ↔ (HasMap m mbi → ¬ VisitedTwice m mbi) := by
  by_cases map : HasMap m mbi
  · rw [← endsIn_iff]
    simp only [map, forall_const, (multibootPrintMemory_spec map _).1]
  · have returned : (multibootPrintMemory 0 mbi m).returned ≠ none := by
      rw [multibootPrintMemory, if_pos (not_not.mp map)]
      simp
    exact iff_of_true ⟨0, returned⟩ fun here => absurd here map

theorem pmmInitIn_returns (apart : BitmapApart m mbi kernelEnd) :
    (∃ n, (pmmInitIn n kernelEnd mbi m).returned ≠ none) ↔ (HasMap m mbi → ¬ VisitedTwice m mbi) := by
  by_cases map : HasMap m mbi
  · rw [← endsIn_iff]
    simp only [map, forall_const, (pmmInitIn_spec map apart _).1]
  · have returned : (pmmInitIn 0 kernelEnd mbi m).returned ≠ none := by
      rw [pmmInitIn, if_pos (not_not.mp map)]
      simp
    exact iff_of_true ⟨0, returned⟩ fun here => absurd here map

/-- The reads of the first fields, in whatever order. -/
theorem within_iff {fields : MmapEntry → List EntryField}
    (first : ∀ entry f, f ∈ fields entry ++ [.size] ↔ f = .size ∨ f = .addr ∨ f = .len) :
    (∀ n r, ReadAt m mbi n fields r → Inside m mbi r) ↔ Within m mbi 20 := by
  constructor
  · intro inside k visited
    have field (f : EntryField) (one : f = .size ∨ f = .addr ∨ f = .len) :
        Inside m mbi (entryAt m mbi k, f) :=
      inside (k + 1) _ ⟨k, Nat.lt_succ_self k, visited, f, (first _ f).mpr one, rfl⟩
    exact (inside_fields (visited k (Nat.le_refl k))).mp
      ⟨field _ (.inl rfl), field _ (.inr (.inl rfl)), field _ (.inr (.inr rfl))⟩
  · rintro within n _ ⟨k, -, visited, f, one, rfl⟩
    obtain ⟨size, addr, len⟩ := (inside_fields (visited k (Nat.le_refl k))).mpr (within k visited)
    rcases (first _ f).mp one with rfl | rfl | rfl
    · exact size
    · exact addr
    · exact len

theorem multibootPrintMemory_inside (m : Mem) (mbi : Nat) :
    (∀ n, ∀ r ∈ (multibootPrintMemory n mbi m).reads, Inside m mbi r) ↔
      (HasMap m mbi → Within m mbi 20) := by
  by_cases map : HasMap m mbi
  · have first : (∀ n r, ReadAt m mbi n (fun _ => [.addr, .addr, .len]) r → Inside m mbi r) ↔
        Within m mbi 20 := within_iff (by simp; tauto)
    rw [← first]
    simp only [map, forall_const, (multibootPrintMemory_spec map _).2]
  · refine iff_of_true (fun n r read => ?_) fun here => absurd here map
    rw [multibootPrintMemory, if_pos (not_not.mp map)] at read
    exact absurd read List.not_mem_nil

theorem pmmInitIn_inside (apart : BitmapApart m mbi kernelEnd) :
    (∀ n, ∀ r ∈ (pmmInitIn n kernelEnd mbi m).reads, Inside m mbi r) ↔
      (HasMap m mbi → Within m mbi 20 ∧ (¬ VisitedTwice m mbi → Within m mbi 24)) := by
  by_cases map : HasMap m mbi
  · have first : (∀ n r, ReadAt m mbi n (fun _ => [.addr, .len]) r → Inside m mbi r) ↔ Within m mbi 20 :=
      within_iff (by simp; tauto)
    simp only [map, forall_const, (pmmInitIn_spec map apart _).2]
    constructor
    · intro inside
      have within := first.mp fun n r read => inside n r (.inl read)
      refine ⟨within, fun once k visited => ?_⟩
      obtain ⟨n, ends⟩ := (endsIn_iff m mbi).mpr once
      have type : EntryField.type ∈ freeFields (readEntry m (entryAt m mbi k)) ++ [.size] := by
        rw [freeFields]
        split_ifs <;> simp
      have read := inside (max n (k + 1)) _ (.inr ⟨ends.mono (Nat.le_max_left ..), k,
        Nat.lt_of_lt_of_le (Nat.lt_succ_self k) (Nat.le_max_right ..), visited, .type, type, rfl⟩)
      obtain ⟨start, twenty⟩ := within k visited
      exact ⟨start, (inside_type start twenty).mp read⟩
    · rintro ⟨within, behind⟩ n r (read | ⟨ends, k, -, visited, f, -, rfl⟩)
      · exact first.mpr within n r read
      · have whole := behind ((endsIn_iff m mbi).mp ⟨n, ends⟩) k visited
        obtain ⟨start, twenty⟩ := within k visited
        obtain ⟨size, addr, len⟩ := (inside_fields (visited k (Nat.le_refl k))).mpr ⟨start, twenty⟩
        cases f with
        | size => exact size
        | addr => exact addr
        | len => exact len
        | type => exact (inside_type start twenty).mpr whole.2
  · refine iff_of_true (fun n r read => ?_) fun here => absurd here map
    rw [pmmInitIn, if_pos (not_not.mp map)] at read
    exact absurd read List.not_mem_nil

/-- Sizes that do not take an address past the last one never lead back. -/
theorem once_of_forward
    (forward : ∀ n, Visited m mbi n → entryAt m mbi n + readWordAt m (entryAt m mbi n) + 4 < 2 ^ 32) :
    ¬ VisitedTwice m mbi := by
  rintro ⟨i, j, less, same, visited⟩
  have grows : ∀ k, i < k → k ≤ j → entryAt m mbi i < entryAt m mbi k := by
    intro k first last
    induction k with
    | zero => omega
    | succ k ih =>
      have fits := forward k fun l most => visited l (by omega)
      have next : entryAt m mbi (k + 1) = entryAt m mbi k + readWordAt m (entryAt m mbi k) + 4 := by
        rw [entryAt_succ, nextEntry, add32_of_lt (a := entryAt m mbi k) (by omega), add32_of_lt fits]
      rcases Nat.eq_or_lt_of_le (Nat.le_of_lt_succ first) with rfl | later
      · omega
      · have earlier := ih later (by omega)
        omega
  exact Nat.ne_of_lt (grows j less (Nat.le_refl j)) same

/-- The walks end exactly if they visit no entry twice, for which it is enough that no size
leads past the last address. They read nothing but the map exactly if every entry visited
lies in it: all of it for the second loop of `pmm_init`, all but its type for the others. -/
theorem memory_map_walks (apart : BitmapApart m mbi kernelEnd) :
    ((∃ n, (pmmInitIn n kernelEnd mbi m).returned ≠ none) ↔ (HasMap m mbi → ¬ VisitedTwice m mbi)) ∧
    ((∃ n, (multibootPrintMemory n mbi m).returned ≠ none) ↔
      (HasMap m mbi → ¬ VisitedTwice m mbi)) ∧
    ((∀ n, ∀ r ∈ (pmmInitIn n kernelEnd mbi m).reads, Inside m mbi r) ↔
      (HasMap m mbi → Within m mbi 20 ∧ (¬ VisitedTwice m mbi → Within m mbi 24))) ∧
    ((∀ n, ∀ r ∈ (multibootPrintMemory n mbi m).reads, Inside m mbi r) ↔
      (HasMap m mbi → Within m mbi 20)) ∧
    ((∀ n, Visited m mbi n → entryAt m mbi n + readWordAt m (entryAt m mbi n) + 4 < 2 ^ 32) →
      ¬ VisitedTwice m mbi) :=
  ⟨pmmInitIn_returns apart, multibootPrintMemory_returns m mbi, pmmInitIn_inside apart,
    multibootPrintMemory_inside m mbi, once_of_forward⟩

/-! ## Maps -/

/-- Memory with the multiboot information at 0 and a map of `length` bytes from 4096 on, whose
first entry has this size field and is a usable region of 2 MiB. -/
def oneRegion (length size : Nat) : Mem :=
  [(0, 0x40), (44, length), (48, 4096), (4096, size), (4108, 0x200000), (4116, 1)].foldl
    (fun m (word : Nat × Nat) => writeWord m word.1 word.2) fun _ => 0

/-- An entry that fills the map. -/
theorem oneRegion_visited (visited : Visited (oneRegion 24 20) 0 n) : n = 0 := by
  by_contra later
  have behind : ¬ entryAt (oneRegion 24 20) 0 1 < mapStop (oneRegion 24 20) 0 := by decide +kernel
  exact behind (visited 1 (by omega))

theorem oneRegion_once : ¬ VisitedTwice (oneRegion 24 20) 0 := by
  rintro ⟨i, j, less, -, visited⟩
  have first := oneRegion_visited visited
  omega

theorem oneRegion_within : Within (oneRegion 24 20) 0 24 := by
  intro n visited
  rw [oneRegion_visited visited]
  decide +kernel

/-- A walk that comes to this region only, and a bitmap far behind it. -/
theorem region_apart (only : ∀ n, Visited m 0 n → entryAt m 0 n = 4096)
    (stop : regionEnd (readEntry m 4096) = 0x200000) : BitmapApart m 0 0x200000 := by
  rintro x _ word ⟨n, visited, i, less, rfl⟩
  rw [only n visited, stop] at less
  have count : bitmapEntries (0x200000 / frameSize) = 16 := rfl
  have place : bitmapWord 0x200000 i = 0x200000 + 4 * i := wrap_of_lt (by omega)
  have low : ∀ x < 4120, Apart (wrap x) (bitmapWord 0x200000 i) := by
    intro x small
    rw [place, wrap_of_lt (by omega)]
    omega
  rcases word with rfl | rfl | ⟨n, visited, j, small, rfl⟩
  · exact low _ (by decide)
  · exact low _ (by decide)
  · rw [only n visited]
    exact low _ (by omega)

theorem oneRegion_apart : BitmapApart (oneRegion 24 20) 0 0x200000 := by
  refine region_apart (fun n visited => ?_) (by decide +kernel)
  rw [oneRegion_visited visited]
  decide +kernel

/-- `pmm_init` on that map. -/
theorem memory_map_walks_oneRegion :
    (∃ n, (pmmInitIn n 0x200000 0 (oneRegion 24 20)).returned ≠ none) ∧
    ∀ n, ∀ r ∈ (pmmInitIn n 0x200000 0 (oneRegion 24 20)).reads, Inside (oneRegion 24 20) 0 r := by
  obtain ⟨returns, -, inside, -⟩ := memory_map_walks oneRegion_apart
  refine ⟨returns.mpr fun _ => oneRegion_once, inside.mpr fun _ => ⟨fun n visited => ?_, fun _ => oneRegion_within⟩⟩
  obtain ⟨start, whole⟩ := oneRegion_within n visited
  exact ⟨start, by omega⟩

/-- A size of -4 leads an entry to itself, and the last entry of a map may be cut off. A map
that is in order is overwritten if the bitmap lies on it. -/
theorem memory_map_unchecked :
    (¬ ∀ m mbi kernelEnd, mbiMmapAddr m mbi + mbiMmapLength m mbi < 2 ^ 32 →
      ∃ n, (pmmInitIn n kernelEnd mbi m).returned ≠ none) ∧
    (¬ ∀ m mbi, mbiMmapAddr m mbi + mbiMmapLength m mbi < 2 ^ 32 →
      ∃ n, (multibootPrintMemory n mbi m).returned ≠ none) ∧
    (¬ ∀ m mbi kernelEnd, mbiMmapAddr m mbi + mbiMmapLength m mbi < 2 ^ 32 →
      ∀ n, ∀ r ∈ (pmmInitIn n kernelEnd mbi m).reads, Inside m mbi r) ∧
    (¬ ∀ m mbi, mbiMmapAddr m mbi + mbiMmapLength m mbi < 2 ^ 32 →
      ∀ n, ∀ r ∈ (multibootPrintMemory n mbi m).reads, Inside m mbi r) ∧
    ¬ ∀ m mbi kernelEnd, mbiMmapAddr m mbi + mbiMmapLength m mbi < 2 ^ 32 → ¬ VisitedTwice m mbi →
      Within m mbi 24 → ∀ n, ∀ r ∈ (pmmInitIn n kernelEnd mbi m).reads, Inside m mbi r := by
  have spins : ∀ n, entryAt (oneRegion 24 0xFFFFFFFC) 0 n = 4096 := by
    intro n
    induction n with
    | zero => decide +kernel
    | succ n ih =>
      rw [entryAt_succ, ih]
      decide +kernel
  have map : HasMap (oneRegion 24 0xFFFFFFFC) 0 := by
    rw [HasMap]
    decide +kernel
  have again : VisitedTwice (oneRegion 24 0xFFFFFFFC) 0 := by
    refine ⟨0, 1, by decide, (spins 0).trans (spins 1).symm, fun k _ => ?_⟩
    rw [spins k]
    decide +kernel
  refine ⟨fun claim => ?_, fun claim => ?_, fun claim => ?_, fun claim => ?_, fun claim => ?_⟩
  · have apart := region_apart (fun n _ => spins n) (by decide +kernel)
    exact (pmmInitIn_returns apart).mp (claim _ 0 0x200000 (by decide +kernel)) map again
  · exact (multibootPrintMemory_returns _ 0).mp (claim _ 0 (by decide +kernel)) map again
  · have read : (4096, EntryField.len) ∈ (pmmInitIn 1 0x200000 0 (oneRegion 12 20)).reads := by
      decide +kernel
    have byte := claim (oneRegion 12 20) 0 0x200000 (by decide +kernel) 1 _ read 0 (by decide)
    exact absurd byte.2 (by decide +kernel)
  · have read : (4096, EntryField.len) ∈ (multibootPrintMemory 1 0 (oneRegion 12 20)).reads := by
      decide +kernel
    have byte := claim (oneRegion 12 20) 0 (by decide +kernel) 1 _ read 0 (by decide)
    exact absurd byte.2 (by decide +kernel)
  · have read : (4099, EntryField.type) ∈ (pmmInitIn 2 4096 0 (oneRegion 24 20)).reads := by
      decide +kernel
    have byte := claim (oneRegion 24 20) 0 4096 (by decide +kernel) oneRegion_once oneRegion_within 2 _
      read 1 (by decide)
    exact absurd byte.2 (by decide +kernel)

end ZynthexOS.MemoryMapWalks
