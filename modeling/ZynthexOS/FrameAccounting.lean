import ZynthexOS.Lib.Runs
import ZynthexOS.Mm.Pmm

/-! The frame allocator as a set of used frames. The allocator looks at whole
words of the bitmap and hands out frame 0 as NULL, the counter looks at single
frames; where the two see the same frames, allocation and accounting agree. -/
namespace ZynthexOS.FrameAccounting
open Lib Lib.Memory Lib.Bits Lib.Scan Mm

/-- A frame marked used in the bitmap. -/
def Pmm.used (pmm : Pmm) (f : Nat) : Bool := bitAt pmm.bitmap f

theorem used_setFrame (pmm : Pmm) (f g : Nat) :
    Pmm.used (setFrame pmm f) g = (decide (g = f) || Pmm.used pmm g) :=
  bitAt_set pmm.bitmap (by decide) f g

theorem used_clearFrame (pmm : Pmm) (f g : Nat) :
    Pmm.used (clearFrame pmm f) g = (!decide (g = f) && Pmm.used pmm g) :=
  bitAt_clear pmm.bitmap (by decide) f g

/-- The frames the allocator looks at: those of whole bitmap words. -/
def scanned (pmm : Pmm) : Nat := 32 * (pmm.totalFrames / 32)

theorem scanned_le (pmm : Pmm) : scanned pmm ≤ pmm.totalFrames := Nat.mul_div_le ..

/-- The scan of one word finds its lowest free frame. -/
theorem firstFreeInWord_spec (pmm : Pmm) (i : Nat) :
    (firstFreeInWord pmm i = none ∧ ∀ j < 32, Pmm.used pmm (i * 32 + j) = true) ∨
      ∃ j < 32, firstFreeInWord pmm i = some (i * 32 + j) ∧ Pmm.used pmm (i * 32 + j) = false ∧
        ∀ k < j, Pmm.used pmm (i * 32 + k) = true := by
  have isUsed : ∀ j < 32, Pmm.used pmm (i * 32 + j) = (pmm.bitmap i).getLsbD j := by
    intro j small
    have word : (i * 32 + j) / 32 = i := by omega
    have place : (i * 32 + j) % 32 = j := by omega
    rw [Pmm.used, bitAt, word, place]
  have test : ∀ j < 32, decide (pmm.bitmap i &&& bit 32 j = 0) = !(pmm.bitmap i).getLsbD j := by
    intro j small
    rw [Bool.eq_iff_iff, decide_eq_true_iff, and_bit_eq_zero (pmm.bitmap i) small,
      Bool.not_eq_true']
  have full : pmm.bitmap i ≠ 0xFFFFFFFF ↔ ∃ j < 32, (pmm.bitmap i).getLsbD j = false :=
    ne_allOnes_iff (pmm.bitmap i)
  by_cases word : pmm.bitmap i ≠ 0xFFFFFFFF
  · rw [firstFreeInWord, if_pos word]
    obtain ⟨j, small, clear⟩ := full.mp word
    cases scan : (List.range 32).find? fun j => pmm.bitmap i &&& bit 32 j = 0 with
    | none =>
      have set := List.find?_range_eq_none.mp scan j small
      rw [test j small, clear] at set
      cases set
    | some k =>
      obtain ⟨here, member, before⟩ := List.find?_range_eq_some.mp scan
      have inside := List.mem_range.mp member
      rw [test k inside] at here
      refine .inr ⟨k, inside, rfl, by rw [isUsed k inside]; simpa using here, fun l low => ?_⟩
      have set := before l low
      rw [test l (by omega)] at set
      rw [isUsed l (by omega)]
      simpa using set
  · rw [firstFreeInWord, if_neg word]
    refine .inl ⟨rfl, fun j small => ?_⟩
    rw [isUsed j small]
    by_contra clear
    exact word (full.mpr ⟨j, small, by simpa using clear⟩)

/-- `first_free_frame` finds the lowest free frame of the whole words. -/
theorem firstFreeFrame_spec (pmm : Pmm) :
    (firstFreeFrame pmm = none ∧ ∀ f < scanned pmm, Pmm.used pmm f = true) ∨
      ∃ f < scanned pmm, firstFreeFrame pmm = some f ∧ Pmm.used pmm f = false ∧
        ∀ g < f, Pmm.used pmm g = true := by
  have split : ∀ f, f = f / 32 * 32 + f % 32 := fun f => by omega
  rcases findSome_range (firstFreeInWord pmm) (pmm.totalFrames / 32) with
    ⟨scan, none⟩ | ⟨i, small, scan, found, first⟩
  · refine .inl ⟨scan, fun f inside => ?_⟩
    rcases firstFreeInWord_spec pmm (f / 32) with ⟨-, used⟩ | ⟨j, -, here, -⟩
    · rw [split f]
      exact used _ (Nat.mod_lt _ (by decide))
    · have empty := none (f / 32) (by unfold scanned at inside; omega)
      rw [here] at empty
      cases empty
  · rcases firstFreeInWord_spec pmm i with ⟨empty, -⟩ | ⟨j, place, here, free, low⟩
    · exact absurd empty found
    · refine .inr ⟨i * 32 + j, by unfold scanned; omega, scan.trans here, free, fun g below => ?_⟩
      by_cases word : g / 32 = i
      · have : g % 32 < j := by omega
        rw [split g, word]
        exact low _ this
      · rcases firstFreeInWord_spec pmm (g / 32) with ⟨-, used⟩ | ⟨k, -, here', -⟩
        · rw [split g]
          exact used _ (Nat.mod_lt _ (by decide))
        · have empty := first (g / 32) (by omega)
          rw [here'] at empty
          cases empty

theorem freeFrames_eq (pmm : Pmm) : pmmGetFreeFrames pmm =
    (List.range pmm.totalFrames).countP fun f => !Pmm.used pmm f := by
  refine List.countP_congr fun f _ => ?_
  rw [decide_eq_true_iff, and_bit_eq_zero _ (Nat.mod_lt _ (by decide)), Pmm.used, bitAt]
  simp

/-- A frame the allocator can hand out. -/
def Allocatable (pmm : Pmm) (f : Nat) : Prop := f < scanned pmm ∧ Pmm.used pmm f = false

theorem allocatable_setFrame (pmm : Pmm) (f g : Nat) :
    Allocatable (setFrame pmm f) g ↔ g ≠ f ∧ Allocatable pmm g := by
  have same : scanned (setFrame pmm f) = scanned pmm := rfl
  rw [Allocatable, Allocatable, used_setFrame, same, Bool.or_eq_false_iff, decide_eq_false_iff_not]
  tauto

/-- `pmm_alloc_frame` fails when nothing can be handed out, and otherwise takes
the lowest frame that can. -/
theorem alloc_cases (pmm : Pmm) (small : pmm.totalFrames < 2 ^ 20) :
    (pmmAllocFrame pmm = (pmm, 0) ∧ ∀ f, ¬ Allocatable pmm f) ∨
      ∃ f, Allocatable pmm f ∧ (∀ g < f, ¬ Allocatable pmm g) ∧
        pmmAllocFrame pmm = (setFrame pmm f, f * frameSize) := by
  rcases firstFreeFrame_spec pmm with ⟨scan, used⟩ | ⟨f, inside, scan, isFree, low⟩
  · refine .inl ⟨by rw [pmmAllocFrame, scan], fun f free => ?_⟩
    have set := used f free.1
    rw [free.2] at set
    cases set
  · have whole := scanned_le pmm
    have ptr : wrap (f * frameSize) = f * frameSize := wrap_of_lt (by simp only [frameSize]; omega)
    refine .inr ⟨f, ⟨inside, isFree⟩, fun g below free => ?_, by rw [pmmAllocFrame, scan, ← ptr]⟩
    have set := low g below
    rw [free.2] at set
    cases set

/-! ## Accounting -/

/-- Allocation succeeds exactly when frames are free, takes one of them, and
changes nothing when it fails. -/
structure Accounts (pmm : Pmm) : Prop where
  nonNull : (pmmAllocFrame pmm).2 ≠ 0 ↔ pmmGetFreeFrames pmm > 0
  drops : (pmmAllocFrame pmm).2 ≠ 0 →
    pmmGetFreeFrames (pmmAllocFrame pmm).1 + 1 = pmmGetFreeFrames pmm
  unchanged : (pmmAllocFrame pmm).2 = 0 → (pmmAllocFrame pmm).1.bitmap = pmm.bitmap

/-- Frame 0 is used and a frame of a whole word of the bitmap is free. -/
def Servable (pmm : Pmm) : Prop :=
  Pmm.used pmm 0 = true ∧ ∃ f < scanned pmm, Pmm.used pmm f = false

/-- No frame is free, or one can be handed out that is not frame 0. -/
def Visible (pmm : Pmm) : Prop := pmmGetFreeFrames pmm = 0 ∨ Servable pmm

/-- When `pmm_alloc_frame` does not return NULL. -/
theorem alloc_ne_zero_iff (pmm : Pmm) (small : pmm.totalFrames < 2 ^ 20) :
    (pmmAllocFrame pmm).2 ≠ 0 ↔ Servable pmm := by
  rcases alloc_cases pmm small with ⟨alloc, none⟩ | ⟨f, ⟨inside, isFree⟩, low, alloc⟩
  · rw [alloc]
    refine iff_of_false (fun ne => ne rfl) ?_
    rintro ⟨-, f, free⟩
    exact none f free
  · rw [alloc]
    have number : f * frameSize ≠ 0 ↔ 0 < f := by
      simp only [frameSize]
      omega
    refine number.trans ⟨fun positive => ⟨?_, f, inside, isFree⟩, fun ⟨zero, _⟩ => ?_⟩
    · by_contra zero
      exact low 0 positive ⟨by omega, by simpa using zero⟩
    · apply Nat.pos_of_ne_zero
      rintro rfl
      rw [zero] at isFree
      cases isFree

theorem freeFrames_pos (pmm : Pmm) :
    0 < pmmGetFreeFrames pmm ↔ ∃ f < pmm.totalFrames, Pmm.used pmm f = false := by
  rw [freeFrames_eq, countP_range_pos]
  simp

theorem accounts_iff (pmm : Pmm) (small : pmm.totalFrames < 2 ^ 20) :
    Accounts pmm ↔ Visible pmm := by
  have served := alloc_ne_zero_iff pmm small
  have whole := scanned_le pmm
  constructor
  · intro accounts
    by_cases more : 0 < pmmGetFreeFrames pmm
    · exact .inr (served.mp (accounts.nonNull.mpr more))
    · exact .inl (Nat.eq_zero_of_not_pos more)
  · intro visible
    have nonNull : (pmmAllocFrame pmm).2 ≠ 0 ↔ pmmGetFreeFrames pmm > 0 := by
      rw [served]
      refine ⟨fun ⟨_, f, inside, isFree⟩ => (freeFrames_pos pmm).mpr ⟨f, by omega, isFree⟩, ?_⟩
      exact fun more => visible.resolve_left (Nat.ne_of_gt more)
    refine ⟨nonNull, fun ne => ?_, fun null => ?_⟩
    · rcases alloc_cases pmm small with ⟨alloc, -⟩ | ⟨f, ⟨inside, isFree⟩, -, alloc⟩
      · rw [alloc] at ne
        exact absurd rfl ne
      · rw [alloc, freeFrames_eq, freeFrames_eq]
        refine Eq.trans ?_ (countP_range_remove (f := f) (n := pmm.totalFrames)
          (fun g => !Pmm.used pmm g) (by omega) (by simp [isFree]))
        refine congrArg (· + 1) (List.countP_congr fun g _ => ?_)
        rw [used_setFrame, Bool.not_or]
    · rcases alloc_cases pmm small with ⟨alloc, -⟩ | ⟨f, ⟨inside, isFree⟩, -, alloc⟩
      · rw [alloc]
      · have more := (freeFrames_pos pmm).mpr ⟨f, by omega, isFree⟩
        exact absurd null (nonNull.mpr more)

/-! ## Runs -/

/-- The allocator with the frames handed out and not freed since. -/
structure FrameState where
  pmm : Pmm
  held : List Nat

inductive FrameCall where
  | alloc
  | free (frame : Nat)
  deriving DecidableEq, Repr

/-- `pmm_init` has succeeded on some memory map. -/
def Started (pmm : Pmm) : Prop :=
  ∃ fuel kernelEnd raw m mbi, pmmInit fuel kernelEnd ⟨raw, 0⟩ m mbi = some (pmm, 0)

/-- `pmm_alloc_frame`, and `pmm_free_frame` of an allocated frame. -/
def FrameStep (s : FrameState) : FrameCall → FrameState → Prop
  | .alloc, s' => s'.pmm = (pmmAllocFrame s.pmm).1 ∧
      s'.held = if (pmmAllocFrame s.pmm).2 = 0 then s.held else (pmmAllocFrame s.pmm).2 :: s.held
  | .free frame, s' => frame ∈ s.held ∧ s'.pmm = pmmFreeFrame s.pmm frame ∧
      s'.held = s.held.erase frame

/-- The allocator as `pmm_init` leaves it. -/
def FrameInitial (s : FrameState) : Prop := Started s.pmm ∧ s.held = []

theorem started_reached (started : Started pmm) : Reachable FrameInitial FrameStep ⟨pmm, []⟩ :=
  .start ⟨started, rfl⟩

theorem highestAddr_lt (entries : List MmapEntry) : highestAddr entries < 2 ^ 32 := by
  have loop : ∀ highest < 2 ^ 32, entries.foldl (fun highest entry =>
      if regionEnd entry > highest then regionEnd entry else highest) highest < 2 ^ 32 := by
    induction entries with
    | nil => exact fun highest small => small
    | cons entry entries ih =>
      intro highest small
      apply ih
      dsimp only
      split
      · exact wrap_lt _
      · exact small
  exact loop 0 (by decide)

theorem forRange_total (step : Pmm → Nat → Pmm)
    (keeps : ∀ pmm f, (step pmm f).totalFrames = pmm.totalFrames) (a b : Nat) (pmm : Pmm) :
    (forRange step a b pmm).totalFrames = pmm.totalFrames := by
  unfold forRange
  generalize List.range' a (b - a) = fs
  induction fs generalizing pmm with
  | nil => rfl
  | cons f fs ih => exact (ih _).trans (keeps pmm f)

theorem freeUsable_total (pmm : Pmm) (entries : List MmapEntry) :
    (freeUsable pmm entries).totalFrames = pmm.totalFrames := by
  unfold freeUsable
  induction entries generalizing pmm with
  | nil => rfl
  | cons entry entries ih =>
    apply (ih _).trans
    dsimp only
    split
    · refine forRange_total _ (fun pmm f => ?_) _ _ _
      split <;> rfl
    · rfl

theorem reserveKernel_total (pmm : Pmm) (kernelEnd : Nat) :
    (reserveKernel pmm kernelEnd).totalFrames = pmm.totalFrames :=
  (forRange_total setFrame (fun _ _ => rfl) _ _ _).trans (forRange_total setFrame (fun _ _ => rfl) _ _ _)

theorem started_total (started : Started pmm) : pmm.totalFrames < 2 ^ 20 := by
  obtain ⟨fuel, kernelEnd, raw, m, mbi, done⟩ := started
  unfold pmmInit at done
  split at done
  · simp [missingMemoryMap] at done
  · obtain ⟨entries, -, same⟩ := Option.map_eq_some_iff.mp done
    have high := highestAddr_lt entries
    have total := congrArg (·.1.totalFrames) same
    simp only [reserveKernel_total, freeUsable_total, markAllUsed, frameSize] at total
    omega

theorem reached_total (reached : Reachable FrameInitial FrameStep s) :
    s.pmm.totalFrames < 2 ^ 20 := by
  refine reached.induct (fun s => s.pmm.totalFrames < 2 ^ 20) ?_ ?_
  · exact fun s started => started_total started.1
  · rintro s call s' small taken
    have total : s'.pmm.totalFrames = s.pmm.totalFrames := by
      cases call with
      | alloc =>
        rw [taken.1, pmmAllocFrame]
        split <;> rfl
      | free frame =>
        rw [taken.2.1]
        rfl
    rwa [total]

/-- Frame accounting in every state reached from a successful `pmm_init`: it
holds exactly where the allocator sees a free frame other than frame 0 whenever
there is a free frame. -/
theorem frames_accounted (reached : Reachable FrameInitial FrameStep s) :
    Accounts s.pmm ↔ Visible s.pmm :=
  accounts_iff s.pmm (reached_total reached)

/-! ## A memory map with 320 frames -/

/-- Two usable regions, from `start` to the BIOS area and from the kernel to
`0x140000`. -/
def smallMap (start : Nat) : Mem :=
  [(0, 64), (44, 48), (48, 64), (64, 20), (68, start), (76, 0x9f000 - start), (84, 1), (88, 20),
    (92, 0x100000), (100, 0x40000), (108, 1)].foldl (fun m (a, v) => writeWord m a v) fun _ => 0

@[irreducible] def smallPmm (start : Nat) : Pmm :=
  ((pmmInit 3 0x108000 ⟨fun _ => 0, 0⟩ (smallMap start) 0).map Prod.fst).getD ⟨fun _ => 0, 0⟩

theorem smallPmm_init
    (done : (pmmInit 3 0x108000 ⟨fun _ => 0, 0⟩ (smallMap start) 0).map Prod.snd = some 0) :
    pmmInit 3 0x108000 ⟨fun _ => 0, 0⟩ (smallMap start) 0 = some (smallPmm start, 0) := by
  obtain ⟨⟨pmm, code⟩, same, rfl⟩ := Option.map_eq_some_iff.mp done
  rw [smallPmm, same]
  rfl

theorem smallPmm_started
    (done : (pmmInit 3 0x108000 ⟨fun _ => 0, 0⟩ (smallMap start) 0).map Prod.snd = some 0) :
    Started (smallPmm start) :=
  ⟨3, 0x108000, fun _ => 0, smallMap start, 0, smallPmm_init done⟩

/-- With frame 0 outside the usable regions the allocator accounts for its
frames. -/
theorem frames_accounted_from_frame_one : Accounts (smallPmm 0x1000) := by
  have started : Started (smallPmm 0x1000) := smallPmm_started (by decide +kernel)
  have zero : Pmm.used (smallPmm 0x1000) 0 = true := by decide +kernel
  have one : Pmm.used (smallPmm 0x1000) 1 = false := by decide +kernel
  have inside : 1 < scanned (smallPmm 0x1000) := by decide +kernel
  have visible : Visible (smallPmm 0x1000) := .inr ⟨zero, 1, inside, one⟩
  exact (frames_accounted (started_reached started)).mpr visible

/-- With frame 0 usable the first allocation takes it, returns NULL and marks it
used, although frames are free. -/
theorem frame_zero_is_null :
    ¬ ∀ s, Reachable FrameInitial FrameStep s → Accounts s.pmm := by
  intro claim
  have started : Started (smallPmm 0) := smallPmm_started (by decide +kernel)
  have accounts := claim _ (started_reached started)
  have inside : 0 < (smallPmm 0).totalFrames := by decide +kernel
  have free : Pmm.used (smallPmm 0) 0 = false := by decide +kernel
  have more := (freeFrames_pos (smallPmm 0)).mpr ⟨0, inside, free⟩
  have null : (pmmAllocFrame (smallPmm 0)).2 = 0 := by decide +kernel
  exact accounts.nonNull.mpr more null

end ZynthexOS.FrameAccounting
