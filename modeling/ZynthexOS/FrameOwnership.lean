import ZynthexOS.UsableMemory

/-! Who holds a physical frame. The bitmap has a clear bit only where `pmm_init`
left one, and a set bit for every frame that was handed out and not freed since,
so an allocation meets neither a reserved frame nor one that is held. -/
namespace ZynthexOS.FrameOwnership
open Lib Lib.Memory Mm FrameAccounting UsableMemory

/-- Setting and clearing a frame changes no other bit. -/
def BitsApart (pmm : Pmm) : Prop :=
  ∀ f g, g ≠ f → Pmm.used (setFrame pmm f) g = Pmm.used pmm g ∧
    Pmm.used (clearFrame pmm f) g = Pmm.used pmm g

theorem bitsApart (pmm : Pmm) : BitsApart pmm := by
  intro f g ne
  simp [used_setFrame, used_clearFrame, ne]

/-- The frames held after some calls on the allocator that `pmm_init` left. -/
structure Ledger (initial : Pmm) (s : FrameState) : Prop where
  total : s.pmm.totalFrames = initial.totalFrames
  free : ∀ f, Pmm.used s.pmm f = false → Pmm.used initial f = false
  held : ∀ p ∈ s.held, ∃ f, p = f * frameSize ∧ Pmm.used initial f = false ∧
    Pmm.used s.pmm f = true
  distinct : s.held.Nodup

theorem ledger_initial (initial : Pmm) : Ledger initial ⟨initial, []⟩ :=
  ⟨rfl, fun _ free => free, by simp, List.nodup_nil⟩

/-- A frame that is free now is held by nobody. -/
theorem Ledger.notHeld (ledger : Ledger initial s) (free : Pmm.used s.pmm f = false) :
    f * frameSize ∉ s.held := by
  intro member
  obtain ⟨g, same, -, used⟩ := ledger.held _ member
  have equal : f = g := by
    simp only [frameSize] at same
    omega
  rw [← equal, free] at used
  cases used

theorem ledger_alloc (ledger : Ledger initial s) (small : initial.totalFrames < 2 ^ 20)
    (taken : FrameStep s .alloc s') : Ledger initial s' := by
  obtain ⟨pmm', held'⟩ := s'
  obtain ⟨rfl, rfl⟩ := taken
  rcases alloc_cases s.pmm (ledger.total.symm ▸ small) with ⟨alloc, -⟩ | ⟨f, ⟨-, free⟩, -, alloc⟩
  · simp only [alloc, if_true]
    exact ledger
  · have kept : ∀ p ∈ s.held, ∃ g, p = g * frameSize ∧ Pmm.used initial g = false ∧
        Pmm.used (setFrame s.pmm f) g = true := by
      intro p member
      obtain ⟨g, same, before, used⟩ := ledger.held p member
      exact ⟨g, same, before, by simp [used_setFrame, used]⟩
    have free' : ∀ g, Pmm.used (setFrame s.pmm f) g = false → Pmm.used initial g = false := by
      intro g clear
      rw [used_setFrame, Bool.or_eq_false_iff] at clear
      exact ledger.free g clear.2
    simp only [alloc]
    by_cases null : f * frameSize = 0
    · simp only [null, if_true]
      exact ⟨ledger.total, free', kept, ledger.distinct⟩
    · simp only [null, if_false]
      refine ⟨ledger.total, free', fun p member => ?_, ?_⟩
      · rcases List.mem_cons.mp member with rfl | before
        · exact ⟨f, rfl, ledger.free f free, by simp [used_setFrame]⟩
        · exact kept p before
      · exact List.nodup_cons.mpr ⟨ledger.notHeld free, ledger.distinct⟩

theorem ledger_free (ledger : Ledger initial s) (taken : FrameStep s (.free p) s') :
    Ledger initial s' := by
  obtain ⟨pmm', held'⟩ := s'
  obtain ⟨member, rfl, rfl⟩ := taken
  obtain ⟨f, rfl, before, -⟩ := ledger.held p member
  have number : f * frameSize / frameSize = f := by
    simp only [frameSize]
    omega
  have cleared : pmmFreeFrame s.pmm (f * frameSize) = clearFrame s.pmm f := by
    rw [pmmFreeFrame, number]
  simp only [cleared]
  refine ⟨ledger.total, fun g clear => ?_, fun q still => ?_, ledger.distinct.erase _⟩
  · rw [used_clearFrame] at clear
    by_cases here : g = f
    · exact here ▸ before
    · exact ledger.free g (by simpa [here] using clear)
  · obtain ⟨other, held⟩ := ledger.distinct.mem_erase_iff.mp still
    obtain ⟨g, rfl, free, used⟩ := ledger.held q held
    have ne : g ≠ f := by
      rintro rfl
      exact other rfl
    exact ⟨g, rfl, free, by simp [used_clearFrame, ne, used]⟩

/-- The ledger is kept by every sequence of calls. -/
theorem ledger_run (small : initial.totalFrames < 2 ^ 20) (run : Run FrameStep s calls s')
    (ledger : Ledger initial s) : Ledger initial s' := by
  induction run with
  | nil => exact ledger
  | @cons _ _ _ call _ taken _ ih =>
    apply ih
    cases call with
    | alloc => exact ledger_alloc ledger small taken
    | free p => exact ledger_free ledger taken

/-- What `pmm_alloc_frame` may hand out in a state: a frame of the memory that
`pmm_init` took from a usable region and left free, that lies apart from the kernel
and the bitmap and that nobody holds. -/
structure HandsOut (kernelEnd : Nat) (entries : List MmapEntry) (initial : Pmm) (s : FrameState)
    (p : Nat) : Prop where
  aligned : frameSize ∣ p
  inside : p < initial.totalFrames * frameSize
  wasFree : Pmm.used initial (p / frameSize) = false
  fromUsable : Freed entries (p / frameSize)
  apart : kernelStart ≤ kernelEnd → bitmapStop kernelEnd initial.totalFrames < 2 ^ 32 →
    ¬ InKernel kernelEnd initial.totalFrames (p / frameSize)
  notHeld : p ∉ s.held

theorem handsOut_alloc (ledger : Ledger initial s) (small : initial.totalFrames < 2 ^ 20)
    (frames : ∀ f < initial.totalFrames, Pmm.used initial f = false ↔
      Freed entries f ∧ ¬ Reserved kernelEnd initial.totalFrames f)
    (real : (pmmAllocFrame s.pmm).2 ≠ 0) :
    HandsOut kernelEnd entries initial s (pmmAllocFrame s.pmm).2 := by
  rcases alloc_cases s.pmm (ledger.total.symm ▸ small) with ⟨alloc, -⟩ | ⟨f, ⟨inside, free⟩, -, alloc⟩
  · rw [alloc] at real
    exact absurd rfl real
  · rw [alloc]
    have below : f < initial.totalFrames :=
      ledger.total ▸ Nat.lt_of_lt_of_le inside (scanned_le s.pmm)
    have number : f * frameSize / frameSize = f := by
      simp only [frameSize]
      omega
    have before := ledger.free f free
    obtain ⟨freed, notReserved⟩ := (frames f below).mp before
    refine ⟨Nat.dvd_mul_left .., ?_, ?_, ?_, ?_, ledger.notHeld free⟩
    · simp only [frameSize]
      omega
    · rwa [number]
    · rwa [number]
    · intro image low
      rwa [number, ← reserved_iff image low]

/-- After a successful `pmm_init`, on any map, and any calls that free only frames
that are held: an allocation that does not return NULL hands out a whole frame of
the memory that `pmm_init` left free and that nobody holds, no frame is held twice,
and setting or clearing a frame changes no other bit. -/
theorem frames_held_once (started : pmmInit fuel kernelEnd ⟨raw, 0⟩ m mbi = some (initial, 0)) :
    ∃ entries, mmapEntries m (add32 (mbiMmapAddr m mbi) (mbiMmapLength m mbi)) fuel
        (mbiMmapAddr m mbi) = some entries ∧
      ∀ calls s, Run FrameStep ⟨initial, []⟩ calls s → s.held.Nodup ∧ BitsApart s.pmm ∧
        ((pmmAllocFrame s.pmm).2 ≠ 0 →
          HandsOut kernelEnd entries initial s (pmmAllocFrame s.pmm).2) := by
  have small := started_total ⟨fuel, kernelEnd, raw, m, mbi, started⟩
  have flags : mbiFlags m mbi &&& (1 <<< 6) ≠ 0 := by
    intro none
    rw [pmmInit, if_pos none] at started
    cases started
  cases read : mmapEntries m (add32 (mbiMmapAddr m mbi) (mbiMmapLength m mbi)) fuel
      (mbiMmapAddr m mbi) with
  | none =>
    simp only [pmmInit, flags, if_false, read] at started
    cases started
  | some entries =>
    obtain ⟨pmm, done, -, frames⟩ := pmmInit_spec flags read kernelEnd raw
    cases done.symm.trans started
    refine ⟨entries, rfl, fun calls s run => ?_⟩
    have ledger := ledger_run small run (ledger_initial initial)
    exact ⟨ledger.distinct, bitsApart s.pmm, handsOut_alloc ledger small frames⟩

/-- The state after a call. -/
def takeCall (s : FrameState) : FrameCall → Option FrameState
  | .alloc => some ⟨(pmmAllocFrame s.pmm).1,
    if (pmmAllocFrame s.pmm).2 = 0 then s.held else (pmmAllocFrame s.pmm).2 :: s.held⟩
  | .free frame => if frame ∈ s.held then some ⟨pmmFreeFrame s.pmm frame, s.held.erase frame⟩ else none

theorem takeCall_step {call : FrameCall} (done : takeCall s call = some s') : FrameStep s call s' := by
  cases call with
  | alloc =>
    cases done
    exact ⟨rfl, rfl⟩
  | free frame =>
    rw [takeCall] at done
    split_ifs at done with member
    cases done
    exact ⟨member, rfl, rfl⟩

/-- Three frames are handed out, and the second is given back. -/
def takenCalls : List FrameCall := [.alloc, .alloc, .alloc, .free 0x2000]

def twoHeld : FrameState := (execute takeCall ⟨smallPmm 0x1000, []⟩ takenCalls).getD ⟨smallPmm 0x1000, []⟩

/-- It is the next to be handed out. -/
theorem frames_held_once_again : ∃ entries initial,
    pmmInit 3 0x108000 ⟨fun _ => 0, 0⟩ (smallMap 0x1000) 0 = some (initial, 0) ∧
      Run FrameStep ⟨initial, []⟩ takenCalls twoHeld ∧
      twoHeld.held = [0x3000, 0x1000] ∧ twoHeld.held.Nodup ∧
      HandsOut 0x108000 entries initial twoHeld 0x2000 := by
  have started : pmmInit 3 0x108000 ⟨fun _ => 0, 0⟩ (smallMap 0x1000) 0 =
      some (smallPmm 0x1000, 0) := smallPmm_init (by decide +kernel)
  have run : Run FrameStep ⟨smallPmm 0x1000, []⟩ takenCalls twoHeld :=
    executed_run (fun _ _ _ => takeCall_step) (by decide +kernel)
  have held : twoHeld.held = [0x3000, 0x1000] := by decide +kernel
  have next : (pmmAllocFrame twoHeld.pmm).2 = 0x2000 := by decide +kernel
  obtain ⟨entries, -, handsOut⟩ := frames_held_once started
  obtain ⟨distinct, -, alloc⟩ := handsOut _ _ run
  rw [next] at alloc
  exact ⟨entries, smallPmm 0x1000, started, run, held, distinct, alloc (by decide)⟩

end ZynthexOS.FrameOwnership
