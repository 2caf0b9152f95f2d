import Mathlib.Data.List.Intervals
import ZynthexOS.DrawingBounds

/-! Filling as plotting. The clipped loops of a rectangle store what
`framebuffer_putpixel` does for one pixel after the other, in the same order, also
where the right or the lower edge lies beyond the last 32-bit number. -/
namespace ZynthexOS.Filling
open Video Lib.Stores DrawingBounds

/-- The numbers from `start` on, `count` of them, that lie below `size`. -/
def span (start count size : UInt32) : List UInt32 :=
  ((List.range' start.toNat count.toNat).filter (· < size.toNat)).map .ofNat

/-- `framebuffer_putpixel` for each pixel of a rectangle that the screen has, row by row. -/
def plotRect (fb : FbInfo) (x y w h argb : UInt32) : Drawing :=
  (span y h fb.height).flatMap fun j =>
    (span x w fb.width).flatMap fun i => framebufferPutpixel fb i j argb

variable {fb : FbInfo}

theorem span_outside (outside : size ≤ start) (count : UInt32) : span start count size = [] := by
  rw [span, List.map_eq_nil_iff, List.filter_eq_nil_iff]
  intro i member
  have first := (List.mem_range'_1.mp member).1
  have beyond := UInt32.le_iff_toNat_le.mp outside
  simp only [decide_eq_true_eq]
  omega

theorem clamp_toNat {width x : UInt32} (inside : x < width) (w : UInt32) :
    (clamp w (width - x)).toNat = min w.toNat (width.toNat - x.toNat) := by
  have rest : (width - x).toNat = width.toNat - x.toNat :=
    UInt32.toNat_sub_of_le _ _ (UInt32.le_of_lt inside)
  rw [clamp]
  split_ifs with long
  · have longer := UInt32.lt_iff_toNat_lt.mp long
    omega
  · have shorter := UInt32.le_iff_toNat_le.mp (UInt32.not_lt.mp long)
    omega

/-- Inside of the screen a span is the clipped loop. -/
theorem span_inside {x width : UInt32} (inside : x < width) (w : UInt32) :
    span x w width = (List.range (clamp w (width - x)).toNat).map fun i => x + .ofNat i := by
  have clipped : (List.range' x.toNat w.toNat).filter (· < width.toNat) =
      List.range' x.toNat (clamp w (width - x)).toNat := by
    have interval := List.Ico.filter_lt x.toNat (x.toNat + w.toNat) width.toNat
    simp only [List.Ico, Nat.add_sub_cancel_left] at interval
    rw [interval, clamp_toNat inside]
    congr 1
    have small := UInt32.lt_iff_toNat_lt.mp inside
    omega
  rw [span, clipped, List.range'_eq_map_range, List.map_map]
  refine List.map_congr_left fun i _ => ?_
  simp

theorem below_zero (body : UInt32 → Drawing) : below 0 body = [] := rfl

theorem ofNat_lt {n : UInt32} (small : i < n.toNat) : UInt32.ofNat i < n := by
  have bound := n.toNat_lt
  rw [UInt32.lt_iff_toNat_lt, UInt32.toNat_ofNat', Nat.mod_eq_of_lt (by omega)]
  exact small

theorem below_congr {n : UInt32} {body body' : UInt32 → Drawing} (same : ∀ i < n, body i = body' i) :
    below n body = below n body' :=
  List.flatMap_congr fun _ member => same _ (ofNat_lt (List.mem_range.mp member))

/-- The clipped loop calls for the numbers of the span. -/
theorem below_clamp {x width : UInt32} (inside : x < width) (w : UInt32) {body : UInt32 → Drawing}
    {call : UInt32 → Drawing} (round : ∀ i < clamp w (width - x), body i = call (x + i)) :
    below (clamp w (width - x)) body = (span x w width).flatMap call := by
  rw [span_inside inside, List.flatMap_map, below, upTo]
  exact List.flatMap_congr fun _ member => round _ (ofNat_lt (List.mem_range.mp member))

theorem plotRect_empty (none : w = 0 ∨ h = 0) (x y argb : UInt32) : plotRect fb x y w h argb = [] := by
  rcases none with rfl | rfl
  · simp [plotRect, span]
  · simp [plotRect, span]

theorem plotRect_outside (outside : x ≥ fb.width ∨ y ≥ fb.height) (w h argb : UInt32) :
    plotRect fb x y w h argb = [] := by
  rcases outside with outside | outside
  · simp [plotRect, span_outside outside]
  · simp [plotRect, span_outside outside]

/-- A call that draws no pixel fills nothing. -/
theorem plotRect_idle {argb : UInt32} (idle : ∀ i j, framebufferPutpixel fb i j argb = [])
    (x y w h : UInt32) : plotRect fb x y w h argb = [] := by
  simp [plotRect, idle]

/-- The stores for a pixel of the screen. -/
theorem putpixel_inside (available : fb.available = true) (bytes : fb.bppBytes ≠ 0) {x y : UInt32}
    (inside : x < fb.width) (inside' : y < fb.height) (argb : UInt32) :
    framebufferPutpixel fb x y argb =
      fbWritePixel (fbTargetBase fb + y * fbTargetPitch fb + x * fb.bppBytes) (fbPackColor fb argb)
        fb.bppBytes := by
  have on : ¬ (x ≥ fb.width ∨ y ≥ fb.height) :=
    not_or.mpr ⟨UInt32.not_le.mpr inside, UInt32.not_le.mpr inside'⟩
  rw [framebufferPutpixel, if_neg (not_not.mpr available), if_neg on, if_neg bytes]

/-- A pixel counted from the corner of a rectangle. -/
theorem corner_add (base pitch bytes x y xx yy : UInt32) :
    base + y * pitch + x * bytes + yy * pitch + xx * bytes = base + (y + yy) * pitch + (x + xx) * bytes := by
  grind

theorem fillRect_eq_plotRect (fb : FbInfo) (x y w h argb : UInt32) :
    framebufferFillRect fb x y w h argb = plotRect fb x y w h argb := by
  rw [framebufferFillRect]
  dsimp only
  split_ifs with idle outside none
  · rcases idle with unavailable | none
    · exact (plotRect_idle (fun i j => by rw [framebufferPutpixel, if_pos unavailable]) x y w h).symm
    · exact (plotRect_empty none x y argb).symm
  · exact (plotRect_outside outside w h argb).symm
  · refine (plotRect_idle (fun i j => ?_) x y w h).symm
    rw [framebufferPutpixel]
    simp [none]
  · simp only [not_or, not_not] at idle
    obtain ⟨inside, inside'⟩ := lt_of_inside outside
    refine below_clamp inside' h fun yy row => ?_
    refine below_clamp inside w fun xx column => ?_
    rw [putpixel_inside idle.1 none (add_lt_of_clamp inside column) (add_lt_of_clamp inside' row),
      corner_add]

theorem below_nil {n : UInt32} {body : UInt32 → Drawing} (idle : ∀ i, body i = []) :
    below n body = [] := by
  simp [below, upTo, idle]

theorem clamp_whole (n : UInt32) : clamp n (n - 0) = n := by simp [clamp]

/-- Clearing fills the screen. -/
theorem clear_eq_fillRect (fb : FbInfo) (argb : UInt32) :
    framebufferClear fb argb = framebufferFillRect fb 0 0 fb.width fb.height argb := by
  rw [framebufferClear, framebufferFillRect]
  by_cases unavailable : ¬ fb.available = true
  · rw [if_pos unavailable, if_pos (.inl unavailable)]
  · rw [if_neg unavailable]
    dsimp only
    split_ifs with idle outside none
    · rcases idle.resolve_left unavailable with none | none
      · refine below_nil fun y => ?_
        rw [none, below_zero]
      · rw [none, below_zero]
    · rcases outside with none | none
      · refine below_nil fun y => ?_
        rw [UInt32.le_zero_iff.mp none, below_zero]
      · rw [UInt32.le_zero_iff.mp none, below_zero]
    · refine below_nil fun y => below_nil fun x => ?_
      rw [none]
      rfl
    · rw [clamp_whole, clamp_whole]
      refine below_congr fun y _ => below_congr fun x _ => ?_
      rw [corner_add, UInt32.zero_add, UInt32.zero_add]

/-- A rectangle leaves the memory that plotting its pixels leaves, and clearing the one
that filling the screen does. -/
theorem filling_plots (fb : FbInfo) (argb : UInt32) (memory : UInt32 → UInt8) :
    (∀ x y w h, run (framebufferFillRect fb x y w h argb) memory =
      run (plotRect fb x y w h argb) memory) ∧
    run (framebufferClear fb argb) memory =
      run (framebufferFillRect fb 0 0 fb.width fb.height argb) memory := by
  refine ⟨fun x y w h => ?_, ?_⟩
  · rw [fillRect_eq_plotRect]
  · rw [clear_eq_fillRect]

end ZynthexOS.Filling
