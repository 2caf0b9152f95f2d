import ZynthexOS.DrawingBounds

/-! The hardware framebuffer while a back buffer is set: drawing leaves it alone until a
flush copies the visible rows. The gradient of a single row does not, nor does a
glyph drawn so far outside the back buffer that it meets the hardware. -/
namespace ZynthexOS.DoubleBuffering
open Video Lib.Stores DrawingBounds

/-- The bytes of a visible row. -/
def rowBytes (fb : FbInfo) : Nat := fb.width.toNat * fb.bppBytes.toNat

/-- A byte of the hardware framebuffer: of its pitch, or of a visible row that is longer. -/
def Hardware (fb : FbInfo) (a : UInt32) : Prop :=
  ∃ y < fb.height, ∃ i, (i < fb.pitch ∨ i.toNat < rowBytes fb) ∧ a = fb.addr + y * fb.pitch + i

/-- No visible byte of the target is one of the hardware. -/
def Apart (fb : FbInfo) : Prop := ∀ a, OnSurface fb a → ¬ Hardware fb a

/-- Bytes of visible rows that are one in the hardware are one in the back buffer as well. -/
def Layout (fb : FbInfo) : Prop :=
  ∀ {y i y' i' : UInt32}, y < fb.height → i.toNat < rowBytes fb → y' < fb.height → i'.toNat < rowBytes fb →
    y * fb.pitch + i = y' * fb.pitch + i' → y * fb.backbufferPitch + i = y' * fb.backbufferPitch + i'

/-- The call is no gradient of a single row with pixels in it, and no glyph it draws
meets the hardware. -/
def Spares (fb : FbInfo) : DrawCall → Prop
  | .drawChar x y c _ => GlyphAll fb (fun a => ¬ Hardware fb a) x y c
  | .drawString x y (some str) _ =>
    StringAll fb (fun a => ¬ Hardware fb a) y x (str.takeWhile (· ≠ 0))
  | .fillGradientVert _ _ =>
    fb.height ≠ 1 ∨ fb.width = 0 ∨ ¬ (fb.bppBytes = 2 ∨ fb.bppBytes = 3 ∨ fb.bppBytes = 4)
  | _ => True

/-- The visible rows of the hardware show those of the back buffer. -/
def Shows (fb : FbInfo) (m : UInt32 → UInt8) : Prop :=
  ∀ y < fb.height, ∀ i : UInt32, i.toNat < rowBytes fb →
    m (fb.addr + y * fb.pitch + i) = m (fb.backbuffer + y * fb.backbufferPitch + i)

/-- An address outside the visible rows of the hardware. -/
def Outside (fb : FbInfo) (a : UInt32) : Prop :=
  ∀ y < fb.height, ∀ i : UInt32, i.toNat < rowBytes fb → a ≠ fb.addr + y * fb.pitch + i

variable {fb : FbInfo} {m : UInt32 → UInt8}

/-! ## Drawing -/

theorem writePixel_none (odd : ¬ (fb.bppBytes = 2 ∨ fb.bppBytes = 3 ∨ fb.bppBytes = 4))
    (dst packed : UInt32) : fbWritePixel dst packed fb.bppBytes = [] := by
  simp only [not_or] at odd
  unfold fbWritePixel
  split
  · exact absurd ‹_› odd.2.2
  · exact absurd ‹_› odd.2.1
  · exact absurd ‹_› odd.1
  · rfl

theorem hardware_of_rows (none : fb.height = 0) (a : UInt32) : ¬ Hardware fb a := by
  rintro ⟨y, inside, -⟩
  rw [none] at inside
  exact UInt32.not_lt_zero inside

theorem fillGradientVert_spares (apart : Apart fb) (topArgb bottomArgb : UInt32)
    (spares : Spares fb (.fillGradientVert topArgb bottomArgb)) :
    ∀ s ∈ framebufferFillGradientVert fb topArgb bottomArgb, ¬ Hardware fb s.address := by
  by_cases none : fb.height = 0
  · exact fun s _ => hardware_of_rows none s.address
  · simp only [framebufferFillGradientVert, ne_eq, none, not_false_iff, if_true]
    split_ifs with available empty one
    · simp
    · rcases spares with many | narrow | odd
      · exact absurd one many
      · simp only [forall_below, narrow]
        exact fun x inside => absurd inside UInt32.not_lt_zero
      · simp only [forall_below, writePixel_none odd]
        simp
    · simp only [forall_below]
      intro y inside' x inside s member
      exact apart _ (writePixel_onSurface inside inside' rfl s member)
    · simp

/-- A call that spares the hardware stores nothing to it. -/
theorem draw_spares (apart : Apart fb) (call : DrawCall) (spares : Spares fb call) :
    ∀ s ∈ call.draw fb, ¬ Hardware fb s.address := by
  cases call with
  | clear argb => exact fun s member => apart _ (clear_onSurface fb argb s member)
  | putpixel x y argb => exact fun s member => apart _ (putpixel_onSurface fb x y argb s member)
  | fillRect x y w h argb => exact fun s member => apart _ (fillRect_onSurface fb x y w h argb s member)
  | fillGradientVert topArgb bottomArgb => exact fillGradientVert_spares apart topArgb bottomArgb spares
  | drawLine rounds x0 y0 x1 y1 argb =>
    exact fun s member => apart _ (drawLine_onSurface fb rounds x0 y0 x1 y1 argb s member)
  | drawChar x y c argb => exact forall_drawChar_of (P := fun a => ¬ Hardware fb a) spares argb
  | drawString x y str argb =>
    cases str with
    | none => simp [DrawCall.draw, framebufferDrawString]
    | some str =>
      simp only [DrawCall.draw, framebufferDrawString]
      split_ifs
      · exact forall_drawString_of (P := fun a => ¬ Hardware fb a) argb _ spares
      · simp
  | progressRing cx cy radius steps active color =>
    exact fun s member => apart _ (progressRing_onSurface fb cx cy radius steps active color s member)
  | blit dstX dstY w h src srcPitch srcBpp =>
    exact fun s member => apart _ (blit_onSurface fb dstX dstY w h src srcPitch srcBpp s member)
  | testPattern => exact fun s member => apart _ (testPattern_onSurface fb s member)

/-- Neither does a sequence of them. -/
theorem draws_spare (apart : Apart fb) (calls : List DrawCall) (spares : ∀ call ∈ calls, Spares fb call)
    (hardware : Hardware fb a) : run (calls.flatMap (DrawCall.draw fb)) m a = m a := by
  apply run_frame
  intro s member same
  obtain ⟨call, here, stored⟩ := List.mem_flatMap.mp member
  exact draw_spares apart call (spares call here) s stored (same ▸ hardware)

/-! ## Flushing -/

/-- The copies of a flush: where each byte goes and where it comes from. -/
def rowCopies (fb : FbInfo) : List (UInt32 × UInt32) :=
  (List.range fb.height.toNat).flatMap fun y =>
    (List.range (rowBytes fb)).map fun i =>
      (fb.addr + .ofNat y * fb.pitch + .ofNat i, fb.backbuffer + .ofNat y * fb.backbufferPitch + .ofNat i)

theorem flush_eq (available : fb.available = true) (set : fb.backbuffer ≠ 0) (short : rowBytes fb < 2 ^ 32) :
    framebufferFlush fb = (rowCopies fb).map fun p => copy p.1 p.2 := by
  have length : (fb.width * fb.bppBytes).toNat = rowBytes fb := by
    rw [UInt32.toNat_mul]
    exact Nat.mod_eq_of_lt short
  rw [framebufferFlush, if_neg (by simp [available, set])]
  split_ifs with none
  · simp [rowCopies, rowBytes, none]
  · simp only [below, upTo, memcpy, length, rowCopies, List.map_flatMap, List.map_map]
    congr 1
    funext y
    rw [List.map_eq_flatMap]
    rfl

theorem mem_rowCopies {p : UInt32 × UInt32} (short : rowBytes fb < 2 ^ 32) : p ∈ rowCopies fb ↔
    ∃ y < fb.height, ∃ i : UInt32, i.toNat < rowBytes fb ∧
      p = (fb.addr + y * fb.pitch + i, fb.backbuffer + y * fb.backbufferPitch + i) := by
  simp only [rowCopies, List.mem_flatMap, List.mem_map, List.mem_range]
  constructor
  · rintro ⟨y, inside, i, small, rfl⟩
    refine ⟨.ofNat y, ?_, .ofNat i, ?_, rfl⟩
    · rwa [UInt32.lt_iff_toNat_lt, toNat_ofNat_lt inside]
    · rwa [UInt32.toNat_ofNat', Nat.mod_eq_of_lt (Nat.lt_trans small short)]
  · rintro ⟨y, inside, i, small, rfl⟩
    refine ⟨y.toNat, UInt32.lt_iff_toNat_lt.mp inside, i.toNat, small, ?_⟩
    rw [UInt32.ofNat_toNat, UInt32.ofNat_toNat]

/-- Rows that fit do not wrap around the address space. -/
theorem rowOffset_toNat (row : rowBytes fb ≤ fb.pitch.toNat) (size : fb.pitch.toNat * fb.height.toNat ≤ 2 ^ 32)
    {y i : UInt32} (inside : y < fb.height) (small : i.toNat < rowBytes fb) :
    (y * fb.pitch + i).toNat = i.toNat + fb.pitch.toNat * y.toNat := by
  have rows : fb.pitch.toNat * (y.toNat + 1) ≤ fb.pitch.toNat * fb.height.toNat :=
    Nat.mul_le_mul_left _ (UInt32.lt_iff_toNat_lt.mp inside)
  rw [Nat.mul_succ] at rows
  rw [UInt32.toNat_add, UInt32.toNat_mul, Nat.mod_add_mod, Nat.mul_comm y.toNat,
    Nat.mod_eq_of_lt (by omega), Nat.add_comm]

/-- The place of a byte in them is determined by its address. -/
theorem rowOffset_inj (row : rowBytes fb ≤ fb.pitch.toNat) (size : fb.pitch.toNat * fb.height.toNat ≤ 2 ^ 32)
    {y y' i i' : UInt32} (inside : y < fb.height) (inside' : y' < fb.height) (small : i.toNat < rowBytes fb)
    (small' : i'.toNat < rowBytes fb) (same : y * fb.pitch + i = y' * fb.pitch + i') : y = y' ∧ i = i' := by
  have naturals := congrArg UInt32.toNat same
  rw [rowOffset_toNat row size inside small, rowOffset_toNat row size inside' small'] at naturals
  have columns := congrArg (· % fb.pitch.toNat) naturals
  simp only [Nat.add_mul_mod_self_left] at columns
  rw [Nat.mod_eq_of_lt (by omega), Nat.mod_eq_of_lt (by omega)] at columns
  have rows : fb.pitch.toNat * y.toNat = fb.pitch.toNat * y'.toNat := by omega
  have rows' := Nat.eq_of_mul_eq_mul_left (by omega) rows
  exact ⟨UInt32.toNat_inj.mp rows', UInt32.toNat_inj.mp columns⟩

/-- Rows that fit, equal pitches or a single row. -/
theorem layout_of (fits : (rowBytes fb ≤ fb.pitch.toNat ∧ fb.pitch.toNat * fb.height.toNat ≤ 2 ^ 32) ∨
    fb.backbufferPitch = fb.pitch ∨ fb.height = 1) : Layout fb := by
  intro y i y' i' inside small inside' small' same
  rcases fits with ⟨row, size⟩ | equal | one
  · obtain ⟨rfl, rfl⟩ := rowOffset_inj row size inside inside' small small' same
    rfl
  · rw [equal]
    exact same
  · rw [one, UInt32.lt_one_iff] at inside inside'
    rw [inside, inside', UInt32.zero_mul, UInt32.add_right_inj] at same
    rw [inside, inside', same]

/-- A row that is longer than the address space has no room beside it. -/
theorem rowBytes_lt (apart : Apart fb) (some : fb.height ≠ 0) : rowBytes fb < 2 ^ 32 := by
  by_contra long
  have pixels : 0 < rowBytes fb := Nat.lt_of_lt_of_le (by decide) (Nat.not_lt.mp long)
  have row : 0 < fb.height := UInt32.pos_iff_ne_zero.mpr some
  have column : 0 < fb.width := UInt32.lt_iff_toNat_lt.mpr (Nat.pos_of_mul_pos_right pixels)
  have byte : 0 < fb.bppBytes := UInt32.lt_iff_toNat_lt.mpr (Nat.pos_of_mul_pos_left pixels)
  refine apart (pixelAt fb 0 0 + 0) ⟨0, column, 0, row, 0, byte, rfl⟩
    ⟨0, row, pixelAt fb 0 0 - fb.addr, .inr ?_, ?_⟩
  · exact Nat.lt_of_lt_of_le (UInt32.toNat_lt _) (Nat.not_lt.mp long)
  · grind

/-- A byte of a visible row of the target belongs to one of its pixels. -/
theorem rowByte_onSurface (set : fb.backbuffer ≠ 0) {y i : UInt32} (inside : y < fb.height)
    (small : i.toNat < rowBytes fb) :
    OnSurface fb (fb.backbuffer + y * fb.backbufferPitch + i) := by
  have positive : 0 < fb.bppBytes.toNat := by
    apply Nat.pos_of_ne_zero
    intro zero
    simp [rowBytes, zero] at small
  have column := (Nat.div_lt_iff_lt_mul positive).mpr small
  have byte := Nat.mod_lt i.toNat positive
  refine ⟨.ofNat (i.toNat / fb.bppBytes.toNat), ?_, y, inside, .ofNat (i.toNat % fb.bppBytes.toNat),
    ?_, ?_⟩
  · rwa [UInt32.lt_iff_toNat_lt, toNat_ofNat_lt column]
  · rwa [UInt32.lt_iff_toNat_lt, toNat_ofNat_lt byte]
  · have parts : .ofNat (i.toNat / fb.bppBytes.toNat) * fb.bppBytes +
        .ofNat (i.toNat % fb.bppBytes.toNat) = i := by
      apply UInt32.toNat_inj.mp
      rw [UInt32.toNat_add, UInt32.toNat_mul, toNat_ofNat_lt column, toNat_ofNat_lt byte,
        Nat.mod_add_mod, Nat.div_add_mod', Nat.mod_eq_of_lt i.toNat_lt]
    rw [pixelAt, fbTargetBase, fbTargetPitch, if_pos set, if_pos set, UInt32.add_assoc _ (_ * _) (.ofNat _),
      parts]

theorem rowByte_hardware {y i : UInt32} (inside : y < fb.height) (small : i.toNat < rowBytes fb) :
    Hardware fb (fb.addr + y * fb.pitch + i) :=
  ⟨y, inside, i, .inr small, rfl⟩

/-- After a flush the visible rows show the back buffer, and nothing else has changed. -/
theorem flush_shows (available : fb.available = true) (set : fb.backbuffer ≠ 0) (layout : Layout fb)
    (apart : Apart fb) : Shows fb (run (framebufferFlush fb) m) ∧
      ∀ a, Outside fb a → run (framebufferFlush fb) m a = m a := by
  by_cases none : fb.height = 0
  · have nothing : framebufferFlush fb = [] := by
      rw [framebufferFlush, if_neg (by simp [available, set])]
      simp [none, below, upTo]
    rw [nothing]
    refine ⟨fun y inside => ?_, fun _ _ => rfl⟩
    rw [none] at inside
    exact absurd inside UInt32.not_lt_zero
  have short := rowBytes_lt apart none
  rw [flush_eq available set short]
  have outside : ∀ a, Outside fb a → run ((rowCopies fb).map fun p => copy p.1 p.2) m a = m a := by
    intro a outside
    apply run_frame
    intro s member same
    obtain ⟨p, stored, rfl⟩ := List.mem_map.mp member
    obtain ⟨y, inside, i, small, rfl⟩ := (mem_rowCopies short).mp stored
    exact outside y inside i small same.symm
  refine ⟨fun y inside i small => ?_, outside⟩
  have source : Outside fb (fb.backbuffer + y * fb.backbufferPitch + i) := by
    intro y' inside' i' small' same
    exact apart _ (rowByte_onSurface set inside small) (same ▸ rowByte_hardware inside' small')
  rw [outside _ source]
  have stored := (mem_rowCopies short).mpr ⟨y, inside, i, small, rfl⟩
  refine run_copies ?_ ?_ m stored
  · intro p here q there
    obtain ⟨y, inside, i, small, rfl⟩ := (mem_rowCopies short).mp here
    obtain ⟨y', inside', i', small', rfl⟩ := (mem_rowCopies short).mp there
    intro same
    have target : Hardware fb (fb.backbuffer + y' * fb.backbufferPitch + i') := by
      rw [← show _ = fb.backbuffer + y' * fb.backbufferPitch + i' from same]
      exact rowByte_hardware inside small
    exact apart _ (rowByte_onSurface set inside' small') target
  · intro p here q there same
    obtain ⟨y, inside, i, small, rfl⟩ := (mem_rowCopies short).mp here
    obtain ⟨y', inside', i', small', rfl⟩ := (mem_rowCopies short).mp there
    have offsets : y * fb.pitch + i = y' * fb.pitch + i' := by
      dsimp only at same
      grind
    have sources := layout inside small inside' small' offsets
    dsimp only
    rw [UInt32.add_assoc, UInt32.add_assoc, sources]

/-- With a back buffer set, any sequence of calls that spare the hardware leaves it
alone, and a flush behind it makes the visible rows those of the back buffer and
changes nothing else. -/
theorem double_buffering (fb : FbInfo) (buf pitch : UInt32) (available : fb.available = true)
    (set : buf ≠ 0) (apart : Apart (framebufferSetBackbuffer fb buf pitch))
    (layout : Layout (framebufferSetBackbuffer fb buf pitch)) (calls : List DrawCall)
    (spares : ∀ call ∈ calls, Spares (framebufferSetBackbuffer fb buf pitch) call)
    (m : UInt32 → UInt8) :
    let fb := framebufferSetBackbuffer fb buf pitch
    let drawn := run (calls.flatMap (DrawCall.draw fb)) m
    let flushed := run (framebufferFlush fb) drawn
    (∀ a, Hardware fb a → drawn a = m a) ∧ Shows fb flushed ∧ ∀ a, Outside fb a → flushed a = drawn a := by
  refine ⟨fun a hardware => draws_spare apart calls spares hardware, ?_⟩
  exact flush_shows available set layout apart

/-- A framebuffer of a single row of 8 pixels. -/
def rowFb : FbInfo := { smallFb with height := 1 }

/-- A back buffer at 0x2000 for it. -/
theorem rowFb_apart : Apart (framebufferSetBackbuffer rowFb 0x2000 32) := by
  rintro a ⟨x, inside, y, inside', b, byte, rfl⟩ ⟨y', row, i, small, same⟩
  have rows : y = 0 ∧ y' = 0 := ⟨UInt32.lt_one_iff.mp inside', UInt32.lt_one_iff.mp row⟩
  obtain ⟨rfl, rfl⟩ := rows
  have column : x.toNat < 8 := UInt32.lt_iff_toNat_lt.mp inside
  have byte' : b.toNat < 4 := UInt32.lt_iff_toNat_lt.mp byte
  have small' : i.toNat < 32 := small.elim UInt32.lt_iff_toNat_lt.mp id
  have addresses : 0x2000 + 0 * 32 + x * 4 + b = 0x1000 + 0 * 32 + i := same
  have naturals := congrArg UInt32.toNat addresses
  simp only [UInt32.toNat_add, UInt32.toNat_mul, UInt32.toNat_ofNat, UInt32.zero_mul] at naturals
  omega

theorem rowFb_layout : Layout (framebufferSetBackbuffer rowFb 0x2000 32) := layout_of (.inr (.inr rfl))

theorem double_buffering_row :
    let fb := framebufferSetBackbuffer rowFb 0x2000 32
    let drawn := run ([.clear 0x00FFFFFF].flatMap (DrawCall.draw fb)) fun _ => 0
    let flushed := run (framebufferFlush fb) drawn
    (∀ a, Hardware fb a → drawn a = (fun _ => 0) a) ∧ Shows fb flushed ∧
      ∀ a, Outside fb a → flushed a = drawn a :=
  double_buffering rowFb 0x2000 32 rfl (by decide) rowFb_apart rowFb_layout [.clear 0x00FFFFFF]
    (fun call member => by
      rw [List.mem_singleton.mp member]
      trivial)
    fun _ => 0

/-- The gradient of a single row is drawn to the hardware at once. -/
theorem gradient_reaches_hardware :
    Apart (framebufferSetBackbuffer rowFb 0x2000 32) ∧
      Layout (framebufferSetBackbuffer rowFb 0x2000 32) ∧
      Hardware (framebufferSetBackbuffer rowFb 0x2000 32) 0x1000 ∧
      run ((DrawCall.fillGradientVert 0x00FFFFFF 0).draw (framebufferSetBackbuffer rowFb 0x2000 32))
        (fun _ => 0) 0x1000 ≠ 0 := by
  refine ⟨rowFb_apart, rowFb_layout, ⟨0, by decide, 0, .inl (by decide), by decide⟩, ?_⟩
  decide +kernel

end ZynthexOS.DoubleBuffering
