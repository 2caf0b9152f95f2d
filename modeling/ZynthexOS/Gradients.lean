import ZynthexOS.Filling
import ZynthexOS.Lib.Bits
import ZynthexOS.Lib.Checked

/-! The vertical gradient. A channel that falls is brought down by adding a negative
change modulo 256; the result is the truncated interpolation between the two ends, as
for one that rises. -/
namespace ZynthexOS.Gradients
open Video Lib.Stores Lib.Checked DrawingBounds Filling

/-- A channel of a colour. -/
def channel (argb shift : UInt32) : UInt8 := (argb >>> shift &&& 0xFF).toUInt8

/-- What `framebuffer_fill_gradient_vert` adds to the top channel, with checked `int`
operations. -/
def channelChange (top bottom : UInt8) (y height : UInt32) : Option Int32 := do
  let difference ← sub bottom.toUInt32.toInt32 top.toUInt32.toInt32
  let product ← mul difference y.toInt32
  div product (height - 1).toInt32

/-- The colour that it passes to `fb_pack_color` for a row. -/
def rowColor (topArgb bottomArgb height y : UInt32) : UInt32 :=
  let part := fun shift => gradientPart topArgb bottomArgb shift y height <<< shift
  part 16 ||| part 8 ||| part 0

/-! ## Interpolation -/

/-- The part of a size that `y` of `last` steps make, rounded down. -/
def share (size y last : Nat) : Nat := size * y / last

theorem share_le (inside : y ≤ last) (size : Nat) : share size y last ≤ size := by
  rcases Nat.eq_zero_or_pos last with none | positive
  · simp [share, none]
  · rw [share, Nat.div_le_iff_le_mul_add_pred positive, Nat.mul_comm last]
    exact Nat.le_add_right_of_le (Nat.mul_le_mul_left size inside)

theorem share_mono (size last : Nat) (later : y ≤ y') : share size y last ≤ share size y' last :=
  Nat.div_le_div_right (Nat.mul_le_mul_left size later)

theorem share_zero (size last : Nat) : share size 0 last = 0 := by simp [share]

theorem share_last (size : Nat) (positive : 0 < last) : share size last last = size :=
  Nat.mul_div_cancel size positive

/-- From one value towards another by a share of their distance. -/
def mix (top bottom y last : Nat) : Nat :=
  if top ≤ bottom then top + share (bottom - top) y last else top - share (top - bottom) y last

/-- The truncated quotient gives the share with the sign of the distance. -/
theorem mix_eq (inside : y ≤ last) (top bottom : Nat) :
    (mix top bottom y last : Int) = top + (((bottom : Int) - top) * y).tdiv last := by
  rw [mix]
  split_ifs with rising
  · have distance : (bottom : Int) - top = (bottom - top : Nat) := by omega
    rw [distance, ← Int.natCast_mul, ← Int.ofNat_tdiv, share]
    push_cast
    rfl
  · have distance : (bottom : Int) - top = -(top - bottom : Nat) := by omega
    have less := share_le inside (top - bottom)
    rw [distance, Int.neg_mul, Int.neg_tdiv, ← Int.natCast_mul, ← Int.ofNat_tdiv]
    rw [share] at less ⊢
    omega

theorem mix_zero (top bottom last : Nat) : mix top bottom 0 last = top := by
  simp [mix, share_zero]

theorem mix_last (top bottom : Nat) (positive : 0 < last) : mix top bottom last last = bottom := by
  rw [mix, share_last _ positive, share_last _ positive]
  split_ifs <;> omega

theorem mix_between (inside : y ≤ last) (top bottom : Nat) :
    min top bottom ≤ mix top bottom y last ∧ mix top bottom y last ≤ max top bottom := by
  have up := share_le inside (bottom - top)
  have down := share_le inside (top - bottom)
  rw [mix]
  split_ifs <;> omega

theorem mix_rises (rising : top ≤ bottom) (later : y ≤ y') (last : Nat) :
    mix top bottom y last ≤ mix top bottom y' last := by
  have more := share_mono (bottom - top) last later
  rw [mix, mix, if_pos rising, if_pos rising]
  omega

theorem mix_falls (falling : bottom ≤ top) (later : y ≤ y') (last : Nat) :
    mix top bottom y' last ≤ mix top bottom y last := by
  have more := share_mono (top - bottom) last later
  rw [mix, mix]
  split_ifs with rising
  · rw [Nat.le_antisymm falling rising, Nat.sub_self, share, share]
    simp
  · omega

/-! ## A channel of a row -/

theorem toInt32_eq (v : UInt32) : v.toInt32 = .ofInt v.toNat := by
  rw [Int32.ofInt_eq_ofNat, ← UInt32.toInt32_ofNat', UInt32.ofNat_toNat]

theorem byte_toInt32 (b : UInt8) : b.toUInt32.toInt32 = .ofInt b.toNat := by
  rw [toInt32_eq, UInt8.toNat_toUInt32]

theorem pred_toInt32 {height : UInt32} (two : 2 ≤ height.toNat) :
    (height - 1).toInt32 = .ofInt ((height.toNat : Int) - 1) := by
  have one : (1 : UInt32).toNat = 1 := rfl
  rw [toInt32_eq, UInt32.toNat_sub_of_le _ _ (UInt32.le_iff_toNat_le.mpr (by omega)), one,
    Int.ofNat_sub (by omega)]
  rfl

/-- The product of the distance of two channels and a row number is below 2^31. -/
theorem product_size {top bottom y : Nat} (small : top < 256) (small' : bottom < 256)
    (inside : y < 2 ^ 23) : (((bottom : Int) - top) * y).natAbs < 2 ^ 31 := by
  have distance : ((bottom : Int) - top).natAbs ≤ 255 := by omega
  have rows : y ≤ 2 ^ 23 - 1 := by omega
  have size := Nat.mul_le_mul distance rows
  rw [Int.natAbs_mul, Int.natAbs_natCast]
  omega

variable {fb : FbInfo} {top bottom : UInt8} {height y shift : UInt32}

/-- The `int` operations for a row do not overflow. -/
theorem channelChange_eq (top bottom : UInt8) (two : 2 ≤ height.toNat)
    (most : height.toNat ≤ 2 ^ 23) (inside : y.toNat < height.toNat) :
    channelChange top bottom y height =
      some (.ofInt ((((bottom.toNat : Int) - top.toNat) * y.toNat).tdiv (height.toNat - 1))) := by
  have small := top.toNat_lt
  have small' := bottom.toNat_lt
  have range {v : Int} (least : -2 ^ 31 ≤ v) (most : v < 2 ^ 31) : InRange v := ⟨least, most⟩
  have size := product_size small small' (y := y.toNat) (by omega)
  have size' := Int.natAbs_tdiv_le_natAbs (((bottom.toNat : Int) - top.toNat) * y.toNat) (height.toNat - 1)
  have product : InRange (((bottom.toNat : Int) - top.toNat) * y.toNat) := by
    rw [InRange]
    omega
  rw [channelChange, byte_toInt32, byte_toInt32, toInt32_eq y, pred_toInt32 two]
  simp only [Option.bind_eq_bind]
  rw [sub_ofInt (range (by omega) (by omega)) (range (by omega) (by omega)) (range (by omega) (by omega)),
    Option.bind_some, mul_ofInt (range (by omega) (by omega)) (range (by omega) (by omega)) product,
    Option.bind_some,
    div_ofInt product (range (by omega) (by omega)) (by omega) (range (by omega) (by omega))]

/-- The channel that is packed, by the change that is added to the top one. -/
theorem gradientPart_eq {topArgb bottomArgb shift : UInt32} {change : Int32}
    (defined : channelChange (channel topArgb shift) (channel bottomArgb shift) y height = some change) :
    gradientPart topArgb bottomArgb shift y height =
      (channel topArgb shift + change.toUInt32.toUInt8).toUInt32 := by
  simp only [channelChange, Option.bind_eq_bind, Option.bind_eq_some_iff] at defined
  obtain ⟨difference, first, product, second, third⟩ := defined
  rw [div_eq third, mul_eq second, sub_eq first]
  rfl

/-- A change between the channels does not leave the 8 bits, though it may wrap in them. -/
theorem add_change (base : UInt8) (change : Int) (least : 0 ≤ base.toNat + change)
    (most : base.toNat + change < 256) :
    ((base + (Int32.ofInt change).toUInt32.toUInt8).toNat : Int) = base.toNat + change := by
  have low : (Int32.ofInt change).toUInt32.toUInt8.toNat = (change % 2 ^ 32).toNat % 256 := by
    rw [UInt32.toNat_toUInt8]
    rfl
  rw [UInt8.toNat_add, low]
  omega

theorem gradientPart_toNat (topArgb bottomArgb shift : UInt32) (two : 2 ≤ height.toNat)
    (most : height.toNat ≤ 2 ^ 23) (inside : y.toNat < height.toNat) :
    (gradientPart topArgb bottomArgb shift y height).toNat =
      mix (channel topArgb shift).toNat (channel bottomArgb shift).toNat y.toNat (height.toNat - 1) := by
  have within : y.toNat ≤ height.toNat - 1 := by omega
  have mixed := mix_eq within (channel topArgb shift).toNat (channel bottomArgb shift).toNat
  have between := mix_between within (channel topArgb shift).toNat (channel bottomArgb shift).toNat
  have small := (channel topArgb shift).toNat_lt
  have small' := (channel bottomArgb shift).toNat_lt
  rw [Int.ofNat_sub (by omega), Int.ofNat_one] at mixed
  rw [gradientPart_eq (channelChange_eq _ _ two most inside), UInt8.toNat_toUInt32]
  apply Int.ofNat_inj.mp
  rw [mixed]
  exact add_change _ _ (by omega) (by omega)

/-! ## The colour of a row -/

theorem channel_toNat (argb shift : UInt32) :
    (channel argb shift).toNat = argb.toNat / 2 ^ (shift.toNat % 32) % 2 ^ 8 := by
  have mask : (0xFF : UInt32).toNat = 2 ^ 8 - 1 := rfl
  rw [channel, UInt32.toNat_toUInt8, UInt32.toNat_and, UInt32.toNat_shiftRight, mask,
    Nat.and_two_pow_sub_one_eq_mod, Nat.shiftRight_eq_div_pow, Nat.mod_mod]

/-- Three bytes packed into a colour. -/
theorem pack_toNat {r g b : UInt32} (red : r.toNat < 2 ^ 8) (green : g.toNat < 2 ^ 8)
    (blue : b.toNat < 2 ^ 8) :
    (r <<< 16 ||| g <<< 8 ||| b <<< 0).toNat = r.toNat * 2 ^ 16 + g.toNat * 2 ^ 8 + b.toNat := by
  have place (v n : UInt32) (small : v.toNat < 2 ^ 8) (low : n.toNat ≤ 16) :
      (v <<< n).toNat = v.toNat * 2 ^ n.toNat := by
    have size : v.toNat * 2 ^ n.toNat < 2 ^ 8 * 2 ^ 16 :=
      Nat.mul_lt_mul_of_lt_of_le small (Nat.pow_le_pow_right (by omega) low) (by positivity)
    have shift : n.toNat % 32 = n.toNat := Nat.mod_eq_of_lt (by omega)
    rw [UInt32.toNat_shiftLeft, shift, Nat.shiftLeft_eq, Nat.mod_eq_of_lt (by omega)]
  rw [UInt32.toNat_or, UInt32.toNat_or, place r 16 red (by decide), place g 8 green (by decide),
    place b 0 blue (by decide)]
  change (r.toNat * 2 ^ 16 ||| g.toNat * 2 ^ 8) ||| b.toNat * 2 ^ 0 = _
  have above : r.toNat * 2 ^ 16 ||| g.toNat * 2 ^ 8 = r.toNat * 2 ^ 16 + g.toNat * 2 ^ 8 :=
    Lib.Bits.or_low (Nat.mul_mod_left _ _) (by omega)
  rw [above, Nat.pow_zero, Nat.mul_one, Lib.Bits.or_low (k := 8) (by omega) blue]

/-- The channels of three packed bytes. -/
theorem channel_pack (part : UInt32 → UInt32) (small : ∀ shift, (part shift).toNat < 2 ^ 8)
    (place : shift = 16 ∨ shift = 8 ∨ shift = 0) :
    channel (part 16 <<< 16 ||| part 8 <<< 8 ||| part 0 <<< 0) shift = (part shift).toUInt8 := by
  have red := small 16
  have green := small 8
  have blue := small 0
  apply UInt8.toNat_inj.mp
  rw [channel_toNat, pack_toNat red green blue, UInt32.toNat_toUInt8]
  rcases place with rfl | rfl | rfl
  · change _ / 2 ^ 16 % _ = _
    omega
  · change _ / 2 ^ 8 % _ = _
    omega
  · change _ / 2 ^ 0 % _ = _
    omega

theorem gradientPart_lt (topArgb bottomArgb shift y height : UInt32) :
    (gradientPart topArgb bottomArgb shift y height).toNat < 2 ^ 8 := by
  rw [gradientPart, UInt8.toNat_toUInt32]
  exact UInt8.toNat_lt _

/-- The places of the channels in a colour. -/
def Place (shift : UInt32) : Prop := shift = 16 ∨ shift = 8 ∨ shift = 0

/-- A channel of the colour of a row. -/
theorem channel_rowColor (place : Place shift) (topArgb bottomArgb : UInt32) (two : 2 ≤ height.toNat)
    (most : height.toNat ≤ 2 ^ 23) (inside : y.toNat < height.toNat) :
    (channel (rowColor topArgb bottomArgb height y) shift).toNat =
      mix (channel topArgb shift).toNat (channel bottomArgb shift).toNat y.toNat (height.toNat - 1) := by
  have small := gradientPart_lt topArgb bottomArgb shift y height
  rw [← gradientPart_toNat topArgb bottomArgb shift two most inside, rowColor]
  dsimp only
  rw [channel_pack (fun shift => gradientPart topArgb bottomArgb shift y height)
    (fun shift => gradientPart_lt topArgb bottomArgb shift y height) place]
  rw [UInt32.toNat_toUInt8, Nat.mod_eq_of_lt small]

/-- Only the channels of a colour are packed. -/
theorem fbPackColor_congr {a b : UInt32} (same : ∀ shift, Place shift → channel a shift = channel b shift)
    (fb : FbInfo) : fbPackColor fb a = fbPackColor fb b := by
  have mask : (0xFF : UInt32).toNat = 2 ^ 8 - 1 := rfl
  have part (c shift : UInt32) : c >>> shift &&& 0xFF = (channel c shift).toUInt32 := by
    apply UInt32.toNat_inj.mp
    rw [UInt8.toNat_toUInt32, channel_toNat, UInt32.toNat_and, UInt32.toNat_shiftRight, mask,
      Nat.and_two_pow_sub_one_eq_mod, Nat.shiftRight_eq_div_pow]
  have low (c : UInt32) : c &&& 0xFF = c >>> (0 : UInt32) &&& 0xFF := by simp
  rw [fbPackColor, fbPackColor, low a, low b]
  simp only [part, same 16 (.inl rfl), same 8 (.inr (.inl rfl)), same 0 (.inr (.inr rfl))]

/-! ## The gradient -/

/-- What a channel does from the top row to the bottom one: no `int` operation
overflows, what is packed is the exact sum, the ends are met, and it goes from one to
the other without turning back. -/
structure ChannelLaw (top bottom : UInt8) (height : UInt32) (value : UInt32 → UInt8) : Prop where
  exact : ∀ y < height, ∃ change, channelChange top bottom y height = some change ∧
    ((value y).toNat : Int) = top.toNat + change.toInt
  first : value 0 = top
  last : value (height - 1) = bottom
  between : ∀ y < height, min top.toNat bottom.toNat ≤ (value y).toNat ∧
    (value y).toNat ≤ max top.toNat bottom.toNat
  rises : top ≤ bottom → ∀ y' < height, ∀ y ≤ y', value y ≤ value y'
  falls : bottom ≤ top → ∀ y' < height, ∀ y ≤ y', value y' ≤ value y

theorem channelLaw (place : Place shift) (topArgb bottomArgb : UInt32) (two : 2 ≤ height.toNat)
    (most : height.toNat ≤ 2 ^ 23) :
    ChannelLaw (channel topArgb shift) (channel bottomArgb shift) height
      fun y => channel (rowColor topArgb bottomArgb height y) shift := by
  have value {y : UInt32} := channel_rowColor (y := y) place topArgb bottomArgb two most
  have one : (1 : UInt32).toNat = 1 := rfl
  have pred : (height - 1).toNat = height.toNat - 1 := by
    rw [UInt32.toNat_sub_of_le _ _ (UInt32.le_iff_toNat_le.mpr (by omega)), one]
  have inside {y : UInt32} (below : y < height) : y.toNat < height.toNat :=
    UInt32.lt_iff_toNat_lt.mp below
  refine ⟨fun y below => ?_, ?_, ?_, fun y below => ?_, fun rising y' below y before => ?_,
    fun falling y' below y before => ?_⟩
  · have row := inside below
    have upTo : y.toNat ≤ height.toNat - 1 := by omega
    have mixed := mix_eq upTo
      (channel topArgb shift).toNat (channel bottomArgb shift).toNat
    have between := mix_between upTo
      (channel topArgb shift).toNat (channel bottomArgb shift).toNat
    have small := (channel topArgb shift).toNat_lt
    have small' := (channel bottomArgb shift).toNat_lt
    rw [Int.ofNat_sub (by omega), Int.ofNat_one] at mixed
    refine ⟨_, channelChange_eq _ _ two most row, ?_⟩
    rw [value row, mixed, toInt_ofInt ⟨by omega, by omega⟩]
  · apply UInt8.toNat_inj.mp
    rw [value (by change 0 < _; omega)]
    exact mix_zero _ _ _
  · apply UInt8.toNat_inj.mp
    rw [value (by omega), pred]
    exact mix_last _ _ (by omega)
  · have row := inside below
    rw [value row]
    exact mix_between (by omega) _ _
  · have row := inside below
    have earlier := UInt32.le_iff_toNat_le.mp before
    rw [UInt8.le_iff_toNat_le, value row, value (by omega)]
    exact mix_rises (UInt8.le_iff_toNat_le.mp rising) earlier _
  · have row := inside below
    have earlier := UInt32.le_iff_toNat_le.mp before
    rw [UInt8.le_iff_toNat_le, value row, value (by omega)]
    exact mix_falls (UInt8.le_iff_toNat_le.mp falling) earlier _

/-- A row of the screen is filled by one loop. -/
theorem fillRect_row (available : fb.available = true) (inside : y < fb.height) (argb : UInt32) :
    framebufferFillRect fb 0 y fb.width 1 argb = below fb.width fun x =>
      fbWritePixel (fbTargetBase fb + y * fbTargetPitch fb + x * fb.bppBytes) (fbPackColor fb argb)
        fb.bppBytes := by
  have single : clamp 1 (fb.height - y) = 1 := by
    apply UInt32.toNat_inj.mp
    have small := UInt32.lt_iff_toNat_lt.mp inside
    rw [clamp_toNat inside]
    change min 1 _ = 1
    omega
  rw [framebufferFillRect]
  dsimp only
  split_ifs with idle outside none
  · have none : fb.width = 0 := by
      rcases idle with unavailable | none | one
      · exact absurd available unavailable
      · exact none
      · exact absurd one (by decide)
    rw [none, below_zero]
  · have none : fb.width = 0 :=
      UInt32.le_zero_iff.mp (outside.resolve_right (UInt32.not_le.mpr inside))
    rw [none, below_zero]
  · refine (below_nil fun x => ?_).symm
    rw [none]
    rfl
  · rw [single, clamp_whole]
    change (below fb.width fun x => _) ++ [] = _
    rw [List.append_nil]
    refine below_congr fun x _ => ?_
    rw [corner_add, UInt32.zero_add]
    change fbWritePixel (_ + (y + 0) * _ + _) _ _ = _
    rw [UInt32.add_zero]

/-- The gradient fills one row after the other. -/
theorem fillGradientVert_eq (available : fb.available = true) (two : 2 ≤ fb.height.toNat)
    (topArgb bottomArgb : UInt32) :
    framebufferFillGradientVert fb topArgb bottomArgb = below fb.height fun y =>
      framebufferFillRect fb 0 y fb.width 1 (rowColor topArgb bottomArgb fb.height y) := by
  have some : fb.height ≠ 0 := by
    rintro none
    rw [none] at two
    exact absurd two (by decide)
  have more : fb.height ≠ 1 := by
    rintro one
    rw [one] at two
    exact absurd two (by decide)
  rw [framebufferFillGradientVert, if_neg (not_not.mpr available)]
  dsimp only
  rw [if_pos some, if_neg more]
  split_ifs with none
  · refine (below_nil fun y => ?_).symm
    rw [framebufferFillRect]
    simp [none]
  · refine below_congr fun y inside => ?_
    rw [fillRect_row available inside]
    rfl

/-- On two rows or more the gradient fills the first with the top colour, the last with
the bottom one, and goes from one to the other in each channel. -/
theorem gradient_monotone (available : fb.available = true) (two : 2 ≤ fb.height.toNat)
    (most : fb.height.toNat ≤ 2 ^ 23) (topArgb bottomArgb : UInt32) :
    (framebufferFillGradientVert fb topArgb bottomArgb = below fb.height fun y =>
      framebufferFillRect fb 0 y fb.width 1 (rowColor topArgb bottomArgb fb.height y)) ∧
    framebufferFillRect fb 0 0 fb.width 1 (rowColor topArgb bottomArgb fb.height 0) =
      framebufferFillRect fb 0 0 fb.width 1 topArgb ∧
    framebufferFillRect fb 0 (fb.height - 1) fb.width 1
        (rowColor topArgb bottomArgb fb.height (fb.height - 1)) =
      framebufferFillRect fb 0 (fb.height - 1) fb.width 1 bottomArgb ∧
    ∀ shift, Place shift → ChannelLaw (channel topArgb shift) (channel bottomArgb shift) fb.height
      fun y => channel (rowColor topArgb bottomArgb fb.height y) shift := by
  have law {shift : UInt32} (place : Place shift) := channelLaw place topArgb bottomArgb two most
  refine ⟨fillGradientVert_eq available two topArgb bottomArgb, ?_, ?_, fun shift place => law place⟩
  · rw [framebufferFillRect, framebufferFillRect,
      fbPackColor_congr (fun shift place => (law place).first) fb]
  · rw [framebufferFillRect, framebufferFillRect,
      fbPackColor_congr (fun shift place => (law place).last) fb]

/-- From red to blue on a screen of eight rows. -/
theorem gradient_monotone_smallFb :
    framebufferFillGradientVert smallFb 0xFF0000 0x0000FF = below smallFb.height fun y =>
      framebufferFillRect smallFb 0 y smallFb.width 1 (rowColor 0xFF0000 0x0000FF smallFb.height y) :=
  (gradient_monotone rfl (by decide) (by decide) 0xFF0000 0x0000FF).1

example : rowColor 0xFF0000 0x0000FF 8 3 = 0x92006D := by decide

end ZynthexOS.Gradients
