import ZynthexOS.Video.Framebuffer

/-! Where drawing calls store. A call that clips stores to pixels of the target only. A
glyph is not clipped, and a gradient of at most one row is drawn to the hardware,
at least one row of it. -/
namespace ZynthexOS.DrawingBounds
open Video Lib.Stores Text

/-- The first byte of a pixel of the target. -/
def pixelAt (fb : FbInfo) (x y : UInt32) : UInt32 :=
  fbTargetBase fb + y * fbTargetPitch fb + x * fb.bppBytes

/-- A byte of a pixel of the target. -/
def OnSurface (fb : FbInfo) (a : UInt32) : Prop :=
  ∃ x < fb.width, ∃ y < fb.height, ∃ b < fb.bppBytes, a = pixelAt fb x y + b

/-- An available framebuffer of 16, 24 or 32 bits for each pixel, whose rows fit into
the pitch of the target and whose target fits into the address space. -/
structure Surface (fb : FbInfo) : Prop where
  available : fb.available = true
  depth : fb.bpp = 16 ∨ fb.bpp = 24 ∨ fb.bpp = 32
  row : fb.width.toNat * fb.bpp.toNat / 8 ≤ (fbTargetPitch fb).toNat
  size : (fbTargetPitch fb).toNat * fb.height.toNat < 2 ^ 32

/-! ## Loops and pixels -/

variable {fb : FbInfo} {P : UInt32 → Prop} {x y : UInt32} {c : UInt8}

theorem forall_below {P : Store UInt32 UInt8 → Prop} {n : UInt32} {body : UInt32 → Drawing} :
    (∀ s ∈ below n body, P s) ↔ ∀ i < n, ∀ s ∈ body i, P s := by
  rw [below, forall_upTo]
  constructor
  · intro all i small
    have round := all i.toNat (UInt32.lt_iff_toNat_lt.mp small)
    rwa [UInt32.ofNat_toNat] at round
  · intro all i small
    have bound := n.toNat_lt
    apply all
    rw [UInt32.lt_iff_toNat_lt, UInt32.toNat_ofNat', Nat.mod_eq_of_lt (by omega)]
    exact small

theorem forall_pixelBytes {dst packed n : UInt32} :
    (∀ s ∈ pixelBytes dst packed n.toNat, P s.address) ↔ ∀ b < n, P (dst + b) := by
  simp only [pixelBytes, List.forall_mem_map, List.mem_range, const]
  constructor
  · intro all b small
    have byte := all b.toNat (UInt32.lt_iff_toNat_lt.mp small)
    rwa [UInt32.ofNat_toNat] at byte
  · intro all b small
    have bound := n.toNat_lt
    apply all
    rw [UInt32.lt_iff_toNat_lt, UInt32.toNat_ofNat', Nat.mod_eq_of_lt (by omega)]
    exact small

/-- A pixel is written to the bytes from its address on. -/
theorem forall_writePixel_of {dst packed n : UInt32} (bytes : ∀ b < n, P (dst + b)) :
    ∀ s ∈ fbWritePixel dst packed n, P s.address := by
  unfold fbWritePixel
  split
  · exact forall_pixelBytes.mpr bytes
  · exact forall_pixelBytes.mpr bytes
  · exact forall_pixelBytes.mpr bytes
  · simp

/-- The pixels of a target are written completely. -/
theorem forall_writePixel {dst packed n : UInt32} (size : n = 2 ∨ n = 3 ∨ n = 4) :
    (∀ s ∈ fbWritePixel dst packed n, P s.address) ↔ ∀ b < n, P (dst + b) := by
  rcases size with rfl | rfl | rfl
  · exact forall_pixelBytes (n := 2)
  · exact forall_pixelBytes (n := 3)
  · exact forall_pixelBytes (n := 4)

/-- A pixel of the target stays on the surface. -/
theorem writePixel_onSurface {dst packed : UInt32} (inside : x < fb.width) (inside' : y < fb.height)
    (address : dst = pixelAt fb x y) :
    ∀ s ∈ fbWritePixel dst packed fb.bppBytes, OnSurface fb s.address := by
  apply forall_writePixel_of
  intro b small
  exact ⟨x, inside, y, inside', b, small, by rw [address]⟩

/-! ## The calls that clip -/

theorem clear_onSurface (fb : FbInfo) (argb : UInt32) :
    ∀ s ∈ framebufferClear fb argb, OnSurface fb s.address := by
  rw [framebufferClear]
  split_ifs
  · simp only [forall_below]
    intro y inside' x inside
    exact writePixel_onSurface inside inside' rfl
  · simp

theorem lt_of_inside (inside : ¬ (x ≥ fb.width ∨ y ≥ fb.height)) : x < fb.width ∧ y < fb.height := by
  rwa [not_or, ge_iff_le, ge_iff_le, UInt32.not_le, UInt32.not_le] at inside

theorem putpixel_onSurface (fb : FbInfo) (x y argb : UInt32) :
    ∀ s ∈ framebufferPutpixel fb x y argb, OnSurface fb s.address := by
  rw [framebufferPutpixel]
  split_ifs with unavailable outside empty <;> try simp
  obtain ⟨inside, inside'⟩ := lt_of_inside outside
  exact writePixel_onSurface inside inside' rfl

/-- What is left of a width that starts at `x` ends before the surface does. -/
theorem add_lt_of_clamp {width x w i : UInt32} (inside : x < width) (small : i < clamp w (width - x)) :
    x + i < width := by
  have shorter : clamp w (width - x) ≤ width - x := by
    rw [clamp]
    split_ifs with long
    · exact UInt32.le_refl _
    · exact UInt32.not_lt.mp long
  have rest : i < width - x := UInt32.lt_of_lt_of_le small shorter
  rw [UInt32.lt_iff_toNat_lt] at inside rest ⊢
  rw [UInt32.toNat_sub_of_le _ _ (UInt32.le_iff_toNat_le.mpr (Nat.le_of_lt inside))] at rest
  have bound := width.toNat_lt
  rw [UInt32.toNat_add, Nat.mod_eq_of_lt (by omega)]
  omega

theorem fillRect_onSurface (fb : FbInfo) (x y w h argb : UInt32) :
    ∀ s ∈ framebufferFillRect fb x y w h argb, OnSurface fb s.address := by
  rw [framebufferFillRect]
  dsimp only
  split_ifs with idle outside empty <;> try simp
  obtain ⟨inside, inside'⟩ := lt_of_inside outside
  simp only [forall_below]
  intro yy row xx column
  apply writePixel_onSurface (add_lt_of_clamp inside column) (add_lt_of_clamp inside' row)
  simp only [pixelAt]
  grind

theorem testPattern_onSurface (fb : FbInfo) :
    ∀ s ∈ framebufferTestPattern fb, OnSurface fb s.address := by
  rw [framebufferTestPattern]
  split_ifs
  · simp only [forall_below]
    exact fun i _ => fillRect_onSurface fb _ _ _ _ _
  · simp

theorem ringDot_onSurface (fb : FbInfo) (px py packed : UInt32) :
    ∀ s ∈ ringDot fb px py packed, OnSurface fb s.address := by
  rw [ringDot]
  split_ifs with inside right below below <;> try simp only [List.append_nil, forall_append]
  · refine ⟨⟨?_, ?_⟩, ?_⟩
    · exact writePixel_onSurface inside.1 inside.2 rfl
    · exact writePixel_onSurface right inside.2 rfl
    · exact writePixel_onSurface inside.1 below rfl
  · refine ⟨?_, ?_⟩
    · exact writePixel_onSurface inside.1 inside.2 rfl
    · exact writePixel_onSurface right inside.2 rfl
  · refine ⟨?_, ?_⟩
    · exact writePixel_onSurface inside.1 inside.2 rfl
    · exact writePixel_onSurface inside.1 below rfl
  · exact writePixel_onSurface inside.1 inside.2 rfl
  · simp

theorem progressRing_onSurface (fb : FbInfo) (cx cy radius steps active color : UInt32) :
    ∀ s ∈ framebufferProgressRing fb cx cy radius steps active color, OnSurface fb s.address := by
  rw [framebufferProgressRing]
  dsimp only
  split_ifs <;> try simp
  all_goals
    rw [forall_below]
    exact fun i _ => ringDot_onSurface fb _ _ _

theorem drawLine_onSurface (fb : FbInfo) (n : Nat) (x0 y0 x1 y1 : Int32) (argb : UInt32) :
    ∀ s ∈ framebufferDrawLine fb n x0 y0 x1 y1 argb, OnSurface fb s.address := by
  have loop (dx sx dy sy : Int32) : ∀ n x0 y0 err,
      ∀ s ∈ drawLineLoop fb argb x1 y1 dx sx dy sy n x0 y0 err, OnSurface fb s.address := by
    intro n
    induction n with
    | zero => simp [drawLineLoop]
    | succ n ih =>
      intro x0 y0 err
      rw [drawLineLoop, forall_append]
      refine ⟨putpixel_onSurface fb _ _ _, ?_⟩
      split_ifs
      · simp
      · exact ih _ _ _
  rw [framebufferDrawLine]
  by_cases unavailable : ¬ fb.available = true
  · rw [if_pos unavailable]
    simp
  · rw [if_neg unavailable]
    exact loop _ _ _ _ n x0 y0 _

/-- No more bytes of a pixel are copied than it has. -/
theorem copyBytesPerPixel_le (fb : FbInfo) (srcBpp : UInt8) :
    copyBytesPerPixel fb srcBpp ≤ fb.bppBytes := by
  have half (bpp : UInt8) : (bpp / 8).toUInt32.toNat = bpp.toNat / 8 := by
    rw [UInt8.toNat_toUInt32, UInt8.toNat_div]
    rfl
  have bound := fb.bpp.toNat_lt
  rw [copyBytesPerPixel]
  split_ifs with small none none'
  · exact UInt32.le_refl _
  · rw [UInt32.lt_iff_toNat_lt, UInt32.toNat_mul, FbInfo.bppBytes, half, UInt8.toNat_toUInt32] at small
    rw [UInt32.le_iff_toNat_le, FbInfo.bppBytes, half, half]
    have eight : (8 : UInt32).toNat = 8 := rfl
    rw [eight, Nat.mod_eq_of_lt (by omega)] at small
    omega
  · exact UInt32.le_refl _
  · exact UInt32.le_refl _

theorem blit_onSurface (fb : FbInfo) (dstX dstY w h src srcPitch : UInt32) (srcBpp : UInt8) :
    ∀ s ∈ framebufferBlit fb dstX dstY w h src srcPitch srcBpp, OnSurface fb s.address := by
  rw [framebufferBlit]
  dsimp only
  split_ifs with idle outside empty <;> try simp
  obtain ⟨inside, inside'⟩ := lt_of_inside outside
  simp only [forall_below]
  intro yy row xx column b byte s member
  rw [List.mem_singleton.mp member]
  refine ⟨dstX + xx, add_lt_of_clamp inside column, dstY + yy, add_lt_of_clamp inside' row, b,
    UInt32.lt_of_lt_of_le byte (copyBytesPerPixel_le fb srcBpp), ?_⟩
  simp only [copy, pixelAt]
  grind

/-! ## Offsets -/

/-- An offset from the base of the target that lies in a visible row. -/
def InSurface (fb : FbInfo) (o : UInt32) : Prop :=
  o.toNat % (fbTargetPitch fb).toNat < fb.width.toNat * fb.bppBytes.toNat ∧
    o.toNat / (fbTargetPitch fb).toNat < fb.height.toNat

instance (fb : FbInfo) (o : UInt32) : Decidable (InSurface fb o) :=
  inferInstanceAs (Decidable (_ ∧ _))

/-- An address whose offset does. -/
def Visible (fb : FbInfo) (a : UInt32) : Prop := InSurface fb (a - fbTargetBase fb)

theorem Surface.bytes (surface : Surface fb) :
    fb.bppBytes = 2 ∨ fb.bppBytes = 3 ∨ fb.bppBytes = 4 := by
  rcases surface.depth with depth | depth | depth <;> rw [FbInfo.bppBytes, depth] <;> decide

theorem Surface.bytes_pos (surface : Surface fb) : 0 < fb.bppBytes.toNat := by
  rcases surface.bytes with bytes | bytes | bytes <;> rw [bytes] <;> decide

theorem Surface.row_le (surface : Surface fb) :
    fb.width.toNat * fb.bppBytes.toNat ≤ (fbTargetPitch fb).toNat := by
  have row := surface.row
  rw [FbInfo.bppBytes]
  rcases surface.depth with depth | depth | depth <;> rw [depth] at row ⊢ <;>
    refine Nat.le_trans (Nat.le_of_eq ?_) row
  · change fb.width.toNat * 2 = fb.width.toNat * 16 / 8
    omega
  · change fb.width.toNat * 3 = fb.width.toNat * 24 / 8
    omega
  · change fb.width.toNat * 4 = fb.width.toNat * 32 / 8
    omega

theorem offset_toNat (y p x n b : UInt32) : (y * p + x * n + b).toNat =
    (y.toNat * p.toNat + x.toNat * n.toNat + b.toNat) % 2 ^ 32 := by
  rw [UInt32.toNat_add, UInt32.toNat_add, UInt32.toNat_mul, UInt32.toNat_mul]
  generalize y.toNat * p.toNat = rows
  generalize x.toNat * n.toNat = columns
  omega

theorem toNat_ofNat_lt {n : Nat} {bound : UInt32} (small : n < bound.toNat) :
    (UInt32.ofNat n).toNat = n := by
  have limit := bound.toNat_lt
  rw [UInt32.toNat_ofNat', Nat.mod_eq_of_lt (by omega)]

/-- A byte of a pixel does not reach into the next column. -/
theorem column_lt {x width b : Nat} (inside : x < width) (byte : b < bytes) :
    x * bytes + b < width * bytes :=
  calc x * bytes + b < x * bytes + bytes := by omega
    _ = (x + 1) * bytes := by rw [Nat.succ_mul]
    _ ≤ width * bytes := Nat.mul_le_mul_right _ inside

/-- Where a byte of a pixel lies behind the base of the target. -/
theorem Surface.offset (surface : Surface fb) {b : UInt32} (inside : x < fb.width) (inside' : y < fb.height)
    (byte : b < fb.bppBytes) :
    (y * fbTargetPitch fb + x * fb.bppBytes + b).toNat =
      (x.toNat * fb.bppBytes.toNat + b.toNat) + (fbTargetPitch fb).toNat * y.toNat := by
  have row := surface.row_le
  have size := surface.size
  rw [UInt32.lt_iff_toNat_lt] at inside inside' byte
  have column := column_lt inside byte
  have rows : y.toNat * (fbTargetPitch fb).toNat + (fbTargetPitch fb).toNat ≤
      (fbTargetPitch fb).toNat * fb.height.toNat := by
    rw [← Nat.succ_mul, Nat.mul_comm]
    exact Nat.mul_le_mul_left _ inside'
  rw [offset_toNat, Nat.mod_eq_of_lt (by omega), Nat.mul_comm (fbTargetPitch fb).toNat]
  omega

theorem OnSurface.inSurface (on : OnSurface fb (fbTargetBase fb + o)) (surface : Surface fb) :
    InSurface fb o := by
  obtain ⟨x, inside, y, inside', b, byte, address⟩ := on
  have row := surface.row_le
  have offset : o = y * fbTargetPitch fb + x * fb.bppBytes + b := by
    simp only [pixelAt] at address
    grind
  have value := surface.offset inside inside' byte
  rw [← offset] at value
  rw [UInt32.lt_iff_toNat_lt] at inside inside' byte
  have column := column_lt inside byte
  have short : x.toNat * fb.bppBytes.toNat + b.toNat < (fbTargetPitch fb).toNat := by omega
  refine ⟨?_, ?_⟩
  · rw [value, Nat.add_mul_mod_self_left, Nat.mod_eq_of_lt short]
    exact column
  · rw [value, Nat.add_mul_div_left _ _ (by omega), Nat.div_eq_of_lt short, Nat.zero_add]
    exact inside'

/-- Different bytes of the target have different addresses. -/
theorem pixelByte_inj (surface : Surface fb) {x' y' b b' : UInt32} (inside : x < fb.width)
    (inside' : y < fb.height) (byte : b < fb.bppBytes) (within : x' < fb.width) (within' : y' < fb.height)
    (byte' : b' < fb.bppBytes) (same : pixelAt fb x y + b = pixelAt fb x' y' + b') :
    x = x' ∧ y = y' ∧ b = b' := by
  have row := surface.row_le
  have offsets : y * fbTargetPitch fb + x * fb.bppBytes + b =
      y' * fbTargetPitch fb + x' * fb.bppBytes + b' := by
    simp only [pixelAt] at same
    grind
  have naturals := congrArg UInt32.toNat offsets
  rw [surface.offset inside inside' byte, surface.offset within within' byte'] at naturals
  rw [UInt32.lt_iff_toNat_lt] at inside byte within byte'
  have column := column_lt inside byte
  have column' := column_lt within byte'
  have places := congrArg (· % (fbTargetPitch fb).toNat) naturals
  simp only [Nat.add_mul_mod_self_left] at places
  rw [Nat.mod_eq_of_lt (by omega), Nat.mod_eq_of_lt (by omega)] at places
  have rows : (fbTargetPitch fb).toNat * y.toNat = (fbTargetPitch fb).toNat * y'.toNat := by omega
  have bytes := congrArg (· % fb.bppBytes.toNat) places
  simp only [Nat.mul_add_mod_self_right] at bytes
  rw [Nat.mod_eq_of_lt byte, Nat.mod_eq_of_lt byte'] at bytes
  have columns : x.toNat * fb.bppBytes.toNat = x'.toNat * fb.bppBytes.toNat := by omega
  exact ⟨UInt32.toNat_inj.mp (Nat.eq_of_mul_eq_mul_right surface.bytes_pos columns),
    UInt32.toNat_inj.mp (Nat.eq_of_mul_eq_mul_left (by omega) rows), UInt32.toNat_inj.mp bytes⟩

theorem InSurface.onSurface (within : InSurface fb o) (surface : Surface fb) :
    OnSurface fb (fbTargetBase fb + o) := by
  obtain ⟨column, rows⟩ := within
  have positive := surface.bytes_pos
  have column' : o.toNat % (fbTargetPitch fb).toNat / fb.bppBytes.toNat < fb.width.toNat := by
    rw [Nat.div_lt_iff_lt_mul positive]
    exact column
  have byte : o.toNat % (fbTargetPitch fb).toNat % fb.bppBytes.toNat < fb.bppBytes.toNat :=
    Nat.mod_lt _ positive
  refine ⟨.ofNat (o.toNat % (fbTargetPitch fb).toNat / fb.bppBytes.toNat), ?_,
    .ofNat (o.toNat / (fbTargetPitch fb).toNat), ?_,
    .ofNat (o.toNat % (fbTargetPitch fb).toNat % fb.bppBytes.toNat), ?_, ?_⟩
  · rw [UInt32.lt_iff_toNat_lt, toNat_ofNat_lt column']
    exact column'
  · rw [UInt32.lt_iff_toNat_lt, toNat_ofNat_lt rows]
    exact rows
  · rw [UInt32.lt_iff_toNat_lt, toNat_ofNat_lt byte]
    exact byte
  · rw [pixelAt, UInt32.add_assoc, UInt32.add_assoc, ← UInt32.add_assoc (_ * _)]
    congr 1
    apply UInt32.toNat_inj.mp
    rw [offset_toNat, toNat_ofNat_lt column', toNat_ofNat_lt rows, toNat_ofNat_lt byte]
    have parts : o.toNat / (fbTargetPitch fb).toNat * (fbTargetPitch fb).toNat +
        (o.toNat % (fbTargetPitch fb).toNat / fb.bppBytes.toNat) * fb.bppBytes.toNat +
        o.toNat % (fbTargetPitch fb).toNat % fb.bppBytes.toNat = o.toNat := by
      rw [Nat.add_assoc, Nat.div_add_mod', Nat.div_add_mod']
    rw [parts, Nat.mod_eq_of_lt o.toNat_lt]

/-- The bytes of the surface, by their offsets. -/
theorem onSurface_iff (surface : Surface fb) (o : UInt32) :
    OnSurface fb (fbTargetBase fb + o) ↔ InSurface fb o :=
  ⟨fun on => on.inSurface surface, fun within => within.onSurface surface⟩

theorem onSurface_iff_visible (surface : Surface fb) : OnSurface fb = Visible fb := by
  funext a
  have offset : fbTargetBase fb + (a - fbTargetBase fb) = a := by grind
  rw [Visible, ← onSurface_iff surface, offset]

/-! ## The calls that do not clip -/

/-- What holds of all bytes of the pixels that are set in a glyph. -/
def GlyphAll (fb : FbInfo) (P : UInt32 → Prop) (x y : UInt32) (c : UInt8) : Prop :=
  ∀ row < 8, ∀ col < 8, glyphBit c row col = true → ∀ b < fb.bppBytes,
    P (pixelAt fb (x + col) (y + row) + b)

/-- What holds of all glyphs up to the one that the width does not have eight columns
for. -/
def StringAll (fb : FbInfo) (P : UInt32 → Prop) (y : UInt32) : UInt32 → List UInt8 → Prop
  | _, [] => True
  | x, c :: str => x + 8 > fb.width ∨ (GlyphAll fb P x y c ∧ StringAll fb P y (x + 8) str)

/-- There are two rows at least, or a single one drawn to the hardware, or no columns. -/
def GradientFits (fb : FbInfo) : Prop :=
  fb.width = 0 ∨ 2 ≤ fb.height ∨ (fb.height = 1 ∧ fbTargetBase fb = fb.addr)

def Fits (fb : FbInfo) : DrawCall → Prop
  | .drawChar x y c _ => GlyphAll fb (Visible fb) x y c
  | .drawString x y (some str) _ => StringAll fb (Visible fb) y x (str.takeWhile (· ≠ 0))
  | .fillGradientVert _ _ => GradientFits fb
  | _ => True

theorem bppBytes_ne_zero (surface : Surface fb) : fb.bppBytes ≠ 0 := by
  rcases surface.bytes with bytes | bytes | bytes <;> rw [bytes] <;> decide

theorem forall_drawChar_of (glyph : GlyphAll fb P x y c) (argb : UInt32) :
    ∀ s ∈ framebufferDrawChar fb x y c argb, P s.address := by
  rw [framebufferDrawChar]
  dsimp only
  split_ifs <;> try simp
  simp only [forall_below]
  intro row inside col inside'
  split_ifs with set
  · apply forall_writePixel_of
    intro b byte
    have pixel := glyph row inside col inside' set b byte
    simp only [pixelAt] at pixel
    have address : fbTargetBase fb + (y + row) * fbTargetPitch fb + (x + col) * fb.bppBytes + b =
        fbTargetBase fb + (y + row) * fbTargetPitch fb + x * fb.bppBytes + col * fb.bppBytes + b := by
      grind
    rwa [address] at pixel
  · simp

theorem forall_drawString_of (argb : UInt32) (str : List UInt8) (string : StringAll fb P y x str) :
    ∀ s ∈ drawStringFrom fb y argb x str, P s.address := by
  induction str generalizing x with
  | nil => simp [drawStringFrom]
  | cons c str ih =>
    simp only [drawStringFrom]
    split_ifs with full
    · simp
    · obtain ⟨glyph, rest⟩ := string.resolve_left full
      exact forall_append.mpr ⟨forall_drawChar_of glyph argb, ih rest⟩

theorem forall_drawChar (surface : Surface fb) (x y : UInt32) (c : UInt8) (argb : UInt32) :
    (∀ s ∈ framebufferDrawChar fb x y c argb, P s.address) ↔ GlyphAll fb P x y c := by
  refine ⟨fun all => ?_, fun glyph => forall_drawChar_of glyph argb⟩
  have available : ¬ ¬ fb.available = true := not_not.mpr surface.available
  rw [framebufferDrawChar, if_neg available, if_neg (bppBytes_ne_zero surface)] at all
  simp only [forall_below] at all
  intro row inside col inside' set b byte
  have pixel := all row inside col inside'
  rw [if_pos set, forall_writePixel surface.bytes] at pixel
  have address : fbTargetBase fb + (y + row) * fbTargetPitch fb + x * fb.bppBytes + col * fb.bppBytes +
      b = pixelAt fb (x + col) (y + row) + b := by
    simp only [pixelAt]
    grind
  exact address ▸ pixel b byte

theorem forall_drawString (surface : Surface fb) (y argb : UInt32) (str : List UInt8) (x : UInt32) :
    (∀ s ∈ drawStringFrom fb y argb x str, P s.address) ↔ StringAll fb P y x str := by
  refine ⟨fun all => ?_, forall_drawString_of argb str⟩
  induction str generalizing x with
  | nil => trivial
  | cons c str ih =>
    by_cases full : x + 8 > fb.width
    · exact .inl full
    · rw [drawStringFrom, if_neg full, forall_append, forall_drawChar surface] at all
      exact .inr ⟨all.1, ih _ all.2⟩

/-- On a surface of one row, the offsets below its length are those on it. -/
theorem inSurface_one (surface : Surface fb) (one : fb.height = 1) {o : UInt32}
    (inside : InSurface fb o) : o.toNat < fb.width.toNat * fb.bppBytes.toNat := by
  obtain ⟨column, first⟩ := inside
  have height : fb.height.toNat = 1 := by rw [one]; rfl
  have below : o.toNat < (fbTargetPitch fb).toNat := by
    by_contra far
    have positive : 0 < (fbTargetPitch fb).toNat := by
      by_contra none
      have row := surface.row_le
      have zero : (fbTargetPitch fb).toNat = 0 := by omega
      rw [zero, Nat.mod_zero] at column
      omega
    have later := Nat.div_pos (Nat.not_lt.mp far) positive
    omega
  rwa [Nat.mod_eq_of_lt below] at column

/-- A row of that length elsewhere leaves the surface. -/
theorem offset_zero (surface : Surface fb) (one : fb.height = 1) {o : UInt32}
    (row : ∀ x < fb.width, ∀ b < fb.bppBytes, InSurface fb (o + (x * fb.bppBytes + b)))
    (some : fb.width ≠ 0) : o = 0 := by
  have positive := surface.bytes_pos
  have size := surface.size
  have fits := surface.row_le
  have height : fb.height.toNat = 1 := by rw [one]; rfl
  rw [height, Nat.mul_one] at size
  have wide : 0 < fb.width.toNat := Nat.pos_of_ne_zero fun zero => some (UInt32.toNat_inj.mp zero)
  by_contra moved
  have far : 0 < o.toNat := Nat.pos_of_ne_zero fun zero => moved (UInt32.toNat_inj.mp zero)
  have start : o.toNat < fb.width.toNat * fb.bppBytes.toNat := by
    have first := row 0 (UInt32.lt_iff_toNat_lt.mpr wide) 0 (UInt32.lt_iff_toNat_lt.mpr positive)
    rw [UInt32.zero_mul, UInt32.add_zero, UInt32.add_zero] at first
    exact inSurface_one surface one first
  -- the byte of the row that comes to lie right behind the surface
  have behind : fb.width.toNat * fb.bppBytes.toNat - o.toNat < fb.width.toNat * fb.bppBytes.toNat := by
    omega
  have column := (Nat.div_lt_iff_lt_mul positive).mpr behind
  have byte := Nat.mod_lt (fb.width.toNat * fb.bppBytes.toNat - o.toNat) positive
  have outside := inSurface_one surface one (row
    (.ofNat ((fb.width.toNat * fb.bppBytes.toNat - o.toNat) / fb.bppBytes.toNat))
    (by rwa [UInt32.lt_iff_toNat_lt, toNat_ofNat_lt column])
    (.ofNat ((fb.width.toNat * fb.bppBytes.toNat - o.toNat) % fb.bppBytes.toNat))
    (by rwa [UInt32.lt_iff_toNat_lt, toNat_ofNat_lt byte]))
  rw [UInt32.toNat_add, UInt32.toNat_add, UInt32.toNat_mul, toNat_ofNat_lt column, toNat_ofNat_lt byte,
    Nat.mod_add_mod, Nat.div_add_mod', Nat.add_mod_mod, Nat.add_sub_cancel' (by omega),
    Nat.mod_eq_of_lt (by omega)] at outside
  exact Nat.lt_irrefl _ outside

/-- The pixels of a row of the hardware, where there is at most one row. -/
theorem hardwareRow_onSurface (surface : Surface fb) (packed : UInt32) (few : ¬ 2 ≤ fb.height) :
    (∀ s ∈ below fb.width fun x => fbWritePixel (fb.addr + x * fb.bppBytes) packed fb.bppBytes,
      OnSurface fb s.address) ↔
      fb.width = 0 ∨ (fb.height = 1 ∧ fbTargetBase fb = fb.addr) := by
  simp only [forall_below, forall_writePixel surface.bytes]
  constructor
  · intro all
    by_cases none : fb.width = 0
    · exact .inl none
    have first : 0 < fb.width := UInt32.pos_iff_ne_zero.mpr none
    have byte : 0 < fb.bppBytes := UInt32.pos_iff_ne_zero.mpr (bppBytes_ne_zero surface)
    obtain ⟨-, -, y, row, -⟩ := all 0 first 0 byte
    have one : fb.height = 1 := by
      apply UInt32.toNat_inj.mp
      rw [UInt32.le_iff_toNat_le] at few
      rw [UInt32.lt_iff_toNat_lt] at row
      change ¬ 2 ≤ fb.height.toNat at few
      change fb.height.toNat = 1
      omega
    refine .inr ⟨one, ?_⟩
    have zero : fb.addr - fbTargetBase fb = 0 := by
      refine offset_zero surface one (fun x inside b inside' => ?_) none
      rw [← onSurface_iff surface]
      have here := all x inside b inside'
      have address : fb.addr + x * fb.bppBytes + b =
          fbTargetBase fb + (fb.addr - fbTargetBase fb + (x * fb.bppBytes + b)) := by grind
      rwa [address] at here
    grind
  · rintro (none | ⟨one, same⟩) x inside b byte
    · rw [none] at inside
      exact absurd inside (UInt32.not_lt_zero)
    · refine ⟨x, inside, 0, by rw [one]; decide, b, byte, ?_⟩
      rw [pixelAt, same]
      grind

theorem fillGradientVert_onSurface (surface : Surface fb) (topArgb bottomArgb : UInt32) :
    (∀ s ∈ framebufferFillGradientVert fb topArgb bottomArgb, OnSurface fb s.address) ↔
      GradientFits fb := by
  have available : ¬ ¬ fb.available = true := not_not.mpr surface.available
  rw [framebufferFillGradientVert, if_neg available]
  dsimp only
  rw [if_neg (bppBytes_ne_zero surface)]
  by_cases many : 2 ≤ fb.height
  · have rows : ¬ (if fb.height ≠ 0 then fb.height else 1) = 1 := by
      split_ifs with some
      · intro one
        rw [one] at many
        exact absurd many (by decide)
      · rw [not_not.mp some] at many
        exact absurd many (by decide)
    rw [if_neg rows]
    refine iff_of_true ?_ (.inr (.inl many))
    simp only [forall_below]
    intro y inside' x inside
    exact writePixel_onSurface inside inside' rfl
  · have one : (if fb.height ≠ 0 then fb.height else 1) = 1 := by
      split_ifs with some
      · apply UInt32.toNat_inj.mp
        have positive : fb.height.toNat ≠ 0 := fun zero => some (UInt32.toNat_inj.mp zero)
        rw [UInt32.le_iff_toNat_le] at many
        change ¬ 2 ≤ fb.height.toNat at many
        change fb.height.toNat = 1
        omega
      · rfl
    rw [if_pos one, hardwareRow_onSurface surface _ many]
    simp only [GradientFits, many, false_or]

/-- A call stores to pixels of the target only, exactly if it fits. -/
theorem drawing_on_surface (fb : FbInfo) (surface : Surface fb) (call : DrawCall) :
    (∀ s ∈ call.draw fb, OnSurface fb s.address) ↔ Fits fb call := by
  cases call with
  | clear argb => exact iff_of_true (clear_onSurface fb argb) trivial
  | putpixel x y argb => exact iff_of_true (putpixel_onSurface fb x y argb) trivial
  | fillRect x y w h argb => exact iff_of_true (fillRect_onSurface fb x y w h argb) trivial
  | fillGradientVert topArgb bottomArgb => exact fillGradientVert_onSurface surface topArgb bottomArgb
  | drawLine rounds x0 y0 x1 y1 argb =>
    exact iff_of_true (drawLine_onSurface fb rounds x0 y0 x1 y1 argb) trivial
  | drawChar x y c argb =>
    rw [onSurface_iff_visible surface]
    exact forall_drawChar surface x y c argb
  | drawString x y str argb =>
    cases str with
    | none => exact iff_of_true (by simp [DrawCall.draw, framebufferDrawString]) trivial
    | some str =>
      have available : ¬ ¬ fb.available = true := not_not.mpr surface.available
      simp only [DrawCall.draw, framebufferDrawString, if_neg available, Fits]
      rw [onSurface_iff_visible surface]
      exact forall_drawString surface y argb _ x
  | progressRing cx cy radius steps active color =>
    exact iff_of_true (progressRing_onSurface fb cx cy radius steps active color) trivial
  | blit dstX dstY w h src srcPitch srcBpp =>
    exact iff_of_true (blit_onSurface fb dstX dstY w h src srcPitch srcBpp) trivial
  | testPattern => exact iff_of_true (testPattern_onSurface fb) trivial

/-- A framebuffer of 8 by 8 pixels of 32 bits at 0x1000. -/
def smallFb : FbInfo where
  addr := 0x1000
  pitch := 32
  width := 8
  height := 8
  bpp := 32
  redPos := 16
  redMask := 8
  greenPos := 8
  greenMask := 8
  bluePos := 0
  blueMask := 8
  backbuffer := 0
  backbufferPitch := 0
  available := true

theorem smallFb_surface : Surface smallFb := ⟨rfl, by decide, by decide, by decide⟩

theorem drawing_on_surface_small :
    (∀ s ∈ (DrawCall.drawChar 0 0 65 0x00FFFFFF).draw smallFb, OnSurface smallFb s.address) ↔
      Fits smallFb (.drawChar 0 0 65 0x00FFFFFF) :=
  drawing_on_surface smallFb smallFb_surface (.drawChar 0 0 65 0x00FFFFFF)

/-- An `A` whose upper left corner lies on the surface, 4 rows above its end. -/
theorem drawChar_leaves_surface : Surface smallFb ∧
    ¬ ∀ s ∈ (DrawCall.drawChar 0 4 65 0x00FFFFFF).draw smallFb, OnSurface smallFb s.address := by
  refine ⟨smallFb_surface, ?_⟩
  change ¬ ∀ s ∈ framebufferDrawChar smallFb 0 4 65 0x00FFFFFF, OnSurface smallFb s.address
  rw [onSurface_iff_visible smallFb_surface, forall_drawChar smallFb_surface]
  intro glyph
  have pixel := glyph 4 (by decide) 2 (by decide) (by decide +kernel) 0 (by decide)
  revert pixel
  rw [Visible]
  decide +kernel

end ZynthexOS.DrawingBounds
