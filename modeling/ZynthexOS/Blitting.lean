import Mathlib.Data.List.Nodup
import Mathlib.Data.List.ProdSigma
import ZynthexOS.Filling

/-! Copying a rectangle of pixels to the target. The source is walked in steps of the
bytes that are copied for a pixel, not of the bytes that it has, so that a pixel that is
wider than those of the target is followed by its own rest. -/
namespace ZynthexOS.Blitting
open Video Lib.Stores DrawingBounds Filling

/-- The arguments of `framebuffer_blit`. -/
structure Blit where
  dstX : UInt32
  dstY : UInt32
  w : UInt32
  h : UInt32
  src : UInt32
  srcPitch : UInt32
  srcBpp : UInt8

def Blit.draw (fb : FbInfo) (c : Blit) : Drawing :=
  framebufferBlit fb c.dstX c.dstY c.w c.h c.src c.srcPitch c.srcBpp

/-- The pixels of the rectangle in a row and in a column that the screen has. -/
def Blit.columns (fb : FbInfo) (c : Blit) : Nat := min c.w.toNat (fb.width.toNat - c.dstX.toNat)

def Blit.rows (fb : FbInfo) (c : Blit) : Nat := min c.h.toNat (fb.height.toNat - c.dstY.toNat)

/-- `src_bpp / 8`. -/
def Blit.srcBytes (c : Blit) : Nat := c.srcBpp.toNat / 8

/-- The bytes of a pixel that both sides have. -/
def Blit.common (fb : FbInfo) (c : Blit) : Nat := min c.srcBytes fb.bppBytes.toNat

/-- A byte of a pixel of the source, and of the one it is copied to. -/
def Blit.sourceByte (c : Blit) (i j b : Nat) : UInt32 :=
  c.src + .ofNat j * c.srcPitch + .ofNat (i * c.srcBytes + b)

def Blit.targetByte (fb : FbInfo) (c : Blit) (i j b : Nat) : UInt32 :=
  pixelAt fb (c.dstX + .ofNat i) (c.dstY + .ofNat j) + .ofNat b

/-- The pixels on the screen have got the bytes that both sides have from the source
pixels, and no other byte has changed. -/
structure Copied (fb : FbInfo) (c : Blit) (m m' : UInt32 → UInt8) : Prop where
  pixels : ∀ i < c.columns fb, ∀ j < c.rows fb, ∀ b < c.common fb,
    m' (c.targetByte fb i j b) = m (c.sourceByte i j b)
  others : ∀ a, (∀ i < c.columns fb, ∀ j < c.rows fb, ∀ b < c.common fb, a ≠ c.targetByte fb i j b) →
    m' a = m a

/-- A source buffer of pixels of whole bytes. -/
structure Source (c : Blit) : Prop where
  real : c.src ≠ 0
  bytes : c.srcBpp.toNat % 8 = 0
  some : c.srcBpp ≠ 0

/-- No byte of a source pixel lies on the surface. -/
def Apart (fb : FbInfo) (c : Blit) : Prop :=
  ∀ i < c.columns fb, ∀ j < c.rows fb, ∀ b < c.srcBytes, ¬ OnSurface fb (c.sourceByte i j b)

/-- The copies in their order, with the bytes that are wanted. -/
def Blit.transfers (fb : FbInfo) (c : Blit) : List (Transfer UInt32) :=
  (List.range (c.rows fb) ×ˢ (List.range (c.columns fb) ×ˢ List.range (c.common fb))).map fun (j, i, b) =>
    { address := c.targetByte fb i j b
      source := c.src + .ofNat j * c.srcPitch + .ofNat (i * c.common fb + b)
      wanted := c.sourceByte i j b }

variable {fb : FbInfo} {c : Blit}

/-! ## The copies -/

theorem bppBytes_toNat (fb : FbInfo) : fb.bppBytes.toNat = fb.bpp.toNat / 8 := by
  rw [FbInfo.bppBytes, UInt8.toNat_toUInt32, UInt8.toNat_div]
  rfl

theorem srcBytes_pos (source : Source c) : 0 < c.srcBytes := by
  have some : c.srcBpp.toNat ≠ 0 := fun zero => source.some (UInt8.toNat_inj.mp zero)
  have bytes := source.bytes
  rw [Blit.srcBytes]
  omega

/-- The bytes that are copied for a pixel. -/
theorem copyBytesPerPixel_toNat (surface : Surface fb) (source : Source c) :
    (copyBytesPerPixel fb c.srcBpp).toNat = c.common fb := by
  have positive := srcBytes_pos source
  have bytes := source.bytes
  have pixel := surface.bytes_pos
  have bound := fb.bpp.toNat_lt
  have eight : (fb.bppBytes * 8).toNat = fb.bppBytes.toNat * 8 := by
    rw [UInt32.toNat_mul]
    refine Nat.mod_eq_of_lt ?_
    rw [bppBytes_toNat]
    change _ * 8 < _
    omega
  have narrow : (c.srcBpp / 8).toUInt32.toNat = c.srcBytes := by
    rw [UInt8.toNat_toUInt32, UInt8.toNat_div]
    rfl
  have compare : c.srcBpp.toUInt32 < fb.bppBytes * 8 ↔ c.srcBytes < fb.bppBytes.toNat := by
    rw [UInt32.lt_iff_toNat_lt, eight, UInt8.toNat_toUInt32, Blit.srcBytes]
    omega
  rw [copyBytesPerPixel, Blit.common]
  by_cases less : c.srcBytes < fb.bppBytes.toNat
  · have nonzero : (c.srcBpp / 8).toUInt32 ≠ 0 := by
      intro zero
      rw [zero] at narrow
      exact absurd narrow.symm (Nat.ne_of_gt positive)
    rw [if_pos (compare.mpr less), if_neg nonzero, narrow, Nat.min_eq_left (Nat.le_of_lt less)]
  · rw [if_neg (mt compare.mp less), ite_self, Nat.min_eq_right (Nat.not_lt.mp less)]

theorem transfers_nil (none : c.rows fb = 0 ∨ c.columns fb = 0) : c.transfers fb = [] := by
  rw [Blit.transfers]
  rcases none with none | none
  · rw [none]
    rfl
  · rw [none, List.map_eq_nil_iff, List.eq_nil_iff_forall_not_mem]
    rintro ⟨j, i, b⟩ member
    simp at member

/-- A copied byte. -/
theorem store_eq (n : UInt32) (i j b : Nat) (same : n = .ofNat (c.common fb)) :
    (copy (fbTargetBase fb + (c.dstY + .ofNat j) * fbTargetPitch fb + c.dstX * fb.bppBytes +
        (.ofNat i * fb.bppBytes + .ofNat b))
      (c.src + .ofNat j * c.srcPitch + (.ofNat i * n + .ofNat b)) : Store UInt32 UInt8) =
    Transfer.store ⟨c.targetByte fb i j b, c.src + .ofNat j * c.srcPitch + .ofNat (i * c.common fb + b),
      c.sourceByte i j b⟩ := by
  rw [Transfer.store, Blit.targetByte, pixelAt, UInt32.ofNat_add, UInt32.ofNat_mul, same]
  congr 1
  grind

/-- The call is the list of its copies. -/
theorem blit_eq (surface : Surface fb) (source : Source c) :
    c.draw fb = (c.transfers fb).map Transfer.store := by
  have pixel := copyBytesPerPixel_toNat surface source
  have n : copyBytesPerPixel fb c.srcBpp = .ofNat (c.common fb) := by
    rw [← pixel, UInt32.ofNat_toNat]
  rw [Blit.draw, framebufferBlit]
  dsimp only
  split_ifs with idle outside none
  · rw [transfers_nil, List.map_nil]
    rcases idle with unavailable | null | empty | empty
    · exact absurd surface.available unavailable
    · exact absurd null source.real
    · exact .inr (by simp [Blit.columns, empty])
    · exact .inl (by simp [Blit.rows, empty])
  · rw [transfers_nil, List.map_nil]
    rcases outside with outside | outside
    · exact .inr (by simp [Blit.columns, Nat.sub_eq_zero_of_le (UInt32.le_iff_toNat_le.mp outside)])
    · exact .inl (by simp [Blit.rows, Nat.sub_eq_zero_of_le (UInt32.le_iff_toNat_le.mp outside)])
  · rcases none with none | none
    · exact absurd none (bppBytes_ne_zero surface)
    · exact absurd none source.some
  · obtain ⟨inside, inside'⟩ := lt_of_inside outside
    simp only [below, upTo, clamp_toNat inside, clamp_toNat inside', pixel, Blit.transfers, SProd.sprod,
      List.product, List.map_flatMap, List.map_map]
    refine List.flatMap_congr fun j _ => List.flatMap_congr fun i _ => ?_
    rw [List.map_eq_flatMap]
    refine List.flatMap_congr fun b _ => ?_
    rw [store_eq _ i j b n]
    rfl

theorem mem_transfers {t : Transfer UInt32} : t ∈ c.transfers fb ↔
    ∃ j < c.rows fb, ∃ i < c.columns fb, ∃ b < c.common fb,
      t = ⟨c.targetByte fb i j b, c.src + .ofNat j * c.srcPitch + .ofNat (i * c.common fb + b),
        c.sourceByte i j b⟩ := by
  simp only [Blit.transfers, List.mem_map, Prod.exists, List.mem_product, List.mem_range]
  constructor
  · rintro ⟨j, i, b, ⟨row, column, byte⟩, rfl⟩
    exact ⟨j, row, i, column, b, byte, rfl⟩
  · rintro ⟨j, row, i, column, b, byte, rfl⟩
    exact ⟨j, i, b, ⟨row, column, byte⟩, rfl⟩

/-- A pixel of the rectangle is one of the screen. -/
theorem add_ofNat_toNat {start count size : UInt32} {i : Nat}
    (inside : i < min count.toNat (size.toNat - start.toNat)) :
    (start + .ofNat i).toNat = start.toNat + i := by
  have bound := size.toNat_lt
  rw [UInt32.toNat_add, UInt32.toNat_ofNat', Nat.mod_eq_of_lt (by omega), Nat.mod_eq_of_lt (by omega)]

theorem column_inside {i : Nat} (inside : i < c.columns fb) : c.dstX + .ofNat i < fb.width := by
  rw [UInt32.lt_iff_toNat_lt, add_ofNat_toNat inside]
  rw [Blit.columns] at inside
  omega

theorem row_inside {j : Nat} (inside : j < c.rows fb) : c.dstY + .ofNat j < fb.height := by
  rw [UInt32.lt_iff_toNat_lt, add_ofNat_toNat inside]
  rw [Blit.rows] at inside
  omega

theorem byte_inside {b : Nat} (inside : b < c.common fb) : UInt32.ofNat b < fb.bppBytes :=
  ofNat_lt (Nat.lt_of_lt_of_le inside (Nat.min_le_right _ _))

theorem target_onSurface {i j b : Nat} (column : i < c.columns fb) (row : j < c.rows fb)
    (byte : b < c.common fb) : OnSurface fb (c.targetByte fb i j b) :=
  ⟨_, column_inside column, _, row_inside row, _, byte_inside byte, rfl⟩

theorem target_inj (surface : Surface fb) {i j b i' j' b' : Nat} (column : i < c.columns fb)
    (row : j < c.rows fb) (byte : b < c.common fb) (column' : i' < c.columns fb) (row' : j' < c.rows fb)
    (byte' : b' < c.common fb) (same : c.targetByte fb i j b = c.targetByte fb i' j' b') :
    i = i' ∧ j = j' ∧ b = b' := by
  obtain ⟨x, y, z⟩ := pixelByte_inj surface (column_inside column) (row_inside row) (byte_inside byte)
    (column_inside column') (row_inside row') (byte_inside byte') same
  have x := congrArg UInt32.toNat x
  have y := congrArg UInt32.toNat y
  have z := congrArg UInt32.toNat z
  rw [add_ofNat_toNat column, add_ofNat_toNat column'] at x
  rw [add_ofNat_toNat row, add_ofNat_toNat row'] at y
  have bound : c.common fb ≤ fb.bppBytes.toNat := Nat.min_le_right _ _
  rw [toNat_ofNat_lt (Nat.lt_of_lt_of_le byte bound), toNat_ofNat_lt (Nat.lt_of_lt_of_le byte' bound)] at z
  omega

theorem transfers_distinct (surface : Surface fb) : ((c.transfers fb).map Transfer.address).Nodup := by
  rw [Blit.transfers, List.map_map]
  refine List.Nodup.map_on ?_ (List.nodup_range.product (List.nodup_range.product List.nodup_range))
  rintro ⟨j, i, b⟩ here ⟨j', i', b'⟩ there same
  simp only [List.mem_product, List.mem_range] at here there
  obtain ⟨rfl, rfl, rfl⟩ := target_inj surface here.2.1 here.1 here.2.2 there.2.1 there.1 there.2.2 same
  rfl

/-- The call copies the pixels of every source exactly if its copies are sound. -/
theorem copied_iff_sound (surface : Surface fb) (source : Source c) :
    (∀ m, Copied fb c m (run (c.draw fb) m)) ↔ Sound (c.transfers fb) := by
  have bytes : Nontrivial UInt8 := ⟨0, 1, by decide⟩
  rw [← brings_iff_sound (β := UInt8) (transfers_distinct surface), blit_eq surface source]
  constructor
  · intro copied m t member
    obtain ⟨j, row, i, column, b, byte, rfl⟩ := mem_transfers.mp member
    exact (copied m).pixels i column j row b byte
  · refine fun brings m => ⟨fun i column j row b byte => ?_, fun a other => ?_⟩
    · exact brings m _ (mem_transfers.mpr ⟨j, row, i, column, b, byte, rfl⟩)
    · refine run_frame (fun s member same => ?_) m
      obtain ⟨t, stored, rfl⟩ := List.mem_map.mp member
      obtain ⟨j, row, i, column, b, byte, rfl⟩ := mem_transfers.mp stored
      exact other i column j row b byte same.symm

/-! ## Separate sources -/

/-- The pixels of the source are not wider than those of the target, or no row of the
rectangle has two of them on the screen. -/
def Narrow (fb : FbInfo) (c : Blit) : Prop :=
  c.srcBpp ≤ fb.bpp ∨ c.columns fb ≤ 1 ∨ c.rows fb = 0

instance (fb : FbInfo) (c : Blit) : Decidable (Narrow fb c) := inferInstanceAs (Decidable (_ ∨ _))

theorem narrow_bytes (surface : Surface fb) (source : Source c) :
    c.srcBpp ≤ fb.bpp ↔ c.srcBytes ≤ fb.bppBytes.toNat := by
  have bytes := source.bytes
  rw [UInt8.le_iff_toNat_le, bppBytes_toNat, Blit.srcBytes]
  rcases surface.depth with depth | depth | depth <;> rw [depth]
  · change _ ≤ 16 ↔ _ ≤ 16 / 8
    omega
  · change _ ≤ 24 ↔ _ ≤ 24 / 8
    omega
  · change _ ≤ 32 ↔ _ ≤ 32 / 8
    omega

/-- What is read belongs to a pixel of the source, though not always to the right one. -/
theorem read_inside {i b : Nat} (column : i < c.columns fb) (byte : b < c.common fb) :
    ∃ i' < c.columns fb, ∃ b' < c.srcBytes, i * c.common fb + b = i' * c.srcBytes + b' := by
  have fewer : c.common fb ≤ c.srcBytes := Nat.min_le_left _ _
  have before : i * c.common fb + b < (i + 1) * c.srcBytes := by
    have step := Nat.mul_le_mul_left i fewer
    rw [Nat.succ_mul]
    omega
  have earlier := (Nat.div_lt_iff_lt_mul (Nat.lt_of_lt_of_le (Nat.zero_lt_of_lt byte) fewer)).mpr before
  refine ⟨(i * c.common fb + b) / c.srcBytes, by omega, (i * c.common fb + b) % c.srcBytes,
    Nat.mod_lt _ (by omega), ?_⟩
  rw [Nat.mul_comm (_ / _), Nat.div_add_mod]

/-- No copy reads what another has stored. -/
theorem read_untouched (apart : Apart fb c) {p t : Transfer UInt32} (here : p ∈ c.transfers fb)
    (there : t ∈ c.transfers fb) : p.address ≠ t.source := by
  obtain ⟨j, row, i, column, b, byte, rfl⟩ := mem_transfers.mp here
  obtain ⟨j', row', i', column', b', byte', rfl⟩ := mem_transfers.mp there
  obtain ⟨k, inside, a, part, place⟩ := read_inside column' byte'
  intro same
  have on := target_onSurface column row byte
  rw [show c.targetByte fb i j b = _ from same] at on
  apply apart k inside j' row' a part
  rw [Blit.sourceByte, ← place]
  exact on

theorem sound_of_narrow (surface : Surface fb) (source : Source c) (apart : Apart fb c)
    (narrow : Narrow fb c) : Sound (c.transfers fb) := by
  intro pre t post split
  have there : t ∈ c.transfers fb := by simp [split]
  have earlier {p : Transfer UInt32} (member : p ∈ pre) : p.address ≠ t.source :=
    read_untouched apart (by simp [split, member]) there
  refine ⟨fun p member same => absurd same (earlier member), fun _ => ?_⟩
  obtain ⟨j, row, i, column, b, byte, rfl⟩ := mem_transfers.mp there
  have place : i * c.common fb = i * c.srcBytes := by
    rcases narrow with narrow | single | none
    · rw [Blit.common, Nat.min_eq_left ((narrow_bytes surface source).mp narrow)]
    · have first : i = 0 := by omega
      rw [first, Nat.zero_mul, Nat.zero_mul]
    · omega
  rw [Blit.sourceByte, ← place]

theorem narrow_of_sound (surface : Surface fb) (source : Source c) (apart : Apart fb c)
    (sound : Sound (c.transfers fb)) : Narrow fb c := by
  by_contra wide
  rw [Narrow, narrow_bytes surface source] at wide
  have pixel := surface.bytes_pos
  have common : c.common fb = fb.bppBytes.toNat := by
    rw [Blit.common]
    omega
  -- the first byte of the second pixel is read from the first one
  have there : (⟨c.targetByte fb 1 0 0, c.src + .ofNat 0 * c.srcPitch + .ofNat (1 * c.common fb + 0),
      c.sourceByte 1 0 0⟩ : Transfer UInt32) ∈ c.transfers fb :=
    mem_transfers.mpr ⟨0, by omega, 1, by omega, 0, by omega, rfl⟩
  obtain ⟨pre, post, split⟩ := List.append_of_mem there
  have read := (sound pre _ post split).2 fun p member =>
    read_untouched apart (by rw [split]; simp [member]) there
  rw [Blit.sourceByte, UInt32.add_right_inj] at read
  have numbers := congrArg UInt32.toNat read
  have bound := c.srcBpp.toNat_lt
  have bytes : c.srcBytes = c.srcBpp.toNat / 8 := rfl
  rw [UInt32.toNat_ofNat', UInt32.toNat_ofNat', Nat.mod_eq_of_lt (by omega), Nat.mod_eq_of_lt (by omega)]
    at numbers
  omega

/-- A blit copies the right pixels of every source exactly if each byte is read from its
place in the source, unless the call itself has stored the byte wanted there; and for a
source that is separate from the target, exactly if its pixels are not wider than those of
the target or there is one column of them at most. -/
theorem blit_copies (surface : Surface fb) (source : Source c) :
    ((∀ m, Copied fb c m (run (c.draw fb) m)) ↔ Sound (c.transfers fb)) ∧
      (Apart fb c → ((∀ m, Copied fb c m (run (c.draw fb) m)) ↔ Narrow fb c)) := by
  have general := copied_iff_sound surface source
  refine ⟨general, fun apart => ?_⟩
  rw [general]
  exact ⟨narrow_of_sound surface source apart, sound_of_narrow surface source apart⟩

/-- A screen of 16 bits for each pixel. -/
def wordFb : FbInfo := { smallFb with pitch := 16, bpp := 16 }

/-- Two pixels of 32 bits next to each other. -/
def wideBlit : Blit := ⟨0, 0, 2, 1, 0x4000, 64, 32⟩

theorem wordFb_surface : Surface wordFb := ⟨rfl, by decide, by decide, by decide⟩

theorem wideBlit_source : Source wideBlit := ⟨by decide, by decide, by decide⟩

theorem wideBlit_apart : Apart wordFb wideBlit := by
  rw [Apart, onSurface_iff_visible wordFb_surface]
  simp only [Visible]
  decide

theorem blit_copies_wordFb : (Surface wordFb ∧ Source wideBlit ∧ Apart wordFb wideBlit) ∧
    ((∀ m, Copied wordFb wideBlit m (run (wideBlit.draw wordFb) m)) ↔ Narrow wordFb wideBlit) :=
  ⟨⟨wordFb_surface, wideBlit_source, wideBlit_apart⟩,
    (blit_copies wordFb_surface wideBlit_source).2 wideBlit_apart⟩

/-- The second pixel on the screen gets the rest of the first one. -/
theorem wideBlit_copies_wrong : Surface wordFb ∧ Source wideBlit ∧ Apart wordFb wideBlit ∧
    ∃ m, ¬ Copied wordFb wideBlit m (run (wideBlit.draw wordFb) m) := by
  refine ⟨wordFb_surface, wideBlit_source, wideBlit_apart, fun a => a.toUInt8, fun copied => ?_⟩
  have second := copied.pixels 1 (by decide) 0 (by decide) 0 (by decide)
  revert second
  decide

end ZynthexOS.Blitting
