import Mathlib.Data.Fintype.Prod
import ZynthexOS.Filling

/-! The progress ring. An offset is divided as an unsigned number, so that a negative
entry of the tables takes its dot far to the right or far down instead of to the left or
up: no dot lies left of the centre or above it. -/
namespace ZynthexOS.ProgressRing
open Video Lib.Stores DrawingBounds Filling

/-- The arguments of `framebuffer_progress_ring`. -/
structure Ring where
  cx : UInt32
  cy : UInt32
  radius : UInt32
  steps : UInt32
  active : UInt32
  color : UInt32

def Ring.draw (fb : FbInfo) (c : Ring) : Drawing :=
  framebufferProgressRing fb c.cx c.cy c.radius c.steps c.active c.color

/-- The number of the dots. -/
def Ring.dots (c : Ring) : Nat := min c.steps.toNat 16

/-- The table index of a dot. -/
def slot (n i : Nat) : Nat := i * 16 / n % 16

/-- The offset that a table asks for, rounded towards zero. -/
def offset (radius : UInt32) (table : List Int) (k : Nat) : Int :=
  (radius.toNat * table.getD k 0).tdiv 127

/-- The pixel that is to be painted for a table index. -/
def Ring.point (c : Ring) (k : Nat) : UInt32 × UInt32 :=
  (c.cx + .ofInt (offset c.radius ringCos k), c.cy + .ofInt (offset c.radius ringSin k))

/-- A radius below 2^20 and a square around the centre that lies inside of the screen. -/
structure Inside (fb : FbInfo) (c : Ring) : Prop where
  small : c.radius.toNat < 2 ^ 20
  left : c.radius.toNat ≤ c.cx.toNat
  right : c.cx.toNat + c.radius.toNat < fb.width.toNat
  top : c.radius.toNat ≤ c.cy.toNat
  bottom : c.cy.toNat + c.radius.toNat < fb.height.toNat

/-- A pixel has bytes, and all of them are stored to. -/
def Painted (fb : FbInfo) (drawing : Drawing) (p : UInt32 × UInt32) : Prop :=
  fb.bppBytes ≠ 0 ∧ ∀ b < fb.bppBytes, ∃ s ∈ drawing, s.address = pixelAt fb p.1 p.2 + b

/-- The pixel of every dot is painted. -/
def Complete (fb : FbInfo) (c : Ring) : Prop :=
  ∀ i < c.dots, Painted fb (c.draw fb) (c.point (slot c.dots i))

/-! ## The dots -/

variable {fb : FbInfo} {c : Ring}

/-- Where the code puts the dot of a table index. -/
def Ring.drawn (c : Ring) (k : Nat) : UInt32 × UInt32 :=
  (c.cx + c.radius * .ofInt (ringCos.getD k 0) / 127, c.cy + c.radius * .ofInt (ringSin.getD k 0) / 127)

/-- The pixels that a dot consists of. -/
def Covers (fb : FbInfo) (dot p : UInt32 × UInt32) : Prop :=
  dot.1 < fb.width ∧ dot.2 < fb.height ∧
    (p = dot ∨ (dot.1 + 1 < fb.width ∧ p = (dot.1 + 1, dot.2)) ∨
      (dot.2 + 1 < fb.height ∧ p = (dot.1, dot.2 + 1)))

theorem slot_eq {n i : Nat} (small : n ≤ 16) (inside : i < n) :
    ((UInt32.ofNat i * 16) / .ofNat n &&& 15).toNat = slot n i := by
  have sixteen : (16 : UInt32).toNat = 16 := rfl
  have mask : (15 : UInt32).toNat = 2 ^ 4 - 1 := rfl
  have number {v : Nat} (bound : v ≤ 16) : (UInt32.ofNat v).toNat = v := by
    rw [UInt32.toNat_ofNat', Nat.mod_eq_of_lt (by omega)]
  have product : (UInt32.ofNat i * 16).toNat = i * 16 := by
    rw [UInt32.toNat_mul, number (by omega), sixteen, Nat.mod_eq_of_lt (by omega)]
  rw [UInt32.toNat_and, UInt32.toNat_div, product, number small, mask, Nat.and_two_pow_sub_one_eq_mod]
  rfl

theorem useSteps_eq (c : Ring) : (if c.steps > 16 then 16 else c.steps) = .ofNat c.dots := by
  rw [Ring.dots]
  split_ifs with many
  · have more : 16 ≤ c.steps.toNat := Nat.le_of_lt (UInt32.lt_iff_toNat_lt.mp many)
    rw [Nat.min_eq_right more]
    rfl
  · have few : c.steps.toNat ≤ 16 := UInt32.le_iff_toNat_le.mp (UInt32.not_lt.mp many)
    rw [Nat.min_eq_left few, UInt32.ofNat_toNat]

/-- A depth that `fb_write_pixel` has a case for: two, three or four bytes for a pixel. -/
def Deep (fb : FbInfo) : Prop := fb.bppBytes = 2 ∨ fb.bppBytes = 3 ∨ fb.bppBytes = 4

/-- No two pixels of the screen share a byte. -/
def Apart (fb : FbInfo) : Prop :=
  ∀ {x y b x' y' b' : UInt32}, x < fb.width → y < fb.height → b < fb.bppBytes →
    x' < fb.width → y' < fb.height → b' < fb.bppBytes →
    pixelAt fb x y + b = pixelAt fb x' y' + b' → x = x' ∧ y = y'

theorem Deep.ne_zero (deep : Deep fb) : fb.bppBytes ≠ 0 := by
  rcases deep with deep | deep | deep <;> rw [deep] <;> decide

theorem Deep.two_le (deep : Deep fb) : 2 ≤ fb.bppBytes.toNat := by
  rcases deep with deep | deep | deep <;> rw [deep] <;> decide

/-- The call is a dot for each index. -/
theorem draw_eq (available : fb.available = true) (bytes : fb.bppBytes ≠ 0) (some : c.steps ≠ 0) :
    ∃ packed : Nat → UInt32, c.draw fb = upTo c.dots fun i =>
      ringDot fb (c.drawn (slot c.dots i)).1 (c.drawn (slot c.dots i)).2 (packed i) := by
  have few : c.dots ≤ 16 := Nat.min_le_right _ _
  have idle : ¬ (¬ fb.available = true ∨ c.steps = 0) := by simp [available, some]
  refine ⟨fun i => fbPackColor fb (if UInt32.ofNat i < c.active then c.color else 0x00404040), ?_⟩
  rw [Ring.draw, framebufferProgressRing, if_neg idle, if_neg bytes, useSteps_eq]
  dsimp only
  rw [below, UInt32.toNat_ofNat', Nat.mod_eq_of_lt (by omega)]
  refine List.flatMap_congr fun i member => ?_
  rw [ringOffset, ringOffset, slot_eq few (List.mem_range.mp member)]
  rfl

theorem Covers.inside {dot p : UInt32 × UInt32} (covers : Covers fb dot p) :
    p.1 < fb.width ∧ p.2 < fb.height := by
  obtain ⟨column, row, rfl | ⟨right, rfl⟩ | ⟨below, rfl⟩⟩ := covers
  · exact ⟨column, row⟩
  · exact ⟨right, row⟩
  · exact ⟨column, below⟩

/-- A dot writes its pixels and nothing else. -/
theorem mem_ringDot {px py packed : UInt32} {s : Store UInt32 UInt8} :
    s ∈ ringDot fb px py packed ↔
      ∃ p, Covers fb (px, py) p ∧ s ∈ fbWritePixel (pixelAt fb p.1 p.2) packed fb.bppBytes := by
  rw [ringDot]
  constructor
  · intro member
    by_cases inside : px < fb.width ∧ py < fb.height
    · rw [if_pos inside] at member
      simp only [List.mem_append] at member
      rcases member with (member | member) | member
      · exact ⟨(px, py), ⟨inside.1, inside.2, .inl rfl⟩, member⟩
      · split_ifs at member with right
        · exact ⟨(px + 1, py), ⟨inside.1, inside.2, .inr (.inl ⟨right, rfl⟩)⟩, member⟩
        · cases member
      · split_ifs at member with below
        · exact ⟨(px, py + 1), ⟨inside.1, inside.2, .inr (.inr ⟨below, rfl⟩)⟩, member⟩
        · cases member
    · rw [if_neg inside] at member
      cases member
  · rintro ⟨p, ⟨column, row, pixel⟩, member⟩
    rw [if_pos ⟨column, row⟩]
    simp only [List.mem_append]
    rcases pixel with rfl | ⟨right, rfl⟩ | ⟨below, rfl⟩
    · exact .inl (.inl member)
    · rw [if_pos right]
      exact .inl (.inr member)
    · rw [if_pos below]
      exact .inr member

/-- A byte of a pixel where the code puts a dot. -/
def Met (fb : FbInfo) (c : Ring) (a : UInt32) : Prop :=
  ∃ i < c.dots, ∃ p, Covers fb (c.drawn (slot c.dots i)) p ∧
    ∃ b < fb.bppBytes, a = pixelAt fb p.1 p.2 + b

/-- These bytes are what a call stores to. -/
theorem stored_iff (available : fb.available = true) (deep : Deep fb) (some : c.steps ≠ 0) {a : UInt32} :
    (∃ s ∈ c.draw fb, s.address = a) ↔ Met fb c a := by
  obtain ⟨packed, draw⟩ := draw_eq available deep.ne_zero some
  rw [draw]
  constructor
  · rintro ⟨s, member, rfl⟩
    obtain ⟨i, inside, member⟩ := mem_upTo.mp member
    obtain ⟨p, covers, member⟩ := mem_ringDot.mp member
    exact ⟨i, inside, p, covers, forall_writePixel_of
      (P := fun a => ∃ b < fb.bppBytes, a = pixelAt fb p.1 p.2 + b)
      (fun b byte => ⟨b, byte, rfl⟩) s member⟩
  · rintro ⟨i, inside, p, covers, b, byte, rfl⟩
    by_contra none
    have missed : ∀ s ∈ fbWritePixel (pixelAt fb p.1 p.2) (packed i) fb.bppBytes,
        s.address ≠ pixelAt fb p.1 p.2 + b := fun s member same =>
      none ⟨s, mem_upTo.mpr ⟨i, inside, mem_ringDot.mpr ⟨p, covers, member⟩⟩, same⟩
    exact (forall_writePixel (P := (· ≠ pixelAt fb p.1 p.2 + b)) deep).mp missed b byte rfl

theorem painted_iff (available : fb.available = true) (deep : Deep fb) (some : c.steps ≠ 0)
    {p : UInt32 × UInt32} :
    Painted fb (c.draw fb) p ↔ ∀ b < fb.bppBytes, Met fb c (pixelAt fb p.1 p.2 + b) := by
  simp only [Painted, stored_iff available deep some]
  exact and_iff_right deep.ne_zero

/-- Without such a depth nothing is stored. -/
theorem deep_of_stored {dst packed : UInt32} {s : Store UInt32 UInt8}
    (member : s ∈ fbWritePixel dst packed fb.bppBytes) : Deep fb := by
  rw [Deep]
  generalize fb.bppBytes = bytes at member ⊢
  unfold fbWritePixel at member
  split at member
  · exact .inr (.inr rfl)
  · exact .inr (.inl rfl)
  · exact .inl rfl
  · cases member

theorem deep_of_painted (available : fb.available = true) (some : c.steps ≠ 0) {p : UInt32 × UInt32}
    (painted : Painted fb (c.draw fb) p) : Deep fb := by
  obtain ⟨bytes, stored⟩ := painted
  obtain ⟨s, member, -⟩ := stored 0 (UInt32.pos_iff_ne_zero.mpr bytes)
  obtain ⟨packed, draw⟩ := draw_eq available bytes some
  rw [draw] at member
  obtain ⟨i, -, member⟩ := mem_upTo.mp member
  obtain ⟨p, -, member⟩ := mem_ringDot.mp member
  exact deep_of_stored member

/-- The pixel where the code puts a dot is painted, -/
theorem painted_drawn (available : fb.available = true) (deep : Deep fb) (some : c.steps ≠ 0) {i : Nat}
    (inside : i < c.dots) (column : (c.drawn (slot c.dots i)).1 < fb.width)
    (row : (c.drawn (slot c.dots i)).2 < fb.height) :
    Painted fb (c.draw fb) (c.drawn (slot c.dots i)) :=
  (painted_iff available deep some).mpr fun b byte =>
    ⟨i, inside, _, ⟨column, row, .inl rfl⟩, b, byte, rfl⟩

/-- and, where pixels share no bytes, none that no dot covers. -/
theorem covered_of_painted (available : fb.available = true) (deep : Deep fb) (apart : Apart fb)
    (some : c.steps ≠ 0) {p : UInt32 × UInt32} (column : p.1 < fb.width) (row : p.2 < fb.height)
    (painted : Painted fb (c.draw fb) p) :
    ∃ i < c.dots, Covers fb (c.drawn (slot c.dots i)) p := by
  have first : 0 < fb.bppBytes := UInt32.pos_iff_ne_zero.mpr deep.ne_zero
  obtain ⟨i, inside, q, covers, b, byte, same⟩ := (painted_iff available deep some).mp painted 0 first
  obtain ⟨column', row'⟩ := covers.inside
  obtain ⟨x, y⟩ := apart column row first column' row' byte same
  have here : q = p := Prod.ext x.symm y.symm
  exact ⟨i, inside, here ▸ covers⟩

/-! ## Where the dots are -/

theorem slot_lt (n i : Nat) : slot n i < 16 := Nat.mod_lt _ (by decide)

theorem table_bounds : ∀ k < 16, (ringCos.getD k 0).natAbs ≤ 127 ∧ (ringSin.getD k 0).natAbs ≤ 127 := by
  decide

/-- Pixels that share no bytes are at most as many as the address space has room for. -/
theorem Apart.bytes_le (apart : Apart fb) :
    fb.width.toNat * (fb.height.toNat * fb.bppBytes.toNat) ≤ 2 ^ 32 := by
  let byteOf (v : Fin fb.width.toNat × Fin fb.height.toNat × Fin fb.bppBytes.toNat) : Fin (2 ^ 32) :=
    ⟨(pixelAt fb (.ofNat v.1) (.ofNat v.2.1) + .ofNat v.2.2).toNat, UInt32.toNat_lt _⟩
  have below {n : UInt32} (i : Fin n.toNat) : UInt32.ofNat i < n := by
    rw [UInt32.lt_iff_toNat_lt, toNat_ofNat_lt i.isLt]
    exact i.isLt
  have number {n : UInt32} {i j : Fin n.toNat} (same : UInt32.ofNat i = .ofNat j) : i = j := by
    have values := congrArg UInt32.toNat same
    rw [toNat_ofNat_lt i.isLt, toNat_ofNat_lt j.isLt] at values
    exact Fin.ext values
  have injective : Function.Injective byteOf := by
    rintro ⟨x, y, b⟩ ⟨x', y', b'⟩ same
    have address : pixelAt fb (.ofNat x) (.ofNat y) + .ofNat b =
        pixelAt fb (.ofNat x') (.ofNat y') + .ofNat b' := UInt32.toNat_inj.mp (Fin.mk.inj same)
    obtain ⟨column, row⟩ := apart (below x) (below y) (below b) (below x') (below y') (below b') address
    rw [column, row, UInt32.add_right_inj] at address
    rw [number column, number row, number address]
  simpa only [Fintype.card_prod, Fintype.card_fin] using Fintype.card_le_of_injective byteOf injective

/-- The sizes of such a screen with a pixel leave room behind it. -/
theorem sizes_le (deep : Deep fb) (apart : Apart fb) (inside : Inside fb c) :
    fb.width.toNat ≤ 2 ^ 31 ∧ fb.height.toNat ≤ 2 ^ 31 := by
  have all := apart.bytes_le
  have column := inside.right
  have row := inside.bottom
  constructor
  · have rows := Nat.mul_le_mul (show 1 ≤ fb.height.toNat by omega) deep.two_le
    have columns := Nat.mul_le_mul_left fb.width.toNat rows
    omega
  · have rows := Nat.mul_le_mul_left fb.height.toNat deep.two_le
    have columns := Nat.mul_le_mul (show 1 ≤ fb.width.toNat by omega) rows
    omega

/-- An unsigned quotient by 127 is small. -/
theorem quotient_lt (v : UInt32) : (v / 127).toNat < 2 ^ 26 := by
  have bound := v.toNat_lt
  rw [UInt32.toNat_div]
  change _ / 127 < _
  omega

/-- No dot lies left of the centre or above it. -/
theorem drawn_ge (deep : Deep fb) (apart : Apart fb) (inside : Inside fb c) (k : Nat) :
    c.cx.toNat ≤ (c.drawn k).1.toNat ∧ c.cy.toNat ≤ (c.drawn k).2.toNat := by
  have sizes := sizes_le deep apart inside
  have right := inside.right
  have bottom := inside.bottom
  have column := quotient_lt (c.radius * .ofInt (ringCos.getD k 0))
  have row := quotient_lt (c.radius * .ofInt (ringSin.getD k 0))
  rw [Ring.drawn]
  dsimp only
  rw [UInt32.toNat_add, UInt32.toNat_add, Nat.mod_eq_of_lt (by omega), Nat.mod_eq_of_lt (by omega)]
  omega

/-- Neither does a pixel of a dot. -/
theorem covers_ge (deep : Deep fb) (apart : Apart fb) (inside : Inside fb c) {k : Nat}
    {p : UInt32 × UInt32} (covers : Covers fb (c.drawn k) p) : c.cx.toNat ≤ p.1.toNat ∧ c.cy.toNat ≤ p.2.toNat := by
  obtain ⟨column, row, pixel⟩ := covers
  have least := drawn_ge deep apart inside k
  have sizes := sizes_le deep apart inside
  have next {v size : UInt32} (below : v < size) (bound : size.toNat ≤ 2 ^ 31) :
      (v + 1).toNat = v.toNat + 1 := by
    have small := UInt32.lt_iff_toNat_lt.mp below
    rw [UInt32.toNat_add]
    change (v.toNat + 1) % _ = _
    rw [Nat.mod_eq_of_lt (by omega)]
  rcases pixel with rfl | ⟨-, rfl⟩ | ⟨-, rfl⟩
  · exact least
  · dsimp only
    rw [next column sizes.1]
    omega
  · dsimp only
    rw [next row sizes.2]
    omega

/-- An offset is not longer than the radius. -/
theorem offset_le {table : List Int} (bounded : (table.getD k 0).natAbs ≤ 127) (radius : UInt32) :
    (offset radius table k).natAbs ≤ radius.toNat := by
  rw [offset, Int.natAbs_tdiv, Int.natAbs_mul, Int.natAbs_natCast]
  have product := Nat.mul_le_mul_left radius.toNat bounded
  change _ / 127 ≤ _
  omega

theorem ofInt_toNat (v : Int) : (UInt32.ofInt v).toNat = (v % 2 ^ 32).toNat := by
  rw [UInt32.ofInt, UInt32.toNat_ofNat', Nat.mod_eq_of_lt (by omega)]

/-- A coordinate of a pixel that is to be painted. -/
theorem add_ofInt_toNat {centre size : UInt32} {d : Int} {r : Nat} (short : d.natAbs ≤ r)
    (low : r ≤ centre.toNat) (high : centre.toNat + r < size.toNat) :
    ((centre + .ofInt d).toNat : Int) = centre.toNat + d := by
  have bound := size.toNat_lt
  rw [UInt32.toNat_add, ofInt_toNat]
  omega

theorem point_toNat (inside : Inside fb c) (small : k < 16) :
    ((c.point k).1.toNat : Int) = c.cx.toNat + offset c.radius ringCos k ∧
      ((c.point k).2.toNat : Int) = c.cy.toNat + offset c.radius ringSin k :=
  ⟨add_ofInt_toNat (offset_le (table_bounds k small).1 _) inside.left inside.right,
    add_ofInt_toNat (offset_le (table_bounds k small).2 _) inside.top inside.bottom⟩

theorem point_inside (inside : Inside fb c) (small : k < 16) :
    (c.point k).1 < fb.width ∧ (c.point k).2 < fb.height := by
  have place := point_toNat inside small
  have column := offset_le (table_bounds k small).1 c.radius
  have row := offset_le (table_bounds k small).2 c.radius
  have right := inside.right
  have bottom := inside.bottom
  rw [UInt32.lt_iff_toNat_lt, UInt32.lt_iff_toNat_lt]
  omega

/-- A pixel left of the centre or above it is not painted. -/
theorem unpainted (available : fb.available = true) (deep : Deep fb) (apart : Apart fb)
    (some : c.steps ≠ 0) (inside : Inside fb c) (small : k < 16)
    (negative : offset c.radius ringCos k < 0 ∨ offset c.radius ringSin k < 0) :
    ¬ Painted fb (c.draw fb) (c.point k) := by
  intro painted
  obtain ⟨column, row⟩ := point_inside inside small
  obtain ⟨i, -, covers⟩ := covered_of_painted available deep apart some column row painted
  have least := covers_ge deep apart inside covers
  have place := point_toNat inside small
  omega

/-- Entries that are not negative are met. -/
theorem offset_exact {radius : UInt32} {table : List Int} (small : radius.toNat < 2 ^ 20)
    (positive : 0 ≤ table.getD k 0) (bounded : (table.getD k 0).natAbs ≤ 127) :
    radius * .ofInt (table.getD k 0) / 127 = .ofInt (offset radius table k) := by
  rw [offset]
  obtain ⟨entry, same⟩ := Int.eq_ofNat_of_zero_le positive
  rw [same] at bounded ⊢
  rw [Int.natAbs_natCast] at bounded
  have product := Nat.mul_le_mul (Nat.le_of_lt small) bounded
  have quotient : ((radius.toNat : Int) * entry).tdiv 127 = (radius.toNat * entry / 127 : Nat) := rfl
  apply UInt32.toNat_inj.mp
  rw [quotient, UInt32.toNat_div, UInt32.toNat_mul, ofInt_toNat, ofInt_toNat]
  have factor : ((entry : Int) % 2 ^ 32).toNat = entry := by omega
  rw [factor, Nat.mod_eq_of_lt (by omega)]
  change _ / 127 = _
  omega

theorem drawn_exact (inside : Inside fb c) (small : k < 16) (right : 0 ≤ ringCos.getD k 0)
    (below : 0 ≤ ringSin.getD k 0) : c.drawn k = c.point k := by
  rw [Ring.drawn, Ring.point, offset_exact inside.small right (table_bounds k small).1,
    offset_exact inside.small below (table_bounds k small).2]

/-- So their pixels are painted. -/
theorem painted_point (available : fb.available = true) (deep : Deep fb) (some : c.steps ≠ 0)
    (inside : Inside fb c) {i : Nat} (within : i < c.dots)
    (exact : c.drawn (slot c.dots i) = c.point (slot c.dots i)) :
    Painted fb (c.draw fb) (c.point (slot c.dots i)) := by
  obtain ⟨column, row⟩ := point_inside inside (slot_lt c.dots i)
  rw [← exact] at column row ⊢
  exact painted_drawn available deep some within column row

/-! ## Complete rings -/

/-- A ring of one dot or of radius 0, or the seven dots around a radius of 1. -/
def Whole (c : Ring) : Prop := c.steps = 1 ∨ c.radius = 0 ∨ (c.steps = 7 ∧ c.radius = 1)

instance (c : Ring) : Decidable (Whole c) := inferInstanceAs (Decidable (_ ∨ _))

theorem dots_eq (c : Ring) (few : n < 16) : c.dots = n ↔ c.steps = .ofNat n := by
  rw [Ring.dots, ← UInt32.toNat_inj, UInt32.toNat_ofNat', Nat.mod_eq_of_lt (by omega)]
  omega

/-- Most numbers of dots include the leftmost or the topmost one. -/
theorem slot_axis : ∀ n ≤ 16, 2 ≤ n → n ≠ 3 → n ≠ 7 → ∃ i < n, slot n i = 8 ∨ slot n i = 12 := by
  decide

theorem offset_neg {table : List Int} {radius : UInt32} (entry : table.getD k 0 < 0)
    (long : 127 ≤ radius.toNat * (table.getD k 0).natAbs) : offset radius table k < 0 := by
  obtain ⟨size, same⟩ := Int.exists_eq_neg_ofNat (Int.le_of_lt entry)
  rw [same, Int.natAbs_neg, Int.natAbs_natCast] at long
  have quotient : ((radius.toNat : Int) * size).tdiv 127 = (radius.toNat * size / 127 : Nat) := rfl
  rw [offset, same, Int.mul_neg, Int.neg_tdiv, quotient]
  omega

/-- Three dots around a radius of 1 leave out the centre, where the second belongs. -/
theorem three_unpainted (available : fb.available = true) (deep : Deep fb) (apart : Apart fb)
    (inside : Inside fb c) (three : c.steps = 3) (one : c.radius = 1) : ¬ Painted fb (c.draw fb) (c.point 5) := by
  have count : c.dots = 3 := (dots_eq c (by decide)).mpr three
  have centre : (c.point 5).1 = c.cx + 0 := by
    rw [Ring.point, one]
    rfl
  have aside : ∀ i < 3, (0 : UInt32) ≠ 1 * .ofInt (ringCos.getD (slot 3 i) 0) / 127 ∧
      (0 : UInt32) ≠ 1 * .ofInt (ringCos.getD (slot 3 i) 0) / 127 + 1 := by
    decide
  intro painted
  obtain ⟨column, row⟩ := point_inside inside (k := 5) (by decide)
  have some : c.steps ≠ 0 := by
    rw [three]
    decide
  obtain ⟨i, within, -, -, pixel⟩ := covered_of_painted available deep apart some column row painted
  rw [count] at within pixel
  have place : (c.point 5).1 = (c.drawn (slot 3 i)).1 ∨ (c.point 5).1 = (c.drawn (slot 3 i)).1 + 1 := by
    rcases pixel with same | ⟨-, same⟩ | ⟨-, same⟩ <;> rw [same]
    · exact .inl rfl
    · exact .inr rfl
    · exact .inl rfl
  rw [centre, Ring.drawn, one, UInt32.add_assoc, UInt32.add_right_inj, UInt32.add_right_inj] at place
  rcases place with same | same
  · exact (aside i within).1 same
  · exact (aside i within).2 same

theorem whole_of_complete (available : fb.available = true) (deep : Deep fb) (apart : Apart fb)
    (some : c.steps ≠ 0) (inside : Inside fb c) (complete : Complete fb c) : Whole c := by
  by_contra partly
  rw [Whole, not_or, not_or, not_and] at partly
  obtain ⟨single, zero, seven⟩ := partly
  have few : c.dots ≤ 16 := Nat.min_le_right _ _
  have empty : c.dots ≠ 0 := mt (dots_eq c (by decide)).mp some
  have several : c.dots ≠ 1 := mt (dots_eq c (by decide)).mp single
  have positive : c.radius.toNat ≠ 0 := fun none => zero (UInt32.toNat_inj.mp none)
  have missed {i : Nat} (within : i < c.dots)
      (negative : offset c.radius ringCos (slot c.dots i) < 0 ∨ offset c.radius ringSin (slot c.dots i) < 0) :
      False :=
    unpainted available deep apart some inside (slot_lt _ _) negative (complete i within)
  by_cases three : c.dots = 3
  · by_cases one : c.radius = 1
    · have second := complete 1 (by omega)
      rw [three] at second
      exact three_unpainted available deep apart inside ((dots_eq c (by decide)).mp three) one second
    · have longer : c.radius.toNat ≠ 1 := fun same => one (UInt32.toNat_inj.mp same)
      refine missed (i := 2) (by omega) (.inl ?_)
      rw [three]
      refine offset_neg (by decide) ?_
      change 127 ≤ c.radius.toNat * 90
      omega
  · by_cases seventh : c.dots = 7
    · have longer : c.radius.toNat ≠ 1 := fun same =>
        seven ((dots_eq c (by decide)).mp seventh) (UInt32.toNat_inj.mp same)
      refine missed (i := 3) (by omega) (.inl ?_)
      rw [seventh]
      refine offset_neg (by decide) ?_
      change 127 ≤ c.radius.toNat * 90
      omega
    · obtain ⟨i, within, leftmost | topmost⟩ := slot_axis c.dots few (by omega) three seventh
      · refine missed within (.inl ?_)
        rw [leftmost]
        refine offset_neg (by decide) ?_
        change 127 ≤ c.radius.toNat * 127
        omega
      · refine missed within (.inr ?_)
        rw [topmost]
        refine offset_neg (by decide) ?_
        change 127 ≤ c.radius.toNat * 127
        omega

/-- Around a radius of 1 the dots of seven belong to the first three or to the centre. -/
theorem slot_seven : ∀ i < 7, i < 3 ∨
    (offset 1 ringCos (slot 7 i) = offset 1 ringCos (slot 7 1) ∧
      offset 1 ringSin (slot 7 i) = offset 1 ringSin (slot 7 1)) := by
  decide

theorem slot_right : ∀ i < 3, 0 ≤ ringCos.getD (slot 7 i) 0 ∧ 0 ≤ ringSin.getD (slot 7 i) 0 := by
  decide

theorem complete_of_whole (available : fb.available = true) (deep : Deep fb) (some : c.steps ≠ 0)
    (inside : Inside fb c) (whole : Whole c) : Complete fb c := by
  intro i within
  rcases whole with single | zero | ⟨seven, one⟩
  · have count : c.dots = 1 := (dots_eq c (by decide)).mpr single
    have first : slot c.dots i = 0 := by
      have here : i = 0 := by omega
      rw [here]
      simp [slot]
    refine painted_point available deep some inside within ?_
    rw [first]
    exact drawn_exact inside (by decide) (by decide) (by decide)
  · refine painted_point available deep some inside within ?_
    simp [Ring.drawn, Ring.point, zero, offset]
    rfl
  · have count : c.dots = 7 := (dots_eq c (by decide)).mpr seven
    have exact {j : Nat} (early : j < 3) : c.drawn (slot c.dots j) = c.point (slot c.dots j) := by
      obtain ⟨right, below⟩ := slot_right j early
      rw [count]
      exact drawn_exact inside (slot_lt _ _) right below
    rcases slot_seven i (by omega) with early | ⟨column, row⟩
    · exact painted_point available deep some inside within (exact early)
    · have same : c.point (slot c.dots i) = c.point (slot c.dots 1) := by
        rw [count, Ring.point, Ring.point, one, column, row]
      rw [same]
      exact painted_point available deep some inside (by omega) (exact (by decide))

/-- Two pixels share a byte, and all bytes of the pixels wanted are met by dots elsewhere. -/
def Overlaid (fb : FbInfo) (c : Ring) : Prop :=
  ¬ Apart fb ∧ ∀ i < c.dots, ∀ b < fb.bppBytes,
    Met fb c (pixelAt fb (c.point (slot c.dots i)).1 (c.point (slot c.dots i)).2 + b)

theorem complete_iff_met (available : fb.available = true) (deep : Deep fb) (some : c.steps ≠ 0) :
    Complete fb c ↔ ∀ i < c.dots, ∀ b < fb.bppBytes,
      Met fb c (pixelAt fb (c.point (slot c.dots i)).1 (c.point (slot c.dots i)).2 + b) := by
  simp only [Complete, painted_iff available deep some]

/-- A ring has a dot. -/
theorem deep_of_complete (available : fb.available = true) (some : c.steps ≠ 0)
    (complete : Complete fb c) : Deep fb := by
  have empty : c.dots ≠ 0 := mt (dots_eq c (by decide)).mp some
  exact deep_of_painted available some (complete 0 (Nat.pos_of_ne_zero empty))

/-- On a target whose rows and whose size fit, pixels share no bytes. -/
theorem surface_apart (surface : Surface fb) : Apart fb := by
  intro x y b x' y' b' column row byte column' row' byte' same
  obtain ⟨x, y, -⟩ := pixelByte_inj surface column row byte column' row' byte' same
  exact ⟨x, y⟩

/-- Two dots around the middle of a screen of eight rows and columns. -/
def twoDots : Ring := ⟨4, 4, 2, 2, 1, 0x00FFFFFF⟩

theorem twoDots_inside : Inside smallFb twoDots :=
  ⟨by decide, by decide, by decide, by decide, by decide⟩

end ZynthexOS.ProgressRing
