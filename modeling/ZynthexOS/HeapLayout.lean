import ZynthexOS.Lib.Tiling
import ZynthexOS.Mm.Heap

/-! The heap as a list of blocks laid end to end, without memory or pointers.
Every block owns its header, its payload and the bytes up to the next header;
what lies behind the payload is the block's slack, and it is what splitting
hands out and merging takes back. -/
namespace ZynthexOS.HeapLayout
open Lib Mm

/-- A block of the list. The slack is not stored anywhere: it is the distance
from the end of the payload to the next header. -/
structure Block where
  addr : Nat
  size : Nat
  free : Bool
  slack : Nat
  deriving DecidableEq, Repr

namespace Block

/-- The end of the payload, where the tail word is. -/
def fin (b : Block) : Nat := b.addr + headerSize + b.size

def width (b : Block) : Nat := headerSize + b.size + b.slack

/-- The pointer `kmalloc` returns for the block. -/
def payload (b : Block) : Nat := b.addr + headerSize

/-- The value of the `free` field. -/
def flag (b : Block) : Nat := if b.free then 1 else 0

/-- Payloads are nonempty multiples of eight and slack comes in words. -/
structure Wf (b : Block) : Prop where
  positive : 0 < b.size
  aligned : b.size % 8 = 0
  words : b.slack % 4 = 0

theorem addr_le_fin (b : Block) : b.addr ≤ b.fin := by
  unfold fin
  omega

theorem flag_ne_zero (b : Block) : b.flag ≠ 0 ↔ b.free = true := by
  cases h : b.free <;> simp [flag, h]

end Block

/-- The blocks cover the interval from the first header to the end. -/
abbrev Layout (start : Nat) (bs : List Block) (stop : Nat) : Prop :=
  Tiles Block.addr Block.width start bs stop

/-- The allocated part of a split and its free remainder. The tail word of the
allocated part is the magic word of the remainder, so the first has no slack
and the second gains a word. -/
def splitFirst (x : Block) (size : Nat) : Block := ⟨x.addr, size, false, 0⟩

def splitRest (x : Block) (size : Nat) : Block :=
  ⟨x.addr + headerSize + size, x.size - size - headerSize - tailSize, true, x.slack + tailSize⟩

/-- A free block is split when the rest has room for a header, a tail word and
a smallest payload. -/
def Splits (x : Block) (size : Nat) : Prop :=
  size + headerSize + tailSize + minBlockSize ≤ x.size

instance : Decidable (Splits x size) := inferInstanceAs (Decidable (_ ≤ _))

/-- What a free block becomes when `size` bytes of it are allocated. -/
def carve (x : Block) (size : Nat) : List Block :=
  if Splits x size then [splitFirst x size, splitRest x size] else [{ x with free := false }]

/-- Two neighbours as one block. The merge counts a header and a tail word
between them, whatever the slack of the first was. -/
def join (x y : Block) : Block :=
  ⟨x.addr, x.size + (headerSize + y.size + tailSize), x.free, x.slack + y.slack - tailSize⟩

theorem join_addr : (join x y).addr = x.addr := rfl

theorem join_size : (join x y).size = x.size + (20 + y.size + 4) := rfl

theorem join_flag : (join x y).flag = x.flag := rfl

theorem join_slack : (join x y).slack = x.slack + y.slack - 4 := rfl

theorem join_fin : (join x y).fin = x.addr + 20 + (x.size + (20 + y.size + 4)) := rfl

/-- The block `kfree` releases, before merging. -/
def release (x : Block) : Block := { x with free := true }

/-- Whether a free block can serve a request of `size` bytes. -/
def fits (size : Nat) (b : Block) : Bool := b.free && decide (size ≤ b.size)

/-- A block of the list is the one singled out or one of the others. -/
theorem mem_beside (member : b ∈ pre ++ x :: post) (other : b ≠ x) : b ∈ pre ++ post :=
  (List.mem_cons.mp (List.perm_middle.mem_iff.mp member)).resolve_left other

theorem mem_whole (x : Block) (member : b ∈ pre ++ post) : b ∈ pre ++ x :: post :=
  List.perm_middle.mem_iff.mpr (List.mem_cons_of_mem x member)

/-- Every header and the end of the list keep the alignment of the start. -/
theorem layout_aligned (layout : Layout a bs e) (wf : ∀ b ∈ bs, b.Wf) :
    (∀ b ∈ bs, b.addr % 4 = a % 4) ∧ e % 4 = a % 4 := by
  induction bs generalizing a with
  | nil =>
    cases layout
    exact ⟨by simp, rfl⟩
  | cons b bs ih =>
    obtain ⟨here, rest⟩ := layout
    have wb := wf b (by simp)
    have size := wb.aligned
    have words := wb.words
    have step : (a + b.width) % 4 = a % 4 := by
      simp only [Block.width, headerSize]
      omega
    obtain ⟨inside, stop⟩ := ih rest fun b' member => wf b' (by simp [member])
    refine ⟨fun b' member => ?_, stop.trans step⟩
    rcases List.mem_cons.mp member with rfl | member
    · rw [here]
    · exact (inside b' member).trans step

/-- Blocks of a layout are told apart by their addresses. -/
theorem layout_addr_ne (layout : Layout a (pre ++ x :: post) e) (member : b ∈ pre ++ post) :
    b.addr ≠ x.addr := by
  obtain ⟨c, before, here, after⟩ := tiles_append.mp layout
  rcases List.mem_append.mp member with member | member
  · have bound := before.mem member
    simp only [Block.width, headerSize] at bound
    omega
  · have bound := after.mem member
    simp only [Block.width, headerSize] at bound
    omega

theorem layout_inj (layout : Layout a bs e) (hx : x ∈ bs) (hy : y ∈ bs) (same : x.addr = y.addr) :
    x = y := by
  obtain ⟨pre, post, rfl⟩ := List.append_of_mem hy
  by_cases here : x = y
  · exact here
  · exact absurd same (layout_addr_ne layout (mem_beside hx here))

theorem carve_layout (layout : Layout a [x] e) :
    Layout a (carve x size) e := by
  obtain ⟨here, stop⟩ := layout
  unfold carve
  split
  · rename_i splits
    simp only [Splits, Block.width, headerSize, tailSize, minBlockSize] at splits stop
    refine ⟨here, ?_, ?_⟩
    · simp only [splitFirst, splitRest, Block.width, headerSize]
      omega
    · simp only [tiles_nil, splitFirst, splitRest, Block.width, headerSize, tailSize] at stop ⊢
      omega
  · exact ⟨here, stop⟩

/-- Two neighbours with at least a word of slack between them merge into a
block that ends where the second one did. -/
theorem join_layout (room : tailSize ≤ x.slack + y.slack) (layout : Layout a [x, y] e) :
    Layout a [join x y] e := by
  obtain ⟨here, there, stop⟩ := layout
  refine ⟨here, ?_⟩
  simp only [tiles_nil, join, Block.width, headerSize, tailSize] at stop room ⊢
  omega

theorem carve_wf (wf : x.Wf) (positive : 0 < size) (aligned : size % 8 = 0) :
    ∀ b ∈ carve x size, b.Wf := by
  have sizePos := wf.positive
  have sizeAligned := wf.aligned
  have slackWords := wf.words
  unfold carve
  split
  · rename_i splits
    simp only [Splits, headerSize, tailSize, minBlockSize] at splits
    intro b member
    simp only [List.mem_cons, List.not_mem_nil, or_false] at member
    rcases member with rfl | rfl
    · exact ⟨positive, aligned, rfl⟩
    · constructor <;> simp only [splitRest, headerSize, tailSize] <;> omega
  · intro b member
    cases List.mem_singleton.mp member
    exact ⟨sizePos, sizeAligned, slackWords⟩

theorem join_wf (wx : x.Wf) (wy : y.Wf) : (join x y).Wf := by
  have xAligned := wx.aligned
  have yAligned := wy.aligned
  have xWords := wx.words
  have yWords := wy.words
  have xPos := wx.positive
  constructor <;> simp only [join, headerSize, tailSize] <;> omega

end ZynthexOS.HeapLayout
