import Mathlib.Algebra.Group.Nat.Defs
import Mathlib.Tactic.Common

/-! The eight-byte descriptors of a 32-bit x86 processor, as it takes them apart: segments of
the GDT and gates of the IDT. A descriptor is the little-endian number of its bytes. -/
namespace ZynthexOS.Lib.Descriptors

/-- The `width` bits of a number from bit `low` on. -/
def field (raw low width : Nat) : Nat := raw / 2 ^ low % 2 ^ width

/-- A segment: `limit` has 20 bits, `access` is the byte with the present bit, and `flags` has
granularity as its highest bit. -/
structure Segment where
  base : Nat
  limit : Nat
  access : Nat
  flags : Nat
  deriving DecidableEq, Repr

def readSegment (raw : Nat) : Segment where
  base := field raw 16 24 + 2 ^ 24 * field raw 56 8
  limit := field raw 0 16 + 2 ^ 16 * field raw 48 4
  access := field raw 40 8
  flags := field raw 52 4

/-- Present, and not a null descriptor. -/
def Segment.present (s : Segment) : Bool := s.access / 2 ^ 7 % 2 = 1

/-- The last offset that the processor lets through. -/
def Segment.lastOffset (s : Segment) : Nat :=
  if s.flags / 2 ^ 3 % 2 = 1 then s.limit * 4096 + 4095 else s.limit

/-- The linear address of an offset into a segment. -/
def Segment.linear (s : Segment) (offset : Nat) : Option Nat :=
  if s.present ∧ offset ≤ s.lastOffset then some ((s.base + offset) % 2 ^ 32) else none

/-- A gate: `access` is the byte with type, privilege and present bit. -/
structure Gate where
  offset : Nat
  selector : Nat
  access : Nat
  deriving DecidableEq, Repr

def readGate (raw : Nat) : Gate where
  offset := field raw 0 16 + 2 ^ 16 * field raw 48 16
  selector := field raw 16 16
  access := field raw 40 8

/-- A 32-bit interrupt gate that is present: type 14, and the system bit clear. -/
def Gate.enters (g : Gate) : Bool := g.access / 2 ^ 7 % 2 = 1 ∧ g.access % 2 ^ 5 = 14

/-- Where interrupt `n` leads through a table of descriptors: its selector and offset. -/
def interruptTarget (table : Nat → Nat) (limit n : Nat) : Option (Nat × Nat) :=
  let gate := readGate (table n)
  if 8 * n + 7 ≤ limit ∧ gate.enters then some (gate.selector, gate.offset) else none

end ZynthexOS.Lib.Descriptors
