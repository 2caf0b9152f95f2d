import Mathlib.Logic.Function.Basic
import Mathlib.Tactic.Common

/-! Two 8259A interrupt controllers as a PC has them, the second one on line 2 of the first:
edge triggered requests, fixed priorities, the words that initialize them and the end of
interrupt. Rotation, special masks and polling are left out. -/
namespace ZynthexOS.Lib.Controllers

/-- What a controller takes the next byte at its data port for: its mask, or a word of the
initialization that the word `icw1` has begun. -/
inductive Expects where
  | mask
  | vector (icw1 : UInt8)
  | wiring (icw1 : UInt8)
  | mode
  deriving DecidableEq, Repr

structure Controller where
  expects : Expects
  vector : UInt8
  wiring : UInt8
  mode : UInt8
  mask : UInt8
  requests : Nat → Bool
  serving : Nat → Bool

/-- The line of highest priority that has a property. -/
def first (p : Nat → Bool) : Option Nat := (List.range 8).find? p

def Controller.masked (c : Controller) (n : Nat) : Bool := c.mask.toNat.testBit n

/-- The line for which a controller wants an interrupt: none if one of the same or a higher
priority is in service. -/
def Controller.wants (c : Controller) (requests : Nat → Bool) : Option Nat :=
  (first fun n => c.serving n || (requests n && !c.masked n)).filter fun n => !c.serving n

/-- The number of the interrupt for a line. -/
def Controller.number (c : Controller) (n : Nat) : Nat := c.vector.toNat / 8 * 8 + n

/-- The request is taken; the line is in service unless the interrupt ends automatically. -/
def Controller.serve (c : Controller) (n : Nat) : Controller :=
  { c with
    requests := Function.update c.requests n false
    serving := if c.mode &&& 2 = 0 then Function.update c.serving n true else c.serving }

/-- The end of the interrupt of highest priority. -/
def Controller.endOfInterrupt (c : Controller) : Controller :=
  match first c.serving with
  | some n => { c with serving := Function.update c.serving n false }
  | none => c

/-- A byte for the command port. -/
def Controller.command (c : Controller) (v : UInt8) : Controller :=
  if v &&& 0x10 ≠ 0 then
    { c with
      expects := .vector v
      mode := if v &&& 1 = 0 then 0 else c.mode
      mask := 0
      requests := fun _ => false }
  else if v &&& 0xF8 = 0x20 then c.endOfInterrupt
  else c

/-- A byte for the data port. -/
def Controller.data (c : Controller) (v : UInt8) : Controller :=
  match c.expects with
  | .mask => { c with mask := v }
  | .vector icw1 =>
    { c with
      vector := v
      expects := if icw1 &&& 2 = 0 then .wiring icw1 else if icw1 &&& 1 = 0 then .mask else .mode }
  | .wiring icw1 => { c with wiring := v, expects := if icw1 &&& 1 = 0 then .mask else .mode }
  | .mode => { c with mode := v, expects := .mask }

structure Pair where
  master : Controller
  slave : Controller

def Pair.outb (p : Pair) (port : UInt16) (v : UInt8) : Pair :=
  if port = 0x20 then { p with master := p.master.command v }
  else if port = 0x21 then { p with master := p.master.data v }
  else if port = 0xA0 then { p with slave := p.slave.command v }
  else if port = 0xA1 then { p with slave := p.slave.data v }
  else p

/-- Bytes for the ports, one after the other. -/
def Pair.outs (p : Pair) (writes : List (UInt16 × UInt8)) : Pair :=
  writes.foldl (fun p write => p.outb write.1 write.2) p

/-- The lines that a device can be on. -/
def Device (line : Nat) : Prop := line < 16 ∧ line ≠ 2

instance (line : Nat) : Decidable (Device line) := inferInstanceAs (Decidable (_ ∧ _))

def Pair.requested (p : Pair) (line : Nat) : Bool :=
  if line < 8 then p.master.requests line else p.slave.requests (line - 8)

/-- A device makes a request. -/
def Pair.request (p : Pair) (line : Nat) : Pair :=
  if line < 8 then
    { p with master := { p.master with requests := Function.update p.master.requests line true } }
  else
    { p with slave := { p.slave with requests := Function.update p.slave.requests (line - 8) true } }

/-- The requests at the master: the slave's is the one on line 2. -/
def Pair.lines (p : Pair) (n : Nat) : Bool :=
  if n = 2 then (p.slave.wants p.slave.requests).isSome else p.master.requests n

/-- The master lets the slave on line `n` give the number, where the slave takes `k`. A slave that
does not know its line leaves the bus alone. -/
def Pair.cascade (p : Pair) (n : Nat) (k : Option Nat) : Nat × Pair :=
  if p.slave.wiring.toNat % 8 = n then
    match k with
    | some k => (p.slave.number k, ⟨p.master.serve n, p.slave.serve k⟩)
    | none => (p.slave.number 7, { p with master := p.master.serve n })
  else (0xFF, { p with master := p.master.serve n })

/-- The processor takes the interrupt that the pair wants, if it wants one: its number, and the
pair then. -/
def Pair.acknowledge (p : Pair) : Option (Nat × Pair) :=
  (p.master.wants p.lines).map fun n =>
    if p.master.wiring.toNat.testBit n then p.cascade n (p.slave.wants p.slave.requests)
    else (p.master.number n, { p with master := p.master.serve n })

/-- The processor takes an interrupt whose request has gone before it could be named, at the
master or at the slave. -/
def Pair.spurious (p : Pair) (slave : Bool) : Nat × Pair :=
  if slave then p.cascade 2 none else (p.master.number 7, p)

/-! ## One controller -/

variable {c : Controller} {p : Pair} {n line : Nat}

theorem first_some {q : Nat → Bool} : first q = some n ↔ q n = true ∧ n < 8 ∧ ∀ k < n, q k = false := by
  simp [first]

theorem first_none {q : Nat → Bool} : first q = none ↔ ∀ n < 8, q n = false := by
  simp [first]

/-- Nothing is in service. -/
def Controller.Free (c : Controller) : Prop := ∀ n, c.serving n = false

theorem Controller.Free.wants (free : c.Free) (requests : Nat → Bool) :
    c.wants requests = first fun n => requests n && !c.masked n := by
  have idle : ∀ n, c.serving n = false := free
  simp only [Controller.wants, idle, Bool.false_or, Bool.not_false]
  cases first fun n => requests n && !c.masked n <;> rfl

/-- An end of interrupt has nothing to end. -/
theorem Controller.Free.endOfInterrupt (free : c.Free) : c.endOfInterrupt = c := by
  rw [Controller.endOfInterrupt, first_none.mpr fun n _ => free n]

/-- The only line in service is ended. -/
theorem Controller.Free.ends (free : c.Free) (small : n < 8) : (c.serve n).endOfInterrupt.Free := by
  by_cases automatic : c.mode &&& 2 = 0
  · have serving : (c.serve n).serving = Function.update c.serving n true := if_pos automatic
    have only : first (c.serve n).serving = some n := by
      rw [serving]
      refine first_some.mpr ⟨Function.update_self .., small, fun k less => ?_⟩
      rw [Function.update_of_ne (Nat.ne_of_lt less)]
      exact free k
    intro k
    rw [Controller.endOfInterrupt, only, serving]
    by_cases same : k = n
    · subst same
      exact Function.update_self ..
    · exact (Function.update_of_ne same ..).trans ((Function.update_of_ne same ..).trans (free k))
  · have still : (c.serve n).Free := fun k => (congrFun (if_neg automatic) k).trans (free k)
    rwa [still.endOfInterrupt]

/-! ## The pair -/

/-- Nothing is in service at either of them. -/
structure Pair.Free (p : Pair) : Prop where
  master : p.master.Free
  slave : p.slave.Free

/-- What the initialization of a PC leaves: the slave is on line 2, the numbers of the lines are
from `base` on, an interrupt ends with a command. -/
structure Pair.Wired (p : Pair) (base : Nat) : Prop where
  low : p.master.vector.toNat / 8 * 8 = base
  high : p.slave.vector.toNat / 8 * 8 = base + 8
  line : ∀ n, p.master.wiring.toNat.testBit n = true ↔ n = 2
  cascade : p.slave.wiring.toNat % 8 = 2

/-- A request on this line reaches the processor. -/
def Pair.enabled (p : Pair) (line : Nat) : Bool :=
  if line < 8 then !p.master.masked line else !p.slave.masked (line - 8) && !p.master.masked 2

/-- The order of the lines: those of the slave are between the lines 1 and 3 of the master. -/
def rank (line : Nat) : Nat := if line < 8 then 8 * line else 8 + line

/-- A device asks for an interrupt and may have it. -/
structure Pair.Asks (p : Pair) (line : Nat) : Prop where
  device : Device line
  requested : p.requested line = true
  enabled : p.enabled line = true

/-- The line is the next one that the processor takes. -/
structure Pair.Next (p : Pair) (line : Nat) : Prop where
  asks : p.Asks line
  first : ∀ other, p.Asks other → rank line ≤ rank other

/-- The line is in service, and so is the one of the slave. -/
def Pair.serve (p : Pair) (line : Nat) : Pair :=
  if line < 8 then { p with master := p.master.serve line } else ⟨p.master.serve 2, p.slave.serve (line - 8)⟩

/-- The lines of the master for which it wants an interrupt: its own that ask, and the slave's. -/
theorem Pair.asks_low (small : n < 8) (other : n ≠ 2) :
    p.Asks n ↔ (p.lines n && !p.master.masked n) = true := by
  have lines : p.lines n = p.master.requests n := if_neg other
  rw [lines, Bool.and_eq_true]
  constructor
  · rintro ⟨-, requested, enabled⟩
    rw [Pair.requested, if_pos small] at requested
    rw [Pair.enabled, if_pos small] at enabled
    exact ⟨requested, enabled⟩
  · rintro ⟨requested, enabled⟩
    refine ⟨⟨by omega, other⟩, ?_, ?_⟩
    · rwa [Pair.requested, if_pos small]
    · rwa [Pair.enabled, if_pos small]

theorem Pair.asks_high (small : n < 8) :
    p.Asks (8 + n) ↔ (p.slave.requests n && !p.slave.masked n) = true ∧ p.master.masked 2 = false := by
  have place : ¬ 8 + n < 8 := by omega
  rw [Bool.and_eq_true]
  constructor
  · rintro ⟨-, requested, enabled⟩
    rw [Pair.requested, if_neg place, Nat.add_sub_cancel_left] at requested
    rw [Pair.enabled, if_neg place, Nat.add_sub_cancel_left, Bool.and_eq_true, Bool.not_eq_true'] at enabled
    exact ⟨⟨requested, by simpa using enabled.1⟩, by simpa using enabled.2⟩
  · rintro ⟨⟨requested, unmasked⟩, open'⟩
    refine ⟨⟨by omega, by omega⟩, ?_, ?_⟩
    · rwa [Pair.requested, if_neg place, Nat.add_sub_cancel_left]
    · rw [Pair.enabled, if_neg place, Nat.add_sub_cancel_left, unmasked, open']
      rfl

theorem device_cases (device : Device line) : (line < 8 ∧ line ≠ 2) ∨ ∃ k < 8, line = 8 + k := by
  obtain ⟨small, other⟩ := device
  by_cases low : line < 8
  · exact .inl ⟨low, other⟩
  · exact .inr ⟨line - 8, by omega, by omega⟩

/-- What asks at the slave makes the slave's line ask. -/
theorem Pair.slave_line (free : p.Free) (small : n < 8) (asks : p.Asks (8 + n)) :
    (p.lines 2 && !p.master.masked 2) = true := by
  obtain ⟨here, unmasked⟩ := (Pair.asks_high small).mp asks
  have slave : p.lines 2 = true := by
    rw [Pair.lines, if_pos rfl, free.slave.wants, Option.isSome_iff_ne_none]
    intro nothing
    exact absurd here (by rw [first_none.mp nothing n small]; decide)
  rw [slave, unmasked]
  rfl

/-- Nobody asks if the master wants nothing. -/
theorem Pair.quiet (free : p.Free) (none : ∀ n < 8, (p.lines n && !p.master.masked n) = false) (line : Nat) :
    ¬ p.Asks line := by
  intro asks
  rcases device_cases asks.device with ⟨small, other⟩ | ⟨k, small, rfl⟩
  · exact Bool.eq_false_iff.mp (none line small) ((Pair.asks_low small other).mp asks)
  · exact Bool.eq_false_iff.mp (none 2 (by decide)) (Pair.slave_line free small asks)

/-- The line of the master that is first is next. -/
theorem Pair.next_low (free : p.Free) (small : n < 8) (other : n ≠ 2)
    (wants : (p.lines n && !p.master.masked n) = true)
    (before : ∀ k < n, (p.lines k && !p.master.masked k) = false) : p.Next n := by
  refine ⟨(Pair.asks_low small other).mpr wants, fun line asks => ?_⟩
  rw [rank, if_pos small]
  rcases device_cases asks.device with ⟨low, notTwo⟩ | ⟨k, low, rfl⟩
  · rw [rank, if_pos low]
    by_contra less
    exact Bool.eq_false_iff.mp (before line (by omega)) ((Pair.asks_low low notTwo).mp asks)
  · rw [rank, if_neg (by omega)]
    by_contra less
    exact Bool.eq_false_iff.mp (before 2 (by omega)) (Pair.slave_line free low asks)

/-- So is the first line of the slave, if the master comes to the slave's line. -/
theorem Pair.next_high (small : n < 8) (unmasked : p.master.masked 2 = false)
    (wants : (p.slave.requests n && !p.slave.masked n) = true)
    (slave : ∀ k < n, (p.slave.requests k && !p.slave.masked k) = false)
    (before : ∀ k < 2, (p.lines k && !p.master.masked k) = false) : p.Next (8 + n) := by
  refine ⟨(Pair.asks_high small).mpr ⟨wants, unmasked⟩, fun line asks => ?_⟩
  rw [rank, if_neg (by omega)]
  rcases device_cases asks.device with ⟨low, notTwo⟩ | ⟨k, low, rfl⟩
  · rw [rank, if_pos low]
    by_contra less
    exact Bool.eq_false_iff.mp (before line (by omega)) ((Pair.asks_low low notTwo).mp asks)
  · rw [rank, if_neg (by omega)]
    by_contra less
    exact Bool.eq_false_iff.mp (slave k (by omega)) ((Pair.asks_high low).mp asks).1

/-- A pair with nothing in service gives the processor the line that is next, under its number. -/
theorem Pair.acknowledge_spec (free : p.Free) (wired : p.Wired base) :
    match p.acknowledge with
    | some (number, p') => ∃ line, p.Next line ∧ number = base + line ∧ p' = p.serve line
    | none => ∀ line, ¬ p.Asks line := by
  rw [Pair.acknowledge, free.master.wants]
  cases taken : first fun n => p.lines n && !p.master.masked n with
  | none => exact Pair.quiet free (first_none.mp taken)
  | some n =>
    obtain ⟨wants, small, before⟩ := first_some.mp taken
    simp only [Option.map_some]
    by_cases two : n = 2
    · subst two
      rw [Bool.and_eq_true, Bool.not_eq_true'] at wants
      have slave := wants.1
      rw [Pair.lines, if_pos rfl, free.slave.wants] at slave
      rw [free.slave.wants]
      obtain ⟨k, found⟩ := Option.isSome_iff_exists.mp slave
      obtain ⟨asks, below, first⟩ := first_some.mp found
      have named : p.cascade 2 (some k) = (p.slave.number k, ⟨p.master.serve 2, p.slave.serve k⟩) :=
        if_pos wired.cascade
      rw [if_pos ((wired.line 2).mpr rfl), found, named]
      refine ⟨8 + k, Pair.next_high below wants.2 asks first before, ?_, ?_⟩
      · rw [Controller.number, wired.high, Nat.add_assoc]
      · rw [Pair.serve, if_neg (by omega), Nat.add_sub_cancel_left]
    · rw [if_neg fun set => two ((wired.line n).mp set)]
      refine ⟨n, Pair.next_low free small two wants before, ?_, (if_pos small).symm⟩
      rw [Controller.number, wired.low]

/-! ## Ends of interrupts -/

/-- The words of the initialization are the same, and so is the mask. -/
structure Controller.Same (c c' : Controller) : Prop where
  expects : c'.expects = c.expects
  vector : c'.vector = c.vector
  wiring : c'.wiring = c.wiring
  mode : c'.mode = c.mode
  mask : c'.mask = c.mask

structure Pair.Same (p p' : Pair) : Prop where
  master : p.master.Same p'.master
  slave : p.slave.Same p'.slave

theorem Controller.Same.refl (c : Controller) : c.Same c := ⟨rfl, rfl, rfl, rfl, rfl⟩

theorem Pair.Same.refl (p : Pair) : p.Same p := ⟨.refl _, .refl _⟩

theorem Controller.Same.trans {a b c : Controller} (first : a.Same b) (second : b.Same c) : a.Same c where
  expects := second.expects.trans first.expects
  vector := second.vector.trans first.vector
  wiring := second.wiring.trans first.wiring
  mode := second.mode.trans first.mode
  mask := second.mask.trans first.mask

theorem Pair.Same.trans {a b c : Pair} (first : a.Same b) (second : b.Same c) : a.Same c :=
  ⟨first.master.trans second.master, first.slave.trans second.slave⟩

theorem Controller.same_serve (c : Controller) (n : Nat) : c.Same (c.serve n) := ⟨rfl, rfl, rfl, rfl, rfl⟩

theorem Controller.same_end (c : Controller) : c.Same c.endOfInterrupt := by
  unfold Controller.endOfInterrupt
  split
  · exact ⟨rfl, rfl, rfl, rfl, rfl⟩
  · exact .refl c

theorem Controller.end_requests (c : Controller) : c.endOfInterrupt.requests = c.requests := by
  unfold Controller.endOfInterrupt
  split <;> rfl

/-- An end of interrupt for the master or for the slave. -/
def IsEnd (write : UInt16 × UInt8) : Prop := write = (0x20, 0x20) ∨ write = (0xA0, 0x20)

theorem Pair.outb_master (p : Pair) : p.outb 0x20 0x20 = { p with master := p.master.endOfInterrupt } := rfl

theorem Pair.outb_slave (p : Pair) : p.outb 0xA0 0x20 = { p with slave := p.slave.endOfInterrupt } := rfl

theorem Pair.same_outb (isEnd : IsEnd write) : p.Same (p.outb write.1 write.2) := by
  rcases isEnd with rfl | rfl
  · exact ⟨Controller.same_end _, .refl _⟩
  · exact ⟨.refl _, Controller.same_end _⟩

theorem Pair.outb_requested (isEnd : IsEnd write) (line : Nat) :
    (p.outb write.1 write.2).requested line = p.requested line := by
  rcases isEnd with rfl | rfl
  · rw [Pair.outb_master, Pair.requested, Pair.requested, Controller.end_requests]
  · rw [Pair.outb_slave, Pair.requested, Pair.requested, Controller.end_requests]

theorem Pair.same_serve (p : Pair) (line : Nat) : p.Same (p.serve line) := by
  unfold Pair.serve
  split
  · exact ⟨Controller.same_serve _ _, .refl _⟩
  · exact ⟨Controller.same_serve _ _, Controller.same_serve _ _⟩

theorem Pair.same_request (p : Pair) (line : Nat) : p.Same (p.request line) := by
  unfold Pair.request
  split <;> exact ⟨⟨rfl, rfl, rfl, rfl, rfl⟩, ⟨rfl, rfl, rfl, rfl, rfl⟩⟩

theorem Pair.Wired.same (wired : p.Wired base) (same : p.Same p') : p'.Wired base where
  low := by rw [same.master.vector, wired.low]
  high := by rw [same.slave.vector, wired.high]
  line n := by rw [same.master.wiring, wired.line]
  cascade := by rw [same.slave.wiring, wired.cascade]

/-- What is in service behind an end depends on nothing else. -/
theorem Controller.end_serving {c c' : Controller} (same : c'.serving = c.serving) :
    c'.endOfInterrupt.serving = c.endOfInterrupt.serving := by
  unfold Controller.endOfInterrupt
  rw [same]
  cases first c.serving with
  | some n => rfl
  | none => exact same

theorem Pair.outs_serving {p q : Pair} (master : q.master.serving = p.master.serving)
    (slave : q.slave.serving = p.slave.serving) (ends : ∀ write ∈ writes, IsEnd write) :
    (q.outs writes).master.serving = (p.outs writes).master.serving ∧
      (q.outs writes).slave.serving = (p.outs writes).slave.serving := by
  induction writes generalizing p q with
  | nil => exact ⟨master, slave⟩
  | cons write writes ih =>
    have rest : ∀ write ∈ writes, IsEnd write := fun write member => ends write (List.mem_cons_of_mem _ member)
    rcases ends write List.mem_cons_self with rfl | rfl
    · exact ih (p := p.outb 0x20 0x20) (q := q.outb 0x20 0x20) (Controller.end_serving master) slave rest
    · exact ih (p := p.outb 0xA0 0x20) (q := q.outb 0xA0 0x20) master (Controller.end_serving slave) rest

/-- A request puts nothing in service. -/
theorem Pair.Free.request_outs (free : (p.outs writes).Free) (ends : ∀ write ∈ writes, IsEnd write)
    (line : Nat) : ((p.request line).outs writes).Free := by
  have kept : (p.request line).master.serving = p.master.serving ∧
      (p.request line).slave.serving = p.slave.serving := by
    unfold Pair.request
    split <;> exact ⟨rfl, rfl⟩
  obtain ⟨master, slave⟩ := Pair.outs_serving kept.1 kept.2 ends
  exact ⟨fun n => (congrFun master n).trans (free.master n), fun n => (congrFun slave n).trans (free.slave n)⟩

theorem Pair.Free.request (free : p.Free) (line : Nat) : (p.request line).Free := by
  have none : (p.outs []).Free := free
  exact none.request_outs (List.forall_mem_nil _) line

/-- With nothing in service ends change nothing. -/
theorem Pair.Free.outs (free : p.Free) (ends : ∀ write ∈ writes, IsEnd write) : p.outs writes = p := by
  induction writes with
  | nil => rfl
  | cons write writes ih =>
    have same : p.outb write.1 write.2 = p := by
      rcases ends write List.mem_cons_self with rfl | rfl
      · rw [Pair.outb_master, free.master.endOfInterrupt]
      · rw [Pair.outb_slave, free.slave.endOfInterrupt]
    change (p.outb write.1 write.2).outs writes = p
    rw [same]
    exact ih fun write member => ends write (List.mem_cons_of_mem _ member)

/-- The ends that a line needs: one for the master, after one for the slave if it is there. -/
def endsOf (line : Nat) : List (UInt16 × UInt8) :=
  if line < 8 then [(0x20, 0x20)] else [(0xA0, 0x20), (0x20, 0x20)]

/-- They put all out of service, and more ends do no harm. -/
theorem Pair.Free.ends (free : p.Free) (small : line < 16) (more : ∀ write ∈ writes, IsEnd write) :
    ((p.serve line).outs (endsOf line ++ writes)).Free := by
  have done : ((p.serve line).outs (endsOf line)).Free := by
    rw [Pair.serve, endsOf]
    split_ifs with low
    · exact ⟨free.master.ends low, free.slave⟩
    · exact ⟨free.master.ends (by decide), free.slave.ends (by omega)⟩
  have rest : (p.serve line).outs (endsOf line ++ writes) = ((p.serve line).outs (endsOf line)).outs writes :=
    List.foldl_append
  rw [rest, done.outs more]
  exact done

/-- The same for an interrupt whose request has gone. -/
theorem Pair.Free.ends_spurious (free : p.Free) (wired : p.Wired base) (slave : Bool)
    (more : ∀ write ∈ writes, IsEnd write) :
    ((p.spurious slave).2.outs (endsOf (if slave then 15 else 7) ++ writes)).Free := by
  have done : ((p.spurious slave).2.outs (endsOf (if slave then 15 else 7))).Free := by
    cases slave with
    | false =>
      have ends : ∀ write ∈ endsOf 7, IsEnd write := by simp [endsOf, IsEnd]
      change (p.outs (endsOf 7)).Free
      rwa [free.outs ends]
    | true =>
      have named : p.spurious true = (p.slave.number 7, { p with master := p.master.serve 2 }) :=
        if_pos wired.cascade
      rw [named]
      refine ⟨free.master.ends (by decide), ?_⟩
      have same := free.slave.endOfInterrupt
      change p.slave.endOfInterrupt.Free
      rw [same]
      exact free.slave
  have rest : (p.spurious slave).2.outs (endsOf (if slave then 15 else 7) ++ writes) =
    ((p.spurious slave).2.outs (endsOf (if slave then 15 else 7))).outs writes := List.foldl_append
  rw [rest, done.outs more]
  exact done

/-! ## Requests -/

theorem Pair.requested_request (p : Pair) (line other : Nat) :
    (p.request line).requested other = if other = line then true else p.requested other := by
  unfold Pair.request Pair.requested
  by_cases low : line < 8 <;> by_cases below : other < 8 <;>
    simp only [low, below, if_true, if_false, Function.update_apply]
  · rw [if_neg (by omega)]
  · rw [if_neg (by omega)]
  · simp only [show other - 8 = line - 8 ↔ other = line by omega]

/-- What is taken is not requested any more. -/
theorem Pair.requested_serve (p : Pair) (line : Nat) (device : Device other) :
    (p.serve line).requested other = if other = line then false else p.requested other := by
  have notTwo := device.2
  unfold Pair.serve Pair.requested Controller.serve
  by_cases low : line < 8 <;> by_cases below : other < 8 <;>
    simp only [low, below, if_true, if_false, Function.update_apply, notTwo]
  · rw [if_neg (by omega)]
  · rw [if_neg (by omega)]
  · simp only [show other - 8 = line - 8 ↔ other = line by omega]

/-- The number of an interrupt without a request is that of the last line of its controller. -/
theorem Pair.spurious_spec (wired : p.Wired base) (slave : Bool) :
    (p.spurious slave).1 = base + (if slave then 15 else 7) ∧ p.Same (p.spurious slave).2 := by
  cases slave with
  | false => exact ⟨congrArg (· + 7) wired.low, .refl p⟩
  | true =>
    have named : p.spurious true = (p.slave.number 7, { p with master := p.master.serve 2 }) :=
      if_pos wired.cascade
    rw [named, Controller.number, wired.high]
    exact ⟨Nat.add_assoc .., Controller.same_serve _ _, .refl _⟩

theorem Pair.spurious_requested (p : Pair) (slave : Bool) (device : Device line) :
    (p.spurious slave).2.requested line = p.requested line := by
  cases slave with
  | false => rfl
  | true =>
    have kept : (p.cascade 2 none).2 = { p with master := p.master.serve 2 } := by
      unfold Pair.cascade
      split_ifs <;> rfl
    change (p.cascade 2 none).2.requested line = _
    rw [kept, Pair.requested, Pair.requested, Controller.serve]
    simp only [Function.update_apply, device.2, if_false]

end ZynthexOS.Lib.Controllers
