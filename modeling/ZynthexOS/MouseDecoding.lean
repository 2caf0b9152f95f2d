import ZynthexOS.MouseStream
import Mathlib.Data.List.GetD

/-! The events of the mouse against its packets. A movement is a number of nine bits,
whose sign stands in the first byte of the packet; the handler takes the sign from
the highest of the other eight. -/
namespace ZynthexOS.MouseDecoding
open Drivers Lib MouseStream

/-- A number of nine bits in two's complement, from its sign and its lower eight. -/
def nineBit (negative : Bool) (low : UInt8) : Int := low.toNat - if negative then 256 else 0

/-- What a packet says. -/
def decode (hasWheel : Bool) (p : List UInt8) : MouseEvent where
  dx := nineBit (p.getD 0 0 &&& 0x10 ≠ 0) (p.getD 1 0)
  dy := -nineBit (p.getD 0 0 &&& 0x20 ≠ 0) (p.getD 2 0)
  scroll := if hasWheel then int8 (p.getD 3 0) else 0
  buttons := p.getD 0 0 &&& 0x07

/-- A packet of 3 bytes, or of 4 with a wheel, whose overflow bits are clear. -/
structure WellFormed (hasWheel : Bool) (p : List UInt8) : Prop where
  length : p.length = needed hasWheel
  overflow : p.getD 0 0 &&& 0xC0 = 0

/-- The signs of both movements repeat the highest of their other bits: they lie
between -128 and 127. -/
def SmallMoves (p : List UInt8) : Prop :=
  (p.getD 0 0 &&& 0x10 ≠ 0 ↔ 128 ≤ (p.getD 1 0).toNat) ∧
    (p.getD 0 0 &&& 0x20 ≠ 0 ↔ 128 ≤ (p.getD 2 0).toNat)

/-- An interrupt that completes a packet finds room in the queue. -/
def Drained (l : Ledger) : Call → Prop
  | .irq status _ => MouseData status → ¬ l.mouse.packetIndex + 1 < needed l.mouse.hasWheel →
    bufferFull l.mouse = false
  | .readEvent => True

/-! ## One packet -/

theorem int8_eq (byte : UInt8) : int8 byte = nineBit (decide (128 ≤ byte.toNat)) byte := by
  have value : int8 byte = byte.toBitVec.toInt := rfl
  have low : byte.toBitVec.toNat = byte.toNat := rfl
  have bound := byte.toNat_lt
  rw [value, BitVec.toInt_eq_toNat_cond, nineBit, low]
  by_cases high : 128 ≤ byte.toNat
  · rw [if_neg (by omega), if_pos (by simpa using high)]
    rfl
  · rw [if_pos (by omega), if_neg (by simpa using high)]
    rfl

theorem nineBit_sign : nineBit a low = nineBit b low ↔ a = b := by
  constructor
  · cases a <;> cases b <;> simp [nineBit]
    omega
  · exact fun same => by rw [same]

/-- A packet is decoded right exactly if its movements are small. -/
theorem packetEvent_eq (hasWheel : Bool) (p : List UInt8) :
    packetEvent hasWheel (fun i => p.getD i 0) = decode hasWheel p ↔ SmallMoves p := by
  simp only [packetEvent, decode, MouseEvent.mk.injEq, int8_eq, neg_inj, nineBit_sign, and_true,
    SmallMoves, decide_eq_decide]
  exact and_congr Iff.comm Iff.comm

/-! ## The stream cut into packets -/

/-- The code's reading of a packet given as a list. -/
def eventOf (hasWheel : Bool) (p : List UInt8) : MouseEvent :=
  packetEvent hasWheel fun i => p.getD i 0

theorem eventOf_packetBytes (s : Mouse) :
    eventOf s.hasWheel s.packetBytes = packetEvent s.hasWheel s.packet := by
  have read (i : Nat) (inside : i < needed s.hasWheel) : s.packetBytes.getD i 0 = s.packet i := by
    rw [Mouse.packetBytes, List.getD_eq_getElem _ _ (by simpa using inside), List.getElem_map,
      List.getElem_range]
  cases wheel : s.hasWheel with
  | true =>
    have size : needed s.hasWheel = 4 := by rw [wheel]; rfl
    simp only [eventOf, packetEvent, read 0 (by omega), read 1 (by omega), read 2 (by omega),
      read 3 (by omega)]
  | false =>
    have size : needed s.hasWheel = 3 := by rw [wheel]; rfl
    simp only [eventOf, packetEvent, read 0 (by omega), read 1 (by omega), read 2 (by omega),
      Bool.false_eq_true, if_false]

/-- The bytes read are the pushed packets and those of the packet under way; the events
read and queued are those of the pushed packets. -/
structure Assembled (hasWheel : Bool) (l : Ledger) : Prop where
  wheel : l.mouse.hasWheel = hasWheel
  index : l.mouse.packetIndex < needed hasWheel
  bytes : l.bytes = l.pushed.flatten ++ (List.range l.mouse.packetIndex).map l.mouse.packet
  sizes : ∀ p ∈ l.pushed, p.length = needed hasWheel
  queue : ∃ queued, Fifo.Holds mouseBufSize l.mouse.mouseBuffer l.mouse.bufTail l.mouse.bufHead queued ∧
    queued.length < mouseBufSize ∧ l.read ++ queued = l.pushed.map (eventOf hasWheel)

theorem range_store (packet : Nat → UInt8) (n : Nat) (data : UInt8) :
    (List.range (n + 1)).map (Function.update packet n data) = (List.range n).map packet ++ [data] := by
  have older : (List.range n).map (Function.update packet n data) = (List.range n).map packet := by
    apply List.map_congr_left
    intro i member
    exact Function.update_of_ne (Nat.ne_of_lt (List.mem_range.mp member)) _ _
  rw [List.range_succ, List.map_append, older, List.map_singleton, Function.update_self]

theorem assembled_start (s : Mouse) (id : UInt8) : Assembled (id = 3) (start s id) := by
  refine ⟨rfl, ?_, rfl, by simp [start], [], .empty (Nat.zero_lt_succ 31), Nat.zero_lt_succ 31, rfl⟩
  rcases needed_cases (id = 3) with size | size <;> rw [size] <;> exact Nat.zero_lt_succ _

theorem Assembled.irq (assembled : Assembled hasWheel l) (drained : Drained l (.irq status data)) :
    Assembled hasWheel (act l (.irq status data)) := by
  obtain ⟨wheel, index, bytes, sizes, queued, cells, few, balance⟩ := assembled
  subst wheel
  by_cases mine : MouseData status
  · by_cases short : l.mouse.packetIndex + 1 < needed l.mouse.hasWheel
    · rw [act_assembles mine short]
      refine ⟨rfl, short, ?_, sizes, queued, cells, few, balance⟩
      simp only [Mouse.store]
      rw [range_store, bytes, List.append_assoc]
    · have room := drained mine short
      have last : l.mouse.packetIndex + 1 = needed l.mouse.hasWheel := by omega
      have packet : (l.mouse.store data 0).packetBytes =
          (List.range l.mouse.packetIndex).map l.mouse.packet ++ [data] := by
        rw [← range_store, last]
        rfl
      have event := eventOf_packetBytes (l.mouse.store data 0)
      have notFull : ¬ queued.length + 1 = mouseBufSize := by
        rw [← cells.full_iff few]
        simpa [bufferFull] using room
      rw [act_pushed mine short room cells.head_lt]
      have empty : (List.range (l.mouse.store data 0).packetIndex).map (l.mouse.store data 0).packet =
          [] := rfl
      refine ⟨rfl, Nat.zero_lt_of_lt index, ?_, ?_, queued ++ [_], cells.push few, ?_, ?_⟩
      · dsimp only
        rw [empty, List.append_nil, List.flatten_append, packet, bytes]
        simp
      · intro p member
        rcases List.mem_append.mp member with older | new
        · exact sizes p older
        · rw [List.mem_singleton.mp new, packet]
          simp [last]
      · rw [List.length_append, List.length_singleton]
        omega
      · rw [← List.append_assoc, balance, List.map_append, List.map_singleton]
        exact congrArg (fun e => l.pushed.map (eventOf l.mouse.hasWheel) ++ [e]) event.symm
  · rw [act_other mine]
    exact ⟨rfl, index, bytes, sizes, queued, cells, few, balance⟩

theorem Assembled.readEvent (assembled : Assembled hasWheel l) :
    Assembled hasWheel (act l .readEvent) := by
  obtain ⟨wheel, index, bytes, sizes, queued, cells, few, balance⟩ := assembled
  have empty := cells.empty_iff few
  cases queued with
  | nil =>
    have none : bufferEmpty l.mouse = true := decide_eq_true (empty.mpr rfl)
    simp only [act, mouseReadEvent, none, if_true, Option.toList_none, List.append_nil]
    exact ⟨wheel, index, bytes, sizes, [], cells, few, balance⟩
  | cons event queued =>
    have waiting : ¬ bufferEmpty l.mouse = true := by simp [bufferEmpty, empty]
    obtain ⟨first, rest⟩ := cells.pop
    simp only [act, mouseReadEvent, waiting, first]
    refine ⟨wheel, index, bytes, sizes, queued, rest, ?_, ?_⟩
    · rw [List.length_cons] at few
      exact Nat.lt_of_succ_lt few
    · rw [List.append_assoc]
      exact balance

theorem Assembled.step (l : Ledger) (call : Call) (assembled : Assembled hasWheel l)
    (drained : Drained l call) : Assembled hasWheel (act l call) := by
  cases call with
  | irq status data => exact assembled.irq drained
  | readEvent => exact assembled.readEvent

/-- Packets of one length are told apart by the stream alone. -/
theorem flatten_inj {ps qs : List (List UInt8)} {rest : List UInt8}
    (sizes : ∀ p ∈ ps, p.length = n) (sizes' : ∀ q ∈ qs, q.length = n) (short : rest.length < n)
    (same : qs.flatten ++ rest = ps.flatten) : qs = ps := by
  induction qs generalizing ps with
  | nil =>
    cases ps with
    | nil => rfl
    | cons p ps =>
      have size := sizes p (by simp)
      have length := congrArg List.length same
      simp at length
      omega
  | cons q qs ih =>
    have size' := sizes' q (by simp)
    cases ps with
    | nil =>
      have length := congrArg List.length same
      simp only [List.flatten_cons, List.flatten_nil, List.length_append, List.length_nil] at length
      omega
    | cons p ps =>
      rw [List.flatten_cons, List.flatten_cons, List.append_assoc] at same
      obtain ⟨first, others⟩ := List.append_inj same (size'.trans (sizes p (by simp)).symm)
      rw [first, ih (fun p member => sizes p (by simp [member]))
        (fun q member => sizes' q (by simp [member])) others]

/-- A stream of well-formed packets with other interrupts between its bytes, read often
enough and to the end: the events read are those of the packets, one each and in
order, exactly if every movement is small. -/
theorem mouse_events (s : Mouse) (id : UInt8) (calls : List Call) (packets : List (List UInt8))
    (wellFormed : ∀ p ∈ packets, WellFormed (id = 3) p)
    (stream : (calls.foldl act (start s id)).bytes = packets.flatten)
    (drained : EachStep Drained act (start s id) calls)
    (empty : mouseHasEvent (calls.foldl act (start s id)).mouse = false) :
    (calls.foldl act (start s id)).read = packets.map (decode (id = 3)) ↔
      ∀ p ∈ packets, SmallMoves p := by
  obtain ⟨-, index, bytes, sizes, queued, cells, few, balance⟩ :=
    drained.always Assembled.step (assembled_start s id) calls List.prefix_rfl
  have pushed : (calls.foldl act (start s id)).pushed = packets := by
    refine flatten_inj (fun p member => (wellFormed p member).length) sizes
      ?_ (bytes.symm.trans stream)
    simpa using index
  have read : queued = [] := by
    apply (cells.empty_iff few).mp
    simpa [mouseHasEvent, bufferEmpty] using empty
  rw [read, List.append_nil, pushed] at balance
  rw [balance, List.map_inj_left]
  exact forall₂_congr fun p _ => packetEvent_eq _ p

/-- The variables of `mouse.c` before `mouse_init`. -/
def bootMouse : Mouse := ⟨fun _ => ⟨0, 0, 0, 0⟩, 0, 0, fun _ => 0, 0, false⟩

/-- The bytes of a packet with an interrupt of another device behind the first, and a
read. -/
def packetCalls (a b c : UInt8) : List Call :=
  [.irq 0x21 a, .irq 0x00 0xFF, .irq 0x21 b, .irq 0x21 c, .readEvent]

theorem packetCalls_drained (a b c : UInt8) :
    EachStep Drained act (start bootMouse 0) (packetCalls a b c) := by
  refine eachStep_cons.mpr ⟨fun _ _ => rfl, eachStep_cons.mpr ⟨fun _ _ => rfl, ?_⟩⟩
  refine eachStep_cons.mpr ⟨fun _ _ => rfl, eachStep_cons.mpr ⟨fun _ _ => rfl, ?_⟩⟩
  exact eachStep_cons.mpr ⟨trivial, eachStep_nil⟩

instance : Decidable (Drained l call) :=
  match call with
  | .irq _ _ => inferInstanceAs (Decidable (_ → ¬ _ → _))
  | .readEvent => .isTrue trivial

/-- Three packets of a mouse with a wheel. -/
def wheelPackets : List (List UInt8) :=
  [[0x39, 0xFF, 0xFE, 0x01], [0x08, 0x05, 0x00, 0xFF], [0x2A, 0x10, 0x80, 0x00]]

/-- Each begins behind an interrupt of another device, and two wait for the first read. -/
def wheelCalls : List Call :=
  (wheelPackets.take 2).flatMap (fun p => .irq 0x00 0xFF :: p.map (.irq 0x21)) ++ [.readEvent] ++
    (wheelPackets.drop 2).flatMap (fun p => .irq 0x00 0xFF :: p.map (.irq 0x21)) ++
    [.readEvent, .readEvent]

theorem mouse_events_wheel :
    (wheelCalls.foldl act (start bootMouse 3)).read = wheelPackets.map (decode ((3 : UInt8) = 3)) ↔
      ∀ p ∈ wheelPackets, SmallMoves p := by
  have lengths : ∀ p ∈ wheelPackets, p.length = needed ((3 : UInt8) = 3) := by decide
  have overflows : ∀ p ∈ wheelPackets, p.getD 0 0 &&& 0xC0 = 0 := by decide
  have drained : EachStep Drained act (start bootMouse 3) wheelCalls := by decide +kernel
  exact mouse_events bootMouse 3 wheelCalls wheelPackets
    (fun p member => ⟨lengths p member, overflows p member⟩) (by decide +kernel) drained (by decide +kernel)

/-- 240 steps to the left arrive as 16 to the right. -/
theorem mouse_event_wrong :
    (∀ p ∈ [[0x18, 0x10, 0x00]], WellFormed false p) ∧
      ((packetCalls 0x18 0x10 0x00).foldl act (start bootMouse 0)).bytes =
        [[0x18, 0x10, 0x00]].flatten ∧
      EachStep Drained act (start bootMouse 0) (packetCalls 0x18 0x10 0x00) ∧
      mouseHasEvent ((packetCalls 0x18 0x10 0x00).foldl act (start bootMouse 0)).mouse = false ∧
      ((packetCalls 0x18 0x10 0x00).foldl act (start bootMouse 0)).read = [⟨16, 0, 0, 0⟩] ∧
      [[0x18, 0x10, 0x00]].map (decode false) = [⟨-240, 0, 0, 0⟩] := by
  refine ⟨fun p member => ?_, by decide, packetCalls_drained _ _ _, by decide, by decide, by decide⟩
  rw [List.mem_singleton.mp member]
  exact ⟨rfl, rfl⟩

end ZynthexOS.MouseDecoding
