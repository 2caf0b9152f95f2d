import ZynthexOS.Drivers.Mouse
import ZynthexOS.Lib.Fifo
import ZynthexOS.Lib.Runs

/-! The bytes of the mouse and the packets made of them, over any stream. The handler
counts bytes and looks at none: whether the stream is in step is up to the byte
that comes first in each packet. -/
namespace ZynthexOS.MouseStream
open Drivers Lib

/-- An interrupt with the status and the byte it reads, or a call of
`mouse_read_event`. -/
inductive Call where
  | irq (status data : UInt8)
  | readEvent
  deriving DecidableEq, Repr

/-- The mouse, the bytes that were mouse data, the packets whose event was pushed and
the events that were read. -/
structure Ledger where
  mouse : Mouse
  bytes : List UInt8
  pushed : List (List UInt8)
  read : List MouseEvent

/-- Whether the status says that the byte comes from the mouse. -/
def MouseData (status : UInt8) : Prop := status &&& 0x20 ≠ 0

instance (status : UInt8) : Decidable (MouseData status) := inferInstanceAs (Decidable (_ ≠ _))

def act (l : Ledger) : Call → Ledger
  | .irq status data =>
    let mouse := (mouseIrqHandler l.mouse status data).1
    { l with
      mouse := mouse
      bytes := l.bytes ++ if MouseData status then [data] else []
      pushed := l.pushed ++ if mouse.bufHead ≠ l.mouse.bufHead then [mouse.packetBytes] else [] }
  | .readEvent =>
    let (mouse, event) := mouseReadEvent l.mouse
    { l with mouse := mouse, read := l.read ++ event.toList }

/-- After `mouse_init`. -/
def start (s : Mouse) (id : UInt8) : Ledger := ⟨mouseInit s id, [], [], []⟩

/-! ## What one interrupt does -/

variable {l : Ledger} {status data : UInt8}

theorem act_other (other : ¬ MouseData status) : act l (.irq status data) = l := by
  have same := mouseIrqHandler_other l.mouse data (not_not.mp other)
  simp only [act, same, if_neg other, ne_eq, not_true_eq_false, if_false, List.append_nil]

theorem act_assembles (mine : MouseData status)
    (short : l.mouse.packetIndex + 1 < needed l.mouse.hasWheel) : act l (.irq status data) =
      { l with
        mouse := l.mouse.store data (l.mouse.packetIndex + 1)
        bytes := l.bytes ++ [data] } := by
  have stored := mouseIrqHandler_assembles data mine short
  have head : (l.mouse.store data (l.mouse.packetIndex + 1)).bufHead = l.mouse.bufHead := rfl
  simp only [act, stored, head, if_pos mine, ne_eq, not_true_eq_false, if_false, List.append_nil]

/-- A packet that finds the queue full is dropped. -/
theorem act_dropped (mine : MouseData status)
    (last : ¬ l.mouse.packetIndex + 1 < needed l.mouse.hasWheel) (full : bufferFull l.mouse = true) :
    act l (.irq status data) =
      { l with mouse := l.mouse.store data 0, bytes := l.bytes ++ [data] } := by
  have handled := mouseIrqHandler_complete data mine last
  have full' : bufferFull (l.mouse.store data 0) = true := full
  have head : (l.mouse.store data 0).bufHead = l.mouse.bufHead := rfl
  rw [bufferPush, if_pos full'] at handled
  simp only [act, handled, head, if_pos mine, ne_eq, not_true_eq_false, if_false, List.append_nil]

/-- Otherwise its event is pushed. -/
theorem act_pushed (mine : MouseData status)
    (last : ¬ l.mouse.packetIndex + 1 < needed l.mouse.hasWheel) (room : bufferFull l.mouse = false)
    (inside : l.mouse.bufHead < mouseBufSize) : act l (.irq status data) =
      { l with
        mouse := { l.mouse.store data 0 with
          mouseBuffer := Function.update l.mouse.mouseBuffer l.mouse.bufHead
            (packetEvent l.mouse.hasWheel (l.mouse.store data 0).packet)
          bufHead := (l.mouse.bufHead + 1) % mouseBufSize }
        bytes := l.bytes ++ [data]
        pushed := l.pushed ++ [(l.mouse.store data 0).packetBytes] } := by
  have handled := mouseIrqHandler_complete data mine last
  have room' : ¬ bufferFull (l.mouse.store data 0) = true := by
    change ¬ bufferFull l.mouse = true
    simp [room]
  have bound : l.mouse.bufHead < 32 := inside
  have moved : (l.mouse.bufHead + 1) % 32 ≠ l.mouse.bufHead := by omega
  have head : (l.mouse.store data 0).bufHead = l.mouse.bufHead := rfl
  rw [bufferPush, if_neg room'] at handled
  simp only [act, handled, head, mouseBufSize, if_pos mine, if_pos moved]
  rfl

/-! ## The always-one bit -/

/-- A first byte that says so. -/
def Marked (byte : UInt8) : Prop := byte &&& 0x08 ≠ 0

instance (byte : UInt8) : Decidable (Marked byte) := inferInstanceAs (Decidable (_ ≠ _))

/-- Every pushed packet starts with a marked byte, and so does the one under way. -/
structure InSync (l : Ledger) : Prop where
  pushed : ∀ p ∈ l.pushed, Marked (p.getD 0 0)
  started : l.mouse.packetIndex ≠ 0 → Marked (l.mouse.packet 0)

/-- Of the bytes of the mouse, those at the start of each group of a packet's length
are marked. -/
def Aligned (l : Ledger) : Call → Prop
  | .irq status data =>
    MouseData status → l.bytes.length % needed l.mouse.hasWheel = 0 → Marked data
  | .readEvent => True

/-- `packet_index` counts the bytes of the packet under way. -/
structure Counted (l : Ledger) : Prop where
  index : l.mouse.packetIndex = l.bytes.length % needed l.mouse.hasWheel
  head : l.mouse.bufHead < mouseBufSize

theorem needed_cases (hasWheel : Bool) : needed hasWheel = 3 ∨ needed hasWheel = 4 := by
  cases hasWheel
  · exact .inl rfl
  · exact .inr rfl

theorem readEvent_mouse (s : Mouse) : (mouseReadEvent s).1.packet = s.packet ∧
    (mouseReadEvent s).1.packetIndex = s.packetIndex ∧ (mouseReadEvent s).1.hasWheel = s.hasWheel ∧
    (mouseReadEvent s).1.bufHead = s.bufHead := by
  rw [mouseReadEvent]
  split_ifs <;> exact ⟨rfl, rfl, rfl, rfl⟩

theorem Counted.step (counted : Counted l) (call : Call) : Counted (act l call) := by
  obtain ⟨index, head⟩ := counted
  cases call with
  | readEvent =>
    obtain ⟨-, index', wheel, head'⟩ := readEvent_mouse l.mouse
    refine ⟨?_, ?_⟩
    · simp only [act, index', wheel, index]
    · simp only [act, head', head]
  | irq status data =>
    by_cases mine : MouseData status
    · have size := needed_cases l.mouse.hasWheel
      by_cases short : l.mouse.packetIndex + 1 < needed l.mouse.hasWheel
      · rw [act_assembles mine short]
        refine ⟨?_, head⟩
        simp only [Mouse.store, List.length_append, List.length_singleton]
        generalize needed l.mouse.hasWheel = n at size short index ⊢
        rcases size with rfl | rfl <;> omega
      · have next : 0 = (l.bytes ++ [data]).length % needed l.mouse.hasWheel := by
          rw [List.length_append, List.length_singleton]
          generalize needed l.mouse.hasWheel = n at size short index ⊢
          rcases size with rfl | rfl <;> omega
        cases full : bufferFull l.mouse with
        | true =>
          rw [act_dropped mine short full]
          exact ⟨next, head⟩
        | false =>
          rw [act_pushed mine short full head]
          exact ⟨next, Nat.mod_lt _ (by decide)⟩
    · rw [act_other mine]
      exact ⟨index, head⟩

/-! ## Runs -/

theorem counted_start (s : Mouse) (id : UInt8) : Counted (start s id) :=
  ⟨(Nat.zero_mod _).symm, Nat.zero_lt_succ 31⟩

theorem inSync_start (s : Mouse) (id : UInt8) : InSync (start s id) :=
  ⟨by simp [start], fun under => absurd rfl under⟩

/-- The first byte of the packet once `data` is stored. -/
theorem store_marked (started : l.mouse.packetIndex ≠ 0 → Marked (l.mouse.packet 0))
    (first : l.mouse.packetIndex = 0 → Marked data) (n : Nat) :
    Marked ((l.mouse.store data n).packet 0) := by
  rw [Mouse.store]
  dsimp only
  rw [Function.update_apply]
  split_ifs with here
  · exact first here.symm
  · exact started (Ne.symm here)

theorem packetBytes_first (s : Mouse) : s.packetBytes.getD 0 0 = s.packet 0 := by
  rcases needed_cases s.hasWheel with size | size <;> simp [Mouse.packetBytes, size]

theorem InSync.keep (sync : InSync l) (counted : Counted l) (aligned : Aligned l call) :
    InSync (act l call) := by
  obtain ⟨pushed, started⟩ := sync
  cases call with
  | readEvent =>
    obtain ⟨packet, index, -, -⟩ := readEvent_mouse l.mouse
    refine ⟨pushed, ?_⟩
    simpa only [act, packet, index] using started
  | irq status data =>
    by_cases mine : MouseData status
    · have first : l.mouse.packetIndex = 0 → Marked data :=
        fun zero => aligned mine (counted.index ▸ zero)
      have marked := fun n => store_marked started first n
      by_cases short : l.mouse.packetIndex + 1 < needed l.mouse.hasWheel
      · rw [act_assembles mine short]
        exact ⟨pushed, fun _ => marked _⟩
      · cases full : bufferFull l.mouse with
        | true =>
          rw [act_dropped mine short full]
          exact ⟨pushed, fun under => absurd rfl under⟩
        | false =>
          rw [act_pushed mine short full counted.head]
          refine ⟨fun p member => ?_, fun under => absurd rfl under⟩
          rcases List.mem_append.mp member with older | new
          · exact pushed p older
          · rw [List.mem_singleton.mp new, packetBytes_first]
            exact marked 0
    · rw [act_other mine]
      exact ⟨pushed, started⟩

/-- An unmarked byte is taken as the start of a packet like any other. -/
theorem Counted.broken (counted : Counted l) (shifted : ¬ Aligned l call) : ¬ InSync (act l call) := by
  cases call with
  | readEvent => exact absurd trivial shifted
  | irq status data =>
    simp only [Aligned, Classical.not_imp] at shifted
    obtain ⟨mine, boundary, unmarked⟩ := shifted
    have zero : l.mouse.packetIndex = 0 := counted.index.trans boundary
    have short : l.mouse.packetIndex + 1 < needed l.mouse.hasWheel := by
      rcases needed_cases l.mouse.hasWheel with size | size <;> omega
    rw [act_assembles mine short]
    intro sync
    have first := sync.started (Nat.succ_ne_zero l.mouse.packetIndex)
    simp only [Mouse.store, zero, Function.update_self] at first
    exact unmarked first

/-- The stream is in step throughout a run exactly if the first of every 3 bytes, or
of every 4 with a wheel, has its always-one bit set. -/
theorem mouse_in_sync (s : Mouse) (id : UInt8) (calls : List Call) :
    Always InSync act (start s id) calls ↔ EachStep Aligned act (start s id) calls := by
  have law : Always InSync act (start s id) calls ↔
      Always (fun l => InSync l ∧ Counted l) act (start s id) calls := by
    refine ⟨fun sync before short => ⟨sync before short, ?_⟩, Always.mono fun _ both => both.1⟩
    have each : EachStep (fun _ _ => True) act (start s id) calls := fun _ _ _ _ => trivial
    exact each.always (fun _ call counted _ => counted.step call) (counted_start s id) before short
  rw [law]
  refine always_iff_eachStep (fun _ both => both) ?_ ?_ ⟨inSync_start s id, counted_start s id⟩
  · rintro l call ⟨sync, counted⟩ aligned
    exact ⟨sync.keep counted aligned, counted.step call⟩
  · rintro l call ⟨-, counted⟩ shifted after
    exact counted.broken shifted after.1

/-- Three bytes without the bit are a packet. -/
theorem mouse_out_of_sync : ¬ Always InSync act
    (start ⟨fun _ => ⟨0, 0, 0, 0⟩, 0, 0, fun _ => 0, 0, false⟩ 0)
    [.irq 0x20 0x01, .irq 0x20 0x02, .irq 0x20 0x03] := by
  intro always
  have sync := (always _ List.prefix_rfl).pushed [0x01, 0x02, 0x03] (by decide)
  revert sync
  decide

end ZynthexOS.MouseStream
