import ZynthexOS.CursorTicks
import ZynthexOS.MouseStream
import ZynthexOS.Uptime

/-! From the bytes of the mouse to the pointer. As long as no packet is complete while 31 events
are unread, the pointer is where the packets cut from the bytes have moved it, but for those
that wait for the next tick. -/
namespace ZynthexOS.PointerPath
open ZynthexOS.Core Drivers Video MouseQueue CursorTicks DrawingBounds Lib

/-- An interrupt, or `mouse_enable`. -/
inductive Event where
  | interrupt (irq : Irq)
  | enable (on : Bool)

/-- The clock and the bytes that the mouse has sent. -/
structure Ledger where
  clock : Clock
  bytes : List UInt8

def Ledger.mouse (l : Ledger) : Mouse := l.clock.desktop.devices.mouse

/-- Whether `mouse_irq_handler` is called and the status says that the byte is the mouse's. -/
def Sends (irq : Irq) : Prop := irq.number = 44 ∧ irq.resumes = true ∧ irq.status &&& 0x20 ≠ 0

instance (irq : Irq) : Decidable (Sends irq) := inferInstanceAs (Decidable (_ ∧ _ ∧ _ ≠ _))

def act (l : Ledger) : Event → Ledger
  | .interrupt irq => ⟨l.clock.interrupt irq, l.bytes ++ if Sends irq then [irq.data] else []⟩
  | .enable on => { l with clock := { l.clock with desktop := { l.clock.desktop with mouseEnabled := on } } }

/-- A packet becomes complete while fewer than 31 events are unread. -/
def Roomy (l : Ledger) : Event → Prop
  | .interrupt irq => Sends irq → ¬ l.mouse.packetIndex + 1 < needed l.mouse.hasWheel → (waiting l.mouse).length < 31
  | .enable _ => True

/-- Behind `mouse_init`, with any pointers and anything drawn. -/
def start (clock : Clock) (id : UInt8) : Ledger where
  clock := { clock with
    desktop := clock.desktop.setMouse
      ⟨mouseInit clock.desktop.devices.mouse id, Nat.zero_lt_succ 31, Nat.zero_lt_succ 31⟩ }
  bytes := []

/-- Packets of a length, and the bytes of the one under way. -/
structure Cut (size : Nat) (bytes : List UInt8) (packets : List (List UInt8)) (rest : List UInt8) : Prop where
  all : packets.flatten ++ rest = bytes
  whole : ∀ p ∈ packets, p.length = size
  short : rest.length < size

/-- The event of a packet. -/
def event (hasWheel : Bool) (packet : List UInt8) : MouseEvent := packetEvent hasWheel fun i => packet.getD i 0

/-- The pointer in use has handled these events. -/
def Pointed (first d : Desktop) (handled : List MouseEvent) : Prop :=
  if first.framebuffer.available then
    (d.cursor, d.drawn) = handled.foldl (cursorStep first.framebuffer) (first.cursor, first.drawn)
  else d.textCursor = handled.foldl textCursorHandleEvent first.textCursor

/-- The pointer has handled the packets in their order up to those that wait, and a tick with the
mouse on leaves none of these. -/
def Followed (first l : Ledger) : Prop :=
  (∃ packets rest handled, Cut (needed first.mouse.hasWheel) l.bytes packets rest ∧
    packets.map (event first.mouse.hasWheel) = handled ++ waiting l.mouse ∧
    Pointed first.clock.desktop l.clock.desktop handled) ∧
  ∀ irq, irq.number = 32 → l.clock.desktop.mouseEnabled = true → waiting (act l (.interrupt irq)).mouse = []

variable {first l : Ledger} {d : Desktop} {irq : Irq} {m : IndexedMouse} {mouse : Mouse} {size : Nat}
  {bytes rest : List UInt8} {packets : List (List UInt8)} {queue handled : List MouseEvent}

/-! ## Packets -/

theorem Cut.assemble (cut : Cut size bytes packets rest) (byte : UInt8) (more : rest.length + 1 < size) :
    Cut size (bytes ++ [byte]) packets (rest ++ [byte]) := by
  refine ⟨?_, cut.whole, ?_⟩
  · rw [← cut.all, List.append_assoc]
  · rwa [List.length_append, List.length_singleton]

theorem Cut.complete (cut : Cut size bytes packets rest) (byte : UInt8) (last : ¬ rest.length + 1 < size) :
    Cut size (bytes ++ [byte]) (packets ++ [rest ++ [byte]]) [] := by
  have short := cut.short
  refine ⟨?_, ?_, Nat.zero_lt_of_lt short⟩
  · rw [← cut.all, List.flatten_append, List.flatten_singleton, List.append_nil, List.append_assoc]
  · rw [List.forall_mem_append]
    refine ⟨cut.whole, fun p member => ?_⟩
    rw [List.mem_singleton.mp member, List.length_append, List.length_singleton]
    omega

/-- The bytes of the packet under way stand in `packet`. -/
structure Assembles (mouse : Mouse) (rest : List UInt8) : Prop where
  index : mouse.packetIndex = rest.length
  cells : ∀ i < rest.length, mouse.packet i = rest.getD i 0

theorem Assembles.store (assembles : Assembles mouse rest) (byte : UInt8) (packetIndex : Nat) :
    ∀ i < (rest ++ [byte]).length, (mouse.store byte packetIndex).packet i = (rest ++ [byte]).getD i 0 := by
  intro i inside
  rw [List.length_append, List.length_singleton] at inside
  rw [Mouse.store]
  dsimp only
  rw [assembles.index, Function.update_apply]
  split_ifs with last
  · rw [last, List.getD_append_right _ _ _ _ (Nat.le_refl _), Nat.sub_self]
    rfl
  · have before : i < rest.length := by omega
    rw [assembles.cells i before, List.getD_append _ _ _ _ before]

/-- An event is made of the bytes of its packet only. -/
theorem packetEvent_eq (hasWheel : Bool) {packet packet' : Nat → UInt8}
    (same : ∀ i < needed hasWheel, packet i = packet' i) :
    packetEvent hasWheel packet = packetEvent hasWheel packet' := by
  have three : 3 ≤ needed hasWheel := by rcases MouseStream.needed_cases hasWheel with size | size <;> omega
  rw [packetEvent, packetEvent, same 0 (by omega), same 1 (by omega), same 2 (by omega)]
  cases hasWheel with
  | false => rfl
  | true => rw [same 3 (by decide)]

/-! ## The queue -/

theorem waiting_eq (queued : Queued mouse queue) : waiting mouse = queue := by
  have tail : mouse.bufTail < 32 := queued.cells.tail_lt
  have room : queue.length < 32 := queued.room
  have count : mouse.between = queue.length := by
    rw [Mouse.between, queued.cells.head_eq, mouseBufSize]
    omega
  rw [waiting, count]
  exact queued.cells.map_range

/-- The loops of the pointers leave the packet under way. -/
theorem whileEvents_packet (handle : σ → MouseEvent → σ) (p : σ) (queued : Queued m.1 queue) :
    (whileEvents handle p m).2.1.packet = m.1.packet ∧
      (whileEvents handle p m).2.1.packetIndex = m.1.packetIndex ∧
      (whileEvents handle p m).2.1.hasWheel = m.1.hasWheel := by
  induction queue generalizing p m with
  | nil =>
    rw [whileEvents_none (read_nil queued)]
    exact ⟨rfl, rfl, rfl⟩
  | cons ev queue ih =>
    obtain ⟨m', returned, rest⟩ := read_cons queued
    obtain ⟨packet, index, wheel, -⟩ := MouseStream.readEvent_mouse m.1
    rw [returned] at packet index wheel
    rw [whileEvents_some returned, ← packet, ← index, ← wheel]
    exact ih (handle p ev) rest

/-! ## What an event does -/

/-- A tick takes nothing from the packet under way. -/
theorem moveCursor_packet (d : Desktop) :
    d.moveCursor.devices.mouse.packet = d.devices.mouse.packet ∧
      d.moveCursor.devices.mouse.packetIndex = d.devices.mouse.packetIndex ∧
      d.moveCursor.devices.mouse.hasWheel = d.devices.mouse.hasWheel := by
  rw [Desktop.moveCursor]
  split_ifs
  · exact whileEvents_packet (m := ⟨d.devices.mouse, d.indexed⟩) _ _ (queued_waiting d.indexed)
  · exact whileEvents_packet (m := ⟨d.devices.mouse, d.indexed⟩) _ _ (queued_waiting d.indexed)
  · exact ⟨rfl, rfl, rfl⟩

theorem moveCursor_framebuffer (d : Desktop) : d.moveCursor.framebuffer = d.framebuffer := by
  rw [Desktop.moveCursor]
  split_ifs <;> rfl

/-- With the mouse on all that waited has been handled. -/
theorem moveCursor_waiting (enabled : d.mouseEnabled = true) : waiting d.moveCursor.devices.mouse = [] := by
  cases available : d.framebuffer.available with
  | true =>
    have handled := (tick_cursor (s := ⟨0, 0, d⟩) enabled available).2
    rw [timerTick_desktop] at handled
    exact waiting_eq handled
  | false =>
    have handled := (tick_textCursor (s := ⟨0, 0, d⟩) enabled available).2
    rw [timerTick_desktop] at handled
    exact waiting_eq handled

theorem Pointed.moveCursor {boot : Desktop} (pointed : Pointed boot d handled)
    (same : d.framebuffer = boot.framebuffer) :
    ∃ more, more ++ waiting d.moveCursor.devices.mouse = handled ++ waiting d.devices.mouse ∧
      Pointed boot d.moveCursor more := by
  by_cases enabled : d.mouseEnabled = true
  · refine ⟨handled ++ waiting d.devices.mouse, ?_, ?_⟩
    · rw [moveCursor_waiting enabled, List.append_nil]
    · cases available : boot.framebuffer.available with
      | true =>
        have cursor := (tick_cursor (s := ⟨0, 0, d⟩) enabled (by rw [same, available])).1
        rw [timerTick_desktop] at cursor
        rw [Pointed, if_pos available] at pointed ⊢
        rw [cursor, List.foldl_append, ← pointed, same]
      | false =>
        have cursor := (tick_textCursor (s := ⟨0, 0, d⟩) enabled (by rw [same, available])).1
        rw [timerTick_desktop] at cursor
        rw [Pointed, if_neg (by simp [available])] at pointed ⊢
        rw [cursor, List.foldl_append, ← pointed]
  · rw [Desktop.moveCursor, if_neg enabled]
    exact ⟨handled, rfl, pointed⟩

theorem interrupt_desktop (s : Clock) (irq : Irq) : (s.interrupt irq).desktop =
    if irq.number = 32 then (s.desktop.handle irq).moveCursor else s.desktop.handle irq := by
  rw [Uptime.interrupt_eq]
  split_ifs
  · exact timerTick_desktop _
  · rfl

theorem handle_idle (d : Desktop) (idle : ¬ Sends irq) : (d.handle irq).devices.mouse = d.devices.mouse := by
  change (isrHandlerIrq d.devices irq).1.mouse = _
  cases resumes : irq.resumes with
  | false => simp [isrHandlerIrq, resumes]
  | true =>
    have rest : (isrHandlerIrq d.devices irq).1 = (isrHandlerRest d.devices irq).1 := by
      simp [isrHandlerIrq, resumes]
    rw [rest, isrHandlerRest]
    split_ifs with keyboard number
    · rfl
    · have other : irq.status &&& 0x20 = 0 := not_not.mp fun mine => idle ⟨number, resumes, mine⟩
      exact mouseIrqHandler_other _ _ other
    · rfl
    · rfl

theorem handle_sends (d : Desktop) (sends : Sends irq) :
    (d.handle irq).devices.mouse = (mouseIrqHandler d.devices.mouse irq.status irq.data).1 := by
  obtain ⟨number, resumes, -⟩ := sends
  simp [Desktop.handle, isrHandlerIrq, isrHandlerRest, number, resumes]

/-- The bytes have become packets, and these the events that are handled and that wait. -/
structure Fed (hasWheel : Bool) (mouse : Mouse) (bytes : List UInt8) (packets : List (List UInt8))
    (rest : List UInt8) (handled : List MouseEvent) : Prop where
  cut : Cut (needed hasWheel) bytes packets rest
  assembles : Assembles mouse rest
  wheel : mouse.hasWheel = hasWheel
  events : packets.map (event hasWheel) = handled ++ waiting mouse

theorem Fed.sent {hasWheel : Bool} (fed : Fed hasWheel mouse bytes packets rest handled) (indexed : Indexed mouse)
    {status : UInt8} (data : UInt8) (mine : status &&& 0x20 ≠ 0)
    (roomy : ¬ mouse.packetIndex + 1 < needed mouse.hasWheel → (waiting mouse).length < 31) :
    ∃ packets rest, Fed hasWheel (mouseIrqHandler mouse status data).1 (bytes ++ [data]) packets rest handled := by
  obtain ⟨cut, assembles, wheel, events⟩ := fed
  by_cases short : mouse.packetIndex + 1 < needed mouse.hasWheel
  · rw [mouseIrqHandler_assembles data mine short]
    rw [assembles.index, wheel] at short
    refine ⟨packets, rest ++ [data], cut.assemble data short, ⟨?_, assembles.store data _⟩, wheel, events⟩
    rw [List.length_append, List.length_singleton, ← assembles.index]
    rfl
  · have free := roomy short
    rw [mouseIrqHandler_complete data mine short]
    rw [assembles.index, wheel] at short
    have stored : Queued (mouse.store data 0) (waiting mouse) := (queued_waiting indexed).same ⟨rfl, rfl, rfl⟩
    obtain ⟨pushed, queued⟩ :=
      stored.push (packetEvent mouse.hasWheel (mouse.store data 0).packet) (Nat.ne_of_lt free)
    have size : (rest ++ [data]).length = needed hasWheel := by
      have before := cut.short
      rw [List.length_append, List.length_singleton]
      omega
    have same : packetEvent mouse.hasWheel (mouse.store data 0).packet = event hasWheel (rest ++ [data]) := by
      rw [event, wheel]
      exact packetEvent_eq hasWheel fun i inside => assembles.store data 0 i (by rwa [size])
    refine ⟨packets ++ [rest ++ [data]], [], cut.complete data short, ⟨?_, ?_⟩, ?_, ?_⟩
    · rw [pushed]
      rfl
    · exact fun i inside => absurd inside (Nat.not_lt_zero i)
    · rw [pushed]
      exact wheel
    · rw [waiting_eq queued, List.map_append, events, same, List.append_assoc]
      rfl

theorem Fed.moved {hasWheel : Bool} {more : List MouseEvent}
    (fed : Fed hasWheel d.devices.mouse bytes packets rest handled)
    (taken : more ++ waiting d.moveCursor.devices.mouse = handled ++ waiting d.devices.mouse) :
    Fed hasWheel d.moveCursor.devices.mouse bytes packets rest more := by
  obtain ⟨packet, index, wheel⟩ := moveCursor_packet d
  refine ⟨fed.cut, ⟨index.trans fed.assembles.index, ?_⟩, wheel.trans fed.wheel, fed.events.trans taken.symm⟩
  rw [packet]
  exact fed.assembles.cells

/-! ## Runs -/

/-- What every run keeps. -/
structure Tracked (first l : Ledger) (packets : List (List UInt8)) (rest : List UInt8)
    (handled : List MouseEvent) : Prop where
  fed : Fed first.mouse.hasWheel l.mouse l.bytes packets rest handled
  framebuffer : l.clock.desktop.framebuffer = first.clock.desktop.framebuffer
  pointed : Pointed first.clock.desktop l.clock.desktop handled

theorem Tracked.interrupt (tracked : Tracked first l packets rest handled) (irq : Irq)
    (roomy : Roomy l (.interrupt irq)) :
    ∃ packets rest handled, Tracked first (act l (.interrupt irq)) packets rest handled := by
  obtain ⟨fed, framebuffer, pointed⟩ := tracked
  have brought : ∃ packets rest, Fed first.mouse.hasWheel (l.clock.desktop.handle irq).devices.mouse
      (act l (.interrupt irq)).bytes packets rest handled := by
    rw [act]
    dsimp only
    by_cases sends : Sends irq
    · rw [handle_sends _ sends, if_pos sends]
      exact fed.sent l.clock.desktop.indexed irq.data sends.2.2 (roomy sends)
    · rw [handle_idle _ sends, if_neg sends, List.append_nil]
      exact ⟨packets, rest, fed⟩
  obtain ⟨packets, rest, fed⟩ := brought
  have desktop := interrupt_desktop l.clock irq
  split_ifs at desktop with timer
  · obtain ⟨more, taken, pointed⟩ :=
      Pointed.moveCursor (d := l.clock.desktop.handle irq) pointed framebuffer
    refine ⟨packets, rest, more, ?_, ?_, ?_⟩
    · change Fed _ (l.clock.interrupt irq).desktop.devices.mouse _ _ _ _
      rw [desktop]
      exact fed.moved taken
    · change (l.clock.interrupt irq).desktop.framebuffer = _
      rw [desktop, moveCursor_framebuffer]
      exact framebuffer
    · change Pointed _ (l.clock.interrupt irq).desktop _
      rwa [desktop]
  · refine ⟨packets, rest, handled, ?_, ?_, ?_⟩
    · change Fed _ (l.clock.interrupt irq).desktop.devices.mouse _ _ _ _
      rwa [desktop]
    · change (l.clock.interrupt irq).desktop.framebuffer = _
      rw [desktop]
      exact framebuffer
    · change Pointed _ (l.clock.interrupt irq).desktop _
      rw [desktop]
      exact pointed

theorem tracked_start (clock : Clock) (id : UInt8) : Tracked (start clock id) (start clock id) [] [] [] := by
  have room : 0 < needed (id = 3) := by rcases MouseStream.needed_cases (id = 3) with size | size <;> omega
  refine ⟨⟨⟨rfl, by simp, room⟩, ⟨rfl, by simp⟩, rfl, ?_⟩, rfl, ?_⟩
  · have none : Queued (start clock id).mouse [] := ⟨.empty (Nat.zero_lt_succ 31), by decide⟩
    rw [waiting_eq none]
    rfl
  · rw [Pointed]
    split_ifs <;> rfl

/-- Whatever the interrupts, as long as no packet is complete while 31 events are unread: the
bytes are cut into packets, and the pointer is where their events have moved it, in order and up
to those that wait for the next tick with the mouse on. -/
theorem pointer_follows (clock : Clock) (id : UInt8) (events : List Event)
    (roomy : EachStep Roomy act (start clock id) events) :
    Always (Followed (start clock id)) act (start clock id) events := by
  have kept : Always (fun l => ∃ packets rest handled, Tracked (start clock id) l packets rest handled) act
      (start clock id) events := by
    refine roomy.always ?_ ⟨_, _, _, tracked_start clock id⟩
    rintro l (irq | on) ⟨packets, rest, handled, tracked⟩ free
    · exact tracked.interrupt irq free
    · exact ⟨packets, rest, handled, tracked.fed, tracked.framebuffer, tracked.pointed⟩
  refine kept.mono fun l ⟨packets, rest, handled, tracked⟩ =>
    ⟨⟨packets, rest, handled, tracked.fed.cut, tracked.fed.events, tracked.pointed⟩, fun irq timer enabled => ?_⟩
  change waiting (l.clock.interrupt irq).desktop.devices.mouse = []
  rw [interrupt_desktop, if_pos timer]
  exact moveCursor_waiting enabled

/-- A byte of the mouse, and the interrupt of the timer. -/
def mouseByte (data : UInt8) : Irq := ⟨44, by decide, 0, 0x20, data, true⟩

def packetAndTick : List Event :=
  [.enable true, .interrupt (mouseByte 0x08), .interrupt (mouseByte 4), .interrupt (mouseByte 0),
    .interrupt Uptime.timer]

theorem pointer_follows_packet :
    Always (Followed (start Uptime.bootClock 0)) act (start Uptime.bootClock 0) packetAndTick := by
  refine pointer_follows _ _ _ ?_
  have few : (waiting (start Uptime.bootClock 0).mouse).length < 31 := by decide
  refine eachStep_cons.mpr ⟨trivial, eachStep_cons.mpr ⟨fun _ _ => few, eachStep_cons.mpr ⟨fun _ _ => few,
    eachStep_cons.mpr ⟨fun _ _ => few, eachStep_cons.mpr ⟨fun sends => ?_, eachStep_nil⟩⟩⟩⟩⟩
  exact absurd sends (by decide)

/-! ## The pointer of the framebuffer -/

/-- The pointer stands on a pixel, and all that has been drawn since is on the target. -/
def Stays (boot : Desktop) (l : Ledger) : Prop :=
  OnScreen boot.framebuffer l.clock.desktop.cursor ∧
    ∃ more, l.clock.desktop.drawn = boot.drawn ++ more ∧ ∀ st ∈ more, OnSurface boot.framebuffer st.address

theorem moveCursor_stays (wide : 0 < d.framebuffer.width) (high : 0 < d.framebuffer.height)
    (on : OnScreen d.framebuffer d.cursor) : OnScreen d.framebuffer d.moveCursor.cursor ∧
      ∃ more, d.moveCursor.drawn = d.drawn ++ more ∧ ∀ st ∈ more, OnSurface d.framebuffer st.address := by
  by_cases moves : d.mouseEnabled = true ∧ d.framebuffer.available = true
  · have moved := tick_onScreen (s := ⟨0, 0, d⟩) moves.1 moves.2 wide high (.inr on)
    rwa [timerTick_desktop] at moved
  · have same : d.moveCursor.cursor = d.cursor ∧ d.moveCursor.drawn = d.drawn := by
      rw [Desktop.moveCursor]
      split_ifs with enabled available
      · exact absurd ⟨enabled, available⟩ moves
      · exact ⟨rfl, rfl⟩
      · exact ⟨rfl, rfl⟩
    rw [same.1, same.2]
    exact ⟨on, [], (List.append_nil _).symm, fun st member => absurd member List.not_mem_nil⟩

theorem Stays.interrupt {boot : Desktop} (wide : 0 < boot.framebuffer.width) (high : 0 < boot.framebuffer.height)
    (same : l.clock.desktop.framebuffer = boot.framebuffer) (stays : Stays boot l) (irq : Irq) :
    Stays boot (act l (.interrupt irq)) := by
  obtain ⟨on, more, drawn, inside⟩ := stays
  have desktop := interrupt_desktop l.clock irq
  rw [Stays]
  change OnScreen _ (l.clock.interrupt irq).desktop.cursor ∧ ∃ more, (l.clock.interrupt irq).desktop.drawn = _ ∧ _
  rw [desktop]
  split_ifs with timer
  · have handled : (l.clock.desktop.handle irq).framebuffer = boot.framebuffer := same
    obtain ⟨on, later, drawn', inside'⟩ := moveCursor_stays (d := l.clock.desktop.handle irq)
      (by rwa [handled]) (by rwa [handled]) (by rwa [handled])
    rw [handled] at on inside'
    refine ⟨on, more ++ later, ?_, ?_⟩
    · rw [drawn', ← List.append_assoc, ← drawn]
      rfl
    · rw [List.forall_mem_append]
      exact ⟨inside, inside'⟩
  · exact ⟨on, more, drawn, inside⟩

theorem act_framebuffer (l : Ledger) (e : Event) :
    (act l e).clock.desktop.framebuffer = l.clock.desktop.framebuffer := by
  cases e with
  | enable on => rfl
  | interrupt irq =>
    change (l.clock.interrupt irq).desktop.framebuffer = _
    rw [interrupt_desktop]
    split_ifs
    · exact moveCursor_framebuffer _
    · rfl

/-- Whatever the mouse sends and whenever, lost packets and packets out of step included: the
pointer stays on the screen and is drawn on it only. -/
theorem pointer_stays (clock : Clock) (id : UInt8) (events : List Event)
    (on : OnScreen clock.desktop.framebuffer clock.desktop.cursor) :
    Always (Stays clock.desktop) act (start clock id) events := by
  have wide := UInt32.lt_of_le_of_lt UInt32.zero_le on.1
  have high := UInt32.lt_of_le_of_lt UInt32.zero_le on.2
  have any : EachStep (fun _ _ => True) act (start clock id) events := fun _ _ _ _ => trivial
  have kept : Always (fun l => l.clock.desktop.framebuffer = clock.desktop.framebuffer ∧ Stays clock.desktop l) act
      (start clock id) events := by
    refine any.always ?_ ⟨rfl, on, [], (List.append_nil _).symm, fun st member => absurd member List.not_mem_nil⟩
    rintro l (irq | on) ⟨same, stays⟩ -
    · exact ⟨(act_framebuffer l _).trans same, stays.interrupt wide high same irq⟩
    · exact ⟨same, stays⟩
  exact kept.mono fun _ both => both.2

/-- With a framebuffer and the pointer in its middle. -/
def middleClock : Clock :=
  { Uptime.bootClock with
    desktop := { Uptime.bootClock.desktop with
      framebuffer := smallFb
      cursor := (cursorInit smallFb (smallFb.width / 2) (smallFb.height / 2) 0x00FFFFFF).1
      drawn := (cursorInit smallFb (smallFb.width / 2) (smallFb.height / 2) 0x00FFFFFF).2 } }

theorem pointer_stays_middle : Always (Stays middleClock.desktop) act (start middleClock 0) packetAndTick :=
  pointer_stays middleClock 0 packetAndTick (cursorInit_onScreen (by decide) (by decide) 0x00FFFFFF).1

end ZynthexOS.PointerPath
