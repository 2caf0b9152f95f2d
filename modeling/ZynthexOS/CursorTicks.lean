import ZynthexOS.Core.Time
import ZynthexOS.DrawingBounds
import ZynthexOS.MouseQueue

/-! The mouse pointers at a tick of the timer. The pointer in use takes all events that are
unread, in their order; the one of the framebuffer ends on a pixel and is drawn on the target
only. -/
namespace ZynthexOS.CursorTicks
open ZynthexOS.Core Drivers Video MouseQueue DrawingBounds

/-- The events between the indices, the oldest first. -/
def waiting (m : Mouse) : List MouseEvent :=
  (List.range m.between).map fun i => m.mouseBuffer ((m.bufTail + i) % mouseBufSize)

/-- The pointer stands on a pixel. -/
def OnScreen (fb : FbInfo) (c : Cursor) : Prop := c.curX < fb.width ∧ c.curY < fb.height

/-- What an event adds to what has been drawn. -/
def cursorStep (fb : FbInfo) (c : Cursor × Drawing) (ev : MouseEvent) : Cursor × Drawing :=
  ((cursorHandleEvent fb c.1 ev).1, c.2 ++ (cursorHandleEvent fb c.1 ev).2)

variable {fb : FbInfo} {queue : List MouseEvent} {mouse mouse' : Mouse} {m : IndexedMouse}
  {s : Clock} {c : Cursor × Drawing} {ev : MouseEvent}

/-! ## The loop -/

theorem queued_waiting (indexed : Indexed mouse) : Queued mouse (waiting mouse) := by
  have head : mouse.bufHead < 32 := indexed.head
  have tail : mouse.bufTail < 32 := indexed.tail
  have length : (waiting mouse).length = (mouse.bufHead + 32 - mouse.bufTail) % 32 := by
    rw [waiting, List.length_map, List.length_range]
    rfl
  refine ⟨⟨tail, ?_, ?_, ?_⟩, ?_⟩
  · rw [length, mouseBufSize]
    omega
  · rw [length, mouseBufSize]
    omega
  · intro i inside
    simp [waiting]
  · rw [length, mouseBufSize]
    omega

theorem read_nil (queued : Queued mouse []) : mouseReadEvent mouse = (mouse, none) := by
  rw [mouseReadEvent, if_pos (queued.empty_iff.mpr rfl)]

theorem read_cons (queued : Queued mouse (ev :: queue)) :
    ∃ mouse', mouseReadEvent mouse = (mouse', some ev) ∧ Queued mouse' queue := by
  have some : ¬ bufferEmpty mouse = true := mt queued.empty_iff.mp (by simp)
  obtain ⟨first, rest⟩ := queued.cells.pop
  have room := queued.room
  rw [List.length_cons] at room
  rw [mouseReadEvent, if_neg some, first]
  exact ⟨_, rfl, rest, Nat.lt_of_succ_lt room⟩

/-- The loop handles the events in the queue and leaves it empty. -/
theorem whileEvents_spec (handle : σ → MouseEvent → σ) (p : σ) (queued : Queued m.1 queue) :
    (whileEvents handle p m).1 = queue.foldl handle p ∧ Queued (whileEvents handle p m).2.1 [] := by
  induction queue generalizing p m with
  | nil =>
    rw [whileEvents_none (read_nil queued)]
    exact ⟨rfl, queued⟩
  | cons ev queue ih =>
    obtain ⟨m', returned, rest⟩ := read_cons queued
    rw [whileEvents_some returned]
    exact ih (handle p ev) rest

/-! ## The pointer of the framebuffer -/

theorem clampU32_lt (v : UInt32) (some : 0 < size) : Cursor.clampU32 v 0 (size - 1) < size := by
  have last : size - 1 < size := by
    have positive := UInt32.lt_iff_toNat_lt.mp some
    have one : (1 : UInt32) ≤ size := UInt32.le_iff_toNat_le.mpr positive
    rw [UInt32.lt_iff_toNat_lt, UInt32.toNat_sub_of_le _ _ one]
    exact Nat.sub_one_lt (Nat.ne_of_gt positive)
  rw [Cursor.clampU32, if_neg UInt32.not_lt_zero]
  split_ifs with beyond
  · exact last
  · exact UInt32.lt_of_le_of_lt (UInt32.not_lt.mp beyond) last

/-- An event moves the pointer to a pixel, if there are any. -/
theorem handleEvent_onScreen (available : fb.available = true) (wide : 0 < fb.width) (high : 0 < fb.height)
    (c : Cursor) (ev : MouseEvent) : OnScreen fb (cursorHandleEvent fb c ev).1 := by
  rw [cursorHandleEvent]
  dsimp only
  rw [if_pos ⟨available, wide, high⟩]
  exact ⟨clampU32_lt _ wide, clampU32_lt _ high⟩

theorem cursorDraw_onSurface (fb : FbInfo) (c : Cursor) : ∀ st ∈ cursorDraw fb c, OnSurface fb st.address := by
  rw [cursorDraw]
  split_ifs
  · exact fillRect_onSurface fb _ _ _ _ _
  · exact fun st member => absurd member List.not_mem_nil

/-- `cursor_init`, as the kernel calls it, puts the pointer on a pixel and draws it on the target. -/
theorem cursorInit_onScreen (wide : 0 < fb.width) (high : 0 < fb.height) (color : UInt32) :
    OnScreen fb (cursorInit fb (fb.width / 2) (fb.height / 2) color).1 ∧
      ∀ st ∈ (cursorInit fb (fb.width / 2) (fb.height / 2) color).2, OnSurface fb st.address := by
  have half {v : UInt32} (some : 0 < v) : v / 2 < v := by
    rw [UInt32.lt_iff_toNat_lt] at some ⊢
    rw [UInt32.toNat_div]
    exact Nat.div_lt_self some (by decide)
  exact ⟨⟨half wide, half high⟩, cursorDraw_onSurface fb _⟩

/-- Events only add stores to the target. -/
theorem events_onSurface (queue : List MouseEvent) (c : Cursor × Drawing) :
    ∃ more, (queue.foldl (cursorStep fb) c).2 = c.2 ++ more ∧ ∀ st ∈ more, OnSurface fb st.address := by
  induction queue generalizing c with
  | nil => exact ⟨[], (List.append_nil _).symm, fun st member => absurd member List.not_mem_nil⟩
  | cons ev queue ih =>
    obtain ⟨more, drawn, on⟩ := ih (cursorStep fb c ev)
    refine ⟨(cursorHandleEvent fb c.1 ev).2 ++ more, ?_, ?_⟩
    · rw [← List.append_assoc]
      exact drawn
    · rw [List.forall_mem_append]
      exact ⟨cursorDraw_onSurface fb _, on⟩

theorem events_onScreen (available : fb.available = true) (wide : 0 < fb.width) (high : 0 < fb.height)
    (some : queue ≠ [] ∨ OnScreen fb c.1) : OnScreen fb (queue.foldl (cursorStep fb) c).1 := by
  induction queue generalizing c with
  | nil => exact some.resolve_left fun none => none rfl
  | cons ev queue ih => exact ih (.inr (handleEvent_onScreen available wide high c.1 ev))

/-! ## A tick -/

theorem timerTick_desktop (s : Clock) : (timerTick s).desktop = s.desktop.moveCursor := by
  rw [timerTick]
  dsimp only
  split_ifs <;> rfl

/-- Without a framebuffer a tick gives all events to the pointer of the text screen. -/
theorem tick_textCursor (enabled : s.desktop.mouseEnabled = true)
    (text : s.desktop.framebuffer.available = false) :
    (timerTick s).desktop.textCursor =
        (waiting s.desktop.devices.mouse).foldl textCursorHandleEvent s.desktop.textCursor ∧
      Queued (timerTick s).desktop.devices.mouse [] := by
  have handled := whileEvents_spec (m := ⟨s.desktop.devices.mouse, s.desktop.indexed⟩)
    textCursorHandleEvent s.desktop.textCursor (queued_waiting s.desktop.indexed)
  rw [timerTick_desktop, Desktop.moveCursor, if_pos enabled, if_neg (by simp [text])]
  exact handled

/-- With one it gives them to the pointer there. -/
theorem tick_cursor (enabled : s.desktop.mouseEnabled = true)
    (available : s.desktop.framebuffer.available = true) :
    ((timerTick s).desktop.cursor, (timerTick s).desktop.drawn) =
        (waiting s.desktop.devices.mouse).foldl (cursorStep s.desktop.framebuffer)
          (s.desktop.cursor, s.desktop.drawn) ∧
      Queued (timerTick s).desktop.devices.mouse [] := by
  have handled := whileEvents_spec (m := ⟨s.desktop.devices.mouse, s.desktop.indexed⟩)
    (cursorStep s.desktop.framebuffer) (s.desktop.cursor, s.desktop.drawn)
    (queued_waiting s.desktop.indexed)
  rw [timerTick_desktop, Desktop.moveCursor, if_pos enabled, if_pos available]
  exact handled

/-- That leaves it on a pixel, and it is drawn on the target only. -/
theorem tick_onScreen (enabled : s.desktop.mouseEnabled = true)
    (available : s.desktop.framebuffer.available = true) (wide : 0 < s.desktop.framebuffer.width)
    (high : 0 < s.desktop.framebuffer.height)
    (some : waiting s.desktop.devices.mouse ≠ [] ∨ OnScreen s.desktop.framebuffer s.desktop.cursor) :
    OnScreen s.desktop.framebuffer (timerTick s).desktop.cursor ∧
      ∃ more, (timerTick s).desktop.drawn = s.desktop.drawn ++ more ∧
        ∀ st ∈ more, OnSurface s.desktop.framebuffer st.address := by
  obtain ⟨cursor, drawn⟩ := Prod.mk.inj (tick_cursor enabled available).1
  rw [cursor, drawn]
  exact ⟨events_onScreen available wide high some, events_onSurface _ _⟩

end ZynthexOS.CursorTicks
