import ZynthexOS.ScreenMirror
import ZynthexOS.Video.TextCursor

/-! The cell under the mouse pointer. It is saved before the pointer is drawn over it, but
given back only after the pointer has moved, so that it goes to the new position and the
block stays behind at the old one. -/
namespace ZynthexOS.PointerTrace
open Video Drivers Lib

/-- The cell that the pointer stands on. -/
def position (s : Pointer) : Nat := s.tcurRow * vgaWidth + s.tcurCol

/-- Every cell but that of the pointer holds what it held at first, on the screen and in
the back buffer, and once the pointer is drawn so does `saved_cell` for its cell. -/
structure Traceless (first s : Pointer) : Prop where
  others : ∀ i, i ≠ position s → s.screen.backBuffer i = first.screen.backBuffer i ∧
    s.screen.terminalBuffer i = first.screen.terminalBuffer i
  saved : s.hasSaved = true → s.savedCell = first.screen.backBuffer (position s)

/-- By how many cells an event moves the pointer. -/
def travel (accum : Int32) (d : Int) : Int := (accum + .ofInt d).toInt.tdiv 4

/-- Where that leads from a position between 0 and `last`. -/
def target (last pos : Nat) (cells : Int) : Nat := (max 0 (min (last : Int) (pos + cells))).toNat

def targetCol (s : Pointer) (ev : MouseEvent) : Nat :=
  target (vgaWidth - 1) s.tcurCol (travel s.accumX ev.dx)

def targetRow (s : Pointer) (ev : MouseEvent) : Nat :=
  target (vgaHeight - 1) s.tcurRow (travel s.accumY ev.dy)

/-- No cell is saved, or the event leaves the pointer where it is, or block cells stood at
the old and the new position at first, so that the difference does not show. -/
def Harmless (first s : Pointer) (ev : MouseEvent) : Prop :=
  s.hasSaved = false ∨ (targetCol s ev = s.tcurCol ∧ targetRow s ev = s.tcurRow) ∨
    (first.screen.backBuffer (position s) = first.block ∧
      first.screen.terminalBuffer (position s) = first.block ∧
      first.screen.backBuffer (targetRow s ev * vgaWidth + targetCol s ev) = first.block)

/-- The pointer is on the screen, and the block is all that has been drawn. -/
structure Drawn (first s : Pointer) : Prop where
  col : s.tcurCol < vgaWidth
  row : s.tcurRow < vgaHeight
  block : s.block = first.block
  fresh : s.hasSaved = false → s.screen.backBuffer = first.screen.backBuffer ∧
    s.screen.terminalBuffer = first.screen.terminalBuffer
  beneath : s.hasSaved = true → s.savedCell = first.screen.backBuffer (position s) ∧
    s.screen.backBuffer = Function.update first.screen.backBuffer (position s) first.block ∧
    s.screen.terminalBuffer = Function.update first.screen.terminalBuffer (position s) first.block

/-! ## What an event does -/

variable {first s : Pointer} {ev : MouseEvent}

theorem stepsUp_spec (accum : Int32) (moved : Bool) (inside : pos ≤ last) :
    ∃ accum', stepsUp last accum pos moved =
      (accum', min last (pos + accum.toInt.toNat / 4), moved || decide (4 ≤ accum.toInt)) ∧
      accum'.toInt = if 4 ≤ accum.toInt then accum.toInt % 4 else accum.toInt := by
  fun_induction stepsUp last accum pos moved with
  | case1 accum pos moved large ih =>
    rw [dite_eq_ite] at ih
    obtain ⟨least, less⟩ := toInt_sub_four large
    obtain ⟨accum', steps, rest⟩ := ih (by split <;> omega)
    have there : min last ((if pos < last then pos + 1 else pos) + (accum - 4).toInt.toNat / 4) =
        min last (pos + accum.toInt.toNat / 4) := by
      rw [less]
      split <;> omega
    refine ⟨accum', ?_, ?_⟩
    · rw [steps, there, decide_eq_true least, Bool.or_true, Bool.true_or]
    · rw [rest, less, if_pos least]
      split <;> omega
  | case2 accum pos moved small =>
    have less : ¬ 4 ≤ accum.toInt := fun least => small (Int32.le_iff_toInt_le.mpr least)
    have here : min last (pos + accum.toInt.toNat / 4) = pos := by omega
    exact ⟨accum, by rw [here, decide_eq_false less, Bool.or_false], (if_neg less).symm⟩

theorem stepsDown_spec (accum : Int32) (pos : Nat) (moved : Bool) : ∃ accum', stepsDown accum pos moved =
    (accum', pos - (-accum.toInt).toNat / 4, moved || decide (accum.toInt ≤ -4)) := by
  fun_induction stepsDown accum pos moved with
  | case1 accum pos moved small ih =>
    rw [dite_eq_ite] at ih
    obtain ⟨most, more⟩ := toInt_add_four small
    obtain ⟨accum', steps⟩ := ih
    have there : (if pos > 0 then pos - 1 else pos) - (-(accum + 4).toInt).toNat / 4 =
        pos - (-accum.toInt).toNat / 4 := by
      rw [more]
      split <;> omega
    exact ⟨accum', by rw [steps, there, decide_eq_true most, Bool.or_true, Bool.true_or]⟩
  | case2 accum pos moved large =>
    have more : ¬ accum.toInt ≤ -4 := fun most => large (Int32.le_iff_toInt_le.mpr most)
    have here : pos - (-accum.toInt).toNat / 4 = pos := by omega
    exact ⟨accum, by rw [here, decide_eq_false more, Bool.or_false]⟩

theorem tdiv_four (t : Int) : t.tdiv 4 = if 0 ≤ t then t / 4 else -(-t / 4) := by
  split_ifs with sign
  · exact Int.tdiv_eq_ediv_of_nonneg sign
  · rw [← Int.tdiv_eq_ediv_of_nonneg (by omega), Int.neg_tdiv, Int.neg_neg]

/-- Both loops of a direction. -/
theorem steps_spec (accum : Int32) (d : Int) (moved : Bool) (inside : pos ≤ last) : ∃ up accum',
    stepsUp last (accum + .ofInt d) pos moved = up ∧ stepsDown up.1 up.2.1 up.2.2 =
      (accum', target last pos (travel accum d), moved || decide (travel accum d ≠ 0)) := by
  obtain ⟨middle, up, rest⟩ := stepsUp_spec (accum + .ofInt d) moved inside
  obtain ⟨accum', down⟩ := stepsDown_spec middle
    (min last (pos + (accum + .ofInt d).toInt.toNat / 4)) (moved || decide (4 ≤ (accum + .ofInt d).toInt))
  refine ⟨_, accum', up, down.trans ?_⟩
  rw [travel, target, tdiv_four, rest]
  generalize (accum + Int32.ofInt d).toInt = t
  have place : min last (pos + t.toNat / 4) - (-(if 4 ≤ t then t % 4 else t)).toNat / 4 =
      (max 0 (min (last : Int) (pos + if 0 ≤ t then t / 4 else -(-t / 4)))).toNat := by
    split <;> split <;> omega
  have runs : (moved || decide (4 ≤ t) || decide ((if 4 ≤ t then t % 4 else t) ≤ -4)) =
      (moved || decide ((if 0 ≤ t then t / 4 else -(-t / 4)) ≠ 0)) := by
    rw [Bool.or_assoc, ← Bool.decide_or]
    congr 1
    rw [decide_eq_decide]
    split <;> split <;> omega
  rw [place, runs]

/-- A cell in both buffers. -/
def plot (s : Screen) (i : Nat) (value : UInt16) : Screen :=
  { s with
    backBuffer := Function.update s.backBuffer i value
    terminalBuffer := Function.update s.terminalBuffer i value }

theorem plot_plot (s : Screen) (i : Nat) (value value' : UInt16) :
    plot (plot s i value) i value' = plot s i value' := by
  simp only [plot, Function.update_idem]

theorem writeCell_inside (s : Screen) (value : UInt16) (col : c < vgaWidth) (row : r < vgaHeight) :
    vgaWriteCell s r c value = plot s (r * vgaWidth + c) value := by
  have inside : ¬ (r ≥ vgaHeight ∨ c ≥ vgaWidth) := by
    rw [not_or, Nat.not_le, Nat.not_le]
    exact ⟨row, col⟩
  rw [vgaWriteCell, if_neg inside]
  rfl

theorem readCell_inside (s : Screen) (col : c < vgaWidth) (row : r < vgaHeight) :
    vgaReadCell s r c = s.backBuffer (r * vgaWidth + c) := by
  have inside : ¬ (r ≥ vgaHeight ∨ c ≥ vgaWidth) := by
    rw [not_or, Nat.not_le, Nat.not_le]
    exact ⟨row, col⟩
  rw [vgaReadCell, if_neg inside]

/-- The pointer with its block drawn where it is. A cell that is saved stays the saved one. -/
def plotted (s : Pointer) : Pointer :=
  { s with
    savedCell := if s.hasSaved then s.savedCell else s.screen.backBuffer (position s)
    hasSaved := true
    screen := plot s.screen (position s) s.block }

theorem plotted_position (s : Pointer) : position (plotted s) = position s := rfl

theorem plotted_savedCell (s : Pointer) : (plotted s).savedCell =
    if s.hasSaved then s.savedCell else s.screen.backBuffer (position s) := rfl

theorem plotted_backBuffer (s : Pointer) : (plotted s).screen.backBuffer =
    Function.update s.screen.backBuffer (position s) s.block := rfl

theorem plotted_terminalBuffer (s : Pointer) : (plotted s).screen.terminalBuffer =
    Function.update s.screen.terminalBuffer (position s) s.block := rfl

/-- The saved cell, drawn where the pointer is now, is saved again. -/
theorem draw_spec (col : s.tcurCol < vgaWidth) (row : s.tcurRow < vgaHeight) :
    textCursorDraw s = plotted s := by
  rw [textCursorDraw, restoreCell, plotted]
  cases saved : s.hasSaved with
  | false =>
    rw [if_neg Bool.false_ne_true]
    dsimp only
    rw [readCell_inside _ col row, writeCell_inside _ _ col row]
    rfl
  | true =>
    rw [if_pos rfl, writeCell_inside _ _ col row]
    dsimp only
    rw [readCell_inside _ col row, writeCell_inside _ _ col row, plot_plot]
    simp only [plot, Function.update_self]
    rfl

/-- The pointer where the event takes it, before it is drawn there. -/
def arrived (s : Pointer) (ev : MouseEvent) (accumX accumY : Int32) : Pointer :=
  { s with tcurCol := targetCol s ev, tcurRow := targetRow s ev, accumX := accumX, accumY := accumY }

theorem arrived_screen (s : Pointer) (ev : MouseEvent) (ax ay : Int32) :
    (arrived s ev ax ay).screen = s.screen := by
  rw [arrived]

theorem arrived_block (s : Pointer) (ev : MouseEvent) (ax ay : Int32) :
    (arrived s ev ax ay).block = s.block := by
  rw [arrived, Pointer.block, Pointer.block]

theorem arrived_hasSaved (s : Pointer) (ev : MouseEvent) (ax ay : Int32) :
    (arrived s ev ax ay).hasSaved = s.hasSaved := by
  rw [arrived]

theorem arrived_savedCell (s : Pointer) (ev : MouseEvent) (ax ay : Int32) :
    (arrived s ev ax ay).savedCell = s.savedCell := by
  rw [arrived]

theorem handle_spec (ev : MouseEvent) (col : s.tcurCol < vgaWidth) (row : s.tcurRow < vgaHeight) :
    ∃ accumX accumY, textCursorHandleEvent s ev =
      if travel s.accumX ev.dx ≠ 0 ∨ travel s.accumY ev.dy ≠ 0 then
        textCursorDraw (arrived s ev accumX accumY)
      else arrived s ev accumX accumY := by
  obtain ⟨⟨ax, cx, mx⟩, accumX, right, left⟩ := steps_spec s.accumX ev.dx false
    (Nat.le_sub_one_of_lt col)
  obtain ⟨⟨ay, cy, my⟩, accumY, down, up⟩ := steps_spec s.accumY ev.dy
    (false || decide (travel s.accumX ev.dx ≠ 0)) (Nat.le_sub_one_of_lt row)
  refine ⟨accumX, accumY, ?_⟩
  simp only [textCursorHandleEvent, right, left, down, up]
  rw [Bool.false_or, ← Bool.decide_or]
  exact if_congr decide_eq_true_iff rfl rfl

/-! ## Where the event leads -/

theorem target_le : target last pos cells ≤ last := by
  simp only [target]
  omega

theorem target_zero (inside : pos ≤ last) : target last pos 0 = pos := by
  simp only [target]
  omega

theorem arrived_col (s : Pointer) (ev : MouseEvent) (ax ay : Int32) :
    (arrived s ev ax ay).tcurCol < vgaWidth :=
  Nat.lt_of_le_of_lt target_le (by decide)

theorem arrived_row (s : Pointer) (ev : MouseEvent) (ax ay : Int32) :
    (arrived s ev ax ay).tcurRow < vgaHeight :=
  Nat.lt_of_le_of_lt target_le (by decide)

theorem arrived_same (drawn : Drawn first s) (ev : MouseEvent) (ax ay : Int32) :
    position (arrived s ev ax ay) = position s ↔ targetCol s ev = s.tcurCol ∧ targetRow s ev = s.tcurRow :=
  (ScreenMirror.index_eq (arrived_col s ev ax ay) drawn.col).trans and_comm

/-- An event that does not travel leads nowhere. -/
theorem arrived_still (drawn : Drawn first s)
    (still : ¬ (travel s.accumX ev.dx ≠ 0 ∨ travel s.accumY ev.dy ≠ 0)) :
    targetCol s ev = s.tcurCol ∧ targetRow s ev = s.tcurRow := by
  rw [not_or, not_not, not_not] at still
  rw [targetCol, targetRow, still.1, still.2]
  exact ⟨target_zero (Nat.le_sub_one_of_lt drawn.col), target_zero (Nat.le_sub_one_of_lt drawn.row)⟩

theorem Drawn.traceless (drawn : Drawn first s) : Traceless first s := by
  cases saved : s.hasSaved with
  | false =>
    obtain ⟨back, terminal⟩ := drawn.fresh saved
    refine ⟨fun i _ => ⟨congrFun back i, congrFun terminal i⟩, fun real => ?_⟩
    exact absurd (saved.symm.trans real) Bool.false_ne_true
  | true =>
    obtain ⟨cell, back, terminal⟩ := drawn.beneath saved
    refine ⟨fun i other => ?_, fun _ => cell⟩
    rw [back, terminal, Function.update_of_ne other, Function.update_of_ne other]
    exact ⟨rfl, rfl⟩

/-- Drawing where the pointer has arrived, with the first drawing or where the difference
does not show. -/
theorem drawn_draw (drawn : Drawn first s) (harmless : Harmless first s ev) :
    Drawn first (textCursorDraw (arrived s ev ax ay)) := by
  have here := arrived_same drawn ev ax ay
  rw [draw_spec (arrived_col s ev ax ay) (arrived_row s ev ax ay)]
  refine ⟨arrived_col s ev ax ay, arrived_row s ev ax ay, drawn.block, fun none => (nomatch none), fun _ => ?_⟩
  rw [plotted_position, plotted_savedCell, plotted_backBuffer, plotted_terminalBuffer, arrived_screen,
    arrived_block, arrived_hasSaved, arrived_savedCell, drawn.block]
  cases saved : s.hasSaved with
  | false =>
    obtain ⟨back, terminal⟩ := drawn.fresh saved
    rw [back, terminal]
    exact ⟨rfl, rfl, rfl⟩
  | true =>
    obtain ⟨cell, back, terminal⟩ := drawn.beneath saved
    rw [back, terminal, if_pos rfl, cell]
    rcases harmless with none | same | ⟨oldBack, oldTerminal, new⟩
    · exact absurd (none.symm.trans saved) Bool.false_ne_true
    · rw [here.mpr same, Function.update_idem, Function.update_idem]
      exact ⟨rfl, rfl, rfl⟩
    · have kept : Function.update first.screen.backBuffer (position s) first.block =
          first.screen.backBuffer := by rw [← oldBack, Function.update_eq_self]
      have kept' : Function.update first.screen.terminalBuffer (position s) first.block =
          first.screen.terminalBuffer := by rw [← oldTerminal, Function.update_eq_self]
      rw [kept, kept']
      exact ⟨oldBack.trans new.symm, rfl, rfl⟩

theorem drawn_step (drawn : Drawn first s) (harmless : Harmless first s ev) :
    Drawn first (textCursorHandleEvent s ev) := by
  obtain ⟨ax, ay, handled⟩ := handle_spec ev drawn.col drawn.row
  rw [handled]
  split_ifs with travels
  · exact drawn_draw drawn harmless
  · have same := (arrived_same drawn ev ax ay).mpr (arrived_still drawn travels)
    refine ⟨arrived_col s ev ax ay, arrived_row s ev ax ay, drawn.block, drawn.fresh, fun saved => ?_⟩
    rw [same]
    exact drawn.beneath saved

/-- Moving away from a saved cell leaves the block there. -/
theorem traced_step (drawn : Drawn first s) (harmful : ¬ Harmless first s ev) :
    ¬ Traceless first (textCursorHandleEvent s ev) := by
  intro traceless
  rw [Harmless, not_or, not_or, Bool.not_eq_false] at harmful
  obtain ⟨saved, moves, shows⟩ := harmful
  obtain ⟨ax, ay, handled⟩ := handle_spec ev drawn.col drawn.row
  have travels : travel s.accumX ev.dx ≠ 0 ∨ travel s.accumY ev.dy ≠ 0 := by
    by_contra still
    exact moves (arrived_still drawn still)
  have away : position s ≠ position (arrived s ev ax ay) := fun same =>
    moves ((arrived_same drawn ev ax ay).mp same.symm)
  rw [handled, if_pos travels, draw_spec (arrived_col s ev ax ay) (arrived_row s ev ax ay)] at traceless
  obtain ⟨cell, back, terminal⟩ := drawn.beneath saved
  obtain ⟨oldBack, oldTerminal⟩ := traceless.others (position s) away
  have new := traceless.saved rfl
  rw [plotted_position, plotted_savedCell, arrived_hasSaved, arrived_savedCell] at new
  rw [plotted_backBuffer, arrived_screen, Function.update_of_ne away, back, Function.update_self] at oldBack
  rw [plotted_terminalBuffer, arrived_screen, Function.update_of_ne away, terminal,
    Function.update_self] at oldTerminal
  rw [if_pos saved, cell, ← oldBack] at new
  exact shows ⟨oldBack.symm, oldTerminal.symm, new.symm⟩

/-! ## Sequences of events -/

/-- Starting with no cell saved, the pointer leaves no trace after any of the events, exactly
if each of them is harmless when it comes. -/
theorem pointer_traceless (first : Pointer) (fresh : first.hasSaved = false)
    (col : first.tcurCol < vgaWidth) (row : first.tcurRow < vgaHeight) (events : List MouseEvent) :
    Always (Traceless first) textCursorHandleEvent first events ↔
      EachStep (Harmless first) textCursorHandleEvent first events := by
  refine always_iff_eachStep (fun _ drawn => Drawn.traceless drawn) ?_ ?_ ?_
  · exact fun _ _ drawn harmless => drawn_step drawn harmless
  · exact fun _ _ drawn harmful => traced_step drawn harmful
  · exact ⟨col, row, rfl, fun _ => ⟨rfl, rfl⟩, fun saved => absurd (fresh.symm.trans saved) Bool.false_ne_true⟩

/-- The variables of `text_cursor.c` before the first event, on a dark screen. -/
def bootPointer : Pointer := ⟨0, 0, 0x70, 0, false, 0, 0, ScreenMirror.bootScreen⟩

/-- One cell to the right. -/
def rightward : MouseEvent := ⟨4, 0, 0, 0⟩

theorem bootPointer_drawn : Drawn bootPointer bootPointer :=
  ⟨by decide, by decide, rfl, fun _ => ⟨rfl, rfl⟩, fun saved => nomatch saved⟩

theorem stepsUp_small (small : ¬ accum ≥ (4 : Int32)) : stepsUp last accum pos moved = (accum, pos, moved) := by
  rw [stepsUp, if_neg small]

theorem stepsDown_small (small : ¬ accum ≤ (-4 : Int32)) : stepsDown accum pos moved = (accum, pos, moved) := by
  rw [stepsDown, if_neg small]

/-- On any screen the first step draws the pointer in the second column. -/
theorem first_step (screen : Screen) : textCursorHandleEvent { bootPointer with screen := screen } rightward =
    plotted { bootPointer with screen := screen, tcurCol := 1 } := by
  have right : stepsUp (vgaWidth - 1) (0 + .ofInt 4) 0 false = (0, 1, true) := by
    rw [stepsUp, if_pos (by decide), stepsUp_small (by decide)]
    rfl
  have left : stepsDown 0 1 true = (0, 1, true) := stepsDown_small (by decide)
  have down : stepsUp (vgaHeight - 1) (0 + .ofInt 0) 0 true = (0, 0, true) := stepsUp_small (by decide)
  have up : stepsDown 0 0 true = (0, 0, true) := stepsDown_small (by decide)
  have col : 1 < vgaWidth := by decide
  have row : 0 < vgaHeight := by decide
  rw [← draw_spec (s := { bootPointer with screen := screen, tcurCol := 1 }) col row]
  simp only [textCursorHandleEvent, bootPointer, rightward, right, left, down, up, if_true]

/-- Three quarters of a cell to the right, and the last one. -/
def slowly : MouseEvent := ⟨3, 0, 0, 0⟩

def barely : MouseEvent := ⟨1, 0, 0, 0⟩

/-- An event that is too short only adds to what has been travelled. -/
theorem slow_step (s : Pointer) (x : s.accumX = 0) (y : s.accumY = 0) :
    textCursorHandleEvent s slowly = { s with accumX := 3 } := by
  have right : stepsUp (vgaWidth - 1) (0 + .ofInt 3) s.tcurCol false = (3, s.tcurCol, false) :=
    stepsUp_small (by decide)
  have left : stepsDown 3 s.tcurCol false = (3, s.tcurCol, false) := stepsDown_small (by decide)
  have down : stepsUp (vgaHeight - 1) (0 + .ofInt 0) s.tcurRow false = (0, s.tcurRow, false) :=
    stepsUp_small (by decide)
  have up : stepsDown 0 s.tcurRow false = (0, s.tcurRow, false) := stepsDown_small (by decide)
  simp only [textCursorHandleEvent, slowly, x, y, right, left, down, up, Bool.false_eq_true, if_false]

/-- A dark screen with block cells in its second and third column. -/
def blocked : Pointer :=
  { bootPointer with
    screen := plot (plot ScreenMirror.bootScreen 1 bootPointer.block) 2 bootPointer.block }

/-- The pointer is drawn over one block cell, stays there, and goes on to the other. -/
theorem pointer_traceless_blocked :
    Always (Traceless blocked) textCursorHandleEvent blocked [rightward, slowly, barely] := by
  refine (pointer_traceless blocked rfl (by decide) (by decide) [rightward, slowly, barely]).mpr ?_
  have moved : textCursorHandleEvent blocked rightward = plotted { blocked with tcurCol := 1 } :=
    first_step blocked.screen
  have second := slow_step (plotted { blocked with tcurCol := 1 }) rfl rfl
  have fresh : Harmless blocked blocked rightward := .inl rfl
  have stays : Harmless blocked (plotted { blocked with tcurCol := 1 }) slowly :=
    .inr (.inl ⟨by decide, by decide⟩)
  have crosses : Harmless blocked { plotted { blocked with tcurCol := 1 } with accumX := 3 } barely :=
    .inr (.inr ⟨by decide, by decide, by decide⟩)
  refine eachStep_cons.mpr ⟨fresh, eachStep_cons.mpr ⟨?_, eachStep_cons.mpr ⟨?_, eachStep_nil⟩⟩⟩
  · exact moved ▸ stays
  · rw [moved, second]
    exact crosses

/-- Two steps to the right: the block of the first one stays. -/
theorem pointer_leaves_block : ¬ ∀ (first : Pointer) (events : List MouseEvent), first.hasSaved = false →
    first.tcurCol < vgaWidth → first.tcurRow < vgaHeight →
    Always (Traceless first) textCursorHandleEvent first events := by
  intro claim
  have always := claim bootPointer [rightward, rightward] rfl (by decide) (by decide)
  have traceless := always [rightward, rightward] List.prefix_rfl
  have drawn := drawn_step bootPointer_drawn (.inl rfl : Harmless bootPointer bootPointer rightward)
  have harmful : ¬ Harmless bootPointer (textCursorHandleEvent bootPointer rightward) rightward := by
    rw [first_step bootPointer.screen]
    rintro (none | moves | shows)
    · exact nomatch none
    · exact absurd moves.1 (by decide)
    · exact absurd shows.1 (by decide)
  exact traced_step drawn harmful traceless

/-- Restoring where the pointer still is undoes the drawing. -/
theorem restore_spec (drawn : Drawn first s)
    (same : ∀ i, first.screen.terminalBuffer i = first.screen.backBuffer i) :
    (restoreCell s).hasSaved = false ∧
      (restoreCell s).screen.backBuffer = first.screen.backBuffer ∧
      (restoreCell s).screen.terminalBuffer = first.screen.terminalBuffer := by
  rw [restoreCell]
  split_ifs with saved
  · obtain ⟨cell, back, terminal⟩ := drawn.beneath saved
    rw [writeCell_inside _ _ drawn.col drawn.row]
    refine ⟨rfl, ?_, ?_⟩
    · change Function.update s.screen.backBuffer (position s) s.savedCell = _
      rw [back, cell, Function.update_idem, Function.update_eq_self]
    · change Function.update s.screen.terminalBuffer (position s) s.savedCell = _
      rw [terminal, cell, ← same, Function.update_idem, Function.update_eq_self]
  · obtain ⟨back, terminal⟩ := drawn.fresh (Bool.eq_false_iff.mpr saved)
    exact ⟨Bool.eq_false_iff.mpr saved, back, terminal⟩

/-- `text_cursor_init` gives the saved cell back before it moves the pointer. -/
theorem init_traceless (drawn : Drawn first s)
    (same : ∀ i, first.screen.terminalBuffer i = first.screen.backBuffer i) (col row : Nat) (attr : UInt8) :
    Traceless first (textCursorInit s col row attr) := by
  obtain ⟨none, back, terminal⟩ := restore_spec drawn same
  have inside : ∀ v max, clampU32 v max ≤ max := by
    intro v max
    rw [clampU32]
    split <;> omega
  rw [textCursorInit]
  generalize restoreCell s = restored at none back terminal
  rw [draw_spec (Nat.lt_of_le_of_lt (inside _ _) (by decide)) (Nat.lt_of_le_of_lt (inside _ _) (by decide))]
  refine ⟨fun i other => ?_, fun _ => ?_⟩
  · exact ⟨(Function.update_of_ne other _ _).trans (congrFun back i),
      (Function.update_of_ne other _ _).trans (congrFun terminal i)⟩
  · rw [plotted_position, plotted_savedCell]
    dsimp only
    rw [none, if_neg Bool.false_ne_true, back]

end ZynthexOS.PointerTrace
