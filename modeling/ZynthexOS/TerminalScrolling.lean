import ZynthexOS.Lib.Rows
import ZynthexOS.ScreenMirror

/-! What a string printed on a cleared screen shows: the last rows of the text set in rows
of 80 cells. A row that is full and a newline both lead to the next row, and scrolling
moves the window down by one row when there is none left below. -/
namespace ZynthexOS.TerminalScrolling
open Video Text Lib Lib.Scan Lib.Rows ScreenMirror

/-- A character in rows of cells. -/
def typed (color : UInt8) (p : Page UInt16) (c : UInt8) : Page UInt16 :=
  if c = newline then p.newRow else p.put vgaWidth (vgaEntry c color)

/-- The text in rows, without a bound on their number. -/
def layout (color : UInt8) (text : List UInt8) : Page UInt16 := text.foldl (typed color) .empty

/-- The back buffer holds the last rows of a page, and the cursor is behind its last
cell. -/
structure Shows (s : Screen) (p : Page UInt16) : Prop where
  row : s.terminalRow = p.line vgaHeight
  column : s.terminalColumn = p.row.length
  fits : p.row.length < vgaWidth
  back : ∀ r < vgaHeight, ∀ k < vgaWidth,
    s.backBuffer (r * vgaWidth + k) = p.cell vgaHeight s.blank r k

/-! ## Loops over the cells -/

variable {s : Screen} {p : Page UInt16} {text : List UInt8}

/-- The screen with another back buffer. -/
def withBack (s : Screen) (back : Nat → UInt16) : Screen := { s with backBuffer := back }

theorem withBack_setBack (s : Screen) (back : Nat → UInt16) (i : Nat) (value : UInt16) :
    (withBack s back).setBack i value = withBack s (Function.update back i value) := rfl

/-- A loop that draws the cells of one row from left to right. -/
theorem row_loop (base : Nat) (value : Screen → Nat → UInt16) (back w : Nat → UInt16)
    (reads : ∀ n < vgaWidth, value (withBack s fun i =>
      if base ≤ i ∧ i < base + n then w i else back i) n = w (base + n)) :
    forRange (fun s x => s.setBack (base + x) (value s x)) 0 vgaWidth (withBack s back) =
      withBack s fun i => if base ≤ i ∧ i < base + vgaWidth then w i else back i := by
  refine forRange_induct _ (fun n t => t = withBack s fun i =>
    if base ≤ i ∧ i < base + n then w i else back i) (Nat.zero_le _) ?_ _ ?_
  · rintro t n - small rfl
    rw [reads n small, withBack_setBack]
    congr 1
    funext i
    rw [Function.update_apply]
    by_cases here : i = base + n
    · rw [if_pos here, if_pos (by omega), here]
    · rw [if_neg here]
      by_cases inside : base ≤ i ∧ i < base + n
      · rw [if_pos inside, if_pos (by omega)]
      · rw [if_neg inside, if_neg (by omega)]
  · congr 1
    funext i
    rw [if_neg (by omega)]

/-- Every row but the first one is moved up. -/
theorem rows_up (s : Screen) : forRange (fun s y =>
    forRange (fun s x => s.setBack ((y - 1) * vgaWidth + x) (s.backBuffer (y * vgaWidth + x)))
      0 vgaWidth s) 1 vgaHeight s = withBack s fun i =>
        if i < (vgaHeight - 1) * vgaWidth then s.backBuffer (i + vgaWidth) else s.backBuffer i := by
  refine forRange_induct _ (fun y t => t = withBack s fun i =>
    if i < (y - 1) * vgaWidth then s.backBuffer (i + vgaWidth) else s.backBuffer i) (by decide) ?_ _ ?_
  · rintro t y first - rfl
    obtain ⟨y, rfl⟩ := Nat.exists_eq_add_of_le' first
    rw [Nat.add_sub_cancel, Nat.add_sub_cancel, Nat.succ_mul]
    refine (row_loop (y * vgaWidth) (fun s x => s.backBuffer (y * vgaWidth + vgaWidth + x)) _
      (fun i => s.backBuffer (i + vgaWidth)) fun n small => ?_).trans ?_
    · -- the row below has not been drawn over yet
      simp only [withBack]
      rw [if_neg (by omega), if_neg (by omega), Nat.add_right_comm]
    · congr 1
      funext i
      by_cases above : i < y * vgaWidth
      · rw [if_neg (by omega), if_pos above, if_pos (by omega)]
      · by_cases here : i < y * vgaWidth + vgaWidth
        · rw [if_pos ⟨by omega, here⟩, if_pos here]
        · rw [if_neg (by omega), if_neg above, if_neg here]
  · rfl

/-- A row of blanks. -/
theorem row_blank (s : Screen) (base : Nat) (back : Nat → UInt16) :
    forRange (fun s x => s.setBack (base + x) s.blank) 0 vgaWidth (withBack s back) =
      withBack s fun i => if base ≤ i ∧ i < base + vgaWidth then s.blank else back i :=
  row_loop base (fun s _ => s.blank) back (fun _ => s.blank) fun _ _ => rfl

/-- All rows are blank. -/
theorem rows_blank (s : Screen) : forRange (fun s y =>
    forRange (fun s x => s.setBack (y * vgaWidth + x) s.blank) 0 vgaWidth s) 0 vgaHeight s =
      withBack s fun i => if i < vgaHeight * vgaWidth then s.blank else s.backBuffer i := by
  refine forRange_induct _ (fun y t => t = withBack s fun i =>
    if i < y * vgaWidth then s.blank else s.backBuffer i) (Nat.zero_le _) ?_ _ ?_
  · rintro t y - - rfl
    rw [Nat.succ_mul]
    refine (row_blank s (y * vgaWidth) _).trans ?_
    congr 1
    funext i
    by_cases above : i < y * vgaWidth
    · rw [if_neg (by omega), if_pos above, if_pos (by omega)]
    · by_cases here : i < y * vgaWidth + vgaWidth
      · rw [if_pos ⟨by omega, here⟩, if_pos here]
      · rw [if_neg (by omega), if_neg above, if_neg here]
  · rfl

/-- The back buffer after scrolling. -/
def scrolled (s : Screen) (i : Nat) : UInt16 :=
  if i < (vgaHeight - 1) * vgaWidth then s.backBuffer (i + vgaWidth)
  else if i < vgaHeight * vgaWidth then s.blank else s.backBuffer i

theorem scrolled_cell (s : Screen) (row : r < vgaHeight) (column : k < vgaWidth) :
    scrolled s (r * vgaWidth + k) =
      if r + 1 < vgaHeight then s.backBuffer ((r + 1) * vgaWidth + k) else s.blank := by
  have moved : r * vgaWidth + k + vgaWidth = (r + 1) * vgaWidth + k := by
    rw [Nat.succ_mul, Nat.add_right_comm]
  have above : r * vgaWidth + k < (vgaHeight - 1) * vgaWidth ↔ r + 1 < vgaHeight := by
    simp only [vgaWidth, vgaHeight] at *
    omega
  have inside : r * vgaWidth + k < vgaHeight * vgaWidth := by
    simp only [vgaWidth, vgaHeight] at *
    omega
  rw [scrolled, moved, if_pos inside]
  exact if_congr above rfl rfl

theorem vgaScroll_full (below : s.terminalRow ≥ vgaHeight) :
    vgaScroll s = vgaFlush { withBack s (scrolled s) with terminalRow := vgaHeight - 1 } := by
  rw [vgaScroll, if_pos below, rows_up]
  dsimp only
  rw [row_blank]
  congr 2
  funext i
  have last : vgaHeight * vgaWidth = (vgaHeight - 1) * vgaWidth + vgaWidth := rfl
  simp only [withBack, scrolled, last]
  by_cases above : i < (vgaHeight - 1) * vgaWidth
  · rw [if_neg (by omega), if_pos above, if_pos above]
  · rw [if_neg above, if_neg above]
    exact if_congr (by omega) rfl rfl

theorem vgaClear_eq (s : Screen) : vgaClear s = vgaFlush { withBack s (fun i =>
    if i < vgaHeight * vgaWidth then s.blank else s.backBuffer i) with
      terminalRow := 0, terminalColumn := 0 } := by
  rw [vgaClear, rows_blank]

/-! ## One character -/

theorem shows_clear (s : Screen) : Shows (vgaClear s) .empty := by
  rw [vgaClear_eq, vgaFlush_eq]
  refine ⟨rfl, rfl, first_column, fun r row k column => ?_⟩
  rw [cell_empty]
  have inside : r * vgaWidth + k < vgaHeight * vgaWidth := by
    simp only [vgaWidth, vgaHeight] at *
    omega
  exact if_pos inside

/-- The next row, where the cursor is not below the screen. -/
theorem shows_newRow (row : s.terminalRow = p.line vgaHeight)
    (back : ∀ r < vgaHeight, ∀ k < vgaWidth,
      s.backBuffer (r * vgaWidth + k) = p.cell vgaHeight s.blank r k) :
    Shows (vgaScroll { s with terminalColumn := 0, terminalRow := s.terminalRow + 1 }) p.newRow := by
  by_cases room : p.rows.length < vgaHeight
  · have line := line_newRow_room room
    have above : p.newRow.line vgaHeight < vgaHeight := line_lt (by decide) p.newRow
    rw [vgaScroll_stay (by rw [row, ← line]; exact above)]
    refine ⟨by rw [row, line], rfl, first_column, fun r small k small' => ?_⟩
    rw [cell_newRow_room room]
    exact back r small k small'
  · have full := Nat.not_lt.mp room
    obtain ⟨line', line⟩ := line_newRow_full full (by decide)
    rw [vgaScroll_full (Nat.le_of_eq (by rw [row, line]; rfl)), vgaFlush_eq]
    refine ⟨line'.symm, rfl, first_column, fun r small k small' => ?_⟩
    rw [cell_newRow_full full small]
    refine Eq.trans (scrolled_cell s small small') ?_
    split_ifs with next
    · exact back (r + 1) next k small'
    · rfl

theorem shows_line (shows : Shows s p) : Shows (vgaPutchar s newline) p.newRow := by
  rw [vgaPutchar, if_pos rfl]
  exact shows_newRow shows.row shows.back

/-- The cell at the cursor is the next one of the last row. -/
theorem back_add (shows : Shows s p) (value : UInt16) (small : r < vgaHeight) (small' : k < vgaWidth) :
    (s.setBack s.index value).backBuffer (r * vgaWidth + k) =
      (p.add value).cell vgaHeight s.blank r k := by
  have here : p.top vgaHeight + r = p.above.length ↔ r = p.line vgaHeight := by
    have last : p.top vgaHeight + p.line vgaHeight = p.above.length := top_line (by decide) p
    omega
  have index : s.index = p.line vgaHeight * vgaWidth + p.row.length := by
    rw [Screen.index, shows.row, shows.column]
  have stored : (s.setBack s.index value).backBuffer = Function.update s.backBuffer s.index value := rfl
  rw [stored, Function.update_apply, cell_add, shows.back r small k small']
  refine if_congr ?_ rfl rfl
  rw [index, index_eq small' shows.fits, here]

/-- Flushing and showing the cursor leaves both as they are. -/
theorem shows_flush (shows : Shows s p) : Shows (vgaUpdateCursor (vgaFlush s)) p := by
  rw [vgaFlush_eq]
  exact ⟨shows.row, shows.column, shows.fits, shows.back⟩

/-- A character that is drawn. -/
theorem shows_put (shows : Shows s p) (drawn : c ≠ newline) (kept : c ≠ backspace) :
    Shows (vgaPutchar s c) (p.put vgaWidth (vgaEntry c s.terminalColor)) := by
  rw [vgaPutchar, if_neg drawn, if_neg kept]
  apply shows_flush
  have back := fun r small k small' =>
    back_add shows (vgaEntry c s.terminalColor) (r := r) (k := k) small small'
  generalize vgaEntry c s.terminalColor = entry at back ⊢
  have line : (p.add entry).line vgaHeight = p.line vgaHeight := by
    simp only [Page.line, Page.top, rows_length, Page.add]
  have length : (p.add entry).row.length = (s.setBack s.index entry).terminalColumn + 1 :=
    List.length_append.trans (congrArg (· + 1) shows.column.symm)
  rw [Page.put, length, vgaAdvance]
  split_ifs with full
  · exact shows_newRow (shows.row.trans line.symm) back
  · have above : s.terminalRow < vgaHeight := by
      rw [shows.row]
      exact line_lt (by decide) p
    rw [vgaScroll_stay (by exact above)]
    exact ⟨shows.row.trans line.symm, length.symm, length ▸ Nat.not_le.mp full, back⟩

/-! ## Strings -/

theorem shows_chars (shows : Shows s p) (color : s.terminalColor = first) (plain : backspace ∉ text) :
    Shows (text.foldl vgaPutchar s) (text.foldl (typed first) p) := by
  induction text generalizing s p with
  | nil => exact shows
  | cons c text ih =>
    rw [List.mem_cons, not_or] at plain
    have next : Shows (vgaPutchar s c) (typed first p c) := by
      rw [typed, ← color]
      split_ifs with enter
      · exact enter ▸ shows_line shows
      · exact shows_put shows enter (Ne.symm plain.1)
    exact ih next ((vgaPutchar_color s c).trans color) plain.2

theorem covered_plain (plain : backspace ∉ text) : Covered s text := by
  induction text generalizing s with
  | nil => trivial
  | cons c text ih =>
    rw [List.mem_cons, not_or] at plain
    exact ⟨fun erase => absurd erase.symm plain.1, ih plain.2⟩

/-- A string without backspaces, printed on a cleared screen, is shown in both buffers as
the last rows of its layout. -/
theorem terminal_scrolls (s : Screen) (str : List UInt8) (plain : backspace ∉ str.takeWhile (· ≠ 0)) :
    Shows (vgaPrint (vgaClear s) str) (layout s.terminalColor (str.takeWhile (· ≠ 0))) ∧
      Same (vgaPrint (vgaClear s) str) := by
  have color : (vgaClear s).terminalColor = s.terminalColor := by
    rw [vgaClear_eq, vgaFlush_eq]
    rfl
  have mirror : Mirror s (vgaClear s) := vgaClear_mirror fun _ _ => ⟨rfl, rfl⟩
  exact ⟨shows_chars (shows_clear s) color plain, (mirror.chars _).2.mpr (covered_plain plain)⟩

/-- Thirty lines, and one that is longer than a row. -/
def manyLines : List UInt8 := (List.replicate 30 [97, newline]).flatten ++ List.replicate 100 98

/-- The first seven are no longer shown. -/
theorem terminal_scrolls_manyLines :
    Shows (vgaPrint (vgaClear bootScreen) (manyLines ++ [0])) (layout defaultTerminalColor manyLines) ∧
      Same (vgaPrint (vgaClear bootScreen) (manyLines ++ [0])) ∧
      (layout defaultTerminalColor manyLines).top vgaHeight = 7 := by
  have text : (manyLines ++ [0]).takeWhile (· ≠ 0) = manyLines := by decide +kernel
  have plain : backspace ∉ (manyLines ++ [0]).takeWhile (· ≠ 0) := by decide +kernel
  obtain ⟨shows, same⟩ := terminal_scrolls bootScreen (manyLines ++ [0]) plain
  rw [text] at shows
  exact ⟨shows, same, by decide +kernel⟩

end ZynthexOS.TerminalScrolling
