import ZynthexOS.Video.Vga
import ZynthexOS.Lib.Runs

/-! The screen and its back buffer. A flush makes them equal again, a character is
drawn to the back buffer and flushed, a cell is written to both; a backspace
erases its cell on the screen only, and what it erased comes back with the next
flush. -/
namespace ZynthexOS.ScreenMirror
open Video Text Lib Lib.Scan

/-- The calls that draw or move the cursor. -/
inductive Call where
  | putchar (c : UInt8)
  | print (str : List UInt8)
  | printColor (str : List UInt8) (color : UInt8)
  | writeCell (row col : Nat) (value : UInt16)
  | setCursor (row col : Nat)
  | setColor (color : UInt8)
  | clear

def act (s : Screen) : Call → Screen
  | .putchar c => vgaPutchar s c
  | .print str => vgaPrint s str
  | .printColor str color => vgaPrintColor s str color
  | .writeCell row col value => vgaWriteCell s row col value
  | .setCursor row col => vgaSetCursor s row col
  | .setColor color => vgaSetColor s color
  | .clear => vgaClear s

/-- How many cells there are. -/
abbrev cells : Nat := vgaWidth * vgaHeight

/-- The cursor is on the screen, and nothing behind the two buffers has changed. -/
structure Inside (first s : Screen) : Prop where
  row : s.terminalRow < vgaHeight
  column : s.terminalColumn < vgaWidth
  behind : ∀ i ≥ cells, s.terminalBuffer i = first.terminalBuffer i ∧
    s.backBuffer i = first.backBuffer i

/-- What is visible is what the back buffer holds. -/
def Same (s : Screen) : Prop := ∀ i < cells, s.terminalBuffer i = s.backBuffer i

def Mirror (first s : Screen) : Prop := Inside first s ∧ Same s

/-! ## When a backspace does not show -/

/-- The cell that a backspace would erase is blank in the back buffer already. -/
def ErasesBlank (s : Screen) : Prop := s.backBuffer (vgaRetreat s).index = s.blank

/-- A character that is followed by a flush. -/
def Flushes (s : Screen) (c : UInt8) : Prop :=
  c ≠ backspace ∧ (c = newline → s.terminalRow + 1 ≥ vgaHeight)

/-- One of the characters flushes. -/
def Redraws (s : Screen) : List UInt8 → Prop
  | [] => False
  | c :: cs => Flushes s c ∨ Redraws (vgaPutchar s c) cs

/-- Every backspace erases a blank, or a later one of the characters flushes. -/
def Covered (s : Screen) : List UInt8 → Prop
  | [] => True
  | c :: cs =>
    (c = backspace → ErasesBlank s ∨ Redraws (vgaPutchar s c) cs) ∧ Covered (vgaPutchar s c) cs

/-- No backspace of the call is left showing something else than the back buffer. -/
def Clean (s : Screen) : Call → Prop
  | .putchar c => Covered s [c]
  | .print str => Covered s (str.takeWhile (· ≠ 0))
  | .printColor str color => Covered { s with terminalColor := color } (str.takeWhile (· ≠ 0))
  | _ => True

/-! ## What the loops draw -/

variable {first s t : Screen} {c : UInt8}

theorem first_column : 0 < vgaWidth := by decide

theorem last_column : vgaWidth - 1 < vgaWidth := by decide

/-- The loop of `vga_flush` up to the `n`-th cell. -/
theorem flushBelow (s : Screen) (n : Nat) :
    forRange (fun s i => s.setTerminal i (s.backBuffer i)) 0 n s =
      { s with terminalBuffer := fun i => if i < n then s.backBuffer i else s.terminalBuffer i } := by
  have others := forRange_keep (fun s i => s.setTerminal i (s.backBuffer i))
    (fun s => (s.terminalRow, s.terminalColumn, s.terminalColor, s.backBuffer, s.ports)) 0 n
    (fun _ _ _ _ => rfl) s
  have buffers := fun i => forRange_observe (fun s i => s.setTerminal i (s.backBuffer i))
    (fun s i => (s.backBuffer i, s.terminalBuffer i)) (fun _ pair => (pair.1, pair.1))
    (fun s f g => by
      by_cases here : g = f
      · subst here
        simp [Screen.setTerminal]
      · simp [Screen.setTerminal, here]) 0 n s i
  simp only [Prod.mk.injEq] at others
  obtain ⟨row, column, color, back, ports⟩ := others
  refine Screen.ext row column color (funext fun i => ?_) back ports
  have here := congrArg Prod.snd (buffers i)
  simp only [Nat.zero_le, true_and] at here
  rw [here]
  dsimp only
  split_ifs <;> rfl

theorem vgaFlush_eq (s : Screen) : vgaFlush s =
    { s with terminalBuffer := fun i => if i < cells then s.backBuffer i else s.terminalBuffer i } :=
  flushBelow s cells

/-- Only cells of the back buffer have been drawn. -/
def Painted (s t : Screen) : Prop :=
  t = { s with backBuffer := t.backBuffer } ∧ ∀ i ≥ cells, t.backBuffer i = s.backBuffer i

theorem Painted.refl (s : Screen) : Painted s s := ⟨rfl, fun _ _ => rfl⟩

theorem Painted.setBack (painted : Painted s t) (inside : i < cells) :
    Painted s (t.setBack i value) := by
  refine ⟨?_, fun k behind => ?_⟩
  · rw [painted.1]
    rfl
  · have other : k ≠ i := by omega
    exact (Function.update_of_ne other _ _).trans (painted.2 k behind)

theorem painted_loop (step : Screen → Nat → Screen) (a b : Nat)
    (round : ∀ t f, a ≤ f → f < b → Painted s t → Painted s (step t f)) (painted : Painted s t) :
    Painted s (forRange step a b t) :=
  forRange_invariant step (Painted s) a b round t painted

theorem Painted.line (painted : Painted s t) (value : Screen → Nat → UInt16) (inside : y < vgaHeight) :
    Painted s (forRange (fun s x => s.setBack (y * vgaWidth + x) (value s x)) 0 vgaWidth t) := by
  refine painted_loop _ 0 vgaWidth (fun u x _ column painted => ?_) painted
  apply painted.setBack
  simp only [vgaWidth, vgaHeight, cells] at *
  omega

theorem same_flush (s : Screen) : Same (vgaFlush s) := by
  intro i inside
  rw [vgaFlush_eq]
  exact if_pos inside

/-- A painted back buffer, flushed with the cursor set. -/
theorem Painted.flushed (painted : Painted s t) (behind : ∀ i ≥ cells,
    s.terminalBuffer i = first.terminalBuffer i ∧ s.backBuffer i = first.backBuffer i)
    (small : row < vgaHeight) (small' : column < vgaWidth) :
    Mirror first (vgaFlush { t with terminalRow := row, terminalColumn := column }) := by
  refine ⟨⟨?_, ?_, fun i outside => ?_⟩, same_flush _⟩
  · rw [vgaFlush_eq]
    exact small
  · rw [vgaFlush_eq]
    exact small'
  · have screen : t.terminalBuffer = s.terminalBuffer := by rw [painted.1]
    rw [vgaFlush_eq]
    dsimp only
    rw [if_neg (by omega), painted.2 i outside, screen]
    exact behind i outside

theorem vgaScroll_stay (above : s.terminalRow < vgaHeight) : vgaScroll s = s :=
  if_neg (Nat.not_le.mpr above)

theorem vgaScroll_paint (below : s.terminalRow ≥ vgaHeight) :
    ∃ t, Painted s t ∧ vgaScroll s = vgaFlush { t with terminalRow := vgaHeight - 1 } := by
  rw [vgaScroll, if_pos below]
  refine ⟨_, ?_, rfl⟩
  apply Painted.line _ (fun _ _ => Screen.blank _) (by decide)
  refine painted_loop _ 1 vgaHeight (fun t y one last painted => ?_) (.refl s)
  exact painted.line (fun s x => s.backBuffer (y * vgaWidth + x)) (by omega)

/-- Scrolling moves the cursor back to the screen and flushes. -/
theorem vgaScroll_mirror (below : s.terminalRow ≥ vgaHeight) (column : s.terminalColumn < vgaWidth)
    (behind : ∀ i ≥ cells, s.terminalBuffer i = first.terminalBuffer i ∧
      s.backBuffer i = first.backBuffer i) : Mirror first (vgaScroll s) := by
  obtain ⟨t, painted, scroll⟩ := vgaScroll_paint below
  have column' : t.terminalColumn < vgaWidth := by
    rw [painted.1]
    exact column
  rw [scroll]
  exact painted.flushed behind (by decide) column'

theorem vgaScroll_color (s : Screen) : (vgaScroll s).terminalColor = s.terminalColor := by
  by_cases below : s.terminalRow ≥ vgaHeight
  · obtain ⟨t, painted, scroll⟩ := vgaScroll_paint below
    rw [scroll, vgaFlush_eq, painted.1]
  · rw [vgaScroll_stay (Nat.not_le.mp below)]

/-- Clearing puts the cursor into the corner and flushes. -/
theorem vgaClear_mirror (behind : ∀ i ≥ cells, s.terminalBuffer i = first.terminalBuffer i ∧
    s.backBuffer i = first.backBuffer i) : Mirror first (vgaClear s) := by
  have painted : Painted s (forRange (fun s y =>
      forRange (fun s x => s.setBack (y * vgaWidth + x) s.blank) 0 vgaWidth s) 0 vgaHeight s) :=
    painted_loop _ 0 vgaHeight
      (fun _ _ _ last painted => painted.line (fun s _ => s.blank) last) (.refl s)
  exact painted.flushed behind (by decide) (by decide)

/-! ## One character -/

theorem index_lt (row : s.terminalRow < vgaHeight) (column : s.terminalColumn < vgaWidth) :
    s.index < cells := by
  simp only [Screen.index, cells, vgaWidth, vgaHeight] at *
  omega

/-- The column of a cell is less than the width, so that its number tells row and column. -/
theorem index_eq (small : k < vgaWidth) (small' : k' < vgaWidth) :
    r * vgaWidth + k = r' * vgaWidth + k' ↔ r = r' ∧ k = k' := by
  simp only [vgaWidth] at *
  omega

theorem vgaRetreat_inside (inside : Inside first s) : Inside first (vgaRetreat s) := by
  obtain ⟨row, column, behind⟩ := inside
  rw [vgaRetreat]
  split_ifs
  · exact ⟨row, Nat.lt_of_le_of_lt (Nat.sub_le _ _) column, behind⟩
  · exact ⟨Nat.lt_of_le_of_lt (Nat.sub_le _ _) row, last_column, behind⟩
  · exact ⟨row, column, behind⟩

theorem vgaRetreat_color (s : Screen) : (vgaRetreat s).terminalColor = s.terminalColor := by
  rw [vgaRetreat]
  split_ifs <;> rfl

theorem vgaRetreat_buffers (s : Screen) : (vgaRetreat s).backBuffer = s.backBuffer ∧
    (vgaRetreat s).terminalBuffer = s.terminalBuffer := by
  rw [vgaRetreat]
  split_ifs <;> exact ⟨rfl, rfl⟩

/-- A backspace stores a blank to the screen. -/
theorem vgaPutchar_backspace (s : Screen) :
    (vgaPutchar s backspace).terminalBuffer =
        Function.update s.terminalBuffer (vgaRetreat s).index s.blank ∧
      (vgaPutchar s backspace).backBuffer = s.backBuffer := by
  have other : backspace ≠ newline := by decide
  have color : (vgaRetreat s).blank = s.blank := by rw [Screen.blank, Screen.blank, vgaRetreat_color]
  obtain ⟨back, terminal⟩ := vgaRetreat_buffers s
  rw [vgaPutchar, if_neg other, if_pos rfl]
  refine ⟨?_, back⟩
  rw [← terminal, ← color]
  rfl

theorem Inside.flush (inside : Inside first s) : Mirror first (vgaFlush s) :=
  (Painted.refl s).flushed inside.behind inside.row inside.column

/-- The cursor behind the cell that was drawn, perhaps below the screen. -/
theorem vgaAdvance_bounds (inside : Inside first s) :
    (vgaAdvance s).terminalColumn < vgaWidth ∧
      ∀ i ≥ cells, (vgaAdvance s).terminalBuffer i = first.terminalBuffer i ∧
        (vgaAdvance s).backBuffer i = first.backBuffer i := by
  rw [vgaAdvance]
  split_ifs with full
  · exact ⟨first_column, inside.behind⟩
  · exact ⟨Nat.not_le.mp full, inside.behind⟩

theorem vgaAdvance_color (s : Screen) : (vgaAdvance s).terminalColor = s.terminalColor := by
  rw [vgaAdvance]
  split_ifs <;> rfl

/-- A scroll if it is due, and a flush. -/
theorem scrolled_flush (column : s.terminalColumn < vgaWidth) (behind : ∀ i ≥ cells,
    s.terminalBuffer i = first.terminalBuffer i ∧ s.backBuffer i = first.backBuffer i) :
    Mirror first (vgaFlush (vgaScroll s)) := by
  by_cases below : s.terminalRow ≥ vgaHeight
  · exact (vgaScroll_mirror below column behind).1.flush
  · rw [vgaScroll_stay (Nat.not_le.mp below)]
    exact Inside.flush ⟨Nat.not_le.mp below, column, behind⟩

theorem Mirror.updateCursor (mirror : Mirror first s) : Mirror first (vgaUpdateCursor s) :=
  ⟨⟨mirror.1.row, mirror.1.column, mirror.1.behind⟩, mirror.2⟩

/-- A character that is drawn. -/
theorem vgaPutchar_draw (inside : Inside first s) (drawn : c ≠ newline) (kept : c ≠ backspace) :
    Mirror first (vgaPutchar s c) := by
  have stored : Inside first (s.setBack s.index (vgaEntry c s.terminalColor)) := by
    refine ⟨inside.row, inside.column, fun i behind => ⟨(inside.behind i behind).1, ?_⟩⟩
    have small := index_lt inside.row inside.column
    have other : i ≠ s.index := by omega
    exact (Function.update_of_ne other _ _).trans (inside.behind i behind).2
  obtain ⟨column, behind⟩ := vgaAdvance_bounds stored
  rw [vgaPutchar, if_neg drawn, if_neg kept]
  exact (scrolled_flush column behind).updateCursor

theorem vgaPutchar_scroll (inside : Inside first s) (last : s.terminalRow + 1 ≥ vgaHeight) :
    Mirror first (vgaPutchar s newline) := by
  rw [vgaPutchar, if_pos rfl]
  exact vgaScroll_mirror last first_column inside.behind

theorem vgaPutchar_line (above : s.terminalRow + 1 < vgaHeight) : vgaPutchar s newline =
    { s with terminalColumn := 0, terminalRow := s.terminalRow + 1 } := by
  rw [vgaPutchar, if_pos rfl]
  exact vgaScroll_stay above

theorem vgaPutchar_inside (inside : Inside first s) (c : UInt8) : Inside first (vgaPutchar s c) := by
  by_cases enter : c = newline
  · subst enter
    by_cases last : s.terminalRow + 1 ≥ vgaHeight
    · exact (vgaPutchar_scroll inside last).1
    · rw [vgaPutchar_line (Nat.not_le.mp last)]
      exact ⟨Nat.not_le.mp last, first_column, inside.behind⟩
  · by_cases erase : c = backspace
    · subst erase
      have back := vgaRetreat_inside inside
      obtain ⟨terminal, kept⟩ := vgaPutchar_backspace s
      refine ⟨?_, ?_, fun i behind => ?_⟩
      · rw [vgaPutchar, if_neg enter, if_pos rfl]
        exact back.row
      · rw [vgaPutchar, if_neg enter, if_pos rfl]
        exact back.column
      · have small := index_lt back.row back.column
        have other : i ≠ (vgaRetreat s).index := by omega
        rw [terminal, kept, Function.update_of_ne other]
        exact inside.behind i behind
    · exact (vgaPutchar_draw inside enter erase).1

theorem vgaPutchar_color (s : Screen) (c : UInt8) :
    (vgaPutchar s c).terminalColor = s.terminalColor := by
  rw [vgaPutchar]
  split_ifs
  · exact vgaScroll_color _
  · exact vgaRetreat_color s
  · rw [vgaUpdateCursor, vgaFlush_eq]
    exact (vgaScroll_color _).trans (vgaAdvance_color _)

/-- A character that flushes leaves both buffers equal. -/
theorem Flushes.same (flushes : Flushes s c) (inside : Inside first s) : Same (vgaPutchar s c) := by
  by_cases enter : c = newline
  · subst enter
    exact (vgaPutchar_scroll inside (flushes.2 rfl)).2
  · exact (vgaPutchar_draw inside enter flushes.1).2

/-! ## Strings -/

/-- A cell shows a blank that the back buffer does not have. -/
def Broken (s : Screen) : Prop :=
  ∃ i < cells, s.terminalBuffer i = s.blank ∧ s.backBuffer i ≠ s.blank

theorem Broken.not_same (broken : Broken s) : ¬ Same s := by
  obtain ⟨i, inside, shown, hidden⟩ := broken
  intro same
  rw [same i inside] at shown
  exact hidden shown

theorem vgaPutchar_blank (s : Screen) (c : UInt8) : (vgaPutchar s c).blank = s.blank := by
  rw [Screen.blank, Screen.blank, vgaPutchar_color]

theorem ErasesBlank.same (blank : ErasesBlank s) (same : Same s) : Same (vgaPutchar s backspace) := by
  obtain ⟨terminal, back⟩ := vgaPutchar_backspace s
  intro i inside
  rw [terminal, back, Function.update_apply]
  split_ifs with here
  · subst here
    exact blank.symm
  · exact same i inside

theorem broken_of_erase (inside : Inside first s) (shows : ¬ ErasesBlank s) :
    Broken (vgaPutchar s backspace) := by
  obtain ⟨terminal, back⟩ := vgaPutchar_backspace s
  have retreat := vgaRetreat_inside inside
  refine ⟨_, index_lt retreat.row retreat.column, ?_, ?_⟩
  · rw [vgaPutchar_blank, terminal, Function.update_self]
  · rw [vgaPutchar_blank, back]
    exact shows

theorem Broken.backspace (broken : Broken s) : Broken (vgaPutchar s backspace) := by
  obtain ⟨terminal, back⟩ := vgaPutchar_backspace s
  obtain ⟨i, inside, shown, hidden⟩ := broken
  refine ⟨i, inside, ?_, ?_⟩
  · rw [vgaPutchar_blank, terminal, Function.update_apply]
    split_ifs
    · rfl
    · exact shown
  · rw [vgaPutchar_blank, back]
    exact hidden

/-- Starting with equal buffers, a string leaves them equal if every backspace is
covered; starting with a cell that only looks blank, it has to redraw it too. -/
theorem putchars_same (cs : List UInt8) (inside : Inside first s) :
    (Same s → (Same (cs.foldl vgaPutchar s) ↔ Covered s cs)) ∧
      (Broken s → (Same (cs.foldl vgaPutchar s) ↔ Redraws s cs ∧ Covered s cs)) := by
  induction cs generalizing s with
  | nil =>
    refine ⟨fun same => iff_of_true same trivial, fun broken => ?_⟩
    exact iff_of_false broken.not_same fun both => both.1
  | cons c cs ih =>
    obtain ⟨good, bad⟩ := ih (vgaPutchar_inside inside c)
    simp only [List.foldl_cons, Redraws, Covered]
    by_cases flushes : Flushes s c
    · rw [good (flushes.same inside)]
      have kept := flushes.1
      simp [flushes, kept]
    · by_cases erase : c = backspace
      · subst erase
        constructor
        · intro same
          by_cases blank : ErasesBlank s
          · rw [good (blank.same same)]
            simp [blank]
          · rw [bad (broken_of_erase inside blank)]
            simp [blank]
        · intro broken
          rw [bad broken.backspace]
          simp only [flushes, false_or]
          tauto
      · -- a newline above the last row
        have line : c = newline ∧ s.terminalRow + 1 < vgaHeight := by
          simp only [Flushes, erase, ne_eq, not_false_iff, true_and, Classical.not_imp] at flushes
          exact ⟨flushes.1, Nat.not_le.mp flushes.2⟩
        obtain ⟨rfl, above⟩ := line
        rw [vgaPutchar_line above] at good bad ⊢
        simp only [flushes, erase, false_or, false_implies, true_and]
        exact ⟨good, bad⟩

/-! ## Runs -/

theorem Mirror.chars (mirror : Mirror first s) (cs : List UInt8) :
    Inside first (cs.foldl vgaPutchar s) ∧ (Same (cs.foldl vgaPutchar s) ↔ Covered s cs) := by
  refine ⟨?_, (putchars_same cs mirror.1).1 mirror.2⟩
  have inside := mirror.1
  clear mirror
  induction cs generalizing s with
  | nil => exact inside
  | cons c cs ih => exact ih (vgaPutchar_inside inside c)

/-- What a call leaves of the mirror. -/
theorem Mirror.act (mirror : Mirror first s) (call : Call) :
    Inside first (act s call) ∧ (Same (act s call) ↔ Clean s call) := by
  obtain ⟨inside, same⟩ := mirror
  cases call with
  | putchar c => exact Mirror.chars ⟨inside, same⟩ [c]
  | print str => exact Mirror.chars ⟨inside, same⟩ _
  | printColor str color =>
    have colored : Mirror first { s with terminalColor := color } :=
      ⟨⟨inside.row, inside.column, inside.behind⟩, same⟩
    obtain ⟨inside', same'⟩ := colored.chars (str.takeWhile (· ≠ 0))
    exact ⟨⟨inside'.row, inside'.column, inside'.behind⟩, same'⟩
  | writeCell row col value =>
    simp only [ScreenMirror.act, vgaWriteCell, Clean, iff_true]
    split_ifs with outside
    · exact ⟨inside, same⟩
    · rw [not_or, Nat.not_le, Nat.not_le] at outside
      have small : row * vgaWidth + col < cells := by
        simp only [cells, vgaWidth, vgaHeight] at *
        omega
      refine ⟨⟨inside.row, inside.column, fun i behind => ?_⟩, fun i member => ?_⟩
      · have other : i ≠ row * vgaWidth + col := by omega
        simp only [Screen.setBack, Screen.setTerminal, Function.update_of_ne other]
        exact inside.behind i behind
      · simp only [Screen.setBack, Screen.setTerminal, Function.update_apply]
        rw [same i member]
  | setCursor row col =>
    simp only [ScreenMirror.act, vgaSetCursor, Clean, iff_true]
    split_ifs with col' row' row'
    · exact ⟨⟨row', col', inside.behind⟩, same⟩
    · exact ⟨⟨inside.row, col', inside.behind⟩, same⟩
    · exact ⟨⟨row', inside.column, inside.behind⟩, same⟩
    · exact ⟨inside, same⟩
  | setColor color => exact ⟨⟨inside.row, inside.column, inside.behind⟩, iff_of_true same trivial⟩
  | clear =>
    obtain ⟨inside', same'⟩ := vgaClear_mirror inside.behind
    exact ⟨inside', iff_of_true same' trivial⟩

/-- After `vga_clear` the cursor stays on the screen and the buffers stay equal after
every call of a run, exactly if no call of it leaves a backspace uncovered. -/
theorem screen_mirror (first : Screen) (calls : List Call) :
    Always (Mirror first) act (vgaClear first) calls ↔ EachStep Clean act (vgaClear first) calls := by
  refine always_iff_eachStep (fun _ mirror => mirror) ?_ ?_ (vgaClear_mirror fun _ _ => ⟨rfl, rfl⟩)
  · intro s call mirror clean
    obtain ⟨inside, same⟩ := mirror.act call
    exact ⟨inside, same.mpr clean⟩
  · intro s call mirror dirty after
    obtain ⟨-, same⟩ := mirror.act call
    exact dirty (same.mp after.2)

/-- The variables of `vga.c` before the first call, on a dark screen. -/
def bootScreen : Screen := ⟨0, 0, defaultTerminalColor, fun _ => 0, fun _ => 0, []⟩

/-- `a`, then a backspace: the screen is blank, the back buffer is not. -/
theorem screen_differs : ¬ Always (Mirror bootScreen) act (vgaClear bootScreen)
    [.putchar 97, .putchar backspace] := by
  intro always
  have same := (always _ List.prefix_rfl).2 0 (by decide)
  revert same
  decide +kernel

end ZynthexOS.ScreenMirror
