import ZynthexOS.Core.Console
import ZynthexOS.Lib.Runs
import Mathlib.Data.List.GetD

/-! The line of the console against a reference line. Backspace and the clearing
function leave zeros behind the line; a newline sets the length back and leaves
the old characters where they are. -/
namespace ZynthexOS.LineEditing
open ZynthexOS.Core Lib Text

/-- `console_handle_char` with a character that is not NUL, or `console_clear_line`. -/
inductive Call where
  | handleChar (c : CChar)
  | clearLine
  deriving DecidableEq

/-- The console and the reference line beside it. -/
structure Ledger where
  console : Console
  line : List UInt8

/-- What a call means for the line: characters go to its end up to 255 of them. -/
def edit (line : List UInt8) : Call → List UInt8
  | .handleChar c =>
    if c.val = backspace then line.dropLast
    else if c.val = newline then []
    else if line.length < 255 then line ++ [c.val]
    else line
  | .clearLine => []

def act (l : Ledger) (call : Call) : Ledger where
  console :=
    match call with
    | .handleChar c => (consoleHandleChar l.console c.val).1
    | .clearLine => consoleClearLine l.console
  line := edit l.line call

def start (console : Console) : Ledger := ⟨consoleInit console, []⟩

/-- `console_get_line` reads the reference line. -/
def Agrees (l : Ledger) : Prop := consoleGetLine l.console = l.line

/-- A newline is only handled while the line is empty. -/
def Blank (l : Ledger) : Call → Prop
  | .handleChar c => c.val = newline → l.line = []
  | .clearLine => True

/-- The buffer is the line with zeros behind it. -/
structure Edited (s : Console) (line : List UInt8) : Prop where
  length : s.lineLength = line.length
  room : line.length < consoleBufferSize
  buffer : ∀ i < consoleBufferSize, s.lineBuffer i = line.getD i 0
  chars : ∀ c ∈ line, c ≠ 0

theorem getLine_of (room : line.length < consoleBufferSize) (chars : ∀ c ∈ line, c ≠ 0)
    {s : Console} (buffer : ∀ i < consoleBufferSize, s.lineBuffer i = line.getD i 0) :
    consoleGetLine s = line := by
  have cells : (List.range consoleBufferSize).map s.lineBuffer =
      line ++ List.replicate (consoleBufferSize - line.length) 0 := by
    apply List.ext_getElem
    · simp
      omega
    · intro i inside _
      rw [List.length_map, List.length_range] at inside
      rw [List.getElem_map, List.getElem_range, buffer i inside]
      by_cases within : i < line.length
      · rw [List.getElem_append_left within, List.getD_eq_getElem _ _ within]
      · rw [List.getElem_append_right (by omega), List.getElem_replicate,
          List.getD_eq_default _ _ (by omega)]
  have all : ∀ c ∈ line, decide (c ≠ 0) = true := fun c member => decide_eq_true (chars c member)
  rw [consoleGetLine, cells, List.takeWhile_append_of_pos all]
  have behind : consoleBufferSize - line.length = (consoleBufferSize - line.length - 1) + 1 := by omega
  rw [behind, List.replicate_succ, List.takeWhile_cons_of_neg (by simp), List.append_nil]

theorem Edited.agrees (edited : Edited s line) : consoleGetLine s = line :=
  getLine_of edited.room edited.chars edited.buffer

theorem edited_zeroLine (lineBuffer : Nat → UInt8) : Edited ⟨zeroLine lineBuffer, 0⟩ [] := by
  refine ⟨rfl, by decide, ?_, by simp⟩
  intro i inside
  dsimp only
  rw [zeroLine_apply, if_pos inside]
  rfl

/-- A character behind the others. -/
theorem Edited.append (edited : Edited s line) (room : line.length < consoleBufferSize - 1)
    (char : c ≠ 0) : Edited ⟨Function.update s.lineBuffer s.lineLength c, s.lineLength + 1⟩
      (line ++ [c]) := by
  refine ⟨by simp [edited.length], by simp; omega, ?_, ?_⟩
  · intro i inside
    dsimp only
    rw [edited.length, Function.update_apply, edited.buffer i inside]
    by_cases last : i = line.length
    · subst last
      simp
    · rw [if_neg last]
      rcases Nat.lt_or_gt_of_ne last with within | behind
      · rw [List.getD_append _ _ _ _ within]
      · rw [List.getD_eq_default _ _ (by omega), List.getD_eq_default _ _ (by simp; omega)]
  · intro d member
    rcases List.mem_append.mp member with older | new
    · exact edited.chars d older
    · rw [List.mem_singleton.mp new]
      exact char

/-- The last character taken away. -/
theorem Edited.remove (edited : Edited s line) (some : s.lineLength > 0) :
    Edited ⟨Function.update s.lineBuffer (s.lineLength - 1) 0, s.lineLength - 1⟩ line.dropLast := by
  have length := edited.length
  have room := edited.room
  refine ⟨by simp [length], by simp; omega, ?_, fun c member => ?_⟩
  · intro i inside
    dsimp only
    rw [Function.update_apply, edited.buffer i inside, length]
    by_cases last : i = line.length - 1
    · rw [if_pos last, List.getD_eq_default]
      rw [List.length_dropLast]
      omega
    · rw [if_neg last]
      simp only [List.getD_eq_getElem?_getD, List.getElem?_dropLast]
      split_ifs with within
      · rfl
      · rw [List.getElem?_eq_none (by omega)]
  · exact edited.chars c (List.dropLast_subset line member)

theorem Edited.keep {l : Ledger} (edited : Edited l.console l.line) (blank : Blank l call) :
    Edited (act l call).console (act l call).line := by
  have length := edited.length
  have size : consoleBufferSize = 256 := rfl
  cases call with
  | clearLine => exact edited_zeroLine _
  | handleChar c =>
    simp only [act, edit, consoleHandleChar]
    split_ifs with erase some enter room room' <;> try omega
    · exact edited.remove some
    · have empty : l.line = [] := by
        apply List.eq_nil_of_length_eq_zero
        omega
      simpa [empty] using edited
    · have empty := blank enter
      rw [empty] at edited
      exact ⟨rfl, edited.room, edited.buffer, edited.chars⟩
    · exact edited.append (length ▸ room) c.property

/-- A newline at the end of a line leaves the line to be read. -/
theorem Edited.broken {l : Ledger} (edited : Edited l.console l.line) (filled : ¬ Blank l call) :
    ¬ Agrees (act l call) := by
  cases call with
  | clearLine => exact absurd trivial filled
  | handleChar c =>
    simp only [Blank, Classical.not_imp] at filled
    obtain ⟨enter, some⟩ := filled
    have other : c.val ≠ backspace := by
      rw [enter]
      decide
    have same : consoleGetLine (act l (.handleChar c)).console = consoleGetLine l.console := by
      simp only [act, consoleHandleChar, if_neg other, if_pos enter]
      rfl
    have empty : (act l (.handleChar c)).line = [] := by
      simp only [act, edit, if_neg other, if_pos enter]
    rw [Agrees, same, empty, edited.agrees]
    exact some

/-- The line read is the reference line throughout a run exactly if every newline
comes while the line is empty. -/
theorem line_agrees (console : Console) (calls : List Call) :
    Always Agrees act (start console) calls ↔ EachStep Blank act (start console) calls :=
  always_iff_eachStep (fun _ edited => Edited.agrees edited) (fun _ _ => Edited.keep)
    (fun _ _ => Edited.broken) (edited_zeroLine _)

/-- `a`, then a newline: the `a` is still read. -/
theorem line_stale : ¬ Always Agrees act (start ⟨fun _ => 0, 0⟩)
    [.handleChar (cchar 'a' (by decide)), .handleChar (cchar '\n' (by decide))] := by
  intro always
  have agrees := always _ List.prefix_rfl
  revert agrees
  rw [Agrees]
  decide +kernel

end ZynthexOS.LineEditing
