import ZynthexOS.Shell.Execute
import Mathlib.Algebra.Order.BigOperators.Group.List
import Mathlib.Data.List.Basic

/-! The buffers of the shell against the longest line of the console. The arguments are
the first eight words of the line, and joined with blanks they are no longer than
the line: the copy, the argument vector and the buffers of `cmd_echo` and `cmd_rd` hold
them. The buffer of `cmd_panic` does not hold every line. -/
namespace ZynthexOS.ShellBuffers
open Shell Text Fs

/-- The words of a line: its maximal parts without blanks that are not empty. -/
def words (line : CString) : List CString := (line.splitOnP (· = space)).filter (· ≠ [])

/-- Words with a blank between each two of them. -/
def joined (args : List CString) : CString := [space].intercalate args

/-- If the line's command is `panic`, the following words up to the seventh are at most
127 characters when joined. -/
def PanicFits (line : CString) : Prop :=
  (words line).head? = some (cstring "panic") →
    (joined ((words line).tail.take (maxArgs - 1))).length < 128

/-- A line of the console. -/
def ConsoleLine (line : CString) : Prop := line.length ≤ 255

/-- The line is executed without a store behind the end of a buffer. -/
def InBounds (env : Environment) (s : ShellState) (line : CString) : Prop :=
  ∀ buffer index, executeCommand env s line ≠ .error (.overrun buffer index)

/-! ## Words -/

theorem words_nil : words [] = [] := by simp [words]

theorem words_skip (line : CString) : words (line.dropWhile (· = space)) = words line := by
  induction line with
  | nil => rfl
  | cons c line ih =>
    by_cases blank : c = space
    · rw [List.dropWhile_cons_of_pos (by simpa using blank), ih]
      simp [words, List.splitOnP_cons_eq_if_modifyHead, blank]
    · rw [List.dropWhile_cons_of_neg (by simpa using blank)]

theorem skipped_head (line : CString) : (line.dropWhile (· = space)).head? ≠ some space := by
  intro same
  have stop := List.head?_dropWhile_not (fun c => decide (c = space)) line
  rw [same] at stop
  simp at stop

/-- The first word of a line that does not start with a blank. -/
theorem words_cons {line : CString} (nonempty : line ≠ []) (first : line.head? ≠ some space) :
    words line = line.takeWhile (· ≠ space) :: words (line.dropWhile (· ≠ space)).tail := by
  have plain : ∀ c ∈ line.takeWhile (· ≠ space), decide (c = space) = false := by
    intro c member
    have other := List.mem_takeWhile_imp member
    exact decide_eq_false (of_decide_eq_true other)
  have kept : line.takeWhile (· ≠ space) ≠ [] := by
    cases line with
    | nil => exact absurd rfl nonempty
    | cons c line => simpa [List.takeWhile_cons] using first
  have split := List.takeWhile_append_dropWhile (p := fun c => decide (c ≠ space)) (l := line)
  cases rest : line.dropWhile (· ≠ space) with
  | nil =>
    rw [rest, List.append_nil] at split
    rw [split] at plain kept ⊢
    rw [words, List.splitOnP_eq_singleton plain, List.filter_cons_of_pos (by simpa using kept)]
    rfl
  | cons c after =>
    have blank : decide (c = space) = true := by
      have stop := List.head?_dropWhile_not (fun c => decide (c ≠ space)) line
      rw [rest] at stop
      change decide (c ≠ space) = false at stop
      exact decide_eq_true (not_not.mp (of_decide_eq_false stop))
    rw [rest] at split
    conv_lhs => rw [← split]
    rw [words, List.splitOnP_append_cons_of_forall_mem plain c blank,
      List.filter_cons_of_pos (by simpa using kept)]
    rfl

/-- A word and the blank behind it. -/
def spaced (word : CString) : Nat := word.length + 1

/-- The words and a blank behind each are no longer than the line with one blank more. -/
theorem words_length (line : CString) : ((words line).map spaced).sum ≤ line.length + 1 := by
  have all : ((line.splitOnP (· = space)).map spaced).sum = line.length + 1 := by
    induction line with
    | nil => simp [spaced]
    | cons c line ih =>
      rw [List.splitOnP_cons_eq_if_modifyHead]
      split_ifs with blank
      · rw [List.map_cons, List.sum_cons, ih, spaced, List.length_cons, List.length_nil]
        omega
      · cases parts : line.splitOnP (· = space) with
        | nil => exact absurd parts (List.splitOnP_ne_nil _ _)
        | cons part parts' =>
          rw [parts, List.map_cons, List.sum_cons] at ih
          simp only [spaced, List.modifyHead_cons, List.map_cons, List.sum_cons, List.length_cons] at ih ⊢
          omega
  rw [← all]
  exact (List.filter_sublist.map _).sum_le_sum (fun _ _ => Nat.zero_le _)

theorem joined_cons (arg : CString) (args : List CString) :
    joined (arg :: args) = arg ++ args.flatMap (space :: ·) := by
  induction args generalizing arg with
  | nil => simp [joined]
  | cons next args ih =>
    have step : joined (arg :: next :: args) = arg ++ space :: joined (next :: args) := by
      simp [joined, List.intercalate]
    rw [step, ih, List.flatMap_cons]
    rfl

theorem joined_length (nonempty : args ≠ []) :
    (joined args).length + 1 = (args.map spaced).sum := by
  cases args with
  | nil => exact absurd rfl nonempty
  | cons arg args =>
    have blanks : (args.map fun word => (space :: word).length) = args.map spaced := rfl
    rw [joined_cons, List.length_append, List.length_flatMap, List.map_cons, List.sum_cons, blanks, spaced]
    omega

/-- Words of a line are no longer than the line when joined. -/
theorem joined_sublist_le {args : List CString} (sublist : args.Sublist (words line)) :
    (joined args).length ≤ line.length := by
  by_cases none : args = []
  · rw [none]
    exact Nat.zero_le _
  · have length := joined_length none
    have sum := (sublist.map spaced).sum_le_sum (fun _ _ => Nat.zero_le _)
    have bound := words_length line
    omega

/-- What a command joins is no longer than the line. -/
theorem joined_le (line : CString) (n : Nat) :
    (joined ((words line).tail.take n)).length ≤ line.length :=
  joined_sublist_le ((List.take_sublist n _).trans (List.tail_sublist _))

/-! ## Storing -/

theorem storeRange_ok {buffer : Buffer} (inside : first + count ≤ buffer.size) :
    storeRange buffer first count = .ok () := if_pos inside

theorem ok_bind {a : α} {f : α → Except Halt β} : (Except.ok a >>= f) = f a := rfl

/-- The arguments are the first words of the line, and splitting stores to the line and
to `argv` only. -/
theorem parseLoop_eq (n index : Nat) (input : CString) (few : n ≤ maxArgs)
    (fits : input = [] ∨ index + input.length ≤ 255) :
    parseLoop n index input = .ok ((words input).take n) := by
  induction n generalizing index input with
  | zero => rfl
  | succ n ih =>
    rw [← words_skip input, parseLoop]
    have shorter := List.length_dropWhile_le (fun c => decide (c = space)) input
    have first := skipped_head input
    generalize input.dropWhile (· = space) = word at shorter first ⊢
    dsimp only
    by_cases none : word = []
    · rw [if_pos none, none, words_nil]
      rfl
    · have whole : index + input.length ≤ 255 := by
        rcases fits with empty | fits
        · rw [empty] at shorter
          exact absurd (List.eq_nil_of_length_eq_zero (Nat.le_zero.mp shorter)) none
        · exact fits
      have rest := List.length_dropWhile_le (fun c => decide (c ≠ space)) word
      have slot : maxArgs - (n + 1) + 1 ≤ Buffer.argv.size := by
        simp only [Buffer.size]
        omega
      rw [if_neg none, storeRange_ok slot, ok_bind, words_cons none first, List.take_succ_cons]
      generalize word.dropWhile (· ≠ space) = after at rest ⊢
      have tail : parseLoop n (index + (strlen input - strlen word) + (strlen word - strlen after) + 1)
          after.tail = .ok ((words after.tail).take n) := by
        apply ih _ _ (Nat.le_of_succ_le few)
        cases after with
        | nil => exact .inl rfl
        | cons c after =>
          refine .inr ?_
          simp only [strlen, List.tail_cons, List.length_cons] at rest ⊢
          omega
      rw [tail]
      split_ifs with more
      · have inside : index + (strlen input - strlen word) + (strlen word - strlen after) + 1 ≤
            Buffer.localBuffer.size := by
          have positive := List.length_pos_iff.mpr more
          simp only [strlen, Buffer.size]
          omega
        rw [storeRange_ok inside]
        rfl
      · rfl

variable {buffer : Buffer} {dest src : CString} {args : List CString}

theorem strcat_ok (room : (dest ++ src).length < buffer.size) :
    strcat buffer dest src = .ok (dest ++ src) := by
  have inside : strlen dest + (strlen src + 1) ≤ buffer.size := by
    rw [List.length_append] at room
    simp only [strlen]
    omega
  rw [strcat, storeRange_ok inside]
  rfl

theorem strcat_overrun (full : buffer.size ≤ (dest ++ src).length) :
    ∃ index, strcat buffer dest src = .error (.overrun buffer index) := by
  have outside : ¬ strlen dest + (strlen src + 1) ≤ buffer.size := by
    rw [List.length_append] at full
    simp only [strlen]
    omega
  refine ⟨max (strlen dest) buffer.size, ?_⟩
  rw [strcat, storeRange, if_neg outside]
  rfl

theorem append_spaced (dest arg : CString) (args : List CString) :
    dest ++ [space] ++ arg ++ args.flatMap (space :: ·) =
      dest ++ (space :: arg ++ args.flatMap (space :: ·)) := by simp

/-- Every argument behind the first is appended behind a blank. -/
theorem appendArguments_ok (later : 1 < i)
    (room : (dest ++ args.flatMap (space :: ·)).length < buffer.size) :
    appendArguments buffer i dest args = .ok (dest ++ args.flatMap (space :: ·)) := by
  induction args generalizing i dest with
  | nil => simp [appendArguments]
  | cons arg args ih =>
    rw [List.flatMap_cons] at room ⊢
    have blank : (dest ++ [space]).length < buffer.size := by
      simp only [List.length_append, List.length_cons, List.length_nil] at room ⊢
      omega
    have word : (dest ++ [space] ++ arg).length < buffer.size := by
      simp only [List.length_append, List.length_cons, List.length_nil] at room ⊢
      omega
    simp only [appendArguments, if_pos later, strcat_ok blank, strcat_ok word, ok_bind]
    rw [ih (Nat.lt_succ_of_lt later) (by rwa [append_spaced]), append_spaced]

/-- The append that does not fit stores behind the buffer. -/
theorem appendArguments_overrun (later : 1 < i) (start : dest.length < buffer.size)
    (full : buffer.size ≤ (dest ++ args.flatMap (space :: ·)).length) :
    ∃ index, appendArguments buffer i dest args = .error (.overrun buffer index) := by
  induction args generalizing i dest with
  | nil =>
    rw [List.flatMap_nil, List.append_nil] at full
    omega
  | cons arg args ih =>
    rw [List.flatMap_cons] at full
    simp only [appendArguments, if_pos later]
    by_cases blank : (dest ++ [space]).length < buffer.size
    · simp only [strcat_ok blank, ok_bind]
      by_cases word : (dest ++ [space] ++ arg).length < buffer.size
      · simp only [strcat_ok word, ok_bind]
        exact ih (Nat.lt_succ_of_lt later) word (by rwa [append_spaced])
      · obtain ⟨index, stop⟩ := strcat_overrun (Nat.not_lt.mp word)
        exact ⟨index, by rw [stop]; rfl⟩
    · obtain ⟨index, stop⟩ := strcat_overrun (Nat.not_lt.mp blank)
      exact ⟨index, by rw [stop]; rfl⟩

theorem buffer_pos (buffer : Buffer) : 0 + 1 ≤ buffer.size := by
  cases buffer <;> decide

theorem joinArguments_ok (buffer : Buffer) (name : CString) (room : (joined args).length < buffer.size) :
    joinArguments buffer (name :: args) = .ok (joined args) := by
  rw [joinArguments, storeRange_ok (buffer_pos buffer), ok_bind, List.tail_cons]
  cases args with
  | nil => rfl
  | cons arg args =>
    rw [joined_cons] at room ⊢
    have word : ([] ++ arg).length < buffer.size := by
      rw [List.length_append] at room
      rw [List.nil_append]
      omega
    have first : ¬ 1 > 1 := by decide
    simp only [appendArguments, if_neg first, ok_bind, strcat_ok word]
    exact appendArguments_ok (by decide) room

theorem joinArguments_overrun (buffer : Buffer) (name : CString)
    (full : buffer.size ≤ (joined args).length) :
    ∃ index, joinArguments buffer (name :: args) = .error (.overrun buffer index) := by
  rw [joinArguments, storeRange_ok (buffer_pos buffer), ok_bind, List.tail_cons]
  cases args with
  | nil =>
    have positive := buffer_pos buffer
    have none : (joined []).length = 0 := rfl
    omega
  | cons arg args =>
    rw [joined_cons] at full
    have first : ¬ 1 > 1 := by decide
    simp only [appendArguments, if_neg first, ok_bind]
    by_cases word : ([] ++ arg).length < buffer.size
    · simp only [strcat_ok word, ok_bind]
      exact appendArguments_overrun (by decide) word full
    · obtain ⟨index, stop⟩ := strcat_overrun (Nat.not_lt.mp word)
      exact ⟨index, by rw [stop]; rfl⟩

/-! ## Reading a file -/

/-- Not more is read than was asked for. -/
theorem ramfsRead_length (read : ramfsRead s node offset size = .ok (n, bytes)) :
    bytes.length ≤ size.toNat := by
  rw [ramfsRead] at read
  dsimp only at read
  split_ifs at read with behind clipped
  · obtain ⟨-, rfl⟩ := Prod.mk.inj (Except.ok.inj read)
    exact Nat.zero_le _
  · obtain ⟨_, -, result⟩ := bind_returns.mp read
    obtain ⟨-, rfl⟩ := Prod.mk.inj (Except.ok.inj result)
    rw [List.length_map, List.length_range]
    rw [ge_iff_le, UInt32.not_le, UInt32.lt_iff_toNat_lt] at behind
    rw [gt_iff_lt, UInt32.lt_iff_toNat_lt, UInt32.toNat_add] at clipped
    rw [UInt32.toNat_sub_of_le _ _ (UInt32.le_iff_toNat_le.mpr (Nat.le_of_lt behind))]
    have bound := size.toNat_lt
    omega
  · obtain ⟨_, -, result⟩ := bind_returns.mp read
    obtain ⟨-, rfl⟩ := Prod.mk.inj (Except.ok.inj result)
    rw [List.length_map, List.length_range]

theorem sysRead_length (read : sysRead s fd size = .ok (files, n, bytes)) :
    bytes.length ≤ size.toNat := by
  rw [sysRead] at read
  split_ifs at read with bad
  · simp only [Except.ok.injEq, Prod.mk.injEq] at read
    obtain ⟨-, -, rfl⟩ := read
    exact Nat.zero_le _
  · obtain ⟨⟨m, data⟩, inner, result⟩ := bind_returns.mp read
    simp only [Except.ok.injEq, Prod.mk.injEq] at result
    obtain ⟨-, -, rfl⟩ := result
    exact ramfsRead_length inner

/-- The buffer of `cmd_rd` is never too small, so that the command is the one without
it. -/
theorem cmdRdBuffered_eq (s : ShellState) (argv : List CString) :
    cmdRdBuffered s argv = callFs (cmdRd s argv) := by
  rcases argv with _ | ⟨name, _ | ⟨path, rest⟩⟩
  · rfl
  · rfl
  · simp only [cmdRdBuffered, cmdRd]
    cases sysOpen s.files path with
    | error fault => rfl
    | ok opened =>
      obtain ⟨files, fd⟩ := opened
      have whole : storeRange .rdBuffer 0 256 = .ok () := rfl
      simp only [callFs, Except.mapError, whole, Except.bind, bind]
      split_ifs
      · rfl
      · cases read : sysRead (sysSeek files fd 0).1 fd 255 with
        | error fault => rfl
        | ok result =>
          obtain ⟨files', n, bytes⟩ := result
          have short : 0 + bytes.length ≤ Buffer.rdBuffer.size := by
            have length : bytes.length ≤ 255 := sysRead_length read
            simp only [Buffer.size]
            omega
          simp only [storeRange_ok short]

/-! ## Commands -/

theorem callFs_inBounds (x : Except Fault α) (buffer : Buffer) (index : Nat) :
    callFs x ≠ .error (.overrun buffer index) := by
  cases x <;> simp [callFs, Except.mapError]

/-- The first argument runs the command of that name. -/
theorem find_command : ∀ command ∈ commands,
    (commands.find? fun entry => strcmp (cstring command.1) (cstring entry.1) = 0) = some command := by
  decide +kernel

/-- No other does. -/
theorem name_of_panic (found : (commands.find? fun command => strcmp name (cstring command.1) = 0) =
    some (entry, .panic)) : name = cstring "panic" := by
  have only : ∀ command ∈ commands, command.2 = .panic → command.1 = "panic" := by decide
  have same := List.find?_some found
  have entryName := only _ (List.mem_of_find?_eq_some found) rfl
  rw [decide_eq_true_iff, strcmp_eq_zero] at same
  rw [same]
  exact congrArg cstring entryName

/-- `cmd_panic` stays in its buffer exactly if the joined arguments do. -/
theorem cmdPanic_inBounds (name : CString) (args : List CString) :
    (∀ buffer index, cmdPanic (name :: args) ≠ .error (.overrun buffer index)) ↔
      (joined args).length < 128 := by
  rw [cmdPanic]
  cases args with
  | nil =>
    refine iff_of_true ?_ (by decide)
    simp
  | cons arg args =>
    have more : ¬ (name :: arg :: args).length < 2 := by simp
    rw [if_neg more]
    by_cases room : (joined (arg :: args)).length < 128
    · rw [joinArguments_ok .panicBuffer name room]
      refine iff_of_true ?_ room
      intro buffer index
      simp [ok_bind]
    · obtain ⟨index, stop⟩ :=
        joinArguments_overrun .panicBuffer name (Nat.not_lt.mp room)
      refine iff_of_false ?_ room
      intro all
      exact all .panicBuffer index (by rw [stop]; rfl)

theorem cmdEcho_inBounds (s : ShellState) (name : CString) (args : List CString)
    (room : (joined args).length < 1024) (buffer : Buffer) (index : Nat) :
    cmdEcho s (name :: args) ≠ .error (.overrun buffer index) := by
  rw [cmdEcho, joinArguments_ok .echoBuffer name room]
  simp [ok_bind]

/-- Every handler but that of `panic` stays in its buffer. -/
theorem runHandler_inBounds (env : Environment) (s : ShellState) (name : CString) (args : List CString)
    (room : (joined args).length < 1024) (handler : Handler) (other : handler ≠ .panic)
    (buffer : Buffer) (index : Nat) :
    runHandler env s (name :: args) handler ≠ .error (.overrun buffer index) := by
  cases handler with
  | panic => exact absurd rfl other
  | echo => exact cmdEcho_inBounds s name args room buffer index
  | rd =>
    rw [runHandler, cmdRdBuffered_eq]
    exact callFs_inBounds _ buffer index
  | mk => exact callFs_inBounds _ buffer index
  | write => exact callFs_inBounds _ buffer index
  | ls => exact callFs_inBounds _ buffer index
  | cd => exact callFs_inBounds _ buffer index
  | other command => exact fun same => nomatch same

/-- The copy of a console line is long enough, and so are the parts of `argv`. -/
theorem executeCommand_eq (env : Environment) (s : ShellState) (console : ConsoleLine line) :
    executeCommand env s line =
      match (words line).take maxArgs with
      | [] => .ok s
      | name :: args =>
        match commands.find? fun command => strcmp name (cstring command.1) = 0 with
        | some (_, handler) => runHandler env s (name :: args) handler
        | none => .ok (s.print "Unknown command\n") := by
  have whole : 0 + (strlen line + 1) ≤ Buffer.localBuffer.size := by
    have short : line.length ≤ 255 := console
    simp only [strlen, Buffer.size]
    omega
  have split : parseArguments line = .ok ((words line).take maxArgs) :=
    parseLoop_eq maxArgs 0 line (Nat.le_refl _) (.inr (by rw [Nat.zero_add]; exact console))
  simp only [executeCommand, strcpy, storeRange_ok whole, ok_bind, split]
  cases (words line).take maxArgs <;> rfl

/-- A console line is executed inside all buffers exactly if it is no `panic` with more
than 127 characters. -/
theorem shell_buffers (env : Environment) (s : ShellState) (line : CString) (console : ConsoleLine line) :
    InBounds env s line ↔ PanicFits line := by
  have length := joined_le line (maxArgs - 1)
  rw [InBounds, PanicFits, executeCommand_eq env s console]
  generalize words line = all at length ⊢
  cases all with
  | nil => simp
  | cons name rest =>
    rw [List.tail_cons] at length
    have room : (joined (rest.take (maxArgs - 1))).length < 1024 := by
      have short : line.length ≤ 255 := console
      omega
    have eight : (name :: rest).take maxArgs = name :: rest.take (maxArgs - 1) := rfl
    simp only [eight, List.head?_cons, List.tail_cons, Option.some.injEq]
    by_cases panic : name = cstring "panic"
    · subst panic
      rw [find_command ("panic", .panic) (by decide)]
      simp only [true_implies]
      exact cmdPanic_inBounds _ _
    · refine iff_of_true ?_ (fun same => absurd same panic)
      cases found : commands.find? fun command => strcmp name (cstring command.1) = 0 with
      | none => simp
      | some command =>
        obtain ⟨entry, handler⟩ := command
        have other : handler ≠ .panic := by
          rintro rfl
          exact panic (name_of_panic found)
        exact runHandler_inBounds env s name _ room handler other

/-- A shell with an empty file system and no descriptor in use. -/
def emptyShell : ShellState :=
  ⟨⟨⟨fun _ => clearedNode, fun _ _ => 0, [], 0⟩, fun _ => ⟨false, 0, 0⟩⟩, 0, []⟩

/-- No memory is left, and the commands that are not modelled do nothing. -/
def noMemory : Environment := ⟨fun _ => ⟨0, fun _ => 0⟩, 0, fun _ _ s => s⟩

/-- A short message. -/
theorem shell_buffers_short : InBounds noMemory emptyShell (cstring "panic now") :=
  (shell_buffers noMemory emptyShell (cstring "panic now") (by unfold ConsoleLine; decide +kernel)).mpr
    (fun _ => by decide +kernel)

/-- `panic` with one word of 128 letters. -/
def longPanic : CString := cstring "panic " ++ List.replicate 128 (cchar 'a' (by decide))

/-- Its NUL is stored behind the buffer of `cmd_panic`. -/
theorem panic_overruns : ¬ ∀ env s line, ConsoleLine line → InBounds env s line := by
  intro claim
  have console : ConsoleLine longPanic := by
    unfold ConsoleLine
    decide +kernel
  have inside := claim noMemory emptyShell longPanic console
  rw [InBounds, executeCommand_eq noMemory emptyShell console] at inside
  have split : (words longPanic).take maxArgs =
      [cstring "panic", List.replicate 128 (cchar 'a' (by decide))] := by
    decide +kernel
  simp only [split, find_command ("panic", .panic) (by decide)] at inside
  have short := (cmdPanic_inBounds _ _).mp inside
  exact absurd short (by decide +kernel)

end ZynthexOS.ShellBuffers
