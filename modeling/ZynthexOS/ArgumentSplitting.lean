import ZynthexOS.Shell.Arguments
import ZynthexOS.ShellBuffers

/-! Splitting a line in place. Each round of the outer loop turns the next word into a
string of its own and goes on behind it, so that later rounds leave it alone. -/
namespace ZynthexOS.ArgumentSplitting
open Lib.Memory Shell Text ShellBuffers

/-- Reading from an address up to a NUL gives the string. -/
def StringAt (mem : Mem) : Nat → CString → Prop
  | a, [] => mem a = 0
  | a, c :: s => mem a = c.val ∧ StringAt mem (a + 1) s

/-- The first `argc` entries of `argv` point to the words, up to `MAX_ARGS` of them. -/
structure Splits (line : CString) (s : Splitter) : Prop where
  argc : s.argc = min maxArgs (words line).length
  argv : ∀ i (inside : i < (words line).length), i < s.argc →
    StringAt s.mem (s.argv i) ((words line)[i])

/-! ## Strings in memory -/

theorem stringAt_congr (same : ∀ x, a ≤ x → x ≤ a + s.length → mem' x = mem x)
    (here : StringAt mem a s) : StringAt mem' a s := by
  induction s generalizing a with
  | nil => exact (same a (Nat.le_refl _) (Nat.le_refl _)).trans here
  | cons c s ih =>
    obtain ⟨first, rest⟩ := here
    refine ⟨(same a (Nat.le_refl _) (Nat.le_add_right _ _)).trans first, ih ?_ rest⟩
    intro x above below
    rw [List.length_cons] at same
    exact same x (by omega) (by omega)

theorem stringAt_end (here : StringAt mem a s) : mem a = 0 ↔ s = [] := by
  cases s with
  | nil => exact iff_of_true here rfl
  | cons c s => exact iff_of_false (here.1 ▸ c.property) (List.cons_ne_nil _ _)

/-- Reading gives one string only. -/
theorem stringAt_unique (one : StringAt mem a s) (other : StringAt mem a t) : s = t := by
  induction s generalizing a t with
  | nil =>
    cases t with
    | nil => rfl
    | cons d t => exact absurd (other.1.symm.trans one) d.property
  | cons c s ih =>
    cases t with
    | nil => exact absurd (one.1.symm.trans other) c.property
    | cons d t =>
      have first : c = d := Subtype.ext (one.1.symm.trans other.1)
      rw [first, ih one.2 other.2]

/-- The string that begins later in a string. -/
theorem stringAt_drop (here : StringAt mem a (w ++ t)) : StringAt mem (a + w.length) t := by
  induction w generalizing a with
  | nil => exact here
  | cons c w ih =>
    have rest := ih here.2
    rwa [Nat.add_right_comm] at rest

/-- A NUL behind the first part of a string makes a string of it. -/
theorem stringAt_cut (here : StringAt mem a (w ++ t)) (stop : mem' (a + w.length) = 0)
    (same : ∀ x, a ≤ x → x < a + w.length → mem' x = mem x) : StringAt mem' a w := by
  induction w generalizing a with
  | nil => exact stop
  | cons c w ih =>
    rw [List.length_cons] at same stop
    refine ⟨(same a (Nat.le_refl _) (by omega)).trans here.1, ih here.2 ?_ ?_⟩
    · rwa [Nat.add_right_comm]
    · intro x above below
      exact same x (by omega) (by omega)

/-! ## The inner loops -/

/-- A loop that no NUL passes ends inside the string. -/
theorem skipWhile_spec (stops : test 0 = false) (here : StringAt mem a s) (enough : s.length < fuel) :
    skipWhile mem test fuel a = some (a + (s.takeWhile (test ·.val)).length) := by
  induction s generalizing a fuel with
  | nil =>
    obtain ⟨fuel, rfl⟩ := Nat.exists_eq_succ_of_ne_zero (Nat.ne_zero_of_lt enough)
    have last : mem a = 0 := here
    rw [skipWhile, last, stops]
    rfl
  | cons c s ih =>
    obtain ⟨fuel, rfl⟩ := Nat.exists_eq_succ_of_ne_zero (Nat.ne_zero_of_lt enough)
    rw [skipWhile, here.1]
    split_ifs with passes
    · rw [ih here.2 (Nat.lt_of_succ_lt_succ enough),
        List.takeWhile_cons_of_pos (p := fun c : CChar => test c.val) passes, List.length_cons,
        Nat.add_right_comm, Nat.add_assoc]
    · rw [List.takeWhile_cons_of_neg (p := fun c : CChar => test c.val) passes]
      rfl

theorem space_iff (c : CChar) : c.val = 32 ↔ c = space := by
  rw [Subtype.ext_iff]
  rfl

theorem skipSpaces_spec (here : StringAt mem a s) (enough : s.length < fuel) :
    skipSpaces mem fuel a = some (a + (s.takeWhile (· = space)).length) := by
  have spaces : (fun c : CChar => decide (c.val = 32)) = fun c => decide (c = space) :=
    funext fun c => decide_eq_decide.mpr (space_iff c)
  rw [skipSpaces, skipWhile_spec (by decide) here enough, spaces]

theorem skipWord_spec (here : StringAt mem a s) (enough : s.length < fuel) :
    skipWord mem fuel a = some (a + (s.takeWhile (· ≠ space)).length) := by
  have others : (fun c : CChar => decide (c.val ≠ 0 ∧ c.val ≠ 32)) = fun c => decide (c ≠ space) := by
    funext c
    rw [decide_eq_decide, ne_eq c.val 32, space_iff]
    exact and_iff_right c.property
  rw [skipWord, skipWhile_spec (by decide) here enough, others]

/-! ## The outer loop -/

/-- What the outer loop does from some round on, with the rest of the line before it. -/
structure Continues (s : Splitter) (line : CString) (s' : Splitter) : Prop where
  argc : s'.argc = s.argc + min (maxArgs - s.argc) (words line).length
  before : ∀ i < s.argc, s'.argv i = s.argv i
  argv : ∀ i (inside : i < (words line).length), s.argc + i < s'.argc →
    StringAt s'.mem (s'.argv (s.argc + i)) ((words line)[i])
  mem : ∀ x, x < s.input ∨ s.input + line.length ≤ x → s'.mem x = s.mem x
  stores : ∃ more, s'.stores = s.stores ++ more ∧ ∀ x ∈ more, s.input ≤ x ∧ x < s.input + line.length

/-- The loop ends. -/
theorem continues_stop (s : Splitter) (input : Nat) (full : min (maxArgs - s.argc) (words line).length = 0) :
    Continues s line { s with input := input } := by
  refine ⟨?_, fun _ _ => rfl, ?_, fun _ _ => rfl, [], (List.append_nil _).symm, by simp⟩
  · rw [full]
    rfl
  · intro i inside below
    exact absurd below (Nat.not_lt.mpr (Nat.le_add_right _ _))

variable {s s' t : Splitter}

/-- What cutting does where a word ends, with the rest of the line from there on. -/
structure Cut (s : Splitter) (rest : CString) (t : Splitter) : Prop where
  argc : t.argc = s.argc
  argv : t.argv = s.argv
  tail : StringAt t.mem t.input rest.tail
  ended : t.mem s.input = 0
  mem : ∀ x, x ≠ s.input ∨ rest = [] → t.mem x = s.mem x
  onward : s.input ≤ t.input
  length : t.input + rest.tail.length = s.input + rest.length
  stores : ∃ more, t.stores = s.stores ++ more ∧ ∀ x ∈ more, x = s.input ∧ rest ≠ []

theorem cut_spec (here : StringAt s.mem s.input rest) : Cut s rest s.cut := by
  cases rest with
  | nil =>
    have last : s.mem s.input = 0 := here
    have same : s.cut = s := if_neg (not_not.mpr last)
    rw [same]
    exact ⟨rfl, rfl, here, last, fun _ _ => rfl, Nat.le_refl _, rfl, [], (List.append_nil _).symm,
      by simp⟩
  | cons c rest =>
    have stored : s.cut = { s with
        mem := Function.update s.mem s.input 0, input := s.input + 1, stores := s.stores ++ [s.input] } :=
      if_pos (by rw [here.1]; exact c.property)
    rw [stored]
    refine ⟨rfl, rfl, ?_, Function.update_self .., fun x other => ?_, Nat.le_succ _, ?_, [s.input], rfl,
      by simp⟩
    · refine stringAt_congr (fun x above _ => ?_) here.2
      exact Function.update_of_ne (Nat.ne_of_gt above) ..
    · exact Function.update_of_ne (other.resolve_right (List.cons_ne_nil _ _)) ..
    · exact Nat.add_right_comm s.input 1 rest.length

/-- A round that finds a word, and the rounds behind it. -/
theorem continues_word (room : s.argc < maxArgs) (split : line = blanks ++ (word ++ rest))
    (words_eq : words line = word :: words rest.tail) (here : StringAt s.mem s.input line)
    (cut : Cut { s.enter (s.input + blanks.length) with
      input := s.input + blanks.length + word.length } rest t)
    (later : Continues t rest.tail s') : Continues s line s' := by
  have placed : StringAt s.mem (s.input + blanks.length) (word ++ rest) := by
    rw [split] at here
    exact stringAt_drop here
  generalize start : s.input + blanks.length = input at placed cut
  have size : line.length = blanks.length + (word.length + rest.length) := by
    rw [split, List.length_append, List.length_append]
  obtain ⟨argc, argv, -, ended, mem, onward, length, stores⟩ := cut
  dsimp only [Splitter.enter] at argc argv ended mem onward length stores
  refine ⟨?_, ?_, ?_, ?_, ?_⟩
  · rw [later.argc, argc, words_eq, List.length_cons]
    omega
  · intro i less
    rw [later.before i (by omega), argv, Function.update_of_ne (Nat.ne_of_lt less)]
  · intro i small below
    have indexed : ∀ j (inside : j < (words line).length) (inside' : j < (word :: words rest.tail).length),
        (words line)[j] = (word :: words rest.tail)[j] := by
      intro j _ _
      simp only [words_eq]
    rw [indexed i small (by rwa [← words_eq])]
    cases i with
    | zero =>
      -- no later round comes back to the word that was cut off here
      have first : s'.argv (s.argc + 0) = input := by
        rw [later.before _ (by omega), argv, Nat.add_zero, Function.update_self]
      rw [first]
      have word_kept : StringAt t.mem input word :=
        stringAt_cut placed ended fun x _ below => mem x (.inl (Nat.ne_of_lt below))
      refine stringAt_congr (fun x _ (below : x ≤ input + word.length) => later.mem x ?_) word_kept
      have shorter : rest.tail.length = rest.length - 1 := List.length_tail
      omega
    | succ i =>
      have small' : i < (words rest.tail).length := by
        rw [words_eq, List.length_cons] at small
        exact Nat.lt_of_succ_lt_succ small
      have later_word := later.argv i small' (by omega)
      rwa [argc, Nat.add_right_comm] at later_word
  · intro x outside
    rw [later.mem x (by omega)]
    apply mem
    by_cases last : rest = []
    · exact .inr last
    · have positive := List.length_pos_iff.mpr last
      exact .inl (by omega)
  · obtain ⟨here', stored, single⟩ := stores
    obtain ⟨more, stored', inside⟩ := later.stores
    refine ⟨here' ++ more, by rw [stored', stored, List.append_assoc], fun x member => ?_⟩
    rcases List.mem_append.mp member with now | then'
    · obtain ⟨same, more'⟩ := single x now
      have positive := List.length_pos_iff.mpr more'
      omega
    · have bounds := inside x then'
      omega

/-- The first word of a line, between the blanks before it and the rest. -/
theorem words_first (line : CString) (more : line.dropWhile (· = space) ≠ []) :
    ∃ word rest, word ≠ [] ∧ line.dropWhile (· = space) = word ++ rest ∧
      (line.dropWhile (· = space)).takeWhile (· ≠ space) = word ∧
      words line = word :: words rest.tail := by
  have first := skipped_head line
  refine ⟨_, _, ?_, List.takeWhile_append_dropWhile.symm, rfl, ?_⟩
  · cases tail : line.dropWhile (· = space) with
    | nil => exact absurd tail more
    | cons c tail' =>
      rw [tail] at first
      simpa [List.takeWhile_cons] using first
  · rw [← words_skip line]
    exact words_cons more first

/-- With enough fuel the loop ends. -/
theorem splitLoop_spec (enough : line.length + 2 ≤ fuel) (few : s.argc ≤ maxArgs)
    (here : StringAt s.mem s.input line) : ∃ s', splitLoop fuel s = some s' ∧ Continues s line s' := by
  induction fuel generalizing s line with
  | zero => omega
  | succ fuel ih =>
    rw [splitLoop]
    split_ifs with more
    · rw [skipSpaces_spec here (by omega), Option.bind_eq_bind, Option.bind_some]
      have split := List.takeWhile_append_dropWhile (p := fun c => decide (c = space)) (l := line)
      have size := congrArg List.length split
      rw [List.length_append] at size
      have tail : StringAt s.mem (s.input + (line.takeWhile (· = space)).length)
          (line.dropWhile (· = space)) := stringAt_drop (by rwa [split])
      by_cases none : line.dropWhile (· = space) = []
      · rw [if_pos ((stringAt_end tail).mpr none)]
        refine ⟨_, rfl, continues_stop s _ ?_⟩
        rw [← words_skip, none, words_nil]
        exact Nat.min_zero _
      · obtain ⟨word, rest, nonempty, tail_eq, first, words_eq⟩ := words_first line none
        have positive := List.length_pos_iff.mpr nonempty
        have shorter : rest.tail.length = rest.length - 1 := List.length_tail
        have length : (line.dropWhile (· = space)).length = word.length + rest.length := by
          rw [tail_eq, List.length_append]
        rw [if_neg fun ended => none ((stringAt_end tail).mp ended), skipWord_spec tail (by omega), first,
          Option.bind_some]
        rw [tail_eq] at tail split
        have cut := cut_spec (s := { s.enter (s.input + (line.takeWhile (· = space)).length) with
          input := s.input + (line.takeWhile (· = space)).length + word.length }) (stringAt_drop tail)
        obtain ⟨s', returned, later⟩ := ih (by omega) (cut.argc ▸ more.2) cut.tail
        exact ⟨s', returned, continues_word more.2 split.symm words_eq here cut later⟩
    · refine ⟨s, rfl, continues_stop s s.input ?_⟩
      by_cases full : s.argc < maxArgs
      · have ended : s.mem s.input = 0 := by
          by_contra going
          exact more ⟨going, full⟩
        rw [(stringAt_end here).mp ended, words_nil]
        exact Nat.min_zero _
      · rw [Nat.sub_eq_zero_of_le (Nat.not_lt.mp full)]
        exact Nat.zero_min _

theorem splits_of_continues (done : Continues ⟨mem, input, argv, 0, stores⟩ line s) : Splits line s := by
  refine ⟨?_, fun i small below => ?_⟩
  · simpa using done.argc
  · have word := done.argv i small (by rwa [Nat.zero_add])
    rwa [Nat.zero_add] at word

/-- On every string, splitting ends with the words up to `MAX_ARGS` of them as strings of
their own, and it stores to the string only. -/
theorem arguments_split (argv : Nat → Nat) (here : StringAt mem input line)
    (enough : line.length + 2 ≤ fuel) :
    ∃ s, splitArguments fuel mem input argv = some s ∧ Splits line s ∧
      ∀ x ∈ s.stores, input ≤ x ∧ x < input + line.length := by
  obtain ⟨s, returned, done⟩ :=
    splitLoop_spec (s := ⟨mem, input, argv, 0, []⟩) enough (Nat.zero_le _) here
  obtain ⟨more, stores, inside⟩ := done.stores
  refine ⟨s, returned, splits_of_continues done, fun x member => inside x ?_⟩
  rwa [stores, List.nil_append] at member

/-- A line of two words in memory. -/
def lineMemory : Mem := fun x => stringBytes (cstring " rd  a") (x - 100)

theorem arguments_split_two :
    ∃ s, splitArguments 8 lineMemory 100 (fun _ => 0) = some s ∧ Splits (cstring " rd  a") s ∧
      ∀ x ∈ s.stores, 100 ≤ x ∧ x < 100 + (cstring " rd  a").length :=
  arguments_split _ ⟨rfl, rfl, rfl, rfl, rfl, rfl, rfl⟩ (by decide)

/-- The strings that `argv` points to are those that the commands get. -/
theorem parseArguments_points (argv : Nat → Nat) (console : ConsoleLine line)
    (here : StringAt mem input line) (enough : line.length + 2 ≤ fuel) :
    ∃ s args, splitArguments fuel mem input argv = some s ∧ parseArguments line = .ok args ∧
      args.length = s.argc ∧ ∀ i < s.argc, ∀ w, StringAt s.mem (s.argv i) w ↔ args[i]? = some w := by
  obtain ⟨s, returned, done⟩ :=
    splitLoop_spec (s := ⟨mem, input, argv, 0, []⟩) enough (Nat.zero_le _) here
  have split : parseArguments line = .ok ((words line).take maxArgs) :=
    parseLoop_eq maxArgs 0 line (Nat.le_refl _) (.inr (by rw [Nat.zero_add]; exact console))
  have splits := splits_of_continues done
  refine ⟨s, _, returned, split, by rw [List.length_take, splits.argc], fun i below w => ?_⟩
  have counted := splits.argc
  have small : i < (words line).length := by omega
  have word := splits.argv i small below
  rw [List.getElem?_take_of_lt (by omega), List.getElem?_eq_getElem small, Option.some.injEq]
  exact ⟨fun read => stringAt_unique word read, fun same => same ▸ word⟩

/-- The commands get both words of the line. -/
theorem parseArguments_points_two : parseArguments (cstring " rd  a") = .ok [cstring "rd", cstring "a"] ∧
    ∃ s args, splitArguments 8 lineMemory 100 (fun _ => 0) = some s ∧
      parseArguments (cstring " rd  a") = .ok args ∧ args.length = s.argc ∧
      ∀ i < s.argc, ∀ w, StringAt s.mem (s.argv i) w ↔ args[i]? = some w := by
  have console : ConsoleLine (cstring " rd  a") := by
    rw [ConsoleLine]
    decide
  have here : StringAt lineMemory 100 (cstring " rd  a") := ⟨rfl, rfl, rfl, rfl, rfl, rfl, rfl⟩
  exact ⟨by decide +kernel, parseArguments_points (fun _ => 0) console here (by decide)⟩

end ZynthexOS.ArgumentSplitting
