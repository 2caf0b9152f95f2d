import ZynthexOS.Lib.Memory
import ZynthexOS.Shell.Execute

/-! `parse_arguments` of `shell/shell.c` on the bytes of the line: `argv` holds pointers
into the line, which is cut up in place. `Execute` takes the arguments as the strings
these pointers point to. -/
namespace ZynthexOS.Shell
open Lib.Memory

/-- The memory, the variables of `parse_arguments`, and where it has stored bytes. -/
structure Splitter where
  mem : Mem
  input : Nat
  argv : Nat → Nat
  argc : Nat
  stores : List Nat

/-- `while (test(*input)) input++;` -/
def skipWhile (mem : Mem) (test : UInt8 → Bool) : Nat → Nat → Option Nat
  | 0, _ => none
  | fuel + 1, input => if test (mem input) then skipWhile mem test fuel (input + 1) else some input

/-- `while (*input == ' ') input++;` -/
def skipSpaces (mem : Mem) : Nat → Nat → Option Nat := skipWhile mem fun c => c = 32

/-- `while (*input && *input != ' ') input++;` -/
def skipWord (mem : Mem) : Nat → Nat → Option Nat := skipWhile mem fun c => c ≠ 0 ∧ c ≠ 32

/-- `argv[*argc] = input; (*argc)++;` -/
def Splitter.enter (s : Splitter) (input : Nat) : Splitter :=
  { s with argv := Function.update s.argv s.argc input, argc := s.argc + 1, input := input }

/-- `*input = '\0'; input++;` unless the line ends here. -/
def Splitter.cut (s : Splitter) : Splitter :=
  if s.mem s.input ≠ 0 then
    { s with mem := Function.update s.mem s.input 0, input := s.input + 1, stores := s.stores ++ [s.input] }
  else s

/-- The outer loop of `parse_arguments`. -/
def splitLoop : Nat → Splitter → Option Splitter
  | 0, _ => none
  | fuel + 1, s =>
    if s.mem s.input ≠ 0 ∧ s.argc < maxArgs then do
      let input ← skipSpaces s.mem fuel s.input
      if s.mem input = 0 then some { s with input := input }
      else
        let next ← skipWord s.mem fuel input
        splitLoop fuel (Splitter.cut { s.enter input with input := next })
    else some s

/-- `parse_arguments`, where `argv` holds anything before. -/
def splitArguments (fuel : Nat) (mem : Mem) (input : Nat) (argv : Nat → Nat) : Option Splitter :=
  splitLoop fuel ⟨mem, input, argv, 0, []⟩

end ZynthexOS.Shell
