import ZynthexOS.Shell.Execute

/-! `cmd_calc` of `shell/shell.c`, compiled without optimisation: a signed quotient is an
`idiv`. -/
namespace ZynthexOS.Shell
open Text

/-- `'+'`, `'-'` and `'*'`. -/
def plus : CChar := cchar '+' (by decide)

def minus : CChar := cchar '-' (by decide)

def star : CChar := cchar '*' (by decide)

/-- How `isr_handler` in `core/idt.c` ends for exception 0. -/
def divideException : Halt := .panic (cstring "CPU Exception")

/-- `idiv`: an exception if there is no quotient or it is not an `int`. -/
def idiv (a b : Int32) : Except Halt Int32 :=
  let quotient := a.toInt.tdiv b.toInt
  if b ≠ 0 ∧ -2 ^ 31 ≤ quotient ∧ quotient < 2 ^ 31 then .ok (.ofInt quotient)
  else .error divideException

/-- `cmd_calc`. -/
def cmdCalc (s : ShellState) : List CString → Except Halt ShellState
  | [_, x, operator, y] => do
    let a := atoi x
    let b := atoi y
    let op := operator.head?
    if op = some slash then
      if b ≠ 0 then
        -- the `return` behind the `else` is taken here too
        let _result ← idiv a b
        .ok s
      else .ok (s.print "Division by zero!\n")
    else
      let result : UInt32 :=
        if op = some plus then (a + b).toUInt32
        else if op = some minus then (a - b).toUInt32
        else if op = some star then (a * b).toUInt32
        else 0
      .ok ({ s with screen := s.screen ++ [bufferString (utoa result 10)] }.print "\n")
  | _ => .ok (s.print "Usage: eval <a> <op> <b>\n")

end ZynthexOS.Shell
