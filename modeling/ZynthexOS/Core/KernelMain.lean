import ZynthexOS.Core.Console
import ZynthexOS.Core.Irq
import ZynthexOS.Lib.Polling

/-! The loop of `kernel_main` in `kernel.c`, with `shell_update` of `shell/shell.c`. Interrupts
come between any two of its steps. What it calls on the way is listed: `returns` says of the
calls so far whether the last of them, of `execute_command`, comes back. -/
namespace ZynthexOS.Core
open Drivers Text Lib.Polling

/-- What `shell_update` calls, and `console_handle_char` for it. `prompt` is the printing of the
prompt. -/
inductive ShellCall where
  | vgaPutchar (c : UInt8)
  | executeCommand (input : List UInt8)
  | prompt
  deriving DecidableEq, Repr

/-- The drivers, the console's line and the calls so far. `place` is where the loop is: before
`keyboard_has_input`, before `keyboard_getchar`, behind it with the character, before `hlt`, in
`hlt`, or in a command that does not return. -/
structure KernelMain where
  place : Place UInt8
  devices : Devices
  console : Console
  calls : List ShellCall

/-- The body of the loop in `shell_update` behind `keyboard_getchar`; `none` where the command
does not return. -/
def shellRespond (returns : List ShellCall → Bool) (console : Console) (calls : List ShellCall) (c : UInt8) :
    Option (Console × List ShellCall) :=
  if c = newline then
    let input := consoleGetLine console
    let calls := calls ++ [.vgaPutchar newline, .executeCommand input]
    if returns calls then some (consoleClearLine console, calls ++ [.prompt]) else none
  else
    let (console, written) := consoleHandleChar console c
    some (console, calls ++ written.map .vgaPutchar)

/-- One step of `kernel_main`. -/
def KernelMain.step (returns : List ShellCall → Bool) (s : KernelMain) : KernelMain :=
  match s.place with
  | .look => { s with place := if keyboardHasInput s.devices.keyboard then .take else .leave }
  | .take =>
    let (keyboard, c) := keyboardGetchar s.devices.keyboard
    { s with place := .hold c, devices := { s.devices with keyboard := keyboard } }
  | .hold c =>
    match shellRespond returns s.console s.calls c with
    | some (console, calls) => { s with place := .look, console := console, calls := calls }
    | none => { s with place := .stuck c }
  | .leave => { s with place := .asleep }
  | .asleep => s
  | .stuck _ => s

/-- A hardware interrupt, once `scheduler_tick` has come back. It ends `hlt`. -/
def KernelMain.interrupt (s : KernelMain) (irq : Irq) : KernelMain :=
  { s with devices := (isrHandlerRest s.devices irq).1, place := s.place.wake }

/-- The state behind `console_init` and `shell_init`. -/
def kernelMainStart (devices : Devices) (console : Console) : KernelMain where
  place := .look
  devices := devices
  console := consoleInit console
  calls := [.prompt]

end ZynthexOS.Core
