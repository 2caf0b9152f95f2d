import ZynthexOS.Shell.Shell

/-! `execute_command` of `shell/shell.c` and what it stores to its buffers and to those of
the commands: the copy of the line, the argument vector, and the buffers of
`cmd_echo`, `cmd_panic` and `cmd_rd`. The other commands have no such buffer; those not
modelled are a parameter. -/
namespace ZynthexOS.Shell
open Text Fs

/-- `MAX_ARGS`. -/
def maxArgs : Nat := 8

inductive Buffer where
  | localBuffer
  | argv
  | echoBuffer
  | panicBuffer
  | rdBuffer
  deriving DecidableEq, Repr

/-- How many entries a buffer has. -/
def Buffer.size : Buffer → Nat
  | .localBuffer => 256
  | .argv => maxArgs
  | .echoBuffer => 1024
  | .panicBuffer => 128
  | .rdBuffer => 256

/-- How a command ends that does not return: `debug_panic`, a fault of the file system,
or a store behind the end of a buffer. -/
inductive Halt where
  | panic (message : CString)
  | fault (fault : Fault)
  | overrun (buffer : Buffer) (index : Nat)
  deriving DecidableEq

/-- Stores to the `count` entries of a buffer from `first` on. -/
def storeRange (buffer : Buffer) (first count : Nat) : Except Halt Unit :=
  if first + count ≤ buffer.size then .ok () else .error (.overrun buffer (max first buffer.size))

/-- `strcpy` into a buffer, with the NUL. -/
def strcpy (buffer : Buffer) (src : CString) : Except Halt CString := do
  storeRange buffer 0 (strlen src + 1)
  .ok src

/-- `strcat` behind the string that a buffer holds. -/
def strcat (buffer : Buffer) (dest src : CString) : Except Halt CString := do
  storeRange buffer (strlen dest) (strlen src + 1)
  .ok (dest ++ src)

/-- The loop of `parse_arguments` while `n` more entries of `argv` are free, with the rest
of the line at `index` of its buffer. -/
def parseLoop : Nat → Nat → CString → Except Halt (List CString)
  | 0, _, _ => .ok []
  | n + 1, index, input => do
    let word := input.dropWhile (· = space)
    let index := index + (strlen input - strlen word)
    if word = [] then .ok []
    else
      storeRange .argv (maxArgs - (n + 1)) 1
      let rest := word.dropWhile (· ≠ space)
      let index := index + (strlen word - strlen rest)
      -- the NUL behind the argument
      if rest ≠ [] then storeRange .localBuffer index 1
      let arguments ← parseLoop n (index + 1) rest.tail
      .ok (word.takeWhile (· ≠ space) :: arguments)

/-- `parse_arguments`: `argv[0]`, `argv[1]`, …. -/
def parseArguments (input : CString) : Except Halt (List CString) := parseLoop maxArgs 0 input

/-- The loop of `cmd_echo` and `cmd_panic` from `argv[i]` on. -/
def appendArguments (buffer : Buffer) : Nat → CString → List CString → Except Halt CString
  | _, dest, [] => .ok dest
  | i, dest, argument :: rest => do
    let dest ← if i > 1 then strcat buffer dest [space] else .ok dest
    let dest ← strcat buffer dest argument
    appendArguments buffer (i + 1) dest rest

/-- `buffer[0] = '\0'` and that loop. -/
def joinArguments (buffer : Buffer) (argv : List CString) : Except Halt CString := do
  storeRange buffer 0 1
  appendArguments buffer 1 [] argv.tail

/-- `cmd_echo`. -/
def cmdEcho (s : ShellState) (argv : List CString) : Except Halt ShellState := do
  let buffer ← joinArguments .echoBuffer argv
  .ok ({ s with screen := s.screen ++ [buffer] }.print "\n")

/-- `cmd_panic`. -/
def cmdPanic (argv : List CString) : Except Halt ShellState := do
  if argv.length < 2 then .error (.panic (cstring "Manual panic triggered"))
  else
    let buffer ← joinArguments .panicBuffer argv
    .error (.panic buffer)

/-- A call of the file system. -/
def callFs (x : Except Fault α) : Except Halt α := x.mapError .fault

/-- `cmd_rd` with the stores to its buffer. -/
def cmdRdBuffered (s : ShellState) : List CString → Except Halt ShellState
  | _ :: path :: _ => do
    let (files, fd) ← callFs (sysOpen s.files path)
    if fd < 0 then .ok ({ s with files := files }.print "File not found\n")
    else
      storeRange .rdBuffer 0 256
      let (files, _) := sysSeek files fd 0
      let (files, read, buffer) ← callFs (sysRead files fd 255)
      storeRange .rdBuffer 0 buffer.length
      let shown := if read > 0 then [bufferString buffer] else []
      .ok ({ s with files := sysClose files fd, screen := s.screen ++ shown }.print "\n")
  | _ => .ok (s.print "Usage: rd <file>\n")

/-- The handlers in `commands`. -/
inductive Handler where
  | panic
  | echo
  | mk
  | rd
  | write
  | ls
  | cd
  | other (name : String)
  deriving DecidableEq, Repr

/-- `commands`. -/
def commands : List (String × Handler) :=
  [("help", .other "help"), ("panic", .panic), ("dmesg", .other "dmesg"), ("doom", .other "doom"),
    ("state", .other "state"), ("uptime", .other "uptime"), ("cpuid", .other "cpuid"),
    ("meminfo", .other "meminfo"), ("memsummary", .other "memsummary"),
    ("heapinfo", .other "heapinfo"), ("heapcheck", .other "heapcheck"), ("alloc", .other "alloc"),
    ("free", .other "free"), ("freelast", .other "freelast"), ("memdump", .other "memdump"),
    ("heapval", .other "heapval"), ("sysfetch", .other "sysfetch"), ("shutdown", .other "shutdown"),
    ("reboot", .other "reboot"), ("clear", .other "clear"), ("echo", .echo), ("calc", .other "calc"),
    ("asciitoint", .other "asciitoint"), ("inttoascii", .other "inttoascii"), ("mk", .mk),
    ("mkr", .other "mkr"), ("rd", .rd), ("write", .write), ("fsseed", .other "fsseed"), ("ls", .ls),
    ("cd", .cd), ("cur", .other "cur"), ("mouse", .other "mouse")]

/-- What `kmalloc` answers to the commands that allocate, and what the commands that are
not modelled do. -/
structure Environment where
  answers : Nat → Answer
  answer : UInt32
  others : String → List CString → ShellState → ShellState

def runHandler (env : Environment) (s : ShellState) (argv : List CString) :
    Handler → Except Halt ShellState
  | .panic => cmdPanic argv
  | .echo => cmdEcho s argv
  | .mk => callFs (cmdMk s env.answer argv)
  | .rd => cmdRdBuffered s argv
  | .write => callFs (cmdWrite s env.answers argv)
  | .ls => callFs (cmdLs s argv)
  | .cd => callFs (cmdCd s argv)
  | .other name => .ok (env.others name argv s)

/-- `execute_command`. -/
def executeCommand (env : Environment) (s : ShellState) (input : CString) : Except Halt ShellState := do
  let localBuffer ← strcpy .localBuffer input
  let argv ← parseArguments localBuffer
  match argv with
  | [] => .ok s
  | name :: _ =>
    match commands.find? fun command => strcmp name (cstring command.1) = 0 with
    | some (_, handler) => runHandler env s argv handler
    | none => .ok (s.print "Unknown command\n")

end ZynthexOS.Shell
