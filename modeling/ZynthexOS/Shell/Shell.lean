import ZynthexOS.Fs.Fd

/-! The file commands of `shell/shell.c`. A command gets its arguments as
`argv[0], argv[1], …` and leaves what it prints on the screen. -/
namespace ZynthexOS.Shell
open Text Fs

/-- The files, `cwd`, and what was given to `vga_print`. -/
structure ShellState where
  files : Files
  cwd : UInt32
  screen : List CString

def ShellState.print (s : ShellState) (text : String) : ShellState :=
  { s with screen := s.screen ++ [cstring text] }

/-- The string that starts a buffer. -/
def bufferString : List UInt8 → CString
  | [] => []
  | c :: buffer => if nonzero : c ≠ 0 then ⟨c, nonzero⟩ :: bufferString buffer else []

/-- The bytes of a string and of what follows its NUL. -/
def stringBytes (s : CString) (i : Nat) : UInt8 := (s[i]?.map Subtype.val).getD 0

/-- How `cmd_cd` and `cmd_ls` come from `argv[1]` to a node. -/
def shellTarget (s : ShellState) (path : CString) : Except Fault UInt32 :=
  if path.head? = some slash then vfsLookup s.files.fs path else pathResolve s.files.fs s.cwd path

/-- `cmd_cd`. -/
def cmdCd (s : ShellState) : List CString → Except Fault ShellState
  | _ :: path :: _ => do
    let target ← shellTarget s path
    if target = 0 then .ok (s.print "Path not found\n")
    else if (s.files.fs.nodes target).flags &&& vfsDir = 0 then .ok (s.print "Not a directory\n")
    else .ok { s with cwd := target }
  | _ => .ok { s with cwd := s.files.fs.vfsRoot }

/-- `ramfs_list`. -/
def ramfsList (s : ShellState) (node : UInt32) : ShellState :=
  { s with screen := s.screen ++
      (s.files.fs.nodes node).children.flatMap fun child =>
        [(s.files.fs.nodes child).name, cstring "\n"] }

/-- `cmd_ls`. -/
def cmdLs (s : ShellState) (argv : List CString) : Except Fault ShellState := do
  let dir ←
    match argv with
    | _ :: path :: _ => shellTarget s path
    | _ => .ok s.cwd
  if dir = 0 then .ok (s.print "Path not found\n")
  else if (s.files.fs.nodes dir).flags &&& vfsDir = 0 then .ok (s.print "Not a directory\n")
  else .ok (ramfsList s dir)

/-- The loop of `cmd_write` from its `i`-th write on, where `kmalloc` answers
`answers i`: the arguments with a blank between them. -/
def writeArguments (answers : Nat → Answer) (fd : Int) :
    Nat → List CString → Files → Except Fault Files
  | _, [], s => .ok s
  | i, [argument], s => do
    let (s, _) ← sysWrite s (answers i) fd (stringBytes argument) (.ofNat (strlen argument))
    .ok s
  | i, argument :: rest, s => do
    let (s, _) ← sysWrite s (answers i) fd (stringBytes argument) (.ofNat (strlen argument))
    let (s, _) ← sysWrite s (answers (i + 1)) fd (stringBytes [space]) 1
    writeArguments answers fd (i + 2) rest s

/-- `cmd_write`. -/
def cmdWrite (s : ShellState) (answers : Nat → Answer) : List CString → Except Fault ShellState
  | _ :: path :: text :: rest => do
    let (files, fd) ← sysOpen s.files path
    if fd < 0 then .ok ({ s with files := files }.print "File not found\n")
    else
      let (files, _) := sysSeek files fd 0
      let files ← writeArguments answers fd 0 (text :: rest) files
      .ok ({ s with files := sysClose files fd }.print "Written.\n")
  | _ => .ok (s.print "Usage: write <file> <text>\n")

/-- `cmd_rd`. -/
def cmdRd (s : ShellState) : List CString → Except Fault ShellState
  | _ :: path :: _ => do
    let (files, fd) ← sysOpen s.files path
    if fd < 0 then .ok ({ s with files := files }.print "File not found\n")
    else
      let (files, _) := sysSeek files fd 0
      let (files, read, buffer) ← sysRead files fd 255
      let shown := if read > 0 then [bufferString buffer] else []
      .ok ({ s with files := sysClose files fd, screen := s.screen ++ shown }.print "\n")
  | _ => .ok (s.print "Usage: rd <file>\n")

/-- `cmd_mk`, where `kmalloc` answers `answer`. -/
def cmdMk (s : ShellState) (answer : UInt32) : List CString → Except Fault ShellState
  | _ :: path :: _ =>
    if s.cwd = 0 then .ok (s.print "No working directory\n")
    else do
      let (fs, result) ← ramfsCreate s.files.fs answer s.cwd path vfsFile
      let s := { s with files := { s.files with fs := fs } }
      .ok (s.print (if result ≠ 0 then "Failed to create file\n" else "File created\n"))
  | _ => .ok (s.print "Usage: mk <file>\n")

/-- `cmd_mkr`, where `kmalloc` answers `answer`. -/
def cmdMkr (s : ShellState) (answer : UInt32) : List CString → Except Fault ShellState
  | _ :: path :: _ => do
    let tmp ← vfsLookup s.files.fs (cstring "/tmp")
    if tmp = 0 then .ok (s.print "/tmp not found\n")
    else if (s.files.fs.nodes tmp).flags &&& vfsDir = 0 then .ok (s.print "/tmp is not a directory\n")
    else
      let (fs, result) ← ramfsCreate s.files.fs answer tmp path vfsFile
      let s := { s with files := { s.files with fs := fs } }
      .ok (s.print (if result ≠ 0 then "Failed to create file\n" else "RAM file created\n"))
  | _ => .ok (s.print "Usage: mkr <file>\n")

/-- A command with its arguments and what `kmalloc` answers. -/
inductive Command where
  | cd (argv : List CString)
  | ls (argv : List CString)
  | write (answers : Nat → Answer) (argv : List CString)
  | rd (argv : List CString)
  | mk (answer : UInt32) (argv : List CString)

def runCommand (s : ShellState) : Command → Except Fault ShellState
  | .cd argv => cmdCd s argv
  | .ls argv => cmdLs s argv
  | .write answers argv => cmdWrite s answers argv
  | .rd argv => cmdRd s argv
  | .mk answer argv => cmdMk s answer argv

end ZynthexOS.Shell
