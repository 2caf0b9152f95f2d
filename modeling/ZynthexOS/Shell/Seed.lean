import ZynthexOS.Shell.Shell

/-! `cmd_fsseed` of `shell/shell.c`. -/
namespace ZynthexOS.Shell
open Text Fs

/-- What `kmalloc` answers for the nodes and for the data of the two files. -/
structure SeedAnswers where
  about : UInt32
  aboutData : Answer
  hello : UInt32
  helloData : Answer

def ShellState.withFs (s : ShellState) (fs : FileSystem) : ShellState :=
  { s with files := { s.files with fs := fs } }

def aboutPath : CString := cstring "/about.txt"

def aboutText : CString := cstring "zynthexos: minimal RAMFS seed\nThis is a demo file.\n"

def helloPath : CString := cstring "/tmp/hello.txt"

def helloText : CString := cstring "hello from /tmp on zynthexos\n"

/-- `write(node, 0, strlen(text), text)` and the message. -/
def seedText (s : ShellState) (answer : Answer) (node : UInt32) (text : CString) (message : String) :
    Except Fault ShellState := do
  let (fs, _) ← ramfsWrite s.files.fs answer node 0 (.ofNat (strlen text)) (stringBytes text)
  .ok ((s.withFs fs).print message)

/-- `about`: the file found or created, 0 for NULL. -/
def findAbout (fs : FileSystem) (answer : UInt32) : Except Fault (FileSystem × UInt32) := do
  let about ← vfsLookup fs aboutPath
  if about ≠ 0 then .ok (fs, about)
  else if fs.vfsRoot = 0 then .ok (fs, 0)
  else
    let (fs, result) ← ramfsCreate fs answer fs.vfsRoot (cstring "about.txt") vfsFile
    if result = 0 then
      let about ← vfsLookup fs aboutPath
      .ok (fs, about)
    else .ok (fs, 0)

/-- The half of `cmd_fsseed` for the root. -/
def seedAbout (s : ShellState) (answers : SeedAnswers) : Except Fault ShellState := do
  let (fs, about) ← findAbout s.files.fs answers.about
  let s := s.withFs fs
  if about ≠ 0 then seedText s answers.aboutData about aboutText "Seeded /about.txt\n"
  else .ok (s.print "Failed to seed /about.txt\n")

/-- The half of `cmd_fsseed` for `/tmp`. -/
def seedHello (s : ShellState) (answers : SeedAnswers) : Except Fault ShellState := do
  let tmp ← vfsLookup s.files.fs (cstring "/tmp")
  if tmp ≠ 0 ∧ (s.files.fs.nodes tmp).flags &&& vfsDir ≠ 0 then
    let (fs, result) ← ramfsCreate s.files.fs answers.hello tmp (cstring "hello.txt") vfsFile
    let s := s.withFs fs
    if result = 0 then
      let hello ← vfsLookup s.files.fs helloPath
      if hello ≠ 0 then seedText s answers.helloData hello helloText "Seeded /tmp/hello.txt\n"
      else .ok s
    else .ok (s.print "Failed to seed /tmp/hello.txt\n")
  else .ok (s.print "Failed to seed /tmp/hello.txt\n")

/-- `cmd_fsseed`. -/
def cmdFsseed (s : ShellState) (answers : SeedAnswers) : Except Fault ShellState := do
  let s ← seedAbout s answers
  seedHello s answers

end ZynthexOS.Shell
