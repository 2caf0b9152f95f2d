import ZynthexOS.Fs.Vfs

/-! `fs/fd/fd.c`. -/
namespace ZynthexOS.Fs
open Text

/-- `MAX_FDS`. -/
def maxFds : Nat := 32

/-- `file_desc_t`. -/
structure FileDesc where
  used : Bool
  node : UInt32
  offset : UInt32
  deriving DecidableEq, Repr

/-- The file system and `fd_table`. -/
structure Files where
  fs : FileSystem
  fdTable : Nat → FileDesc

def Files.setDesc (s : Files) (i : Nat) (desc : FileDesc) : Files :=
  { s with fdTable := fun k => if k = i then desc else s.fdTable k }

/-- `fd_init`. -/
def fdInit (s : Files) : Files :=
  Lib.Scan.forRange (fun s i => s.setDesc i { s.fdTable i with used := false }) 0 maxFds s

/-- `fd_alloc`: the state and the descriptor, `none` being -1. -/
def fdAlloc (s : Files) : Files × Option Nat :=
  match (List.range maxFds).find? fun i => !(s.fdTable i).used with
  | some i => (s.setDesc i { s.fdTable i with used := true, offset := 0 }, some i)
  | none => (s, none)

/-- `sys_open`: the state and the result. -/
def sysOpen (s : Files) (path : CString) : Except Fault (Files × Int) := do
  let node ← vfsLookup s.fs path
  if node = 0 then .ok (s, -1)
  else
    match fdAlloc s with
    | (s, none) => .ok (s, -1)
    | (s, some fd) => .ok (s.setDesc fd { s.fdTable fd with node := node }, fd)

/-- `fd < 0 || fd >= MAX_FDS || !fd_table[fd].used`. -/
def badFd (s : Files) (fd : Int) : Bool :=
  fd < 0 || fd ≥ maxFds || !(s.fdTable fd.toNat).used

/-- `if (n > 0) desc->offset += n`. -/
def advance (s : Files) (fd : Nat) (n : Int) : Files :=
  let desc := s.fdTable fd
  if n > 0 then s.setDesc fd { desc with offset := desc.offset + UInt32.ofNat n.toNat } else s

/-- `sys_write`, where `kmalloc` answers `answer`: the state and the result. -/
def sysWrite (s : Files) (answer : Answer) (fd : Int) (buffer : Nat → UInt8) (size : UInt32) :
    Except Fault (Files × Int) := do
  if badFd s fd then .ok (s, -1)
  else
    let desc := s.fdTable fd.toNat
    let (fs, written) ← ramfsWrite s.fs answer desc.node desc.offset size buffer
    .ok (advance { s with fs := fs } fd.toNat written, written)

/-- `sys_read`: the state, the result and the bytes read. -/
def sysRead (s : Files) (fd : Int) (size : UInt32) : Except Fault (Files × Int × List UInt8) := do
  if badFd s fd then .ok (s, -1, [])
  else
    let desc := s.fdTable fd.toNat
    let (read, bytes) ← ramfsRead s.fs desc.node desc.offset size
    .ok (advance s fd.toNat read, read, bytes)

/-- `sys_close`. -/
def sysClose (s : Files) (fd : Int) : Files :=
  if fd ≥ 0 ∧ fd < maxFds then s.setDesc fd.toNat { s.fdTable fd.toNat with used := false } else s

/-- `sys_seek`: the state and the result. -/
def sysSeek (s : Files) (fd : Int) (offset : UInt32) : Files × Int :=
  if badFd s fd then (s, -1)
  else (s.setDesc fd.toNat { s.fdTable fd.toNat with offset := offset }, 0)

end ZynthexOS.Fs
