import ZynthexOS.Fs.Ramfs

/-! `fs/vfs/vfs.c` and `fs/vfs/path.c`. -/
namespace ZynthexOS.Fs
open Text

/-- `vfs_check_mount`. -/
def vfsCheckMount (s : FileSystem) (node : UInt32) : UInt32 :=
  ((s.mounts.find? fun mount => node = mount.1).map Prod.snd).getD node

/-- `current->ops->lookup(current, part)`. -/
def opsLookup (s : FileSystem) (current : UInt32) (part : CString) : Except Fault UInt32 :=
  if current = 0 then .error .null else ramfsLookup s current part

/-- `path_resolve`, 0 for NULL. -/
def pathResolve (s : FileSystem) (current : UInt32) (path : CString) : Except Fault UInt32 :=
  match _skipped : path.dropWhile (· = slash) with
  | [] => .ok current
  | c :: tail => do
    let part := (c :: tail).takeWhile (· ≠ slash)
    let rest := (c :: tail).dropWhile (· ≠ slash)
    storeBelow .part (part.length + 1)
    let found ← opsLookup s current part
    if found = 0 then .ok 0
    else pathResolve s (vfsCheckMount s found) rest
termination_by path.length
decreasing_by exact (skip_spec ‹_›).2

/-- `vfs_lookup`. -/
def vfsLookup (s : FileSystem) (path : CString) : Except Fault UInt32 :=
  if s.vfsRoot = 0 then .ok 0 else pathResolve s s.vfsRoot path

/-- `vfs_mount`. -/
def vfsMount (s : FileSystem) (path : CString) (fsRoot : UInt32) : Except Fault FileSystem := do
  let mp ← vfsLookup s path
  if mp = 0 then .error (.panic "Mount path not found")
  else
    storeBelow .mounts (s.mounts.length + 1)
    .ok { s with mounts := s.mounts ++ [(mp, fsRoot)] }

end ZynthexOS.Fs
