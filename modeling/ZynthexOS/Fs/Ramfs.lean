import ZynthexOS.Fs.Fault
import ZynthexOS.Lib.Scan
import ZynthexOS.Text.Strings

/-! `fs/ramfs/ramfs.c`. A node is one block that holds its `vfs_node_t` and its
`ramfs_node_t`; nodes and data buffers are kept by the address that `kmalloc`
answered. `ops` and `fs_private` have no counterpart: every node has the table of
`ramfs.c` and points to itself. -/
namespace ZynthexOS.Fs
open Lib.Scan Text

/-- `VFS_FILE` and `VFS_DIR`. -/
def vfsFile : UInt32 := 0x1

def vfsDir : UInt32 := 0x2

/-- The fields of a node; `children` are the first `child_count` entries. -/
structure RamfsNode where
  name : CString
  flags : UInt32
  parent : UInt32
  data : UInt32
  size : UInt32
  capacity : UInt32
  children : List UInt32

/-- `memset(node, 0, sizeof(ramfs_node_t))`. -/
def clearedNode : RamfsNode := ⟨[], 0, 0, 0, 0, 0, []⟩

/-- The nodes and the buffers by their address, `mounts` and `vfs_root`. -/
structure FileSystem where
  nodes : UInt32 → RamfsNode
  buffers : UInt32 → Nat → UInt8
  mounts : List (UInt32 × UInt32)
  vfsRoot : UInt32

/-- What `kmalloc` answers: an address, and the bytes that are there. -/
structure Answer where
  address : UInt32
  bytes : Nat → UInt8

def FileSystem.setNode (s : FileSystem) (a : UInt32) (node : RamfsNode) : FileSystem :=
  { s with nodes := fun b => if b = a then node else s.nodes b }

def FileSystem.setBuffer (s : FileSystem) (a : UInt32) (bytes : Nat → UInt8) : FileSystem :=
  { s with buffers := fun b => if b = a then bytes else s.buffers b }

/-- `memcpy(dest + start, src, n)`. -/
def memcpy (dest : Nat → UInt8) (start : Nat) (src : Nat → UInt8) (n : Nat) : Nat → UInt8 :=
  forRange (fun bytes i k => if k = start + i then src i else bytes k) 0 n dest

/-- An unsigned result returned as an `int`. -/
def asInt (v : UInt32) : Int := v.toInt32.toInt

/-- The bytes of a buffer of `capacity` bytes that a copy touches. -/
def touch (data : UInt32) (offset count capacity : Nat) : Except Fault Unit :=
  if count = 0 then .ok ()
  else if data = 0 then .error .null
  else if capacity < offset + count then .error (.outside data capacity)
  else .ok ()

/-- `ramfs_lookup`, 0 for NULL. -/
def ramfsLookup (s : FileSystem) (node : UInt32) (name : CString) : Except Fault UInt32 :=
  if node = 0 then .error (.panic "Lookup: NULL node")
  else .ok (((s.nodes node).children.find? fun child => strcmp (s.nodes child).name name = 0).getD 0)

/-- The node that `ramfs_create` fills in. -/
def createdNode (parent : UInt32) (name : CString) (flags : UInt32) : RamfsNode :=
  { clearedNode with name := name, flags := flags, parent := parent }

/-- `pnode->children[pnode->child_count++] = child`. -/
def appendChild (s : FileSystem) (parent child : UInt32) : Except Fault FileSystem := do
  let pnode := s.nodes parent
  storeBelow .children (pnode.children.length + 1)
  .ok (s.setNode parent { pnode with children := pnode.children ++ [child] })

/-- `ramfs_create`, where `kmalloc` answers `child`: the state and the result. -/
def ramfsCreate (s : FileSystem) (child : UInt32) (parent : UInt32) (name : CString)
    (flags : UInt32) : Except Fault (FileSystem × Int) := do
  if parent = 0 then .error (.panic "Create: NULL parent")
  else if (s.nodes parent).children.length ≥ 32 then .ok (s, -1)
  else if child = 0 then .error .null
  else
    storeBelow .name (strlen name + 1)
    let s ← appendChild (s.setNode child (createdNode parent name flags)) parent child
    .ok (s, 0)

/-- `kmalloc` hands out a block. -/
def FileSystem.install (s : FileSystem) (answer : Answer) : FileSystem :=
  if answer.address = 0 then s else s.setBuffer answer.address answer.bytes

/-- `memcpy(new_data, data, size)`. -/
def FileSystem.copyBuffer (s : FileSystem) (newData data : UInt32) (size : Nat) : FileSystem :=
  s.setBuffer newData (memcpy (s.buffers newData) 0 (s.buffers data) size)

/-- The buffer that `ramfs_write` grows to `newCapacity` bytes. -/
def growBuffer (s : FileSystem) (answer : Answer) (node newCapacity : UInt32) :
    Except Fault FileSystem := do
  let rnode := s.nodes node
  let s := s.install answer
  let newNode := { rnode with data := answer.address, capacity := newCapacity }
  if rnode.data ≠ 0 then
    touch rnode.data 0 rnode.size.toNat rnode.capacity.toNat
    touch answer.address 0 rnode.size.toNat newCapacity.toNat
    .ok ((s.copyBuffer answer.address rnode.data rnode.size.toNat).setNode node newNode)
  else .ok (s.setNode node newNode)

/-- `ramfs_write`, where `kmalloc` answers `answer`: the state and the result. -/
def ramfsWrite (s : FileSystem) (answer : Answer) (node offset size : UInt32)
    (buffer : Nat → UInt8) : Except Fault (FileSystem × Int) := do
  if node = 0 then .error (.panic "Write: fs_private NULL")
  else if (s.nodes node).flags &&& vfsDir ≠ 0 then .ok (s, -1)
  else
    let s ←
      if offset + size > (s.nodes node).capacity then growBuffer s answer node (offset + size)
      else .ok s
    let rnode := s.nodes node
    touch rnode.data offset.toNat size.toNat rnode.capacity.toNat
    let s := s.setBuffer rnode.data
      (memcpy (s.buffers rnode.data) offset.toNat buffer size.toNat)
    let s :=
      if offset + size > rnode.size then s.setNode node { rnode with size := offset + size } else s
    .ok (s, asInt size)

/-- `ramfs_read`: the result and the bytes copied to the buffer. -/
def ramfsRead (s : FileSystem) (node offset size : UInt32) : Except Fault (Int × List UInt8) := do
  let rnode := s.nodes node
  if offset ≥ rnode.size then .ok (0, [])
  else
    let size := if offset + size > rnode.size then rnode.size - offset else size
    touch rnode.data offset.toNat size.toNat rnode.capacity.toNat
    .ok (asInt size, (List.range size.toNat).map fun i => s.buffers rnode.data (offset.toNat + i))

/-- `ramfs_create_instance`, where `kmalloc` answers `root`: the state and the
root. -/
def ramfsCreateInstance (s : FileSystem) (root : UInt32) : Except Fault (FileSystem × UInt32) :=
  if root = 0 then .error .null
  else .ok (s.setNode root { clearedNode with name := cstring "/", flags := vfsDir }, root)

end ZynthexOS.Fs
