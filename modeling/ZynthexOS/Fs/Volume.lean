import ZynthexOS.HeapRuns
import ZynthexOS.Fs.Vfs

/-! `fs/ramfs/ramfs.c` on the heap: `kmalloc` is called and the bytes of files lie in the memory
behind the pointers it returns. The fields of nodes are kept by address, as in `Fs.Ramfs`. -/
namespace ZynthexOS.Fs
open Lib.Memory Lib.Scan Text Mm HeapRuns

/-- The heap, the nodes by their address, `mounts` and `vfs_root`. -/
structure Volume where
  heap : HeapState
  nodes : UInt32 → RamfsNode
  mounts : List (UInt32 × UInt32)
  vfsRoot : UInt32

/-- The file system that reads its buffers from memory. -/
def Volume.files (v : Volume) : FileSystem :=
  ⟨v.nodes, fun data k => v.heap.mem (data.toNat + k), v.mounts, v.vfsRoot⟩

/-- The volume after a call that changes no buffer. -/
def Volume.setFiles (v : Volume) (s : FileSystem) : Volume := ⟨v.heap, s.nodes, s.mounts, s.vfsRoot⟩

def Volume.setHeap (v : Volume) (heap : HeapState) : Volume := { v with heap := heap }

def Volume.setMem (v : Volume) (m : Mem) : Volume := v.setHeap { v.heap with mem := m }

def Volume.setNode (v : Volume) (a : UInt32) (node : RamfsNode) : Volume :=
  { v with nodes := fun b => if b = a then node else v.nodes b }

/-- `sizeof(ramfs_node_t)`: the name, five words of `vfs_node_t`, three words for the data, the
children and their number. -/
def nodeSize : UInt32 := 64 + 5 * 4 + 3 * 4 + 32 * 4 + 4

/-- `kmalloc(size)`: the heap after it and the pointer. -/
def allocate (fuel : Nat) (heap : HeapState) (size : UInt32) : Option (HeapState × UInt32) :=
  let o := (kmalloc fuel heap.vars size.toNat).run heap.mem
  o.result.map fun (vars, ptr) =>
    (⟨vars, o.mem, if ptr = 0 then heap.live else (ptr, size.toNat) :: heap.live⟩, .ofNat ptr)

/-- `memcpy(dest, src, n)` from one place in memory to another. -/
def copyWithin (m : Mem) (dest src n : Nat) : Mem :=
  forRange (fun m i x => if x = dest + i then m (src + i) else m x) 0 n m

/-- `ramfs_create_instance`: the volume and the root. -/
def createInstanceOn (fuel : Nat) (v : Volume) : Option (Except Fault (Volume × UInt32)) :=
  (allocate fuel v.heap nodeSize).map fun (heap, root) => do
    let v := v.setHeap heap
    let (s, root) ← ramfsCreateInstance v.files root
    .ok (v.setFiles s, root)

/-- `ramfs_create`: the volume, the child (0 if none was made) and the result. -/
def ramfsCreateOn (fuel : Nat) (v : Volume) (parent : UInt32) (name : CString) (flags : UInt32) :
    Option (Except Fault (Volume × UInt32 × Int)) :=
  if parent = 0 then some (.error (.panic "Create: NULL parent"))
  else if (v.nodes parent).children.length ≥ 32 then some (.ok (v, 0, -1))
  else (allocate fuel v.heap nodeSize).map fun (heap, child) => do
    let v := v.setHeap heap
    let (s, result) ← ramfsCreate v.files child parent name flags
    .ok (v.setFiles s, child, result)

/-- The buffer that `ramfs_write` grows to `newCapacity` bytes. -/
def growOn (fuel : Nat) (v : Volume) (node newCapacity : UInt32) : Option (Except Fault Volume) :=
  (allocate fuel v.heap newCapacity).map fun (heap, newData) => do
    let rnode := v.nodes node
    let v := v.setHeap heap
    let newNode := { rnode with data := newData, capacity := newCapacity }
    if rnode.data ≠ 0 then
      touch rnode.data 0 rnode.size.toNat rnode.capacity.toNat
      touch newData 0 rnode.size.toNat newCapacity.toNat
      .ok ((v.setMem (copyWithin v.heap.mem newData.toNat rnode.data.toNat rnode.size.toNat)).setNode
        node newNode)
    else .ok (v.setNode node newNode)

/-- The rest of `ramfs_write`, once the buffer is large enough. -/
def storeOn (v : Volume) (node offset size : UInt32) (buffer : Nat → UInt8) :
    Except Fault (Volume × Int) := do
  let rnode := v.nodes node
  touch rnode.data offset.toNat size.toNat rnode.capacity.toNat
  let v := v.setMem (memcpy v.heap.mem (rnode.data.toNat + offset.toNat) buffer size.toNat)
  let v :=
    if offset + size > rnode.size then v.setNode node { rnode with size := offset + size } else v
  .ok (v, asInt size)

/-- `ramfs_write`: the volume and the result. -/
def ramfsWriteOn (fuel : Nat) (v : Volume) (node offset size : UInt32) (buffer : Nat → UInt8) :
    Option (Except Fault (Volume × Int)) :=
  if node = 0 then some (.error (.panic "Write: fs_private NULL"))
  else if (v.nodes node).flags &&& vfsDir ≠ 0 then some (.ok (v, -1))
  else if offset + size > (v.nodes node).capacity then
    (growOn fuel v node (offset + size)).map fun grown => do storeOn (← grown) node offset size buffer
  else some (storeOn v node offset size buffer)

end ZynthexOS.Fs
