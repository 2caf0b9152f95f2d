import ZynthexOS.RamfsCalls

/-! What ramfs does when `kmalloc` returns NULL. Neither allocation is checked:
creating clears a node through NULL, and writing makes NULL the buffer of the
file and raises its capacity. -/
namespace ZynthexOS.OutOfMemory
open Text Fs RamfsCalls

/-- The two calls that allocate. -/
inductive MemoryCall where
  | create (parent : UInt32) (name : CString) (flags : UInt32)
  | write (node offset size : UInt32) (buffer : Nat → UInt8)

/-- The call gets as far as `kmalloc`. -/
def AsksMemory (s : FileSystem) : MemoryCall → Prop
  | .create parent _ _ => parent ≠ 0 ∧ (s.nodes parent).children.length < 32
  | .write node offset size _ => node ≠ 0 ∧ Grows s node offset size

/-- The answer NULL. -/
def noMemory : Answer := ⟨0, fun _ => 0⟩

/-- The call when `kmalloc` answers NULL. -/
def MemoryCall.run (s : FileSystem) : MemoryCall → Except Fault (FileSystem × Int)
  | .create parent name flags => ramfsCreate s noMemory.address parent name flags
  | .write node offset size buffer => ramfsWrite s noMemory node offset size buffer

/-- The call returns -1, every node and every buffer is as before, and nothing went
through NULL. -/
def Harmless (s : FileSystem) (call : MemoryCall) : Prop :=
  ∃ s', call.run s = .ok (s', -1) ∧ s'.nodes = s.nodes ∧ s'.buffers = s.buffers

/-- `ramfs_create` clears its node through NULL. -/
theorem create_through_null (asked : AsksMemory s (.create parent name flags)) :
    MemoryCall.run s (.create parent name flags) = .error .null := by
  have notFull : ¬ (s.nodes parent).children.length ≥ 32 := Nat.not_le_of_lt asked.2
  simp [MemoryCall.run, ramfsCreate, noMemory, asked.1, notFull]

/-- `ramfs_write` that still returns has raised the capacity. -/
theorem write_raises_capacity (asked : AsksMemory s (.write node offset size buffer))
    (returned : MemoryCall.run s (.write node offset size buffer) = .ok (s', result)) :
    (s'.nodes node).capacity = offset + size := by
  obtain ⟨-, ⟨dir, -⟩ | ⟨-, t, grows, -, rfl, -⟩⟩ := ramfsWrite_returns.mp returned
  · exact absurd asked.2.1 dir
  · rw [if_pos asked.2] at grows
    rw [stored_node, grows.2, grown_node]

/-- No call that asks `kmalloc` for memory in vain is harmless. -/
theorem out_of_memory_harms (asked : AsksMemory s call) : ¬ Harmless s call := by
  rintro ⟨s', returned, nodes, -⟩
  cases call with
  | create parent name flags =>
    rw [create_through_null asked] at returned
    cases returned
  | write node offset size buffer =>
    have raised := write_raises_capacity asked returned
    have more := asked.2.2
    rw [nodes] at raised
    rw [raised] at more
    exact absurd more (UInt32.lt_irrefl _)

/-- A regular file at `0x100` with nothing in it. -/
def emptyFile : FileSystem :=
  ⟨fun _ => createdNode 0 (cstring "f") vfsFile, fun _ _ => 0, [], 0⟩

theorem emptyFile_asks : AsksMemory emptyFile (.write 0x100 0 1 fun _ => 65) :=
  ⟨by decide, by decide, by decide⟩

/-- One byte written to an empty file without memory. -/
theorem out_of_memory_harms_write : ¬ Harmless emptyFile (.write 0x100 0 1 fun _ => 65) :=
  out_of_memory_harms emptyFile_asks

/-- The byte is stored through NULL. -/
theorem write_goes_through_null : ¬ ∀ s call, AsksMemory s call → Harmless s call := by
  intro claim
  obtain ⟨s', returned, -⟩ := claim _ _ emptyFile_asks
  have through : MemoryCall.run emptyFile (.write 0x100 0 1 fun _ => 65) = .error .null := rfl
  rw [through] at returned
  cases returned

end ZynthexOS.OutOfMemory
