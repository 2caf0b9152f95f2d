import ZynthexOS.RamfsFile

/-! The copies of `ramfs_write` and `ramfs_read` against the buffer of the file.
Every check compares the 32-bit sum of offset and size, so a range that ends behind
`2^32 - 1` passes for one near the start of the file, while the copy takes the size
as it is and leaves the buffer. -/
namespace ZynthexOS.RamfsBounds
open Lib Fs RamfsCalls RamfsFile

/-- The length of the buffer behind a write: what `kmalloc` was asked for, if it
was. -/
def bufferLength (s : FileSystem) (node offset size : UInt32) (length : Nat) : Nat :=
  if Grows s node offset size then (offset + size).toNat else length

/-- The size is at most the capacity, which is the length of the buffer. -/
structure WithinBuffer (s : FileSystem) (node : UInt32) (length : Nat) : Prop where
  size : (s.nodes node).size ≤ (s.nodes node).capacity
  capacity : (s.nodes node).capacity.toNat = length

/-- Every call returns, whatever fresh block `kmalloc` hands out: a write stores each
byte below the capacity, a read copies each byte from below the size, and the node
stays within its buffer. -/
def StaysInside (node : UInt32) (s : FileSystem) (length : Nat) : List FileCall → Prop
  | [] => WithinBuffer s node length
  | .write offset size buffer :: calls => WithinBuffer s node length ∧
    ∀ answer : Answer, answer.address ≠ 0 → answer.address ≠ (s.nodes node).data →
      ∃ s' result, ramfsWrite s answer node offset size buffer = .ok (s', result) ∧
        (∀ i < size.toNat, offset.toNat + i < (s'.nodes node).capacity.toNat) ∧
        StaysInside node s' (bufferLength s node offset size length) calls
  | .read offset size :: calls => WithinBuffer s node length ∧
    (∃ result bytes, ramfsRead s node offset size = .ok (result, bytes) ∧
      ∀ i < bytes.length, offset.toNat + i < (s.nodes node).size.toNat) ∧
    StaysInside node s length calls

/-- No write ends behind `2^32 - 1`, nor does a read that starts inside the file,
whose size is the furthest end of a write so far. -/
def EndsKept (fileSize : Nat) : List FileCall → Prop
  | [] => True
  | .write offset size _ :: calls => offset.toNat + size.toNat ≤ 2 ^ 32 - 1 ∧
    EndsKept (max fileSize (offset.toNat + size.toNat)) calls
  | .read offset size :: calls =>
    (fileSize ≤ offset.toNat ∨ offset.toNat + size.toNat ≤ 2 ^ 32 - 1) ∧ EndsKept fileSize calls

/-- A write to a file that returns ends at `2^32 - 1` at most. -/
theorem write_ends (regular : (s.nodes node).flags &&& vfsDir = 0)
    (returned : ramfsWrite s answer node offset size buffer = .ok (s', result)) :
    offset.toNat + size.toNat ≤ 2 ^ 32 - 1 := by
  obtain ⟨-, ⟨dir, -⟩ | ⟨-, t, -, inside, -⟩⟩ := ramfsWrite_returns.mp returned
  · exact absurd regular dir
  · have low := offset.toNat_lt
    have high := (t.nodes node).capacity.toNat_lt
    rcases touch_ok.mp inside with none | ⟨-, room⟩ <;> omega

/-- A read that starts behind the end of the file copies nothing. -/
theorem read_behind (behind : (s.nodes node).size ≤ offset) :
    ramfsRead s node offset size = .ok (0, []) :=
  if_pos behind

/-- A read from inside the file that returns ends at `2^32 - 1` at most. -/
theorem read_ends (inside : ¬ (s.nodes node).size ≤ offset)
    (returned : ramfsRead s node offset size = .ok (result, bytes)) :
    offset.toNat + size.toNat ≤ 2 ^ 32 - 1 := by
  by_contra past
  have before : offset.toNat < (s.nodes node).size.toNat := Nat.lt_of_not_le inside
  have low := offset.toNat_lt
  have small := size.toNat_lt
  have high := (s.nodes node).capacity.toNat_lt
  -- the sum wraps below the offset, so the size is not cut
  have whole : ¬ offset + size > (s.nodes node).size := by
    intro more
    have wrapped : (s.nodes node).size.toNat < (offset + size).toNat := more
    rw [UInt32.toNat_add] at wrapped
    omega
  have outside : touch (s.nodes node).data offset.toNat size.toNat
      (s.nodes node).capacity.toNat ≠ .ok () := by
    intro room
    rcases touch_ok.mp room with none | ⟨-, room⟩ <;> omega
  unfold ramfsRead at returned
  dsimp only at returned
  rw [if_neg inside, if_neg whole] at returned
  cases copied : touch (s.nodes node).data offset.toNat size.toNat
      (s.nodes node).capacity.toNat with
  | ok _ => exact outside copied
  | error fault =>
    rw [copied] at returned
    cases returned

/-- A file whose buffer has its capacity. -/
structure Buffered (s : FileSystem) (node : UInt32) (f : ByteFile UInt8) (length : Nat) : Prop where
  holds : ∃ fill, Holds s node f fill
  capacity : (s.nodes node).capacity.toNat = length

theorem Buffered.within (file : Buffered s node f length) : WithinBuffer s node length := by
  obtain ⟨⟨fill, holds⟩, capacity⟩ := file
  exact ⟨holds.capacity ▸ Nat.le_refl _, capacity⟩

/-- A write that does not end behind `2^32 - 1` stores its bytes in the buffer. -/
theorem buffered_write (file : Buffered s node f length)
    (inside : offset.toNat + size.toNat ≤ 2 ^ 32 - 1) (real : answer.address ≠ 0)
    (fresh : answer.address ≠ (s.nodes node).data) (buffer : Nat → UInt8) :
    ∃ s', ramfsWrite s answer node offset size buffer = .ok (s', asInt size) ∧
      (∀ i < size.toNat, offset.toNat + i < (s'.nodes node).capacity.toNat) ∧
      Buffered s' node (f.write offset.toNat size.toNat buffer)
        (bufferLength s node offset size length) := by
  obtain ⟨⟨fill, holds⟩, capacity⟩ := file
  obtain ⟨s', done, holds'⟩ := holds_write holds inside real fresh buffer
  have newSize : (f.write offset.toNat size.toNat buffer).size =
      max f.size (offset.toNat + size.toNat) := rfl
  have old : length = f.size := by rw [← capacity, holds.capacity, holds.size]
  have new : (s'.nodes node).capacity.toNat = max f.size (offset.toNat + size.toNat) := by
    rw [holds'.capacity, holds'.size, newSize]
  refine ⟨s', done, fun i small => ?_, ⟨_, holds'⟩, ?_⟩
  · rw [new]
    omega
  · rw [new, bufferLength]
    have grows := grows_iff holds inside
    split_ifs with more
    · rw [toNat_end inside]
      have longer := grows.mp more
      omega
    · have shorter := mt grows.mpr more
      omega

/-- A read that starts behind the end or ends at `2^32 - 1` at most copies bytes of
the file. -/
theorem buffered_read (file : Buffered s node f length)
    (kept : f.size ≤ offset.toNat ∨ offset.toNat + size.toNat ≤ 2 ^ 32 - 1) :
    ∃ result bytes, ramfsRead s node offset size = .ok (result, bytes) ∧
      ∀ i < bytes.length, offset.toNat + i < (s.nodes node).size.toNat := by
  obtain ⟨⟨fill, holds⟩, -⟩ := file
  rcases kept with behind | inside
  · have past : (s.nodes node).size.toNat ≤ offset.toNat := holds.size.symm ▸ behind
    exact ⟨0, [], read_behind past, by simp⟩
  · refine ⟨_, _, holds_read holds inside, fun i below => ?_⟩
    rw [ByteFile.length_read, ByteFile.available] at below
    rw [holds.size]
    omega

theorem staysInside_of_kept (file : Buffered s node f length) (kept : EndsKept f.size calls) :
    StaysInside node s length calls := by
  induction calls generalizing s f length with
  | nil => exact file.within
  | cons call calls ih =>
    cases call with
    | write offset size buffer =>
      obtain ⟨inside, kept⟩ := kept
      refine ⟨file.within, fun answer real fresh => ?_⟩
      obtain ⟨s', done, stored, file'⟩ := buffered_write file inside real fresh buffer
      exact ⟨s', asInt size, done, stored, ih file' kept⟩
    | read offset size =>
      obtain ⟨inside, kept⟩ := kept
      exact ⟨file.within, buffered_read file inside, ih file kept⟩

theorem kept_of_staysInside (file : Buffered s node f length)
    (stays : StaysInside node s length calls) : EndsKept f.size calls := by
  induction calls generalizing s f length with
  | nil => trivial
  | cons call calls ih =>
    obtain ⟨fill, holds⟩ := file.holds
    cases call with
    | write offset size buffer =>
      obtain ⟨answer, real, fresh⟩ : ∃ answer : Answer, answer.address ≠ 0 ∧
          answer.address ≠ (s.nodes node).data := by
        obtain ⟨address, real, fresh⟩ := exists_fresh (s.nodes node).data
        exact ⟨⟨address, fun _ => 0⟩, real, fresh⟩
      obtain ⟨s', result, done, -, rest⟩ := stays.2 answer real fresh
      have inside := write_ends holds.regular done
      obtain ⟨t, done', -, file'⟩ := buffered_write file inside real fresh buffer
      cases done.symm.trans done'
      exact ⟨inside, ih file' rest⟩
    | read offset size =>
      obtain ⟨-, ⟨result, bytes, done, -⟩, rest⟩ := stays
      refine ⟨?_, ih file rest⟩
      by_cases behind : (s.nodes node).size ≤ offset
      · exact .inl (holds.size ▸ behind)
      · exact .inr (read_ends behind done)

/-- The copies of any sequence of calls on a new file stay in bounds exactly if no
write ends behind `2^32 - 1` and no read does that starts inside the file. -/
theorem copies_stay_inside (new : NewFile s node) :
    StaysInside node s 0 calls ↔ EndsKept 0 calls := by
  have capacity : (s.nodes node).capacity.toNat = 0 := congrArg UInt32.toNat new.capacity
  have file : Buffered s node .empty 0 := ⟨⟨_, new.holds fun _ => 0⟩, capacity⟩
  exact ⟨kept_of_staysInside file, staysInside_of_kept file⟩

/-- Three bytes written, two of them read, and a read far behind the end. -/
theorem copies_stay_inside_small : StaysInside 0x200 oneFile 0
    [.write 0 3 fun i => .ofNat i, .read 1 2, .read 0xFFFFFFFF 5] :=
  (copies_stay_inside oneFile_new).mpr (by simp [EndsKept])

/-- Two bytes written at the largest offset make a buffer of one byte. -/
theorem write_past_the_buffer : ¬ ∀ s node calls, NewFile s node → StaysInside node s 0 calls := by
  intro claim
  obtain ⟨-, stores⟩ := claim oneFile 0x200 [.write 0xFFFFFFFF 2 fun _ => 0] oneFile_new
  obtain ⟨s', result, done, -⟩ := stores ⟨0x300, fun _ => 0⟩ (by decide) (by decide)
  exact absurd (write_ends oneFile_new.regular done) (by decide)

end ZynthexOS.RamfsBounds
