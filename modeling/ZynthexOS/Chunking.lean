import ZynthexOS.FdRefinement
import ZynthexOS.PathResolution
import ZynthexOS.RamfsFile

/-! Reading back what was written through a descriptor. Each write appends its
piece and moves the offset behind it, each read takes the next bytes, so that how
the bytes were cut on either side is not seen. -/
namespace ZynthexOS.Chunking
open Lib Text Fs RamfsFile FdRefinement

/-- The bytes of a piece as the caller's buffer. -/
def bufferOf (bytes : List UInt8) : Nat → UInt8 := fun i => bytes.getD i 0

theorem bufferOf_apply (bytes : List UInt8) (i : Nat) (inside : i < bytes.length) :
    bufferOf bytes i = bytes[i] := by
  simp [bufferOf, inside]

/-- `sys_write` of one piece. -/
def writePiece (s : Files) (answer : Answer) (fd : Int) (bytes : List UInt8) :
    Except Fault (Files × Int) :=
  sysWrite s answer fd (bufferOf bytes) (.ofNat bytes.length)

/-- The pieces are written one after the other; each write returns the length of its
piece, whatever fresh block `kmalloc` hands out for it, and `behind` holds after the
last one. -/
def WritesThen (fd : Int) (node : UInt32) (behind : Files → Prop) : Files → List (List UInt8) → Prop
  | s, [] => behind s
  | s, bytes :: pieces => ∀ answer : Answer, answer.address ≠ 0 →
    answer.address ≠ (s.fs.nodes node).data → ∃ s',
      writePiece s answer fd bytes = .ok (s', bytes.length) ∧
        WritesThen fd node behind s' pieces

/-- Reads of these sizes one after the other: the state behind them, with what each
of them returned. -/
def readSizes (fd : Int) : Files → List UInt32 → Except Fault (Files × List (Int × List UInt8))
  | s, [] => .ok (s, [])
  | s, size :: sizes => do
    let (s, result, bytes) ← sysRead s fd size
    let (s, results) ← readSizes fd s sizes
    .ok (s, (result, bytes) :: results)

/-- No read goes past offset `2^32 - 1`. -/
def ReadsInside (fd : Int) : Files → List UInt32 → Prop
  | _, [] => True
  | s, size :: sizes => (s.fdTable fd.toNat).offset.toNat + size.toNat ≤ 2 ^ 32 - 1 ∧
    ∀ s' result bytes, sysRead s fd size = .ok (s', result, bytes) → ReadsInside fd s' sizes

/-- The descriptor stands behind the first bytes of a file that holds them and the
rest. -/
structure Stands (s : Files) (fd : Int) (node : UInt32) (before after : List UInt8) : Prop where
  held : (openFiles s).files fd = some (node, .ofNat before.length)
  file : ∃ fill, Holds s.fs node (.ofList (before ++ after)) fill

/-- The same in a file whose size is an `int`. -/
structure At (s : Files) (fd : Int) (node : UInt32) (before after : List UInt8) : Prop where
  held : (openFiles s).files fd = some (node, .ofNat before.length)
  file : ∃ fill, Holds s.fs node (.ofList (before ++ after)) fill
  short : (before ++ after).length < 2 ^ 31

theorem toNat_ofNat_short (short : n < 2 ^ 31) : (UInt32.ofNat n).toNat = n := by
  rw [UInt32.toNat_ofNat']
  omega

theorem asInt_ofNat_short (short : n < 2 ^ 31) : asInt (.ofNat n) = n :=
  Int32.toInt_ofNat_of_lt short

/-- A call that moved `n` bytes leaves the offset behind them. -/
theorem moved_short (m n : Nat) : moved (.ofNat m) (n : Int) = .ofNat (m + n) := by
  unfold moved
  by_cases none : n = 0
  · simp [none]
  · have some : (n : Int) > 0 := by omega
    rw [if_pos some, Int.toNat_natCast, UInt32.ofNat_add]

/-- A call that moved `n` bytes leaves the file system alone and the offset behind
them. -/
theorem advance_at (good : badFd s fd = false) (offset : (s.fdTable fd.toNat).offset = .ofNat m)
    (n : Nat) : (advance s fd.toNat n).fs = s.fs ∧
      (openFiles (advance s fd.toNat n)).files fd =
        some ((s.fdTable fd.toNat).node, .ofNat (m + n)) := by
  obtain ⟨isFd, held⟩ := held_of_good good
  have table := openFiles_advance isFd held n
  refine ⟨congrArg OpenFiles.fs table, ?_⟩
  rw [table, offset, moved_short]
  exact if_pos rfl

/-- A write stores its piece over as many bytes, if the file does not grow or there is a
fresh block for it. -/
theorem stands_write (here : Stands s fd node before after)
    (short : before.length + more.length < 2 ^ 31)
    (room : after.length < more.length →
      answer.address ≠ 0 ∧ answer.address ≠ (s.fs.nodes node).data) :
    ∃ s', writePiece s answer fd more = .ok (s', more.length) ∧
      Stands s' fd node (before ++ more) (after.drop more.length) := by
  obtain ⟨held, fill, holds⟩ := here
  obtain ⟨good, rfl, offset⟩ := good_of_held held
  have first := toNat_ofNat_short (n := before.length) (by omega)
  have size := toNat_ofNat_short (n := more.length) (by omega)
  have ends : (UInt32.ofNat before.length).toNat + (UInt32.ofNat more.length).toNat ≤ 2 ^ 32 - 1 := by
    omega
  have length : (ByteFile.ofList (before ++ after)).size = before.length + after.length :=
    List.length_append
  obtain ⟨fs, done, holds'⟩ := holds_write_room holds ends
    (fun longer => room (by omega)) (bufferOf more)
  rw [asInt_ofNat_short (by omega), ← offset] at done
  rw [first, size, ByteFile.write_middle before after more _ (bufferOf_apply more),
    ← List.append_assoc] at holds'
  have writes : writePiece s answer fd more =
      .ok (advance { s with fs := fs } fd.toNat more.length, more.length) :=
    (sysWrite_iff ..).mpr (.inr ⟨good, fs, done, rfl⟩)
  obtain ⟨kept, moved⟩ := advance_at (s := { s with fs := fs }) good offset more.length
  refine ⟨_, writes, ?_, ?_⟩
  · rw [moved, List.length_append]
  · rw [kept]
    exact ⟨_, holds'⟩

/-- A write at the end of the file appends its piece. -/
theorem at_write (here : At s fd node bytes []) (short : bytes.length + more.length < 2 ^ 31)
    (real : answer.address ≠ 0) (fresh : answer.address ≠ (s.fs.nodes node).data) :
    ∃ s', writePiece s answer fd more = .ok (s', more.length) ∧ At s' fd node (bytes ++ more) [] := by
  have stands : Stands s fd node bytes [] := ⟨here.held, here.file⟩
  obtain ⟨s', writes, there⟩ := stands_write stands short fun _ => ⟨real, fresh⟩
  rw [List.drop_nil] at there
  refine ⟨s', writes, there.held, there.file, ?_⟩
  simpa using short

/-- A read takes the next bytes. -/
theorem stands_read (here : Stands s fd node before after) (first : before.length < 2 ^ 31)
    (inside : (s.fdTable fd.toNat).offset.toNat + size.toNat ≤ 2 ^ 32 - 1)
    (short : (after.take size.toNat).length < 2 ^ 31) :
    ∃ s', sysRead s fd size = .ok (s', (after.take size.toNat).length, after.take size.toNat) ∧
      Stands s' fd node (before ++ after.take size.toNat) (after.drop size.toNat) := by
  obtain ⟨held, fill, holds⟩ := here
  obtain ⟨good, rfl, offset⟩ := good_of_held held
  have place := toNat_ofNat_short first
  have read := holds_read holds inside
  rw [← ByteFile.length_read _ fill, ByteFile.read_ofList, offset, place,
    List.drop_left] at read
  rw [asInt_ofNat_short short, ← offset] at read
  obtain ⟨kept, moved⟩ := advance_at good offset (after.take size.toNat).length
  refine ⟨_, (sysRead_iff ..).mpr (.inr ⟨good, read, rfl⟩), ?_, ?_⟩
  · rw [moved, List.length_append]
  · rw [kept, List.append_assoc, List.take_append_drop]
    exact ⟨fill, holds⟩

theorem at_read (here : At s fd node before after)
    (inside : (s.fdTable fd.toNat).offset.toNat + size.toNat ≤ 2 ^ 32 - 1) :
    ∃ s', sysRead s fd size = .ok (s', (after.take size.toNat).length, after.take size.toNat) ∧
      At s' fd node (before ++ after.take size.toNat) (after.drop size.toNat) := by
  obtain ⟨held, file, short⟩ := here
  have stands : Stands s fd node before after := ⟨held, file⟩
  rw [List.length_append] at short
  have taken : (after.take size.toNat).length ≤ after.length := by
    rw [List.length_take]
    exact Nat.min_le_right ..
  obtain ⟨s', read, there⟩ := stands_read stands (by omega) inside (by omega)
  refine ⟨s', read, there.held, there.file, ?_⟩
  rw [List.append_assoc, List.take_append_drop, List.length_append]
  exact short

/-! ## Whole sequences -/

/-- How many bytes some reads ask for. -/
def requested (sizes : List UInt32) : Nat := (sizes.map UInt32.toNat).sum

/-- Any reads from here return, each with the number of bytes it read; together they
return the bytes, cut off where no more were asked for; and behind the last byte a
further read returns 0. -/
def ReadsBack (fd : Int) (bytes : List UInt8) (s : Files) : Prop :=
  ∀ sizes, ReadsInside fd s sizes → ∃ s' results, readSizes fd s sizes = .ok (s', results) ∧
    (results.map Prod.snd).flatten = bytes.take (requested sizes) ∧
    (∀ r ∈ results, r.1 = r.2.length) ∧
    (bytes.length ≤ requested sizes → ∀ size : UInt32,
      (s'.fdTable fd.toNat).offset.toNat + size.toNat ≤ 2 ^ 32 - 1 →
        ∃ s'', sysRead s' fd size = .ok (s'', 0, []))

theorem at_reads (here : At s fd node before after) (inside : ReadsInside fd s sizes) :
    ∃ s' results, readSizes fd s sizes = .ok (s', results) ∧
      (results.map Prod.snd).flatten = after.take (requested sizes) ∧
      (∀ r ∈ results, r.1 = r.2.length) ∧
      At s' fd node (before ++ after.take (requested sizes)) (after.drop (requested sizes)) := by
  induction sizes generalizing s before after with
  | nil => exact ⟨s, [], rfl, rfl, by simp, by simpa [requested] using here⟩
  | cons size sizes ih =>
    obtain ⟨fits, later⟩ := inside
    obtain ⟨t, done, there⟩ := at_read here fits
    obtain ⟨s', results, rest, bytes, counts, last⟩ := ih there (later _ _ _ done)
    have total : requested (size :: sizes) = size.toNat + requested sizes := List.sum_cons
    refine ⟨s', (((after.take size.toNat).length : Int), after.take size.toNat) :: results, ?_, ?_,
      ?_, ?_⟩
    · exact bind_returns.mpr ⟨_, done, bind_returns.mpr ⟨_, rest, rfl⟩⟩
    · rw [List.map_cons, List.flatten_cons, bytes, total, List.take_add]
    · intro r member
      rcases List.mem_cons.mp member with rfl | older
      · rfl
      · exact counts r older
    · rw [total, List.take_add, ← List.append_assoc, ← List.drop_drop]
      exact last

theorem at_readsBack (here : At s fd node [] bytes) : ReadsBack fd bytes s := by
  intro sizes inside
  obtain ⟨s', results, done, back, counts, there⟩ := at_reads here inside
  refine ⟨s', results, done, back, counts, fun all size fits => ?_⟩
  rw [List.drop_eq_nil_of_le all] at there
  obtain ⟨s'', read, -⟩ := at_read there fits
  exact ⟨s'', by simpa using read⟩

/-- `sys_seek(fd, 0)`. -/
theorem stands_rewound (here : Stands s fd node before after) :
    (sysSeek s fd 0).2 = 0 ∧ Stands (sysSeek s fd 0).1 fd node [] (before ++ after) := by
  obtain ⟨held, file⟩ := here
  obtain ⟨good, rfl, -⟩ := good_of_held held
  have sought : sysSeek s fd 0 =
      (s.setDesc fd.toNat { s.fdTable fd.toNat with offset := 0 }, 0) := by
    rw [sysSeek, good]
    rfl
  obtain ⟨isFd, entry⟩ := held_of_good good
  rw [sought]
  refine ⟨rfl, ?_, file⟩
  rw [openFiles_sought isFd entry]
  exact if_pos rfl

theorem at_rewound (here : At s fd node bytes []) :
    (sysSeek s fd 0).2 = 0 ∧ At (sysSeek s fd 0).1 fd node [] bytes := by
  obtain ⟨held, file, short⟩ := here
  have stands : Stands s fd node bytes [] := ⟨held, file⟩
  obtain ⟨sought, there⟩ := stands_rewound stands
  rw [List.append_nil] at there short
  exact ⟨sought, there.held, there.file, short⟩

theorem at_writes (here : At s fd node bytes [])
    (short : (bytes ++ pieces.flatten).length < 2 ^ 31)
    (last : ∀ s', At s' fd node (bytes ++ pieces.flatten) [] → behind s') :
    WritesThen fd node behind s pieces := by
  induction pieces generalizing s bytes with
  | nil => exact last s (by simpa using here)
  | cons more pieces ih =>
    intro answer real fresh
    rw [List.flatten_cons, ← List.append_assoc] at short last
    have fits : bytes.length + more.length < 2 ^ 31 := by
      simp only [List.length_append] at short
      omega
    obtain ⟨s', done, there⟩ := at_write here fits real fresh
    exact ⟨s', done, ih there short last⟩

/-- A descriptor that was just opened stands at the start of the file. -/
theorem stands_opened (opened : sysOpen s₀ path = .ok (s, fd)) (found : fd ≠ -1)
    (lookup : vfsLookup s₀.fs path = .ok node) (holds : Holds s₀.fs node (.ofList bytes) fill) :
    s.fs = s₀.fs ∧ Stands s fd node [] bytes := by
  have behaves := open_behaves opened
  generalize table : openFiles s = t at behaves
  cases behaves with
  | notFound _ => exact absurd rfl found
  | full _ _ _ => exact absurd rfl found
  | opened lookup' _ _ _ _ =>
    cases lookup.symm.trans lookup'
    have kept : s.fs = s₀.fs := congrArg OpenFiles.fs table
    refine ⟨kept, ?_, fill, ?_⟩
    · rw [table]
      exact if_pos rfl
    · rw [kept]
      exact holds

/-- A descriptor that was just opened on an empty file. -/
theorem at_opened (opened : sysOpen s₀ path = .ok (s, fd)) (found : fd ≠ -1)
    (lookup : vfsLookup s₀.fs path = .ok node) (new : NewFile s₀.fs node) :
    At s fd node [] [] := by
  have holds := new.holds fun _ => 0
  rw [← ByteFile.ofList_nil] at holds
  obtain ⟨-, held, file⟩ := stands_opened opened found lookup holds
  exact ⟨held, file, by simp⟩

/-- Writing some bytes in pieces through a descriptor that was just opened on an
empty file, seeking to 0 and reading with any sizes gives the bytes back. -/
theorem chunks_read_back (opened : sysOpen s₀ path = .ok (s, fd)) (found : fd ≠ -1)
    (lookup : vfsLookup s₀.fs path = .ok node) (new : NewFile s₀.fs node)
    (short : pieces.flatten.length < 2 ^ 31) :
    WritesThen fd node (fun s' => (sysSeek s' fd 0).2 = 0 ∧
      ReadsBack fd pieces.flatten (sysSeek s' fd 0).1) s pieces := by
  refine at_writes (at_opened opened found lookup new) (by simpa using short) fun s' there => ?_
  obtain ⟨sought, rewound⟩ := at_rewound there
  exact ⟨sought, at_readsBack rewound⟩

/-- A root at `0x100` with one empty file at `0x200`, and no descriptor open. -/
def oneEmptyFile : Files where
  fs :=
    { nodes := fun a =>
        if a = 0x100 then
          { clearedNode with name := cstring "/", flags := vfsDir, children := [0x200] }
        else createdNode 0x100 (cstring "log") vfsFile
      buffers := fun _ _ => 0
      mounts := []
      vfsRoot := 0x100 }
  fdTable _ := ⟨false, 0, 0⟩

/-- Three bytes written in two pieces. -/
theorem chunks_read_back_three : ∃ s, sysOpen oneEmptyFile (cstring "/log") = .ok (s, 0) ∧
    WritesThen 0 0x200 (fun s' => (sysSeek s' 0 0).2 = 0 ∧
      ReadsBack 0 [1, 2, 3] (sysSeek s' 0 0).1) s [[1, 2], [3]] := by
  have lookup : vfsLookup oneEmptyFile.fs (cstring "/log") = .ok 0x200 := by
    rw [PathResolution.vfsLookup_eq]
    decide +kernel
  have new : NewFile oneEmptyFile.fs 0x200 := ⟨by decide, by decide, rfl, rfl, rfl⟩
  have opened : sysOpen oneEmptyFile (cstring "/log") = .ok
      ((oneEmptyFile.setDesc 0 ⟨true, 0, 0⟩).setDesc 0 ⟨true, 0x200, 0⟩, 0) := by
    rw [sysOpen_eq, lookup]
    rfl
  have short : ([[1, 2], [3]] : List (List UInt8)).flatten.length < 2 ^ 31 := by simp
  exact ⟨_, opened, chunks_read_back opened (by decide) lookup new short⟩

end ZynthexOS.Chunking
