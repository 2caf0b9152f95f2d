import ZynthexOS.Lib.ByteFiles
import ZynthexOS.RamfsCalls

/-! A file of ramfs against a file that is an array of bytes. Size and capacity are
always the end of the last extension, and the buffer holds the bytes written; but
a buffer that grows past the end keeps in the hole what `kmalloc` left there. -/
namespace ZynthexOS.RamfsFile
open Lib Fs RamfsCalls

/-- A call on the file. -/
inductive FileCall where
  | write (offset size : UInt32) (buffer : Nat → UInt8)
  | read (offset size : UInt32)

/-- The call ends at `2^32 - 1` at most. -/
def FileCall.EndsInside : FileCall → Prop
  | .write offset size _ => offset.toNat + size.toNat ≤ 2 ^ 32 - 1
  | .read offset size => offset.toNat + size.toNat ≤ 2 ^ 32 - 1

/-- The file after a call. -/
def FileCall.apply (f : ByteFile UInt8) : FileCall → ByteFile UInt8
  | .write offset size buffer => f.write offset.toNat size.toNat buffer
  | .read _ _ => f

/-- The calls return what the array of bytes gives and keep its size, whatever fresh
block `kmalloc` hands out for each of them and whatever bytes are there. -/
def Conforms (s : FileSystem) (node : UInt32) (f : ByteFile UInt8) : List FileCall → Prop
  | [] => True
  | .write offset size buffer :: calls => ∀ answer : Answer, answer.address ≠ 0 →
    answer.address ≠ (s.nodes node).data → ∃ s',
      ramfsWrite s answer node offset size buffer = .ok (s', asInt size) ∧
      (s'.nodes node).size.toNat = (FileCall.apply f (.write offset size buffer)).size ∧
      Conforms s' node (FileCall.apply f (.write offset size buffer)) calls
  | .read offset size :: calls =>
    let bytes := f.read (fun _ => 0) offset.toNat size.toNat
    ramfsRead s node offset size = .ok (asInt (.ofNat bytes.length), bytes) ∧
      Conforms s node f calls

/-- No read covers a byte below the end of the file that no write stored. -/
def ReadsWritten (f : ByteFile UInt8) : List FileCall → Prop
  | [] => True
  | .write offset size buffer :: calls =>
    ReadsWritten (FileCall.apply f (.write offset size buffer)) calls
  | .read offset size :: calls => f.Solid offset.toNat size.toNat ∧ ReadsWritten f calls

/-- A regular node that nothing was written to. -/
structure NewFile (s : FileSystem) (node : UInt32) : Prop where
  real : node ≠ 0
  regular : (s.nodes node).flags &&& vfsDir = 0
  data : (s.nodes node).data = 0
  size : (s.nodes node).size = 0
  capacity : (s.nodes node).capacity = 0

/-- The node holds the file, with `fill` in its holes. -/
structure Holds (s : FileSystem) (node : UInt32) (f : ByteFile UInt8) (fill : Nat → UInt8) : Prop where
  real : node ≠ 0
  regular : (s.nodes node).flags &&& vfsDir = 0
  size : (s.nodes node).size.toNat = f.size
  capacity : (s.nodes node).capacity = (s.nodes node).size
  data : (s.nodes node).data = 0 ↔ f.size = 0
  bytes : ∀ p < f.size, s.buffers (s.nodes node).data p = f.byte fill p

theorem NewFile.holds (new : NewFile s node) (fill : Nat → UInt8) : Holds s node .empty fill where
  real := new.real
  regular := new.regular
  size := by rw [new.size]; rfl
  capacity := new.capacity.trans new.size.symm
  data := iff_of_true new.data rfl
  bytes p below := absurd below (Nat.not_lt_zero p)

theorem memcpy_apply (dest : Nat → UInt8) (start : Nat) (src : Nat → UInt8) (n p : Nat) :
    memcpy dest start src n p =
      if start ≤ p ∧ p < start + n then src (p - start) else dest p := by
  by_cases before : p < start
  · have kept := Scan.forRange_keep (fun (bytes : Nat → UInt8) i k => if k = start + i then src i else bytes k)
      (fun bytes => bytes p) 0 n (fun bytes i _ _ => if_neg (by omega : p ≠ start + i)) dest
    rw [if_neg (by omega)]
    exact kept
  · have round : ∀ (bytes : Nat → UInt8) i k, (if start + k = start + i then src i else bytes (start + k)) =
        if k = i then src k else bytes (start + k) := by
      intro bytes i k
      by_cases here : k = i
      · simp [here]
      · simp [here]
    have copied := Scan.forRange_observe
      (fun (bytes : Nat → UInt8) i k => if k = start + i then src i else bytes k)
      (fun bytes i => bytes (start + i)) (fun i _ => src i) round 0 n dest (p - start)
    rw [Nat.add_sub_cancel' (Nat.le_of_not_lt before)] at copied
    refine copied.trans (if_congr ?_ rfl rfl)
    omega

theorem touch_ok : touch data offset count capacity = .ok () ↔
    count = 0 ∨ (data ≠ 0 ∧ offset + count ≤ capacity) := by
  unfold touch
  split_ifs <;> simp_all

/-! ## One call -/

/-- The new buffer holds the old bytes, and behind them what `kmalloc` left. -/
theorem grown_bytes (s : FileSystem) (node newCapacity : UInt32) (answer : Answer)
    (real : answer.address ≠ 0) (fresh : answer.address ≠ (s.nodes node).data) (p : Nat) :
    (grown s answer node newCapacity).buffers answer.address p =
      if (s.nodes node).data ≠ 0 ∧ p < (s.nodes node).size.toNat then
        s.buffers (s.nodes node).data p
      else answer.bytes p := by
  have installed : s.install answer = s.setBuffer answer.address answer.bytes := if_neg real
  have old : (s.setBuffer answer.address answer.bytes).buffers (s.nodes node).data =
      s.buffers (s.nodes node).data := if_neg fresh.symm
  have new : (s.setBuffer answer.address answer.bytes).buffers answer.address = answer.bytes :=
    if_pos rfl
  by_cases data : (s.nodes node).data = 0
  · have none : (grown s answer node newCapacity).buffers answer.address = answer.bytes := by
      unfold grown
      simp only [data, installed, ne_eq, not_true, if_false]
      exact new
    rw [none, if_neg fun both => both.1 data]
  · have copied : (grown s answer node newCapacity).buffers answer.address =
        memcpy answer.bytes 0 (s.buffers (s.nodes node).data) (s.nodes node).size.toNat := by
      unfold grown FileSystem.copyBuffer
      simp only [data, installed, ne_eq, not_false_iff, if_true]
      rw [old, new]
      exact if_pos rfl
    rw [copied, memcpy_apply, Nat.sub_zero, Nat.zero_add]
    exact if_congr ⟨fun both => ⟨data, both.2⟩, fun both => ⟨Nat.zero_le p, both.2⟩⟩ rfl rfl

theorem stored_bytes (s : FileSystem) (node offset size : UInt32) (buffer : Nat → UInt8) (p : Nat) :
    (stored s node offset size buffer).buffers (s.nodes node).data p =
      if offset.toNat ≤ p ∧ p < offset.toNat + size.toNat then buffer (p - offset.toNat)
      else s.buffers (s.nodes node).data p := by
  have copied : (stored s node offset size buffer).buffers (s.nodes node).data =
      memcpy (s.buffers (s.nodes node).data) offset.toNat buffer size.toNat := by
    unfold stored
    dsimp only
    split <;> exact if_pos rfl
  rw [copied, memcpy_apply]

theorem toNat_end (inside : offset.toNat + size.toNat ≤ 2 ^ 32 - 1) :
    (offset + size : UInt32).toNat = offset.toNat + size.toNat := by
  rw [UInt32.toNat_add, Nat.mod_eq_of_lt (by omega)]

/-- A node with a buffer of exactly its size grows when the write ends behind it. -/
theorem grows_iff (holds : Holds s node f fill)
    (inside : offset.toNat + size.toNat ≤ 2 ^ 32 - 1) :
    Grows s node offset size ↔ f.size < offset.toNat + size.toNat := by
  have capacityIs : (s.nodes node).capacity.toNat = f.size := by rw [holds.capacity, holds.size]
  rw [← capacityIs, ← toNat_end inside]
  exact ⟨fun grows => grows.2, fun more => ⟨holds.regular, more⟩⟩

/-- A write behind the end gets a new buffer. -/
theorem holds_write_grown (holds : Holds s node f fill)
    (inside : offset.toNat + size.toNat ≤ 2 ^ 32 - 1) (real : answer.address ≠ 0)
    (fresh : answer.address ≠ (s.nodes node).data) (buffer : Nat → UInt8)
    (longer : f.size < offset.toNat + size.toNat) :
    ∃ s', ramfsWrite s answer node offset size buffer = .ok (s', asInt size) ∧
      Holds s' node (f.write offset.toNat size.toNat buffer)
        (fun p => if p < f.size then fill p else answer.bytes p) := by
  have ends := toNat_end inside
  have sizeIs := holds.size
  have capacityIs : (s.nodes node).capacity.toNat = f.size := by rw [holds.capacity, sizeIs]
  have data : (s.nodes node).data ≠ 0 ↔ f.size ≠ 0 := not_congr holds.data
  have copies : Copies s answer node (offset + size) := by
    intro data
    refine ⟨touch_ok.mpr (.inr ⟨data, ?_⟩), touch_ok.mpr (.inr ⟨real, ?_⟩)⟩ <;> omega
  have room : touch answer.address offset.toNat size.toNat (offset + size).toNat = .ok () :=
    touch_ok.mpr (.inr ⟨real, by omega⟩)
  refine ⟨_, ramfsWrite_grows holds.real ((grows_iff holds inside).mpr longer) copies room, ?_⟩
  have node' := stored_node (grown s answer node (offset + size)) node offset size buffer
  have bytes := stored_bytes (grown s answer node (offset + size)) node offset size buffer
  rw [grown_node] at node' bytes
  dsimp only at node' bytes
  have further : offset + size > (s.nodes node).size := by
    change (s.nodes node).size.toNat < (offset + size).toNat
    omega
  rw [if_pos further] at node'
  have newSize : (f.write offset.toNat size.toNat buffer).size = offset.toNat + size.toNat :=
    Nat.max_eq_right (Nat.le_of_lt longer)
  refine ⟨holds.real, ?_, ?_, ?_, ?_, fun p below => ?_⟩
  · rw [node']
    exact holds.regular
  · rw [node', newSize]
    exact ends
  · rw [node']
  · rw [node', newSize]
    apply iff_of_false real
    omega
  · rw [node', bytes, grown_bytes s node (offset + size) answer real fresh, f.byte_write]
    apply if_congr Iff.rfl rfl
    by_cases before : p < f.size
    · rw [if_pos ⟨data.mpr (by omega), by omega⟩, if_pos before, holds.bytes p before]
    · rw [if_neg (by omega), if_neg before]

/-- A write inside the file goes to the buffer it has. -/
theorem holds_write_inside (holds : Holds s node f fill)
    (inside : offset.toNat + size.toNat ≤ 2 ^ 32 - 1) (answer : Answer) (buffer : Nat → UInt8)
    (shorter : offset.toNat + size.toNat ≤ f.size) :
    ∃ s', ramfsWrite s answer node offset size buffer = .ok (s', asInt size) ∧
      Holds s' node (f.write offset.toNat size.toNat buffer)
        (fun p => if p < f.size then fill p else answer.bytes p) := by
  have ends := toNat_end inside
  have sizeIs := holds.size
  have capacityIs : (s.nodes node).capacity.toNat = f.size := by rw [holds.capacity, sizeIs]
  have stays : ¬ Grows s node offset size := by
    rw [grows_iff holds inside]
    exact Nat.not_lt.mpr shorter
  have room : touch (s.nodes node).data offset.toNat size.toNat (s.nodes node).capacity.toNat =
      .ok () := by
    apply touch_ok.mpr
    by_cases none : size.toNat = 0
    · exact .inl none
    · exact .inr ⟨(not_congr holds.data).mpr (by omega), by omega⟩
  refine ⟨stored s node offset size buffer, ramfsWrite_returns.mpr ⟨holds.real, .inr
    ⟨holds.regular, s, ?_, room, rfl, rfl⟩⟩, ?_⟩
  · rw [if_neg stays]
  have node' := stored_node s node offset size buffer
  have bytes := stored_bytes s node offset size buffer
  have further : ¬ offset + size > (s.nodes node).size := by
    change ¬ (s.nodes node).size.toNat < (offset + size).toNat
    omega
  rw [if_neg further] at node'
  have newSize : (f.write offset.toNat size.toNat buffer).size = f.size :=
    Nat.max_eq_left shorter
  refine ⟨holds.real, ?_, ?_, ?_, ?_, fun p below => ?_⟩
  · rw [node']
    exact holds.regular
  · rw [node', newSize]
    exact sizeIs
  · rw [node']
    exact holds.capacity
  · rw [node', newSize]
    exact holds.data
  · rw [newSize] at below
    rw [node', bytes, f.byte_write, if_pos below, holds.bytes p below]

/-- A write returns if the file does not grow or `kmalloc` hands out a fresh block for
it, and the node holds the file after it; what fills a new hole is what `kmalloc` left
there. -/
theorem holds_write_room (holds : Holds s node f fill)
    (inside : offset.toNat + size.toNat ≤ 2 ^ 32 - 1)
    (room : f.size < offset.toNat + size.toNat →
      answer.address ≠ 0 ∧ answer.address ≠ (s.nodes node).data) (buffer : Nat → UInt8) :
    ∃ s', ramfsWrite s answer node offset size buffer = .ok (s', asInt size) ∧
      Holds s' node (f.write offset.toNat size.toNat buffer)
        (fun p => if p < f.size then fill p else answer.bytes p) := by
  by_cases longer : f.size < offset.toNat + size.toNat
  · obtain ⟨real, fresh⟩ := room longer
    exact holds_write_grown holds inside real fresh buffer longer
  · exact holds_write_inside holds inside answer buffer (Nat.le_of_not_lt longer)

/-- With a fresh block every write returns. -/
theorem holds_write (holds : Holds s node f fill)
    (inside : offset.toNat + size.toNat ≤ 2 ^ 32 - 1) (real : answer.address ≠ 0)
    (fresh : answer.address ≠ (s.nodes node).data) (buffer : Nat → UInt8) :
    ∃ s', ramfsWrite s answer node offset size buffer = .ok (s', asInt size) ∧
      Holds s' node (f.write offset.toNat size.toNat buffer)
        (fun p => if p < f.size then fill p else answer.bytes p) :=
  holds_write_room holds inside (fun _ => ⟨real, fresh⟩) buffer

/-- A write that makes the file longer does not return without memory. -/
theorem real_of_grown (holds : Holds s node f fill)
    (inside : offset.toNat + size.toNat ≤ 2 ^ 32 - 1) (longer : f.size < offset.toNat + size.toNat)
    (some : size.toNat ≠ 0)
    (returned : ramfsWrite s answer node offset size buffer = .ok (s', n)) : answer.address ≠ 0 := by
  obtain ⟨-, ⟨dir, -⟩ | ⟨-, t, grows, room, -⟩⟩ := ramfsWrite_returns.mp returned
  · exact absurd holds.regular dir
  · rw [if_pos ((grows_iff holds inside).mpr longer)] at grows
    obtain ⟨-, rfl⟩ := grows
    rw [grown_node] at room
    exact ((touch_ok.mp room).resolve_left some).1

/-- A read returns what the file with filled holes has. -/
theorem holds_read (holds : Holds s node f fill)
    (inside : offset.toNat + size.toNat ≤ 2 ^ 32 - 1) :
    ramfsRead s node offset size =
      .ok (asInt (.ofNat (f.available offset.toNat size.toNat)),
        f.read fill offset.toNat size.toNat) := by
  have ends := toNat_end inside
  have sizeIs := holds.size
  have capacityIs : (s.nodes node).capacity.toNat = f.size := by rw [holds.capacity, sizeIs]
  unfold ramfsRead
  dsimp only
  by_cases past : offset ≥ (s.nodes node).size
  · have outside : f.size ≤ offset.toNat := sizeIs ▸ past
    have none : f.available offset.toNat size.toNat = 0 := by
      unfold ByteFile.available
      omega
    rw [if_pos past, f.read_outside fill outside, none]
    rfl
  · have before : offset.toNat < f.size := by
      rw [← sizeIs]
      exact Nat.lt_of_not_le past
    have count : (if offset + size > (s.nodes node).size then (s.nodes node).size - offset
        else size).toNat = f.available offset.toNat size.toNat := by
      unfold ByteFile.available
      split
      · rename_i more
        have longer : (s.nodes node).size.toNat < (offset + size).toNat := more
        rw [UInt32.toNat_sub_of_le _ _ (Nat.le_of_not_le past), sizeIs]
        omega
      · rename_i less
        have shorter : (offset + size).toNat ≤ (s.nodes node).size.toNat := Nat.le_of_not_lt less
        omega
    have data : (s.nodes node).data ≠ 0 := fun null => by
      have empty := holds.data.mp null
      omega
    rw [if_neg past]
    generalize (if offset + size > (s.nodes node).size then (s.nodes node).size - offset
      else size) = n at count ⊢
    have short : offset.toNat + n.toNat ≤ f.size := by
      rw [count]
      unfold ByteFile.available
      omega
    have room : touch (s.nodes node).data offset.toNat n.toNat (s.nodes node).capacity.toNat =
        .ok () := touch_ok.mpr (.inr ⟨data, by omega⟩)
    rw [room]
    change Except.ok _ = _
    congr 2
    · rw [← count, UInt32.ofNat_toNat]
    · rw [count]
      refine List.map_congr_left fun i member => holds.bytes _ ?_
      have below := List.mem_range.mp member
      omega

/-! ## Every sequence of calls -/

theorem conforms_of_readsWritten (holds : Holds s node f fill)
    (inside : ∀ call ∈ calls, FileCall.EndsInside call) (written : ReadsWritten f calls) :
    Conforms s node f calls := by
  induction calls generalizing s f fill with
  | nil => trivial
  | cons call calls ih =>
    have rest : ∀ call ∈ calls, FileCall.EndsInside call :=
      fun call member => inside call (List.mem_cons_of_mem _ member)
    cases call with
    | write offset size buffer =>
      intro answer real fresh
      have ends : offset.toNat + size.toNat ≤ 2 ^ 32 - 1 := inside _ List.mem_cons_self
      obtain ⟨s', done, holds'⟩ := holds_write holds ends real fresh buffer
      exact ⟨s', done, holds'.size, ih holds' rest written⟩
    | read offset size =>
      have ends : offset.toNat + size.toNat ≤ 2 ^ 32 - 1 := inside _ List.mem_cons_self
      obtain ⟨solid, written⟩ := written
      have done := holds_read holds ends
      rw [f.read_solid fill (fun _ => 0) solid] at done
      refine ⟨?_, ih holds rest written⟩
      rw [done, f.length_read]

/-- A write where `kmalloc` leaves a 1 everywhere. -/
theorem holds_write_one (holds : Holds s node f fun _ => 1)
    (inside : offset.toNat + size.toNat ≤ 2 ^ 32 - 1) (real : address ≠ 0)
    (fresh : address ≠ (s.nodes node).data) (buffer : Nat → UInt8) :
    ∃ s', ramfsWrite s ⟨address, fun _ => 1⟩ node offset size buffer = .ok (s', asInt size) ∧
      Holds s' node (f.write offset.toNat size.toNat buffer) fun _ => 1 := by
  let answer : Answer := ⟨address, fun _ => 1⟩
  have here : answer.address ≠ 0 := real
  obtain ⟨s', done, holds'⟩ := holds_write holds inside here fresh buffer
  simp only [answer, ite_self] at holds'
  exact ⟨s', done, holds'⟩

/-- There is an address for a new buffer beside the old one. -/
theorem exists_fresh (data : UInt32) : ∃ address : UInt32, address ≠ 0 ∧ address ≠ data := by
  by_cases one : (1 : UInt32) = data
  · exact ⟨2, by decide, one ▸ by decide⟩
  · exact ⟨1, by decide, one⟩

/-- `kmalloc` may leave a 1 everywhere, and then every hole shows. -/
theorem readsWritten_of_conforms (holds : Holds s node f fun _ => 1)
    (inside : ∀ call ∈ calls, FileCall.EndsInside call) (conforms : Conforms s node f calls) :
    ReadsWritten f calls := by
  induction calls generalizing s f with
  | nil => trivial
  | cons call calls ih =>
    have rest : ∀ call ∈ calls, FileCall.EndsInside call :=
      fun call member => inside call (List.mem_cons_of_mem _ member)
    cases call with
    | write offset size buffer =>
      have ends : offset.toNat + size.toNat ≤ 2 ^ 32 - 1 := inside _ List.mem_cons_self
      obtain ⟨address, real, other⟩ := exists_fresh (s.nodes node).data
      obtain ⟨s', done, -, conforms⟩ := conforms ⟨address, fun _ => 1⟩ real other
      obtain ⟨t, done', holds'⟩ := holds_write_one holds ends real other buffer
      cases done.symm.trans done'
      exact ih holds' rest conforms
    | read offset size =>
      have ends : offset.toNat + size.toNat ≤ 2 ^ 32 - 1 := inside _ List.mem_cons_self
      obtain ⟨same, conforms⟩ := conforms
      rw [holds_read holds ends] at same
      have bytes := congrArg Prod.snd (Except.ok.inj same)
      exact ⟨f.solid_of_read _ _ (fun _ => by decide) bytes, ih holds rest conforms⟩

/-- A new file behaves as an array of bytes along a sequence of calls exactly if no
read of the sequence covers a byte that no write stored. -/
theorem file_is_byte_array (new : NewFile s node)
    (inside : ∀ call ∈ calls, FileCall.EndsInside call) :
    Conforms s node .empty calls ↔ ReadsWritten .empty calls :=
  ⟨readsWritten_of_conforms (new.holds _) inside, conforms_of_readsWritten (new.holds fun _ => 0) inside⟩

/-- A file system with a new file at `0x200`. -/
def oneFile : FileSystem where
  nodes _ := createdNode 0x100 [] vfsFile
  buffers _ _ := 0
  mounts := []
  vfsRoot := 0x100

theorem oneFile_new : NewFile oneFile 0x200 := ⟨by decide, by decide, rfl, rfl, rfl⟩

/-- Three bytes written, two of them read. -/
theorem file_is_byte_array_once : Conforms oneFile 0x200 .empty
    [.write 0 3 fun i => .ofNat i, .read 1 2] := by
  refine (file_is_byte_array oneFile_new ?_).mpr ⟨?_, trivial⟩
  · simp [FileCall.EndsInside]
  · unfold ByteFile.Solid
    decide

/-- One byte written behind the start of the file leaves a hole before it. -/
theorem hole_reads_as_garbage : ¬ ∀ s node calls, NewFile s node →
    (∀ call ∈ calls, FileCall.EndsInside call) → Conforms s node .empty calls := by
  intro claim
  have conforms := claim oneFile 0x200 [.write 1 1 fun _ => 0, .read 0 2] oneFile_new
    (by simp [FileCall.EndsInside])
  obtain ⟨s', done, -, ⟨read, -⟩⟩ := conforms ⟨0x300, fun _ => 1⟩ (by decide) (by decide)
  have ends : (1 : UInt32).toNat + (1 : UInt32).toNat ≤ 2 ^ 32 - 1 := by decide
  have real : (0x300 : UInt32) ≠ 0 := by decide
  obtain ⟨t, done', holds⟩ := holds_write_one (oneFile_new.holds fun _ => 1) ends real real _
  cases done.symm.trans done'
  rw [holds_read holds (by decide)] at read
  revert read
  decide +kernel

end ZynthexOS.RamfsFile
