import ZynthexOS.Chunking
import ZynthexOS.RamfsTree
import ZynthexOS.ShellBuffers

/-! Writing words to a file in the shell and reading them back. The shell keeps eight
arguments, so that six words reach the file at most, and no call shortens a file:
what stood behind the new text still stands there. -/
namespace ZynthexOS.RoundTrip
open Lib Text Fs PathResolution RamfsCalls RamfsTree RamfsFile FdRefinement Chunking Shell ShellBuffers

/-- The bytes of a file. -/
def content (s : FileSystem) (node : UInt32) : List UInt8 :=
  (List.range (s.nodes node).size.toNat).map (s.buffers (s.nodes node).data)

/-- A file as ramfs keeps it: its buffer is as long as it is, and there is none while it
is empty. -/
structure RegularFile (s : FileSystem) (node : UInt32) : Prop where
  real : node ≠ 0
  regular : (s.nodes node).flags &&& vfsDir = 0
  capacity : (s.nodes node).capacity = (s.nodes node).size
  data : (s.nodes node).data = 0 ↔ (s.nodes node).size = 0

/-- The characters of a text. -/
def textBytes (text : CString) : List UInt8 := text.map Subtype.val

/-- No block that `kmalloc` answers from the `first` to before the `last` call is the
buffer of the file or was answered before. -/
structure FreshBlocks (answers : Nat → Answer) (first last : Nat) (data : UInt32) : Prop where
  old : ∀ k, first ≤ k → k < last → (answers k).address ≠ data
  apart : ∀ j k, first ≤ j → j < k → k < last → (answers k).address ≠ (answers j).address

/-- The writes of one command: its words and the blanks between them. -/
def maxWrites : Nat := 2 * (maxArgs - 2) - 1

/-- The words that reach the file. -/
def kept (ws : List CString) : List CString := ws.take (maxArgs - 2)

/-- The file holds the words joined with blanks, and `rd` prints them. -/
def RoundTrips (s : ShellState) (f : CString) (node : UInt32) (ws : List CString) : Prop :=
  content s.files.fs node = textBytes (joined ws) ∧
    ∀ env line, ConsoleLine line → words line = [cstring "rd", f] →
      ∃ s', executeCommand env s line = .ok s' ∧
        s'.screen = s.screen ++ [joined ws, cstring "\n"]

/-- The file holds the words that reached it and then what it held there before, and
`rd` prints this up to a NUL, at most 255 characters. -/
def Overwrites (s t : ShellState) (f : CString) (node : UInt32) (ws : List CString) : Prop :=
  let text := joined (kept ws)
  let rest := (content s.files.fs node).drop text.length
  content t.files.fs node = textBytes text ++ rest ∧
    ∀ env line, ConsoleLine line → words line = [cstring "rd", f] →
      ∃ t', executeCommand env t line = .ok t' ∧
        t'.screen = t.screen ++ [text ++ bufferString (rest.take (255 - text.length)), cstring "\n"]

/-- Behind the words that reached the file it held just what the other words are. -/
def HeldTheRest (s : ShellState) (node : UInt32) (ws : List CString) : Prop :=
  (content s.files.fs node).drop (joined (kept ws)).length =
    textBytes ((ws.drop (maxArgs - 2)).flatMap (space :: ·))

/-! ## Files and texts -/

/-- The file of `RamfsFile` without holes. -/
theorem holds_iff : (∃ fill, Holds s node (.ofList bytes) fill) ↔
    RegularFile s node ∧ content s node = bytes := by
  have none : (s.nodes node).size = 0 ↔ (s.nodes node).size.toNat = 0 := UInt32.toNat_inj.symm
  constructor
  · rintro ⟨fill, holds⟩
    have size : (s.nodes node).size.toNat = bytes.length := holds.size
    refine ⟨⟨holds.real, holds.regular, holds.capacity, ?_⟩, ?_⟩
    · rw [holds.data, none, holds.size]
    · refine List.ext_getElem (by simp [content, size]) fun p _ below => ?_
      have byte := holds.bytes p below
      simpa [content, ByteFile.byte, ByteFile.ofList, below] using byte
  · rintro ⟨file, rfl⟩
    have length : (content s node).length = (s.nodes node).size.toNat := by simp [content]
    refine ⟨fun _ => 0, file.real, file.regular, length.symm, file.capacity, ?_, fun p below => ?_⟩
    · rw [file.data, none, ← length]
      rfl
    · have inside : p < (s.nodes node).size.toNat := length ▸ below
      simp [content, ByteFile.byte, ByteFile.ofList, inside]

/-- A new file is one. -/
theorem regularFile_new (new : NewFile s node) : RegularFile s node :=
  ⟨new.real, new.regular, new.capacity.trans new.size.symm, iff_of_true new.data new.size⟩

theorem length_textBytes (text : CString) : (textBytes text).length = text.length :=
  List.length_map _

theorem textBytes_append (text more : CString) :
    textBytes (text ++ more) = textBytes text ++ textBytes more :=
  List.map_append

/-- The string at the start of a buffer that holds a text. -/
theorem bufferString_append (text : CString) (rest : List UInt8) :
    bufferString (textBytes text ++ rest) = text ++ bufferString rest := by
  induction text with
  | nil => rfl
  | cons c text ih =>
    change bufferString (c.val :: (textBytes text ++ rest)) = _
    rw [bufferString, dif_pos c.property, ih]
    rfl

theorem bufferOf_textBytes (text : CString) : bufferOf (textBytes text) = stringBytes text := by
  funext i
  simp [bufferOf, textBytes, stringBytes, List.getD_eq_getElem?_getD]

/-- Where the words are cut the blank goes to the second part. -/
theorem joined_split (ws : List CString) :
    joined ws = joined (kept ws) ++ (ws.drop (maxArgs - 2)).flatMap (space :: ·) := by
  cases ws with
  | nil => rfl
  | cons w ws =>
    have front : kept (w :: ws) = w :: ws.take 5 := rfl
    have back : (w :: ws).drop (maxArgs - 2) = ws.drop 5 := rfl
    rw [front, back, joined_cons, joined_cons, List.append_assoc, ← List.flatMap_append,
      List.take_append_drop]

theorem words_proper (member : w ∈ words line) : w ≠ [] := by
  have other := (List.mem_filter.mp member).2
  simpa using other

/-! ## Writing -/

theorem FreshBlocks.step (fresh : FreshBlocks answers first last data)
    (new : data' = data ∨ data' = (answers first).address) :
    FreshBlocks answers (first + 1) last data' where
  old k start stop := by
    rcases new with rfl | rfl
    · exact fresh.old k (by omega) stop
    · exact fresh.apart first k (Nat.le_refl _) start stop
  apart j k start less stop := fresh.apart j k (by omega) less stop

/-- A write that returns leaves the tree; the file keeps its buffer or gets the new one. -/
theorem sysWrite_wrote (held : (openFiles s).files fd = some (node, offset))
    (returned : sysWrite s answer fd buffer size = .ok (s', n)) :
    Wrote s.fs s'.fs node (s'.fs.nodes node).data ∧
      ((s'.fs.nodes node).data = (s.fs.nodes node).data ∨
        (s'.fs.nodes node).data = answer.address) := by
  obtain ⟨good, rfl, -⟩ := good_of_held held
  rcases (sysWrite_iff ..).mp returned with ⟨bad, -⟩ | ⟨-, fs, done, rfl⟩
  · rw [good] at bad
    cases bad
  · have same : (advance { s with fs := fs } fd.toNat n).fs = fs := by
      unfold advance
      dsimp only
      split <;> rfl
    have wrote := ramfsWrite_wrote done
    rw [same, wrote.data]
    refine ⟨wrote, ?_⟩
    split
    · exact .inr rfl
    · exact .inl rfl

/-- A piece that makes the file longer is not written without memory. -/
theorem piece_real (here : Stands s fd node before after) (some : text ≠ [])
    (short : before.length + text.length < 2 ^ 31) (longer : after.length < text.length)
    (returned : sysWrite s answer fd (stringBytes text) (.ofNat (strlen text)) = .ok (s', n)) :
    answer.address ≠ 0 := by
  obtain ⟨held, fill, holds⟩ := here
  obtain ⟨good, rfl, offset⟩ := good_of_held held
  rcases (sysWrite_iff ..).mp returned with ⟨bad, -⟩ | ⟨-, fs, done, -⟩
  · rw [good] at bad
    cases bad
  · rw [offset] at done
    have place := toNat_ofNat_short (n := before.length) (by omega)
    have count : (UInt32.ofNat (strlen text)).toNat = text.length :=
      toNat_ofNat_short (Nat.lt_of_le_of_lt (Nat.le_add_left ..) short)
    have positive := List.length_pos_iff.mpr some
    have length : (ByteFile.ofList (before ++ after)).size = before.length + after.length :=
      List.length_append
    exact real_of_grown holds (by omega) (by omega) (by omega) done

/-- A piece of the text that was written stands behind the pieces before it. -/
theorem piece_written (here : Stands s fd node before after) (some : text ≠ [])
    (short : before.length + text.length < 2 ^ 31)
    (fresh : FreshBlocks answers i last (s.fs.nodes node).data) (below : i < last)
    (returned : sysWrite s (answers i) fd (stringBytes text) (.ofNat (strlen text)) = .ok (s', n)) :
    Stands s' fd node (before ++ textBytes text) (after.drop text.length) ∧
      Wrote s.fs s'.fs node (s'.fs.nodes node).data ∧
      FreshBlocks answers (i + 1) last (s'.fs.nodes node).data := by
  obtain ⟨wrote, new⟩ := sysWrite_wrote here.held returned
  refine ⟨?_, wrote, fresh.step new⟩
  have room : after.length < (textBytes text).length → (answers i).address ≠ 0 ∧
      (answers i).address ≠ (s.fs.nodes node).data := by
    intro longer
    rw [length_textBytes] at longer
    exact ⟨piece_real here some short longer returned, fresh.old i (Nat.le_refl i) below⟩
  obtain ⟨t, writes, there⟩ := stands_write here (by rwa [length_textBytes]) room
  rw [writePiece, bufferOf_textBytes, length_textBytes] at writes
  cases writes.symm.trans returned
  rwa [length_textBytes] at there

/-- With memory every piece of the text is written. -/
theorem piece_returns (here : Stands s fd node before after)
    (short : before.length + text.length < 2 ^ 31)
    (fresh : FreshBlocks answers i last (s.fs.nodes node).data) (below : i < last)
    (real : (answers i).address ≠ 0) :
    ∃ s' n, sysWrite s (answers i) fd (stringBytes text) (.ofNat (strlen text)) = .ok (s', n) := by
  have fits : before.length + (textBytes text).length < 2 ^ 31 := by rwa [length_textBytes]
  obtain ⟨t, writes, -⟩ := stands_write here fits fun _ => ⟨real, fresh.old i (Nat.le_refl i) below⟩
  rw [writePiece, bufferOf_textBytes, length_textBytes] at writes
  exact ⟨t, _, writes⟩

/-- The loop of `cmd_write` over its pieces, the words and the blanks between them. -/
def writePieces (answers : Nat → Answer) (fd : Int) : Nat → List CString → Files → Except Fault Files
  | _, [], s => .ok s
  | i, piece :: pieces, s => do
    let (s, _) ← sysWrite s (answers i) fd (stringBytes piece) (.ofNat (strlen piece))
    writePieces answers fd (i + 1) pieces s

/-- The arguments with the blanks are the words set apart by blanks. -/
theorem writeArguments_eq (answers : Nat → Answer) (fd : Int) (i : Nat) (ws : List CString) (s : Files) :
    writeArguments answers fd i ws s = writePieces answers fd i (ws.intersperse [space]) s := by
  induction ws generalizing i s with
  | nil => rfl
  | cons w ws ih =>
    cases ws with
    | nil => rfl
    | cons next ws =>
      rw [List.intersperse_cons_cons, writeArguments, writePieces]
      · exact bind_congr fun ⟨t, _⟩ => bind_congr fun ⟨u, _⟩ => ih (i + 2) u
      · simp

theorem pieces_proper {ws : List CString} (proper : ∀ w ∈ ws, w ≠ []) :
    ∀ piece ∈ ws.intersperse [space], piece ≠ [] := by
  induction ws with
  | nil => exact proper
  | cons w ws ih =>
    cases ws with
    | nil => exact proper
    | cons next ws =>
      intro piece member
      rw [List.intersperse_cons_cons] at member
      rcases List.mem_cons.mp member with rfl | member
      · exact proper _ List.mem_cons_self
      · rcases List.mem_cons.mp member with rfl | member
        · exact List.cons_ne_nil _ _
        · exact ih (fun v member => proper v (List.mem_cons_of_mem _ member)) piece member

/-- The pieces are written one behind the other. -/
theorem pieces_written (here : Stands s fd node before after) (proper : ∀ piece ∈ pieces, piece ≠ [])
    (short : before.length + pieces.flatten.length < 2 ^ 31)
    (fresh : FreshBlocks answers i last (s.fs.nodes node).data) (room : i + pieces.length ≤ last)
    (returned : writePieces answers fd i pieces s = .ok s') :
    Stands s' fd node (before ++ textBytes pieces.flatten) (after.drop pieces.flatten.length) ∧
      Wrote s.fs s'.fs node (s'.fs.nodes node).data := by
  induction pieces generalizing i s before after with
  | nil =>
    cases returned
    refine ⟨?_, wrote_self _ node⟩
    simpa [textBytes] using here
  | cons piece pieces ih =>
    obtain ⟨⟨t, n⟩, writes, returned⟩ := bind_returns.mp returned
    rw [List.length_cons] at room
    rw [List.flatten_cons, List.length_append] at short
    obtain ⟨stands, wrote, fresh⟩ := piece_written here (proper piece List.mem_cons_self) (by omega)
      fresh (by omega) writes
    have fits : (before ++ textBytes piece).length + pieces.flatten.length < 2 ^ 31 := by
      rw [List.length_append, length_textBytes]
      omega
    obtain ⟨stands, wrote'⟩ := ih stands (fun p member => proper p (List.mem_cons_of_mem _ member)) fits
      fresh (by omega) returned
    rw [List.append_assoc, ← textBytes_append, List.drop_drop, ← List.length_append,
      ← List.flatten_cons] at stands
    exact ⟨stands, wrote.trans wrote'⟩

/-- With memory all of them are. -/
theorem pieces_return (here : Stands s fd node before after) (proper : ∀ piece ∈ pieces, piece ≠ [])
    (short : before.length + pieces.flatten.length < 2 ^ 31)
    (fresh : FreshBlocks answers i last (s.fs.nodes node).data) (room : i + pieces.length ≤ last)
    (real : ∀ k, (answers k).address ≠ 0) : ∃ s', writePieces answers fd i pieces s = .ok s' := by
  induction pieces generalizing i s before after with
  | nil => exact ⟨s, rfl⟩
  | cons piece pieces ih =>
    rw [List.length_cons] at room
    rw [List.flatten_cons, List.length_append] at short
    have first : before.length + piece.length < 2 ^ 31 := by omega
    obtain ⟨t, n, writes⟩ := piece_returns here first fresh (by omega) (real i)
    obtain ⟨stands, -, fresh⟩ := piece_written here (proper piece List.mem_cons_self) first fresh
      (by omega) writes
    have fits : (before ++ textBytes piece).length + pieces.flatten.length < 2 ^ 31 := by
      rw [List.length_append, length_textBytes]
      omega
    obtain ⟨s', rest⟩ := ih stands (fun p member => proper p (List.mem_cons_of_mem _ member)) fits
      fresh (by omega)
    exact ⟨s', bind_returns.mpr ⟨_, writes, rest⟩⟩

/-- There are few enough pieces for the blocks of one command. -/
theorem pieces_few {ws : List CString} (few : ws.length ≤ maxArgs - 2) :
    0 + (ws.intersperse [space]).length ≤ maxWrites := by
  rw [List.length_intersperse]
  simp only [maxWrites, maxArgs] at few ⊢
  omega

/-! ## Opening -/

/-- A write moves no path. -/
theorem vfsLookup_wrote (wrote : Wrote s s' node data) (path : CString) :
    vfsLookup s' path = vfsLookup s path := by
  have lookups : ∀ n part, opsLookup s' n part = opsLookup s n part := by
    intro n part
    have names : ∀ a, (s'.nodes a).name = (s.nodes a).name := fun a => (wrote_keeps wrote a).1
    simp only [opsLookup_eq, (wrote_keeps wrote n).2.2.2, names]
  have mounts : ∀ n, vfsCheckMount s' n = vfsCheckMount s n := by
    intro n
    rw [vfsCheckMount, vfsCheckMount, wrote.mounts]
  have walks : ∀ route n, resolveParts s' n route = resolveParts s n route := by
    intro route
    induction route with
    | nil => exact fun _ => rfl
    | cons part route ih =>
      intro n
      simp only [resolveParts, lookups, mounts, ih]
  rw [vfsLookup_eq, vfsLookup_eq, wrote.vfsRoot, walks]

theorem sysClose_fs (s : Files) (fd : Int) : (sysClose s fd).fs = s.fs := by
  unfold sysClose
  split <;> rfl

/-- With a closed descriptor a file can be opened. -/
theorem sysOpen_free (lookup : vfsLookup s.fs path = .ok node) (real : node ≠ 0) (isFd : IsFd fd)
    (free : (openFiles s).files fd = none) : ∃ s' e, sysOpen s path = .ok (s', e) ∧ 0 ≤ e := by
  rw [sysOpen_eq, lookup]
  change ∃ s' e, (if node = 0 then _ else _) = _ ∧ _
  rw [if_neg real]
  rcases fdAlloc_spec s with ⟨-, all⟩ | ⟨i, found, inside, -⟩
  · exact absurd free (all fd isFd)
  · rw [found]
    exact ⟨_, i, rfl, inside.1⟩

/-- A file that was opened, with the offset at its start. -/
theorem opened_rewound (opened : sysOpen s path = .ok (s', fd)) (present : ¬ fd < 0)
    (lookup : vfsLookup s.fs path = .ok node) (file : RegularFile s.fs node) :
    IsFd fd ∧ (sysSeek s' fd 0).1.fs = s.fs ∧
      Stands (sysSeek s' fd 0).1 fd node [] (content s.fs node) := by
  obtain ⟨fill, holds⟩ := holds_iff.mpr ⟨file, rfl⟩
  obtain ⟨same, stands⟩ := stands_opened opened (by omega) lookup holds
  obtain ⟨good, -, -⟩ := good_of_held stands.held
  refine ⟨(held_of_good good).1, ?_, (stands_rewound stands).2⟩
  rw [sysSeek, good]
  exact same

/-! ## The commands -/

/-- The message of a command that ends without writing is another one. -/
theorem not_reported (s : ShellState) (message : String)
    (other : cstring message ≠ cstring "Written.\n") :
    (s.print message).screen ≠ s.screen ++ [cstring "Written.\n"] := by
  intro same
  have last := List.append_cancel_left same
  exact other (List.singleton_inj.mp last)

/-- What `cmd_write` leaves when it reports success: the words over the start of the file, and
a closed descriptor. -/
theorem cmdWrite_writes (found : vfsLookup s.files.fs f = .ok node) (file : RegularFile s.files.fs node)
    (fresh : FreshBlocks answers 0 maxWrites (s.files.fs.nodes node).data)
    (proper : ∀ w ∈ ws, w ≠ []) (few : ws.length ≤ maxArgs - 2) (short : (joined ws).length < 2 ^ 31)
    (done : cmdWrite s answers (name :: f :: ws) = .ok t)
    (success : t.screen = s.screen ++ [cstring "Written.\n"]) :
    ws ≠ [] ∧ RegularFile t.files.fs node ∧
      content t.files.fs node =
        textBytes (joined ws) ++ (content s.files.fs node).drop (joined ws).length ∧
      vfsLookup t.files.fs f = .ok node ∧ ∃ fd, IsFd fd ∧ (openFiles t.files).files fd = none := by
  cases ws with
  | nil =>
    cases done
    exact absurd success (not_reported s _ (by decide))
  | cons text rest =>
    obtain ⟨⟨files, fd⟩, opened, done⟩ := bind_returns.mp done
    dsimp only at done
    split_ifs at done with missing
    · cases done
      exact absurd success (not_reported s _ (by decide))
    · obtain ⟨files', writes, result⟩ := bind_returns.mp done
      cases result
      obtain ⟨isFd, same, rewound⟩ := opened_rewound opened missing found file
      rw [← same] at fresh
      rw [writeArguments_eq] at writes
      obtain ⟨there, wrote⟩ := pieces_written rewound (pieces_proper proper)
        ((Nat.zero_add _).trans_lt short) fresh (pieces_few few) writes
      obtain ⟨regular, bytes⟩ := holds_iff.mp there.file
      rw [same] at wrote
      have closed := openFiles_sysClose files' fd
      have kept' : (sysClose files' fd).fs = files'.fs := sysClose_fs files' fd
      refine ⟨List.cons_ne_nil _ _, ?_⟩
      change RegularFile (sysClose files' fd).fs node ∧ content (sysClose files' fd).fs node = _ ∧
        vfsLookup (sysClose files' fd).fs f = _ ∧ ∃ e, _ ∧ (openFiles (sysClose files' fd)).files e = _
      rw [kept', closed, vfsLookup_wrote wrote]
      exact ⟨regular, bytes, found, fd, isFd, if_pos rfl⟩

/-- With memory and a closed descriptor `cmd_write` reports success. -/
theorem cmdWrite_reports (name : CString) (found : vfsLookup s.files.fs f = .ok node)
    (file : RegularFile s.files.fs node) (isFd : IsFd fd) (free : (openFiles s.files).files fd = none)
    (fresh : FreshBlocks answers 0 maxWrites (s.files.fs.nodes node).data)
    (real : ∀ k, (answers k).address ≠ 0) (proper : ∀ w ∈ ws, w ≠ []) (some : ws ≠ [])
    (few : ws.length ≤ maxArgs - 2) (short : (joined ws).length < 2 ^ 31) :
    ∃ t, cmdWrite s answers (name :: f :: ws) = .ok t ∧
      t.screen = s.screen ++ [cstring "Written.\n"] := by
  obtain ⟨files, e, opened, positive⟩ := sysOpen_free found file.real isFd free
  have present : ¬ e < 0 := by omega
  obtain ⟨-, same, rewound⟩ := opened_rewound opened present found file
  rw [← same] at fresh
  obtain ⟨files', writes⟩ := pieces_return rewound (pieces_proper proper)
    ((Nat.zero_add _).trans_lt short) fresh (pieces_few few) real
  rw [← writeArguments_eq] at writes
  cases ws with
  | nil => exact absurd rfl some
  | cons text rest =>
    have runs : cmdWrite s answers (name :: f :: text :: rest) =
        .ok (ShellState.print { s with files := sysClose files' e } "Written.\n") := by
      refine bind_returns.mpr ⟨_, opened, ?_⟩
      dsimp only
      rw [if_neg present]
      exact bind_returns.mpr ⟨_, writes, rfl⟩
    exact ⟨_, runs, rfl⟩

/-- What `cmd_rd` prints of a file that is not empty. -/
theorem cmdRd_prints (name : CString) (found : vfsLookup s.files.fs f = .ok node)
    (file : RegularFile s.files.fs node) (some : content s.files.fs node ≠ []) (isFd : IsFd fd)
    (free : (openFiles s.files).files fd = none) :
    ∃ s', cmdRd s [name, f] = .ok s' ∧ s'.screen =
      s.screen ++ [bufferString ((content s.files.fs node).take 255), cstring "\n"] := by
  obtain ⟨files, e, opened, positive⟩ := sysOpen_free found file.real isFd free
  have present : ¬ e < 0 := by omega
  obtain ⟨-, -, rewound⟩ := opened_rewound opened present found file
  obtain ⟨-, -, offset⟩ := good_of_held rewound.held
  have few : ((content s.files.fs node).take 255).length ≤ 255 := List.length_take_le ..
  have inside : ((sysSeek files e 0).1.fdTable e.toNat).offset.toNat + (255 : UInt32).toNat ≤
      2 ^ 32 - 1 := by
    rw [offset]
    decide
  obtain ⟨files', read, -⟩ := stands_read rewound (by simp) inside (Nat.lt_of_le_of_lt few (by decide))
  have size : (255 : UInt32).toNat = 255 := rfl
  rw [size] at read
  have more : (((content s.files.fs node).take 255).length : Int) > 0 := by
    have positive := List.length_pos_iff.mpr some
    rw [List.length_take]
    omega
  have runs : cmdRd s [name, f] = .ok (ShellState.print { s with
      files := sysClose files' e
      screen := s.screen ++ [bufferString ((content s.files.fs node).take 255)] } "\n") := by
    refine bind_returns.mpr ⟨_, opened, ?_⟩
    dsimp only
    rw [if_neg present]
    refine bind_returns.mpr ⟨_, read, ?_⟩
    dsimp only
    rw [if_pos more]
  exact ⟨_, runs, List.append_assoc ..⟩

theorem callFs_ok {x : Except Fault α} : callFs x = .ok a ↔ x = .ok a := by
  cases x <;> simp [callFs, Except.mapError]

theorem execute_write (console : ConsoleLine line) (command : words line = cstring "write" :: f :: ws) :
    executeCommand env s line = callFs (cmdWrite s env.answers (cstring "write" :: f :: kept ws)) := by
  have eight : (cstring "write" :: f :: ws).take maxArgs = cstring "write" :: f :: kept ws := rfl
  rw [executeCommand_eq env s console, command, eight]
  simp only [find_command ("write", .write) (by decide), runHandler]

theorem execute_rd (console : ConsoleLine line) (command : words line = [cstring "rd", f]) :
    executeCommand env s line = callFs (cmdRd s [cstring "rd", f]) := by
  have eight : [cstring "rd", f].take maxArgs = [cstring "rd", f] := rfl
  rw [executeCommand_eq env s console, command, eight]
  simp only [find_command ("rd", .rd) (by decide), runHandler, cmdRdBuffered_eq]

/-! ## Writing and reading back -/

/-- What the buffer of `cmd_rd` shows of a text and what stands behind it. -/
theorem shown_append (text : CString) (rest : List UInt8) (fits : text.length ≤ 255) :
    bufferString ((textBytes text ++ rest).take 255) =
      text ++ bufferString (rest.take (255 - text.length)) := by
  have whole : (textBytes text).take 255 = textBytes text :=
    List.take_of_length_le (by rwa [length_textBytes])
  rw [List.take_append, whole, length_textBytes, bufferString_append]

theorem joined_ne_nil (some : ws ≠ []) (proper : ∀ w ∈ ws, w ≠ []) : joined ws ≠ [] := by
  cases ws with
  | nil => exact absurd rfl some
  | cons w ws =>
    rw [joined_cons]
    exact List.append_ne_nil_of_left_ne_nil (proper w List.mem_cons_self) _

variable {env : Environment} {s t : ShellState} {line f : CString} {ws : List CString} {node : UInt32}

theorem kept_sublist (command : words line = cstring "write" :: f :: ws) :
    ws.Sublist (words line) ∧ (kept ws).Sublist (words line) := by
  have all : ws.Sublist (words line) := by
    rw [command]
    exact ((List.sublist_cons_self f ws).trans (List.sublist_cons_self _ _))
  exact ⟨all, (List.take_sublist _ _).trans all⟩

/-- What a command that reported success leaves, and what `rd` then prints. -/
theorem write_overwrites (console : ConsoleLine line)
    (command : words line = cstring "write" :: f :: ws)
    (found : vfsLookup s.files.fs f = .ok node) (file : RegularFile s.files.fs node)
    (fresh : FreshBlocks env.answers 0 maxWrites (s.files.fs.nodes node).data)
    (done : executeCommand env s line = .ok t)
    (success : t.screen = s.screen ++ [cstring "Written.\n"]) : Overwrites s t f node ws := by
  obtain ⟨-, front⟩ := kept_sublist command
  have short : (joined (kept ws)).length ≤ 255 := Nat.le_trans (joined_sublist_le front) console
  have proper : ∀ w ∈ kept ws, w ≠ [] := fun w member => words_proper (front.subset member)
  rw [execute_write console command, callFs_ok] at done
  obtain ⟨some, file', bytes, found', fd, isFd, free⟩ := cmdWrite_writes found file fresh proper
    (List.length_take_le _ _) (Nat.lt_of_le_of_lt short (by decide)) done success
  refine ⟨bytes, fun env line console' command' => ?_⟩
  have present : content t.files.fs node ≠ [] := by
    rw [bytes]
    apply List.append_ne_nil_of_left_ne_nil
    rw [textBytes, ne_eq, List.map_eq_nil_iff]
    exact joined_ne_nil some proper
  obtain ⟨t', runs, screen⟩ := cmdRd_prints (cstring "rd") found' file' present isFd free
  refine ⟨t', ?_, ?_⟩
  · rw [execute_rd console' command', callFs_ok]
    exact runs
  · rw [screen, bytes, shown_append _ _ short]

/-- With what is left of the old bytes the file holds all words exactly if these bytes are
the missing words. -/
theorem roundTrips_iff (console : ConsoleLine line) (command : words line = cstring "write" :: f :: ws)
    (written : Overwrites s t f node ws) : RoundTrips t f node ws ↔ HeldTheRest s node ws := by
  obtain ⟨bytes, prints⟩ := written
  have split := joined_split ws
  constructor
  · rintro ⟨same, -⟩
    rw [bytes, split, textBytes_append] at same
    exact List.append_cancel_left same
  · intro held
    obtain ⟨all, -⟩ := kept_sublist command
    have short : (joined ws).length ≤ 255 := Nat.le_trans (joined_sublist_le all) console
    rw [HeldTheRest] at held
    rw [held] at bytes prints
    refine ⟨by rw [bytes, ← textBytes_append, ← split], fun env line console' command' => ?_⟩
    obtain ⟨t', runs, screen⟩ := prints env line console' command'
    refine ⟨t', runs, ?_⟩
    have whole : bufferString ((textBytes ((ws.drop (maxArgs - 2)).flatMap (space :: ·))).take
        (255 - (joined (kept ws)).length)) = (ws.drop (maxArgs - 2)).flatMap (space :: ·) := by
      rw [split, List.length_append] at short
      rw [List.take_of_length_le (by rw [length_textBytes]; omega)]
      have plain := bufferString_append ((ws.drop (maxArgs - 2)).flatMap (space :: ·)) []
      rwa [List.append_nil, bufferString, List.append_nil] at plain
    rw [screen, whole, ← split]

/-- After `write` reported success the file holds the first six words joined by blanks and
behind them what it held there before, and `rd` prints this; the text of all words is
printed exactly if what is left of the old bytes is the text of the missing words. -/
theorem write_then_rd (console : ConsoleLine line)
    (command : words line = cstring "write" :: f :: ws)
    (found : vfsLookup s.files.fs f = .ok node) (file : RegularFile s.files.fs node)
    (fresh : FreshBlocks env.answers 0 maxWrites (s.files.fs.nodes node).data)
    (done : executeCommand env s line = .ok t)
    (success : t.screen = s.screen ++ [cstring "Written.\n"]) :
    Overwrites s t f node ws ∧ (RoundTrips t f node ws ↔ HeldTheRest s node ws) := by
  have written := write_overwrites console command found file fresh done success
  exact ⟨written, roundTrips_iff console command written⟩

/-- With memory and a closed descriptor the command reports success. -/
theorem write_reports (console : ConsoleLine line)
    (command : words line = cstring "write" :: f :: ws) (some : ws ≠ [])
    (found : vfsLookup s.files.fs f = .ok node) (file : RegularFile s.files.fs node)
    (isFd : IsFd fd) (free : (openFiles s.files).files fd = none)
    (fresh : FreshBlocks env.answers 0 maxWrites (s.files.fs.nodes node).data)
    (real : ∀ k, (env.answers k).address ≠ 0) :
    ∃ t, executeCommand env s line = .ok t ∧ t.screen = s.screen ++ [cstring "Written.\n"] := by
  obtain ⟨-, front⟩ := kept_sublist command
  have short : (joined (kept ws)).length ≤ 255 := Nat.le_trans (joined_sublist_le front) console
  have proper : ∀ w ∈ kept ws, w ≠ [] := fun w member => words_proper (front.subset member)
  have some' : kept ws ≠ [] := by
    cases ws with
    | nil => exact absurd rfl some
    | cons w ws => exact List.cons_ne_nil _ _
  obtain ⟨t, runs, screen⟩ := cmdWrite_reports (cstring "write") found file isFd free fresh
    real proper some' (List.length_take_le _ _) (Nat.lt_of_le_of_lt short (by decide))
  refine ⟨t, ?_, screen⟩
  rw [execute_write console command, callFs_ok]
  exact runs

/-- A shell with one empty file. -/
def oneFileShell : ShellState := ⟨oneEmptyFile, 0x100, []⟩

/-- `kmalloc` answers another block each time. -/
def manyBlocks : Environment :=
  ⟨fun k => ⟨0x300 + .ofNat (k % 16), fun _ => 0⟩, 0, fun _ _ s => s⟩

theorem manyBlocks_fresh : FreshBlocks manyBlocks.answers 0 maxWrites 0 ∧
    ∀ k, (manyBlocks.answers k).address ≠ 0 := by
  have address : ∀ k, (manyBlocks.answers k).address.toNat = 0x300 + k % 16 := by
    intro k
    have small : k % 16 < 16 := Nat.mod_lt k (by decide)
    have base : (0x300 : UInt32).toNat = 0x300 := rfl
    change (0x300 + UInt32.ofNat (k % 16)).toNat = _
    rw [UInt32.toNat_add, UInt32.toNat_ofNat', base]
    omega
  have real : ∀ k, (manyBlocks.answers k).address ≠ 0 := by
    intro k zero
    have value := address k
    rw [zero] at value
    change 0 = _ at value
    omega
  refine ⟨⟨fun k _ _ => real k, fun j k _ less stop same => ?_⟩, real⟩
  have values := congrArg UInt32.toNat same
  rw [address, address] at values
  simp only [maxWrites, maxArgs] at stop
  omega

theorem oneFileShell_file : vfsLookup oneFileShell.files.fs (cstring "/log") = .ok 0x200 ∧
    RegularFile oneFileShell.files.fs 0x200 := by
  refine ⟨?_, regularFile_new ⟨by decide, by decide, rfl, rfl, rfl⟩⟩
  rw [vfsLookup_eq]
  decide +kernel

/-- A text to the empty file. -/
theorem oneFile_reports (console : ConsoleLine line)
    (command : words line = cstring "write" :: cstring "/log" :: ws) (some : ws ≠ []) :
    ∃ t, executeCommand manyBlocks oneFileShell line = .ok t ∧
      t.screen = oneFileShell.screen ++ [cstring "Written.\n"] := by
  obtain ⟨found, file⟩ := oneFileShell_file
  obtain ⟨fresh, real⟩ := manyBlocks_fresh
  have isFd : IsFd 0 := by decide
  exact write_reports console command some found file isFd rfl fresh real

/-- Two words to an empty file. -/
theorem write_then_rd_two : ∃ t,
    executeCommand manyBlocks oneFileShell (cstring "write /log hello world") = .ok t ∧
      Overwrites oneFileShell t (cstring "/log") 0x200 [cstring "hello", cstring "world"] ∧
      (RoundTrips t (cstring "/log") 0x200 [cstring "hello", cstring "world"] ↔
        HeldTheRest oneFileShell 0x200 [cstring "hello", cstring "world"]) := by
  have console : ConsoleLine (cstring "write /log hello world") := by
    unfold ConsoleLine
    decide +kernel
  have command : words (cstring "write /log hello world") =
      [cstring "write", cstring "/log", cstring "hello", cstring "world"] := by decide +kernel
  obtain ⟨t, done, success⟩ := oneFile_reports console command (by decide)
  obtain ⟨found, file⟩ := oneFileShell_file
  exact ⟨t, done, write_then_rd console command found file manyBlocks_fresh.1 done success⟩

/-- The seventh word does not reach the file. -/
theorem seventh_word_lost : ¬ ∀ env s line f ws node t, ConsoleLine line →
    words line = cstring "write" :: f :: ws → ws ≠ [] → vfsLookup s.files.fs f = .ok node →
    RegularFile s.files.fs node →
    FreshBlocks env.answers 0 maxWrites (s.files.fs.nodes node).data →
    executeCommand env s line = .ok t → t.screen = s.screen ++ [cstring "Written.\n"] →
    RoundTrips t f node ws := by
  intro claim
  have console : ConsoleLine (cstring "write /log a b c d e f g") := by
    unfold ConsoleLine
    decide +kernel
  have command : words (cstring "write /log a b c d e f g") = cstring "write" :: cstring "/log" ::
      ["a", "b", "c", "d", "e", "f", "g"].map cstring := by decide +kernel
  obtain ⟨t, done, success⟩ := oneFile_reports console command (by decide)
  obtain ⟨found, file⟩ := oneFileShell_file
  obtain ⟨fresh, -⟩ := manyBlocks_fresh
  have back := claim _ _ _ _ _ _ _ console command (by decide) found file fresh done success
  have written := write_overwrites console command found file fresh done success
  have held := (roundTrips_iff console command written).mp back
  rw [HeldTheRest] at held
  revert held
  decide +kernel

end ZynthexOS.RoundTrip
