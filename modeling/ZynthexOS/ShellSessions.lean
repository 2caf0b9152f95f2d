import ZynthexOS.Lib.Simulations
import ZynthexOS.RoundTrip
import ZynthexOS.ShellPaths

/-! Sessions of file commands in the shell. Descriptors, offsets, buffers and capacities are
not seen in them: a session is one with directories and with a text for each file. -/
namespace ZynthexOS.ShellSessions
open Lib Text Fs PathResolution RamfsCalls RamfsTree RamfsFile FdRefinement Chunking Shell ShellBuffers ShellPaths
open RoundTrip

/-! ## What is seen -/

/-- The file system without what its files hold. -/
def outline (s : FileSystem) : FileSystem :=
  { s with
    nodes := fun n => { s.nodes n with data := 0, size := 0, capacity := 0 }
    buffers := fun _ _ => 0 }

/-- The directories and names, the working directory, the text of each file, and the screen. -/
structure Desk where
  tree : FileSystem
  cwd : UInt32
  texts : UInt32 → List UInt8
  screen : List CString

def Desk.print (d : Desk) (text : String) : Desk := { d with screen := d.screen ++ [cstring text] }

/-- A command that only walks over the tree. -/
def Desk.walk (d : Desk) (command : ShellState → Except Fault ShellState) : Except Fault Desk := do
  let s ← command ⟨⟨d.tree, fun _ => ⟨false, 0, 0⟩⟩, d.cwd, d.screen⟩
  .ok { d with cwd := s.cwd, screen := s.screen }

/-- What is printed of a text: up to a NUL, and at most 255 bytes of it. -/
def shownText (text : List UInt8) : List CString := if text = [] then [] else [bufferString (text.take 255)]

def Desk.rd (d : Desk) (path : CString) : Except Fault Desk := do
  let node ← vfsLookup d.tree path
  if node = 0 then .ok (d.print "File not found\n")
  else .ok ({ d with screen := d.screen ++ shownText (d.texts node) }.print "\n")

/-- The words replace as much of the text as they are long. A directory only says that they do. -/
def Desk.write (d : Desk) (path : CString) (ws : List CString) : Except Fault Desk := do
  let node ← vfsLookup d.tree path
  if node = 0 then .ok (d.print "File not found\n")
  else if (d.tree.nodes node).flags &&& vfsDir ≠ 0 then .ok (d.print "Written.\n")
  else
    let text := textBytes (joined ws) ++ (d.texts node).drop (joined ws).length
    .ok ({ d with texts := Function.update d.texts node text }.print "Written.\n")

/-- A new file is empty. -/
def Desk.create (d : Desk) (child dir : UInt32) (name : CString) (message : String) : Desk :=
  if (d.tree.nodes dir).children.length ≥ 32 then d.print "Failed to create file\n"
  else
    { d with
      tree := withChild d.tree child dir name vfsFile
      texts := Function.update d.texts child [] }.print message

/-! ## Sessions -/

inductive FileCommand where
  | cd
  | ls
  | rd
  | write
  | mk
  | mkr
  deriving DecidableEq, Repr

/-- A command as it was typed, and what `kmalloc` answers. -/
structure Entry where
  command : FileCommand
  argv : List CString
  answers : Nat → Answer
  answer : UInt32
  typed : ∃ line, ConsoleLine line ∧ argv = (words line).take maxArgs

def Entry.run (e : Entry) (s : ShellState) : Except Fault ShellState :=
  match e.command with
  | .cd => cmdCd s e.argv
  | .ls => cmdLs s e.argv
  | .rd => cmdRd s e.argv
  | .write => cmdWrite s e.answers e.argv
  | .mk => cmdMk s e.answer e.argv
  | .mkr => cmdMkr s e.answer e.argv

/-- What the command does to what is seen. -/
def Entry.perform (e : Entry) (d : Desk) : Except Fault Desk :=
  match e.command, e.argv with
  | .cd, argv => d.walk fun s => cmdCd s argv
  | .ls, argv => d.walk fun s => cmdLs s argv
  | .rd, _ :: path :: _ => d.rd path
  | .rd, _ => .ok (d.print "Usage: rd <file>\n")
  | .write, _ :: path :: text :: rest => d.write path (text :: rest)
  | .write, _ => .ok (d.print "Usage: write <file> <text>\n")
  | .mk, _ :: path :: _ => .ok (d.create e.answer d.cwd path "File created\n")
  | .mk, _ => .ok (d.print "Usage: mk <file>\n")
  | .mkr, _ :: path :: _ => do
    let tmp ← vfsLookup d.tree (cstring "/tmp")
    if tmp = 0 then .ok (d.print "/tmp not found\n")
    else if (d.tree.nodes tmp).flags &&& vfsDir = 0 then .ok (d.print "/tmp is not a directory\n")
    else .ok (d.create e.answer tmp path "RAM file created\n")
  | .mkr, _ => .ok (d.print "Usage: mkr <file>\n")

/-- The shell and the nodes that there are. -/
structure Session where
  shell : ShellState
  nodes : List UInt32

def Session.fs (s : Session) : FileSystem := s.shell.files.fs

/-- The command reports a new file. -/
def Reports (s : ShellState) : Prop :=
  s.screen.getLast? = some (cstring "File created\n") ∨ s.screen.getLast? = some (cstring "RAM file created\n")

instance (s : ShellState) : Decidable (Reports s) := inferInstanceAs (Decidable (_ ∨ _))

/-- A command that returns. -/
def Step (s : Session) (e : Entry) (s' : Session) : Prop :=
  e.run s.shell = .ok s'.shell ∧
    s'.nodes = if (e.command = .mk ∨ e.command = .mkr) ∧ Reports s'.shell then e.answer :: s.nodes else s.nodes

/-- `kmalloc` has memory for what one command writes, and none of it is in use. -/
structure Unused (s : Session) (answers : Nat → Answer) : Prop where
  real : ∀ k < maxWrites, (answers k).address ≠ 0
  other : ∀ k < maxWrites, ∀ n ∈ s.nodes, (answers k).address ≠ (s.fs.nodes n).data
  apart : ∀ j k, j < k → k < maxWrites → (answers k).address ≠ (answers j).address

/-- A command gets the memory that it asks for. -/
structure Supplied (s : Session) (e : Entry) : Prop where
  node : e.command = .mk ∨ e.command = .mkr → e.answer ∉ s.nodes
  blocks : e.command = .write → Unused s e.answers

/-- The walks stay among the nodes, a file is as ramfs keeps it, and no two share a buffer. -/
structure Tidy (fs : FileSystem) (nodes : List UInt32) : Prop where
  real : ∀ n ∈ nodes, n ≠ 0
  root : fs.vfsRoot ∈ nodes
  mounts : ∀ mount ∈ fs.mounts, mount.2 ∈ nodes
  children : ∀ n ∈ nodes, ∀ c ∈ (fs.nodes n).children, c ∈ nodes
  files : ∀ n ∈ nodes, (fs.nodes n).flags &&& vfsDir = 0 → RegularFile fs n
  directories : ∀ n ∈ nodes, (fs.nodes n).flags &&& vfsDir ≠ 0 → (fs.nodes n).size = 0 ∧ (fs.nodes n).data = 0
  apart : ∀ n ∈ nodes, ∀ m ∈ nodes, (fs.nodes n).data ≠ 0 → (fs.nodes n).data = (fs.nodes m).data → n = m

/-- What every session keeps: no descriptor is in use between two commands. -/
structure Sound (s : Session) : Prop where
  tidy : Tidy s.fs s.nodes
  cwd : s.shell.cwd ∈ s.nodes
  closed : AllClosed s.shell.files

/-- This is what is seen of the shell. -/
structure Shows (s : Session) (d : Desk) : Prop where
  tree : d.tree = outline s.fs
  cwd : d.cwd = s.shell.cwd
  texts : ∀ n ∈ s.nodes, d.texts n = content s.fs n
  screen : d.screen = s.shell.screen

variable {s s' : Session} {d : Desk} {e : Entry} {fs fs' : FileSystem} {node n : UInt32}

/-! ## Walks -/

theorem outline_resolve (fs : FileSystem) (route : List CString) (n : UInt32) :
    resolveParts (outline fs) n route = resolveParts fs n route := by
  induction route generalizing n with
  | nil => rfl
  | cons part route ih =>
    simp only [resolveParts, opsLookup_eq, ih]
    rfl

theorem outline_lookup (fs : FileSystem) (path : CString) : vfsLookup (outline fs) path = vfsLookup fs path := by
  rw [vfsLookup_eq, vfsLookup_eq, outline_resolve]
  rfl

/-- A walk from a node comes to a node. -/
theorem Sound.resolve (sound : Sound s) (start : n ∈ s.nodes) (found : resolveParts s.fs n route = .ok node)
    (real : node ≠ 0) : node ∈ s.nodes := by
  induction route generalizing n with
  | nil =>
    cases found
    exact start
  | cons part route ih =>
    obtain ⟨-, -, found⟩ := bind_returns.mp found
    obtain ⟨child, entered, found⟩ := bind_returns.mp found
    split_ifs at found with missing
    · cases found
      exact absurd rfl real
    · rw [opsLookup_eq, if_neg (sound.tidy.real n start)] at entered
      have member : child ∈ (s.fs.nodes n).children := by
        cases here : (s.fs.nodes n).children.find? fun c => strcmp (s.fs.nodes c).name part = 0 with
        | none =>
          rw [here] at entered
          cases entered
          exact absurd rfl missing
        | some c =>
          rw [here] at entered
          cases entered
          exact List.mem_of_find?_eq_some here
      refine ih ?_ found
      rcases TreeWalks.vfsCheckMount_cases s.fs child with same | ⟨mount, entry, -, root⟩
      · rw [same]
        exact sound.tidy.children n start child member
      · rw [root]
        exact sound.tidy.mounts mount entry

theorem Sound.lookup (sound : Sound s) (found : vfsLookup s.fs path = .ok node) (real : node ≠ 0) :
    node ∈ s.nodes := by
  rw [vfsLookup_eq, if_neg (sound.tidy.real _ sound.tidy.root)] at found
  exact sound.resolve sound.tidy.root found real

theorem Sound.target (sound : Sound s) (found : shellTarget s.shell path = .ok node) (real : node ≠ 0) :
    node ∈ s.nodes := by
  unfold shellTarget at found
  split_ifs at found
  · exact sound.lookup found real
  · rw [pathResolve_eq] at found
    exact sound.resolve sound.cwd found real

/-- The shell on the outline of its files. -/
def Session.outlined (s : Session) : ShellState :=
  ⟨⟨outline s.fs, fun _ => ⟨false, 0, 0⟩⟩, s.shell.cwd, s.shell.screen⟩

theorem outlined_target (s : Session) (path : CString) :
    shellTarget s.outlined path = shellTarget s.shell path := by
  unfold shellTarget
  split_ifs
  · exact outline_lookup s.fs path
  · rw [pathResolve_eq, pathResolve_eq]
    exact outline_resolve s.fs _ _

/-- Another working directory and screen. -/
def Session.moved (s : Session) (cwd : UInt32) (screen : List CString) : Session :=
  { s with shell := { s.shell with cwd := cwd, screen := screen } }

/-- A command that only looks at the tree does the same on the outline. -/
def Looks (s : Session) (command : ShellState → Except Fault ShellState) : Prop :=
  ∀ t, command s.shell = .ok t → ∃ cwd screen, cwd ∈ s.nodes ∧ t = (s.moved cwd screen).shell ∧
    command s.outlined = .ok { s.outlined with cwd := cwd, screen := screen }

theorem cd_looks (sound : Sound s) (argv : List CString) : Looks s fun shell => cmdCd shell argv := by
  intro t done
  dsimp only at done ⊢
  unfold cmdCd at done ⊢
  split at done
  · obtain ⟨target, found, done⟩ := bind_returns.mp done
    have same : shellTarget s.outlined _ = .ok target := (outlined_target s _).trans found
    simp only [same]
    split_ifs at done with missing file
    · cases done
      exact ⟨s.shell.cwd, _, sound.cwd, rfl, if_pos missing⟩
    · cases done
      exact ⟨s.shell.cwd, _, sound.cwd, rfl, (if_neg missing).trans (if_pos file)⟩
    · cases done
      exact ⟨target, s.shell.screen, sound.target found missing, rfl, (if_neg missing).trans (if_neg file)⟩
  · cases done
    exact ⟨s.fs.vfsRoot, s.shell.screen, sound.tidy.root, rfl, rfl⟩

/-- What `ls` shows of a node. -/
def listed (s : ShellState) (dir : UInt32) : Except Fault ShellState :=
  if dir = 0 then .ok (s.print "Path not found\n")
  else if (s.files.fs.nodes dir).flags &&& vfsDir = 0 then .ok (s.print "Not a directory\n")
  else .ok (ramfsList s dir)

theorem cmdLs_eq (s : ShellState) (argv : List CString) : cmdLs s argv =
    (match argv with
      | _ :: path :: _ => shellTarget s path
      | _ => .ok s.cwd) >>= listed s := by
  cases argv with
  | nil => rfl
  | cons name argv => cases argv <;> rfl

theorem ls_looks (sound : Sound s) (argv : List CString) : Looks s fun shell => cmdLs shell argv := by
  intro t done
  dsimp only at done ⊢
  rw [cmdLs_eq] at done ⊢
  obtain ⟨dir, found, done⟩ := bind_returns.mp done
  have same : (match argv with
      | _ :: path :: _ => shellTarget s.outlined path
      | _ => .ok s.outlined.cwd) = .ok dir := by
    revert found
    split
    · exact fun found => (outlined_target s _).trans found
    · exact id
  rw [same]
  change ∃ cwd screen, _ ∧ _ ∧ listed s.outlined dir = _
  unfold listed at done ⊢
  refine ⟨s.shell.cwd, t.screen, sound.cwd, ?_, ?_⟩
  · split_ifs at done <;> cases done <;> rfl
  · split_ifs at done with missing file
    · cases done
      exact if_pos missing
    · cases done
      exact (if_neg missing).trans (if_pos file)
    · cases done
      exact (if_neg missing).trans (if_neg file)

/-! ## Commands that change no file -/

/-- The shell after a command that made no node. -/
def Session.after (s : Session) (t : ShellState) : Session := { s with shell := t }

variable {t : ShellState}

/-- The same files. -/
theorem Sound.same_fs (sound : Sound s) (fs : t.files.fs = s.fs) (cwd : t.cwd ∈ s.nodes)
    (closed : AllClosed t.files) : Sound (s.after t) where
  tidy := by
    have tidy := sound.tidy
    rwa [← fs] at tidy
  cwd := cwd
  closed := closed

theorem Shows.same_fs (shows : Shows s d) (fs : t.files.fs = s.fs) :
    Shows (s.after t) { d with cwd := t.cwd, screen := t.screen } where
  tree := shows.tree.trans (congrArg outline fs.symm)
  cwd := rfl
  texts n member := (shows.texts n member).trans (congrArg (content · n) fs.symm)
  screen := rfl

/-- A command that only prints. -/
theorem prints_step (t : ShellState) (printed : List CString) (sound : Sound s) (shows : Shows s d)
    (fs : t.files.fs = s.fs) (cwd : t.cwd = s.shell.cwd) (screen : t.screen = s.shell.screen ++ printed)
    (closed : AllClosed t.files) :
    Sound (s.after t) ∧ Shows (s.after t) { d with screen := d.screen ++ printed } := by
  refine ⟨sound.same_fs fs (cwd ▸ sound.cwd) closed, ?_⟩
  have shown := shows.same_fs fs
  rwa [cwd, screen, ← shows.cwd, ← shows.screen] at shown

/-- A command that only looks at the tree shows the same. -/
theorem walk_step (sound : Sound s) (shows : Shows s d) (looks : Looks s command) (done : command s.shell = .ok t) :
    ∃ d', d.walk command = .ok d' ∧ Sound (s.after t) ∧ Shows (s.after t) d' := by
  obtain ⟨cwd, screen, member, rfl, there⟩ := looks _ done
  have start : (⟨⟨d.tree, fun _ => ⟨false, 0, 0⟩⟩, d.cwd, d.screen⟩ : ShellState) = s.outlined := by
    rw [shows.tree, shows.cwd, shows.screen]
    rfl
  refine ⟨_, ?_, sound.same_fs rfl member sound.closed, shows.same_fs rfl⟩
  rw [Desk.walk, start, there]
  rfl

theorem advance_fs (s : Files) (fd : Nat) (n : Int) : (advance s fd n).fs = s.fs := by
  unfold advance
  dsimp only
  split <;> rfl

/-- How a command comes from a path to a descriptor at the start of its file. -/
theorem open_cases {files : Files} (closed : AllClosed files) (opened : sysOpen files path = .ok (files', fd)) :
    (vfsLookup files.fs path = .ok 0 ∧ files' = files ∧ fd < 0) ∨
    ∃ node, vfsLookup files.fs path = .ok node ∧ node ≠ 0 ∧ ¬ fd < 0 ∧ (sysSeek files' fd 0).1.fs = files.fs ∧
      (openFiles (sysSeek files' fd 0).1).files fd = some (node, 0) := by
  rcases (sysOpen_returns closed).mp opened with ⟨lookup, rfl, rfl⟩ | ⟨node, i, lookup, real, found, rfl, rfl⟩
  · exact .inl ⟨lookup, rfl, by decide⟩
  · have inside : i < maxFds := List.mem_range.mp (List.mem_of_find?_eq_some found)
    have isFd : IsFd (i : Int) := ⟨by omega, by omega⟩
    have held : (openFiles (files.setDesc i ⟨true, node, 0⟩)).files (i : Int) = some (node, 0) := by
      have stored := openFiles_setDesc files isFd ⟨true, node, 0⟩
      rw [Int.toNat_natCast] at stored
      rw [stored]
      exact if_pos rfl
    obtain ⟨good, -, -⟩ := good_of_held held
    have sought : (sysSeek (files.setDesc i ⟨true, node, 0⟩) i 0).1 =
        (files.setDesc i ⟨true, node, 0⟩).setDesc (i : Int).toNat
          { (files.setDesc i ⟨true, node, 0⟩).fdTable (i : Int).toNat with offset := 0 } := by
      rw [sysSeek, good]
      rfl
    refine .inr ⟨node, lookup, real, by omega, ?_, ?_⟩
    · rw [sought]
      rfl
    · rw [sought, openFiles_sought isFd (held_of_good good).2, Int.toNat_natCast]
      simp [OpenFiles.set, Files.setDesc]

/-- Reading from the start gives the first bytes of the text. -/
theorem read_text {files : Files} (sound : Sound s) (member : node ∈ s.nodes) (fs : files.fs = s.fs)
    (held : (openFiles files).files fd = some (node, 0)) :
    ∃ files', sysRead files fd 255 =
        .ok (files', ((content s.fs node).take 255).length, (content s.fs node).take 255) ∧
      files'.fs = s.fs := by
  obtain ⟨good, node', offset⟩ := good_of_held held
  have keeps {files' : Files} {n : Int} {bytes : List UInt8} (read : sysRead files fd 255 = .ok (files', n, bytes)) :
      files'.fs = s.fs := by
    rcases (sysRead_iff ..).mp read with ⟨-, rfl, -⟩ | ⟨-, -, rfl⟩
    · exact fs
    · exact (advance_fs ..).trans fs
  by_cases regular : (s.fs.nodes node).flags &&& vfsDir = 0
  · obtain ⟨fill, holds⟩ := holds_iff.mpr ⟨sound.tidy.files node member regular, rfl⟩
    have stands : Stands files fd node [] (content s.fs node) := ⟨held, fill, fs ▸ holds⟩
    have few : ((content s.fs node).take 255).length ≤ 255 := List.length_take_le ..
    have inside : (files.fdTable fd.toNat).offset.toNat + (255 : UInt32).toNat ≤ 2 ^ 32 - 1 := by
      rw [offset]
      decide
    obtain ⟨files', read, -⟩ := stands_read stands (by simp) inside (Nat.lt_of_le_of_lt few (by decide))
    have size : (255 : UInt32).toNat = 255 := rfl
    rw [size] at read
    exact ⟨files', read, keeps read⟩
  · have empty : (s.fs.nodes node).size = 0 := (sound.tidy.directories node member regular).1
    have none : content s.fs node = [] := by
      rw [content, empty]
      rfl
    have read : ramfsRead files.fs (files.fdTable fd.toNat).node (files.fdTable fd.toNat).offset 255 =
        .ok (0, []) := by
      rw [fs, node', offset, ramfsRead, empty]
      rfl
    have whole := (sysRead_iff ..).mpr (.inr ⟨good, read, rfl⟩)
    rw [none]
    exact ⟨_, whole, keeps whole⟩

/-- What `rd` prints. -/
theorem cmdRd_text (sound : Sound s) (done : cmdRd s.shell (name :: path :: rest) = .ok t) :
    ∃ node, vfsLookup s.fs path = .ok node ∧ (node ≠ 0 → node ∈ s.nodes) ∧ t.files.fs = s.fs ∧
      t.cwd = s.shell.cwd ∧ t.screen = s.shell.screen ++
        if node = 0 then [cstring "File not found\n"] else shownText (content s.fs node) ++ [cstring "\n"] := by
  obtain ⟨⟨files, fd⟩, opened, done⟩ := bind_returns.mp done
  dsimp only at done
  rcases open_cases sound.closed opened with ⟨missing, rfl, negative⟩ | ⟨node, lookup, real, positive, fs, held⟩
  · rw [if_pos negative] at done
    cases done
    exact ⟨0, missing, fun real => absurd rfl real, rfl, rfl, rfl⟩
  · obtain ⟨files', read, kept⟩ := read_text sound (sound.lookup lookup real) fs held
    rw [if_neg positive, read] at done
    cases done
    refine ⟨node, lookup, sound.lookup lookup, (sysClose_fs files' fd).trans kept, rfl, ?_⟩
    rw [if_neg real, ← List.append_assoc]
    have shown : (if (((content s.fs node).take 255).length : Int) > 0 then
        [bufferString ((content s.fs node).take 255)] else []) = shownText (content s.fs node) := by
      unfold shownText
      by_cases none : content s.fs node = []
      · simp [none]
      · have some := List.length_pos_iff.mpr none
        have more : (((content s.fs node).take 255).length : Int) > 0 := by
          rw [List.length_take]
          omega
        rw [if_pos more, if_neg none]
    exact congrArg (fun texts => s.shell.screen ++ texts ++ [cstring "\n"]) shown

theorem rd_step (sound : Sound s) (shows : Shows s d) (closed : AllClosed t.files)
    (done : cmdRd s.shell (name :: path :: rest) = .ok t) :
    ∃ d', d.rd path = .ok d' ∧ Sound (s.after t) ∧ Shows (s.after t) d' := by
  obtain ⟨node, found, member, fs, cwd, screen⟩ := cmdRd_text sound done
  have lookup : vfsLookup d.tree path = .ok node := by rw [shows.tree, outline_lookup, found]
  have after := prints_step _ _ sound shows fs cwd screen closed
  refine ⟨_, ?_, after⟩
  rw [Desk.rd, lookup]
  change (if node = 0 then _ else _) = _
  split_ifs with missing
  · rfl
  · rw [shows.texts node (member missing), Desk.print, List.append_assoc]

/-! ## Writing -/

theorem grown_buffers (fs : FileSystem) (answer : Answer) (node newCapacity : UInt32) (other : b ≠ answer.address) :
    (grown fs answer node newCapacity).buffers b = fs.buffers b := by
  have installed : (fs.install answer).buffers b = fs.buffers b := by
    unfold FileSystem.install
    split
    · rfl
    · exact if_neg other
  unfold grown
  dsimp only
  split
  · exact (if_neg other).trans installed
  · exact installed

theorem stored_buffers (fs : FileSystem) (node offset size : UInt32) (buffer : Nat → UInt8)
    (other : b ≠ (fs.nodes node).data) : (stored fs node offset size buffer).buffers b = fs.buffers b := by
  unfold stored
  dsimp only
  split <;> exact if_neg other

/-- A write touches the old and the new buffer of its node. -/
theorem ramfsWrite_buffers (returned : ramfsWrite fs answer node offset size buffer = .ok (fs', result))
    (old : b ≠ (fs.nodes node).data) (new : b ≠ answer.address) : fs'.buffers b = fs.buffers b := by
  obtain ⟨-, ⟨-, rfl, -⟩ | ⟨-, u, grows, -, rfl, -⟩⟩ := ramfsWrite_returns.mp returned
  · rfl
  · split_ifs at grows
    · obtain ⟨-, rfl⟩ := grows
      rw [stored_buffers _ _ _ _ _ (by rwa [(grown_wrote fs answer node (offset + size)).data])]
      exact grown_buffers _ _ _ _ new
    · rw [grows]
      exact stored_buffers _ _ _ _ _ old

/-- A write through a descriptor leaves it at the same node. -/
theorem sysWrite_held {files files' : Files} (held : (openFiles files).files fd = some (node, offset))
    (returned : sysWrite files answer fd buffer size = .ok (files', result)) :
    (∃ offset', (openFiles files').files fd = some (node, offset')) ∧
      ∃ fs', ramfsWrite files.fs answer node offset size buffer = .ok (fs', result) ∧ files'.fs = fs' := by
  obtain ⟨good, rfl, rfl⟩ := good_of_held held
  rcases (sysWrite_iff ..).mp returned with ⟨bad, -⟩ | ⟨-, fs', wrote, rfl⟩
  · rw [good] at bad
    cases bad
  · obtain ⟨isFd, entry⟩ := held_of_good good
    have table := openFiles_advance (s := { files with fs := fs' }) isFd entry result
    exact ⟨⟨_, by rw [table]; exact if_pos rfl⟩, fs', wrote, advance_fs ..⟩

/-- What the pieces of one command leave: the tree, and the buffers of all other files. -/
structure Overwrote (fs fs' : FileSystem) (node : UInt32) (blocks : UInt32 → Prop) : Prop where
  wrote : Wrote fs fs' node (fs'.nodes node).data
  data : (fs'.nodes node).data = (fs.nodes node).data ∨ blocks (fs'.nodes node).data
  buffers : ∀ b, b ≠ (fs.nodes node).data → ¬ blocks b → fs'.buffers b = fs.buffers b

theorem Overwrote.trans {first second : UInt32 → Prop} (one : Overwrote fs fs' node first)
    (two : Overwrote fs' fs'' node second) : Overwrote fs fs'' node fun b => first b ∨ second b where
  wrote := one.wrote.trans two.wrote
  data := by
    rcases two.data with same | new
    · rw [same]
      exact one.data.imp_right .inl
    · exact .inr (.inr new)
  buffers b old fresh := by
    refine (two.buffers b ?_ fun member => fresh (.inr member)).trans
      (one.buffers b old fun member => fresh (.inl member))
    rcases one.data with same | new
    · rwa [same]
    · rintro rfl
      exact fresh (.inl new)

/-- The blocks that `kmalloc` answers to some calls. -/
def answered (answers : Nat → Answer) (first count : Nat) (b : UInt32) : Prop :=
  ∃ k, first ≤ k ∧ k < first + count ∧ b = (answers k).address

theorem pieces_overwrote {files files' : Files} (held : (openFiles files).files fd = some (node, offset))
    (returned : writePieces answers fd i pieces files = .ok files') :
    Overwrote files.fs files'.fs node (answered answers i pieces.length) := by
  induction pieces generalizing i files offset with
  | nil =>
    cases returned
    exact ⟨wrote_self _ _, .inl rfl, fun _ _ _ => rfl⟩
  | cons piece pieces ih =>
    obtain ⟨⟨u, n⟩, writes, returned⟩ := bind_returns.mp returned
    obtain ⟨⟨offset', held'⟩, fs', wrote, same⟩ := sysWrite_held held writes
    obtain ⟨kept, data⟩ := sysWrite_wrote held writes
    have one : Overwrote files.fs u.fs node fun b => b = (answers i).address :=
      ⟨kept, data, fun b old new => by rw [same]; exact ramfsWrite_buffers wrote old new⟩
    have two := one.trans (ih held' returned)
    have covers : ∀ b, b = (answers i).address ∨ answered answers (i + 1) pieces.length b →
        answered answers i (piece :: pieces).length b := by
      rintro b (rfl | ⟨k, low, high, rfl⟩)
      · exact ⟨i, Nat.le_refl i, by simp, rfl⟩
      · exact ⟨k, by omega, by rw [List.length_cons]; omega, rfl⟩
    exact ⟨two.wrote, two.data.imp_right (covers _),
      fun b old new => two.buffers b old fun member => new (covers b member)⟩

/-- Nothing is written to a directory. -/
theorem pieces_directory {files files' : Files} (held : (openFiles files).files fd = some (node, offset))
    (directory : (files.fs.nodes node).flags &&& vfsDir ≠ 0)
    (returned : writePieces answers fd i pieces files = .ok files') : files'.fs = files.fs := by
  induction pieces generalizing i files offset with
  | nil =>
    cases returned
    rfl
  | cons piece pieces ih =>
    obtain ⟨⟨u, n⟩, writes, returned⟩ := bind_returns.mp returned
    obtain ⟨⟨offset', held'⟩, fs', wrote, same⟩ := sysWrite_held held writes
    obtain ⟨-, ⟨-, rfl, -⟩ | ⟨regular, -⟩⟩ := ramfsWrite_returns.mp wrote
    · exact (ih held' (by rwa [same]) returned).trans same
    · exact absurd regular directory

/-- A file that was written to is still one, and so are the others. -/
theorem tidy_overwrote {blocks : UInt32 → Prop} (tidy : Tidy fs nodes) (member : node ∈ nodes)
    (regular : (fs.nodes node).flags &&& vfsDir = 0) (changed : Overwrote fs fs' node blocks)
    (fresh : ∀ b, blocks b → ∀ n ∈ nodes, b ≠ (fs.nodes n).data) (file : RegularFile fs' node) :
    Tidy fs' nodes where
  real := tidy.real
  root := changed.wrote.vfsRoot ▸ tidy.root
  mounts := changed.wrote.mounts ▸ tidy.mounts
  children n inside := by
    rw [(wrote_keeps changed.wrote n).2.2.2]
    exact tidy.children n inside
  files n inside plain := by
    by_cases here : n = node
    · exact here ▸ file
    · rw [changed.wrote.others n here] at plain
      have old := tidy.files n inside plain
      have same := changed.wrote.others n here
      exact ⟨old.real, same ▸ old.regular, same ▸ old.capacity, same ▸ old.data⟩
  directories n inside directory := by
    have other : n ≠ node := by
      rintro rfl
      rw [changed.wrote.flags] at directory
      exact directory regular
    rw [changed.wrote.others n other] at directory ⊢
    exact tidy.directories n inside directory
  apart n inside m inside' some same := by
    have cross {k : UInt32} (here : k ∈ nodes) (other : k ≠ node) (some : (fs.nodes k).data ≠ 0)
        (same : (fs.nodes k).data = (fs'.nodes node).data) : False := by
      rcases changed.data with old | new
      · exact other (tidy.apart k here node member some (same.trans old))
      · exact fresh _ new k here same.symm
    by_cases here : n = node <;> by_cases there : m = node
    · rw [here, there]
    · rw [here] at same some
      rw [changed.wrote.others m there] at same
      exact (cross inside' there (same ▸ some) same.symm).elim
    · rw [there] at same
      rw [changed.wrote.others n here] at same some
      exact (cross inside here some same).elim
    · rw [changed.wrote.others n here] at same some
      rw [changed.wrote.others m there] at same
      exact tidy.apart n inside m inside' some same

/-- Nothing else is written over. -/
theorem content_overwrote {blocks : UInt32 → Prop} (tidy : Tidy fs nodes) (member : node ∈ nodes)
    (changed : Overwrote fs fs' node blocks) (fresh : ∀ b, blocks b → ∀ n ∈ nodes, b ≠ (fs.nodes n).data)
    (inside : n ∈ nodes) (other : n ≠ node) : content fs' n = content fs n := by
  rw [content, content, changed.wrote.others n other]
  by_cases none : (fs.nodes n).data = 0
  · have empty : (fs.nodes n).size = 0 := by
      by_cases regular : (fs.nodes n).flags &&& vfsDir = 0
      · exact (tidy.files n inside regular).data.mp none
      · exact (tidy.directories n inside regular).1
    rw [empty]
    rfl
  · have apart : (fs.nodes n).data ≠ (fs.nodes node).data :=
      fun same => other (tidy.apart n inside node member none same)
    rw [changed.buffers _ apart fun block => fresh _ block n inside rfl]

/-- A write is not seen in the outline. -/
theorem outline_wrote (wrote : Wrote fs fs' node data) : outline fs' = outline fs := by
  have nodes : (outline fs').nodes = (outline fs).nodes := by
    funext n
    obtain ⟨name, flags, parent, children⟩ := wrote_keeps wrote n
    exact (RamfsNode.mk.injEq ..).mpr ⟨name, flags, parent, rfl, rfl, rfl, children⟩
  unfold outline at nodes ⊢
  rw [FileSystem.mk.injEq]
  exact ⟨nodes, rfl, wrote.mounts, wrote.vfsRoot⟩

/-- What `write` does: nothing without the file, words that replace text in a file, and words that
are lost in a directory. -/
inductive Writes (s : Session) (path : CString) (ws : List CString) (t : ShellState) : Prop where
  | missing (lookup : vfsLookup s.fs path = .ok 0) (fs : t.files.fs = s.fs)
      (screen : t.screen = s.shell.screen ++ [cstring "File not found\n"])
  | directory {node : UInt32} (lookup : vfsLookup s.fs path = .ok node) (member : node ∈ s.nodes)
      (directory : (s.fs.nodes node).flags &&& vfsDir ≠ 0) (fs : t.files.fs = s.fs)
      (screen : t.screen = s.shell.screen ++ [cstring "Written.\n"])
  | file {node : UInt32} {blocks : UInt32 → Prop} (lookup : vfsLookup s.fs path = .ok node) (member : node ∈ s.nodes)
      (regular : (s.fs.nodes node).flags &&& vfsDir = 0) (changed : Overwrote s.fs t.files.fs node blocks)
      (fresh : ∀ b, blocks b → ∀ n ∈ s.nodes, b ≠ (s.fs.nodes n).data) (file : RegularFile t.files.fs node)
      (text : content t.files.fs node =
        textBytes (joined ws) ++ (content s.fs node).drop (joined ws).length)
      (screen : t.screen = s.shell.screen ++ [cstring "Written.\n"])

theorem cmdWrite_text (sound : Sound s) (unused : Unused s e.answers) (proper : ∀ w ∈ text :: rest, w ≠ [])
    (few : (text :: rest).length ≤ maxArgs - 2) (short : (joined (text :: rest)).length ≤ 255)
    (done : cmdWrite s.shell e.answers (name :: path :: text :: rest) = .ok t) :
    t.cwd = s.shell.cwd ∧ Writes s path (text :: rest) t := by
  obtain ⟨⟨files, fd⟩, opened, done⟩ := bind_returns.mp done
  dsimp only at done
  rcases open_cases sound.closed opened with ⟨missing, rfl, negative⟩ | ⟨node, lookup, real, positive, fs, held⟩
  · rw [if_pos negative] at done
    cases done
    exact ⟨rfl, .missing missing rfl rfl⟩
  · rw [if_neg positive] at done
    obtain ⟨files', writes, done⟩ := bind_returns.mp done
    cases done
    have member := sound.lookup lookup real
    have closed : (sysClose files' fd).fs = files'.fs := sysClose_fs files' fd
    rw [writeArguments_eq] at writes
    refine ⟨rfl, ?_⟩
    by_cases regular : (s.fs.nodes node).flags &&& vfsDir = 0
    · obtain ⟨fill, holds⟩ := holds_iff.mpr ⟨sound.tidy.files node member regular, rfl⟩
      have stands : Stands (sysSeek files fd 0).1 fd node [] (content s.fs node) := ⟨held, fill, fs ▸ holds⟩
      have blocks : FreshBlocks e.answers 0 maxWrites ((sysSeek files fd 0).1.fs.nodes node).data := by
        rw [fs]
        exact ⟨fun k _ below => unused.other k below node member, fun j k _ less below => unused.apart j k less below⟩
      obtain ⟨there, -⟩ := pieces_written stands (pieces_proper proper)
        (Nat.lt_of_le_of_lt ((Nat.zero_add _).trans_le short) (by decide)) blocks (pieces_few few) writes
      obtain ⟨file, text⟩ := holds_iff.mp there.file
      have changed := pieces_overwrote held writes
      rw [fs] at changed
      have room := pieces_few few
      refine .file lookup member regular (closed.symm ▸ changed) ?_ (closed.symm ▸ file) (closed.symm ▸ text) rfl
      rintro b ⟨k, -, below, rfl⟩ n inside
      exact unused.other k (by omega) n inside
    · have kept := pieces_directory held (by rwa [fs]) writes
      exact .directory lookup member regular ((closed.trans kept).trans fs) rfl

theorem write_step (sound : Sound s) (shows : Shows s d) (cwd : t.cwd = s.shell.cwd)
    (closed : AllClosed t.files) (writes : Writes s path ws t) :
    ∃ d', d.write path ws = .ok d' ∧ Sound (s.after t) ∧ Shows (s.after t) d' := by
  have lookups : vfsLookup d.tree path = vfsLookup s.fs path := by rw [shows.tree, outline_lookup]
  have flags : ∀ n, (d.tree.nodes n).flags = (s.fs.nodes n).flags := fun n => by rw [shows.tree]; rfl
  rw [Desk.write, lookups]
  cases writes with
  | missing lookup fs screen =>
    rw [lookup]
    exact ⟨_, rfl, prints_step _ _ sound shows fs cwd screen closed⟩
  | @directory node lookup member directory fs screen =>
    rw [lookup]
    refine ⟨_, ?_, prints_step _ _ sound shows fs cwd screen closed⟩
    exact (if_neg (sound.tidy.real node member)).trans (if_pos (by rwa [flags]))
  | @file node blocks lookup member regular changed fresh file text screen =>
    rw [lookup]
    have plain : ¬ (d.tree.nodes node).flags &&& vfsDir ≠ 0 := by
      rw [flags]
      exact not_not.mpr regular
    refine ⟨_, (if_neg (sound.tidy.real node member)).trans (if_neg plain), ?_, ?_⟩
    · exact ⟨tidy_overwrote sound.tidy member regular changed fresh file, cwd ▸ sound.cwd, closed⟩
    · refine ⟨?_, shows.cwd.trans cwd.symm, fun n inside => ?_, ?_⟩
      · exact shows.tree.trans (outline_wrote changed.wrote).symm
      · change (Function.update d.texts node _) n = content t.files.fs n
        by_cases here : n = node
        · subst here
          rw [Function.update_self, text, shows.texts n member]
        · rw [Function.update_of_ne here, content_overwrote sound.tidy member changed fresh inside here]
          exact shows.texts n inside
      · rw [Desk.print, shows.screen]
        exact screen.symm

/-! ## Creating -/

theorem withChild_child (fs : FileSystem) (name : CString) (other : child ≠ dir) :
    (withChild fs child dir name vfsFile).nodes child = createdNode dir name vfsFile :=
  (if_neg other).trans (if_pos rfl)

/-- A node that was there keeps its file, and a directory its children. -/
theorem withChild_old (fs : FileSystem) (dir : UInt32) (name : CString) (old : n ≠ child) :
    (withChild fs child dir name vfsFile).nodes n = { fs.nodes n with
      children := if n = dir then (fs.nodes n).children ++ [child] else (fs.nodes n).children } := by
  by_cases here : n = dir
  · subst here
    rw [if_pos rfl]
    exact if_pos rfl
  · rw [if_neg here]
    exact (if_neg here).trans (if_neg old)

theorem tidy_created (tidy : Tidy fs nodes) (member : dir ∈ nodes) (fresh : child ∉ nodes) (real : child ≠ 0)
    (name : CString) : Tidy (withChild fs child dir name vfsFile) (child :: nodes) := by
  have apart : child ≠ dir := fun same => fresh (same ▸ member)
  have other : ∀ n ∈ nodes, n ≠ child := fun n inside same => fresh (same ▸ inside)
  have made := withChild_child fs name apart
  have old := fun n inside => withChild_old fs dir name (other n inside)
  constructor
  case real => exact fun n inside => (List.mem_cons.mp inside).elim (fun same => same ▸ real) (tidy.real n)
  case root => exact List.mem_cons_of_mem _ tidy.root
  case mounts => exact fun mount entry => List.mem_cons_of_mem _ (tidy.mounts mount entry)
  case children =>
    intro n inside c below
    rcases List.mem_cons.mp inside with rfl | inside
    · rw [made] at below
      exact absurd below List.not_mem_nil
    · rw [old n inside] at below
      dsimp only at below
      split_ifs at below
      · rcases List.mem_append.mp below with below | new
        · exact List.mem_cons_of_mem _ (tidy.children n inside c below)
        · rw [List.mem_singleton.mp new]
          exact List.mem_cons_self
      · exact List.mem_cons_of_mem _ (tidy.children n inside c below)
  case files =>
    intro n inside regular
    rcases List.mem_cons.mp inside with rfl | inside
    · exact ⟨real, regular, by rw [made]; rfl, by rw [made]; exact iff_of_true rfl rfl⟩
    · have same := old n inside
      rw [same] at regular
      have file := tidy.files n inside regular
      exact ⟨file.real, same ▸ file.regular, same ▸ file.capacity, same ▸ file.data⟩
  case directories =>
    intro n inside directory
    rcases List.mem_cons.mp inside with rfl | inside
    · rw [made] at directory ⊢
      exact ⟨rfl, rfl⟩
    · rw [old n inside] at directory ⊢
      exact tidy.directories n inside directory
  case apart =>
    intro n inside m inside' some same
    rcases List.mem_cons.mp inside with rfl | inside
    · rw [made] at some
      exact absurd rfl some
    · rw [old n inside] at some same
      rcases List.mem_cons.mp inside' with rfl | inside'
      · rw [made] at same
        exact absurd same some
      · rw [old m inside'] at same
        exact tidy.apart n inside m inside' some same

theorem content_created (fs : FileSystem) (name : CString) (other : child ≠ dir) :
    content (withChild fs child dir name vfsFile) child = [] := by
  rw [content, withChild_child fs name other]
  rfl

theorem content_old (fs : FileSystem) (dir : UInt32) (name : CString) (old : n ≠ child) :
    content (withChild fs child dir name vfsFile) n = content fs n := by
  rw [content, withChild_old fs dir name old]
  rfl

theorem outline_withChild (fs : FileSystem) (child dir : UInt32) (name : CString) :
    outline (withChild fs child dir name vfsFile) = withChild (outline fs) child dir name vfsFile := by
  have nodes : (outline (withChild fs child dir name vfsFile)).nodes =
      (withChild (outline fs) child dir name vfsFile).nodes := by
    funext n
    unfold outline withChild
    dsimp only
    split_ifs <;> rfl
  unfold outline withChild at nodes ⊢
  rw [FileSystem.mk.injEq]
  exact ⟨nodes, rfl, rfl, rfl⟩

theorem reports_print (s : ShellState) (text : String) : Reports (s.print text) ↔
    cstring text = cstring "File created\n" ∨ cstring text = cstring "RAM file created\n" := by
  simp [Reports, ShellState.print]

/-- The nodes behind a command that may make one. -/
def nodesAfter (s : Session) (child : UInt32) (t : ShellState) : List UInt32 :=
  if Reports t then child :: s.nodes else s.nodes

/-- How `mk` and `mkr` end. -/
def createIn (s : ShellState) (child dir : UInt32) (name : CString) (message : String) : Except Fault ShellState := do
  let (fs, result) ← ramfsCreate s.files.fs child dir name vfsFile
  .ok (ShellState.print { s with files := { s.files with fs := fs } }
    (if result ≠ 0 then "Failed to create file\n" else message))

theorem create_step (sound : Sound s) (shows : Shows s d) (fresh : child ∉ s.nodes) (member : dir ∈ s.nodes)
    (reported : cstring message = cstring "File created\n" ∨ cstring message = cstring "RAM file created\n")
    (closed : AllClosed t.files) (done : createIn s.shell child dir name message = .ok t) :
    Sound ⟨t, nodesAfter s child t⟩ ∧ Shows ⟨t, nodesAfter s child t⟩ (d.create child dir name message) := by
  have apart : child ≠ dir := fun same => fresh (same ▸ member)
  have sizes : (d.tree.nodes dir).children = (s.fs.nodes dir).children := by rw [shows.tree]; rfl
  obtain ⟨⟨fs, result⟩, made, done⟩ := bind_returns.mp done
  obtain ⟨-, ⟨full, rfl, rfl⟩ | ⟨room, real, -, rfl, rfl⟩⟩ := (ramfsCreate_returns apart).mp made
  · cases done
    have none : ¬ Reports (s.shell.print "Failed to create file\n") := by
      rw [reports_print]
      decide +kernel
    have same : nodesAfter s child (s.shell.print "Failed to create file\n") = s.nodes := if_neg none
    have kept : d.create child dir name message = d.print "Failed to create file\n" := if_pos (sizes ▸ full)
    have after := prints_step (s.shell.print "Failed to create file\n") [_] sound shows rfl rfl rfl closed
    rw [kept]
    exact same.symm ▸ after
  · cases done
    have reports : Reports (ShellState.print { s.shell with files := { s.shell.files with
        fs := withChild s.fs child dir name vfsFile } } message) := (reports_print _ _).mpr reported
    have grown : nodesAfter s child (ShellState.print { s.shell with files := { s.shell.files with
        fs := withChild s.fs child dir name vfsFile } } message) = child :: s.nodes := if_pos reports
    have free : ¬ (d.tree.nodes dir).children.length ≥ 32 := by rw [sizes]; exact Nat.not_le_of_lt room
    have seen : d.create child dir name message = Desk.print { d with
        tree := withChild d.tree child dir name vfsFile
        texts := Function.update d.texts child [] } message := if_neg free
    rw [seen]
    refine ⟨⟨grown.symm ▸ tidy_created sound.tidy member fresh real name,
      grown.symm ▸ List.mem_cons_of_mem _ sound.cwd, closed⟩, ?_, shows.cwd, fun n inside => ?_, ?_⟩
    · change withChild d.tree child dir name vfsFile = outline (withChild s.fs child dir name vfsFile)
      rw [outline_withChild, shows.tree]
    · have member' : n ∈ child :: s.nodes := grown ▸ inside
      change (Function.update d.texts child []) n = content (withChild s.fs child dir name vfsFile) n
      by_cases here : n = child
      · subst here
        rw [Function.update_self, content_created s.fs name apart]
      · rw [Function.update_of_ne here, content_old s.fs dir name here]
        exact shows.texts n ((List.mem_cons.mp member').resolve_left here)
    · exact congrArg (· ++ [cstring message]) shows.screen

/-! ## Sessions -/

/-- The words behind the path as they were typed. -/
theorem typed_words (typed : ∃ line, ConsoleLine line ∧ name :: path :: ws = (words line).take maxArgs) :
    (∀ w ∈ ws, w ≠ []) ∧ ws.length ≤ maxArgs - 2 ∧ (joined ws).length ≤ 255 := by
  obtain ⟨line, console, same⟩ := typed
  have front : ws.Sublist (words line) := by
    refine List.Sublist.trans ?_ (List.take_sublist maxArgs (words line))
    rw [← same]
    exact (List.sublist_cons_self path ws).trans (List.sublist_cons_self name _)
  have count := congrArg List.length same
  rw [List.length_take, List.length_cons, List.length_cons] at count
  refine ⟨fun w member => words_proper (front.subset member), by omega, ?_⟩
  exact Nat.le_trans (joined_sublist_le front) console

/-- A command that makes no node. -/
theorem Step.after (same : ¬ (e.command = .mk ∨ e.command = .mkr)) (step : Step s e s') : s' = s.after s'.shell := by
  obtain ⟨-, nodes⟩ := step
  rw [if_neg fun both => same both.1] at nodes
  obtain ⟨shell, _⟩ := s'
  cases nodes
  rfl

theorem Step.grown (new : e.command = .mk ∨ e.command = .mkr) (step : Step s e s') :
    s' = ⟨s'.shell, nodesAfter s e.answer s'.shell⟩ := by
  obtain ⟨-, nodes⟩ := step
  have same : s'.nodes = nodesAfter s e.answer s'.shell := by
    rw [nodes, nodesAfter]
    by_cases reports : Reports s'.shell
    · rw [if_pos ⟨new, reports⟩, if_pos reports]
    · rw [if_neg fun both => reports both.2, if_neg reports]
  rw [← same]

theorem closed_mkr (closed : AllClosed s.shell.files) (done : cmdMkr s.shell answer argv = .ok t) :
    AllClosed t.files := by
  unfold cmdMkr at done
  split at done
  · obtain ⟨tmp, -, done⟩ := bind_returns.mp done
    split_ifs at done
    · cases done
      exact closed
    · cases done
      exact closed
    · obtain ⟨made, -, done⟩ := bind_returns.mp done
      cases done
      exact closed
  · cases done
    exact closed

/-- A message of `mk` or `mkr` that tells of no new node. -/
theorem quiet_step (text : String) (sound : Sound s) (shows : Shows s d)
    (other : ¬ (cstring text = cstring "File created\n" ∨ cstring text = cstring "RAM file created\n")) :
    Sound ⟨s.shell.print text, nodesAfter s child (s.shell.print text)⟩ ∧
      Shows ⟨s.shell.print text, nodesAfter s child (s.shell.print text)⟩ (d.print text) := by
  have same : nodesAfter s child (s.shell.print text) = s.nodes := if_neg ((reports_print _ _).not.mpr other)
  rw [same]
  exact prints_step (s.shell.print text) [cstring text] sound shows rfl rfl rfl sound.closed

theorem mk_step (sound : Sound s) (shows : Shows s d) (fresh : e.answer ∉ s.nodes) (mk : e.command = .mk)
    (done : cmdMk s.shell e.answer e.argv = .ok t) :
    ∃ d', e.perform d = .ok d' ∧ Sound ⟨t, nodesAfter s e.answer t⟩ ∧ Shows ⟨t, nodesAfter s e.answer t⟩ d' := by
  have ran : runCommand s.shell (.mk e.answer e.argv) = .ok t := done
  have closed := allClosed_run sound.closed ran
  obtain ⟨command, argv, answers, answer, typed⟩ := e
  cases mk
  dsimp only at fresh done
  match argv, done with
  | _ :: path :: _, done =>
    rw [cmdMk, if_neg (sound.tidy.real _ sound.cwd)] at done
    have step := create_step sound shows fresh sound.cwd (.inl rfl) closed done
    rw [← shows.cwd] at step
    exact ⟨_, rfl, step⟩
  | [_], done | [], done =>
    cases done
    exact ⟨_, rfl, quiet_step _ sound shows (by decide +kernel)⟩

theorem mkr_step (sound : Sound s) (shows : Shows s d) (fresh : e.answer ∉ s.nodes) (mkr : e.command = .mkr)
    (done : cmdMkr s.shell e.answer e.argv = .ok t) :
    ∃ d', e.perform d = .ok d' ∧ Sound ⟨t, nodesAfter s e.answer t⟩ ∧ Shows ⟨t, nodesAfter s e.answer t⟩ d' := by
  have closed := closed_mkr sound.closed done
  obtain ⟨command, argv, answers, answer, typed⟩ := e
  cases mkr
  dsimp only at fresh done
  match argv, done with
  | _ :: path :: _, done =>
    obtain ⟨tmp, found, done⟩ := bind_returns.mp done
    have lookup : vfsLookup d.tree (cstring "/tmp") = .ok tmp := by rw [shows.tree, outline_lookup]; exact found
    have flags : (d.tree.nodes tmp).flags = (s.fs.nodes tmp).flags := by rw [shows.tree]; rfl
    rw [Entry.perform, lookup]
    split_ifs at done with missing file
    · cases done
      exact ⟨_, if_pos missing, quiet_step _ sound shows (by decide +kernel)⟩
    · cases done
      exact ⟨_, (if_neg missing).trans (if_pos (flags ▸ file)), quiet_step _ sound shows (by decide +kernel)⟩
    · have member := sound.lookup found missing
      exact ⟨_, (if_neg missing).trans (if_neg (flags ▸ file)),
        create_step sound shows fresh member (.inr rfl) closed done⟩
  | [_], done | [], done =>
    cases done
    exact ⟨_, rfl, quiet_step _ sound shows (by decide +kernel)⟩

/-- One command. -/
theorem entry_step (sound : Sound s) (shows : Shows s d) (supplied : Supplied s e) (step : Step s e s') :
    ∃ d', e.perform d = .ok d' ∧ Sound s' ∧ Shows s' d' := by
  have done := step.1
  unfold Entry.run at done
  cases command : e.command with
  | cd =>
    rw [command] at done
    rw [step.after (by simp [command])]
    have perform : e.perform d = d.walk fun shell => cmdCd shell e.argv := by rw [Entry.perform, command]
    rw [perform]
    exact walk_step sound shows (cd_looks sound e.argv) done
  | ls =>
    rw [command] at done
    rw [step.after (by simp [command])]
    have perform : e.perform d = d.walk fun shell => cmdLs shell e.argv := by rw [Entry.perform, command]
    rw [perform]
    exact walk_step sound shows (ls_looks sound e.argv) done
  | rd =>
    rw [command] at done
    rw [step.after (by simp [command])]
    have ran : runCommand s.shell (.rd e.argv) = .ok s'.shell := done
    have closed := allClosed_run sound.closed ran
    rw [Entry.perform, command]
    match e.argv, done with
    | name :: path :: rest, done => exact rd_step sound shows closed done
    | [_], done | [], done =>
      have printed : s'.shell = s.shell.print "Usage: rd <file>\n" := (Except.ok.inj done).symm
      rw [printed]
      exact ⟨_, rfl, prints_step (s.shell.print _) [_] sound shows rfl rfl rfl sound.closed⟩
  | write =>
    rw [command] at done
    rw [step.after (by simp [command])]
    have ran : runCommand s.shell (.write e.answers e.argv) = .ok s'.shell := done
    have closed := allClosed_run sound.closed ran
    have typed := e.typed
    rw [Entry.perform, command]
    match e.argv, typed, done with
    | name :: path :: text :: rest, typed, done =>
      obtain ⟨proper, few, short⟩ := typed_words typed
      obtain ⟨cwd, writes⟩ := cmdWrite_text sound (supplied.blocks command) proper few short done
      exact write_step sound shows cwd closed writes
    | [_, _], _, done | [_], _, done | [], _, done =>
      have printed : s'.shell = s.shell.print "Usage: write <file> <text>\n" := (Except.ok.inj done).symm
      rw [printed]
      exact ⟨_, rfl, prints_step (s.shell.print _) [_] sound shows rfl rfl rfl sound.closed⟩
  | mk =>
    rw [command] at done
    rw [step.grown (.inl command)]
    exact mk_step sound shows (supplied.node (.inl command)) command done
  | mkr =>
    rw [command] at done
    rw [step.grown (.inr command)]
    exact mkr_step sound shows (supplied.node (.inr command)) command done

/-- A session of commands as it is seen. -/
def DeskStep (d : Desk) (e : Entry) (d' : Desk) : Prop := e.perform d = .ok d'

theorem session_simulated : Simulation (fun s d => Sound s ∧ Shows s d) some id (Guarded Supplied Step) DeskStep := by
  rintro s d e s' ⟨sound, shows⟩ ⟨supplied, step⟩
  obtain ⟨d', performed, after⟩ := entry_step sound shows supplied step
  exact ⟨[e], d', .cons performed .nil, rfl, after⟩

/-- In every session of file commands that return, from any tree of files, the screen and the
directories are those of a machine that has a text for each file and nothing else: `rd` prints what
the writes so far have left, under whatever path the file was written. -/
theorem session_refines (sound : Sound s) (shows : Shows s d) (session : Run (Guarded Supplied Step) s entries s') :
    ∃ d', Run DeskStep d entries d' ∧ Sound s' ∧ Shows s' d' := by
  obtain ⟨others, d', run, same, after⟩ := session_simulated.run ⟨sound, shows⟩ session
  rw [List.map_id, List.filterMap_some] at same
  exact ⟨d', same ▸ run, after⟩

/-- The shell with one empty file and what is seen of it. -/
def oneFileSession : Session := ⟨oneFileShell, [0x100, 0x200]⟩

def oneFileDesk : Desk := ⟨outline oneFileSession.fs, 0x100, fun _ => [], []⟩

/-- `write /log hello world` and `rd /log`. -/
def writeLog : Entry where
  command := .write
  argv := [cstring "write", cstring "/log", cstring "hello", cstring "world"]
  answers := manyBlocks.answers
  answer := 0
  typed := ⟨cstring "write /log hello world", by unfold ConsoleLine; decide +kernel, by decide +kernel⟩

def rdLog : Entry where
  command := .rd
  argv := [cstring "rd", cstring "/log"]
  answers := manyBlocks.answers
  answer := 0
  typed := ⟨cstring "rd /log", by unfold ConsoleLine; decide +kernel, by decide +kernel⟩

theorem oneFileSession_nodes (inside : n ∈ oneFileSession.nodes) : n = 0x100 ∨ n = 0x200 := by
  rcases List.mem_cons.mp inside with same | inside
  · exact .inl same
  · exact .inr (List.mem_singleton.mp inside)

/-- Neither of the two nodes has a buffer. -/
theorem oneFileSession_data (inside : n ∈ oneFileSession.nodes) : (oneFileSession.fs.nodes n).data = 0 := by
  rcases oneFileSession_nodes inside with rfl | rfl <;> rfl

theorem oneFileSession_children (inside : n ∈ oneFileSession.nodes) :
    ∀ c ∈ (oneFileSession.fs.nodes n).children, c ∈ oneFileSession.nodes := by
  rcases oneFileSession_nodes inside with rfl | rfl
  · intro c child
    rw [List.mem_singleton.mp child]
    exact List.mem_cons_of_mem _ List.mem_cons_self
  · exact List.forall_mem_nil _

theorem oneFileSession_sound : Sound oneFileSession where
  tidy := {
    real := fun n inside => by rcases oneFileSession_nodes inside with rfl | rfl <;> decide
    root := List.mem_cons_self
    mounts := List.forall_mem_nil _
    children := fun n => oneFileSession_children
    files := fun n inside regular => by
      rcases oneFileSession_nodes inside with rfl | rfl
      · exact absurd regular (by decide)
      · exact oneFileShell_file.2
    directories := fun n inside _ => by
      refine ⟨?_, oneFileSession_data inside⟩
      rcases oneFileSession_nodes inside with rfl | rfl <;> rfl
    apart := fun n inside m _ some => absurd (oneFileSession_data inside) some }
  cwd := List.mem_cons_self
  closed := fun _ _ => rfl

theorem oneFileSession_shows : Shows oneFileSession oneFileDesk where
  tree := rfl
  cwd := rfl
  texts := fun n inside => by rcases oneFileSession_nodes inside with rfl | rfl <;> rfl
  screen := rfl

/-- A text that is written and read. -/
theorem session_refines_log : ∃ s' d', Run DeskStep oneFileDesk [writeLog, rdLog] d' ∧ Sound s' ∧ Shows s' d' := by
  obtain ⟨found, file⟩ := oneFileShell_file
  obtain ⟨fresh, real⟩ := manyBlocks_fresh
  have isFd : IsFd 0 := by decide
  have proper : ∀ w ∈ [cstring "hello", cstring "world"], w ≠ [] := by decide +kernel
  have short : (joined [cstring "hello", cstring "world"]).length = 11 := by decide +kernel
  obtain ⟨t, wrote, screen⟩ := cmdWrite_reports (cstring "write") found file isFd rfl fresh real proper
    (by decide) (by decide) (by omega)
  obtain ⟨-, file', text, found', fd, isFd', free⟩ := cmdWrite_writes found file fresh proper (by decide) (by omega)
    wrote screen
  have some : content t.files.fs 0x200 ≠ [] := by
    intro none
    rw [none] at text
    have length := congrArg List.length text
    rw [List.length_append, length_textBytes, short, List.length_nil] at length
    omega
  obtain ⟨u, read, -⟩ := RoundTrip.cmdRd_prints (cstring "rd") found' file' some isFd' free
  have blocks : Unused oneFileSession writeLog.answers := by
    refine ⟨fun k _ => real k, fun k _ n inside => ?_,
      fun j k less below => fresh.apart j k (Nat.zero_le j) less below⟩
    rw [oneFileSession_data inside]
    exact real k
  have first : Guarded Supplied Step oneFileSession writeLog ⟨t, [0x100, 0x200]⟩ :=
    ⟨⟨by decide, fun _ => blocks⟩, wrote, rfl⟩
  have second : Guarded Supplied Step ⟨t, [0x100, 0x200]⟩ rdLog ⟨u, [0x100, 0x200]⟩ :=
    ⟨⟨fun new => absurd new (by decide), nofun⟩, read, rfl⟩
  obtain ⟨d', run, after⟩ :=
    session_refines oneFileSession_sound oneFileSession_shows (.cons first (.cons second .nil))
  exact ⟨_, d', run, after⟩

end ZynthexOS.ShellSessions
