import ZynthexOS.PathResolution

/-! Which calls store behind the end of an array: a path with a component that the
`part` buffer does not hold, a name that a node does not hold, and a mount more
than `MAX_MOUNTS`. The children of a directory are the one table that is checked. -/
namespace ZynthexOS.TableBounds
open Text Fs PathResolution

/-- A call on the file system; `create` carries what `kmalloc` answers. -/
inductive FsCall where
  | lookup (path : CString)
  | resolve (start : UInt32) (path : CString)
  | mount (path : CString) (fsRoot : UInt32)
  | create (answer parent : UInt32) (name : CString) (flags : UInt32)

/-- The state after a call, if it returns. -/
def FsCall.run (s : FileSystem) : FsCall → Except Fault FileSystem
  | .lookup path => (vfsLookup s path).map fun _ => s
  | .resolve start path => (pathResolve s start path).map fun _ => s
  | .mount path fsRoot => vfsMount s path fsRoot
  | .create answer parent name flags => (ramfsCreate s answer parent name flags).map Prod.fst

/-- A sequence of calls, up to the first that does not return. -/
def runCalls (s : FileSystem) : List FsCall → Except Fault FileSystem
  | [] => .ok s
  | call :: calls => do runCalls (← call.run s) calls

/-- Every store into one of the tables has an index inside it. -/
def InBounds (outcome : Except Fault α) : Prop :=
  ∀ table index, outcome ≠ .error (.overrun table index)

/-- Every component that the walk comes to has at most 63 bytes. -/
def Fits (s : FileSystem) : UInt32 → List CString → Prop
  | _, [] => True
  | node, part :: route => part.length ≤ 63 ∧
    ∀ found, Enters s node part found → Fits s (vfsCheckMount s found) route

/-- What the tables hold: of a path the components that the walk comes to, of a new
node the name, and one more mount. -/
def Holds (s : FileSystem) : FsCall → Prop
  | .lookup path => s.vfsRoot ≠ 0 → Fits s s.vfsRoot (parts path)
  | .resolve start path => Fits s start (parts path)
  | .mount path _ => (s.vfsRoot ≠ 0 → Fits s s.vfsRoot (parts path)) ∧
    ∀ mp, vfsLookup s path = .ok mp → mp ≠ 0 → s.mounts.length < maxMounts
  | .create answer parent name _ => parent ≠ 0 → (s.nodes parent).children.length < 32 →
    answer ≠ 0 → name.length ≤ 63

/-- Every call of the sequence, as far as it gets. -/
def EveryCall (property : FileSystem → FsCall → Prop) : FileSystem → List FsCall → Prop
  | _, [] => True
  | s, call :: calls => property s call ∧ ∀ s', call.run s = .ok s' → EveryCall property s' calls

theorem inBounds_ok (a : α) : InBounds (.ok a) := fun _ _ => by simp

theorem inBounds_map (f : α → β) (outcome : Except Fault α) :
    InBounds (outcome.map f) ↔ InBounds outcome := by
  cases outcome with
  | ok a => exact iff_of_true (inBounds_ok _) (inBounds_ok _)
  | error fault => simp [InBounds, Except.map]

/-- A call in two steps is in bounds if both are. -/
theorem inBounds_bind (outcome : Except Fault α) (next : α → Except Fault β) :
    InBounds (outcome >>= next) ↔ InBounds outcome ∧ ∀ a, outcome = .ok a → InBounds (next a) := by
  cases outcome with
  | ok a =>
    have same : (Except.ok a >>= next) = next a := rfl
    rw [same]
    exact ⟨fun bounds => ⟨inBounds_ok a, by rintro b ⟨⟩; exact bounds⟩, fun both => both.2 a rfl⟩
  | error fault =>
    have same : (Except.error fault >>= next) = Except.error fault := rfl
    rw [same]
    exact ⟨fun bounds => ⟨fun t i here => bounds t i (by cases here; rfl), by rintro a ⟨⟩⟩,
      fun both t i here => both.1 t i (by cases here; rfl)⟩

theorem inBounds_storeBelow (table : Table) (count : Nat) :
    InBounds (storeBelow table count) ↔ count ≤ table.size := by
  unfold storeBelow
  by_cases below : count ≤ table.size
  · rw [if_pos below]
    exact iff_of_true (inBounds_ok _) below
  · rw [if_neg below]
    exact iff_of_false (fun bounds => bounds _ _ rfl) below

theorem inBounds_opsLookup (s : FileSystem) (node : UInt32) (name : CString) :
    InBounds (opsLookup s node name) := by
  rw [opsLookup_eq]
  split
  · exact fun _ _ => by simp
  · exact inBounds_ok _

theorem inBounds_resolveParts (s : FileSystem) (node : UInt32) (route : List CString) :
    InBounds (resolveParts s node route) ↔ Fits s node route := by
  induction route generalizing node with
  | nil => exact iff_of_true (inBounds_ok _) trivial
  | cons part route ih =>
    have size : part.length + 1 ≤ Table.part.size ↔ part.length ≤ 63 := Nat.succ_le_succ_iff
    by_cases entered : ∃ found, Enters s node part found
    · obtain ⟨found, enters⟩ := entered
      rw [resolveParts_enters enters, ih]
      constructor
      · intro fits
        refine ⟨enters.1, fun other enters' => ?_⟩
        cases enters.2.1.symm.trans enters'.2.1
        exact fits
      · exact fun fits => fits.2 found enters
    · rw [resolveParts_stuck (not_exists.mp entered), inBounds_bind, inBounds_storeBelow, size]
      have none : ∀ found, ¬ Enters s node part found := not_exists.mp entered
      exact ⟨fun bounds => ⟨bounds.1, fun found enters => absurd enters (none found)⟩,
        fun fits => ⟨fits.1, fun _ _ => inBounds_opsLookup s node part⟩⟩

theorem inBounds_vfsLookup (s : FileSystem) (path : CString) :
    InBounds (vfsLookup s path) ↔ (s.vfsRoot ≠ 0 → Fits s s.vfsRoot (parts path)) := by
  rw [vfsLookup_eq]
  by_cases null : s.vfsRoot = 0
  · rw [if_pos null]
    exact iff_of_true (inBounds_ok _) fun root => absurd null root
  · rw [if_neg null, inBounds_resolveParts]
    exact ⟨fun fits _ => fits, fun fits => fits null⟩

theorem inBounds_vfsMount (s : FileSystem) (path : CString) (fsRoot : UInt32) :
    InBounds (vfsMount s path fsRoot) ↔ Holds s (.mount path fsRoot) := by
  rw [vfsMount, inBounds_bind, inBounds_vfsLookup]
  refine and_congr_right fun _ => forall_congr' fun mp => forall_congr' fun _ => ?_
  by_cases null : mp = 0
  · rw [if_pos null]
    exact iff_of_true (fun _ _ => by simp) fun real => absurd null real
  · have size : s.mounts.length + 1 ≤ Table.mounts.size ↔ s.mounts.length < maxMounts := Iff.rfl
    rw [if_neg null, inBounds_bind, inBounds_storeBelow, size]
    exact ⟨fun bounds _ => bounds.1, fun room => ⟨room null, fun _ _ => inBounds_ok _⟩⟩

/-- The children of a directory are checked: the store of a new child is always in
bounds. -/
theorem inBounds_appendChild (s : FileSystem) (parent child : UInt32)
    (room : (s.nodes parent).children.length < 32) : InBounds (appendChild s parent child) := by
  rw [appendChild, inBounds_bind, inBounds_storeBelow]
  exact ⟨room, fun _ _ => inBounds_ok _⟩

theorem inBounds_ramfsCreate (s : FileSystem) (answer parent : UInt32) (name : CString)
    (flags : UInt32) :
    InBounds (ramfsCreate s answer parent name flags) ↔ Holds s (.create answer parent name flags) := by
  unfold ramfsCreate Holds
  split_ifs with noParent full noMemory
  · exact iff_of_true (fun _ _ => by simp) fun real => absurd noParent real
  · exact iff_of_true (inBounds_ok _) fun _ room => absurd full (Nat.not_le_of_lt room)
  · exact iff_of_true (fun _ _ => by simp) fun _ _ memory => absurd noMemory memory
  · have size : strlen name + 1 ≤ Table.name.size ↔ name.length ≤ 63 := Nat.succ_le_succ_iff
    rw [inBounds_bind, inBounds_storeBelow, size]
    refine ⟨fun bounds _ _ _ => bounds.1, fun fits => ⟨fits noParent (by omega) noMemory, fun _ _ => ?_⟩⟩
    rw [inBounds_bind]
    refine ⟨inBounds_appendChild _ _ _ ?_, fun _ _ => inBounds_ok _⟩
    by_cases self : parent = answer
    · simp [FileSystem.setNode, self, createdNode, clearedNode]
    · simp only [FileSystem.setNode, self, if_false]
      omega

theorem inBounds_call (s : FileSystem) (call : FsCall) : InBounds (call.run s) ↔ Holds s call := by
  cases call with
  | lookup path => exact (inBounds_map _ _).trans (inBounds_vfsLookup s path)
  | resolve start path =>
    apply (inBounds_map _ _).trans
    rw [pathResolve_eq]
    exact inBounds_resolveParts s start (parts path)
  | mount path fsRoot => exact inBounds_vfsMount s path fsRoot
  | create answer parent name flags =>
    exact (inBounds_map _ _).trans (inBounds_ramfsCreate s answer parent name flags)

/-- A sequence of calls stays inside the tables exactly if each call of it finds
its names and its mount held. -/
theorem tables_in_bounds (s : FileSystem) (calls : List FsCall) :
    InBounds (runCalls s calls) ↔ EveryCall Holds s calls := by
  induction calls generalizing s with
  | nil => exact iff_of_true (inBounds_ok _) trivial
  | cons call calls ih =>
    rw [runCalls, inBounds_bind, inBounds_call]
    exact and_congr_right fun _ => forall_congr' fun s' => forall_congr' fun _ => ih s'

/-- A name of 64 bytes: its NUL is stored behind the end of `name`. -/
theorem long_name_overruns : ¬ ∀ s calls, InBounds (runCalls s calls) := by
  intro claim
  let s : FileSystem := ⟨fun _ => clearedNode, fun _ _ => 0, [], 0x100⟩
  have overrun : runCalls s [.create 0x200 0x100 (List.replicate 64 space) vfsFile] =
      .error (.overrun .name 64) := rfl
  exact claim _ _ _ _ overrun

end ZynthexOS.TableBounds
