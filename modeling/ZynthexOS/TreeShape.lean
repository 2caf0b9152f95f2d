import ZynthexOS.RamfsTree

/-! The shape that lookups rely on: only directories have children and siblings have
different names. `ramfs_create` checks the room in the directory only, so the
shape is kept exactly by the calls whose caller has checked the rest. -/
namespace ZynthexOS.TreeShape
open Lib Text Fs RamfsCalls RamfsTree

def childNames (s : FileSystem) (n : UInt32) : List CString :=
  (s.nodes n).children.map fun child => (s.nodes child).name

/-- The tree invariant. -/
structure TreeOk (s : RamState) : Prop where
  directories : ∀ n ∈ s.nodes, (s.fs.nodes n).children ≠ [] → (s.fs.nodes n).flags &&& vfsDir ≠ 0
  names : ∀ n ∈ s.nodes, (childNames s.fs n).Nodup
  parents : ∀ n ∈ s.nodes, ∀ c ∈ (s.fs.nodes n).children, (s.fs.nodes c).parent = n
  room : ∀ n ∈ s.nodes, (s.fs.nodes n).children.length ≤ 32

/-- Nothing is created because the directory is full, or the parent is a directory
and the name fits and is new in it. -/
def CreateOk (s : RamState) : RamCall → Prop
  | .create _ parent name _ => 32 ≤ (s.fs.nodes parent).children.length ∨
    ((s.fs.nodes parent).flags &&& vfsDir ≠ 0 ∧ name.length ≤ 63 ∧ name ∉ childNames s.fs parent)
  | _ => True

/-- The names in a directory after a node was made. -/
theorem made_names (linked : Linked s) (made : Made s s' node parent name flags)
    (member : n ∈ s.nodes) : childNames s'.fs n =
      if n = parent then childNames s.fs n ++ [name] else childNames s.fs n := by
  have old : (s.fs.nodes n).children.map (fun child => (s'.fs.nodes child).name) =
      childNames s.fs n := by
    refine List.map_congr_left fun child below => ?_
    exact (made_keeps made (linked.children n member child below).1).1
  have new : (s'.fs.nodes node).name = name := by rw [made.made]; rfl
  unfold childNames at old ⊢
  rw [(made_keeps made member).2.2.2.2]
  split
  · rw [List.map_append, old, List.map_singleton, new]
  · exact old

theorem treeOk_made (linked : Linked s) (linked' : Linked s') (shape : TreeOk s)
    (made : Made s s' node parent name flags)
    (checked : parent ∈ s.nodes → (s.fs.nodes parent).flags &&& vfsDir ≠ 0 ∧
      name ∉ childNames s.fs parent) : TreeOk s' := by
  have empty : (s'.fs.nodes node).children = [] := by rw [made.made]; rfl
  refine ⟨?_, ?_, fun n member c child => (linked'.children n member c child).2, linked'.room⟩
  · intro n member some
    rcases made.mem_nodes.mp member with rfl | member
    · exact absurd empty some
    · rw [(made_keeps made member).2.1]
      rw [(made_keeps made member).2.2.2.2] at some
      by_cases here : n = parent
      · subst here
        exact (checked member).1
      · rw [if_neg here] at some
        exact shape.directories n member some
  · intro n member
    rcases made.mem_nodes.mp member with rfl | member
    · rw [childNames, empty]
      exact List.nodup_nil
    · rw [made_names linked made member]
      split
      · rename_i here
        subst here
        rw [List.nodup_append]
        refine ⟨shape.names n member, by simp, fun a before b last same => ?_⟩
        rw [List.mem_singleton] at last
        exact (checked member).2 (last ▸ same ▸ before)
      · exact shape.names n member

/-- Calls that leave names, flags, parents and children leave the shape. -/
theorem treeOk_congr (shape : TreeOk s) (nodes : s'.nodes = s.nodes)
    (same : ∀ n, (s'.fs.nodes n).name = (s.fs.nodes n).name ∧
      (s'.fs.nodes n).flags = (s.fs.nodes n).flags ∧
      (s'.fs.nodes n).parent = (s.fs.nodes n).parent ∧
      (s'.fs.nodes n).children = (s.fs.nodes n).children) : TreeOk s' := by
  have names : ∀ n, childNames s'.fs n = childNames s.fs n := by
    intro n
    rw [childNames, (same n).2.2.2]
    exact List.map_congr_left fun child _ => (same child).1
  constructor <;> rw [nodes]
  · intro n member some
    rw [(same n).2.2.2] at some
    rw [(same n).2.1]
    exact shape.directories n member some
  · intro n member
    rw [names]
    exact shape.names n member
  · intro n member c child
    rw [(same n).2.2.2] at child
    rw [(same c).2.2.1]
    exact shape.parents n member c child
  · intro n member
    rw [(same n).2.2.2]
    exact shape.room n member

theorem treeOk_step (linked : Linked s) (shape : TreeOk s) (ok : CreateOk s call)
    (legal : Legal s call) (taken : RamStep s call s') : TreeOk s' := by
  have linked' := linked_step linked legal taken
  cases call with
  | createInstance answer =>
    refine treeOk_made linked linked' shape (createInstance_made linked legal taken) fun member => ?_
    exact absurd rfl (linked.node_ne_zero member)
  | create answer parent name flags =>
    rcases (create_made linked legal).mp taken with ⟨-, rfl⟩ | ⟨room, real, -, rfl⟩
    · exact shape
    · have made := created_made linked legal room real
      obtain ⟨isDir, -, isNew⟩ := ok.resolve_left (Nat.not_le_of_lt room)
      exact treeOk_made linked linked' shape made fun _ => ⟨isDir, isNew⟩
  | write answer node offset size buffer =>
    obtain ⟨nodes, -, wrote, -⟩ := write_wrote taken
    exact treeOk_congr shape nodes (wrote_keeps wrote)
  | setRoot root =>
    cases taken
    exact treeOk_congr shape rfl fun _ => ⟨rfl, rfl, rfl, rfl⟩
  | mount path fsRoot =>
    obtain ⟨mp, -, -, rfl⟩ := mount_keeps taken
    exact treeOk_congr shape rfl fun _ => ⟨rfl, rfl, rfl, rfl⟩

/-- A create that keeps the shape was checked by its caller. -/
theorem createOk_of_treeOk (linked : Linked s) (legal : Legal s (.create answer parent name flags))
    (taken : RamStep s (.create answer parent name flags) s') (shape : TreeOk s') :
    CreateOk s (.create answer parent name flags) := by
  rcases (create_made linked legal).mp taken with ⟨full, -⟩ | ⟨room, real, fits, rfl⟩
  · exact .inl full
  · have made := created_made linked legal room real
    have existing : parent ∈ s.nodes := legal.1
    have existing' : parent ∈ answer :: s.nodes := List.mem_cons_of_mem _ existing
    have names := shape.names parent existing'
    rw [made_names linked made existing, if_pos rfl, List.nodup_append] at names
    refine .inr ⟨?_, fits, fun before => names.2.2 name before name (by simp) rfl⟩
    have isDir := shape.directories parent existing' (by
      rw [(made_keeps made existing).2.2.2.2, if_pos rfl]
      exact List.append_ne_nil_of_right_ne_nil _ (by simp))
    rwa [(made_keeps made existing).2.1] at isDir

/-- The states reached when every create was checked. -/
def Checked (s : RamState) : Prop := Reachable AtBoot (Guarded CreateOk (Guarded Legal RamStep)) s

theorem Checked.grown (reached : Checked s) : Grown s := reached.mono fun _ _ _ taken => taken.2

theorem treeOk_run (reached : Checked s) : TreeOk s := by
  have both : Linked s ∧ TreeOk s := by
    refine reached.induct (fun s => Linked s ∧ TreeOk s) (fun s first => ?_) fun s call s' kept taken =>
      ⟨linked_step kept.1 taken.2.1 taken.2.2,
        treeOk_step kept.1 kept.2 taken.1 taken.2.1 taken.2.2⟩
    refine ⟨linked_run (.start first), ?_⟩
    obtain ⟨nodes, -⟩ := first
    constructor <;> simp [nodes]
  exact both.2

/-- The tree invariant holds in every run whose creates were checked; and a create
that gets its block then ends in such a tree exactly if it was checked too. -/
theorem ramfs_tree (reached : Checked s) : TreeOk s ∧
    ∀ answer parent name flags, Legal s (.create answer parent name flags) → answer ≠ 0 →
      ((∃ s', RamStep s (.create answer parent name flags) s' ∧ TreeOk s') ↔
        CreateOk s (.create answer parent name flags)) := by
  have linked := linked_run reached.grown
  have shape := treeOk_run reached
  refine ⟨shape, fun answer parent name flags legal real => ⟨?_, fun ok => ?_⟩⟩
  · rintro ⟨s', taken, after⟩
    exact createOk_of_treeOk linked legal taken after
  · have returns : ∃ s', RamStep s (.create answer parent name flags) s' := by
      by_cases full : 32 ≤ (s.fs.nodes parent).children.length
      · exact ⟨s, (create_made linked legal).mpr (.inl ⟨full, rfl⟩)⟩
      · have room := Nat.lt_of_not_le full
        exact ⟨_, (create_made linked legal).mpr
          (.inr ⟨room, real, (ok.resolve_left full).2.1, rfl⟩)⟩
    obtain ⟨s', taken⟩ := returns
    exact ⟨s', taken, treeOk_step linked shape ok legal taken⟩

/-- The state before the first allocation. -/
def atBoot : RamState := ⟨⟨fun _ => clearedNode, fun _ _ => 0, [], 0⟩, [], [], []⟩

theorem atBoot_first : AtBoot atBoot := ⟨rfl, rfl, rfl, rfl, rfl⟩

/-- The state with the root of the first instance at `0x100`. -/
def withRoot : RamState :=
  ⟨atBoot.fs.setNode 0x100 { clearedNode with name := cstring "/", flags := vfsDir },
    [0x100], [0x100], [0x100]⟩

theorem withRoot_taken : Guarded Legal RamStep atBoot (.createInstance 0x100) withRoot := by
  refine ⟨by simp [Legal, atBoot], _, 0x100, ?_, rfl⟩
  rfl

theorem withRoot_checked : Checked withRoot :=
  .next (.start atBoot_first) ⟨by trivial, withRoot_taken⟩

/-! ## Runs that are executed -/

instance : DecidablePred (CreateOk s) := fun call =>
  match call with
  | .createInstance _ => .isTrue trivial
  | .create _ _ _ _ => inferInstanceAs (Decidable (_ ∨ _ ∧ _))
  | .write _ _ _ _ _ => .isTrue trivial
  | .setRoot _ => .isTrue trivial
  | .mount _ _ => .isTrue trivial

instance : DecidablePred (Legal s) := fun call =>
  match call with
  | .createInstance _ => inferInstanceAs (Decidable (¬ _))
  | .create _ _ _ _ => inferInstanceAs (Decidable (_ ∧ ¬ _))
  | .write _ _ _ _ _ => inferInstanceAs (Decidable (_ ∧ ¬ _))
  | .setRoot _ => inferInstanceAs (Decidable (_ ∈ _))
  | .mount _ fsRoot =>
    -- by the list: the pairs of words are a finite type, too large to go through
    have : Decidable (∀ mount ∈ s.fs.mounts, fsRoot ≠ mount.2) := List.decidableBAll _ _
    inferInstanceAs (Decidable (_ ∈ _ ∧ ∀ mount ∈ s.fs.mounts, _))

/-- The state after a call that returns. -/
def ramCall (s : RamState) : RamCall → Option RamState
  | .createInstance answer => (ramfsCreateInstance s.fs answer).toOption.map fun (fs, root) =>
    ⟨fs, root :: s.nodes, root :: s.roots, answer :: s.blocks⟩
  | .create answer parent name flags =>
    (ramfsCreate s.fs answer parent name flags).toOption.map fun (fs, result) =>
      if result = 0 then ⟨fs, answer :: s.nodes, s.roots, answer :: s.blocks⟩ else { s with fs := fs }
  | .write answer node offset size buffer =>
    (ramfsWrite s.fs answer node offset size buffer).toOption.map fun (fs, _) =>
      ⟨fs, s.nodes, s.roots,
        if Grows s.fs node offset size ∧ answer.address ≠ 0 then answer.address :: s.blocks else s.blocks⟩
  | .setRoot root => some { s with fs := { s.fs with vfsRoot := root } }
  | .mount path fsRoot => (vfsMount s.fs path fsRoot).toOption.map fun fs => { s with fs := fs }

theorem ok_of_toOption {returned : Except Fault α} (some : returned.toOption = .some a) : returned = .ok a := by
  cases returned with
  | error _ => cases some
  | ok _ => exact congrArg Except.ok (Option.some.inj some)

theorem ramCall_step {call : RamCall} (done : ramCall s call = some s') : RamStep s call s' := by
  cases call with
  | createInstance answer =>
    obtain ⟨⟨fs, root⟩, returned, rfl⟩ := Option.map_eq_some_iff.mp done
    exact ⟨fs, root, ok_of_toOption returned, rfl⟩
  | create answer parent name flags =>
    obtain ⟨⟨fs, result⟩, returned, rfl⟩ := Option.map_eq_some_iff.mp done
    exact ⟨fs, result, ok_of_toOption returned, rfl⟩
  | write answer node offset size buffer =>
    obtain ⟨⟨fs, result⟩, returned, rfl⟩ := Option.map_eq_some_iff.mp done
    exact ⟨fs, result, ok_of_toOption returned, rfl⟩
  | setRoot root =>
    cases done
    rfl
  | mount path fsRoot =>
    obtain ⟨fs, returned, rfl⟩ := Option.map_eq_some_iff.mp done
    exact ⟨fs, ok_of_toOption returned, rfl⟩

/-- The state after a checked call. -/
def checkedCall (s : RamState) (call : RamCall) : Option RamState :=
  if CreateOk s call ∧ Legal s call then ramCall s call else none

theorem checkedCall_step {call : RamCall} (done : checkedCall s call = some s') :
    Guarded CreateOk (Guarded Legal RamStep) s call s' := by
  rw [checkedCall] at done
  split_ifs at done with allowed
  exact ⟨allowed.1, allowed.2, ramCall_step done⟩

/-- A root with the directory `tmp` and the file `a`, and a second instance on `/tmp` with the file
`b`. -/
def mountedCalls : List RamCall :=
  [.createInstance 0x100, .setRoot 0x100, .create 0x200 0x100 (cstring "tmp") vfsDir,
    .create 0x300 0x100 (cstring "a") vfsFile, .createInstance 0x400, .mount (cstring "/tmp") 0x400,
    .create 0x500 0x400 (cstring "b") vfsFile]

def mountedTree : RamState := (execute checkedCall atBoot mountedCalls).getD atBoot

theorem mountedTree_checked : Checked mountedTree := by
  have run : Run (Guarded CreateOk (Guarded Legal RamStep)) atBoot mountedCalls mountedTree :=
    executed_run (fun _ _ _ => checkedCall_step) (by decide +kernel)
  exact (Reachable.start atBoot_first).run run

/-- A file `a` may be created on `/tmp`, but not in the root again. -/
theorem ramfs_tree_mounted : TreeOk mountedTree ∧
    (∃ s', RamStep mountedTree (.create 0x600 0x400 (cstring "a") vfsFile) s' ∧ TreeOk s') ∧
      ¬ ∃ s', RamStep mountedTree (.create 0x600 0x100 (cstring "a") vfsFile) s' ∧ TreeOk s' := by
  obtain ⟨shape, exact⟩ := ramfs_tree mountedTree_checked
  have legal : Legal mountedTree (.create 0x600 0x400 (cstring "a") vfsFile) := by decide +kernel
  have legal' : Legal mountedTree (.create 0x600 0x100 (cstring "a") vfsFile) := by decide +kernel
  refine ⟨shape, (exact _ _ _ _ legal (by decide)).mpr (by decide +kernel), ?_⟩
  rw [exact _ _ _ _ legal' (by decide)]
  decide +kernel

/-- The first root with a file `a` at `0x200` in it. -/
def oneFile : RamState := created withRoot 0x200 0x100 (cstring "a") vfsFile

theorem create_under_root (here : 0x100 ∈ s.nodes) (fresh : answer ∉ s.blocks)
    (room : (s.fs.nodes 0x100).children.length < 32) (real : answer ≠ 0) (reached : Grown s) :
    Guarded Legal RamStep s (.create answer 0x100 (cstring "a") vfsFile)
      (created s answer 0x100 (cstring "a") vfsFile) := by
  have legal : Legal s (.create answer 0x100 (cstring "a") vfsFile) := ⟨here, fresh⟩
  exact ⟨legal, (create_made (linked_run reached) legal).mpr (.inr ⟨room, real, by decide, rfl⟩)⟩

theorem oneFile_taken :
    Guarded Legal RamStep withRoot (.create 0x200 0x100 (cstring "a") vfsFile) oneFile :=
  create_under_root (by simp [withRoot]) (by simp [withRoot]) (by decide) (by decide)
    withRoot_checked.grown

theorem oneFile_grown : Grown oneFile := withRoot_checked.grown.next oneFile_taken

/-- A second file `a` in the root. -/
theorem second_name_is_created : ¬ ∀ s, Grown s → TreeOk s := by
  intro claim
  have second : Grown (created oneFile 0x300 0x100 (cstring "a") vfsFile) :=
    oneFile_grown.next (create_under_root (by simp [oneFile, created, withRoot])
      (by simp [oneFile, created, withRoot]) (by decide +kernel) (by decide) oneFile_grown)
  have names := (claim _ second).names 0x100 (by simp [oneFile, created, withRoot])
  revert names
  decide +kernel

end ZynthexOS.TreeShape
