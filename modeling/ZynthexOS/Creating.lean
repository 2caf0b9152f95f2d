import Mathlib.Data.List.Find
import ZynthexOS.TreeShape
import ZynthexOS.TreeWalks

/-! What creating does to the paths. A new child stands behind its siblings and is
no mount point, so every walk that came to a node still takes the same steps, and
the new name leads to the new node where no older sibling has it. -/
namespace ZynthexOS.Creating
open Text Fs PathResolution Mounting RamfsCalls RamfsTree TreeWalks

/-- Nodes that neither children nor mounts lead out of. What is mounted may be NULL. -/
structure Namespace (s : FileSystem) (nodes : UInt32 → Prop) : Prop where
  real : ∀ n, nodes n → n ≠ 0
  children : ∀ n, nodes n → ∀ c ∈ (s.nodes n).children, nodes c
  mountpoints : ∀ mount ∈ s.mounts, nodes mount.1
  roots : ∀ mount ∈ s.mounts, nodes mount.2 ∨ mount.2 = 0

/-- The trees that ramfs builds, joined by mounts, are such nodes. -/
theorem namespace_run (reached : Grown s) : Namespace s.fs (· ∈ s.nodes) := by
  have linked := linked_run reached
  have joined := joined_run reached
  constructor
  · exact fun n member => linked.node_ne_zero member
  · exact fun n member c child => (linked.children n member c child).1
  · exact fun mount entry => (joined.mounts mount entry).1
  · exact fun mount entry => .inl (linked.roots _ (joined.mounts mount entry).2).1

/-- Every path that came to a node from one of these still comes to that node. -/
def KeepsPaths (s s' : FileSystem) (nodes : UInt32 → Prop) : Prop :=
  ∀ start, nodes start → ∀ path target, pathResolve s start path = .ok target → target ≠ 0 →
    pathResolve s' start path = .ok target

/-- An empty node with this name, flags and parent. -/
structure EmptyNode (s : FileSystem) (node : UInt32) (name : CString) (flags parent : UInt32) :
    Prop where
  name : (s.nodes node).name = name
  flags : (s.nodes node).flags = flags
  parent : (s.nodes node).parent = parent
  children : (s.nodes node).children = []
  size : (s.nodes node).size = 0
  data : (s.nodes node).data = 0 ∧ (s.nodes node).capacity = 0

variable {s : FileSystem} {nodes : UInt32 → Prop} {child dir : UInt32}

theorem Namespace.checkMount (inside : Namespace s nodes) (member : nodes n) :
    nodes (vfsCheckMount s n) ∨ vfsCheckMount s n = 0 := by
  rcases vfsCheckMount_cases s n with same | ⟨mount, entry, -, root⟩
  · exact .inl (by rwa [same])
  · rw [root]
    exact inside.roots mount entry

/-- What is not one of the nodes is no mount point. -/
theorem Namespace.uncovered (inside : Namespace s nodes) (fresh : ¬ nodes child) :
    ¬ Covered s child := by
  rintro ⟨mount, entry, rfl⟩
  exact fresh (inside.mountpoints mount entry)

theorem withChild_name (fresh : c ≠ child) :
    ((withChild s child dir name flags).nodes c).name = (s.nodes c).name := by
  by_cases here : c = dir
  · subst here
    simp [withChild]
  · simp [withChild, here, fresh]

theorem withChild_children (fresh : n ≠ child) :
    ((withChild s child dir name flags).nodes n).children =
      if n = dir then (s.nodes n).children ++ [child] else (s.nodes n).children := by
  by_cases here : n = dir
  · subst here
    simp [withChild]
  · simp [withChild, here, fresh]

/-- The older siblings are searched first. -/
theorem find_withChild (fresh : ∀ c ∈ (s.nodes n).children, c ≠ child) (other : n ≠ child)
    (part : CString) :
    ((withChild s child dir name flags).nodes n).children.find?
        (fun c => strcmp ((withChild s child dir name flags).nodes c).name part = 0) =
      ((s.nodes n).children.find? fun c => strcmp (s.nodes c).name part = 0).or
        (if n = dir then [child].find? fun c =>
          strcmp ((withChild s child dir name flags).nodes c).name part = 0 else none) := by
  have old : (s.nodes n).children.find?
      (fun c => strcmp ((withChild s child dir name flags).nodes c).name part = 0) =
      (s.nodes n).children.find? fun c => strcmp (s.nodes c).name part = 0 := by
    refine List.find?_congr fun c member => ?_
    rw [withChild_name (fresh c member)]
  rw [withChild_children other]
  split_ifs
  · rw [List.find?_append, old]
  · rw [old, Option.or_none]

/-- A part that was found is found again. -/
theorem enters_withChild (inside : Namespace s nodes) (fresh : ¬ nodes child) (member : nodes n)
    (enters : Enters s n part found) :
    Enters (withChild s child dir name flags) n part found := by
  obtain ⟨fits, lookup, positive⟩ := enters
  have apart : ∀ c, nodes c → c ≠ child := by
    rintro c held rfl
    exact fresh held
  refine ⟨fits, ?_, positive⟩
  rw [opsLookup_eq, if_neg (inside.real n member)] at lookup ⊢
  rw [find_withChild (fun c below => apart c (inside.children n member c below)) (apart n member)]
  cases search : (s.nodes n).children.find? fun c => strcmp (s.nodes c).name part = 0 with
  | none =>
    rw [search] at lookup
    cases lookup
    exact absurd rfl positive
  | some first =>
    rw [search] at lookup
    exact lookup

/-- Step by step, the walk of a path is the same. -/
theorem resolveParts_withChild (inside : Namespace s nodes) (fresh : ¬ nodes child)
    (start : nodes n ∨ n = 0) (resolved : resolveParts s n route = .ok target) (real : target ≠ 0) :
    resolveParts (withChild s child dir name flags) n route = .ok target := by
  induction route generalizing n with
  | nil => exact resolved
  | cons part route ih =>
    obtain ⟨found, enters, rest⟩ := enters_of_resolved resolved real
    have member : nodes n := by
      refine start.resolve_right fun null => ?_
      obtain ⟨-, lookup, -⟩ := enters
      rw [opsLookup_eq, if_pos null] at lookup
      cases lookup
    have child' : nodes found :=
      inside.children n member found (opsLookup_found enters.2.1 enters.2.2).2.1
    rw [resolveParts_enters (enters_withChild inside fresh member enters)]
    exact ih (inside.checkMount child') rest

/-- No older sibling has the name. -/
theorem enters_new (inside : Namespace s nodes) (fresh : ¬ nodes child) (member : nodes dir)
    (real : child ≠ 0) (short : name.length ≤ 63)
    (unused : ∀ c ∈ (s.nodes dir).children, (s.nodes c).name ≠ name) (flags : UInt32) :
    Enters (withChild s child dir name flags) dir name child := by
  have apart : ∀ c, nodes c → c ≠ child := by
    rintro c held rfl
    exact fresh held
  have none : (s.nodes dir).children.find? (fun c => strcmp (s.nodes c).name name = 0) = none := by
    refine List.find?_eq_none.mpr fun c below same => unused c below ?_
    exact strcmp_eq_zero.mp (of_decide_eq_true same)
  have named : ((withChild s child dir name flags).nodes child).name = name := by
    simp [withChild, (apart dir member).symm, createdNode]
  refine ⟨short, ?_, real⟩
  rw [opsLookup_eq, if_neg (inside.real dir member),
    find_withChild (fun c below => apart c (inside.children dir member c below)) (apart dir member),
    none, Option.none_or, if_pos rfl]
  have here : strcmp ((withChild s child dir name flags).nodes child).name name = 0 :=
    strcmp_eq_zero.mpr named
  rw [List.find?_cons_of_pos (by simpa using here)]
  rfl

theorem emptyNode_withChild (other : child ≠ dir) (name : CString) (flags : UInt32) :
    EmptyNode (withChild s child dir name flags) child name flags dir := by
  have made : (withChild s child dir name flags).nodes child = createdNode dir name flags := by
    simp [withChild, other]
  constructor <;> rw [made] <;> first | rfl | exact ⟨rfl, rfl⟩

/-- Creating in a directory with room: the call returns 0, every path that came to a
node still does, and where the name was not used it leads to a new empty node. -/
theorem create_keeps_namespace (inside : Namespace s nodes) (member : nodes dir)
    (room : (s.nodes dir).children.length < 32) (nonempty : name ≠ []) (short : name.length ≤ 63)
    (plain : slash ∉ name) (real : child ≠ 0) (fresh : ¬ nodes child) (flags : UInt32) :
    ∃ s', ramfsCreate s child dir name flags = .ok (s', 0) ∧ KeepsPaths s s' nodes ∧
      ((∀ c ∈ (s.nodes dir).children, (s.nodes c).name ≠ name) →
        pathResolve s' dir name = .ok child ∧ EmptyNode s' child name flags dir) := by
  have other : child ≠ dir := by
    rintro rfl
    exact fresh member
  refine ⟨withChild s child dir name flags, ?_, ?_, fun unused => ⟨?_, emptyNode_withChild other name flags⟩⟩
  · exact (ramfsCreate_returns other).mpr ⟨inside.real dir member, .inr ⟨room, real, short, rfl, rfl⟩⟩
  · intro start held path target resolved positive
    rw [pathResolve_eq] at resolved ⊢
    exact resolveParts_withChild inside fresh (.inl held) resolved positive
  · have enters := enters_new inside fresh member real short unused flags
    have free : ¬ Covered (withChild s child dir name flags) child := inside.uncovered fresh
    rw [pathResolve_eq, parts_plain nonempty plain, resolveParts_enters enters,
      vfsCheckMount_uncovered free]
    rfl

/-- A file `c` created in a root beside a file and a directory that is mounted on. -/
theorem create_keeps_namespace_mounted :
    ∃ s', ramfsCreate TreeShape.mountedTree.fs 0x600 0x100 (cstring "c") vfsFile = .ok (s', 0) ∧
      KeepsPaths TreeShape.mountedTree.fs s' (· ∈ TreeShape.mountedTree.nodes) ∧
      pathResolve s' 0x100 (cstring "tmp/b") = .ok 0x500 ∧
      pathResolve s' 0x100 (cstring "c") = .ok 0x600 ∧ EmptyNode s' 0x600 (cstring "c") vfsFile 0x100 := by
  have member : (0x100 : UInt32) ∈ TreeShape.mountedTree.nodes := by decide +kernel
  have fresh : (0x600 : UInt32) ∉ TreeShape.mountedTree.nodes := by decide +kernel
  have nonempty : cstring "c" ≠ [] := by decide +kernel
  have mounted : pathResolve TreeShape.mountedTree.fs 0x100 (cstring "tmp/b") = .ok 0x500 := by
    rw [pathResolve_eq]
    decide +kernel
  have unused : ∀ c ∈ (TreeShape.mountedTree.fs.nodes 0x100).children,
      (TreeShape.mountedTree.fs.nodes c).name ≠ cstring "c" := by
    have names : cstring "c" ∉ TreeShape.childNames TreeShape.mountedTree.fs 0x100 := by decide +kernel
    intro c child same
    exact names (List.mem_map.mpr ⟨c, child, same⟩)
  obtain ⟨s', created, keeps, found⟩ := create_keeps_namespace
    (namespace_run TreeShape.mountedTree_checked.grown) member (by decide +kernel) nonempty
    (by decide +kernel) (by decide +kernel) (by decide) fresh vfsFile
  exact ⟨s', created, keeps, keeps _ member _ _ mounted (by decide), found unused⟩

end ZynthexOS.Creating
