import ZynthexOS.PathResolution

/-! What a mount does to the paths. The new entry stands behind the older ones and
is used only where the walk finds the covered node itself, so it never takes
effect on the root, nor on a path whose last component is a mount point
already. -/
namespace ZynthexOS.Mounting
open Text Fs PathResolution

/-- `vfs_mount` calls one after the other. -/
def mountAll (s : FileSystem) : List (CString × UInt32) → Except Fault FileSystem
  | [] => .ok s
  | (path, fsRoot) :: calls => do mountAll (← vfsMount s path fsRoot) calls

/-- The node is a mount point. -/
def Covered (s : FileSystem) (node : UInt32) : Prop := ∃ mount ∈ s.mounts, node = mount.1

/-- The state behind a `vfs_mount` that found the mount point `mp`. -/
def mounted (s : FileSystem) (mp fsRoot : UInt32) : FileSystem :=
  { s with mounts := s.mounts ++ [(mp, fsRoot)] }

theorem vfsMount_eq (existing : vfsLookup s path = .ok mp) (real : mp ≠ 0)
    (room : s.mounts.length < maxMounts) (fsRoot : UInt32) :
    vfsMount s path fsRoot = .ok (mounted s mp fsRoot) := by
  have stored : storeBelow .mounts (s.mounts.length + 1) = .ok () := if_pos room
  rw [vfsMount, existing]
  change (if mp = 0 then _ else _) = _
  rw [if_neg real, stored]
  rfl

theorem find_uncovered (free : ¬ Covered s node) :
    s.mounts.find? (fun mount => node = mount.1) = none := by
  refine List.find?_eq_none.mpr fun mount member => ?_
  simpa using fun here => free ⟨mount, member, here⟩

theorem vfsCheckMount_uncovered (free : ¬ Covered s node) : vfsCheckMount s node = node := by
  rw [vfsCheckMount, find_uncovered free]
  rfl

/-- The new mount point leads to the new root, unless it was one before. -/
theorem vfsCheckMount_new (free : ¬ Covered s mp) (fsRoot : UInt32) :
    vfsCheckMount (mounted s mp fsRoot) mp = fsRoot := by
  simp [vfsCheckMount, mounted, List.find?_append, find_uncovered free]

/-- Every other node leads where it did. -/
theorem vfsCheckMount_kept (other : ¬ Covered s node → node ≠ mp) (fsRoot : UInt32) :
    vfsCheckMount (mounted s mp fsRoot) node = vfsCheckMount s node := by
  by_cases covered : Covered s node
  · obtain ⟨mount, member, here⟩ := covered
    have found : (s.mounts.find? fun mount => node = mount.1).isSome := by
      rw [List.find?_isSome]
      exact ⟨mount, member, by simpa using here⟩
    obtain ⟨first, same⟩ := Option.isSome_iff_exists.mp found
    simp [vfsCheckMount, mounted, List.find?_append, same]
  · simp [vfsCheckMount, mounted, List.find?_append, find_uncovered covered, other covered]

theorem enters_mounted (enters : Enters s node part found) :
    Enters (mounted s mp fsRoot) node part found :=
  (enters_congr rfl).mpr enters

/-- The nodes that a walk finds, before it enters the mounts on them. -/
inductive Visits (s : FileSystem) : UInt32 → List CString → List UInt32 → Prop where
  | done (node : UInt32) : Visits s node [] []
  | step (enters : Enters s node part found)
      (rest : Visits s (vfsCheckMount s found) route visited) :
      Visits s node (part :: route) (found :: visited)

theorem visits_of_resolved (resolved : resolveParts s node route = .ok target)
    (positive : target ≠ 0) : ∃ visited, Visits s node route visited := by
  induction route generalizing node with
  | nil => exact ⟨[], .done node⟩
  | cons part route ih =>
    obtain ⟨found, enters, rest⟩ := enters_of_resolved resolved positive
    obtain ⟨visited, visits⟩ := ih rest
    exact ⟨found :: visited, .step enters visits⟩

/-- The walk finds the node last, nowhere before, and finds it uncovered. -/
def EndsUncovered (s : FileSystem) (node : UInt32) (route : List CString) (mp : UInt32) : Prop :=
  ∃ front, Visits s node route (front ++ [mp]) ∧ mp ∉ front ∧ ¬ Covered s mp

/-- Paths none of whose prefixes lead to the covered node are not affected. -/
theorem resolveParts_elsewhere (s : FileSystem) (mp fsRoot node : UInt32) (route : List CString)
    (elsewhere : ∀ front, front <+: route → resolveParts s node front ≠ .ok mp) :
    resolveParts (mounted s mp fsRoot) node route = resolveParts s node route := by
  induction route generalizing node with
  | nil => rfl
  | cons part route ih =>
    by_cases entered : ∃ found, Enters s node part found
    · obtain ⟨found, enters⟩ := entered
      have other : ¬ Covered s found → found ≠ mp := by
        rintro free rfl
        apply elsewhere [part] (by simp)
        rw [resolveParts_enters enters, vfsCheckMount_uncovered free, resolveParts]
      rw [resolveParts_enters enters, resolveParts_enters (enters_mounted enters),
        vfsCheckMount_kept other]
      refine ih _ fun front isPrefix => ?_
      rw [← resolveParts_enters enters]
      exact elsewhere (part :: front) (List.cons_prefix_cons.mpr ⟨rfl, isPrefix⟩)
    · rw [resolveParts_stuck (not_exists.mp entered),
        resolveParts_stuck (s := mounted s mp fsRoot) fun found enters =>
          entered ⟨found, (enters_congr rfl).mp enters⟩]
      rfl

/-- A path that ends at the uncovered node leads to the new root. -/
theorem resolveParts_mounted (ends : EndsUncovered s node route mp) (fsRoot : UInt32) :
    resolveParts (mounted s mp fsRoot) node route = .ok fsRoot := by
  obtain ⟨front, visits, before, free⟩ := ends
  induction front generalizing node route with
  | nil =>
    cases visits with
    | step enters rest =>
      cases rest
      rw [resolveParts_enters (enters_mounted enters), vfsCheckMount_new free, resolveParts]
  | cons found front ih =>
    cases visits with
    | step enters rest =>
      have other : found ≠ mp := by
        rintro rfl
        exact before (by simp)
      rw [resolveParts_enters (enters_mounted enters), vfsCheckMount_kept fun _ => other]
      exact ih rest (fun member => before (by simp [member]))

/-- NULL, or the root of a file system with nothing in it yet. -/
def Blank (s : FileSystem) (mp fsRoot : UInt32) : Prop :=
  fsRoot ≠ mp ∧ (fsRoot = 0 ∨ (s.nodes fsRoot).children = [])

theorem resolveParts_blank (blank : Blank s mp fsRoot) (part : CString) (rest : List CString) :
    resolveParts (mounted s mp fsRoot) fsRoot (part :: rest) ≠ .ok fsRoot := by
  intro resolved
  by_cases null : fsRoot = 0
  · rw [resolveParts, storeBelow_part, opsLookup_eq, if_pos null] at resolved
    split at resolved <;> cases resolved
  · obtain ⟨found, ⟨-, lookup, positive⟩, -⟩ := enters_of_resolved resolved null
    obtain ⟨-, member, -⟩ := opsLookup_found lookup positive
    have empty : ((mounted s mp fsRoot).nodes fsRoot).children = [] := blank.2.resolve_left null
    rw [empty] at member
    cases member

/-- Any other path that leads to the covered node does not lead to a blank new
root. -/
theorem resolveParts_not_mounted (resolved : resolveParts s node route = .ok mp) (real : mp ≠ 0)
    (otherwise : ¬ EndsUncovered s node route mp) (blank : Blank s mp fsRoot) :
    resolveParts (mounted s mp fsRoot) node route ≠ .ok fsRoot := by
  induction route generalizing node with
  | nil =>
    intro reached
    cases resolved
    cases reached
    exact blank.1 rfl
  | cons part route ih =>
    obtain ⟨found, enters, rest⟩ := enters_of_resolved resolved real
    rw [resolveParts_enters (enters_mounted enters)]
    by_cases covering : found = mp ∧ ¬ Covered s found
    · obtain ⟨rfl, free⟩ := covering
      rw [vfsCheckMount_new free]
      cases route with
      | nil =>
        refine absurd ⟨[], .step enters ?_, by simp, free⟩ otherwise
        exact .done _
      | cons next route => exact resolveParts_blank blank next route
    · rw [vfsCheckMount_kept fun free here => covering ⟨here, free⟩]
      refine ih rest fun ⟨front, visits, before, free⟩ => otherwise ⟨found :: front, ?_, ?_, free⟩
      · exact .step enters visits
      · intro member
        rcases List.mem_cons.mp member with rfl | later
        · exact covering ⟨rfl, free⟩
        · exact before later

/-- After `vfs_mount(path, r)` the path leads to `r`, and a path none of whose
prefixes led to the covered node leads where it did. -/
structure MountLaw (s : FileSystem) (path : CString) (mp fsRoot : UInt32) : Prop where
  leads : ∃ s', vfsMount s path fsRoot = .ok s' ∧ vfsLookup s' path = .ok fsRoot
  others : ∀ s', vfsMount s path fsRoot = .ok s' → ∀ other : CString,
    (∀ front, front <+: parts other → resolveParts s s.vfsRoot front ≠ .ok mp) →
      vfsLookup s' other = vfsLookup s other

theorem mountLaw_iff (existing : vfsLookup s path = .ok mp) (real : mp ≠ 0)
    (room : s.mounts.length < maxMounts) (fsRoot : UInt32) : MountLaw s path mp fsRoot ↔
      resolveParts (mounted s mp fsRoot) s.vfsRoot (parts path) = .ok fsRoot := by
  have result := vfsMount_eq existing real room fsRoot
  have hasRoot : s.vfsRoot ≠ 0 := by
    intro null
    rw [vfsLookup_eq, if_pos null] at existing
    cases existing
    exact real rfl
  have lookup : ∀ other, vfsLookup (mounted s mp fsRoot) other =
      resolveParts (mounted s mp fsRoot) s.vfsRoot (parts other) := fun other => by
    rw [vfsLookup_eq]
    exact if_neg hasRoot
  constructor
  · rintro ⟨⟨s', done, leads⟩, -⟩
    cases result.symm.trans done
    rwa [lookup] at leads
  · intro leads
    refine ⟨⟨_, result, (lookup path).trans leads⟩, fun s' done other elsewhere => ?_⟩
    cases result.symm.trans done
    rw [lookup, resolveParts_elsewhere s mp fsRoot s.vfsRoot _ elsewhere, vfsLookup_eq,
      if_neg hasRoot]

/-- A mount on an existing path, in any file system and behind any mounts: the law holds
for every new root exactly if the walk finds the covered node last, nowhere
before, and finds it uncovered; and for a blank new root only then. -/
theorem mounting_law (existing : vfsLookup s path = .ok mp) (real : mp ≠ 0)
    (room : s.mounts.length < maxMounts) :
    ((∀ fsRoot, MountLaw s path mp fsRoot) ↔ EndsUncovered s s.vfsRoot (parts path) mp) ∧
      ∀ fsRoot, Blank s mp fsRoot →
        (MountLaw s path mp fsRoot ↔ EndsUncovered s s.vfsRoot (parts path) mp) := by
  have resolved : resolveParts s s.vfsRoot (parts path) = .ok mp := by
    rw [vfsLookup_eq] at existing
    split at existing
    · cases existing
      exact absurd rfl real
    · exact existing
  have forBlank : ∀ fsRoot, Blank s mp fsRoot →
      (MountLaw s path mp fsRoot ↔ EndsUncovered s s.vfsRoot (parts path) mp) := by
    intro fsRoot blank
    rw [mountLaw_iff existing real room]
    refine ⟨fun leads => ?_, fun ends => resolveParts_mounted ends fsRoot⟩
    by_contra otherwise
    exact resolveParts_not_mounted resolved real otherwise blank leads
  refine ⟨⟨fun all => (forBlank 0 ⟨real.symm, .inl rfl⟩).mp (all 0), fun ends fsRoot => ?_⟩, forBlank⟩
  exact (mountLaw_iff existing real room fsRoot).mpr (resolveParts_mounted ends fsRoot)

/-- A root at `0x100` with one directory `tmp` at `0x200`, as at boot. -/
def bootTree : FileSystem where
  nodes a :=
    if a = 0x100 then { clearedNode with name := cstring "/", flags := vfsDir, children := [0x200] }
    else if a = 0x200 then createdNode 0x100 (cstring "tmp") vfsDir
    else clearedNode
  buffers _ _ := 0
  mounts := []
  vfsRoot := 0x100

def tmpPath : CString := cstring "/tmp"

theorem bootTree_tmp : vfsLookup bootTree tmpPath = .ok 0x200 := by
  rw [vfsLookup_eq]
  decide +kernel

/-- The first mount on `/tmp`. -/
theorem mounting_law_at_boot : MountLaw bootTree tmpPath 0x200 0x300 := by
  have names : parts tmpPath = [cstring "tmp"] := by decide +kernel
  have enters : Enters bootTree 0x100 (cstring "tmp") 0x200 :=
    ⟨by decide +kernel, by decide +kernel, by decide⟩
  have ends : EndsUncovered bootTree bootTree.vfsRoot (parts tmpPath) 0x200 := by
    rw [names]
    exact ⟨[], .step enters (.done _), by simp, by simp [Covered, bootTree]⟩
  exact ((mounting_law bootTree_tmp (by decide) (by decide)).1.mpr ends) 0x300

/-- A second mount on `/tmp` covers the first root, but the path leads to the first
root still. -/
theorem second_mount_has_no_effect :
    ¬ ∀ initial calls s path mp fsRoot, mountAll initial calls = .ok s →
      vfsLookup s path = .ok mp → mp ≠ 0 → s.mounts.length < maxMounts →
        MountLaw s path mp fsRoot := by
  intro claim
  have ran : mountAll bootTree [(tmpPath, 0x300)] = .ok (mounted bootTree 0x200 0x300) := by
    rw [mountAll, vfsMount_eq bootTree_tmp (by decide) (by decide)]
    rfl
  have leads : ∀ s, s = mounted bootTree 0x200 0x300 ∨
      s = mounted (mounted bootTree 0x200 0x300) 0x300 0x400 → vfsLookup s tmpPath = .ok 0x300 := by
    rintro s (rfl | rfl) <;> rw [vfsLookup_eq] <;> decide +kernel
  have first := leads _ (.inl rfl)
  have law := claim bootTree [(tmpPath, 0x300)] _ tmpPath 0x300 0x400 ran first (by decide) (by decide)
  rw [mountLaw_iff first (by decide) (by decide)] at law
  have again := leads _ (.inr rfl)
  rw [vfsLookup_eq] at again
  cases again.symm.trans law

end ZynthexOS.Mounting
