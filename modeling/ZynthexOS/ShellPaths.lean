import ZynthexOS.FdRefinement
import ZynthexOS.Shell.Shell
import ZynthexOS.TreeShape
import ZynthexOS.TreeWalks

/-! What the path of a shell command means. `cd` and `ls` start at the working
directory, `rd` and `write` at the root, and `mk` takes the path for a name; in a
tree where each node has one parent these meet only at the root. -/
namespace ZynthexOS.ShellPaths
open Text Fs PathResolution Mounting RamfsCalls RamfsTree TreeShape TreeWalks Shell FdRefinement

/-! ## Descriptors -/

/-- Nobody uses a descriptor. -/
def AllClosed (s : Files) : Prop := ∀ i < maxFds, (s.fdTable i).used = false

/-- The descriptors in use are the same. -/
def SameUse (s s' : Files) : Prop := ∀ i, (s'.fdTable i).used = (s.fdTable i).used

theorem SameUse.trans (first : SameUse s t) (second : SameUse t u) : SameUse s u :=
  fun i => (second i).trans (first i)

theorem sameUse_setDesc (s : Files) (i : Nat) (used : desc.used = (s.fdTable i).used) :
    SameUse s (s.setDesc i desc) := by
  intro k
  by_cases here : k = i
  · subst here
    simp [Files.setDesc, used]
  · simp [Files.setDesc, here]

theorem sameUse_advance (s : Files) (fd : Nat) (n : Int) : SameUse s (advance s fd n) := by
  unfold advance
  dsimp only
  split
  · exact sameUse_setDesc s fd rfl
  · exact fun _ => rfl

theorem sameUse_seek (s : Files) (fd : Int) (offset : UInt32) : SameUse s (sysSeek s fd offset).1 := by
  unfold sysSeek
  split
  · exact fun _ => rfl
  · exact sameUse_setDesc s _ rfl

theorem sameUse_write (done : sysWrite s answer fd buffer size = .ok (s', n)) : SameUse s s' := by
  rcases (sysWrite_iff ..).mp done with ⟨-, rfl, -⟩ | ⟨-, fs, -, rfl⟩
  · exact fun _ => rfl
  · exact sameUse_advance { s with fs := fs } fd.toNat n

theorem sameUse_read (done : sysRead s fd size = .ok (s', n, bytes)) : SameUse s s' := by
  rcases (sysRead_iff ..).mp done with ⟨-, rfl, -⟩ | ⟨-, -, rfl⟩
  · exact fun _ => rfl
  · exact sameUse_advance s fd.toNat n

theorem sameUse_writeArguments (done : writeArguments answers fd i rest s = .ok s') :
    SameUse s s' := by
  induction rest generalizing i s with
  | nil =>
    cases done
    exact fun _ => rfl
  | cons argument rest ih =>
    cases rest with
    | nil =>
      rw [writeArguments] at done
      obtain ⟨⟨t, _⟩, wrote, done⟩ := bind_returns.mp done
      cases done
      exact sameUse_write wrote
    | cons next rest =>
      rw [writeArguments] at done
      obtain ⟨⟨t, _⟩, wrote, done⟩ := bind_returns.mp done
      obtain ⟨⟨u, _⟩, blank, done⟩ := bind_returns.mp done
      exact ((sameUse_write wrote).trans (sameUse_write blank)).trans (ih done)
      simp

theorem freeDescriptor (closed : AllClosed s) :
    ∃ i, (List.range maxFds).find? (fun i => !(s.fdTable i).used) = some i := by
  rw [← Option.isSome_iff_exists, List.find?_isSome]
  exact ⟨0, by decide, by rw [closed 0 (by decide)]; rfl⟩

/-- Opening with all descriptors closed takes one for the node of the path. -/
theorem sysOpen_returns (closed : AllClosed s) : sysOpen s path = .ok (s', fd) ↔
    (vfsLookup s.fs path = .ok 0 ∧ s' = s ∧ fd = -1) ∨
    ∃ node i, vfsLookup s.fs path = .ok node ∧ node ≠ 0 ∧
      (List.range maxFds).find? (fun i => !(s.fdTable i).used) = some i ∧ fd = i ∧
      s' = s.setDesc i { used := true, offset := 0, node := node } := by
  obtain ⟨i, found⟩ := freeDescriptor closed
  have allocated : fdAlloc s = (s.setDesc i { s.fdTable i with used := true, offset := 0 }, some i) := by
    unfold fdAlloc
    rw [found]
  unfold sysOpen
  rw [bind_returns]
  constructor
  · rintro ⟨node, lookup, done⟩
    split_ifs at done with null
    · cases done
      exact .inl ⟨null ▸ lookup, rfl, rfl⟩
    · rw [allocated] at done
      cases done
      refine .inr ⟨node, i, lookup, null, found, rfl, ?_⟩
      rw [setDesc_setDesc]
      simp [Files.setDesc]
  · rintro (⟨lookup, rfl, rfl⟩ | ⟨node, j, lookup, real, found', rfl, rfl⟩)
    · exact ⟨0, lookup, rfl⟩
    · cases found.symm.trans found'
      refine ⟨node, lookup, ?_⟩
      rw [if_neg real, allocated]
      dsimp only
      rw [setDesc_setDesc]
      simp [Files.setDesc]

/-- Opening, using and closing a descriptor leaves all of them closed. -/
theorem allClosed_session (closed : AllClosed s) (opened : sysOpen s path = .ok (t, fd))
    (real : ¬ fd < 0) (used : SameUse t u) : AllClosed (sysClose u fd) := by
  rcases (sysOpen_returns closed).mp opened with ⟨-, -, rfl⟩ | ⟨node, i, -, -, found, rfl, rfl⟩
  · exact absurd (by decide) real
  · have inside : i < maxFds := List.mem_range.mp (List.mem_of_find?_eq_some found)
    intro k below
    have isFd : (i : Int) ≥ 0 ∧ (i : Int) < maxFds := by omega
    unfold sysClose
    rw [if_pos isFd, Int.toNat_natCast]
    by_cases here : k = i
    · simp [Files.setDesc, here]
    · have kept := used k
      simp only [Files.setDesc, here, if_false] at kept ⊢
      exact kept.trans (closed k below)

/-- A path that is not found leaves them closed too. -/
theorem allClosed_refused (closed : AllClosed s) (opened : sysOpen s path = .ok (t, fd))
    (failed : fd < 0) : AllClosed t := by
  rcases (sysOpen_returns closed).mp opened with ⟨-, rfl, -⟩ | ⟨_, i, -, -, -, rfl, -⟩
  · exact closed
  · omega

/-- Between two commands no descriptor is in use. -/
theorem allClosed_run (closed : AllClosed s.files) (done : runCommand s command = .ok s') :
    AllClosed s'.files := by
  cases command with
  | cd argv =>
    change cmdCd s argv = _ at done
    unfold cmdCd at done
    split at done
    · obtain ⟨target, -, done⟩ := bind_returns.mp done
      split_ifs at done <;> cases done <;> exact closed
    · cases done
      exact closed
  | ls argv =>
    change cmdLs s argv = _ at done
    unfold cmdLs at done
    dsimp only at done
    split at done <;> obtain ⟨dir, -, done⟩ := bind_returns.mp done <;>
      split_ifs at done <;> cases done <;> exact closed
  | write answers argv =>
    change cmdWrite s answers argv = _ at done
    unfold cmdWrite at done
    split at done
    · obtain ⟨⟨files, fd⟩, opened, done⟩ := bind_returns.mp done
      dsimp only at done
      split at done
      · rename_i failed
        cases done
        exact allClosed_refused closed opened failed
      · rename_i real
        obtain ⟨files', wrote, done⟩ := bind_returns.mp done
        cases done
        exact allClosed_session closed opened real
          ((sameUse_seek files fd 0).trans (sameUse_writeArguments wrote))
    · cases done
      exact closed
  | rd argv =>
    change cmdRd s argv = _ at done
    unfold cmdRd at done
    split at done
    · obtain ⟨⟨files, fd⟩, opened, done⟩ := bind_returns.mp done
      dsimp only at done
      split at done
      · rename_i failed
        cases done
        exact allClosed_refused closed opened failed
      · rename_i real
        obtain ⟨⟨files', n, bytes⟩, read, done⟩ := bind_returns.mp done
        cases done
        exact allClosed_session closed opened real
          ((sameUse_seek files fd 0).trans (sameUse_read read))
    · cases done
      exact closed
  | mk answer argv =>
    change cmdMk s answer argv = _ at done
    unfold cmdMk at done
    split at done
    · split at done
      · cases done
        exact closed
      · obtain ⟨⟨fs, result⟩, -, done⟩ := bind_returns.mp done
        cases done
        exact closed
    · cases done
      exact closed

/-! ## The commands -/

/-- The node that a call came to. -/
def target : Except Fault UInt32 → Option UInt32
  | .ok node => if node = 0 then none else some node
  | .error _ => none

/-- The node behind the descriptor that `cmd_rd` and `cmd_write` go on with. -/
def opened (s : ShellState) (path : CString) : Option UInt32 :=
  match sysOpen s.files path with
  | .ok (files, fd) => if fd < 0 then none else some (files.fdTable fd.toNat).node
  | .error _ => none

/-- The node that `cmd_cd` and `cmd_ls` go on with. -/
def resolved (s : ShellState) (path : CString) : Option UInt32 := target (shellTarget s path)

/-- The commands agree on what the path means, before and after `mk` takes it. -/
structure PathsAgree (s : ShellState) (answer : UInt32) (path : CString) : Prop where
  opens : opened s path = resolved s path
  creates : ∀ command rest s', opened s path = none → resolved s path = none →
    cmdMk s answer (command :: path :: rest) = .ok s' →
    s'.screen = s.screen ++ [cstring "File created\n"] → opened s' path = some answer

theorem target_some : target r = some node ↔ r = .ok node ∧ node ≠ 0 := by
  unfold target
  split
  · split
    · rename_i null
      exact iff_of_false (by simp) (fun ⟨same, real⟩ => real (by cases same; exact null))
    · rename_i real
      constructor
      · rintro ⟨⟩
        exact ⟨rfl, real⟩
      · rintro ⟨⟨⟩, -⟩
        rfl
  · exact iff_of_false (by simp) (by simp)

theorem opened_eq (closed : AllClosed s.files) (path : CString) :
    opened s path = target (vfsLookup s.files.fs path) := by
  unfold opened
  cases lookup : vfsLookup s.files.fs path with
  | error fault =>
    have failed : sysOpen s.files path = .error fault := by rw [sysOpen, lookup]; rfl
    rw [failed]
    rfl
  | ok node =>
    by_cases null : node = 0
    · rw [(sysOpen_returns closed).mpr (.inl ⟨null ▸ lookup, rfl, rfl⟩), target, if_pos null]
      rfl
    · obtain ⟨i, found⟩ := freeDescriptor closed
      have positive : ¬ (i : Int) < 0 := by omega
      rw [(sysOpen_returns closed).mpr (.inr ⟨node, i, lookup, null, found, rfl, rfl⟩), target,
        if_neg null]
      simp [positive, Files.setDesc]

theorem vfsLookup_start (linked : Linked s) (joined : Joined s) (path : CString) :
    target (vfsLookup s.fs path) = some node ↔
      s.fs.vfsRoot ∈ s.nodes ∧ resolveParts s.fs s.fs.vfsRoot (parts path) = .ok node ∧ node ≠ 0 := by
  rw [target_some, vfsLookup_eq]
  by_cases unset : s.fs.vfsRoot = 0
  · rw [if_pos unset]
    refine iff_of_false (fun ⟨same, real⟩ => ?_) fun ⟨member, _⟩ => linked.node_ne_zero member unset
    cases same
    exact real rfl
  · rw [if_neg unset]
    have member := (linked.roots _ (joined.vfsRoot unset)).1
    exact ⟨fun found => ⟨member, found⟩, And.right⟩

theorem resolved_of_visits (linked : Linked s) (joined : Joined s) (member : n ∈ s.nodes)
    (visits : Visits s.fs n route visited) :
    ∃ node, resolveParts s.fs n route = .ok node ∧ node ≠ 0 := by
  induction visits with
  | done node => exact ⟨node, rfl, linked.node_ne_zero member⟩
  | step enters rest ih =>
    obtain ⟨node, found, real⟩ :=
      ih (vfsCheckMount_mem linked joined (enters_child linked member enters).1)
    exact ⟨node, by rwa [resolveParts_enters enters], real⟩

/-- A path names a node exactly if the walk comes to one. -/
theorem names_iff (linked : Linked s) (joined : Joined s) (start : n = 0 ∨ n ∈ s.nodes)
    (path : CString) : Names s.fs n path ↔
      n ≠ 0 ∧ ∃ node, resolveParts s.fs n (parts path) = .ok node ∧ node ≠ 0 := by
  refine and_congr_right fun real => ⟨fun ⟨visited, visits⟩ => ?_, fun ⟨node, found, real⟩ =>
    visits_of_resolved found real⟩
  exact resolved_of_visits linked joined (start.resolve_left real) visits

/-- The state in which `mk` ends when it succeeds. -/
def afterMk (sh : ShellState) (fs : FileSystem) : ShellState :=
  { sh with files := { sh.files with fs := fs } }.print "File created\n"

theorem opened_afterMk (closed : AllClosed sh.files) (fs : FileSystem) (path : CString) :
    opened (afterMk sh fs) path = target (vfsLookup fs path) :=
  opened_eq (s := afterMk sh fs) closed path

/-- `mk` succeeds exactly if the working directory has room and the name fits. -/
theorem cmdMk_creates (linked : Linked s) (same : sh.files.fs = s.fs) (dir : sh.cwd ∈ s.nodes)
    (fresh : answer ∉ s.blocks) : (cmdMk sh answer (command :: path :: rest) = .ok sh' ∧
      sh'.screen = sh.screen ++ [cstring "File created\n"]) ↔
    (s.fs.nodes sh.cwd).children.length < 32 ∧ answer ≠ 0 ∧ path.length ≤ 63 ∧
      sh' = afterMk sh (created s answer sh.cwd path vfsFile).fs := by
  have other : answer ≠ sh.cwd := by
    rintro rfl
    exact fresh (linked.nodes _ dir)
  have real : sh.cwd ≠ 0 := linked.node_ne_zero dir
  rw [cmdMk, if_neg real, same, bind_returns]
  constructor
  · rintro ⟨⟨⟨fs, result⟩, created, done⟩, shown⟩
    obtain ⟨-, ⟨full, rfl, rfl⟩ | ⟨room, positive, fits, rfl, rfl⟩⟩ :=
      (ramfsCreate_returns other).mp created
    · cases done
      have texts : cstring "Failed to create file\n" = cstring "File created\n" :=
        List.singleton_inj.mp (List.append_cancel_left shown)
      exact absurd texts (by decide +kernel)
    · cases done
      exact ⟨room, positive, fits, rfl⟩
  · rintro ⟨room, positive, fits, rfl⟩
    refine ⟨⟨⟨_, 0⟩, (ramfsCreate_returns other).mpr ⟨real, .inr ⟨room, positive, fits, rfl, rfl⟩⟩, rfl⟩,
      rfl⟩

/-- Agreement needs an absolute path, the root as the working directory, or a path
that leads nowhere. -/
theorem opens_iff (linked : Linked s) (joined : Joined s) (same : sh.files.fs = s.fs)
    (dir : sh.cwd ∈ s.nodes) (closed : AllClosed sh.files) (path : CString) :
    opened sh path = resolved sh path ↔ path.head? = some slash ∨ sh.cwd = s.fs.vfsRoot ∨
      (¬ Names s.fs s.fs.vfsRoot path ∧ ¬ Names s.fs sh.cwd path) := by
  have root : s.fs.vfsRoot = 0 ∨ s.fs.vfsRoot ∈ s.nodes := by
    by_cases unset : s.fs.vfsRoot = 0
    · exact .inl unset
    · exact .inr (linked.roots _ (joined.vfsRoot unset)).1
  rw [opened_eq closed, resolved, shellTarget, same]
  by_cases absolute : path.head? = some slash
  · simp only [absolute, if_true, true_or]
  · simp only [absolute, if_false, false_or]
    rw [names_iff linked joined root, names_iff linked joined (.inr dir)]
    constructor
    · intro agree
      by_contra otherwise
      obtain ⟨elsewhere, somewhere⟩ := not_or.mp otherwise
      -- both walks come to the same node, so they start at the same node
      have meets : ∃ node, vfsLookup s.fs path = .ok node ∧
          pathResolve s.fs sh.cwd path = .ok node ∧ node ≠ 0 := by
        rcases not_and_or.mp somewhere with fromRoot | fromDir
        · obtain ⟨set, node, found, real⟩ := not_not.mp fromRoot
          have lookup : vfsLookup s.fs path = .ok node := by rw [vfsLookup_eq, if_neg set, found]
          have there := target_some.mpr ⟨lookup, real⟩
          rw [agree] at there
          exact ⟨node, lookup, (target_some.mp there).1, real⟩
        · obtain ⟨-, node, found, real⟩ := not_not.mp fromDir
          have resolves : pathResolve s.fs sh.cwd path = .ok node := by rw [pathResolve_eq, found]
          have there := target_some.mpr ⟨resolves, real⟩
          rw [← agree] at there
          exact ⟨node, (target_some.mp there).1, resolves, real⟩
      obtain ⟨node, lookup, resolves, real⟩ := meets
      obtain ⟨member, found, -⟩ :=
        (vfsLookup_start linked joined path).mp (target_some.mpr ⟨lookup, real⟩)
      rw [pathResolve_eq] at resolves
      exact elsewhere (resolveParts_injective linked joined dir member resolves found real)
    · rintro (here | ⟨noRoot, noDir⟩)
      · rw [vfsLookup, if_neg (here ▸ linked.node_ne_zero dir), here]
      · have nothing : target (vfsLookup s.fs path) = none := by
          refine Option.eq_none_iff_forall_ne_some.mpr fun node there => noRoot ?_
          obtain ⟨member, found⟩ := (vfsLookup_start linked joined path).mp there
          exact ⟨linked.node_ne_zero member, node, found⟩
        have nothing' : target (pathResolve s.fs sh.cwd path) = none := by
          refine Option.eq_none_iff_forall_ne_some.mpr fun node there => noDir ?_
          rw [target_some, pathResolve_eq] at there
          exact ⟨linked.node_ne_zero dir, node, there⟩
        rw [nothing, nothing']

/-- A plain new name in the root leads to the new node. -/
theorem created_plain (linked : Linked s) (joined : Joined s) (dir : s.fs.vfsRoot ∈ s.nodes)
    (fresh : answer ∉ s.blocks) (room : (s.fs.nodes s.fs.vfsRoot).children.length < 32)
    (real : answer ≠ 0) (fits : path.length ≤ 63) (plain : slash ∉ path)
    (isNew : ¬ Names s.fs s.fs.vfsRoot path) :
    vfsLookup (created s answer s.fs.vfsRoot path vfsFile).fs path = .ok answer := by
  have legal : Legal s (.create answer s.fs.vfsRoot path vfsFile) := ⟨dir, fresh⟩
  have made := created_made linked legal room real
  have set := linked.node_ne_zero dir
  have nonempty : path ≠ [] := by
    rintro rfl
    exact isNew ⟨set, [], .done _⟩
  have route : parts path = [path] := parts_plain nonempty plain
  generalize created s answer s.fs.vfsRoot path vfsFile = s' at made ⊢
  -- no child had the name, so the lookup finds the last one
  have others : ∀ child ∈ (s.fs.nodes s.fs.vfsRoot).children, (s.fs.nodes child).name ≠ path := by
    intro child member name
    have found : ∃ found, Enters s.fs s.fs.vfsRoot path found := by
      cases search : (s.fs.nodes s.fs.vfsRoot).children.find? fun child =>
          strcmp (s.fs.nodes child).name path = 0 with
      | none =>
        have differs := List.find?_eq_none.mp search child member
        exact absurd (by simpa using strcmp_eq_zero.mpr name) differs
      | some first =>
        have below := linked.children _ dir first (List.mem_of_find?_eq_some search)
        refine ⟨first, fits, ?_, linked.node_ne_zero below.1⟩
        rw [opsLookup_eq, if_neg set, search]
        rfl
    obtain ⟨found, enters⟩ := found
    refine isNew ⟨set, [found], ?_⟩
    rw [route]
    exact .step enters (.done _)
  have isNode : answer ∉ s.nodes := fun member => fresh (linked.nodes _ member)
  have search : (s'.fs.nodes s.fs.vfsRoot).children.find?
      (fun child => strcmp (s'.fs.nodes child).name path = 0) = some answer := by
    rw [(made_keeps made dir).2.2.2.2, if_pos rfl, List.find?_append]
    have none : (s.fs.nodes s.fs.vfsRoot).children.find?
        (fun child => strcmp (s'.fs.nodes child).name path = 0) = none := by
      refine List.find?_eq_none.mpr fun child member => ?_
      rw [(made_keeps made (linked.children _ dir child member).1).1]
      simpa [strcmp_eq_zero] using others child member
    have name : (s'.fs.nodes answer).name = path := by rw [made.made]; rfl
    rw [none]
    simp [name, strcmp_eq_zero]
  have enters : Enters s'.fs s.fs.vfsRoot path answer := by
    refine ⟨fits, ?_, real⟩
    rw [opsLookup_eq, if_neg set, search]
    rfl
  have uncovered : vfsCheckMount s'.fs answer = answer := by
    refine vfsCheckMount_uncovered fun ⟨mount, entry, here⟩ => isNode ?_
    rw [made.mounts] at entry
    exact here ▸ (joined.mounts mount entry).1
  rw [vfsLookup_eq, made.vfsRoot, if_neg set, route, resolveParts_enters enters, uncovered]
  rfl

/-- The new node is found under its name in the root only. -/
theorem plain_of_created (linked : Linked s) (joined : Joined s)
    (legal : Legal s (.create answer dir path vfsFile))
    (room : (s.fs.nodes dir).children.length < 32) (real : answer ≠ 0)
    (found : vfsLookup (created s answer dir path vfsFile).fs path = .ok answer) :
    slash ∉ path ∧ dir = s.fs.vfsRoot := by
  have made := created_made linked legal room real
  have linked' := linked_made linked legal.2 made
  have joined' := joined_made joined made
  have isNode : answer ∉ s.nodes := fun member => legal.2 (linked.nodes _ member)
  obtain ⟨member, walk, -⟩ := (vfsLookup_start linked' joined' path).mp (target_some.mpr ⟨found, real⟩)
  have set : s.fs.vfsRoot ≠ 0 := linked'.node_ne_zero member
  have start : s.fs.vfsRoot ∈ s.nodes := (linked.roots _ (joined.vfsRoot set)).1
  have hasPart : parts path ≠ [] := by
    intro empty
    rw [empty] at walk
    have here : s.fs.vfsRoot = answer := Except.ok.inj walk
    exact isNode (here ▸ start)
  have unmounted : ∀ mount ∈ (created s answer dir path vfsFile).fs.mounts, mount.2 ≠ answer := by
    rintro mount entry rfl
    exact isNode (linked.roots _ (joined.mounts mount entry).2).1
  obtain ⟨front, part, last, route, before, enters⟩ := resolveParts_last walk real unmounted hasPart
  have held : last ∈ (created s answer dir path vfsFile).nodes := by
    apply resolveParts_mem linked' joined' member before
    rintro rfl
    have lookup := enters.2.1
    rw [opsLookup_eq, if_pos rfl] at lookup
    cases lookup
  obtain ⟨-, parent, name⟩ := enters_child linked' held enters
  rw [made.made] at parent name
  have here : dir = last := parent
  have same : path = part := name
  have plain : slash ∉ path := by
    have member : part ∈ parts path := by simp [route]
    rw [same]
    exact slash_notMem_parts member
  have nonempty : path ≠ [] := by
    rintro rfl
    exact hasPart rfl
  rw [parts_plain nonempty plain, List.singleton_eq_append_iff] at route
  refine ⟨plain, ?_⟩
  rcases route with ⟨rfl, -⟩ | ⟨-, impossible⟩
  · have start : s.fs.vfsRoot = last := Except.ok.inj before
    rw [here, start]
  · simp at impossible

/-- When the shell commands agree on a path. -/
def Agreed (sh : ShellState) (answer : UInt32) (path : CString) : Prop :=
  let s := sh.files.fs
  (path.head? = some slash ∨ sh.cwd = s.vfsRoot ∨
    (¬ Names s s.vfsRoot path ∧ ¬ Names s sh.cwd path)) ∧
  (Names s s.vfsRoot path ∨ 32 ≤ (s.nodes sh.cwd).children.length ∨ 63 < path.length ∨ answer = 0 ∨
    (slash ∉ path ∧ sh.cwd = s.vfsRoot))

/-- In every file system that ramfs calls and mounts lead to, the commands agree on
a path, and `rd` and `write` find what `mk` made of it, exactly if the path is
absolute, the working directory is the root or the path names nothing, and `mk`
has nothing to make, cannot make it, or gets a plain name in the root. -/
theorem paths_agree (grown : Grown s) (same : sh.files.fs = s.fs) (dir : sh.cwd ∈ s.nodes)
    (closed : AllClosed sh.files) (fresh : answer ∉ s.blocks) (path : CString) :
    PathsAgree sh answer path ↔ Agreed sh answer path := by
  have linked := linked_run grown
  have joined := joined_run grown
  have legal : Legal s (.create answer sh.cwd path vfsFile) := ⟨dir, fresh⟩
  have opens := opens_iff linked joined same dir closed path
  -- nothing is opened exactly if the path names nothing from the root
  have nothing : opened sh path = none ↔ ¬ Names s.fs s.fs.vfsRoot path := by
    have root : s.fs.vfsRoot = 0 ∨ s.fs.vfsRoot ∈ s.nodes := by
      by_cases unset : s.fs.vfsRoot = 0
      · exact .inl unset
      · exact .inr (linked.roots _ (joined.vfsRoot unset)).1
    rw [names_iff linked joined root, opened_eq closed, same, Option.eq_none_iff_forall_ne_some,
      ← not_exists, not_iff_not]
    constructor
    · rintro ⟨node, there⟩
      obtain ⟨member, found⟩ := (vfsLookup_start linked joined path).mp there
      exact ⟨linked.node_ne_zero member, node, found⟩
    · rintro ⟨set, node, found⟩
      exact ⟨node, (vfsLookup_start linked joined path).mpr ⟨root.resolve_left set, found⟩⟩
  unfold Agreed
  rw [same]
  constructor
  · rintro ⟨opensSame, creates⟩
    refine ⟨opens.mp opensSame, ?_⟩
    by_contra otherwise
    simp only [not_or, Nat.not_le, Nat.not_lt] at otherwise
    obtain ⟨unnamed, room, fits, real, elsewhere⟩ := otherwise
    have empty := nothing.mpr unnamed
    obtain ⟨done, shown⟩ : cmdMk sh answer [cstring "mk", path] = .ok _ ∧ _ :=
      (cmdMk_creates linked same dir fresh).mpr ⟨room, real, fits, rfl⟩
    have there := creates _ _ _ empty (opensSame.symm.trans empty) done shown
    rw [opened_afterMk closed, target_some] at there
    exact elsewhere (plain_of_created linked joined legal room real there.1)
  · rintro ⟨agree, ready⟩
    refine ⟨opens.mpr agree, fun command rest sh' empty _ done shown => ?_⟩
    obtain ⟨room, real, fits, rfl⟩ := (cmdMk_creates linked same dir fresh).mp ⟨done, shown⟩
    have unnamed := nothing.mp empty
    rcases ready with named | full | long | null | ⟨plain, here⟩
    · exact absurd named unnamed
    · exact absurd room (Nat.not_lt_of_le full)
    · exact absurd fits (Nat.not_le_of_lt long)
    · exact absurd null real
    · rw [opened_afterMk closed, target_some]
      rw [here] at dir room ⊢
      exact ⟨created_plain linked joined dir fresh room real fits plain unnamed, real⟩

/-- The first instance as the root file system. -/
def rooted : RamState := { withRoot with fs := { withRoot.fs with vfsRoot := 0x100 } }

theorem rooted_grown : Grown rooted :=
  withRoot_checked.grown.next (a := .setRoot 0x100) ⟨by simp [Legal, withRoot], rfl⟩

/-- The shell in a directory of a file system, with no descriptor in use. -/
def shellIn (fs : FileSystem) (cwd : UInt32) : ShellState :=
  ⟨⟨fs, fun _ => ⟨false, 0, 0⟩⟩, cwd, []⟩

/-- In the directory mounted on `/tmp` a path that leads to its file, and a new name in the root. -/
theorem paths_agree_mounted : PathsAgree (shellIn mountedTree.fs 0x400) 0x600 (cstring "/tmp/b") ∧
    PathsAgree (shellIn mountedTree.fs 0x100) 0x600 (cstring "c") := by
  have grown := mountedTree_checked.grown
  have dir : (0x400 : UInt32) ∈ mountedTree.nodes := by decide +kernel
  have root : (0x100 : UInt32) ∈ mountedTree.nodes := by decide +kernel
  have fresh : (0x600 : UInt32) ∉ mountedTree.blocks := by decide +kernel
  have start : mountedTree.fs.vfsRoot = 0x100 := by decide +kernel
  have names : Names mountedTree.fs mountedTree.fs.vfsRoot (cstring "/tmp/b") :=
    (names_iff (linked_run grown) (joined_run grown) (.inr (start ▸ root)) _).mpr
      ⟨by decide +kernel, 0x500, by decide +kernel, by decide⟩
  constructor
  · exact (paths_agree grown rfl dir (fun _ _ => rfl) fresh (cstring "/tmp/b")).mpr
      ⟨.inl (by decide +kernel), .inl names⟩
  · exact (paths_agree grown rfl root (fun _ _ => rfl) fresh (cstring "c")).mpr
      ⟨.inr (.inl start.symm), .inr (.inr (.inr (.inr ⟨by decide +kernel, start.symm⟩)))⟩

/-- The root file system with the directory `tmp`, as at boot. -/
def withTmp : RamState := created rooted 0x200 0x100 (cstring "tmp") vfsDir

theorem withTmp_grown : Grown withTmp := by
  have legal : Legal rooted (.create 0x200 0x100 (cstring "tmp") vfsDir) :=
    ⟨by simp [rooted, withRoot], by simp [rooted, withRoot]⟩
  exact rooted_grown.next ⟨legal, (create_made (linked_run rooted_grown) legal).mpr
    (.inr ⟨by decide, by decide, by decide, rfl⟩)⟩

/-- In `/tmp`, `mk a` makes a file that `rd a` does not find. -/
theorem made_file_is_not_found : ¬ ∀ s sh answer path, Grown s → sh.files.fs = s.fs →
    sh.cwd ∈ s.nodes → AllClosed sh.files → answer ∉ s.blocks → PathsAgree sh answer path := by
  intro claim
  have dir : (0x200 : UInt32) ∈ withTmp.nodes := by simp [withTmp, created]
  have closed : AllClosed (shellIn withTmp.fs 0x200).files := fun _ _ => rfl
  have fresh : (0x300 : UInt32) ∉ withTmp.blocks := by simp [withTmp, created, rooted, withRoot]
  have linked := linked_run withTmp_grown
  have agree := claim withTmp (shellIn withTmp.fs 0x200) 0x300 (cstring "a") withTmp_grown rfl dir
    closed fresh
  have room : (withTmp.fs.nodes 0x200).children.length < 32 := by decide +kernel
  obtain ⟨done, shown⟩ :
      cmdMk (shellIn withTmp.fs 0x200) 0x300 [cstring "mk", cstring "a"] = .ok _ ∧ _ :=
    (cmdMk_creates linked rfl dir fresh).mpr ⟨room, by decide, by decide +kernel, rfl⟩
  have empty : opened (shellIn withTmp.fs 0x200) (cstring "a") = none := by
    rw [opened_eq closed, vfsLookup_eq]
    decide +kernel
  have there := agree.creates _ _ _ empty (agree.opens.symm.trans empty) done shown
  rw [opened_afterMk closed, target_some] at there
  have elsewhere := plain_of_created linked (joined_run withTmp_grown) ⟨dir, fresh⟩ room (by decide)
    there.1
  exact absurd elsewhere.2 (by decide)

end ZynthexOS.ShellPaths
