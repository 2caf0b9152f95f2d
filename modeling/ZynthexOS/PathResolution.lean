import ZynthexOS.Fs.Vfs

/-! Path resolution as a walk over the parts of the path: each part is looked up
in the directory reached so far, and a mount is entered from the node found. -/
namespace ZynthexOS.PathResolution
open Text Fs

/-- The first child with the name, 0 for NULL. -/
theorem opsLookup_eq (s : FileSystem) (node : UInt32) (name : CString) : opsLookup s node name =
    if node = 0 then .error .null
    else .ok (((s.nodes node).children.find? fun child => strcmp (s.nodes child).name name = 0).getD 0) := by
  unfold opsLookup ramfsLookup
  split <;> rfl

/-- Resolving the parts of a path one after the other. -/
def resolveParts (s : FileSystem) : UInt32 → List CString → Except Fault UInt32
  | node, [] => .ok node
  | node, part :: parts => do
    storeBelow .part (part.length + 1)
    let found ← opsLookup s node part
    if found = 0 then .ok 0 else resolveParts s (vfsCheckMount s found) parts

/-- The loops of `path_resolve` are that walk. -/
theorem pathResolve_eq (s : FileSystem) (node : UInt32) (path : CString) :
    pathResolve s node path = resolveParts s node (parts path) := by
  fun_induction pathResolve s node path with
  | case1 node path empty => rw [← parts_skip, empty]; rfl
  | case2 node path c tail skipped part rest ih =>
    rw [← parts_skip, skipped, parts_cons c tail (skip_spec skipped).1, resolveParts]
    refine bind_congr fun _ => bind_congr fun found => ?_
    split
    · rfl
    · exact ih found

theorem vfsLookup_eq (s : FileSystem) (path : CString) : vfsLookup s path =
    if s.vfsRoot = 0 then .ok 0 else resolveParts s s.vfsRoot (parts path) := by
  rw [vfsLookup, pathResolve_eq]

/-- The name fits and the directory has such a child. -/
def Enters (s : FileSystem) (node : UInt32) (part : CString) (found : UInt32) : Prop :=
  part.length ≤ 63 ∧ opsLookup s node part = .ok found ∧ found ≠ 0

theorem storeBelow_part (part : CString) :
    storeBelow .part (part.length + 1) =
      if part.length ≤ 63 then .ok () else .error (.overrun .part 64) := by
  unfold storeBelow
  by_cases fits : part.length ≤ 63
  · rw [if_pos fits]
    exact if_pos (Nat.succ_le_succ fits)
  · rw [if_neg fits]
    exact if_neg fun below => fits (Nat.le_of_succ_le_succ below)

/-- One part of the walk. -/
theorem resolveParts_enters (enters : Enters s node part found) (rest : List CString) :
    resolveParts s node (part :: rest) = resolveParts s (vfsCheckMount s found) rest := by
  obtain ⟨fits, lookup, positive⟩ := enters
  rw [resolveParts, storeBelow_part, if_pos fits, lookup]
  exact if_neg positive

/-- A walk that comes to a node enters its first part. -/
theorem enters_of_resolved (resolved : resolveParts s node (part :: rest) = .ok target)
    (positive : target ≠ 0) : ∃ found, Enters s node part found ∧
      resolveParts s (vfsCheckMount s found) rest = .ok target := by
  rw [resolveParts, storeBelow_part] at resolved
  split at resolved
  · rename_i fits
    cases lookup : opsLookup s node part with
    | error fault =>
      rw [lookup] at resolved
      cases resolved
    | ok found =>
      rw [lookup] at resolved
      change (if found = 0 then .ok 0 else resolveParts s (vfsCheckMount s found) rest) = _ at resolved
      by_cases null : found = 0
      · rw [if_pos null] at resolved
        cases resolved
        exact absurd rfl positive
      · rw [if_neg null] at resolved
        exact ⟨found, ⟨fits, lookup, null⟩, resolved⟩
  · cases resolved

/-- Where a walk does not enter a part, the lookup in that directory is how it
ends. -/
theorem resolveParts_stuck (stuck : ∀ found, ¬ Enters s node part found) (rest : List CString) :
    resolveParts s node (part :: rest) =
      (storeBelow .part (part.length + 1) >>= fun _ => opsLookup s node part) := by
  rw [resolveParts, storeBelow_part]
  split
  · rename_i fits
    cases lookup : opsLookup s node part with
    | error fault => rfl
    | ok found =>
      have null : found = 0 := by
        by_contra positive
        exact stuck found ⟨fits, lookup, positive⟩
      subst null
      rfl
  · rfl

/-- Lookups read the nodes only. -/
theorem opsLookup_congr (same : s'.nodes = s.nodes) (node : UInt32) (name : CString) :
    opsLookup s' node name = opsLookup s node name := by
  rw [opsLookup_eq, opsLookup_eq, same]

theorem enters_congr (same : s'.nodes = s.nodes) :
    Enters s' node part found ↔ Enters s node part found := by
  rw [Enters, Enters, opsLookup_congr same]

/-- What a lookup finds is a child with that name. -/
theorem opsLookup_found (lookup : opsLookup s node name = .ok found) (positive : found ≠ 0) :
    node ≠ 0 ∧ found ∈ (s.nodes node).children ∧ (s.nodes found).name = name := by
  rw [opsLookup_eq] at lookup
  split at lookup
  · cases lookup
  · rename_i real
    cases search : (s.nodes node).children.find? fun child => strcmp (s.nodes child).name name = 0 with
    | none =>
      rw [search] at lookup
      cases lookup
      exact absurd rfl positive
    | some child =>
      rw [search] at lookup
      cases lookup
      have here : strcmp (s.nodes child).name name = 0 := by simpa using List.find?_some search
      exact ⟨real, List.mem_of_find?_eq_some search, strcmp_eq_zero.mp here⟩

end ZynthexOS.PathResolution
