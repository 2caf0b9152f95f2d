import Mathlib.Data.List.Nodup
import ZynthexOS.Mounting
import ZynthexOS.RamfsTree

/-! Walks over the trees that ramfs builds and the mounts that join them. Every node
has one parent and every mounted root one mount point, so a walk can be followed
back: a path leads to a node from one start only. -/
namespace ZynthexOS.TreeWalks
open Lib Text Fs PathResolution Mounting RamfsTree

/-- A path names a node from the start. -/
def Names (s : FileSystem) (start : UInt32) (path : CString) : Prop :=
  start ≠ 0 ∧ ∃ visited, Visits s start (parts path) visited

/-- The mounts of a state join the trees of different instances. -/
structure Joined (s : RamState) : Prop where
  vfsRoot : s.fs.vfsRoot ≠ 0 → s.fs.vfsRoot ∈ s.roots
  mounts : ∀ mount ∈ s.fs.mounts, mount.1 ∈ s.nodes ∧ mount.2 ∈ s.roots
  distinct : (s.fs.mounts.map Prod.snd).Nodup

theorem vfsCheckMount_cases (s : FileSystem) (n : UInt32) :
    vfsCheckMount s n = n ∨ ∃ mount ∈ s.mounts, mount.1 = n ∧ vfsCheckMount s n = mount.2 := by
  unfold vfsCheckMount
  cases found : s.mounts.find? fun mount => n = mount.1 with
  | none => exact .inl rfl
  | some mount =>
    have here : n = mount.1 := by simpa using List.find?_some found
    exact .inr ⟨mount, List.mem_of_find?_eq_some found, here.symm, rfl⟩

theorem vfsCheckMount_mem (linked : Linked s) (joined : Joined s) (member : n ∈ s.nodes) :
    vfsCheckMount s.fs n ∈ s.nodes := by
  rcases vfsCheckMount_cases s.fs n with same | ⟨mount, entry, -, root⟩
  · rwa [same]
  · rw [root]
    exact (linked.roots _ (joined.mounts mount entry).2).1

/-- What a directory's child is, and where the walk goes on from it. -/
theorem enters_child (linked : Linked s) (member : n ∈ s.nodes)
    (enters : Enters s.fs n part found) :
    found ∈ s.nodes ∧ (s.fs.nodes found).parent = n ∧ (s.fs.nodes found).name = part := by
  obtain ⟨-, lookup, positive⟩ := enters
  obtain ⟨-, child, name⟩ := opsLookup_found lookup positive
  obtain ⟨below, parent⟩ := linked.children n member found child
  exact ⟨below, parent, name⟩

theorem resolveParts_mem (linked : Linked s) (joined : Joined s) (member : n ∈ s.nodes)
    (resolved : resolveParts s.fs n route = .ok target) (real : target ≠ 0) : target ∈ s.nodes := by
  induction route generalizing n with
  | nil =>
    cases resolved
    exact member
  | cons part route ih =>
    obtain ⟨found, enters, rest⟩ := enters_of_resolved resolved real
    exact ih (vfsCheckMount_mem linked joined (enters_child linked member enters).1) rest

/-- Two children that lead to the same node are the same child. -/
theorem vfsCheckMount_injective (linked : Linked s) (joined : Joined s)
    (member : n ∈ s.nodes) (member' : m ∈ s.nodes) (inner : (s.fs.nodes n).parent ≠ 0)
    (inner' : (s.fs.nodes m).parent ≠ 0) (same : vfsCheckMount s.fs n = vfsCheckMount s.fs m) :
    n = m := by
  rcases vfsCheckMount_cases s.fs n with here | ⟨mount, entry, rfl, here⟩
  · rcases vfsCheckMount_cases s.fs m with there | ⟨mount, entry, rfl, there⟩
    · rw [← here, same, there]
    · -- a root has no parent
      have root : n = mount.2 := by rw [← here, same, there]
      exact absurd (root ▸ (linked.roots _ (joined.mounts mount entry).2).2) inner
  · rcases vfsCheckMount_cases s.fs m with there | ⟨mount', entry', rfl, there⟩
    · have root : m = mount.2 := by rw [← there, ← same, here]
      exact absurd (root ▸ (linked.roots _ (joined.mounts mount entry).2).2) inner'
    · have roots : mount.2 = mount'.2 := by rw [← here, same, there]
      exact congrArg Prod.fst (List.inj_on_of_nodup_map joined.distinct entry entry' roots)

/-- A path leads to one node from one start only. -/
theorem resolveParts_injective (linked : Linked s) (joined : Joined s)
    (member : a ∈ s.nodes) (member' : b ∈ s.nodes)
    (resolved : resolveParts s.fs a route = .ok target)
    (resolved' : resolveParts s.fs b route = .ok target) (real : target ≠ 0) : a = b := by
  induction route generalizing a b with
  | nil =>
    cases resolved
    cases resolved'
    rfl
  | cons part route ih =>
    obtain ⟨found, enters, rest⟩ := enters_of_resolved resolved real
    obtain ⟨found', enters', rest'⟩ := enters_of_resolved resolved' real
    obtain ⟨below, parent, -⟩ := enters_child linked member enters
    obtain ⟨below', parent', -⟩ := enters_child linked member' enters'
    have next := ih (vfsCheckMount_mem linked joined below)
      (vfsCheckMount_mem linked joined below') rest rest'
    have same : found = found' := vfsCheckMount_injective linked joined below below'
      (parent.symm ▸ linked.node_ne_zero member) (parent'.symm ▸ linked.node_ne_zero member') next
    rw [← parent, ← parent', same]

/-- A walk to a node that is mounted nowhere ends with a lookup of its name in its
parent. -/
theorem resolveParts_last (resolved : resolveParts s n route = .ok target) (real : target ≠ 0)
    (unmounted : ∀ mount ∈ s.mounts, mount.2 ≠ target) (some : route ≠ []) :
    ∃ front part dir, route = front ++ [part] ∧ resolveParts s n front = .ok dir ∧
      Enters s dir part target := by
  induction route generalizing n with
  | nil => exact absurd rfl some
  | cons part route ih =>
    obtain ⟨found, enters, rest⟩ := enters_of_resolved resolved real
    by_cases last : route = []
    · subst last
      cases rest
      rcases vfsCheckMount_cases s found with same | ⟨mount, entry, -, root⟩
      · exact ⟨[], part, n, rfl, rfl, by rwa [same]⟩
      · exact absurd root.symm (unmounted mount entry)
    · obtain ⟨front, name, dir, rfl, before, enters'⟩ := ih rest last
      exact ⟨part :: front, name, dir, rfl, by rwa [resolveParts_enters enters], enters'⟩

/-! ## Every run keeps the mounts in order -/

theorem joined_made (joined : Joined s) (made : Made s s' node parent name flags) : Joined s' := by
  have more : ∀ r ∈ s.roots, r ∈ s'.roots := by
    intro r returned
    rcases made.place with ⟨-, roots⟩ | ⟨-, -, roots⟩ <;> rw [roots]
    · exact List.mem_cons_of_mem _ returned
    · exact returned
  constructor
  · rw [made.vfsRoot]
    exact fun set => more _ (joined.vfsRoot set)
  · rw [made.mounts, made.nodes]
    intro mount entry
    obtain ⟨point, root⟩ := joined.mounts mount entry
    exact ⟨List.mem_cons_of_mem _ point, more _ root⟩
  · rw [made.mounts]
    exact joined.distinct

theorem vfsLookup_mem (linked : Linked s) (joined : Joined s)
    (found : vfsLookup s.fs path = .ok node) (real : node ≠ 0) : node ∈ s.nodes := by
  rw [vfsLookup_eq] at found
  split at found
  · cases found
    exact absurd rfl real
  · rename_i set
    exact resolveParts_mem linked joined (linked.roots _ (joined.vfsRoot set)).1 found real

theorem joined_step (linked : Linked s) (joined : Joined s) (legal : Legal s call)
    (taken : RamStep s call s') : Joined s' := by
  cases call with
  | createInstance answer => exact joined_made joined (createInstance_made linked legal taken)
  | create answer parent name flags =>
    rcases (create_made linked legal).mp taken with ⟨-, rfl⟩ | ⟨room, real, -, rfl⟩
    · exact joined
    · exact joined_made joined (created_made linked legal room real)
  | write answer node offset size buffer =>
    obtain ⟨nodes, roots, wrote, -⟩ := write_wrote taken
    constructor
    · rw [wrote.vfsRoot, roots]
      exact joined.vfsRoot
    · rw [wrote.mounts, nodes, roots]
      exact joined.mounts
    · rw [wrote.mounts]
      exact joined.distinct
  | setRoot root =>
    cases taken
    exact ⟨fun _ => legal, joined.mounts, joined.distinct⟩
  | mount path fsRoot =>
    obtain ⟨mp, found, real, rfl⟩ := mount_keeps taken
    obtain ⟨returned, unused⟩ := legal
    have point : mp ∈ s.nodes := vfsLookup_mem linked joined found real
    refine ⟨joined.vfsRoot, fun mount entry => ?_, ?_⟩
    · rcases List.mem_append.mp entry with before | new
      · exact joined.mounts mount before
      · rw [List.mem_singleton.mp new]
        exact ⟨point, returned⟩
    · rw [List.map_append, List.nodup_append]
      refine ⟨joined.distinct, by simp, fun a before b new same => ?_⟩
      obtain ⟨mount, entry, rfl⟩ := List.mem_map.mp before
      rw [List.map_singleton, List.mem_singleton] at new
      exact unused mount entry (new.symm.trans same.symm)

theorem joined_run (reached : Grown s) : Joined s := by
  have both : Linked s ∧ Joined s := by
    refine reached.induct (fun s => Linked s ∧ Joined s) (fun s first => ?_) fun s call s' kept taken =>
      ⟨linked_step kept.1 taken.1 taken.2, joined_step kept.1 kept.2 taken.1 taken.2⟩
    refine ⟨linked_run (.start first), ?_⟩
    obtain ⟨-, -, -, mounts, vfsRoot⟩ := first
    constructor <;> simp [mounts, vfsRoot]
  exact both.2

end ZynthexOS.TreeWalks
