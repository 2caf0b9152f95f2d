import ZynthexOS.Lib.Runs
import ZynthexOS.RamfsCalls

/-! The trees that ramfs builds, with a ledger of the nodes made, of the roots
returned and of the blocks that `kmalloc` handed out. Children and parents always
agree; that only directories have children and that siblings have different names
is left to the callers of `ramfs_create`, and a buffer that a write replaces is
left to nobody. -/
namespace ZynthexOS.RamfsTree
open Lib Text Fs RamfsCalls

/-- The file system with the ledger. `ramfs.c` calls `kfree` nowhere. -/
structure RamState where
  fs : FileSystem
  nodes : List UInt32
  roots : List UInt32
  blocks : List UInt32

/-- A call that makes, changes or mounts nodes, with what `kmalloc` answers, and
the assignment `vfs_root = main_root` of `kernel_boot`. -/
inductive RamCall where
  | createInstance (answer : UInt32)
  | create (answer parent : UInt32) (name : CString) (flags : UInt32)
  | write (answer : Answer) (node offset size : UInt32) (buffer : Nat → UInt8)
  | setRoot (root : UInt32)
  | mount (path : CString) (fsRoot : UInt32)

/-- A call that returns. -/
def RamStep (s : RamState) : RamCall → RamState → Prop
  | .createInstance answer, s' =>
    ∃ fs root, ramfsCreateInstance s.fs answer = .ok (fs, root) ∧
      s' = ⟨fs, root :: s.nodes, root :: s.roots, answer :: s.blocks⟩
  | .create answer parent name flags, s' =>
    ∃ fs result, ramfsCreate s.fs answer parent name flags = .ok (fs, result) ∧
      s' = if result = 0 then ⟨fs, answer :: s.nodes, s.roots, answer :: s.blocks⟩
        else { s with fs := fs }
  | .write answer node offset size buffer, s' =>
    ∃ fs result, ramfsWrite s.fs answer node offset size buffer = .ok (fs, result) ∧
      s' = ⟨fs, s.nodes, s.roots,
        if Grows s.fs node offset size ∧ answer.address ≠ 0 then answer.address :: s.blocks
        else s.blocks⟩
  | .setRoot root, s' => s' = { s with fs := { s.fs with vfsRoot := root } }
  | .mount path fsRoot, s' => ∃ fs, vfsMount s.fs path fsRoot = .ok fs ∧ s' = { s with fs := fs }

/-- The nodes exist and `kmalloc` hands out no block twice. What is mounted is the
root of an instance that is not mounted yet. -/
def Legal (s : RamState) : RamCall → Prop
  | .createInstance answer => answer ∉ s.blocks
  | .create answer parent _ _ => parent ∈ s.nodes ∧ answer ∉ s.blocks
  | .write answer node _ _ _ => node ∈ s.nodes ∧ answer.address ∉ s.blocks
  | .setRoot root => root ∈ s.roots
  | .mount _ fsRoot => fsRoot ∈ s.roots ∧ ∀ mount ∈ s.fs.mounts, fsRoot ≠ mount.2

/-- Nothing has been made yet. -/
def AtBoot (s : RamState) : Prop :=
  s.nodes = [] ∧ s.roots = [] ∧ s.blocks = [] ∧ s.fs.mounts = [] ∧ s.fs.vfsRoot = 0

/-- The states that legal calls lead to. -/
def Grown (s : RamState) : Prop := Reachable AtBoot (Guarded Legal RamStep) s

/-- A node reached from a returned root through the children. -/
inductive InTree (s : RamState) : UInt32 → Prop where
  | root (returned : r ∈ s.roots) : InTree s r
  | child (below : InTree s n) (member : c ∈ (s.fs.nodes n).children) : InTree s c

/-- What every run keeps: children exist and name their parent, every node is in a
tree, and every buffer is the buffer of one node. -/
structure Linked (s : RamState) : Prop where
  nonNull : 0 ∉ s.blocks
  nodes : ∀ n ∈ s.nodes, n ∈ s.blocks
  roots : ∀ r ∈ s.roots, r ∈ s.nodes ∧ (s.fs.nodes r).parent = 0
  children : ∀ n ∈ s.nodes, ∀ c ∈ (s.fs.nodes n).children, c ∈ s.nodes ∧ (s.fs.nodes c).parent = n
  room : ∀ n ∈ s.nodes, (s.fs.nodes n).children.length ≤ 32
  inTree : ∀ n ∈ s.nodes, InTree s n
  data : ∀ n ∈ s.nodes, (s.fs.nodes n).data ≠ 0 →
    (s.fs.nodes n).data ∈ s.blocks ∧ (s.fs.nodes n).data ∉ s.nodes
  owner : ∀ n ∈ s.nodes, ∀ m ∈ s.nodes, (s.fs.nodes n).data ≠ 0 →
    (s.fs.nodes n).data = (s.fs.nodes m).data → n = m

theorem Linked.node_ne_zero (linked : Linked s) (member : n ∈ s.nodes) : n ≠ 0 := by
  rintro rfl
  exact linked.nonNull (linked.nodes _ member)

/-- The tree holds the nodes of the ledger and no others. -/
theorem Linked.inTree_iff (linked : Linked s) : InTree s n ↔ n ∈ s.nodes := by
  refine ⟨fun inside => ?_, linked.inTree n⟩
  induction inside with
  | root returned => exact (linked.roots _ returned).1
  | child _ member ih => exact (linked.children _ ih _ member).1

theorem inTree_mono (inside : InTree s n) (roots : ∀ r ∈ s.roots, r ∈ s'.roots)
    (children : ∀ n, InTree s n → ∀ c ∈ (s.fs.nodes n).children, c ∈ (s'.fs.nodes n).children) :
    InTree s' n := by
  induction inside with
  | root returned => exact .root (roots _ returned)
  | child below member ih => exact .child ih (children _ below _ member)

/-! ## What one call does -/

/-- A node was made: the root of an instance, with `parent` 0, or a child. -/
structure Made (s s' : RamState) (node parent : UInt32) (name : CString) (flags : UInt32) :
    Prop where
  real : node ≠ 0
  nodes : s'.nodes = node :: s.nodes
  blocks : s'.blocks = node :: s.blocks
  made : s'.fs.nodes node = createdNode parent name flags
  old : ∀ n ∈ s.nodes, s'.fs.nodes n =
    if n = parent then { s.fs.nodes n with children := (s.fs.nodes n).children ++ [node] }
    else s.fs.nodes n
  place : (parent = 0 ∧ s'.roots = node :: s.roots) ∨
    (parent ∈ s.nodes ∧ (s.fs.nodes parent).children.length < 32 ∧ s'.roots = s.roots)
  mounts : s'.fs.mounts = s.fs.mounts
  vfsRoot : s'.fs.vfsRoot = s.fs.vfsRoot

theorem createInstance_made (linked : Linked s) (legal : Legal s (.createInstance answer))
    (taken : RamStep s (.createInstance answer) s') :
    Made s s' answer 0 (cstring "/") vfsDir := by
  obtain ⟨fs, root, made, rfl⟩ := taken
  unfold ramfsCreateInstance at made
  split at made
  · cases made
  · rename_i positive
    cases made
    refine ⟨positive, rfl, rfl, setNode_same _ _ _, fun n member => ?_, .inl ⟨rfl, rfl⟩, rfl, rfl⟩
    have other : n ≠ answer := by
      rintro rfl
      exact legal (linked.nodes n member)
    rw [if_neg (linked.node_ne_zero member)]
    exact setNode_ne _ _ other

/-- The state after a child was made. -/
def created (s : RamState) (child parent : UInt32) (name : CString) (flags : UInt32) : RamState :=
  ⟨withChild s.fs child parent name flags, child :: s.nodes, s.roots, child :: s.blocks⟩

/-- Creating in a full directory does nothing; elsewhere the child is made. -/
theorem create_made (linked : Linked s) (legal : Legal s (.create answer parent name flags)) :
    RamStep s (.create answer parent name flags) s' ↔
      (32 ≤ (s.fs.nodes parent).children.length ∧ s' = s) ∨
      ((s.fs.nodes parent).children.length < 32 ∧ answer ≠ 0 ∧ name.length ≤ 63 ∧
        s' = created s answer parent name flags) := by
  obtain ⟨existing, fresh⟩ := legal
  have positive : parent ≠ 0 := linked.node_ne_zero existing
  have other : answer ≠ parent := by
    rintro rfl
    exact fresh (linked.nodes _ existing)
  constructor
  · rintro ⟨fs, result, made, rfl⟩
    obtain ⟨-, ⟨full, rfl, rfl⟩ | ⟨room, real, fits, rfl, rfl⟩⟩ := (ramfsCreate_returns other).mp made
    · exact .inl ⟨full, rfl⟩
    · exact .inr ⟨room, real, fits, rfl⟩
  · rintro (⟨full, rfl⟩ | ⟨room, real, fits, rfl⟩)
    · exact ⟨_, -1, (ramfsCreate_returns other).mpr ⟨positive, .inl ⟨full, rfl, rfl⟩⟩, rfl⟩
    · exact ⟨_, 0, (ramfsCreate_returns other).mpr ⟨positive, .inr ⟨room, real, fits, rfl, rfl⟩⟩, rfl⟩

theorem created_made (linked : Linked s) (legal : Legal s (.create answer parent name flags))
    (room : (s.fs.nodes parent).children.length < 32) (real : answer ≠ 0) :
    Made s (created s answer parent name flags) answer parent name flags := by
  obtain ⟨existing, fresh⟩ := legal
  have other : ∀ n ∈ s.nodes, n ≠ answer := by
    rintro n member rfl
    exact fresh (linked.nodes _ member)
  refine ⟨real, rfl, rfl, ?_, fun n member => ?_, .inr ⟨existing, room, rfl⟩, rfl, rfl⟩
  · have apart : answer ≠ parent := (other parent existing).symm
    simp [created, withChild, apart]
  · by_cases here : n = parent
    · subst here
      simp [created, withChild]
    · simp [created, withChild, here, other n member]

/-- A write changes the buffer of its node at most, and one that grows the file
takes a block for it. -/
theorem write_wrote (taken : RamStep s (.write answer node offset size buffer) s') :
    s'.nodes = s.nodes ∧ s'.roots = s.roots ∧
    Wrote s.fs s'.fs node
      (if Grows s.fs node offset size then answer.address else (s.fs.nodes node).data) ∧
    s'.blocks = if Grows s.fs node offset size ∧ answer.address ≠ 0 then answer.address :: s.blocks
      else s.blocks := by
  obtain ⟨fs, result, wrote, rfl⟩ := taken
  exact ⟨rfl, rfl, ramfsWrite_wrote wrote, rfl⟩

theorem mount_keeps (taken : RamStep s (.mount path fsRoot) s') : ∃ mp,
    vfsLookup s.fs path = .ok mp ∧ mp ≠ 0 ∧
      s' = { s with fs := { s.fs with mounts := s.fs.mounts ++ [(mp, fsRoot)] } } := by
  obtain ⟨fs, mounted, rfl⟩ := taken
  unfold vfsMount at mounted
  cases found : vfsLookup s.fs path with
  | error fault =>
    rw [found] at mounted
    cases mounted
  | ok mp =>
    rw [found] at mounted
    change (if mp = 0 then _ else _) = _ at mounted
    split at mounted
    · cases mounted
    · rename_i positive
      cases inside : storeBelow .mounts (s.fs.mounts.length + 1) with
      | error fault =>
        rw [inside] at mounted
        cases mounted
      | ok _ =>
        rw [inside] at mounted
        cases mounted
        exact ⟨mp, rfl, positive, rfl⟩

/-! ## What every run keeps -/

theorem Made.mem_nodes (made : Made s s' node parent name flags) :
    n ∈ s'.nodes ↔ n = node ∨ n ∈ s.nodes := by
  rw [made.nodes, List.mem_cons]

theorem made_keeps (made : Made s s' node parent name flags) (member : n ∈ s.nodes) :
    (s'.fs.nodes n).name = (s.fs.nodes n).name ∧ (s'.fs.nodes n).flags = (s.fs.nodes n).flags ∧
      (s'.fs.nodes n).parent = (s.fs.nodes n).parent ∧ (s'.fs.nodes n).data = (s.fs.nodes n).data ∧
      (s'.fs.nodes n).children =
        if n = parent then (s.fs.nodes n).children ++ [node] else (s.fs.nodes n).children := by
  rw [made.old n member]
  split <;> exact ⟨rfl, rfl, rfl, rfl, rfl⟩

theorem made_children (made : Made s s' node parent name flags) (member : n ∈ s.nodes) :
    c ∈ (s'.fs.nodes n).children ↔ c ∈ (s.fs.nodes n).children ∨ (n = parent ∧ c = node) := by
  rw [(made_keeps made member).2.2.2.2]
  split <;> simp_all

/-- The new node is in no tree that was there. -/
theorem made_inTree (linked : Linked s) (made : Made s s' node parent name flags)
    (member : n ∈ s.nodes) : InTree s' n := by
  refine inTree_mono (linked.inTree n member) (fun r returned => ?_) fun n below c child => ?_
  · rcases made.place with ⟨-, roots⟩ | ⟨-, -, roots⟩
    · rw [roots]
      exact List.mem_cons_of_mem _ returned
    · rwa [roots]
  · exact (made_children made (linked.inTree_iff.mp below)).mpr (.inl child)

/-- A node with a buffer was there before, with that buffer. -/
theorem made_buffer (made : Made s s' node parent name flags) (member : n ∈ s'.nodes)
    (buffer : (s'.fs.nodes n).data ≠ 0) :
    n ∈ s.nodes ∧ (s'.fs.nodes n).data = (s.fs.nodes n).data := by
  rcases made.mem_nodes.mp member with rfl | member
  · rw [made.made] at buffer
    exact absurd rfl buffer
  · exact ⟨member, (made_keeps made member).2.2.2.1⟩

theorem linked_made (linked : Linked s) (fresh : node ∉ s.blocks)
    (made : Made s s' node parent name flags) : Linked s' := by
  have isNew : node ∉ s.nodes := fun member => fresh (linked.nodes _ member)
  have cleared : (s'.fs.nodes node).children = [] ∧ (s'.fs.nodes node).parent = parent := by
    rw [made.made]
    exact ⟨rfl, rfl⟩
  have parentOf : ∀ n ∈ s.nodes, (s'.fs.nodes n).parent = (s.fs.nodes n).parent :=
    fun n member => (made_keeps made member).2.2.1
  constructor
  case nonNull =>
    rw [made.blocks, List.mem_cons, not_or]
    exact ⟨made.real.symm, linked.nonNull⟩
  case nodes =>
    intro n member
    rw [made.blocks, List.mem_cons]
    exact (made.mem_nodes.mp member).imp_right (linked.nodes n)
  case roots =>
    intro r returned
    rw [made.mem_nodes]
    have old : r ∈ s.roots → (r = node ∨ r ∈ s.nodes) ∧ (s'.fs.nodes r).parent = 0 := by
      intro before
      obtain ⟨member, top⟩ := linked.roots r before
      exact ⟨.inr member, (parentOf r member).trans top⟩
    rcases made.place with ⟨rfl, roots⟩ | ⟨-, -, roots⟩
    · rw [roots, List.mem_cons] at returned
      rcases returned with rfl | before
      · exact ⟨.inl rfl, cleared.2⟩
      · exact old before
    · rw [roots] at returned
      exact old returned
  case children =>
    intro n member c child
    rw [made.mem_nodes]
    rcases made.mem_nodes.mp member with rfl | member
    · rw [cleared.1] at child
      cases child
    · rcases (made_children made member).mp child with before | ⟨rfl, rfl⟩
      · obtain ⟨below, names⟩ := linked.children n member c before
        exact ⟨.inr below, (parentOf c below).trans names⟩
      · exact ⟨.inl rfl, cleared.2⟩
  case room =>
    intro n member
    rcases made.mem_nodes.mp member with rfl | member
    · simp [cleared.1]
    · rw [(made_keeps made member).2.2.2.2]
      split
      · rename_i here
        rcases made.place with ⟨null, -⟩ | ⟨-, room, -⟩
        · exact absurd (here.trans null) (linked.node_ne_zero member)
        · rw [here, List.length_append]
          exact room
      · exact linked.room n member
  case inTree =>
    intro n member
    rcases made.mem_nodes.mp member with rfl | member
    · rcases made.place with ⟨-, roots⟩ | ⟨existing, -, -⟩
      · apply InTree.root
        rw [roots]
        exact List.mem_cons_self
      · exact .child (made_inTree linked made existing)
          ((made_children made existing).mpr (.inr ⟨rfl, rfl⟩))
    · exact made_inTree linked made member
  case data =>
    intro n member buffer
    obtain ⟨old, data⟩ := made_buffer made member buffer
    rw [data] at buffer ⊢
    obtain ⟨held, apart⟩ := linked.data n old buffer
    rw [made.blocks, made.mem_nodes, List.mem_cons, not_or]
    refine ⟨.inr held, ?_, apart⟩
    rintro rfl
    exact fresh held
  case owner =>
    intro n member m member' buffer same
    obtain ⟨old, data⟩ := made_buffer made member buffer
    obtain ⟨old', data'⟩ := made_buffer made member' (same ▸ buffer)
    rw [data] at buffer same
    exact linked.owner n old m old' buffer (same.trans data')

theorem wrote_keeps (wrote : Wrote s s' node data) (n : UInt32) :
    (s'.nodes n).name = (s.nodes n).name ∧ (s'.nodes n).flags = (s.nodes n).flags ∧
      (s'.nodes n).parent = (s.nodes n).parent ∧ (s'.nodes n).children = (s.nodes n).children := by
  by_cases here : n = node
  · subst here
    exact ⟨wrote.name, wrote.flags, wrote.parent, wrote.children⟩
  · rw [wrote.others n here]
    exact ⟨rfl, rfl, rfl, rfl⟩

theorem linked_wrote (linked : Linked s) (nodes : s'.nodes = s.nodes) (roots : s'.roots = s.roots)
    (wrote : Wrote s.fs s'.fs node data)
    (kept : (data = (s.fs.nodes node).data ∨ data = 0) ∧ s'.blocks = s.blocks ∨
      data ≠ 0 ∧ data ∉ s.blocks ∧ s'.blocks = data :: s.blocks) : Linked s' := by
  have more : ∀ b ∈ s.blocks, b ∈ s'.blocks := by
    intro b held
    rcases kept with ⟨-, blocks⟩ | ⟨-, -, blocks⟩ <;> rw [blocks]
    · exact held
    · exact List.mem_cons_of_mem _ held
  -- a buffer is the one its node had, or the new block of the written node
  have buffers : ∀ n, (s'.fs.nodes n).data ≠ 0 → (s'.fs.nodes n).data = (s.fs.nodes n).data ∨
      (n = node ∧ (s'.fs.nodes n).data = data ∧ data ∉ s.blocks ∧ s'.blocks = data :: s.blocks) := by
    intro n buffer
    by_cases here : n = node
    · subst here
      rw [wrote.data] at buffer ⊢
      rcases kept with ⟨same | null, -⟩ | ⟨-, fresh, blocks⟩
      · exact .inl same
      · exact absurd null buffer
      · exact .inr ⟨rfl, rfl, fresh, blocks⟩
    · exact .inl (by rw [wrote.others n here])
  have children : ∀ n, (s'.fs.nodes n).children = (s.fs.nodes n).children :=
    fun n => (wrote_keeps wrote n).2.2.2
  have parents : ∀ n, (s'.fs.nodes n).parent = (s.fs.nodes n).parent :=
    fun n => (wrote_keeps wrote n).2.2.1
  constructor
  case nonNull =>
    intro null
    rcases kept with ⟨-, blocks⟩ | ⟨real, -, blocks⟩
    · exact linked.nonNull (blocks ▸ null)
    · rw [blocks, List.mem_cons] at null
      exact null.elim (fun same => real same.symm) linked.nonNull
  case nodes =>
    intro n member
    exact more n (linked.nodes n (nodes ▸ member))
  case roots =>
    intro r returned
    obtain ⟨member, top⟩ := linked.roots r (roots ▸ returned)
    exact ⟨nodes ▸ member, (parents r).trans top⟩
  case children =>
    intro n member c child
    rw [children] at child
    obtain ⟨below, names⟩ := linked.children n (nodes ▸ member) c child
    exact ⟨nodes ▸ below, (parents c).trans names⟩
  case room =>
    intro n member
    rw [children]
    exact linked.room n (nodes ▸ member)
  case inTree =>
    intro n member
    refine inTree_mono (linked.inTree n (nodes ▸ member)) (fun r returned => roots ▸ returned) ?_
    intro n _ c child
    rwa [children]
  case data =>
    intro n member buffer
    rw [nodes] at member ⊢
    rcases buffers n buffer with same | ⟨-, same, fresh, blocks⟩
    · rw [same] at buffer ⊢
      exact ⟨more _ (linked.data n member buffer).1, (linked.data n member buffer).2⟩
    · rw [same, blocks]
      exact ⟨List.mem_cons_self, fun isNode => fresh (linked.nodes _ isNode)⟩
  case owner =>
    intro n member m member' buffer same
    rw [nodes] at member member'
    have real : (s'.fs.nodes m).data ≠ 0 := same ▸ buffer
    rcases buffers n buffer with old | ⟨rfl, new, fresh, -⟩
    · rcases buffers m real with old' | ⟨rfl, new', fresh', -⟩
      · rw [old] at buffer same
        exact linked.owner n member m member' buffer (same.trans old')
      · refine absurd ?_ fresh'
        rw [← new', ← same, old]
        exact (linked.data n member (old ▸ buffer)).1
    · rcases buffers m real with old' | ⟨rfl, -⟩
      · refine absurd ?_ fresh
        rw [← new, same, old']
        exact (linked.data m member' (old' ▸ real)).1
      · rfl

theorem linked_congr (linked : Linked s) (nodes : s'.nodes = s.nodes) (roots : s'.roots = s.roots)
    (blocks : s'.blocks = s.blocks) (same : s'.fs.nodes = s.fs.nodes) : Linked s' := by
  obtain ⟨fs', nodes', roots', blocks'⟩ := s'
  dsimp only at nodes roots blocks same
  subst nodes roots blocks
  have inTree : ∀ n, InTree s n → InTree ⟨fs', s.nodes, s.roots, s.blocks⟩ n := fun n inside =>
    inTree_mono inside (fun _ returned => returned) fun _ _ _ child => by rwa [same]
  constructor <;> simp only [same]
  · exact linked.nonNull
  · exact linked.nodes
  · exact linked.roots
  · exact linked.children
  · exact linked.room
  · exact fun n member => inTree n (linked.inTree n member)
  · exact linked.data
  · exact linked.owner

theorem linked_step (linked : Linked s) (legal : Legal s call) (taken : RamStep s call s') :
    Linked s' := by
  cases call with
  | createInstance answer => exact linked_made linked legal (createInstance_made linked legal taken)
  | create answer parent name flags =>
    rcases (create_made linked legal).mp taken with ⟨-, rfl⟩ | ⟨room, real, -, rfl⟩
    · exact linked
    · exact linked_made linked legal.2 (created_made linked legal room real)
  | write answer node offset size buffer =>
    obtain ⟨nodes, roots, wrote, blocks⟩ := write_wrote taken
    apply linked_wrote linked nodes roots wrote
    by_cases grows : Grows s.fs node offset size
    · by_cases null : answer.address = 0
      · simp [grows, null, blocks]
      · have fresh : answer.address ∉ s.blocks := legal.2
        simp [grows, null, blocks, fresh]
    · simp [grows, blocks]
  | setRoot root =>
    cases taken
    exact linked_congr linked rfl rfl rfl rfl
  | mount path fsRoot =>
    obtain ⟨mp, -, -, rfl⟩ := mount_keeps taken
    exact linked_congr linked rfl rfl rfl rfl

/-- Every run keeps the trees linked. -/
theorem linked_run (reached : Grown s) : Linked s := by
  refine reached.induct Linked (fun s first => ?_) fun s call s' linked taken =>
    linked_step linked taken.1 taken.2
  obtain ⟨nodes, roots, blocks, -, -⟩ := first
  constructor <;> simp [nodes, roots, blocks]

end ZynthexOS.RamfsTree
