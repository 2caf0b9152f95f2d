import ZynthexOS.Fs.Vfs

/-! What the calls of ramfs change when they return: creating stores one new node
and appends it to its parent, writing changes the buffer, size and capacity of its
node only. -/
namespace ZynthexOS.RamfsCalls
open Text Fs

/-- The state after a child was created. -/
def withChild (s : FileSystem) (child parent : UInt32) (name : CString) (flags : UInt32) :
    FileSystem :=
  { s with nodes := fun a =>
      if a = parent then { s.nodes parent with children := (s.nodes parent).children ++ [child] }
      else if a = child then createdNode parent name flags
      else s.nodes a }

theorem setNode_same (s : FileSystem) (a : UInt32) (node : RamfsNode) :
    (s.setNode a node).nodes a = node :=
  if_pos rfl

theorem setNode_ne (s : FileSystem) (node : RamfsNode) (ne : b ≠ a) :
    (s.setNode a node).nodes b = s.nodes b :=
  if_neg ne

theorem storeBelow_ok : storeBelow table count = .ok () ↔ count ≤ table.size := by
  unfold storeBelow
  split <;> simp_all

/-- A `ramfs_create` that returns finds the directory full, or makes the node. -/
theorem ramfsCreate_returns (fresh : child ≠ parent) :
    ramfsCreate s child parent name flags = .ok (s', result) ↔ parent ≠ 0 ∧
      ((32 ≤ (s.nodes parent).children.length ∧ s' = s ∧ result = -1) ∨
        ((s.nodes parent).children.length < 32 ∧ child ≠ 0 ∧ name.length ≤ 63 ∧
          s' = withChild s child parent name flags ∧ result = 0)) := by
  unfold ramfsCreate
  split_ifs with noParent full noMemory
  · simp [noParent]
  · have notFree : ¬ (s.nodes parent).children.length < 32 := Nat.not_lt_of_le full
    simp [noParent, full, notFree, eq_comm]
  · have notFull : ¬ 32 ≤ (s.nodes parent).children.length := full
    simp [noMemory, notFull]
  · have room : (s.nodes parent).children.length < 32 := Nat.lt_of_not_le full
    have kept : (s.setNode child (createdNode parent name flags)).nodes parent = s.nodes parent :=
      setNode_ne _ _ fresh.symm
    have appended : appendChild (s.setNode child (createdNode parent name flags)) parent child =
        .ok (withChild s child parent name flags) := by
      have inside : storeBelow .children ((s.nodes parent).children.length + 1) = .ok () :=
        storeBelow_ok.mpr room
      simp only [appendChild, kept, inside]
      rfl
    by_cases fits : name.length ≤ 63
    · have inside : storeBelow .name (strlen name + 1) = .ok () :=
        storeBelow_ok.mpr (Nat.succ_le_succ fits)
      rw [inside]
      change (appendChild _ parent child >>= fun s => .ok (s, 0)) = _ ↔ _
      rw [appended]
      have notFull : ¬ 32 ≤ (s.nodes parent).children.length := Nat.not_le_of_lt room
      change Except.ok (withChild s child parent name flags, (0 : Int)) = _ ↔ _
      simp [noParent, notFull, room, noMemory, fits, eq_comm]
    · have outside : storeBelow .name (strlen name + 1) = .error (.overrun .name 64) :=
        if_neg fun below => fits (Nat.le_of_succ_le_succ below)
      rw [outside]
      refine iff_of_false (by rintro ⟨⟩) ?_
      rintro ⟨-, ⟨isFull, -⟩ | ⟨-, -, short, -⟩⟩
      · exact full isFull
      · exact fits short

/-- The write asks `kmalloc` for a larger buffer. -/
def Grows (s : FileSystem) (node offset size : UInt32) : Prop :=
  (s.nodes node).flags &&& vfsDir = 0 ∧ offset + size > (s.nodes node).capacity

instance : Decidable (Grows s node offset size) := inferInstanceAs (Decidable (_ ∧ _))

/-- The state with the new buffer, that holds what the old one did. -/
def grown (s : FileSystem) (answer : Answer) (node newCapacity : UInt32) : FileSystem :=
  let rnode := s.nodes node
  let installed := s.install answer
  (if rnode.data ≠ 0 then installed.copyBuffer answer.address rnode.data rnode.size.toNat
    else installed).setNode node { rnode with data := answer.address, capacity := newCapacity }

/-- The copy of the old bytes stays inside both buffers. -/
def Copies (s : FileSystem) (answer : Answer) (node newCapacity : UInt32) : Prop :=
  let rnode := s.nodes node
  rnode.data ≠ 0 → touch rnode.data 0 rnode.size.toNat rnode.capacity.toNat = .ok () ∧
    touch answer.address 0 rnode.size.toNat newCapacity.toNat = .ok ()

theorem growBuffer_returns : growBuffer s answer node newCapacity = .ok s' ↔
    Copies s answer node newCapacity ∧ s' = grown s answer node newCapacity := by
  unfold growBuffer Copies grown
  by_cases old : (s.nodes node).data = 0
  · simp [old, eq_comm]
  · simp only [old, ne_eq, not_false_iff, if_true, true_implies]
    cases touch (s.nodes node).data 0 (s.nodes node).size.toNat (s.nodes node).capacity.toNat with
    | error fault => exact iff_of_false (by rintro ⟨⟩) (by rintro ⟨⟨⟨⟩, -⟩, -⟩)
    | ok _ =>
      cases touch answer.address 0 (s.nodes node).size.toNat newCapacity.toNat with
      | error fault => exact iff_of_false (by rintro ⟨⟩) (by rintro ⟨⟨-, ⟨⟩⟩, -⟩)
      | ok _ => exact ⟨fun same => ⟨⟨rfl, rfl⟩, (Except.ok.inj same).symm⟩, fun both => by rw [both.2]; rfl⟩

/-- The state after a write that found room: the bytes stored, the size extended. -/
def stored (s : FileSystem) (node offset size : UInt32) (buffer : Nat → UInt8) : FileSystem :=
  let rnode := s.nodes node
  let s := s.setBuffer rnode.data (memcpy (s.buffers rnode.data) offset.toNat buffer size.toNat)
  if offset + size > rnode.size then s.setNode node { rnode with size := offset + size } else s

/-- A write that returns was on a directory, or stored its bytes in a buffer that
has room for them. -/
theorem ramfsWrite_returns :
    ramfsWrite s answer node offset size buffer = .ok (s', result) ↔ node ≠ 0 ∧
      (((s.nodes node).flags &&& vfsDir ≠ 0 ∧ s' = s ∧ result = -1) ∨
        ((s.nodes node).flags &&& vfsDir = 0 ∧ ∃ t,
          (if Grows s node offset size then
            Copies s answer node (offset + size) ∧ t = grown s answer node (offset + size)
          else t = s) ∧
          touch (t.nodes node).data offset.toNat size.toNat (t.nodes node).capacity.toNat = .ok () ∧
          s' = stored t node offset size buffer ∧ result = asInt size)) := by
  unfold ramfsWrite
  by_cases null : node = 0
  · simp [null]
  by_cases dir : (s.nodes node).flags &&& vfsDir = 0
  · have after : ∀ t : FileSystem,
        (touch (t.nodes node).data offset.toNat size.toNat (t.nodes node).capacity.toNat >>= fun _ =>
          Except.ok (stored t node offset size buffer, asInt size)) = .ok (s', result) ↔
        touch (t.nodes node).data offset.toNat size.toNat (t.nodes node).capacity.toNat = .ok () ∧
          s' = stored t node offset size buffer ∧ result = asInt size := by
      intro t
      cases touch (t.nodes node).data offset.toNat size.toNat (t.nodes node).capacity.toNat with
      | error fault => exact iff_of_false (by rintro ⟨⟩) (by rintro ⟨⟨⟩, -⟩)
      | ok _ =>
        constructor
        · rintro ⟨⟩
          exact ⟨rfl, rfl, rfl⟩
        · rintro ⟨-, rfl, rfl⟩
          rfl
    by_cases more : offset + size > (s.nodes node).capacity
    · have grows : Grows s node offset size := ⟨dir, more⟩
      simp only [null, dir, more, grows, ne_eq, not_true, not_false_iff, if_true, if_false, false_and,
        false_or, true_and]
      cases done : growBuffer s answer node (offset + size) with
      | error fault =>
        refine iff_of_false (by rintro ⟨⟩) ?_
        rintro ⟨t, copies, -⟩
        rw [growBuffer_returns.mpr copies] at done
        cases done
      | ok t =>
        refine (after t).trans ⟨fun rest => ⟨t, growBuffer_returns.mp done, rest⟩, ?_⟩
        rintro ⟨u, copies, rest⟩
        rw [growBuffer_returns.mpr copies] at done
        cases done
        exact rest
    · have fits : ¬ Grows s node offset size := fun grows => more grows.2
      simp only [null, dir, more, fits, ne_eq, not_true, not_false_iff, if_false, false_and,
        false_or, true_and, exists_eq_left]
      exact after s
  · simp [null, dir, eq_comm]

theorem install_keeps (s : FileSystem) (answer : Answer) :
    (s.install answer).nodes = s.nodes ∧ (s.install answer).mounts = s.mounts ∧
      (s.install answer).vfsRoot = s.vfsRoot := by
  unfold FileSystem.install
  split <;> exact ⟨rfl, rfl, rfl⟩

theorem grown_node (s : FileSystem) (answer : Answer) (node newCapacity : UInt32) :
    (grown s answer node newCapacity).nodes node =
      { s.nodes node with data := answer.address, capacity := newCapacity } :=
  setNode_same _ _ _

theorem grown_keeps (s : FileSystem) (answer : Answer) (node newCapacity : UInt32) :
    (∀ a ≠ node, (grown s answer node newCapacity).nodes a = s.nodes a) ∧
      (grown s answer node newCapacity).mounts = s.mounts ∧
      (grown s answer node newCapacity).vfsRoot = s.vfsRoot := by
  obtain ⟨nodes, mounts, vfsRoot⟩ := install_keeps s answer
  unfold grown
  dsimp only
  split
  · exact ⟨fun a ne => (setNode_ne _ _ ne).trans (congrFun nodes a), mounts, vfsRoot⟩
  · exact ⟨fun a ne => (setNode_ne _ _ ne).trans (congrFun nodes a), mounts, vfsRoot⟩

/-- A write that grows the file and has room in the new buffer returns. -/
theorem ramfsWrite_grows (real : node ≠ 0) (grows : Grows s node offset size)
    (copies : Copies s answer node (offset + size))
    (room : touch answer.address offset.toNat size.toNat (offset + size).toNat = .ok ()) :
    ramfsWrite s answer node offset size buffer =
      .ok (stored (grown s answer node (offset + size)) node offset size buffer, asInt size) := by
  refine ramfsWrite_returns.mpr ⟨real, .inr ⟨grows.1, grown s answer node (offset + size), ?_, ?_, rfl, rfl⟩⟩
  · rw [if_pos grows]
    exact ⟨copies, rfl⟩
  · rw [grown_node]
    exact room

theorem stored_node (s : FileSystem) (node offset size : UInt32) (buffer : Nat → UInt8) :
    (stored s node offset size buffer).nodes node = { s.nodes node with
      size := if offset + size > (s.nodes node).size then offset + size
        else (s.nodes node).size } := by
  unfold stored
  dsimp only
  split
  · exact setNode_same _ _ _
  · rfl

theorem stored_keeps (s : FileSystem) (node offset size : UInt32) (buffer : Nat → UInt8) :
    (∀ a ≠ node, (stored s node offset size buffer).nodes a = s.nodes a) ∧
      (stored s node offset size buffer).mounts = s.mounts ∧
      (stored s node offset size buffer).vfsRoot = s.vfsRoot := by
  unfold stored
  dsimp only
  split
  · exact ⟨fun a ne => setNode_ne _ _ ne, rfl, rfl⟩
  · exact ⟨fun _ _ => rfl, rfl, rfl⟩

/-- What a write leaves: everything but the buffer, capacity and size of its node. -/
structure Wrote (s s' : FileSystem) (node data : UInt32) : Prop where
  others : ∀ a ≠ node, s'.nodes a = s.nodes a
  name : (s'.nodes node).name = (s.nodes node).name
  flags : (s'.nodes node).flags = (s.nodes node).flags
  parent : (s'.nodes node).parent = (s.nodes node).parent
  children : (s'.nodes node).children = (s.nodes node).children
  data : (s'.nodes node).data = data
  mounts : s'.mounts = s.mounts
  vfsRoot : s'.vfsRoot = s.vfsRoot

theorem stored_wrote (s : FileSystem) (node offset size : UInt32) (buffer : Nat → UInt8) :
    Wrote s (stored s node offset size buffer) node (s.nodes node).data := by
  obtain ⟨others, mounts, vfsRoot⟩ := stored_keeps s node offset size buffer
  refine ⟨others, ?_, ?_, ?_, ?_, ?_, mounts, vfsRoot⟩ <;> rw [stored_node]

theorem grown_wrote (s : FileSystem) (answer : Answer) (node newCapacity : UInt32) :
    Wrote s (grown s answer node newCapacity) node answer.address := by
  obtain ⟨others, mounts, vfsRoot⟩ := grown_keeps s answer node newCapacity
  refine ⟨others, ?_, ?_, ?_, ?_, ?_, mounts, vfsRoot⟩ <;> rw [grown_node]

theorem Wrote.trans {d e : UInt32} (first : Wrote s t node d) (second : Wrote t u node e) :
    Wrote s u node e where
  others a ne := (second.others a ne).trans (first.others a ne)
  name := second.name.trans first.name
  flags := second.flags.trans first.flags
  parent := second.parent.trans first.parent
  children := second.children.trans first.children
  data := second.data
  mounts := second.mounts.trans first.mounts
  vfsRoot := second.vfsRoot.trans first.vfsRoot

theorem wrote_self (s : FileSystem) (node : UInt32) : Wrote s s node (s.nodes node).data := by
  constructor <;> intros <;> rfl

/-- A write that returns leaves the tree as it is; it replaces the buffer when it
grows the file. -/
theorem ramfsWrite_wrote (returned : ramfsWrite s answer node offset size buffer = .ok (s', result)) :
    Wrote s s' node (if Grows s node offset size then answer.address else (s.nodes node).data) := by
  obtain ⟨-, ⟨dir, rfl, -⟩ | ⟨-, t, grows, -, rfl, -⟩⟩ := ramfsWrite_returns.mp returned
  · rw [if_neg fun grows => dir grows.1]
    exact wrote_self s' node
  · split_ifs at grows ⊢
    · obtain ⟨-, rfl⟩ := grows
      have kept := grown_wrote s answer node (offset + size)
      have bytes := stored_wrote (grown s answer node (offset + size)) node offset size buffer
      rw [kept.data] at bytes
      exact kept.trans bytes
    · subst grows
      exact stored_wrote t node offset size buffer

end ZynthexOS.RamfsCalls
