import ZynthexOS.TreeShape

/-! Who owns the blocks of ramfs. Nodes stay in their tree for ever; a buffer is
owned until a write replaces it, since `ramfs_write` copies the old buffer and
does not release it. -/
namespace ZynthexOS.BufferOwnership
open Lib Text Fs RamfsCalls RamfsTree TreeShape

/-- The block is a node of a tree, or the buffer of exactly one. -/
def OwnedBlock (s : RamState) (b : UInt32) : Prop :=
  InTree s b ∨ ∃! n, InTree s n ∧ (s.fs.nodes n).data = b

/-- Every block that ramfs took is owned. -/
def Owned (s : RamState) : Prop := ∀ b ∈ s.blocks, OwnedBlock s b

/-- A write that grows a file finds it without a buffer. -/
def FirstBuffer (s : RamState) : RamCall → Prop
  | .write _ node offset size _ => Grows s.fs node offset size → (s.fs.nodes node).data = 0
  | _ => True

/-- A block that is not NULL has at most one owner. -/
theorem ownedBlock_iff (linked : Linked s) (real : b ≠ 0) :
    OwnedBlock s b ↔ b ∈ s.nodes ∨ ∃ n ∈ s.nodes, (s.fs.nodes n).data = b := by
  unfold OwnedBlock
  simp only [linked.inTree_iff]
  refine or_congr_right ⟨fun ⟨n, held, _⟩ => ⟨n, held⟩, fun ⟨n, member, held⟩ => ?_⟩
  refine ⟨n, ⟨member, held⟩, fun m ⟨member', held'⟩ => ?_⟩
  exact linked.owner m member' n member (held' ▸ real) (held'.trans held.symm)

theorem owned_iff (linked : Linked s) : Owned s ↔
    ∀ b ∈ s.blocks, b ∈ s.nodes ∨ ∃ n ∈ s.nodes, (s.fs.nodes n).data = b := by
  refine forall₂_congr fun b held => ownedBlock_iff linked ?_
  rintro rfl
  exact linked.nonNull held

theorem owned_made (linked : Linked s) (linked' : Linked s') (owned : Owned s)
    (made : Made s s' node parent name flags) : Owned s' := by
  rw [owned_iff linked] at owned
  rw [owned_iff linked', made.blocks, made.nodes]
  intro b held
  rcases List.mem_cons.mp held with rfl | before
  · exact .inl List.mem_cons_self
  · rcases owned b before with isNode | ⟨n, member, buffer⟩
    · exact .inl (List.mem_cons_of_mem _ isNode)
    · exact .inr ⟨n, List.mem_cons_of_mem _ member, (made_keeps made member).2.2.2.1.trans buffer⟩

/-- A write keeps the blocks owned exactly if it replaces no buffer. -/
theorem owned_write (linked : Linked s) (owned : Owned s)
    (legal : Legal s (.write answer node offset size buffer))
    (taken : RamStep s (.write answer node offset size buffer) s') :
    Owned s' ↔ FirstBuffer s (.write answer node offset size buffer) := by
  have linked' := linked_step linked legal taken
  obtain ⟨nodes, -, wrote, blocks⟩ := write_wrote taken
  obtain ⟨existing, fresh⟩ := legal
  rw [owned_iff linked] at owned
  rw [owned_iff linked', nodes]
  change _ ↔ (Grows s.fs node offset size → _)
  by_cases grows : Grows s.fs node offset size
  · rw [if_pos grows] at wrote
    simp only [grows, true_and, true_implies] at blocks ⊢
    constructor
    · intro after
      by_contra buffer
      -- the old buffer is a block that is no node and that no node names any more
      obtain ⟨held, apart⟩ := linked.data node existing buffer
      have still : (s.fs.nodes node).data ∈ s'.blocks := by
        rw [blocks]
        split
        · exact List.mem_cons_of_mem _ held
        · exact held
      rcases after _ still with isNode | ⟨n, member, same⟩
      · exact apart isNode
      · by_cases here : n = node
        · subst here
          rw [wrote.data] at same
          exact fresh (same ▸ held)
        · rw [wrote.others n here] at same
          exact here (linked.owner n member node existing (same ▸ buffer) same)
    · intro without b held
      have old : b ∈ s.blocks → b ∈ s.nodes ∨ ∃ n ∈ s.nodes, (s'.fs.nodes n).data = b := by
        intro before
        refine (owned b before).imp_right fun ⟨n, member, same⟩ => ⟨n, member, ?_⟩
        have other : n ≠ node := by
          rintro rfl
          exact linked.nonNull (without ▸ same ▸ before)
        rw [wrote.others n other, same]
      rw [blocks] at held
      split at held
      · rcases List.mem_cons.mp held with rfl | before
        · exact .inr ⟨node, existing, wrote.data⟩
        · exact old before
      · exact old held
  · rw [if_neg grows] at wrote
    simp only [grows, false_and, if_false] at blocks
    have same : ∀ n, (s'.fs.nodes n).data = (s.fs.nodes n).data := by
      intro n
      by_cases here : n = node
      · rw [here, wrote.data]
      · rw [wrote.others n here]
    simp only [blocks, same, grows, false_implies, iff_true]
    exact owned

theorem owned_step (linked : Linked s) (owned : Owned s) (ok : FirstBuffer s call)
    (legal : Legal s call) (taken : RamStep s call s') : Owned s' := by
  have linked' := linked_step linked legal taken
  cases call with
  | createInstance answer =>
    exact owned_made linked linked' owned (createInstance_made linked legal taken)
  | create answer parent name flags =>
    rcases (create_made linked legal).mp taken with ⟨-, rfl⟩ | ⟨room, real, -, rfl⟩
    · exact owned
    · exact owned_made linked linked' owned (created_made linked legal room real)
  | write answer node offset size buffer => exact (owned_write linked owned legal taken).mpr ok
  | setRoot root =>
    cases taken
    rw [owned_iff linked] at owned
    exact (owned_iff linked').mpr owned
  | mount path fsRoot =>
    obtain ⟨mp, -, -, rfl⟩ := mount_keeps taken
    rw [owned_iff linked] at owned
    exact (owned_iff linked').mpr owned

/-- The states reached when no write replaced a buffer. -/
def NoneReplaced (s : RamState) : Prop :=
  Reachable AtBoot (Guarded FirstBuffer (Guarded Legal RamStep)) s

theorem NoneReplaced.grown (reached : NoneReplaced s) : Grown s :=
  reached.mono fun _ _ _ taken => taken.2

/-- The state after the file at `0x200` got `size` bytes from its start on. -/
def rewritten (s : RamState) (answer size : UInt32) : RamState :=
  ⟨stored (grown s.fs ⟨answer, fun _ => 0⟩ 0x200 (0 + size)) 0x200 0 size fun _ => 0,
    s.nodes, s.roots, answer :: s.blocks⟩

theorem rewritten_taken (grows : Grows s.fs 0x200 0 size) (real : answer ≠ 0)
    (copies : Copies s.fs ⟨answer, fun _ => 0⟩ 0x200 (0 + size))
    (room : touch answer 0 size.toNat (0 + size).toNat = .ok ()) :
    RamStep s (.write ⟨answer, fun _ => 0⟩ 0x200 0 size fun _ => 0) (rewritten s answer size) := by
  refine ⟨_, _, ramfsWrite_grows (by decide) grows copies room, ?_⟩
  rw [if_pos ⟨grows, real⟩]
  rfl

/-- One byte in the first file. -/
def oneByte : RamState := rewritten oneFile 0x300 1

theorem oneByte_taken : Guarded Legal RamStep oneFile (.write ⟨0x300, fun _ => 0⟩ 0x200 0 1 fun _ => 0) oneByte := by
  refine ⟨⟨by simp [oneFile, created], by simp [oneFile, created, withRoot]⟩, rewritten_taken ?_ (by decide) ?_ rfl⟩
  · decide +kernel
  · exact fun buffer => absurd rfl buffer

theorem oneFile_noneReplaced : NoneReplaced oneFile := by
  have reached : NoneReplaced withRoot := .next (.start atBoot_first) ⟨by trivial, withRoot_taken⟩
  exact reached.next ⟨by trivial, oneFile_taken⟩

/-- Another byte over it, in the buffer that the file has. -/
def otherByte : RamState := { oneByte with fs := stored oneByte.fs 0x200 0 1 fun _ => 7 }

theorem otherByte_taken :
    Guarded Legal RamStep oneByte (.write ⟨0x400, fun _ => 0⟩ 0x200 0 1 fun _ => 7) otherByte := by
  have fits : ¬ Grows oneByte.fs 0x200 0 1 := by decide +kernel
  have legal : Legal oneByte (.write ⟨0x400, fun _ => 0⟩ 0x200 0 1 fun _ => 7) := by decide +kernel
  refine ⟨legal, _, asInt 1, ramfsWrite_returns.mpr ⟨by decide, .inr ⟨by decide +kernel, oneByte.fs, ?_,
    by decide +kernel, rfl, rfl⟩⟩, ?_⟩
  · rw [if_neg fits]
  · rw [if_neg fun both => fits both.1]
    rfl

end ZynthexOS.BufferOwnership
