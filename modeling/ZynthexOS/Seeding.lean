import ZynthexOS.Shell.Seed
import ZynthexOS.ShellPaths

/-! Seeding the file system twice. The file of the root is looked for before it is
created, the one in `/tmp` is not: each time another child of that name is made there,
until the directory is full. -/
namespace ZynthexOS.Seeding
open Lib Text Fs PathResolution RamfsCalls RamfsTree TreeWalks Shell

/-- Both files are reported to be seeded. -/
def SeedsBoth (s s' : ShellState) : Prop :=
  s'.screen = s.screen ++ [cstring "Seeded /about.txt\n", cstring "Seeded /tmp/hello.txt\n"]

/-- Every node keeps its name, parent and kind, the number of its children, and what its
file holds. -/
structure SameTree (nodes : List UInt32) (s s' : FileSystem) : Prop where
  name : ∀ n ∈ nodes, (s'.nodes n).name = (s.nodes n).name
  parent : ∀ n ∈ nodes, (s'.nodes n).parent = (s.nodes n).parent
  kind : ∀ n ∈ nodes, (s'.nodes n).flags = (s.nodes n).flags
  count : ∀ n ∈ nodes, (s'.nodes n).children.length = (s.nodes n).children.length
  size : ∀ n ∈ nodes, (s'.nodes n).size = (s.nodes n).size
  bytes : ∀ n ∈ nodes, ∀ i < (s.nodes n).size.toNat,
    s'.buffers (s'.nodes n).data i = s.buffers (s.nodes n).data i

/-- No block that `kmalloc` answers has been handed out before. -/
structure FreshAnswers (r : RamState) (answers : SeedAnswers) : Prop where
  about : answers.about ∉ r.blocks
  aboutData : answers.aboutData.address ∉ answers.about :: r.blocks
  hello : answers.hello ∉ answers.aboutData.address :: answers.about :: r.blocks
  helloData : answers.helloData.address ∉
    answers.hello :: answers.aboutData.address :: answers.about :: r.blocks

/-- The blocks of one run. -/
def blocks (answers : SeedAnswers) : List UInt32 :=
  [answers.helloData.address, answers.hello, answers.aboutData.address, answers.about]

/-- Legal calls made nodes and appended children, with no blocks but these. -/
structure Extends (r : RamState) (taken : List UInt32) (r' : RamState) : Prop where
  run : ∃ calls, Run (Guarded Legal RamStep) r calls r'
  blocks : ∀ b ∈ r'.blocks, b ∈ taken ++ r.blocks
  nodes : ∀ n ∈ r.nodes, n ∈ r'.nodes
  children : ∀ n ∈ r.nodes, (r.fs.nodes n).children <+: (r'.fs.nodes n).children

variable {r r' : RamState} {s s' : ShellState} {answers : SeedAnswers}

theorem FreshAnswers.mono (fresh : FreshAnswers r answers) (fewer : r'.blocks ⊆ r.blocks) :
    FreshAnswers r' answers where
  about member := fresh.about (fewer member)
  aboutData member := fresh.aboutData (List.cons_subset_cons _ fewer member)
  hello member := fresh.hello (List.cons_subset_cons _ (List.cons_subset_cons _ fewer) member)
  helloData member := fresh.helloData
    (List.cons_subset_cons _ (List.cons_subset_cons _ (List.cons_subset_cons _ fewer)) member)

theorem Extends.refl (r : RamState) (taken : List UInt32) : Extends r taken r :=
  ⟨⟨[], .nil⟩, fun _ member => List.mem_append_right _ member, fun _ member => member,
    fun _ _ => List.prefix_rfl⟩

theorem Extends.trans (first : Extends r taken r') (second : Extends r' taken' r'') :
    Extends r (taken' ++ taken) r'' := by
  obtain ⟨calls, run⟩ := first.run
  obtain ⟨calls', run'⟩ := second.run
  refine ⟨⟨calls ++ calls', ?_⟩, fun b member => ?_, fun n member => ?_, fun n member => ?_⟩
  · exact run.append run'
  · rw [List.append_assoc, List.mem_append]
    rcases List.mem_append.mp (second.blocks b member) with new | old
    · exact .inl new
    · exact .inr (first.blocks b old)
  · exact second.nodes n (first.nodes n member)
  · exact (first.children n member).trans (second.children n (first.nodes n member))

theorem Extends.mono (more : Extends r taken r') (wider : taken ⊆ taken') : Extends r taken' r' := by
  refine ⟨more.run, fun b block => ?_, more.nodes, more.children⟩
  rcases List.mem_append.mp (more.blocks b block) with new | old
  · exact List.mem_append_left _ (wider new)
  · exact List.mem_append_right _ old

theorem Extends.grown (reached : Grown r) (more : Extends r taken r') : Grown r' := by
  obtain ⟨calls, run⟩ := more.run
  exact reached.run run

theorem lookup_mem (reached : Grown r) (found : vfsLookup r.fs path = .ok n) (real : n ≠ 0) :
    n ∈ r.nodes :=
  vfsLookup_mem (linked_run reached) (joined_run reached) found real

/-! ## Creating and writing -/

/-- A node was made and appended to its parent. -/
structure Appended (r r' : RamState) (node parent : UInt32) (flags : UInt32) : Prop where
  nodes : r'.nodes = node :: r.nodes
  flags : (r'.fs.nodes node).flags = flags
  children : (r'.fs.nodes parent).children = (r.fs.nodes parent).children ++ [node]

/-- A `ramfs_create` that returns 0 appends a child, and one that returns -1 does nothing. -/
theorem extends_create (reached : Grown r) (member : parent ∈ r.nodes) (fresh : answer ∉ r.blocks)
    (made : ramfsCreate r.fs answer parent name flags = .ok (fs, result)) :
    ∃ r', Extends r [answer] r' ∧ r'.fs = fs ∧
      ((result = 0 ∧ Appended r r' answer parent flags) ∨ (result ≠ 0 ∧ r' = r)) := by
  have linked := linked_run reached
  have legal : Legal r (.create answer parent name flags) := ⟨member, fresh⟩
  have other : answer ≠ parent := by
    rintro rfl
    exact fresh (linked.nodes _ member)
  obtain ⟨-, ⟨full, rfl, rfl⟩ | ⟨room, real, fits, rfl, rfl⟩⟩ := (ramfsCreate_returns other).mp made
  · exact ⟨r, .refl r _, rfl, .inr ⟨by decide, rfl⟩⟩
  · have taken := (create_made linked legal).mpr (.inr ⟨room, real, fits, rfl⟩)
    have shape := created_made linked legal room real
    refine ⟨_, ⟨⟨[_], .cons ⟨legal, taken⟩ .nil⟩, fun b block => block, ?_, ?_⟩, rfl,
      .inl ⟨rfl, rfl, ?_, ?_⟩⟩
    · exact fun n old => List.mem_cons_of_mem _ old
    · intro n old
      rw [(made_keeps shape old).2.2.2.2]
      split
      · exact List.prefix_append _ _
      · exact List.prefix_rfl
    · rw [shape.made]
      rfl
    · rw [(made_keeps shape member).2.2.2.2, if_pos rfl]

/-- A write to a node makes none and appends none. -/
theorem extends_write (member : node ∈ r.nodes) (fresh : answer.address ∉ r.blocks)
    (wrote : ramfsWrite r.fs answer node offset size buffer = .ok (fs, result)) :
    ∃ r', Extends r [answer.address] r' ∧ r'.fs = fs ∧ r'.nodes = r.nodes ∧
      ∀ n, (fs.nodes n).flags = (r.fs.nodes n).flags := by
  have legal : Legal r (.write answer node offset size buffer) := ⟨member, fresh⟩
  have taken : RamStep r (.write answer node offset size buffer) _ := ⟨fs, result, wrote, rfl⟩
  obtain ⟨-, -, kept, -⟩ := write_wrote taken
  refine ⟨_, ⟨⟨[_], .cons ⟨legal, taken⟩ .nil⟩, fun b block => ?_, fun n old => old, fun n _ => ?_⟩, rfl, rfl,
    fun n => (wrote_keeps kept n).2.1⟩
  · dsimp only at block
    split at block
    · exact block
    · exact List.mem_append_right _ block
  · have same : (fs.nodes n).children = (r.fs.nodes n).children := (wrote_keeps kept n).2.2.2
    exact ⟨[], by rw [List.append_nil, same]⟩

/-! ## The two halves -/

/-- Writing the text of a file. -/
theorem extends_text (here : s.files.fs = r.fs) (member : node ∈ r.nodes)
    (fresh : answer.address ∉ r.blocks) (ran : seedText s answer node text message = .ok s') :
    ∃ r', Extends r [answer.address] r' ∧ r'.fs = s'.files.fs ∧ r'.nodes = r.nodes ∧
      (∀ n, (r'.fs.nodes n).flags = (r.fs.nodes n).flags) ∧
      s'.screen = s.screen ++ [cstring message] := by
  obtain ⟨⟨fs, written⟩, wrote, result⟩ := bind_returns.mp ran
  cases result
  rw [here] at wrote
  obtain ⟨r', more, same, nodes, flags⟩ := extends_write member fresh wrote
  exact ⟨r', more, same, nodes, fun n => same ▸ flags n, rfl⟩

/-- Finding or creating the file of the root makes at most a file. -/
theorem extends_findAbout (reached : Grown r) (fresh : answer ∉ r.blocks)
    (ran : findAbout r.fs answer = .ok (fs, about)) :
    ∃ r', Extends r [answer] r' ∧ r'.fs = fs ∧ (about ≠ 0 → about ∈ r'.nodes) ∧
      ∀ n ∈ r'.nodes, n ∈ r.nodes ∨ (fs.nodes n).flags = vfsFile := by
  obtain ⟨found, lookup, ran⟩ := bind_returns.mp ran
  split_ifs at ran with some noRoot
  · cases ran
    exact ⟨r, .refl r _, rfl, lookup_mem reached lookup, fun n => .inl⟩
  · cases ran
    exact ⟨r, .refl r _, rfl, fun real => absurd rfl real, fun n => .inl⟩
  · have root : r.fs.vfsRoot ∈ r.nodes :=
      ((linked_run reached).roots _ ((joined_run reached).vfsRoot noRoot)).1
    obtain ⟨⟨fs', result⟩, made, ran⟩ := bind_returns.mp ran
    obtain ⟨r', more, same, new⟩ := extends_create reached root fresh made
    have kinds : ∀ n ∈ r'.nodes, n ∈ r.nodes ∨ (fs'.nodes n).flags = vfsFile := by
      intro n member
      rcases new with ⟨-, appended⟩ | ⟨-, unchanged⟩
      · rw [appended.nodes] at member
        rcases List.mem_cons.mp member with rfl | old
        · exact .inr (same ▸ appended.flags)
        · exact .inl old
      · exact .inl (unchanged ▸ member)
    dsimp only at ran
    split_ifs at ran
    · obtain ⟨about', lookup', ran⟩ := bind_returns.mp ran
      cases ran
      exact ⟨r', more, same, lookup_mem (more.grown reached) (by rwa [same]), kinds⟩
    · cases ran
      exact ⟨r', more, same, fun real => absurd rfl real, kinds⟩

/-- The half of the root. -/
theorem extends_about (reached : Grown r) (here : s.files.fs = r.fs) (fresh : FreshAnswers r answers)
    (ran : seedAbout s answers = .ok s') :
    ∃ r' message, Extends r [answers.aboutData.address, answers.about] r' ∧ r'.fs = s'.files.fs ∧
      s'.screen = s.screen ++ [message] ∧
      ∀ n ∈ r'.nodes, n ∈ r.nodes ∨ (r'.fs.nodes n).flags = vfsFile := by
  obtain ⟨⟨fs, about⟩, found, ran⟩ := bind_returns.mp ran
  rw [here] at found
  obtain ⟨r', more, same, member, kinds⟩ := extends_findAbout reached fresh.about found
  dsimp only at ran
  split_ifs at ran with real
  · have apart : answers.aboutData.address ∉ r'.blocks := fun block =>
      fresh.aboutData (more.blocks _ block)
    obtain ⟨r'', more', same', nodes, flags, screen⟩ := extends_text (s := s.withFs fs)
      same.symm (member real) apart ran
    refine ⟨r'', _, more.trans more', same', screen, fun n old => ?_⟩
    rw [flags n, same]
    exact kinds n (nodes ▸ old)
  · cases ran
    exact ⟨r', _, more.mono (List.suffix_cons _ _).subset, same, rfl, fun n old => same ▸ kinds n old⟩

/-- The half of `/tmp`: where it reports success, a directory has one child more. -/
theorem extends_hello (reached : Grown r) (here : s.files.fs = r.fs)
    (fresh : answers.hello ∉ r.blocks) (fresh' : answers.helloData.address ∉ answers.hello :: r.blocks)
    (ran : seedHello s answers = .ok s') :
    ∃ r' messages, Extends r [answers.helloData.address, answers.hello] r' ∧ r'.fs = s'.files.fs ∧
      s'.screen = s.screen ++ messages ∧
      (messages = [cstring "Seeded /tmp/hello.txt\n"] →
        ∃ tmp ∈ r.nodes, (r.fs.nodes tmp).flags &&& vfsDir ≠ 0 ∧
          (r.fs.nodes tmp).children.length < (r'.fs.nodes tmp).children.length) := by
  have failed : [cstring "Failed to seed /tmp/hello.txt\n"] ≠ [cstring "Seeded /tmp/hello.txt\n"] := by
    decide +kernel
  obtain ⟨tmp, lookup, ran⟩ := bind_returns.mp ran
  rw [here] at lookup
  split_ifs at ran with dir
  · have member : tmp ∈ r.nodes := lookup_mem reached lookup dir.1
    obtain ⟨⟨fs, result⟩, made, ran⟩ := bind_returns.mp ran
    rw [here] at made
    obtain ⟨r', more, same, new⟩ := extends_create reached member fresh made
    have wider := more.mono (List.suffix_cons answers.helloData.address _).subset
    dsimp only at ran
    split_ifs at ran with done
    · obtain ⟨hello, lookup', ran⟩ := bind_returns.mp ran
      split_ifs at ran with real
      · obtain ⟨-, appended⟩ := new.resolve_right fun failed => failed.1 done
        have apart : answers.helloData.address ∉ r'.blocks := fun block => fresh' (more.blocks _ block)
        have member' : hello ∈ r'.nodes := lookup_mem (more.grown reached) (by rwa [same]) real
        obtain ⟨r'', more', same', -, -, screen⟩ :=
          extends_text (s := s.withFs fs) same.symm member' apart ran
        refine ⟨r'', _, more.trans more', same', screen, fun _ => ⟨tmp, member, here ▸ dir.2, ?_⟩⟩
        have grows := (more'.children tmp (more.nodes tmp member)).length_le
        rwa [appended.children, List.length_append, List.length_singleton] at grows
      · cases ran
        exact ⟨r', [], wider, same, (List.append_nil _).symm, fun none => nomatch none⟩
    · cases ran
      exact ⟨r', _, wider, same, rfl, fun seeded => absurd seeded failed⟩
  · cases ran
    exact ⟨r, _, .refl r _, here.symm, rfl, fun seeded => absurd seeded failed⟩

/-! ## Seeding -/

/-- A run of `cmd_fsseed` is one of legal calls; where it reports success, a directory that
was there has more children than before. -/
theorem extends_seed (reached : Grown r) (here : s.files.fs = r.fs) (fresh : FreshAnswers r answers)
    (ran : cmdFsseed s answers = .ok s') :
    ∃ r', Extends r (blocks answers) r' ∧ r'.fs = s'.files.fs ∧ (SeedsBoth s s' →
      ∃ tmp ∈ r.nodes, (r.fs.nodes tmp).children.length < (r'.fs.nodes tmp).children.length) := by
  obtain ⟨t, about, hello⟩ := bind_returns.mp ran
  obtain ⟨r₁, message, more, same, screen, kinds⟩ := extends_about reached here fresh about
  have apart : ∀ b, b ∉ answers.aboutData.address :: answers.about :: r.blocks → b ∉ r₁.blocks :=
    fun b new block => new (more.blocks b block)
  have apart' : answers.helloData.address ∉ answers.hello :: r₁.blocks := by
    intro block
    rcases List.mem_cons.mp block with same | old
    · exact fresh.helloData (same ▸ List.mem_cons_self)
    · exact fresh.helloData (List.mem_cons_of_mem _ (more.blocks _ old))
  obtain ⟨r₂, messages, more', same', screen', grows⟩ := extends_hello (more.grown reached) same.symm
    (apart _ fresh.hello) apart' hello
  refine ⟨r₂, more.trans more', same', fun seeded => ?_⟩
  rw [SeedsBoth, screen', screen, List.append_assoc, List.append_cancel_left_eq] at seeded
  obtain ⟨tmp, member, dir, less⟩ := grows (List.cons.inj seeded).2
  have old : tmp ∈ r.nodes := by
    refine (kinds tmp member).resolve_right fun file => dir ?_
    rw [file]
    decide
  exact ⟨tmp, old, Nat.lt_of_le_of_lt (more.children tmp old).length_le less⟩

/-- Wherever `fsseed` reports both files seeded, running it again does not report both and
leave the tree as it was. -/
theorem fsseed_not_idempotent (reached : Grown r) (here : s.files.fs = r.fs)
    (fresh : FreshAnswers r answers) (ran : cmdFsseed s answers = .ok s') :
    ∃ r', Extends r (blocks answers) r' ∧ r'.fs = s'.files.fs ∧
      ∀ answers', FreshAnswers r' answers' → ¬ ∃ s'', cmdFsseed s' answers' = .ok s'' ∧
        SeedsBoth s' s'' ∧ SameTree r'.nodes s'.files.fs s''.files.fs := by
  obtain ⟨r', more, same, -⟩ := extends_seed reached here fresh ran
  refine ⟨r', more, same, ?_⟩
  rintro answers' fresh' ⟨s'', ran', seeded', tree⟩
  obtain ⟨r'', -, same', grows⟩ := extends_seed (more.grown reached) same.symm fresh' ran'
  obtain ⟨tmp, member, less⟩ := grows seeded'
  have count := tree.count tmp member
  rw [← same, ← same'] at count
  exact absurd count (Nat.ne_of_gt less)

/-- A second root beside the tree with the directory `tmp`. -/
def withInstance : RamState :=
  ⟨ShellPaths.withTmp.fs.setNode 0x300 { clearedNode with name := cstring "/", flags := vfsDir },
    0x300 :: ShellPaths.withTmp.nodes, 0x300 :: ShellPaths.withTmp.roots, 0x300 :: ShellPaths.withTmp.blocks⟩

/-- The tree at boot: the second root is mounted on `/tmp`. -/
def bootState : RamState :=
  { withInstance with fs := Mounting.mounted withInstance.fs 0x200 0x300 }

theorem bootState_grown : Grown bootState := by
  have fresh : (0x300 : UInt32) ∉ ShellPaths.withTmp.blocks := by decide
  have second : Grown withInstance :=
    ShellPaths.withTmp_grown.next (a := .createInstance 0x300) ⟨fresh, _, 0x300, rfl, rfl⟩
  have tmp : vfsLookup withInstance.fs (cstring "/tmp") = .ok 0x200 := by
    rw [vfsLookup_eq]
    decide +kernel
  refine second.next (a := .mount (cstring "/tmp") 0x300) ⟨⟨List.mem_cons_self, ?_⟩, _, ?_, rfl⟩
  · exact fun _ entry => absurd entry List.not_mem_nil
  · exact Mounting.vfsMount_eq tmp (by decide) (by decide) 0x300

def bootShell : ShellState := ⟨⟨bootState.fs, fun _ => ⟨false, 0, 0⟩⟩, 0x100, []⟩

/-- Four new blocks. -/
def answersFrom (a : UInt32) : SeedAnswers :=
  ⟨a, ⟨a + 1, fun _ => 0⟩, a + 2, ⟨a + 3, fun _ => 0⟩⟩

theorem bootShell_fresh : FreshAnswers bootState (answersFrom 0x400) :=
  ⟨by decide, by decide, by decide, by decide⟩

theorem bootShell_seeds :
    ∃ s, cmdFsseed bootShell (answersFrom 0x400) = .ok s ∧ SeedsBoth bootShell s := by
  have screen : (cmdFsseed bootShell (answersFrom 0x400)).toOption.map (·.screen) =
      some [cstring "Seeded /about.txt\n", cstring "Seeded /tmp/hello.txt\n"] := by
    simp only [cmdFsseed, seedAbout, findAbout, seedHello, seedText, vfsLookup_eq]
    decide +kernel
  cases ran : cmdFsseed bootShell (answersFrom 0x400) with
  | error fault =>
    rw [ran] at screen
    exact nomatch screen
  | ok s =>
    rw [ran] at screen
    exact ⟨s, rfl, Option.some.inj screen⟩

/-- Seeding at boot. -/
theorem fsseed_not_idempotent_at_boot :
    ∃ s r, cmdFsseed bootShell (answersFrom 0x400) = .ok s ∧ r.fs = s.files.fs ∧
      ∀ answers, FreshAnswers r answers → ¬ ∃ s', cmdFsseed s answers = .ok s' ∧
        SeedsBoth s s' ∧ SameTree r.nodes s.files.fs s'.files.fs := by
  obtain ⟨s, ran, -⟩ := bootShell_seeds
  obtain ⟨r, -, same, never⟩ := fsseed_not_idempotent bootState_grown rfl bootShell_fresh ran
  exact ⟨s, r, ran, same, never⟩

/-- The second time, `hello.txt` is made again. -/
theorem hello_is_created_again : ¬ ∀ r s answers s' r' answers', Grown r → s.files.fs = r.fs →
    FreshAnswers r answers → cmdFsseed s answers = .ok s' → SeedsBoth s s' →
    Extends r (blocks answers) r' → r'.fs = s'.files.fs → FreshAnswers r' answers' →
    ∃ s'', cmdFsseed s' answers' = .ok s'' ∧ SeedsBoth s' s'' ∧
      SameTree r'.nodes s'.files.fs s''.files.fs := by
  intro claim
  obtain ⟨s', ran, seeded⟩ := bootShell_seeds
  obtain ⟨r', more, same, -⟩ := extends_seed bootState_grown rfl bootShell_fresh ran
  have apart : FreshAnswers { bootState with blocks := blocks (answersFrom 0x400) ++ bootState.blocks }
      (answersFrom 0x500) := ⟨by decide, by decide, by decide, by decide⟩
  have fresh : FreshAnswers r' (answersFrom 0x500) := apart.mono more.blocks
  obtain ⟨s'', ran', seeded', tree⟩ :=
    claim _ _ _ _ _ _ bootState_grown rfl bootShell_fresh ran seeded more same fresh
  obtain ⟨r'', -, same', grows⟩ := extends_seed (more.grown bootState_grown) same.symm fresh ran'
  obtain ⟨tmp, member, less⟩ := grows seeded'
  have count := tree.count tmp member
  rw [← same, ← same'] at count
  exact absurd count (Nat.ne_of_gt less)

end ZynthexOS.Seeding
