import ZynthexOS.Fs.Fd
import ZynthexOS.Lib.Runs

/-! The descriptor table as a partial map from descriptors to a node and an offset.
What a slot holds after `sys_close` is no part of that map, and no call depends
on it. -/
namespace ZynthexOS.FdRefinement
open Lib Text Fs

/-- A system call on files; `write` carries what `kmalloc` answers. -/
inductive FdCall where
  | open (path : CString)
  | write (fd : Int) (answer : Answer) (buffer : Nat → UInt8) (size : UInt32)
  | read (fd : Int) (size : UInt32)
  | close (fd : Int)
  | seek (fd : Int) (offset : UInt32)

/-- A call with what it returned, and the bytes it read. -/
structure Returned where
  call : FdCall
  result : Int
  bytes : List UInt8

/-- A call that returns. `sys_close` has no result; it is taken to be 0. -/
def FdStep (s : Files) (r : Returned) (s' : Files) : Prop :=
  match r.call with
  | .open path => sysOpen s path = .ok (s', r.result) ∧ r.bytes = []
  | .write fd answer buffer size =>
    sysWrite s answer fd buffer size = .ok (s', r.result) ∧ r.bytes = []
  | .read fd size => sysRead s fd size = .ok (s', r.result, r.bytes)
  | .close fd => s' = sysClose s fd ∧ r.result = 0 ∧ r.bytes = []
  | .seek fd offset => sysSeek s fd offset = (s', r.result) ∧ r.bytes = []

/-! ## The map -/

/-- The file system and the open descriptors. -/
structure OpenFiles where
  fs : FileSystem
  files : Int → Option (UInt32 × UInt32)

def OpenFiles.set (t : OpenFiles) (fd : Int) (entry : Option (UInt32 × UInt32)) : OpenFiles :=
  { t with files := fun e => if e = fd then entry else t.files e }

/-- A descriptor number that exists. -/
def IsFd (fd : Int) : Prop := 0 ≤ fd ∧ fd < maxFds

instance : Decidable (IsFd fd) := inferInstanceAs (Decidable (_ ∧ _))

/-- The offset of a descriptor behind the `n` bytes that a call moved. -/
def moved (offset : UInt32) (n : Int) : UInt32 :=
  if n > 0 then offset + UInt32.ofNat n.toNat else offset

/-- What each call does to the map: opening takes the smallest closed descriptor,
at offset 0, and fails without a node or without a closed descriptor; reading and
writing move the offset of their own descriptor by what they return; a closed
descriptor makes every call return -1 and change nothing. -/
inductive Behaves (t : OpenFiles) : Returned → OpenFiles → Prop where
  | notFound (lookup : vfsLookup t.fs path = .ok 0) : Behaves t ⟨.open path, -1, []⟩ t
  | full (lookup : vfsLookup t.fs path = .ok node) (real : node ≠ 0)
      (all : ∀ fd, IsFd fd → t.files fd ≠ none) : Behaves t ⟨.open path, -1, []⟩ t
  | opened (lookup : vfsLookup t.fs path = .ok node) (real : node ≠ 0) (isFd : IsFd fd)
      (free : t.files fd = none) (smallest : ∀ e, IsFd e → e < fd → t.files e ≠ none) :
      Behaves t ⟨.open path, fd, []⟩ (t.set fd (some (node, 0)))
  | badWrite (bad : t.files fd = none) : Behaves t ⟨.write fd answer buffer size, -1, []⟩ t
  | badRead (bad : t.files fd = none) : Behaves t ⟨.read fd size, -1, []⟩ t
  | badSeek (bad : t.files fd = none) : Behaves t ⟨.seek fd offset, -1, []⟩ t
  | written (held : t.files fd = some (node, offset))
      (done : ramfsWrite t.fs answer node offset size buffer = .ok (fs, n)) :
      Behaves t ⟨.write fd answer buffer size, n, []⟩
        ({ t with fs := fs }.set fd (some (node, moved offset n)))
  | read (held : t.files fd = some (node, offset))
      (done : ramfsRead t.fs node offset size = .ok (n, bytes)) :
      Behaves t ⟨.read fd size, n, bytes⟩ (t.set fd (some (node, moved offset n)))
  | closed : Behaves t ⟨.close fd, 0, []⟩ (t.set fd none)
  | sought (held : t.files fd = some (node, before)) :
      Behaves t ⟨.seek fd offset, 0, []⟩ (t.set fd (some (node, offset)))

/-- The map that a table stands for. -/
def openFiles (s : Files) : OpenFiles where
  fs := s.fs
  files fd :=
    if IsFd fd ∧ (s.fdTable fd.toNat).used then
      some ((s.fdTable fd.toNat).node, (s.fdTable fd.toNat).offset)
    else none

theorem badFd_iff (s : Files) (fd : Int) : badFd s fd = true ↔ (openFiles s).files fd = none := by
  simp only [badFd, openFiles, IsFd, Bool.or_eq_true, decide_eq_true_eq, Bool.not_eq_true']
  by_cases used : (s.fdTable fd.toNat).used = true
  · simp only [used, and_true, Bool.true_eq_false, or_false]
    split_ifs with inside
    · simp only [iff_false]
      omega
    · simp only [iff_true]
      omega
  · simp [used]

theorem held_of_good (good : badFd s fd = false) : IsFd fd ∧
    (openFiles s).files fd = some ((s.fdTable fd.toNat).node, (s.fdTable fd.toNat).offset) := by
  have present : (openFiles s).files fd ≠ none := by
    rw [ne_eq, ← badFd_iff, good]
    decide
  by_cases held : IsFd fd ∧ (s.fdTable fd.toNat).used
  · exact ⟨held.1, if_pos held⟩
  · exact absurd (if_neg held) present

/-- Storing a slot is storing the entry of its descriptor. -/
theorem openFiles_setDesc (s : Files) (isFd : IsFd fd) (desc : FileDesc) :
    openFiles (s.setDesc fd.toNat desc) =
      (openFiles s).set fd (if desc.used then some (desc.node, desc.offset) else none) := by
  unfold openFiles OpenFiles.set
  congr 1
  funext e
  by_cases same : e = fd
  · subst same
    by_cases used : desc.used = true <;> simp [Files.setDesc, isFd, used]
  · by_cases valid : IsFd e
    · have other : e.toNat ≠ fd.toNat := by
        have low := valid.1
        have low' := isFd.1
        omega
      simp [Files.setDesc, same, other]
    · simp [valid, same]

/-- Storing the entry that a descriptor has changes nothing. -/
theorem set_self {t : OpenFiles} (same : t.files fd = entry) : t.set fd entry = t := by
  unfold OpenFiles.set
  have files : (fun e => if e = fd then entry else t.files e) = t.files := by
    funext e
    split_ifs with here
    · rw [here, same]
    · rfl
  rw [files]

theorem used_of_held (held : (openFiles s).files fd = some entry) :
    (s.fdTable fd.toNat).used = true := by
  by_contra closed
  have none : (openFiles s).files fd = none := if_neg fun both => closed both.2
  rw [held] at none
  cases none

theorem openFiles_advance (isFd : IsFd fd)
    (held : (openFiles s).files fd = some ((s.fdTable fd.toNat).node, (s.fdTable fd.toNat).offset))
    (n : Int) : openFiles (advance s fd.toNat n) = (openFiles s).set fd
      (some ((s.fdTable fd.toNat).node, moved (s.fdTable fd.toNat).offset n)) := by
  unfold advance moved
  split_ifs with progress
  · rw [openFiles_setDesc s isFd]
    simp only [used_of_held held, if_true]
  · exact (set_self held).symm

/-- `fd_init` closes every descriptor. -/
theorem used_fdInit (s : Files) (i : Nat) (inside : i < maxFds) :
    ((fdInit s).fdTable i).used = false := by
  unfold fdInit
  rw [Scan.forRange_observe (fun s i => Files.setDesc s i { s.fdTable i with used := false })
    (fun s i => (s.fdTable i).used) (fun _ _ => false)]
  · rw [if_pos ⟨Nat.zero_le _, inside⟩]
  · intro s i k
    by_cases same : k = i <;> simp [Files.setDesc, same]

theorem openFiles_fdInit (s : Files) : openFiles (fdInit s) = ⟨s.fs, fun _ => none⟩ := by
  have keeps : (fdInit s).fs = s.fs :=
    Scan.forRange_keep (fun s i => Files.setDesc s i { s.fdTable i with used := false }) Files.fs 0
      maxFds (fun _ _ _ _ => rfl) s
  unfold openFiles
  rw [keeps]
  congr 1
  funext fd
  refine if_neg fun ⟨isFd, used⟩ => ?_
  have inside : fd.toNat < maxFds := by
    have low := isFd.1
    have high := isFd.2
    omega
  rw [used_fdInit s _ inside] at used
  cases used

/-! ## The calls -/

/-- What `fd_alloc` finds: the smallest closed descriptor, or none. -/
theorem fdAlloc_spec (s : Files) :
    (fdAlloc s = (s, none) ∧ ∀ fd, IsFd fd → (openFiles s).files fd ≠ none) ∨
      ∃ i : Nat, fdAlloc s = (s.setDesc i { s.fdTable i with used := true, offset := 0 }, some i) ∧
        IsFd i ∧ (openFiles s).files i = none ∧
        ∀ e, IsFd e → e < i → (openFiles s).files e ≠ none := by
  have isOpen : ∀ e, IsFd e → (s.fdTable e.toNat).used = true → (openFiles s).files e ≠ none := by
    intro e isFd used
    have entry : (openFiles s).files e = some _ := if_pos ⟨isFd, used⟩
    rw [entry]
    simp
  unfold fdAlloc
  cases search : (List.range maxFds).find? fun i => !(s.fdTable i).used with
  | none =>
    refine .inl ⟨rfl, fun fd isFd => isOpen fd isFd ?_⟩
    have inside : fd.toNat < maxFds := by
      have low := isFd.1
      have high := isFd.2
      omega
    simpa using List.find?_range_eq_none.mp search fd.toNat inside
  | some i =>
    obtain ⟨free, member, before⟩ := List.find?_range_eq_some.mp search
    have inside := List.mem_range.mp member
    have closed : (s.fdTable i).used = false := by simpa using free
    have isFd : IsFd i := ⟨by omega, by omega⟩
    refine .inr ⟨i, rfl, isFd, if_neg fun both => ?_, fun e isFd' below => isOpen e isFd' ?_⟩
    · rw [Int.toNat_natCast, closed] at both
      cases both.2
    · have low := isFd'.1
      simpa using before e.toNat (by omega)

theorem setDesc_setDesc (s : Files) (i : Nat) (a b : FileDesc) :
    (s.setDesc i a).setDesc i b = s.setDesc i b := by
  unfold Files.setDesc
  congr 1
  funext k
  dsimp only
  split <;> rfl

/-- Opening a node leaves the descriptor at offset 0. -/
theorem openFiles_opened (s : Files) {i : Nat} (isFd : IsFd i) (node : UInt32) :
    openFiles ((s.setDesc i { s.fdTable i with used := true, offset := 0 }).setDesc i
      { (s.setDesc i { s.fdTable i with used := true, offset := 0 }).fdTable i with node := node }) =
      (openFiles s).set i (some (node, 0)) := by
  have slot : (s.setDesc i { s.fdTable i with used := true, offset := 0 }).fdTable i =
      { s.fdTable i with used := true, offset := 0 } := if_pos rfl
  rw [setDesc_setDesc, slot]
  exact @openFiles_setDesc i s isFd ⟨true, node, 0⟩

theorem openFiles_sysClose (s : Files) (fd : Int) :
    openFiles (sysClose s fd) = (openFiles s).set fd none := by
  unfold sysClose
  split_ifs with isFd
  · exact openFiles_setDesc s isFd _
  · exact (set_self (if_neg fun both => isFd both.1)).symm

theorem openFiles_sought (isFd : IsFd fd)
    (held : (openFiles s).files fd = some ((s.fdTable fd.toNat).node, (s.fdTable fd.toNat).offset))
    (offset : UInt32) :
    openFiles (s.setDesc fd.toNat { s.fdTable fd.toNat with offset := offset }) =
      (openFiles s).set fd (some ((s.fdTable fd.toNat).node, offset)) := by
  rw [openFiles_setDesc s isFd]
  simp only [used_of_held held, if_true]

theorem sysOpen_eq (s : Files) (path : CString) : sysOpen s path = vfsLookup s.fs path >>= fun node =>
    if node = 0 then .ok (s, -1)
    else match fdAlloc s with
      | (s, none) => .ok (s, -1)
      | (s, some fd) => .ok (s.setDesc fd { s.fdTable fd with node := node }, (fd : Int)) := rfl

/-- How `sys_write` returns. -/
theorem sysWrite_iff (s : Files) (answer : Answer) (fd : Int) (buffer : Nat → UInt8) (size : UInt32) :
    sysWrite s answer fd buffer size = .ok (s', n) ↔
      (badFd s fd = true ∧ s' = s ∧ n = -1) ∨ (badFd s fd = false ∧ ∃ fs,
        ramfsWrite s.fs answer (s.fdTable fd.toNat).node (s.fdTable fd.toNat).offset size buffer =
          .ok (fs, n) ∧ s' = advance { s with fs := fs } fd.toNat n) := by
  unfold sysWrite
  cases bad : badFd s fd with
  | true => simp [Prod.ext_iff, eq_comm]
  | false =>
    simp only [Bool.false_eq_true, if_false, false_and, false_or, true_and]
    rw [bind_returns]
    constructor
    · rintro ⟨⟨fs, written⟩, done, same⟩
      cases same
      exact ⟨fs, done, rfl⟩
    · rintro ⟨fs, done, rfl⟩
      exact ⟨(fs, n), done, rfl⟩

/-- How `sys_read` returns. -/
theorem sysRead_iff (s : Files) (fd : Int) (size : UInt32) :
    sysRead s fd size = .ok (s', n, bytes) ↔
      (badFd s fd = true ∧ s' = s ∧ n = -1 ∧ bytes = []) ∨ (badFd s fd = false ∧
        ramfsRead s.fs (s.fdTable fd.toNat).node (s.fdTable fd.toNat).offset size = .ok (n, bytes) ∧
        s' = advance s fd.toNat n) := by
  unfold sysRead
  cases bad : badFd s fd with
  | true => simp [Prod.ext_iff, eq_comm]
  | false =>
    simp only [Bool.false_eq_true, if_false, false_and, false_or, true_and]
    rw [bind_returns]
    constructor
    · rintro ⟨⟨read, bytes'⟩, done, same⟩
      cases same
      exact ⟨done, rfl⟩
    · rintro ⟨done, rfl⟩
      exact ⟨(n, bytes), done, rfl⟩

theorem open_behaves (returned : sysOpen s path = .ok (s', n)) :
    Behaves (openFiles s) ⟨.open path, n, []⟩ (openFiles s') := by
  rw [sysOpen_eq] at returned
  obtain ⟨node, lookup, returned⟩ := bind_returns.mp returned
  split_ifs at returned with null
  · cases returned
    exact .notFound (null ▸ lookup)
  · rcases fdAlloc_spec s with ⟨none, all⟩ | ⟨i, found, isFd, free, smallest⟩
    · rw [none] at returned
      cases returned
      exact .full lookup null all
    · rw [found] at returned
      cases returned
      rw [openFiles_opened s isFd node]
      exact .opened lookup null isFd free smallest

/-- Every call does to the map what it should. -/
theorem step_behaves (taken : FdStep s r s') : Behaves (openFiles s) r (openFiles s') := by
  obtain ⟨call, result, bytes⟩ := r
  cases call with
  | «open» path =>
    obtain ⟨returned, rfl⟩ := taken
    exact open_behaves returned
  | write fd answer buffer size =>
    obtain ⟨returned, rfl⟩ := taken
    rcases (sysWrite_iff ..).mp returned with ⟨bad, rfl, rfl⟩ | ⟨good, fs, done, rfl⟩
    · exact .badWrite ((badFd_iff _ fd).mp bad)
    · obtain ⟨isFd, held⟩ := held_of_good good
      rw [openFiles_advance (s := { s with fs := fs }) isFd held]
      exact .written held done
  | read fd size =>
    have returned : sysRead s fd size = .ok (s', result, bytes) := taken
    rcases (sysRead_iff ..).mp returned with ⟨bad, rfl, rfl, rfl⟩ | ⟨good, done, rfl⟩
    · exact .badRead ((badFd_iff _ fd).mp bad)
    · obtain ⟨isFd, held⟩ := held_of_good good
      rw [openFiles_advance isFd held]
      exact .read held done
  | close fd =>
    obtain ⟨rfl, rfl, rfl⟩ := taken
    rw [openFiles_sysClose]
    exact .closed
  | seek fd offset =>
    obtain ⟨returned, rfl⟩ := taken
    unfold sysSeek at returned
    cases bad : badFd s fd with
    | true =>
      rw [bad] at returned
      cases returned
      exact .badSeek ((badFd_iff s fd).mp bad)
    | false =>
      rw [bad] at returned
      obtain ⟨isFd, held⟩ := held_of_good bad
      cases returned
      rw [openFiles_sought isFd held]
      exact .sought held

/-- An open descriptor is a slot in use with that node and offset. -/
theorem good_of_held (held : (openFiles s).files fd = some (node, offset)) :
    badFd s fd = false ∧ (s.fdTable fd.toNat).node = node ∧ (s.fdTable fd.toNat).offset = offset := by
  have good : badFd s fd = false := by
    rw [Bool.eq_false_iff, ne_eq, badFd_iff, held]
    simp
  have entry := (held_of_good good).2.symm.trans held
  cases entry
  exact ⟨good, rfl, rfl⟩

/-- Whatever the map allows, a call does. -/
theorem behaves_step (behaves : Behaves (openFiles s) r t) :
    ∃ s', FdStep s r s' ∧ openFiles s' = t := by
  cases behaves with
  | notFound lookup =>
    have lookup : vfsLookup s.fs _ = .ok 0 := lookup
    exact ⟨s, ⟨by rw [sysOpen_eq, lookup]; rfl, rfl⟩, rfl⟩
  | full lookup real all =>
    have lookup : vfsLookup s.fs _ = .ok _ := lookup
    rcases fdAlloc_spec s with ⟨none, -⟩ | ⟨i, -, isFd, free, -⟩
    · refine ⟨s, ⟨?_, rfl⟩, rfl⟩
      rw [sysOpen_eq, lookup]
      change (if _ then _ else _) = _
      rw [if_neg real, none]
    · exact absurd free (all i isFd)
  | @opened path node fd lookup real isFd free smallest =>
    have lookup : vfsLookup s.fs path = .ok node := lookup
    rcases fdAlloc_spec s with ⟨-, all⟩ | ⟨i, found, isFd', free', smallest'⟩
    · exact absurd free (all _ isFd)
    · have same : fd = i := by
        by_contra ne
        rcases Int.lt_or_gt_of_ne ne with below | above
        · exact smallest' fd isFd below free
        · exact smallest i isFd' above free'
      subst same
      refine ⟨_, ⟨?_, rfl⟩, openFiles_opened s isFd node⟩
      rw [sysOpen_eq, lookup]
      change (if _ then _ else _) = _
      rw [if_neg real, found]
  | badWrite bad => exact ⟨s, ⟨(sysWrite_iff ..).mpr (.inl ⟨(badFd_iff s _).mpr bad, rfl, rfl⟩), rfl⟩, rfl⟩
  | @badRead fd size bad =>
    have reads : sysRead s fd size = .ok (s, -1, []) :=
      (sysRead_iff ..).mpr (.inl ⟨(badFd_iff s fd).mpr bad, rfl, rfl, rfl⟩)
    exact ⟨s, reads, rfl⟩
  | badSeek bad => exact ⟨s, ⟨by rw [sysSeek, (badFd_iff s _).mpr bad]; rfl, rfl⟩, rfl⟩
  | @written fd node offset answer size buffer fs n held done =>
    obtain ⟨good, rfl, rfl⟩ := good_of_held held
    have writes : sysWrite s answer fd buffer size =
        .ok (advance { s with fs := fs } fd.toNat n, n) :=
      (sysWrite_iff ..).mpr (.inr ⟨good, fs, done, rfl⟩)
    exact ⟨_, ⟨writes, rfl⟩, openFiles_advance (s := { s with fs := fs }) (held_of_good good).1 held n⟩
  | @read fd node offset size n bytes held done =>
    obtain ⟨good, rfl, rfl⟩ := good_of_held held
    have reads : sysRead s fd size = .ok (advance s fd.toNat n, n, bytes) :=
      (sysRead_iff ..).mpr (.inr ⟨good, done, rfl⟩)
    exact ⟨_, reads, openFiles_advance (held_of_good good).1 held n⟩
  | closed => exact ⟨_, ⟨rfl, rfl, rfl⟩, openFiles_sysClose s _⟩
  | sought held =>
    obtain ⟨good, rfl, rfl⟩ := good_of_held held
    exact ⟨_, ⟨by rw [sysSeek, good]; rfl, rfl⟩, openFiles_sought (held_of_good good).1 held _⟩

end ZynthexOS.FdRefinement
