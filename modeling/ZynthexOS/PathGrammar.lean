import ZynthexOS.PathResolution

/-! The grammar of paths. A path is its non-empty segments between slashes, and
resolving it is a fold over them that stops where a lookup finds nothing. -/
namespace ZynthexOS.PathGrammar
open Text Fs PathResolution

/-- The maximal non-empty segments of a path without `/`. -/
def segments (path : CString) : List CString := (path.splitOn slash).filter (· ≠ [])

theorem splitParts_eq (part path : CString) : splitParts part path =
    (path.splitOnPPrepend (· == slash) part.reverse).filter (· ≠ []) := by
  induction path generalizing part with
  | nil =>
    by_cases empty : part = []
    · simp [splitParts, empty]
    · simp [splitParts, empty]
  | cons c path ih =>
    rw [List.splitOnPPrepend_cons_eq_if]
    have fresh := ih []
    have longer := ih (part ++ [c])
    rw [List.reverse_nil, List.splitOnPPrepend_nil_right] at fresh
    rw [List.reverse_append, List.reverse_singleton, List.singleton_append] at longer
    by_cases sep : c = slash
    · by_cases empty : part = []
      · simp [splitParts, sep, empty, fresh]
      · simp [splitParts, sep, empty, fresh]
    · have other : ¬ (c == slash) = true := fun same => sep (beq_iff_eq.mp same)
      rw [if_neg other, ← longer]
      exact if_neg sep

/-- The parts that the loops of `path_resolve` read are the segments. -/
theorem parts_eq (path : CString) : parts path = segments path := splitParts_eq [] path

theorem segments_join (p q : CString) : segments (p ++ slash :: q) = segments p ++ segments q := by
  unfold segments
  rw [List.splitOn_append_cons_self, List.filter_append]

theorem segments_nil : segments [] = [] := by simp [segments]

/-- Slashes by themselves are no segment. -/
theorem segments_slashes (n : Nat) : segments (List.replicate n slash) = [] := by
  induction n with
  | zero => exact segments_nil
  | succ n ih =>
    have first := segments_join [] (List.replicate n slash)
    rw [segments_nil, ih, List.nil_append] at first
    exact first

/-- A slash, and any further ones, before a path. -/
theorem segments_leading (n : Nat) (p : CString) :
    segments (List.replicate n slash ++ p) = segments p := by
  cases n with
  | zero => rfl
  | succ n =>
    have split := segments_join (List.replicate n slash) p
    rw [segments_slashes, List.nil_append] at split
    rw [List.replicate_succ', List.append_assoc]
    exact split

theorem segments_trailing (n : Nat) (p : CString) :
    segments (p ++ List.replicate n slash) = segments p := by
  cases n with
  | zero => rw [List.replicate_zero, List.append_nil]
  | succ n => rw [List.replicate_succ, segments_join, segments_slashes, List.append_nil]

theorem segments_repeated (n : Nat) (p q : CString) :
    segments (p ++ slash :: (List.replicate n slash ++ q)) = segments (p ++ slash :: q) := by
  rw [segments_join, segments_join, segments_leading]

/-! ## The fold -/

/-- One component: it is looked up, and a mount on what was found is entered. -/
def lookupThenMount (s : FileSystem) (node : UInt32) (part : CString) :
    OptionT (Except Fault) UInt32 :=
  .mk <| (opsLookup s node part).map fun found =>
    if found = 0 then none else some (vfsCheckMount s found)

/-- The components one after the other, NULL at the first that is not found. -/
def resolveSegments (s : FileSystem) (start : UInt32) (path : List CString) : Except Fault UInt32 :=
  (fun found => found.getD 0) <$> (path.foldlM (lookupThenMount s) start).run

theorem resolveSegments_cons (s : FileSystem) (node : UInt32) (part : CString)
    (rest : List CString) : resolveSegments s node (part :: rest) =
      opsLookup s node part >>= fun found =>
        if found = 0 then .ok 0 else resolveSegments s (vfsCheckMount s found) rest := by
  unfold resolveSegments
  rw [List.foldlM_cons]
  cases lookup : opsLookup s node part with
  | error fault =>
    have step : lookupThenMount s node part = .mk (.error fault) := by
      rw [lookupThenMount, lookup]
      rfl
    rw [step]
    rfl
  | ok found =>
    by_cases null : found = 0
    · subst null
      have step : lookupThenMount s node part = .mk (.ok none) := by
        rw [lookupThenMount, lookup]
        rfl
      rw [step]
      rfl
    · have step : lookupThenMount s node part = .mk (.ok (some (vfsCheckMount s found))) := by
        simp only [lookupThenMount, lookup, Except.map, null, if_false]
      rw [step]
      exact (if_neg null).symm

/-- The buffer for one component is large enough for each of them. -/
def FitsPart (path : CString) : Prop := ∀ part ∈ segments path, part.length ≤ 63

theorem resolveParts_eq (s : FileSystem) (node : UInt32) (path : List CString)
    (short : ∀ part ∈ path, part.length ≤ 63) :
    resolveParts s node path = resolveSegments s node path := by
  induction path generalizing node with
  | nil => rfl
  | cons part rest ih =>
    rw [resolveSegments_cons, resolveParts, storeBelow_part, if_pos (short part (by simp))]
    have step : ∀ found, (if found = 0 then .ok 0 else resolveParts s (vfsCheckMount s found) rest) =
        (if found = 0 then .ok 0 else resolveSegments s (vfsCheckMount s found) rest) := by
      intro found
      split
      · rfl
      · exact ih _ fun part later => short part (by simp [later])
    exact congrArg (opsLookup s node part >>= ·) (funext step)

/-- A walk that comes to a node goes on from there. -/
theorem resolveParts_append (resolved : resolveParts s node front = .ok target) (real : target ≠ 0)
    (rest : List CString) : resolveParts s node (front ++ rest) = resolveParts s target rest := by
  induction front generalizing node with
  | nil =>
    cases resolved
    rfl
  | cons part front ih =>
    obtain ⟨found, enters, resolved⟩ := enters_of_resolved resolved real
    rw [List.cons_append, resolveParts_enters enters]
    exact ih resolved

/-- Resolution of paths against their grammar: the fold over the segments; leading,
trailing and repeated slashes change nothing; and a joined path is resolved from
where its first half leads. -/
structure ByGrammar (s : FileSystem) (start : UInt32) : Prop where
  fold : ∀ path, FitsPart path → pathResolve s start path = resolveSegments s start (segments path)
  leading : ∀ n p, pathResolve s start (List.replicate n slash ++ p) = pathResolve s start p
  trailing : ∀ n p, pathResolve s start (p ++ List.replicate n slash) = pathResolve s start p
  repeated : ∀ n p q, pathResolve s start (p ++ slash :: (List.replicate n slash ++ q)) =
    pathResolve s start (p ++ slash :: q)
  joined : ∀ p q target, pathResolve s start p = .ok target → target ≠ 0 →
    pathResolve s start (p ++ slash :: q) = pathResolve s target q

/-- In every tree, with any mounts and from any node. -/
theorem path_grammar (s : FileSystem) (start : UInt32) : ByGrammar s start where
  fold path short := by
    rw [pathResolve_eq, parts_eq]
    exact resolveParts_eq s start _ short
  leading n p := by
    simp only [pathResolve_eq, parts_eq, segments_leading]
  trailing n p := by
    simp only [pathResolve_eq, parts_eq, segments_trailing]
  repeated n p q := by
    simp only [pathResolve_eq, parts_eq, segments_repeated]
  joined p q target resolved real := by
    simp only [pathResolve_eq, parts_eq, segments_join] at resolved ⊢
    exact resolveParts_append resolved real (segments q)

end ZynthexOS.PathGrammar
