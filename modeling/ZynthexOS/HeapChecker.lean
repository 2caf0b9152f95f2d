import Mathlib.Order.Interval.Finset.Nat
import ZynthexOS.Lib.Races
import ZynthexOS.HeapRejection
import ZynthexOS.HeapWalks

/-! `heap_validate` on any memory: headers with arbitrary fields, linked in any
way. Its first loop is a race along `next` and tells a cycle from a list that
ends; its second one tests each block of a list that ends. -/
namespace ZynthexOS.HeapChecker
open Lib Lib.Memory Lib.Races Mm HeapPrograms HeapConditions HeapRejection HeapWalks

/-- Following `next` from `heap_head` comes back to a header before any NULL. -/
def Cyclic (vars : HeapVars) (m : Mem) : Prop := Returns (nextIn m) 0 vars.heapHead

/-- A block with an intact header, linked back by the next one, whose header
and payload lie inside the heap. -/
structure Sound (vars : HeapVars) (m : Mem) (b : Nat) : Prop where
  magic : magicOf m b = heapMagic
  linked : nextIn m b ≠ 0 → prevIn m (nextIn m b) = b
  low : vars.heapStart ≤ b
  high : b + headerSize + sizeIn m b ≤ vars.heapEnd

/-- The same with the end of the payload computed in 32-bit arithmetic. -/
structure Passes (vars : HeapVars) (m : Mem) (b : Nat) : Prop where
  magic : magicOf m b = heapMagic
  linked : nextIn m b ≠ 0 → prevIn m (nextIn m b) = b
  inside : vars.heapStart ≤ b ∧ b < vars.heapEnd
  ends : tailAt b (sizeIn m b) ≤ vars.heapEnd

/-- `heap_validate` ends, reports a cycle exactly when there is one, and
reports a valid structure exactly when the list ends and every block is sound. -/
def Checks (vars : HeapVars) (m : Mem) : Prop :=
  ∃ laps message, (∀ fuel ≥ laps, ((heapValidate fuel vars).run m).result = some message) ∧
    (message = "Heap cycle detected!\n" ↔ Cyclic vars m) ∧
    (message = "Heap structure valid.\n" ↔
      ¬ Cyclic vars m ∧ ∀ b, Listed vars m b → Sound vars m b)

/-- No payload of a list that passes every test ends past the last address. -/
def Unwrapped (vars : HeapVars) (m : Mem) : Prop :=
  ¬ Cyclic vars m → (∀ b, Listed vars m b → Passes vars m b) →
    ∀ b, Listed vars m b → b + headerSize + sizeIn m b < 2 ^ 32

theorem sound_iff (bound : vars.heapEnd < 2 ^ 32) : Sound vars m b ↔
    Passes vars m b ∧ b + headerSize + sizeIn m b < 2 ^ 32 := by
  have ends : b + headerSize + sizeIn m b < 2 ^ 32 →
      tailAt b (sizeIn m b) = b + headerSize + sizeIn m b := by
    intro small
    have header : b + headerSize < 2 ^ 32 := by omega
    rw [tailAt, add32_of_lt header, add32_of_lt small]
  constructor
  · rintro ⟨magic, linked, low, high⟩
    have small := Nat.lt_of_le_of_lt high bound
    simp only [headerSize] at high
    exact ⟨⟨magic, linked, ⟨low, by omega⟩, by rwa [ends small]⟩, small⟩
  · rintro ⟨⟨magic, linked, inside, high⟩, small⟩
    rw [ends small] at high
    exact ⟨magic, linked, inside.1, high⟩

/-! ### The first loop -/

theorem run_findCycle_race (m : Mem) (fuel slow fast : Nat) : ((findCycle fuel slow fast).run m).result =
    race (nextIn m) 0 fuel slow fast ∧ ((findCycle fuel slow fast).run m).mem = m := by
  induction fuel generalizing slow fast with
  | zero => exact ⟨rfl, rfl⟩
  | succ fuel ih =>
    rw [findCycle, race]
    split_ifs with ended ended' met <;>
      simp_all [readWord_nextAt]

/-- The list from `a` to NULL. -/
theorem follows_of_ends (ends : (nextIn m)^[n] a = 0) : ∃ bs, Follows m a bs := by
  induction n generalizing a with
  | zero => exact ⟨[], ends⟩
  | succ n ih =>
    obtain ⟨bs, follows⟩ := ih ends
    by_cases empty : a = 0
    · exact ⟨[], empty⟩
    · exact ⟨a :: bs, rfl, empty, follows⟩

theorem ends_of_follows (follows : Follows m a bs) : Ends (nextIn m) 0 a := by
  induction bs generalizing a with
  | nil => exact ⟨0, follows⟩
  | cons b bs ih =>
    obtain ⟨rfl, -, follows⟩ := follows
    obtain ⟨n, ended⟩ := ih follows
    exact ⟨n + 1, ended⟩

theorem listed_of_follows (follows : Follows m a bs) (here : a ≠ 0 → Listed vars m a) :
    ∀ b ∈ bs, Listed vars m b := by
  induction bs generalizing a with
  | nil => simp
  | cons b bs ih =>
    obtain ⟨rfl, ne, follows⟩ := follows
    have later := ih follows fun next => (here ne).next next
    simp only [List.forall_mem_cons]
    exact ⟨here ne, later⟩

theorem follows_next (follows : Follows m a bs) (member : b ∈ bs) (more : nextIn m b ≠ 0) :
    nextIn m b ∈ bs := by
  induction bs generalizing a with
  | nil => cases member
  | cons c bs ih =>
    obtain ⟨rfl, -, follows⟩ := follows
    rcases List.mem_cons.mp member with rfl | member
    · cases bs with
      | nil => exact absurd follows more
      | cons d bs => simp [follows.1]
    · exact List.mem_cons_of_mem _ (ih follows member)

/-- The blocks listed are those of the walk from `heap_head` to NULL. -/
theorem follows_listed (follows : Follows m vars.heapHead bs) : Listed vars m b ↔ b ∈ bs := by
  constructor
  · intro listed
    induction listed with
    | head ne =>
      cases bs with
      | nil => exact absurd follows ne
      | cons c bs => simp [follows.1]
    | next _ more ih => exact follows_next follows ih more
  · exact listed_of_follows follows Listed.head b

theorem nextIn_lt (m : Mem) (b : Nat) : nextIn m b < 2 ^ 32 := readWord_lt ..

/-- The path along `next` visits words only, so that it ends or comes back. -/
theorem ends_or_cyclic (bound : vars.heapHead < 2 ^ 32) :
    Ends (nextIn m) 0 vars.heapHead ∨ Cyclic vars m := by
  refine ends_or_returns (Set.finite_Iio (2 ^ 32)) fun n => ?_
  cases n with
  | zero => exact bound
  | succ n =>
    rw [Function.iterate_succ_apply']
    exact nextIn_lt m _

/-! ### The second loop -/

/-- One block: the loop goes on when it passes and complains otherwise. -/
theorem run_checkBlocks_step (vars : HeapVars) (m : Mem) (ne : b ≠ 0) :
    (Passes vars m b ∧ ∀ fuel, ((checkBlocks vars (fuel + 1) b).run m).result =
      ((checkBlocks vars fuel (nextIn m b)).run m).result) ∨
    (¬ Passes vars m b ∧ ∃ message, message ≠ "Heap cycle detected!\n" ∧
      message ≠ "Heap structure valid.\n" ∧
      ∀ fuel, ((checkBlocks vars (fuel + 1) b).run m).result = some message) := by
  have next := readWord_nextAt m b
  have magicWord : readWord m (wrap (magicAt b)) = magicOf m b := congrArg _ (wrap_wrap _)
  have sizeWord : readWord m (wrap (sizeAt b)) = sizeIn m b := congrArg _ (wrap_wrap _)
  have backWord : readWord m (wrap (prevAt (nextIn m b))) = prevIn m (nextIn m b) :=
    congrArg _ (wrap_wrap _)
  by_cases magic : magicOf m b = heapMagic
  case neg =>
    refine .inr ⟨fun passes => magic passes.magic, "Heap magic corrupted!\n", by decide, by decide,
      fun fuel => ?_⟩
    simp [checkBlocks, ne, magicWord, magic]
  by_cases linked : nextIn m b ≠ 0 → prevIn m (nextIn m b) = b
  case neg =>
    refine .inr ⟨fun passes => linked passes.linked, "Heap corruption detected!\n", by decide,
      by decide, fun fuel => ?_⟩
    obtain ⟨more, back⟩ := Classical.not_imp.mp linked
    simp [checkBlocks, ne, magicWord, magic, next, more, backWord, back]
  have linkTest : (if nextIn m b ≠ 0 then decide (prevIn m (nextIn m b) = b) else true) = true := by
    split_ifs with more
    · exact decide_eq_true (linked more)
    · rfl
  by_cases inside : vars.heapStart ≤ b ∧ b < vars.heapEnd
  case neg =>
    refine .inr ⟨fun passes => inside passes.inside, "Block outside heap range!\n", by decide,
      by decide, fun fuel => ?_⟩
    have outside : b < vars.heapStart ∨ b ≥ vars.heapEnd := by omega
    by_cases more : nextIn m b = 0
    · simp [checkBlocks, ne, magicWord, magic, next, more, outside]
    · simp [checkBlocks, ne, magicWord, magic, next, more, backWord, linked more, outside]
  have within : ¬ (b < vars.heapStart ∨ b ≥ vars.heapEnd) := by omega
  by_cases ends : tailAt b (sizeIn m b) ≤ vars.heapEnd
  case neg =>
    refine .inr ⟨fun passes => ends passes.ends, "Block exceeds heap boundary!\n", by decide,
      by decide, fun fuel => ?_⟩
    have beyond := Nat.lt_of_not_le ends
    by_cases more : nextIn m b = 0
    · simp [checkBlocks, ne, magicWord, magic, next, more, within, sizeWord, beyond]
    · simp [checkBlocks, ne, magicWord, magic, next, more, backWord, linked more, within, sizeWord,
        beyond]
  refine .inl ⟨⟨magic, linked, inside, ends⟩, fun fuel => ?_⟩
  have fits := Nat.not_lt.mpr ends
  by_cases more : nextIn m b = 0
  · simp [checkBlocks, ne, magicWord, magic, next, more, within, sizeWord, fits]
  · simp [checkBlocks, ne, magicWord, magic, next, more, backWord, linked more, within, sizeWord,
      fits]

/-- On a list that ends the loop gives a verdict: valid exactly when every
block passes, and never the message about cycles. -/
theorem run_checkBlocks_verdict (vars : HeapVars) (follows : Follows m a bs) :
    ∃ message, (∀ fuel > bs.length, ((checkBlocks vars fuel a).run m).result = some message) ∧
      message ≠ "Heap cycle detected!\n" ∧
      (message = "Heap structure valid.\n" ↔ ∀ b ∈ bs, Passes vars m b) := by
  induction bs generalizing a with
  | nil =>
    refine ⟨"Heap structure valid.\n", fun fuel enough => ?_, by decide, by simp⟩
    obtain ⟨fuel, rfl⟩ := Nat.exists_eq_add_of_lt enough
    have empty : a = 0 := follows
    simp [checkBlocks, empty]
  | cons b bs ih =>
    obtain ⟨rfl, ne, follows⟩ := follows
    obtain ⟨message, verdict, quiet, valid⟩ := ih follows
    rcases run_checkBlocks_step vars m ne with
      ⟨passes, goes⟩ | ⟨fails, complaint, silent, invalid, stops⟩
    · refine ⟨message, fun fuel enough => ?_, quiet, by simpa [passes] using valid⟩
      obtain ⟨fuel, rfl⟩ : ∃ n, fuel = n + 1 := ⟨fuel - 1, by omega⟩
      rw [goes]
      exact verdict fuel (Nat.lt_of_succ_lt_succ enough)
    · refine ⟨complaint, fun fuel enough => ?_, silent, by simp [invalid, fails]⟩
      obtain ⟨fuel, rfl⟩ : ∃ n, fuel = n + 1 := ⟨fuel - 1, by omega⟩
      exact stops fuel

/-! ### The whole check -/

theorem heapValidate_of_race (raced : race (nextIn m) 0 fuel vars.heapHead vars.heapHead = some met) :
    ((heapValidate fuel vars).run m).result =
      if met then some "Heap cycle detected!\n"
      else ((checkBlocks vars fuel vars.heapHead).run m).result := by
  obtain ⟨found, same⟩ := run_findCycle_race m fuel vars.heapHead vars.heapHead
  rw [raced] at found
  cases met <;> simp [heapValidate, found, same]

/-- What `heap_validate` answers on every memory. -/
theorem heapValidate_answers (bound : vars.heapHead < 2 ^ 32) :
    ∃ laps message, (∀ fuel ≥ laps, ((heapValidate fuel vars).run m).result = some message) ∧
      (message = "Heap cycle detected!\n" ↔ Cyclic vars m) ∧
      (message = "Heap structure valid.\n" ↔
        ¬ Cyclic vars m ∧ ∀ b, Listed vars m b → Passes vars m b) := by
  rcases ends_or_cyclic (m := m) bound with ends | cyclic
  · have acyclic : ¬ Cyclic vars m := fun cyclic => cyclic.not_ends ends
    obtain ⟨laps, raced⟩ := race_of_ends ends
    obtain ⟨n, stopped⟩ := ends
    obtain ⟨bs, follows⟩ := follows_of_ends stopped
    obtain ⟨message, verdict, quiet, valid⟩ := run_checkBlocks_verdict vars follows
    refine ⟨laps + bs.length + 1, message, fun fuel enough => ?_, by simp [quiet, acyclic], ?_⟩
    · have race := heapValidate_of_race (raced fuel (by omega))
      exact race.trans (verdict fuel (by omega))
    · simpa [acyclic, follows_listed follows] using valid
  · obtain ⟨laps, raced⟩ := race_of_returns cyclic
    refine ⟨laps, "Heap cycle detected!\n", fun fuel enough => ?_, by simp [cyclic],
      by simp [cyclic]⟩
    exact heapValidate_of_race (raced fuel enough)

theorem unwrapped_of_checks (head : vars.heapHead < 2 ^ 32) (bound : vars.heapEnd < 2 ^ 32)
    (checks : Checks vars m) : Unwrapped vars m := by
  obtain ⟨laps, message, answers, -, valid⟩ := heapValidate_answers (m := m) head
  obtain ⟨laps', message', answers', -, sound⟩ := checks
  have same : some message = some message' :=
    (answers _ (Nat.le_max_left laps laps')).symm.trans (answers' _ (Nat.le_max_right laps laps'))
  cases same
  intro acyclic passes b listed
  exact ((sound_iff bound).mp ((sound.mp (valid.mpr ⟨acyclic, passes⟩)).2 b listed)).2

/-- The check is right exactly when no payload wraps on a list that otherwise
passes: the end of a payload is added up in 32 bits before it is compared. -/
theorem heap_validate_checks (head : vars.heapHead < 2 ^ 32) (bound : vars.heapEnd < 2 ^ 32) :
    Checks vars m ↔ Unwrapped vars m := by
  refine ⟨unwrapped_of_checks head bound, fun unwrapped => ?_⟩
  obtain ⟨laps, message, answers, cycle, valid⟩ := heapValidate_answers (m := m) head
  refine ⟨laps, message, answers, cycle, valid.trans (and_congr_right fun acyclic => ?_)⟩
  simp only [sound_iff bound, forall_and]
  exact ⟨fun passes => ⟨passes, unwrapped acyclic passes⟩, And.left⟩

/-- One header at the start of the heap, with this size and no neighbours. -/
def oneHeader (size : Nat) : Mem :=
  writeWord (writeWord (fun _ => 0) 0x400000 heapMagic) 0x400004 size

def oneHeaderVars : HeapVars := ⟨0x400000, 0x40001c, 0x400000⟩

theorem oneHeader_listed (last : nextIn (oneHeader size) 0x400000 = 0) :
    Listed oneHeaderVars (oneHeader size) b ↔ b ∈ [0x400000] :=
  follows_listed ⟨rfl, by decide, last⟩

theorem heap_validate_checks_small : Checks oneHeaderVars (oneHeader 8) := by
  refine (heap_validate_checks (by decide) (by decide)).mpr fun _ _ b listed => ?_
  rw [List.mem_singleton.mp ((oneHeader_listed (by decide)).mp listed)]
  decide

/-- A size of nearly 2^32 makes the end of the payload wrap below `heap_end`. -/
theorem wrapped_payload_is_valid : ¬ ∀ vars m, vars.heapHead < 2 ^ 32 → vars.heapEnd < 2 ^ 32 →
    Checks vars m := by
  intro all
  have checks := all oneHeaderVars (oneHeader 0xFFFFFFF0) (by decide) (by decide)
  have last : nextIn (oneHeader 0xFFFFFFF0) 0x400000 = 0 := by decide
  have acyclic : ¬ Cyclic oneHeaderVars (oneHeader 0xFFFFFFF0) :=
    fun cyclic => cyclic.not_ends ⟨1, last⟩
  have passes : Passes oneHeaderVars (oneHeader 0xFFFFFFF0) 0x400000 :=
    ⟨by decide, fun more => absurd last more, by decide, by decide⟩
  have small := unwrapped_of_checks (by decide) (by decide) checks acyclic
    (by simpa [oneHeader_listed last] using passes) 0x400000 ((oneHeader_listed last).mpr (by simp))
  exact absurd small (by decide)

end ZynthexOS.HeapChecker
