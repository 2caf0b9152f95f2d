import Mathlib.Logic.Function.Iterate
import Mathlib.Tactic.Common

/-! A reader that works through a queue and sleeps once it has seen the queue empty. What
arrives in between wakes it only if it sleeps already. -/
namespace ZynthexOS.Lib.Polling

/-- Where the reader is: it looks whether there is an item, takes it, handles it; or it has seen
no item and goes to sleep. A handler that does not return keeps it for good. -/
inductive Place (α : Type*) where
  | look
  | take
  | hold (item : α)
  | leave
  | asleep
  | stuck (item : α)
  deriving DecidableEq

structure Reader (α β : Type*) where
  place : Place α
  queue : List α
  state : β

variable {α β : Type*} {handle : β → α → Option β} {r : Reader α β} {item : α} {b first : β}

/-- The item taken and not handled yet. -/
def Place.held : Place α → List α
  | .hold item => [item]
  | .stuck item => [item]
  | _ => []

/-- What wakes a sleeping reader. -/
def Place.wake : Place α → Place α
  | .asleep => .look
  | place => place

/-- The reader has seen the queue empty and will not look again by itself. -/
def Place.Retired (place : Place α) : Prop := place = .leave ∨ place = .asleep

/-- Items arrive, maybe none, with a wake-up. -/
def Reader.arrive (r : Reader α β) (items : List α) : Reader α β :=
  { r with place := r.place.wake, queue := r.queue ++ items }

/-- One step of the reader. -/
def Reader.step (handle : β → α → Option β) (r : Reader α β) : Reader α β :=
  match r.place with
  | .look => { r with place := if r.queue.isEmpty then .leave else .take }
  | .take =>
    match r.queue with
    | [] => r
    | item :: queue => { r with place := .hold item, queue := queue }
  | .hold item =>
    match handle r.state item with
    | some state => { r with place := .look, state := state }
    | none => { r with place := .stuck item }
  | .leave => { r with place := .asleep }
  | .asleep => r
  | .stuck _ => r

/-- What waits for the reader. -/
def Reader.pending (r : Reader α β) : List α := r.place.held ++ r.queue

/-- From looking to taking the queue has an item, and only a handler that does not return keeps
the reader. -/
structure Reader.Sound (handle : β → α → Option β) (r : Reader α β) : Prop where
  take : r.place = .take → r.queue ≠ []
  stuck : ∀ item, r.place = .stuck item → handle r.state item = none

theorem step_look (place : r.place = .look) (some : r.queue ≠ []) :
    r.step handle = { r with place := .take } := by
  simp [Reader.step, place, some]

theorem step_look_nil (place : r.place = .look) (none : r.queue = []) :
    r.step handle = { r with place := .leave } := by
  simp [Reader.step, place, none]

theorem step_take (place : r.place = .take) (cons : r.queue = item :: queue) :
    r.step handle = { r with place := .hold item, queue := queue } := by
  simp [Reader.step, place, cons]

theorem step_hold (place : r.place = .hold item) (returns : handle r.state item = some b) :
    r.step handle = { r with place := .look, state := b } := by
  simp [Reader.step, place, returns]

theorem step_hold_none (place : r.place = .hold item) (never : handle r.state item = none) :
    r.step handle = { r with place := .stuck item } := by
  simp [Reader.step, place, never]

theorem step_leave (place : r.place = .leave) : r.step handle = { r with place := .asleep } := by
  simp [Reader.step, place]

theorem step_asleep (place : r.place = .asleep) : r.step handle = r := by simp [Reader.step, place]

theorem step_stuck (place : r.place = .stuck item) : r.step handle = r := by simp [Reader.step, place]

theorem wake_held (place : Place α) : place.wake.held = place.held := by cases place <;> rfl

theorem arrive_pending (r : Reader α β) (items : List α) : (r.arrive items).pending = r.pending ++ items := by
  rw [Reader.pending, Reader.pending, List.append_assoc, Reader.arrive, wake_held]

theorem Reader.Sound.arrive (sound : r.Sound handle) (items : List α) : (r.arrive items).Sound handle := by
  constructor
  · intro take empty
    have before : r.place = .take := by
      cases place : r.place <;> simp [Reader.arrive, Place.wake, place] at take ⊢
    exact sound.take before (List.append_eq_nil_iff.mp empty).1
  · intro item stuck
    have before : r.place = .stuck item := by
      cases place : r.place <;> simp [Reader.arrive, Place.wake, place] at stuck ⊢
      exact stuck
    exact sound.stuck item before

theorem Reader.Sound.step (sound : r.Sound handle) : (r.step handle).Sound handle := by
  cases place : r.place with
  | look =>
    by_cases none : r.queue = []
    · rw [step_look_nil place none]
      exact ⟨nofun, nofun⟩
    · rw [step_look place none]
      exact ⟨fun _ => none, nofun⟩
  | take =>
    obtain ⟨item, queue, cons⟩ := List.exists_cons_of_ne_nil (sound.take place)
    rw [step_take place cons]
    exact ⟨nofun, nofun⟩
  | hold item =>
    cases handled : handle r.state item with
    | some b =>
      rw [step_hold place handled]
      exact ⟨nofun, nofun⟩
    | none =>
      rw [step_hold_none place handled]
      refine ⟨nofun, fun _ same => ?_⟩
      cases same
      exact handled
  | leave =>
    rw [step_leave place]
    exact ⟨nofun, nofun⟩
  | asleep =>
    rw [step_asleep place]
    exact sound
  | stuck item =>
    rw [step_stuck place]
    exact sound

/-! ## What has been handled -/

/-- What was received is what has been handled, in its order, and what is pending. -/
def Follows (handle : β → α → Option β) (first : β) (received : List α) (r : Reader α β) : Prop :=
  ∃ handled, handled ++ r.pending = received ∧ handled.foldlM handle first = some r.state

theorem follows_start (handle : β → α → Option β) (first : β) : Follows handle first [] ⟨.look, [], first⟩ :=
  ⟨[], rfl, rfl⟩

theorem Follows.arrive (follows : Follows handle first received r) (items : List α) :
    Follows handle first (received ++ items) (r.arrive items) := by
  obtain ⟨handled, split, result⟩ := follows
  refine ⟨handled, ?_, result⟩
  rw [arrive_pending, ← split, List.append_assoc]

/-- A step that handles nothing keeps what is pending. -/
theorem Follows.of_pending (follows : Follows handle first received r) (pending : r'.pending = r.pending)
    (state : r'.state = r.state) : Follows handle first received r' := by
  obtain ⟨handled, split, result⟩ := follows
  exact ⟨handled, by rw [pending, split], by rw [result, state]⟩

theorem Follows.step (sound : r.Sound handle) (follows : Follows handle first received r) :
    Follows handle first received (r.step handle) := by
  cases place : r.place with
  | look =>
    by_cases none : r.queue = []
    · rw [step_look_nil place none]
      exact follows.of_pending (by simp [Reader.pending, Place.held, place]) rfl
    · rw [step_look place none]
      exact follows.of_pending (by simp [Reader.pending, Place.held, place]) rfl
  | take =>
    obtain ⟨item, queue, cons⟩ := List.exists_cons_of_ne_nil (sound.take place)
    rw [step_take place cons]
    exact follows.of_pending (by simp [Reader.pending, Place.held, place, cons]) rfl
  | hold item =>
    cases handled : handle r.state item with
    | some b =>
      rw [step_hold place handled]
      obtain ⟨before, split, result⟩ := follows
      refine ⟨before ++ [item], ?_, ?_⟩
      · simpa [Reader.pending, Place.held, place] using split
      · rw [List.foldlM_append, result]
        simp [handled]
    | none =>
      rw [step_hold_none place handled]
      exact follows.of_pending (by simp [Reader.pending, Place.held, place]) rfl
  | leave =>
    rw [step_leave place]
    exact follows.of_pending (by simp [Reader.pending, Place.held, place]) rfl
  | asleep =>
    rw [step_asleep place]
    exact follows
  | stuck item =>
    rw [step_stuck place]
    exact follows

/-! ## Quiet steps -/

/-- How many steps are left before the reader sleeps: three for an item, and two to find the
queue empty and fall asleep. -/
def Reader.work (r : Reader α β) : Nat :=
  match r.place with
  | .look => 3 * r.queue.length + 2
  | .take => 3 * r.queue.length + 1
  | .hold _ => 3 * r.queue.length + 3
  | .leave => 1
  | .asleep => 0
  | .stuck _ => 0

/-- A reader that has given up leaves what has arrived since where it is. -/
theorem quiet_retired (retired : r.place.Retired) (enough : 1 ≤ n) :
    (Reader.step handle)^[n] r = { r with place := .asleep } := by
  induction n generalizing r with
  | zero => exact absurd enough (by decide)
  | succ n ih =>
    rw [Function.iterate_succ_apply]
    have sleeps : r.step handle = { r with place := .asleep } := by
      obtain leave | asleep := retired
      · exact step_leave leave
      · rw [step_asleep asleep, ← asleep]
    rw [sleeps]
    cases n with
    | zero => rfl
    | succ n => exact ih (.inr rfl) (Nat.le_add_left ..)

theorem pending_stuck (sound : r.Sound handle) (place : r.place = .stuck item) :
    r.pending.foldlM handle r.state = none := by
  simp [Reader.pending, Place.held, place, sound.stuck item place]

/-- A reader that has not given up handles all that is pending if nothing more arrives. -/
theorem quiet_handles (sound : r.Sound handle) (awake : ¬ r.place.Retired) (enough : r.work ≤ n)
    (returns : r.pending.foldlM handle r.state = some b) :
    (Reader.step handle)^[n] r = ⟨.asleep, [], b⟩ := by
  induction n generalizing r with
  | zero =>
    cases place : r.place with
    | leave => exact absurd (.inl place) awake
    | asleep => exact absurd (.inr place) awake
    | stuck item =>
      rw [pending_stuck sound place] at returns
      cases returns
    | _ => simp [Reader.work, place] at enough
  | succ n ih =>
    rw [Function.iterate_succ_apply]
    have next := sound.step
    cases place : r.place with
    | look =>
      simp only [Reader.work, place] at enough
      by_cases none : r.queue = []
      · rw [step_look_nil place none, quiet_retired (.inl rfl) (by rw [none, List.length_nil] at enough; omega)]
        simp only [Reader.pending, Place.held, place, none, List.nil_append, List.foldlM_nil] at returns
        cases returns
        rw [none]
      · rw [step_look place none] at next ⊢
        refine ih next (by simp [Place.Retired]) ?_ ?_
        · simp only [Reader.work]
          omega
        · simpa [Reader.pending, Place.held, place] using returns
    | take =>
      obtain ⟨item, queue, cons⟩ := List.exists_cons_of_ne_nil (sound.take place)
      simp only [Reader.work, place, cons, List.length_cons] at enough
      rw [step_take place cons] at next ⊢
      refine ih next (by simp [Place.Retired]) ?_ ?_
      · simp only [Reader.work]
        omega
      · simpa [Reader.pending, Place.held, place, cons] using returns
    | hold item =>
      simp only [Reader.work, place] at enough
      simp only [Reader.pending, Place.held, place, List.singleton_append, List.foldlM_cons] at returns
      obtain ⟨c, handled, rest⟩ := Option.bind_eq_some_iff.mp returns
      rw [step_hold place handled] at next ⊢
      refine ih next (by simp [Place.Retired]) ?_ ?_
      · simp only [Reader.work]
        omega
      · simpa [Reader.pending, Place.held] using rest
    | leave => exact absurd (.inl place) awake
    | asleep => exact absurd (.inr place) awake
    | stuck item =>
      rw [pending_stuck sound place] at returns
      cases returns

end ZynthexOS.Lib.Polling
