import ZynthexOS.Lib.Rings
import ZynthexOS.Sched.Sched

/-! The ready queue as a ring of tasks. Each operation of the scheduler is said
once in terms of the order of that ring: adding appends to it, picking takes the
first task in state `TASK_READY` and continues behind it, and nothing else
touches the links. -/
namespace ZynthexOS.ReadyQueue
open Lib.Rings Sched

/-- The links of the task structures. -/
def nextOf (s : Scheduler) : UInt32 → UInt32 := fun a => (s.tasks a).next

def Ready (s : Scheduler) (t : UInt32) : Prop := (s.tasks t).state = .ready

instance : Decidable (Ready s t) := inferInstanceAs (Decidable (_ = _))

/-- A task that following `next` from `ready_queue` comes to. -/
def Queued (s : Scheduler) (t : UInt32) : Prop :=
  s.readyQueue ≠ 0 ∧ Reaches (nextOf s) s.readyQueue t

/-- The tasks of the ready queue, in order from its head. -/
structure Queue (s : Scheduler) (ts : List UInt32) : Prop where
  order : (ts = [] ∧ s.readyQueue = 0) ∨ Ring (nextOf s) s.readyQueue ts
  valid : 0 ∉ ts

theorem Queue.ring (queue : Queue s ts) (nonempty : ts ≠ []) : Ring (nextOf s) s.readyQueue ts :=
  queue.order.resolve_left fun empty => nonempty empty.1

theorem Queue.head_eq_zero (queue : Queue s ts) : s.readyQueue = 0 ↔ ts = [] := by
  rcases queue.order with ⟨rfl, zero⟩ | ring
  · exact iff_of_true zero rfl
  · refine iff_of_false (fun zero => queue.valid ?_) ring.nonempty
    rw [← zero]
    exact ring.head_mem

theorem Queue.queued_iff (queue : Queue s ts) : Queued s t ↔ t ∈ ts := by
  rcases queue.order with ⟨rfl, zero⟩ | ring
  · simp [Queued, zero]
  · have head : s.readyQueue ≠ 0 := fun zero => ring.nonempty (queue.head_eq_zero.mp zero)
    rw [Queued, ring.mem_iff]
    exact and_iff_right head

/-- The queue depends only on its head and the links of its tasks. -/
theorem Queue.congr (queue : Queue s ts) (head : s'.readyQueue = s.readyQueue)
    (links : ∀ t ∈ ts, nextOf s' t = nextOf s t) : Queue s' ts := by
  refine ⟨?_, queue.valid⟩
  rw [head]
  exact queue.order.imp_right fun ring => ring.congr links

/-! ## State updates -/

@[simp] theorem nextOf_setState (s : Scheduler) (a : UInt32) (state : TaskState) :
    nextOf (s.setState a state) = nextOf s := by
  funext b
  unfold nextOf Scheduler.setState Scheduler.setTask
  dsimp only
  split_ifs with same
  · rw [same]
  · rfl

theorem setState_same (s : Scheduler) (a : UInt32) (state : TaskState) :
    ((s.setState a state).tasks a).state = state := by
  simp [Scheduler.setState, Scheduler.setTask]

theorem setState_ne (s : Scheduler) (state : TaskState) (ne : b ≠ a) :
    ((s.setState a state).tasks b).state = (s.tasks b).state := by
  simp [Scheduler.setState, Scheduler.setTask, ne]

theorem Queue.setState (queue : Queue s ts) (a : UInt32) (state : TaskState) :
    Queue (s.setState a state) ts :=
  queue.congr rfl fun t _ => congrFun (nextOf_setState s a state) t

@[simp] theorem nextOf_setNext (s : Scheduler) (a b next : UInt32) :
    nextOf (s.setNext a next) b = if b = a then next else nextOf s b := by
  unfold nextOf Scheduler.setNext Scheduler.setTask
  split_ifs with same <;> simp [same]

theorem setNext_state (s : Scheduler) (a next b : UInt32) :
    ((s.setNext a next).tasks b).state = (s.tasks b).state := by
  by_cases same : b = a
  · simp [Scheduler.setNext, Scheduler.setTask, same]
  · simp [Scheduler.setNext, Scheduler.setTask, same]

/-! ## `scheduler_add_task` -/

/-- From a task of the queue on, the walk to the tail ends at the last task. -/
theorem findTail_spec (chain : Chain (nextOf s) a (cells ++ [last]) s.readyQueue)
    (inside : s.readyQueue ∉ (cells ++ [last]).tail) (fuel : Nat) :
    (findTail s fuel a = none ∧ fuel < (cells ++ [last]).length) ∨
      findTail s fuel a = some last := by
  induction cells generalizing a fuel with
  | nil =>
    obtain ⟨rfl, back⟩ := chain
    cases fuel with
    | zero => exact .inl ⟨rfl, by simp⟩
    | succ fuel => exact .inr (if_neg (not_not.mpr back))
  | cons cell cells ih =>
    obtain ⟨rfl, after⟩ := chain
    have rest : Chain (nextOf s) (nextOf s a) (cells ++ [last]) s.readyQueue := after
    cases fuel with
    | zero => exact .inl ⟨rfl, by simp⟩
    | succ fuel =>
      have onward : (s.tasks a).next ≠ s.readyQueue := by
        intro back
        have first : ∃ b bs, cells ++ [last] = b :: bs := by
          cases cells <;> simp
        obtain ⟨b, bs, split⟩ := first
        rw [split] at rest
        have here : nextOf s a = b := rest.1
        apply inside
        rw [← back, List.cons_append, List.tail_cons, split]
        exact List.mem_cons.mpr (.inl here)
      have walk : findTail s (fuel + 1) a = findTail s fuel (s.tasks a).next := if_pos onward
      rw [walk]
      have later : s.readyQueue ∉ (cells ++ [last]).tail :=
        fun member => inside (List.mem_of_mem_tail member)
      rcases ih rest later fuel with ⟨out, short⟩ | found
      · exact .inl ⟨out, by simpa using short⟩
      · exact .inr found

/-- Adding a task appends it to the queue and changes links only. -/
theorem schedulerAddTask_spec (queue : Queue s ts) (fresh : t ∉ ts) (positive : t ≠ 0) (fuel : Nat) :
    (schedulerAddTask fuel s t = none ∧ fuel < ts.length) ∨
      ∃ s', schedulerAddTask fuel s t = some s' ∧ Queue s' (ts ++ [t]) ∧
        s'.currentTask = s.currentTask ∧ (ts ≠ [] → s'.readyQueue = s.readyQueue) ∧
        ∀ a, (s'.tasks a).state = (s.tasks a).state := by
  have valid : 0 ∉ ts ++ [t] := by simp [queue.valid, positive.symm]
  by_cases empty : ts = []
  · subst empty
    have head := queue.head_eq_zero.mpr rfl
    refine .inr ⟨{ s with readyQueue := t }.setNext t t, by rw [schedulerAddTask, if_pos head],
      ⟨.inr ?_, valid⟩, rfl, by simp, fun a => setNext_state _ _ _ _⟩
    apply Ring.single
    rw [nextOf_setNext]
    exact if_pos rfl
  · have ring := queue.ring empty
    have head : ¬ s.readyQueue = 0 := mt queue.head_eq_zero.mp empty
    obtain ⟨left, last, split⟩ := (List.eq_nil_or_concat ts).resolve_left empty
    rw [List.concat_eq_append] at split
    subst split
    have outside : s.readyQueue ∉ (left ++ [last]).tail := by
      obtain ⟨rest, same⟩ := ring.exists_cons
      have distinct := ring.distinct
      rw [same] at distinct ⊢
      exact (List.nodup_cons.mp distinct).1
    rcases findTail_spec ring.cycle outside fuel with ⟨out, short⟩ | found
    · exact .inl ⟨by rw [schedulerAddTask, if_neg head, out]; rfl, short⟩
    · have other : last ≠ t := by
        rintro rfl
        exact fresh (by simp)
      refine .inr ⟨(s.setNext last t).setNext t s.readyQueue,
        by rw [schedulerAddTask, if_neg head, found]; rfl, ⟨.inr ?_, valid⟩, rfl, fun _ => rfl,
        fun a => (setNext_state _ _ _ _).trans (setNext_state _ _ _ _)⟩
      refine ring.insert fresh ?_ ?_ ?_
      · rw [nextOf_setNext, if_neg other, nextOf_setNext, if_pos rfl]
      · rw [nextOf_setNext, if_pos rfl]
      · intro d member
        have notNew : d ≠ t := by
          rintro rfl
          exact fresh (by simp [member])
        have notLast : d ≠ last := by
          rintro rfl
          exact (List.nodup_append.mp ring.distinct).2.2 d member d (by simp) rfl
        rw [nextOf_setNext, if_neg notNew, nextOf_setNext, if_neg notLast]

/-! ## `scheduler_pick_next` -/

/-- From a task of the queue on, the walk stops at the first ready task, or comes
back to the head. -/
theorem pickLoop_spec (chain : Chain (nextOf s) a (c :: cells) s.readyQueue)
    (inside : s.readyQueue ∉ cells) (valid : 0 ∉ c :: cells) (fuel : Nat) :
    (pickLoop s fuel a = none ∧ fuel < (c :: cells).length) ∨
      pickLoop s fuel a = some (((c :: cells).find? fun t => Ready s t).getD s.readyQueue) := by
  induction cells generalizing a c fuel with
  | nil =>
    obtain ⟨rfl, back⟩ := chain
    cases fuel with
    | zero => exact .inl ⟨rfl, by simp⟩
    | succ fuel =>
      refine .inr ?_
      have positive : a ≠ 0 := fun zero => valid (by simp [zero])
      have link : (s.tasks a).next = s.readyQueue := back
      by_cases ready : Ready s a
      · have stop : (s.tasks a).state = .ready := ready
        simp [pickLoop, stop, ready]
      · have onward : (s.tasks a).state ≠ .ready := ready
        simp [pickLoop, onward, positive, link, ready]
  | cons d cells ih =>
    obtain ⟨rfl, rest⟩ := chain
    cases fuel with
    | zero => exact .inl ⟨rfl, by simp⟩
    | succ fuel =>
      have positive : a ≠ 0 := fun zero => valid (by simp [zero])
      have link : (s.tasks a).next = d := rest.1
      have notHead : d ≠ s.readyQueue := by
        rintro rfl
        exact inside (by simp)
      by_cases ready : Ready s a
      · have stop : (s.tasks a).state = .ready := ready
        exact .inr (by simp [pickLoop, stop, ready])
      · have onward : (s.tasks a).state ≠ .ready := ready
        have walk : pickLoop s (fuel + 1) a = pickLoop s fuel (s.tasks a).next := by
          rw [pickLoop, if_pos ⟨positive, onward⟩, link, if_neg notHead]
        rw [walk, List.find?_cons_of_neg (by simpa using ready)]
        rcases ih rest (fun member => inside (by simp [member]))
          (fun member => valid (by simp [member])) fuel with ⟨out, short⟩ | found
        · exact .inl ⟨out, by simpa using short⟩
        · exact .inr found

/-- What picking yields: nothing when no task is ready, else the first ready task,
with the queue continued behind it. -/
theorem schedulerPickNext_spec (queue : Queue s ts) (fuel : Nat) :
    (schedulerPickNext fuel s = none ∧ fuel < ts.length) ∨
      (schedulerPickNext fuel s = some (s, 0) ∧ ∀ t ∈ ts, ¬ Ready s t) ∨
      ∃ left t right, ts = left ++ t :: right ∧ (∀ u ∈ left, ¬ Ready s u) ∧ Ready s t ∧
        schedulerPickNext fuel s = some ({ s with readyQueue := nextOf s t }, t) ∧
        Queue { s with readyQueue := nextOf s t } (right ++ left ++ [t]) := by
  by_cases empty : ts = []
  · have head := queue.head_eq_zero.mpr empty
    subst empty
    exact .inr (.inl ⟨if_pos head, by simp⟩)
  · have ring := queue.ring empty
    have head : ¬ s.readyQueue = 0 := mt queue.head_eq_zero.mp empty
    obtain ⟨rest, same⟩ := ring.exists_cons
    have chain := ring.cycle
    have outside : s.readyQueue ∉ rest := by
      have distinct := ring.distinct
      rw [same] at distinct
      exact (List.nodup_cons.mp distinct).1
    rw [same] at chain
    rcases pickLoop_spec chain outside (same ▸ queue.valid) fuel with ⟨out, short⟩ | stopped
    · exact .inl ⟨by rw [schedulerPickNext, if_neg head, out]; rfl, same ▸ short⟩
    · rw [← same] at stopped
      refine .inr ?_
      cases found : ts.find? fun t => Ready s t with
      | none =>
        have unready : ∀ t ∈ ts, ¬ Ready s t := by simpa using List.find?_eq_none.mp found
        refine .inl ⟨?_, unready⟩
        rw [found] at stopped
        have blocked : ¬ (s.tasks s.readyQueue).state = .ready := unready _ ring.head_mem
        rw [schedulerPickNext, if_neg head, stopped]
        simp [blocked]
      | some t =>
        obtain ⟨ready, left, right, split, before⟩ := List.find?_eq_some_iff_append.mp found
        have isReady : Ready s t := by simpa using ready
        have positive : t ≠ 0 := by
          rintro rfl
          exact queue.valid (by simp [split])
        refine .inr ⟨left, t, right, split, by simpa using before, isReady, ?_, ?_⟩
        · rw [found] at stopped
          have state : (s.tasks t).state = .ready := isReady
          rw [schedulerPickNext, if_neg head, stopped]
          simp [positive, state, nextOf]
        · rw [split] at ring queue
          have advanced := ring.advance
          refine ⟨.inr advanced, fun zero => queue.valid ?_⟩
          simp only [List.mem_append, List.mem_cons] at zero ⊢
          tauto

end ZynthexOS.ReadyQueue
