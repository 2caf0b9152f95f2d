import Mathlib.Data.List.Rotate
import ZynthexOS.Dispatching

/-! The ready queue over whole runs. Whatever the scheduler is asked, following
`next` from `ready_queue` comes to every task that was added, once, and back;
adding puts the new task behind all others as seen from the head, and every other
call at most turns the ring. -/
namespace ZynthexOS.ReadyRing
open Lib Lib.Rings Sched ReadyQueue

/-- A call on the ready queue. -/
inductive RingCall where
  | addTask (task : UInt32)
  | pickNext
  | switchTo (task : UInt32)
  | yield
  deriving DecidableEq, Repr

/-- A call that returns. -/
def RingStep (s : Scheduler) : RingCall → Scheduler → Prop
  | .addTask task, s' => ∃ fuel, schedulerAddTask fuel s task = some s'
  | .pickNext, s' => ∃ fuel result, schedulerPickNext fuel s = some (s', result)
  | .switchTo task, s' => s' = schedulerSwitchTo s task
  | .yield, s' => ∃ fuel, schedulerYield fuel s = some s'

/-- A task that is added is no NULL pointer and not queued yet. -/
def Legal (s : Scheduler) : RingCall → Prop
  | .addTask task => task ≠ 0 ∧ ¬ Queued s task
  | _ => True

/-- The tasks added by some calls, in this order. -/
def added : List RingCall → List UInt32 :=
  List.filterMap fun
    | .addTask task => some task
    | _ => none

/-- What a call makes of the ring: a new task comes last from the head, which stays
where it is; otherwise the order is the same up to its head. -/
def Follows (s s' : Scheduler) (ts ts' : List UInt32) : RingCall → Prop
  | .addTask task => ts' = ts ++ [task] ∧ (ts ≠ [] → s'.readyQueue = s.readyQueue)
  | _ => ts' ~r ts

theorem queue_switchTo (queue : Queue s ts) (task : UInt32) :
    Queue (schedulerSwitchTo s task) ts := by
  unfold schedulerSwitchTo
  split
  · exact queue
  · have same : Queue { s with
        esp0 := (s.tasks task).kernelStack + kernelStackSize, currentTask := task } ts :=
      queue.congr rfl fun _ _ => rfl
    exact same.setState task .running

theorem queue_pickNext (queue : Queue s ts) (fuel : Nat) :
    (schedulerPickNext fuel s = none ∧ fuel < ts.length) ∨
      ∃ s' result ts', schedulerPickNext fuel s = some (s', result) ∧ Queue s' ts' ∧ ts' ~r ts := by
  rcases schedulerPickNext_spec queue fuel with out | ⟨none, -⟩ | picked
  · exact .inl out
  · exact .inr ⟨s, 0, ts, none, queue, .refl ts⟩
  · obtain ⟨left, t, right, rfl, -, -, picked, queue'⟩ := picked
    refine .inr ⟨_, t, _, picked, queue', ?_⟩
    -- the part from the head through the picked task moves behind the rest
    have turned : right ++ (left ++ [t]) ~r left ++ [t] ++ right := List.isRotated_append
    simpa only [List.append_assoc, List.singleton_append] using turned

theorem queue_yield (queue : Queue s ts) (fuel : Nat) :
    (schedulerYield fuel s = none ∧ fuel < ts.length) ∨
      ∃ s' ts', schedulerYield fuel s = some s' ∧ Queue s' ts' ∧ ts' ~r ts := by
  by_cases idle : s.currentTask = 0
  · exact .inr ⟨s, ts, Dispatching.yield_idle idle fuel, queue, .refl ts⟩
  · have ready := queue.setState s.currentTask .ready
    rw [Dispatching.schedulerYield_eq idle]
    rcases queue_pickNext ready fuel with ⟨out, short⟩ | ⟨s', result, ts', picked, queue', turned⟩
    · exact .inl ⟨by rw [out]; rfl, short⟩
    · refine .inr ⟨_, ts', by rw [picked]; rfl, ?_, turned⟩
      beta_reduce
      split
      · exact queue_switchTo queue' result
      · exact queue'

/-- A legal call returns, after at most one round for each queued task, and only in
this way. -/
theorem ring_step (queue : Queue s ts) (legal : Legal s call) :
    (∃ s', RingStep s call s') ∧ ∀ s', RingStep s call s' →
      ∃ ts', Queue s' ts' ∧ Follows s s' ts ts' call := by
  cases call with
  | addTask task =>
    obtain ⟨real, notQueued⟩ := legal
    have spec := schedulerAddTask_spec queue (mt queue.queued_iff.mpr notQueued) real
    constructor
    · rcases spec ts.length with ⟨-, short⟩ | ⟨s', done, -⟩
      · exact absurd short (Nat.lt_irrefl _)
      · exact ⟨s', ts.length, done⟩
    · rintro s' ⟨fuel, done⟩
      rcases spec fuel with ⟨out, -⟩ | ⟨t, done', queue', -, head, -⟩
      · cases out.symm.trans done
      · cases done'.symm.trans done
        exact ⟨ts ++ [task], queue', rfl, head⟩
  | pickNext =>
    constructor
    · rcases queue_pickNext queue ts.length with ⟨-, short⟩ | ⟨s', result, -, done, -⟩
      · exact absurd short (Nat.lt_irrefl _)
      · exact ⟨s', ts.length, result, done⟩
    · rintro s' ⟨fuel, result, done⟩
      rcases queue_pickNext queue fuel with ⟨out, -⟩ | ⟨t, result', ts', done', queue', turned⟩
      · cases out.symm.trans done
      · cases done'.symm.trans done
        exact ⟨ts', queue', turned⟩
  | switchTo task =>
    refine ⟨⟨_, rfl⟩, ?_⟩
    rintro s' rfl
    exact ⟨ts, queue_switchTo queue task, .refl ts⟩
  | yield =>
    constructor
    · rcases queue_yield queue ts.length with ⟨-, short⟩ | ⟨s', -, done, -⟩
      · exact absurd short (Nat.lt_irrefl _)
      · exact ⟨s', ts.length, done⟩
    · rintro s' ⟨fuel, done⟩
      rcases queue_yield queue fuel with ⟨out, -⟩ | ⟨t, ts', done', queue', turned⟩
      · cases out.symm.trans done
      · cases done'.symm.trans done
        exact ⟨ts', queue', turned⟩

/-- The tasks in the ring are those added, each as often as it was. -/
theorem follows_perm (follows : Follows s s' ts ts' call) : ts'.Perm (ts ++ added [call]) := by
  cases call with
  | addTask task =>
    obtain ⟨rfl, -⟩ := follows
    exact .refl _
  | pickNext | switchTo task | yield =>
    have turned : ts' ~r ts := follows
    have none : ts ++ [] = ts := List.append_nil ts
    exact none.symm ▸ turned.perm

theorem added_cons (call : RingCall) (calls : List RingCall) :
    added (call :: calls) = added [call] ++ added calls :=
  List.filterMap_append (l := [call])

theorem queue_run (run : Run (Guarded Legal RingStep) s calls s') (queue : Queue s ts) :
    ∃ ts', Queue s' ts' ∧ ts'.Perm (ts ++ added calls) := by
  induction run generalizing ts with
  | nil => exact ⟨ts, queue, by simp [added]⟩
  | @cons _ _ _ call calls taken _ ih =>
    obtain ⟨ts', queue', follows⟩ := (ring_step queue taken.1).2 _ taken.2
    obtain ⟨ts'', queue'', same⟩ := ih queue'
    refine ⟨ts'', queue'', same.trans ?_⟩
    rw [added_cons, ← List.append_assoc]
    exact (follows_perm follows).append_right _

/-- After any calls on an empty ready queue, of which `scheduler_add_task` takes
only tasks that are not queued: the queue is a single cycle through the tasks that
were added, each once; and every further call returns and keeps the cyclic order
of these, a new task coming to stand before the head. -/
theorem ready_ring (empty : s₀.readyQueue = 0) (run : Run (Guarded Legal RingStep) s₀ calls s) :
    ∃ ts, Queue s ts ∧ ts.Perm (added calls) ∧ ts.Nodup ∧
      ∀ call, Legal s call → (∃ s', RingStep s call s') ∧
        ∀ s', RingStep s call s' → ∃ ts', Queue s' ts' ∧ Follows s s' ts ts' call := by
  have start : Queue s₀ [] := ⟨.inl ⟨rfl, empty⟩, by simp⟩
  obtain ⟨ts, queue, same⟩ := queue_run run start
  have distinct : ts.Nodup := by
    rcases queue.order with ⟨rfl, -⟩ | ring
    · exact List.nodup_nil
    · exact ring.distinct
  exact ⟨ts, queue, same, distinct, fun call legal => ring_step queue legal⟩

/-- Two tasks added one after the other. -/
theorem ready_ring_two : ∃ s ts, Queue s ts ∧ ts.Perm [4136, 8252] := by
  have first : Guarded Legal RingStep Dispatching.booted (.addTask 4136)
      ({ Dispatching.booted with readyQueue := 4136 }.setNext 4136 4136) :=
    ⟨⟨by decide, fun queued => queued.1 rfl⟩, 0, rfl⟩
  have empty : Dispatching.booted.readyQueue = 0 := rfl
  obtain ⟨ts, queue, same, -, next⟩ := ready_ring empty (.cons first .nil)
  have fresh : Legal ({ Dispatching.booted with readyQueue := 4136 }.setNext 4136 4136)
      (.addTask 8252) := by
    refine ⟨by decide, fun queued => ?_⟩
    have member := same.mem_iff.mp (queue.queued_iff.mp queued)
    exact absurd member (by decide)
  obtain ⟨⟨s', added⟩, -⟩ := next (.addTask 8252) fresh
  obtain ⟨ts', queue', same', -⟩ :=
    ready_ring empty (.cons first (.cons ⟨fresh, added⟩ .nil))
  exact ⟨s', ts', queue', same'⟩

end ZynthexOS.ReadyRing
