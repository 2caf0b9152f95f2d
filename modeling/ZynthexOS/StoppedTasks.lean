import ZynthexOS.ReadyRing
import ZynthexOS.RoundRobin

/-! Tasks that are blocked or dead. Picking looks at the state of a task and passes over
these; but a yield first makes the current task ready, whatever its state is, so that one
that stopped itself comes back with its next yield. -/
namespace ZynthexOS.StoppedTasks
open Lib Sched ReadyQueue Dispatching

/-- The task is blocked or dead. -/
def Stopped (s : Scheduler) (t : UInt32) : Prop :=
  (s.tasks t).state = .blocked ∨ (s.tasks t).state = .zombie

/-- The calls that hand the processor on. -/
def HandsOn : SchedCall → Prop
  | .pickNext | .yield | .tick => True
  | .create .. | .switchTo _ => False

/-- No task that is stopped at first is ready or running after any of the calls. -/
def StayStopped (s : Scheduler) (calls : List SchedCall) : Prop :=
  ∀ before s', before <+: calls → Run SchedStep s before s' → ∀ t, Stopped s t →
    (s'.tasks t).state ≠ .ready ∧ (s'.tasks t).state ≠ .running

/-- Nothing yields, or the current task is not stopped. -/
def NoneYields (s : Scheduler) (calls : List SchedCall) : Prop :=
  (∀ call ∈ calls, call = .pickNext) ∨ s.currentTask = 0 ∨ ¬ Stopped s s.currentTask

theorem Stopped.not_ready (stopped : Stopped s t) :
    (s.tasks t).state ≠ .ready ∧ (s.tasks t).state ≠ .running := by
  rcases stopped with state | state <;> rw [state] <;> decide

/-! ## What a call does to the states -/

/-- Picking changes no task, and returns none that is not ready. -/
theorem pickNext_cases (picked : schedulerPickNext fuel s = some (s', t)) :
    s'.tasks = s.tasks ∧ s'.currentTask = s.currentTask ∧ (t ≠ 0 → Ready s t) := by
  rw [schedulerPickNext] at picked
  split_ifs at picked
  · cases picked
    exact ⟨rfl, rfl, fun real => absurd rfl real⟩
  · obtain ⟨next, -, result⟩ := Option.map_eq_some_iff.mp picked
    split_ifs at result with found
    · cases result
      exact ⟨rfl, rfl, fun _ => found.2⟩
    · cases result
      exact ⟨rfl, rfl, fun real => absurd rfl real⟩

/-- A yield makes the current task ready; then it stays current, or another task that was
ready runs. -/
theorem yield_cases (busy : s.currentTask ≠ 0) (returned : schedulerYield fuel s = some s') :
    (s'.currentTask = s.currentTask ∧ ∀ t, (s'.tasks t).state =
      if t = s.currentTask then .ready else (s.tasks t).state) ∨
    (s'.currentTask ≠ s.currentTask ∧ Ready s s'.currentTask ∧ ∀ t, (s'.tasks t).state =
      if t = s'.currentTask then .running
      else if t = s.currentTask then .ready else (s.tasks t).state) := by
  rw [schedulerYield_eq busy] at returned
  obtain ⟨⟨u, next⟩, picked, result⟩ := Option.map_eq_some_iff.mp returned
  obtain ⟨tasks, current, ready⟩ := pickNext_cases picked
  have states : ∀ t, (u.tasks t).state =
      if t = s.currentTask then .ready else (s.tasks t).state := by
    intro t
    rw [tasks]
    split_ifs with here
    · rw [here, setState_same]
    · exact setState_ne _ _ here
  dsimp only at result ready
  split_ifs at result with moves
  · obtain ⟨real, other⟩ := moves
    rw [schedulerSwitchTo_eq u real] at result
    have kept : u.currentTask = s.currentTask := current
    rw [kept] at other
    have target : s'.currentTask = next := by
      rw [← result]
      rfl
    rw [target, ← result]
    refine .inr ⟨other, (setState_ne s .ready other).symm.trans (ready real), fun t => ?_⟩
    by_cases here : t = next
    · subst here
      exact (setState_same _ _ _).trans (if_pos rfl).symm
    · rw [if_neg here]
      exact (setState_ne _ _ here).trans (states t)
  · subst result
    exact .inl ⟨current, states⟩

/-- Compared with the first state, the stopped tasks still are, and none is current. -/
structure Kept (first s : Scheduler) : Prop where
  stopped : ∀ t, Stopped first t → Stopped s t
  current : s.currentTask ≠ 0 → ¬ Stopped first s.currentTask

theorem kept_yield (kept : Kept first s) (returned : schedulerYield fuel s = some s') :
    Kept first s' := by
  by_cases busy : s.currentTask = 0
  · rw [yield_idle busy] at returned
    cases returned
    exact kept
  · have apart : ∀ t, Stopped first t → t ≠ s.currentTask := by
      rintro t stopped rfl
      exact kept.current busy stopped
    rcases yield_cases busy returned with ⟨current, states⟩ | ⟨-, ready, states⟩
    · refine ⟨fun t stopped => ?_, current ▸ kept.current⟩
      rw [Stopped, states, if_neg (apart t stopped)]
      exact kept.stopped t stopped
    · have runs : ¬ Stopped first s'.currentTask :=
        fun stopped => (kept.stopped _ stopped).not_ready.1 ready
      refine ⟨fun t stopped => ?_, fun _ => runs⟩
      have other : t ≠ s'.currentTask := by
        rintro rfl
        exact runs stopped
      rw [Stopped, states, if_neg other, if_neg (apart t stopped)]
      exact kept.stopped t stopped

theorem kept_step (kept : Kept first s) (handsOn : HandsOn call) (taken : SchedStep s call s') :
    Kept first s' := by
  cases call with
  | create entry stack task => exact handsOn.elim
  | switchTo task => exact handsOn.elim
  | pickNext =>
    obtain ⟨fuel, result, picked⟩ := taken
    obtain ⟨tasks, current, -⟩ := pickNext_cases picked
    refine ⟨fun t stopped => ?_, current ▸ kept.current⟩
    rw [Stopped, tasks]
    exact kept.stopped t stopped
  | yield | tick =>
    obtain ⟨fuel, returned⟩ := taken
    exact kept_yield kept returned

theorem kept_run (run : Run SchedStep s calls s') (kept : Kept first s)
    (handsOn : ∀ call ∈ calls, HandsOn call) : Kept first s' := by
  induction run with
  | nil => exact kept
  | cons taken _ ih =>
    exact ih (kept_step kept (handsOn _ List.mem_cons_self) taken)
      fun call member => handsOn call (List.mem_cons_of_mem _ member)

/-- Picking alone changes no state. -/
theorem picks_run (run : Run SchedStep s calls s') (picks : ∀ call ∈ calls, call = .pickNext) :
    s'.tasks = s.tasks ∧ s'.currentTask = s.currentTask := by
  induction run with
  | nil => exact ⟨rfl, rfl⟩
  | cons taken _ ih =>
    cases picks _ List.mem_cons_self
    obtain ⟨fuel, result, picked⟩ := taken
    obtain ⟨tasks, current, -⟩ := pickNext_cases picked
    obtain ⟨tasks', current'⟩ := ih fun call member => picks call (List.mem_cons_of_mem _ member)
    exact ⟨tasks'.trans tasks, current'.trans current⟩

/-! ## Runs -/

/-- On a ring every call returns and leaves a ring. -/
theorem handsOn_returns (queue : Queue s ts) (handsOn : HandsOn call) :
    ∃ s' ts', SchedStep s call s' ∧ Queue s' ts' := by
  have yields : ∃ s' ts', (∃ fuel, schedulerYield fuel s = some s') ∧ Queue s' ts' := by
    rcases ReadyRing.queue_yield queue ts.length with ⟨-, short⟩ | ⟨s', ts', done, queue', -⟩
    · exact absurd short (Nat.lt_irrefl _)
    · exact ⟨s', ts', ⟨ts.length, done⟩, queue'⟩
  cases call with
  | create entry stack task => exact handsOn.elim
  | switchTo task => exact handsOn.elim
  | pickNext =>
    rcases ReadyRing.queue_pickNext queue ts.length with
      ⟨-, short⟩ | ⟨s', result, ts', done, queue', -⟩
    · exact absurd short (Nat.lt_irrefl _)
    · exact ⟨s', ts', ⟨ts.length, result, done⟩, queue'⟩
  | yield => exact yields
  | tick => exact yields

theorem run_returns (queue : Queue s ts) (handsOn : ∀ call ∈ calls, HandsOn call) :
    ∃ s', Run SchedStep s calls s' := by
  induction calls generalizing s ts with
  | nil => exact ⟨s, .nil⟩
  | cons call calls ih =>
    obtain ⟨t, ts', taken, queue'⟩ := handsOn_returns queue (handsOn call List.mem_cons_self)
    obtain ⟨s', rest⟩ := ih queue' fun call member => handsOn call (List.mem_cons_of_mem _ member)
    exact ⟨s', .cons taken rest⟩

/-- The first yield of a stopped task makes it ready. -/
theorem yield_resurrects (queue : Queue s ts) (handsOn : ∀ call ∈ calls, HandsOn call)
    (busy : s.currentTask ≠ 0) (yields : ¬ ∀ call ∈ calls, call = .pickNext) :
    ∃ before s', before <+: calls ∧ Run SchedStep s before s' ∧
      (s'.tasks s.currentTask).state = .ready := by
  induction calls generalizing s ts with
  | nil => exact absurd (by simp) yields
  | cons call calls ih =>
    obtain ⟨t, ts', taken, queue'⟩ := handsOn_returns queue (handsOn call List.mem_cons_self)
    have yielded : (∃ fuel, schedulerYield fuel s = some t) → (t.tasks s.currentTask).state = .ready := by
      rintro ⟨fuel, returned⟩
      rcases yield_cases busy returned with ⟨-, states⟩ | ⟨other, -, states⟩
      · rw [states, if_pos rfl]
      · rw [states, if_neg other.symm, if_pos rfl]
    have first : [call] <+: call :: calls := List.cons_prefix_cons.mpr ⟨rfl, List.nil_prefix⟩
    cases call with
    | create entry stack task => exact (handsOn _ List.mem_cons_self).elim
    | switchTo task => exact (handsOn _ List.mem_cons_self).elim
    | pickNext =>
      obtain ⟨fuel, result, picked⟩ := id taken
      obtain ⟨-, current, -⟩ := pickNext_cases picked
      obtain ⟨before, s', short, run, ready⟩ := ih queue'
        (fun call member => handsOn call (List.mem_cons_of_mem _ member)) (current ▸ busy)
        fun all => yields (by simpa using all)
      exact ⟨.pickNext :: before, s', List.cons_prefix_cons.mpr ⟨rfl, short⟩, .cons taken run,
        current ▸ ready⟩
    | yield => exact ⟨[.yield], t, first, .cons taken .nil, yielded taken⟩
    | tick => exact ⟨[.tick], t, first, .cons taken .nil, yielded taken⟩

/-- On every ring, with any tasks in any states and any of them current: the calls return,
and they leave all stopped tasks stopped exactly if none of them is current or nothing
yields. -/
theorem stopped_tasks_stay (queue : Queue s ts) (handsOn : ∀ call ∈ calls, HandsOn call) :
    (∃ s', Run SchedStep s calls s') ∧ (StayStopped s calls ↔ NoneYields s calls) := by
  refine ⟨run_returns queue handsOn, fun stay => ?_, fun safe before s' short run t stopped => ?_⟩
  · by_contra yielding
    simp only [NoneYields, not_or, not_not] at yielding
    obtain ⟨yields, busy, stopped⟩ := yielding
    obtain ⟨before, s', short, run, ready⟩ := yield_resurrects queue handsOn busy yields
    exact (stay before s' short run _ stopped).1 ready
  · rcases safe with picks | current
    · obtain ⟨tasks, -⟩ := picks_run run fun call member => picks call (short.subset member)
      rw [tasks]
      exact stopped.not_ready
    · have kept : Kept s s' := kept_run run ⟨fun _ here => here, fun busy => current.resolve_left busy⟩
        fun call member => handsOn call (short.subset member)
      exact (kept.stopped t stopped).not_ready

/-- The second of three tasks is current and blocked. -/
def blockedCurrent : Scheduler := { RoundRobin.threeTasks with currentTask := 2 }

theorem blockedCurrent_queue : Queue blockedCurrent [1, 2, 3] :=
  RoundRobin.threeTasks_queue.congr rfl fun _ _ => rfl

/-- The first of them is current, and the blocked one waits. -/
def blockedWaiting : Scheduler := { RoundRobin.threeTasks with currentTask := 1 }

/-- The other tasks yield to each other, and the blocked one stays blocked. -/
theorem stopped_tasks_stay_yielding :
    (∃ s', Run SchedStep blockedWaiting [.yield, .tick, .yield, .pickNext] s') ∧ Stopped blockedWaiting 2 ∧
      StayStopped blockedWaiting [.yield, .tick, .yield, .pickNext] := by
  have queue : Queue blockedWaiting [1, 2, 3] := RoundRobin.threeTasks_queue.congr rfl fun _ _ => rfl
  have current : ¬ Stopped blockedWaiting blockedWaiting.currentTask := by
    rintro (blocked | zombie)
    · exact absurd blocked (by decide)
    · exact absurd zombie (by decide)
  have handsOn : ∀ call ∈ ([.yield, .tick, .yield, .pickNext] : List SchedCall), HandsOn call := by simp [HandsOn]
  obtain ⟨returns, stays⟩ := stopped_tasks_stay queue handsOn
  exact ⟨returns, .inl rfl, stays.mpr (.inr (.inr current))⟩

/-- After its yield the task is ready again. -/
theorem blocked_task_returns : ¬ ∀ s ts calls, Queue s ts → (∀ call ∈ calls, HandsOn call) →
    StayStopped s calls := by
  intro claim
  have stay := claim blockedCurrent [1, 2, 3] [.yield] blockedCurrent_queue (by simp [HandsOn])
  obtain ⟨s', same⟩ : ∃ s', schedulerYield 3 blockedCurrent = some s' := ⟨_, rfl⟩
  have kept := (stay [.yield] s' List.prefix_rfl (.cons ⟨3, same⟩ .nil) 2 (.inl rfl)).1
  cases same
  exact kept rfl

end ZynthexOS.StoppedTasks
