import ZynthexOS.Lib.Runs
import ZynthexOS.ReadyQueue

/-! Which task runs. A tick dispatches only when a task is current already, and
none ever becomes current that way; and a yield that picks the yielding task
leaves it current in state `TASK_READY`. -/
namespace ZynthexOS.Dispatching
open Lib Lib.Rings Sched ReadyQueue

/-- A call of the scheduler; `create` carries what `kmalloc` answers. -/
inductive SchedCall where
  | create (entry stack task : UInt32)
  | pickNext
  | switchTo (task : UInt32)
  | yield
  | tick
  deriving DecidableEq, Repr

/-- A call that returns, or that has jumped to the task it dispatched. -/
def SchedStep (s : Scheduler) : SchedCall → Scheduler → Prop
  | .create entry stack task, s' =>
    ∃ fuel result, taskCreateKernel fuel s entry stack task = some (s', result)
  | .pickNext, s' => ∃ fuel result, schedulerPickNext fuel s = some (s', result)
  | .switchTo task, s' => s' = schedulerSwitchTo s task
  | .yield, s' => ∃ fuel, schedulerYield fuel s = some s'
  | .tick, s' => ∃ fuel, schedulerTick fuel s = some s'

/-! ## Ticks -/

/-- The calls of a system that is driven by its timer. -/
def TimerDriven (_ : Scheduler) : SchedCall → Prop
  | .create .. | .yield | .tick => True
  | .pickNext | .switchTo _ => False

/-- A queued task runs. -/
structure Dispatched (s : Scheduler) : Prop where
  current : s.currentTask ≠ 0
  queued : Queued s s.currentTask
  running : (s.tasks s.currentTask).state = .running

theorem yield_idle (idle : s.currentTask = 0) (fuel : Nat) : schedulerYield fuel s = some s :=
  if_neg (not_not.mpr idle)

theorem schedulerAddTask_current (added : schedulerAddTask fuel s task = some s') :
    s'.currentTask = s.currentTask := by
  unfold schedulerAddTask at added
  split at added
  · cases added
    rfl
  · obtain ⟨tail, -, rfl⟩ := Option.map_eq_some_iff.mp added
    rfl

theorem taskCreateKernel_current
    (made : taskCreateKernel fuel s entry stack task = some (s', result)) :
    s'.currentTask = s.currentTask := by
  unfold taskCreateKernel at made
  split_ifs at made
  · cases made
    rfl
  · cases made
    rfl
  · obtain ⟨added, done, same⟩ := Option.map_eq_some_iff.mp made
    cases same
    have kept := schedulerAddTask_current done
    exact kept

/-- No call of a timer-driven run makes a first task current. -/
theorem idle_forever (reached : Reachable Booted (Guarded TimerDriven SchedStep) s) :
    s.currentTask = 0 := by
  refine reached.induct (fun s => s.currentTask = 0) (fun s booted => booted.1) ?_
  rintro s call s' idle ⟨driven, taken⟩
  cases call with
  | create entry stack task =>
    obtain ⟨fuel, result, made⟩ := taken
    exact (taskCreateKernel_current made).trans idle
  | yield =>
    obtain ⟨fuel, returned⟩ := taken
    rw [yield_idle idle] at returned
    cases returned
    exact idle
  | tick =>
    obtain ⟨fuel, returned⟩ := taken
    rw [schedulerTick, yield_idle idle] at returned
    cases returned
    exact idle
  | pickNext => exact driven.elim
  | switchTo task => exact driven.elim

/-- With a queued task ready, the tick returns with a queued task running. -/
def TickDispatches (s : Scheduler) : Prop :=
  (∃ t, Queued s t ∧ Ready s t) →
    (∃ s', SchedStep s .tick s') ∧ ∀ s', SchedStep s .tick s' → Dispatched s'

/-- In no state that a timer-driven system reaches with a task ready does the
tick dispatch one. -/
theorem tick_never_dispatches (reached : Reachable Booted (Guarded TimerDriven SchedStep) s)
    (work : ∃ t, Queued s t ∧ Ready s t) : ¬ TickDispatches s := by
  intro dispatches
  have idle := idle_forever reached
  have returned : SchedStep s .tick s := ⟨0, yield_idle idle 0⟩
  exact ((dispatches work).2 s returned).current idle

/-- Boot, and a first task at address 4136 with its stack at 20. -/
def booted : Scheduler := ⟨fun _ => ⟨0, .ready, 0, 0, 0, 0⟩, 0, 0, 1, 0, fun _ => 0⟩

def oneTask : Scheduler := (prepareTask booted 0x101000 20 4136).setNext 4136 4136 |> fun s =>
  { s with readyQueue := 4136 }

theorem oneTask_created : SchedStep booted (.create 0x101000 20 4136) oneTask :=
  ⟨0, 4136, rfl⟩

theorem oneTask_queued : Queued oneTask 4136 ∧ Ready oneTask 4136 :=
  ⟨⟨by decide, 0, rfl⟩, rfl⟩

theorem oneTask_reached : Reachable Booted (Guarded TimerDriven SchedStep) oneTask :=
  .next (a := .create 0x101000 20 4136) (.start ⟨rfl, rfl, rfl⟩) ⟨trivial, oneTask_created⟩

/-- The tick after the first task was made. -/
theorem first_tick_never_dispatches : ¬ TickDispatches oneTask :=
  tick_never_dispatches oneTask_reached ⟨4136, oneTask_queued⟩

/-- The first task is ready, and the tick leaves `current_task` NULL. -/
theorem first_task_never_starts :
    ¬ ∀ s, Reachable Booted (Guarded TimerDriven SchedStep) s → TickDispatches s := by
  intro claim
  have dispatched := (claim _ oneTask_reached ⟨4136, oneTask_queued⟩).2 oneTask ⟨0, rfl⟩
  exact dispatched.current rfl

/-! ## Yields -/

/-- At most one queued task runs, and the current one does. -/
structure OneRunning (s : Scheduler) : Prop where
  unique : ∀ t u, Queued s t → Queued s u → (s.tasks t).state = .running →
    (s.tasks u).state = .running → t = u
  current : s.currentTask ≠ 0 → (s.tasks s.currentTask).state = .running

/-- A task made by `task_create_kernel` is not queued yet, and only a ready queued
task is switched to, when no other is current. -/
def Legal (s : Scheduler) : SchedCall → Prop
  | .create _ _ task => ¬ Queued s task
  | .switchTo task => Queued s task ∧ Ready s task ∧ (s.currentTask = 0 ∨ s.currentTask = task)
  | _ => True

/-- The current task yields only when it is not at the head of the ready queue. -/
def MovesOn (s : Scheduler) : SchedCall → Prop
  | .yield | .tick => s.currentTask = 0 ∨ s.readyQueue ≠ s.currentTask
  | _ => True

/-- The queued tasks are ready, but for the current one, which runs. -/
structure Turns (s : Scheduler) (ts : List UInt32) : Prop where
  queue : Queue s ts
  states : ∀ t ∈ ts, Ready s t ∨ (t = s.currentTask ∧ (s.tasks t).state = .running)
  current : s.currentTask ≠ 0 → s.currentTask ∈ ts ∧ (s.tasks s.currentTask).state = .running

theorem Turns.oneRunning (turns : Turns s ts) : OneRunning s := by
  have isCurrent : ∀ t, Queued s t → (s.tasks t).state = .running → t = s.currentTask := by
    intro t queued running
    rcases turns.states t (turns.queue.queued_iff.mp queued) with ready | current
    · rw [Ready, running] at ready
      cases ready
    · exact current.1
  refine ⟨fun t u queued queued' running running' => ?_, fun ne => (turns.current ne).2⟩
  rw [isCurrent t queued running, isCurrent u queued' running']

theorem turns_booted (booted : Booted s) : Turns s [] :=
  ⟨⟨.inl ⟨rfl, booted.2.1⟩, by simp⟩, by simp, fun ne => absurd booted.1 ne⟩

/-- A new task is appended, ready. -/
theorem turns_create (turns : Turns s ts) (fresh : task ∉ ts) (fuel : Nat) :
    (taskCreateKernel fuel s entry stack task = none ∧ fuel < ts.length) ∨
      ∃ s' result ts', taskCreateKernel fuel s entry stack task = some (s', result) ∧
        Turns s' ts' := by
  unfold taskCreateKernel
  split_ifs with noStack noTask
  · exact .inr ⟨s, 0, ts, rfl, turns⟩
  · exact .inr ⟨s, 0, ts, rfl, turns⟩
  · have others : ∀ t ∈ ts, (prepareTask s entry stack task).tasks t = s.tasks t := by
      intro t member
      apply if_neg
      rintro rfl
      exact fresh member
    have queue : Queue (prepareTask s entry stack task) ts :=
      turns.queue.congr rfl fun t member => congrArg (·.next) (others t member)
    have made : Ready (prepareTask s entry stack task) task := by
      simp [Ready, prepareTask, newTask]
    rcases schedulerAddTask_spec queue fresh noTask fuel with ⟨out, short⟩ | added
    · exact .inl ⟨by rw [out]; rfl, short⟩
    · obtain ⟨s', done, queue', current, -, states⟩ := added
      have current' : s'.currentTask = s.currentTask := current
      refine .inr ⟨s', task, ts ++ [task], by rw [done]; rfl, queue', fun t member => ?_, fun ne => ?_⟩
      · rcases List.mem_append.mp member with old | new
        · rw [Ready, states, others t old, current']
          exact turns.states t old
        · rw [List.mem_singleton] at new
          subst new
          exact .inl ((states t).trans made)
      · rw [current'] at ne ⊢
        obtain ⟨member, running⟩ := turns.current ne
        exact ⟨by simp [member], by rw [states, others _ member]; exact running⟩

theorem turns_pickNext (turns : Turns s ts) (fuel : Nat) :
    (schedulerPickNext fuel s = none ∧ fuel < ts.length) ∨
      ∃ s' result ts', schedulerPickNext fuel s = some (s', result) ∧ Turns s' ts' := by
  rcases schedulerPickNext_spec turns.queue fuel with out | ⟨none, -⟩ | picked
  · exact .inl out
  · exact .inr ⟨s, 0, ts, none, turns⟩
  · obtain ⟨left, t, right, split, -, -, picked, queue⟩ := picked
    have members : ∀ u, u ∈ right ++ left ++ [t] ↔ u ∈ ts := by
      intro u
      rw [split]
      simp only [List.mem_append, List.mem_cons]
      tauto
    refine .inr ⟨_, t, _, picked, queue, fun u member => ?_, fun ne => ?_⟩
    · exact turns.states u ((members u).mp member)
    · obtain ⟨member, running⟩ := turns.current ne
      exact ⟨(members _).mpr member, running⟩

theorem schedulerSwitchTo_eq (s : Scheduler) (positive : task ≠ 0) :
    schedulerSwitchTo s task = Scheduler.setState
      { s with esp0 := (s.tasks task).kernelStack + kernelStackSize, currentTask := task }
      task .running :=
  if_neg positive

theorem schedulerYield_eq (busy : s.currentTask ≠ 0) (fuel : Nat) : schedulerYield fuel s =
    (schedulerPickNext fuel (s.setState s.currentTask .ready)).map fun picked =>
      if picked.2 ≠ 0 ∧ picked.2 ≠ picked.1.currentTask then schedulerSwitchTo picked.1 picked.2
      else picked.1 :=
  if_pos busy

/-- Switching to a ready task makes it the one that runs. -/
theorem turns_switchTo (queue : Queue s ts) (ready : ∀ t ∈ ts, Ready s t) (member : task ∈ ts) :
    Turns (schedulerSwitchTo s task) ts := by
  have positive : task ≠ 0 := by
    rintro rfl
    exact queue.valid member
  have dispatched : Queue { s with
      esp0 := (s.tasks task).kernelStack + kernelStackSize, currentTask := task } ts :=
    queue.congr rfl fun _ _ => rfl
  rw [schedulerSwitchTo_eq s positive]
  refine ⟨dispatched.setState _ _, fun t here => ?_, fun _ => ⟨member, setState_same _ _ _⟩⟩
  by_cases same : t = task
  · exact .inr ⟨same, same ▸ setState_same _ _ _⟩
  · exact .inl ((setState_ne _ _ same).trans (ready t here))

/-- A yield hands over to the head of the queue; if that is the current task, it
stays current in state `TASK_READY`. -/
theorem turns_yield (turns : Turns s ts) (fuel : Nat) :
    (schedulerYield fuel s = none ∧ fuel < ts.length) ∨
      ∃ s', schedulerYield fuel s = some s' ∧ (MovesOn s .yield → ∃ ts', Turns s' ts') ∧
        (¬ MovesOn s .yield → ¬ OneRunning s') := by
  by_cases idle : s.currentTask = 0
  · exact .inr ⟨s, yield_idle idle fuel, fun _ => ⟨ts, turns⟩, fun stuck => absurd (.inl idle) stuck⟩
  · obtain ⟨member, -⟩ := turns.current idle
    have queue := turns.queue.setState s.currentTask .ready
    have ready : ∀ t ∈ ts, Ready (s.setState s.currentTask .ready) t := by
      intro t here
      by_cases same : t = s.currentTask
      · exact same ▸ setState_same _ _ _
      · refine (setState_ne _ _ same).trans ((turns.states t here).resolve_right ?_)
        exact fun current => same current.1
    rw [schedulerYield_eq idle]
    rcases schedulerPickNext_spec queue fuel with ⟨out, short⟩ | ⟨-, none⟩ | picked
    · exact .inl ⟨by rw [out]; rfl, short⟩
    · exact absurd (ready _ member) (none _ member)
    · obtain ⟨left, t, right, split, unready, -, picked, queue'⟩ := picked
      have first : left = [] := by
        cases left with
        | nil => rfl
        | cons u left => exact absurd (ready u (by simp [split])) (unready u (by simp))
      subst first
      have members : ∀ u, u ∈ right ++ [] ++ [t] ↔ u ∈ ts := by
        intro u
        simp [split, or_comm]
      have head : s.readyQueue = t := by
        have ring := turns.queue.ring (by simp [split])
        obtain ⟨rest, same⟩ := ring.exists_cons
        rw [split, List.nil_append] at same
        exact (List.cons.inj same).1.symm
      have positive : t ≠ 0 := by
        rintro rfl
        exact queue.valid (by simp [split])
      refine .inr ⟨_, by rw [picked]; rfl, fun moves => ?_, fun stuck running => ?_⟩
      · have other : t ≠ s.currentTask := fun same =>
          moves.elim idle fun ne => ne (head.trans same)
        refine ⟨right ++ [] ++ [t], ?_⟩
        beta_reduce
        rw [if_pos ⟨positive, other⟩]
        exact turns_switchTo queue' (fun u here => ready u ((members u).mp here)) (by simp)
      · have same : t = s.currentTask := by
          by_contra other
          exact stuck (.inr (fun here => other (head.symm.trans here)))
        beta_reduce at running
        rw [if_neg (fun moved => moved.2 same)] at running
        have runs := running.current idle
        have demoted := setState_same s s.currentTask .ready
        exact absurd (demoted.symm.trans runs) (by decide)

theorem legal_returns (turns : Turns s ts) (legal : Legal s call) : ∃ s', SchedStep s call s' := by
  cases call with
  | create entry stack task =>
    rcases turns_create turns (mt turns.queue.queued_iff.mpr legal) ts.length with
      ⟨-, short⟩ | ⟨s', result, -, made, -⟩
    · exact absurd short (Nat.lt_irrefl _)
    · exact ⟨s', ts.length, result, made⟩
  | pickNext =>
    rcases turns_pickNext turns ts.length with ⟨-, short⟩ | ⟨s', result, -, picked, -⟩
    · exact absurd short (Nat.lt_irrefl _)
    · exact ⟨s', ts.length, result, picked⟩
  | switchTo task => exact ⟨_, rfl⟩
  | yield | tick =>
    rcases turns_yield turns ts.length with ⟨-, short⟩ | ⟨s', returned, -⟩
    · exact absurd short (Nat.lt_irrefl _)
    · exact ⟨s', ts.length, returned⟩

/-- What one legal call preserves, and where it does not. -/
theorem turns_step (turns : Turns s ts) (legal : Legal s call) (taken : SchedStep s call s') :
    (MovesOn s call → ∃ ts', Turns s' ts') ∧ (¬ MovesOn s call → ¬ OneRunning s') := by
  cases call with
  | create entry stack task =>
    obtain ⟨fuel, result, made⟩ := taken
    rcases turns_create turns (mt turns.queue.queued_iff.mpr legal) fuel with
      ⟨out, -⟩ | ⟨s'', result', ts', made', turns'⟩
    · exact absurd (out.symm.trans made) (by simp)
    · cases made'.symm.trans made
      exact ⟨fun _ => ⟨ts', turns'⟩, fun stuck => absurd trivial stuck⟩
  | pickNext =>
    obtain ⟨fuel, result, picked⟩ := taken
    rcases turns_pickNext turns fuel with ⟨out, -⟩ | ⟨s'', result', ts', picked', turns'⟩
    · exact absurd (out.symm.trans picked) (by simp)
    · cases picked'.symm.trans picked
      exact ⟨fun _ => ⟨ts', turns'⟩, fun stuck => absurd trivial stuck⟩
  | switchTo task =>
    obtain ⟨queued, ready, free⟩ := legal
    have member := turns.queue.queued_iff.mp queued
    have positive : task ≠ 0 := fun zero => turns.queue.valid (zero ▸ member)
    -- the task itself is not current: the current task runs
    have idle : s.currentTask = 0 := by
      by_contra busy
      have running := (turns.current busy).2
      rw [free.resolve_left busy, ready] at running
      cases running
    refine ⟨fun _ => ⟨ts, taken ▸ turns_switchTo turns.queue (fun t here => ?_) member⟩,
      fun stuck => absurd trivial stuck⟩
    refine (turns.states t here).resolve_right fun current => ?_
    rw [idle] at current
    exact turns.queue.valid (current.1 ▸ here)
  | yield | tick =>
    obtain ⟨fuel, returned⟩ := taken
    rcases turns_yield turns fuel with ⟨out, -⟩ | ⟨s'', returned', moved, stuck⟩
    · exact absurd (out.symm.trans returned) (by simp)
    · cases returned'.symm.trans returned
      exact ⟨moved, stuck⟩

theorem turns_reached
    (reached : Reachable Booted (Guarded MovesOn (Guarded Legal SchedStep)) s) : ∃ ts, Turns s ts := by
  refine reached.induct (fun s => ∃ ts, Turns s ts) (fun s booted => ⟨[], turns_booted booted⟩) ?_
  rintro s call s' ⟨ts, turns⟩ ⟨moves, legal, taken⟩
  exact (turns_step turns legal taken).1 moves

/-- In every run whose yields find another task at the head of the ready queue,
every call returns, the current task runs and no other; and a yield that finds
the current task there breaks this at once. -/
theorem one_running
    (reached : Reachable Booted (Guarded MovesOn (Guarded Legal SchedStep)) s) :
    OneRunning s ∧ ∀ call, Legal s call → (∃ s', SchedStep s call s') ∧
      ∀ s', SchedStep s call s' → (OneRunning s' ↔ MovesOn s call) := by
  obtain ⟨ts, turns⟩ := turns_reached reached
  refine ⟨turns.oneRunning, fun call legal => ⟨legal_returns turns legal, fun s' taken => ?_⟩⟩
  obtain ⟨moved, stuck⟩ := turns_step turns legal taken
  refine ⟨fun running => ?_, fun moves => ?_⟩
  · by_contra stays
    exact stuck stays running
  · obtain ⟨ts', turns'⟩ := moved moves
    exact turns'.oneRunning

/-- The first task dispatched by hand. -/
theorem oneTask_reached_moving :
    Reachable Booted (Guarded MovesOn (Guarded Legal SchedStep)) oneTask :=
  .next (a := .create 0x101000 20 4136) (s := booted) (.start ⟨rfl, rfl, rfl⟩)
    ⟨trivial, fun queued => queued.1 rfl, oneTask_created⟩

theorem switch_to_first_task : Legal oneTask (.switchTo 4136) :=
  ⟨oneTask_queued.1, oneTask_queued.2, .inl rfl⟩

/-- A second task at 0x3000 with its stack at 0x2000. -/
def twoTasks : Scheduler := ((taskCreateKernel 1 oneTask 0x102000 0x2000 0x3000).map Prod.fst).getD oneTask

/-- The first task is picked and switched to, and yields to the second. -/
def firstPicked : Scheduler := { twoTasks with readyQueue := 0x3000 }
def firstRuns : Scheduler := schedulerSwitchTo firstPicked 4136
def secondRuns : Scheduler := (schedulerYield 1 firstRuns).getD firstRuns

theorem firstPicked_queue : Queue firstPicked [0x3000, 4136] :=
  ⟨.inr ⟨by simp, by decide, rfl, rfl, rfl⟩, by decide⟩

theorem firstRuns_reached : Reachable Booted (Guarded MovesOn (Guarded Legal SchedStep)) firstRuns := by
  have fresh : Legal oneTask (.create 0x102000 0x2000 0x3000) := by
    have queue : Queue oneTask [4136] := ⟨.inr ⟨by simp, by decide, rfl, rfl⟩, by decide⟩
    exact fun queued => absurd (queue.queued_iff.mp queued) (by decide)
  have second : Reachable Booted (Guarded MovesOn (Guarded Legal SchedStep)) twoTasks :=
    oneTask_reached_moving.next (a := .create 0x102000 0x2000 0x3000) ⟨trivial, fresh, 1, 0x3000, rfl⟩
  have picked : Reachable Booted (Guarded MovesOn (Guarded Legal SchedStep)) firstPicked :=
    second.next (a := .pickNext) ⟨trivial, trivial, 1, 4136, rfl⟩
  exact picked.next (a := .switchTo 4136)
    ⟨trivial, ⟨firstPicked_queue.queued_iff.mpr (by decide), rfl, .inl rfl⟩, rfl⟩

/-- Of two tasks in the ring only the one that was yielded to runs. -/
theorem one_running_two_tasks : firstRuns.currentTask = 4136 ∧ secondRuns.currentTask = 0x3000 ∧
    Queued secondRuns 4136 ∧ OneRunning firstRuns ∧ OneRunning secondRuns := by
  have moves : MovesOn firstRuns .yield := .inr (by decide)
  have yielded : Reachable Booted (Guarded MovesOn (Guarded Legal SchedStep)) secondRuns :=
    firstRuns_reached.next (a := .yield) ⟨moves, trivial, 1, rfl⟩
  have queue : Queue secondRuns [4136, 0x3000] := ⟨.inr ⟨by simp, by decide, rfl, rfl, rfl⟩, by decide⟩
  exact ⟨rfl, rfl, queue.queued_iff.mpr (by decide), (one_running firstRuns_reached).1, (one_running yielded).1⟩

/-- A single task that yields stays current, in state `TASK_READY`. -/
theorem single_task_yields : ¬ ∀ s, Reachable Booted (Guarded Legal SchedStep) s → OneRunning s := by
  intro claim
  have unguarded := oneTask_reached_moving.mono fun _ _ _ taken => taken.2
  have switched : Reachable Booted (Guarded Legal SchedStep) (schedulerSwitchTo oneTask 4136) :=
    .next (a := .switchTo 4136) unguarded ⟨switch_to_first_task, rfl⟩
  obtain ⟨s', same⟩ : ∃ s', schedulerYield 1 (schedulerSwitchTo oneTask 4136) = some s' := ⟨_, rfl⟩
  have yielded : Reachable Booted (Guarded Legal SchedStep) s' :=
    .next (a := .yield) switched ⟨trivial, 1, same⟩
  have current : s'.currentTask = 4136 ∧ (s'.tasks 4136).state = .ready := by
    cases same
    exact ⟨rfl, rfl⟩
  have running := (claim s' yielded).current (by rw [current.1]; decide)
  rw [current.1, current.2] at running
  cases running

end ZynthexOS.Dispatching
