import ZynthexOS.ReadyQueue

/-! Which task `scheduler_pick_next` returns. Each call takes the first ready task from
the head and puts everything up to it behind the others, so that the ready tasks come
one after the other and each of them again only after all of them. -/
namespace ZynthexOS.RoundRobin
open Sched ReadyQueue

/-- `n` calls of `scheduler_pick_next` with nothing between them, and what they return. -/
def pickMany (fuel : Nat) : Nat → Scheduler → Option (Scheduler × List UInt32)
  | 0, s => some (s, [])
  | n + 1, s => do
    let (s, task) ← schedulerPickNext fuel s
    let (s, tasks) ← pickMany fuel n s
    some (s, task :: tasks)

/-- The ready tasks of a ring in order from its head. -/
def readyTasks (s : Scheduler) (ts : List UInt32) : List UInt32 := ts.filter fun t => Ready s t

/-- What picking from a ring does: the first ready task from the head is returned and
its successor becomes the head; NULL is returned exactly if no task is ready, and the head
stays; and of any consecutive calls as many as tasks are ready return each of these once. -/
structure PicksInTurn (fuel : Nat) (s : Scheduler) (ts : List UInt32) : Prop where
  first : ∀ t, (ts.find? fun t => Ready s t) = some t →
    schedulerPickNext fuel s = some ({ s with readyQueue := (s.tasks t).next }, t)
  null : (∃ s', schedulerPickNext fuel s = some (s', 0)) ↔ ∀ t ∈ ts, ¬ Ready s t
  unmoved : (∀ t ∈ ts, ¬ Ready s t) → schedulerPickNext fuel s = some (s, 0)
  each : 0 < (readyTasks s ts).length → ∀ n, ∃ s' earlier tasks,
    pickMany fuel (n + (readyTasks s ts).length) s = some (s', earlier ++ tasks) ∧
      earlier.length = n ∧ tasks.length = (readyTasks s ts).length ∧ tasks.Nodup ∧
      ∀ t, t ∈ tasks ↔ t ∈ ts ∧ Ready s t

/-- A call takes the first ready task and puts it behind the others. -/
theorem pick_ready (queue : Queue s ts) (enough : ts.length ≤ fuel)
    (ready : readyTasks s ts = t :: rest) :
    ∃ ts', schedulerPickNext fuel s = some ({ s with readyQueue := (s.tasks t).next }, t) ∧
      Queue { s with readyQueue := (s.tasks t).next } ts' ∧ ts'.length = ts.length ∧
      readyTasks s ts' = rest ++ [t] := by
  rcases schedulerPickNext_spec queue fuel with ⟨-, short⟩ | ⟨-, none⟩ | picked
  · omega
  · have empty : readyTasks s ts = [] := by simpa [readyTasks] using none
    rw [empty] at ready
    cases ready
  · obtain ⟨left, u, right, rfl, before, isReady, picked, queue'⟩ := picked
    have passed : left.filter (fun t => Ready s t) = [] := by simpa using before
    have order : readyTasks s (left ++ u :: right) = u :: right.filter fun t => Ready s t := by
      rw [readyTasks, List.filter_append, passed, List.nil_append, List.filter_cons_of_pos (by simpa)]
    rw [order] at ready
    cases ready
    refine ⟨_, picked, queue', by simp; omega, ?_⟩
    simp [readyTasks, List.filter_append, passed, isReady]

/-- The ready tasks are returned in their order, and stand in this order again
afterwards. -/
theorem pickMany_front (queue : Queue s ts) (enough : ts.length ≤ fuel)
    (ready : readyTasks s ts = front ++ back) :
    ∃ s', pickMany fuel front.length s = some (s', front) := by
  induction front generalizing s ts back with
  | nil => exact ⟨s, rfl⟩
  | cons t front ih =>
    rw [List.cons_append] at ready
    obtain ⟨ts', picked, queue', length, ready'⟩ := pick_ready queue enough ready
    rw [List.append_assoc] at ready'
    obtain ⟨s', rest⟩ := ih queue' (by rwa [length]) ready'
    refine ⟨s', ?_⟩
    rw [List.length_cons, pickMany, picked]
    simp [rest]

/-- Any calls leave a ring with the same ready tasks, perhaps from another one on. -/
theorem pickMany_turns (queue : Queue s ts) (enough : ts.length ≤ fuel)
    (busy : 0 < (readyTasks s ts).length) (n : Nat) :
    ∃ s' earlier ts', pickMany fuel n s = some (s', earlier) ∧ earlier.length = n ∧
      Queue s' ts' ∧ ts'.length = ts.length ∧ s'.tasks = s.tasks ∧
      (readyTasks s ts').Perm (readyTasks s ts) := by
  induction n generalizing s ts with
  | zero => exact ⟨s, [], ts, rfl, rfl, queue, rfl, rfl, .refl _⟩
  | succ n ih =>
    cases ready : readyTasks s ts with
    | nil =>
      rw [ready] at busy
      cases busy
    | cons t rest =>
      obtain ⟨ts', picked, queue', length, ready'⟩ := pick_ready queue enough ready
      have more : 0 < (readyTasks s ts').length := by simp [ready']
      obtain ⟨s', earlier, ts'', done, count, queue'', length', tasks, same⟩ :=
        ih queue' (by rwa [length]) more
      refine ⟨s', t :: earlier, ts'', ?_, by simp [count], queue'', length'.trans length, tasks, ?_⟩
      · rw [pickMany, picked]
        simp [done]
      · have turned : (readyTasks s ts'').Perm (readyTasks s ts') := same
        rw [ready'] at turned
        exact turned.trans (List.perm_append_singleton t rest)

theorem pickMany_add (done : pickMany fuel n s = some (s', tasks))
    (more : pickMany fuel m s' = some (s'', tasks')) :
    pickMany fuel (n + m) s = some (s'', tasks ++ tasks') := by
  induction n generalizing s tasks with
  | zero =>
    cases done
    rwa [Nat.zero_add]
  | succ n ih =>
    rw [pickMany] at done
    simp only [Option.bind_eq_bind, Option.bind_eq_some_iff] at done
    obtain ⟨⟨t, task⟩, picked, ⟨u, rest⟩, later, same⟩ := done
    cases same
    rw [Nat.succ_add, pickMany, picked]
    simp [ih later]

/-- In every ring, with tasks in any states, the ready tasks are picked in turn. -/
theorem round_robin (queue : Queue s ts) (enough : ts.length ≤ fuel) : PicksInTurn fuel s ts := by
  have head : ∀ t, (ts.find? fun t => Ready s t) = some t →
      schedulerPickNext fuel s = some ({ s with readyQueue := (s.tasks t).next }, t) := by
    intro t found
    obtain ⟨rest, ready⟩ : ∃ rest, readyTasks s ts = t :: rest := by
      rw [← List.head?_filter] at found
      exact List.head?_eq_some_iff.mp found
    obtain ⟨-, picked, -⟩ := pick_ready queue enough ready
    exact picked
  have idle : (∀ t ∈ ts, ¬ Ready s t) → schedulerPickNext fuel s = some (s, 0) := by
    intro none
    rcases schedulerPickNext_spec queue fuel with ⟨-, short⟩ | ⟨same, -⟩ | picked
    · omega
    · exact same
    · obtain ⟨left, t, right, rfl, -, ready, -⟩ := picked
      exact absurd ready (none t (by simp))
  refine ⟨head, ⟨?_, fun none => ⟨s, idle none⟩⟩, idle, fun busy n => ?_⟩
  · rintro ⟨s', returned⟩ t member ready
    obtain ⟨u, found⟩ : ∃ u, (ts.find? fun t => Ready s t) = some u := by
      rw [← Option.isSome_iff_exists, List.find?_isSome]
      exact ⟨t, member, by simpa using ready⟩
    rw [head u found] at returned
    cases returned
    exact queue.valid (List.mem_of_find?_eq_some found)
  · obtain ⟨s', earlier, ts', done, count, queue', length, tasks, same⟩ :=
      pickMany_turns queue enough busy n
    have states : readyTasks s' ts' = readyTasks s ts' :=
      List.filter_congr fun t _ => decide_eq_decide.mpr (by rw [Ready, Ready, tasks])
    have whole : readyTasks s' ts' = readyTasks s ts' ++ [] := by rw [states, List.append_nil]
    obtain ⟨s'', last⟩ := pickMany_front queue' (length ▸ enough) whole
    rw [same.length_eq] at last
    have distinct : ts.Nodup := by
      rcases queue.order with ⟨rfl, -⟩ | ring
      · exact List.nodup_nil
      · exact ring.distinct
    refine ⟨s'', earlier, _, pickMany_add done last, count, same.length_eq, ?_, fun t => ?_⟩
    · exact same.nodup_iff.mpr (distinct.filter _)
    · rw [same.mem_iff]
      simp [readyTasks]

/-- Three tasks in a ring, the second of which is blocked. -/
def threeTasks : Scheduler :=
  ⟨fun a => ⟨0, if a = 2 then .blocked else .ready, 0, 0, 0, if a = 3 then 1 else a + 1⟩, 0, 1, 4, 0,
    fun _ => 0⟩

theorem threeTasks_queue : Queue threeTasks [1, 2, 3] :=
  ⟨.inr ⟨by simp, by decide, rfl, rfl, rfl, rfl⟩, by decide⟩

/-- The first and the third task are returned in turn. -/
theorem round_robin_three : PicksInTurn 3 threeTasks [1, 2, 3] :=
  round_robin threeTasks_queue (by decide)

end ZynthexOS.RoundRobin
