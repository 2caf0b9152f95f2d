import ZynthexOS.Core.Time
import ZynthexOS.DrawingBounds
import ZynthexOS.InterruptAccounting
import ZynthexOS.Lib.Counters
import ZynthexOS.MouseDecoding
import ZynthexOS.PointerTrace

/-! The uptime and the length of a sleep. The seconds are counted where the counter of ticks
is a multiple of 100, so that they get ahead when it wraps around. A sleep measures a
difference, wherever the counter stands, and ends when its loop tests that. -/
namespace ZynthexOS.Uptime
open ZynthexOS.Core Lib.Counters

/-- Whether `timer_tick` is called. -/
def isTick : Activity → Bool
  | .interrupt irq => irq.number = 32
  | .code _ => false

/-- The calls of `timer_tick`. -/
def ticksIn (as : List Activity) : Nat := as.countP isTick

/-- Nothing has been counted yet. -/
structure Booted (s : Clock) : Prop where
  ticks : s.ticks = 0
  seconds : s.seconds = 0

/-- The seconds counted too many. Each time it wraps around the counter is 4 short of a
multiple of 100. -/
def extraSeconds (n : Nat) : Nat := (4 * (n / 2 ^ 32) + (99 - n % 2 ^ 32 % 100)) / 100

/-- The ticks that have come before each test of the condition. -/
def testCounts : Nat → List Round → List Nat
  | _, [] => []
  | n, r :: rounds => (n + ticksIn r.beforeTest) :: testCounts (n + ticksIn r.activities) rounds

/-- The call returns after that many ticks. -/
def ReturnsAfter (s : Clock) (ms : UInt32) (rounds : List Round) (n : Nat) : Prop :=
  ∃ during, sleep s ms rounds = some (during.foldl Clock.act s, during) ∧ ticksIn during = n

/-- Ticks come in `hlt` only. -/
def Punctual (rounds : List Round) : Prop :=
  ∀ r ∈ rounds, ticksIn r.beforeTest = 0 ∧ ticksIn r.beforeHlt = 0

variable {s : Clock} {a : Activity} {as during : List Activity} {r : Round}
  {rounds : List Round} {n : Nat}
  {start waitTicks : UInt32}

/-! ## One activity -/

theorem ticksIn_append (as bs : List Activity) : ticksIn (as ++ bs) = ticksIn as + ticksIn bs :=
  List.countP_append

theorem ticksIn_cons (a : Activity) (as : List Activity) :
    ticksIn (a :: as) = (if isTick a then 1 else 0) + ticksIn as := by
  rw [ticksIn, List.countP_cons, Nat.add_comm]
  rfl

theorem timerTick_ticks (s : Clock) : (timerTick s).ticks = s.ticks + 1 := by
  rw [timerTick]
  dsimp only
  split_ifs <;> rfl

theorem timerTick_seconds (s : Clock) : (timerTick s).seconds =
    s.seconds + if (s.ticks + 1) % 100 = 0 then 1 else 0 := by
  rw [timerTick]
  dsimp only
  split_ifs
  · rfl
  · exact (UInt32.add_zero _).symm

theorem perform_outb (writes : List Drivers.Outb) (s : Clock) :
    (writes.map Effect.outb).foldl Clock.perform s = s := by
  induction writes with
  | nil => rfl
  | cons write writes ih => exact ih

/-- Behind the drivers an interrupt calls `timer_tick` or does nothing to the clock. -/
theorem interrupt_eq (s : Clock) (irq : Irq) : s.interrupt irq =
    if irq.number = 32 then timerTick { s with desktop := s.desktop.handle irq }
    else { s with desktop := s.desktop.handle irq } := by
  have rest (s : Clock) (writes : List Drivers.Outb) :
      (if irq.resumes then writes.map Effect.outb else []).foldl Clock.perform s = s := by
    split_ifs
    · exact perform_outb writes s
    · rfl
  rw [Clock.interrupt, InterruptAccounting.isrHandlerIrq_effects, List.foldl_append, List.foldl_append,
    rest]
  split_ifs <;> rfl

/-- The counter, and the seconds where it is a multiple of 100. -/
theorem act_spec (s : Clock) (a : Activity) :
    (s.act a).ticks = s.ticks + (if isTick a then 1 else 0) ∧
      (s.act a).seconds = s.seconds + if isTick a ∧ (s.ticks + 1) % 100 = 0 then 1 else 0 := by
  cases a with
  | code desktop => simp [Clock.act, isTick]
  | interrupt irq =>
    rw [Clock.act, interrupt_eq]
    by_cases timer : irq.number = 32
    · simp [timer, isTick, timerTick_ticks, timerTick_seconds]
    · simp [timer, isTick]

theorem run_ticks (s : Clock) (as : List Activity) :
    (as.foldl Clock.act s).ticks = s.ticks + .ofNat (ticksIn as) := by
  induction as generalizing s with
  | nil => simp [ticksIn]
  | cons a as ih =>
    rw [List.foldl_cons, ih, (act_spec s a).1, ticksIn_cons, UInt32.ofNat_add, ← UInt32.add_assoc]
    split_ifs <;> rfl

/-! ## Seconds -/

/-- So many ticks have been counted. -/
structure Counted (n : Nat) (s : Clock) : Prop where
  ticks : s.ticks = .ofNat n
  seconds : s.seconds = .ofNat (hits (2 ^ 32) 100 n)

theorem multiple_iff (n : Nat) : (UInt32.ofNat n + 1) % 100 = 0 ↔ 100 ∣ (n + 1) % 2 ^ 32 := by
  rw [← UInt32.toNat_inj, UInt32.toNat_mod, ← UInt32.ofNat_one, ← UInt32.ofNat_add, UInt32.toNat_ofNat',
    Nat.dvd_iff_mod_eq_zero]
  exact Iff.rfl

theorem Counted.act (counted : Counted n s) (a : Activity) :
    Counted (n + if isTick a then 1 else 0) (s.act a) := by
  obtain ⟨ticks, seconds⟩ := act_spec s a
  rw [counted.ticks] at ticks seconds
  rw [counted.seconds] at seconds
  cases tick : isTick a with
  | false =>
    simp only [tick, Bool.false_eq_true, if_false, false_and, UInt32.add_zero] at ticks seconds ⊢
    exact ⟨ticks, seconds⟩
  | true =>
    simp only [tick, if_true, true_and, multiple_iff] at ticks seconds ⊢
    refine ⟨ticks.trans (UInt32.ofNat_add n 1).symm, seconds.trans ?_⟩
    rw [hits_succ, UInt32.ofNat_add]
    split_ifs <;> rfl

theorem Counted.run (counted : Counted n s) (as : List Activity) :
    Counted (n + ticksIn as) (as.foldl Clock.act s) := by
  induction as generalizing s n with
  | nil => exact counted
  | cons a as ih =>
    rw [ticksIn_cons, ← Nat.add_assoc]
    exact ih (counted.act a)

theorem hits_seconds (n : Nat) : hits (2 ^ 32) 100 n = n / 100 + extraSeconds n :=
  hits_ahead (by decide) (by decide) (by decide) n

/-- The seconds that `timer_get_seconds` returns. -/
theorem seconds_eq (booted : Booted s) (as : List Activity) :
    (timerGetSeconds (as.foldl Clock.act s)).toNat =
      (ticksIn as / 100 + extraSeconds (ticksIn as)) % 2 ^ 32 := by
  have counted : Counted 0 s := ⟨booted.ticks, booted.seconds.trans (congrArg UInt32.ofNat (Nat.count_zero _)).symm⟩
  have run := (counted.run as).seconds
  rw [Nat.zero_add, hits_seconds] at run
  rw [timerGetSeconds, run, UInt32.toNat_ofNat']

/-! ## Tests -/

theorem testCounts_le (rounds : List Round) (n : Nat) : ∀ count ∈ testCounts n rounds, n ≤ count := by
  induction rounds generalizing n with
  | nil => exact fun count member => absurd member List.not_mem_nil
  | cons r rounds ih =>
    intro count member
    rcases List.mem_cons.mp member with rfl | later
    · exact Nat.le_add_right ..
    · exact Nat.le_trans (Nat.le_add_right ..) (ih _ count later)

theorem testCounts_sorted (rounds : List Round) (n : Nat) : (testCounts n rounds).Pairwise (· ≤ ·) := by
  induction rounds generalizing n with
  | nil => exact .nil
  | cons r rounds ih =>
    refine .cons (fun count later => ?_) (ih _)
    have least := testCounts_le rounds _ count later
    rw [Round.activities, ticksIn_append, ticksIn_append] at least
    omega

/-- One test, and whether the loop goes on. -/
theorem test_iff (here : s.ticks = start + .ofNat n) :
    s.ticks - start < waitTicks ↔ ¬ waitTicks.toNat ≤ n % 2 ^ 32 := by
  rw [here, UInt32.add_comm, UInt32.add_sub_cancel, UInt32.lt_iff_toNat_lt, UInt32.toNat_ofNat', Nat.not_le]

/-- What a whole round leaves. -/
theorem round_state (s : Clock) (r : Round) :
    (r.beforeHlt.foldl Clock.act (r.beforeTest.foldl Clock.act s)).interrupt r.wakes =
      r.activities.foldl Clock.act s := by
  rw [Round.activities, List.foldl_append, List.foldl_append]
  rfl

/-- The loop does nothing but wait. -/
theorem sleepLoop_state (rounds : List Round)
    (returned : sleepLoop start waitTicks s rounds = some (s', during)) : s' = during.foldl Clock.act s := by
  induction rounds generalizing s during with
  | nil => cases returned
  | cons r rounds ih =>
    rw [sleepLoop] at returned
    dsimp only at returned
    split_ifs at returned
    · obtain ⟨⟨state, later⟩, rest, same⟩ := Option.map_eq_some_iff.mp returned
      obtain ⟨rfl, rfl⟩ := Prod.mk.inj same
      rw [round_state] at rest
      rw [List.foldl_append]
      exact ih rest
    · obtain ⟨rfl, rfl⟩ := Prod.mk.inj (Option.some.inj returned)
      rfl

/-- It ends at the first test that finds the difference large enough. -/
theorem sleepLoop_find (rounds : List Round) (here : s.ticks = start + .ofNat n) :
    (sleepLoop start waitTicks s rounds).map (fun result => n + ticksIn result.2) =
      (testCounts n rounds).find? fun count => waitTicks.toNat ≤ count % 2 ^ 32 := by
  induction rounds generalizing s n with
  | nil => rfl
  | cons r rounds ih =>
    have counted (as : List Activity) : (as.foldl Clock.act s).ticks = start + .ofNat (n + ticksIn as) := by
      rw [run_ticks, here, UInt32.add_assoc, UInt32.ofNat_add]
    rw [sleepLoop, testCounts, List.find?_cons]
    dsimp only
    rw [round_state]
    by_cases ended : waitTicks.toNat ≤ (n + ticksIn r.beforeTest) % 2 ^ 32
    · rw [if_neg fun goes => (test_iff (counted _)).mp goes ended, decide_eq_true ended]
      rfl
    · rw [if_pos ((test_iff (counted _)).mpr ended), decide_eq_false ended, Option.map_map, ← ih (counted _)]
      congr 1
      funext result
      simp only [Function.comp_apply, ticksIn_append, Nat.add_assoc]

/-- A call returns after that many ticks exactly if a test finds as many first. -/
theorem returnsAfter_iff (s : Clock) (ms : UInt32) (rounds : List Round) (n : Nat) :
    ReturnsAfter s ms rounds n ↔
      (testCounts 0 rounds).find? (fun count => (ms / 10).toNat ≤ count % 2 ^ 32) = some n := by
  have here : s.ticks = s.ticks + .ofNat 0 := (UInt32.add_zero _).symm
  rw [← sleepLoop_find rounds here, Option.map_eq_some_iff]
  constructor
  · rintro ⟨during, returned, count⟩
    exact ⟨_, returned, (Nat.zero_add _).trans count⟩
  · rintro ⟨⟨s', during⟩, returned, count⟩
    refine ⟨during, ?_, (Nat.zero_add _).symm.trans count⟩
    rw [← sleepLoop_state rounds returned]
    exact returned

theorem wait_toNat (ms : UInt32) : (ms / 10).toNat = ms.toNat / 10 := UInt32.toNat_div ..

theorem returnsAfter_exactly (s : Clock) (ms : UInt32) (rounds : List Round) :
    ReturnsAfter s ms rounds (ms.toNat / 10) ↔ ms.toNat / 10 ∈ testCounts 0 rounds := by
  rw [returnsAfter_iff, wait_toNat]
  refine find_wait (testCounts_sorted rounds 0) ?_
  have word := ms.toNat_lt
  omega

/-! ## Punctual interrupts -/

theorem punctual_cons : Punctual (r :: rounds) ↔
    (ticksIn r.beforeTest = 0 ∧ ticksIn r.beforeHlt = 0) ∧ Punctual rounds :=
  List.forall_mem_cons

/-- Not more than one tick comes from one test to the next. -/
theorem ticksIn_round (quiet : ticksIn r.beforeTest = 0 ∧ ticksIn r.beforeHlt = 0) (n : Nat) :
    n + ticksIn r.activities ≤ n + ticksIn r.beforeTest + 1 := by
  have wakes : ticksIn [.interrupt r.wakes] ≤ 1 := List.countP_le_length
  rw [Round.activities, ticksIn_append, ticksIn_append, quiet.1, quiet.2]
  omega

theorem testCounts_gradual (punctual : Punctual rounds) (near : n ≤ before + 1) :
    (before :: testCounts n rounds).IsChain fun a b => b ≤ a + 1 := by
  induction rounds generalizing n before with
  | nil => exact .singleton _
  | cons r rounds ih =>
    obtain ⟨quiet, punctual⟩ := punctual_cons.mp punctual
    rw [testCounts]
    refine List.isChain_cons_cons.mpr ⟨?_, ih punctual (ticksIn_round quiet n)⟩
    rw [quiet.1]
    exact near

/-- All ticks but the last one are seen by a test. -/
theorem testCounts_reach (punctual : Punctual rounds) (near : n ≤ before + 1) :
    ∃ last ∈ before :: testCounts n rounds, n + ticksIn (rounds.flatMap Round.activities) ≤ last + 1 := by
  induction rounds generalizing n before with
  | nil => exact ⟨before, List.mem_singleton_self _, near⟩
  | cons r rounds ih =>
    obtain ⟨quiet, punctual⟩ := punctual_cons.mp punctual
    obtain ⟨last, member, enough⟩ := ih punctual (ticksIn_round quiet n)
    refine ⟨last, List.mem_cons_of_mem _ member, ?_⟩
    rw [List.flatMap_cons, ticksIn_append, ← Nat.add_assoc]
    exact enough

/-- With more ticks than it waits for, all of them in `hlt`, a call returns after exactly as many
as it waits for. -/
theorem returnsAfter_punctual (s : Clock) (ms : UInt32) (punctual : Punctual rounds)
    (enough : ms.toNat / 10 < ticksIn (rounds.flatMap Round.activities)) :
    ReturnsAfter s ms rounds (ms.toNat / 10) := by
  rw [returnsAfter_exactly]
  cases rounds with
  | nil => exact absurd enough (Nat.not_lt_zero _)
  | cons r rounds =>
    obtain ⟨quiet, punctual⟩ := punctual_cons.mp punctual
    have near := ticksIn_round quiet 0
    obtain ⟨last, member, reach⟩ := testCounts_reach punctual near
    rw [List.flatMap_cons, ticksIn_append] at enough
    refine mem_of_gradual (testCounts_gradual punctual near) ?_ ⟨last, member, ?_⟩
    · rw [quiet.1]
      exact Nat.zero_le _
    · omega

/-! ## The law -/

theorem seconds_exact (booted : Booted s) (as : List Activity) :
    (timerGetSeconds (as.foldl Clock.act s)).toNat = ticksIn as / 100 % 2 ^ 32 ↔
      2 ^ 32 ∣ extraSeconds (ticksIn as) := by
  rw [seconds_eq booted]
  omega

/-- After any number of ticks, and whatever else has happened since the boot, the seconds are
right exactly if the ones counted too many are a multiple of 2^32. A sleep that
is started at any tick ends with the one that it waits for exactly if it tests its condition
between this tick and the next, as it does where all ticks come in its `hlt`. -/
theorem uptime_exact (booted : Booted s) (as : List Activity) (s' : Clock) (ms : UInt32)
    (rounds : List Round) :
    ((timerGetSeconds (as.foldl Clock.act s)).toNat = ticksIn as / 100 % 2 ^ 32 ↔
      2 ^ 32 ∣ extraSeconds (ticksIn as)) ∧
    (ReturnsAfter s' ms rounds (ms.toNat / 10) ↔ ms.toNat / 10 ∈ testCounts 0 rounds) ∧
    (Punctual rounds → ms.toNat / 10 < ticksIn (rounds.flatMap Round.activities) →
      ReturnsAfter s' ms rounds (ms.toNat / 10)) :=
  ⟨seconds_exact booted as, returnsAfter_exactly s' ms rounds, returnsAfter_punctual s' ms⟩

/-! ## Clocks -/

/-- Before the first interrupt, with the text screen and no mouse. -/
def bootClock : Clock where
  ticks := 0
  seconds := 0
  desktop := {
    devices := ⟨Drivers.keyboardStart, MouseDecoding.bootMouse⟩
    indexed := ⟨by decide, by decide⟩
    mouseEnabled := false
    framebuffer := { DrawingBounds.smallFb with available := false }
    cursor := Video.cursorStatics
    drawn := []
    textCursor := PointerTrace.bootPointer }

/-- The interrupt of the timer. -/
def timer : Irq := ⟨32, by decide, 0, 0, 0, true⟩

theorem bootClock_booted : Booted bootClock := ⟨rfl, rfl⟩

theorem ticksIn_timers (n : Nat) : ticksIn (List.replicate n (.interrupt timer)) = n := by
  have tick : isTick (.interrupt timer) = true := rfl
  rw [ticksIn, List.countP_replicate, if_pos tick]

/-- One hour, and 20 milliseconds of sleep. -/
theorem uptime_exact_hour :
    (timerGetSeconds ((List.replicate 360000 (.interrupt timer)).foldl Clock.act bootClock)).toNat = 3600 ∧
      ReturnsAfter bootClock 20 (List.replicate 3 ⟨[], [], timer⟩) 2 := by
  obtain ⟨seconds, -, sleeps⟩ := uptime_exact bootClock_booted (List.replicate 360000 (.interrupt timer))
    bootClock 20 (List.replicate 3 ⟨[], [], timer⟩)
  refine ⟨?_, sleeps (fun r member => ?_) (by decide)⟩
  · rw [ticksIn_timers] at seconds
    exact seconds.mpr (by decide)
  · rw [List.eq_of_mem_replicate member]
    exact ⟨rfl, rfl⟩

/-- When the counter wraps around for the first time a second is counted that has not passed, and
a tick between a test and its `hlt` makes a sleep one tick longer. -/
theorem uptime_drifts :
    (¬ ∀ s as, Booted s →
      (timerGetSeconds (as.foldl Clock.act s)).toNat = ticksIn as / 100 % 2 ^ 32) ∧
    ¬ ∀ s ms rounds s' during, sleep s ms rounds = some (s', during) → ticksIn during = ms.toNat / 10 := by
  refine ⟨fun claim => ?_, fun claim => ?_⟩
  · have extra := (seconds_exact bootClock_booted _).mp
      (claim bootClock (List.replicate (2 ^ 32) (.interrupt timer)) bootClock_booted)
    rw [ticksIn_timers] at extra
    exact absurd extra (by decide)
  · obtain ⟨during, returned, two⟩ :=
      (returnsAfter_iff bootClock 10 [⟨[], [.interrupt timer], timer⟩, ⟨[], [], timer⟩] 2).mpr (by decide)
    exact absurd (two.symm.trans (claim _ _ _ _ during returned)) (by decide)

end ZynthexOS.Uptime
