import Mathlib.Data.List.Induction
import ZynthexOS.Drivers.Mouse
import ZynthexOS.Lib.Fifo
import ZynthexOS.Lib.Runs

/-! The event queue of the mouse, with interrupts at any point of a call of
`mouse_read_event`. The handler alone stores to the cells and moves the head, the reader
alone moves the tail, so that a call that has been interrupted still returns the oldest
event. -/
namespace ZynthexOS.MouseQueue
open Drivers Lib

/-- Where a call of `mouse_read_event` stands: not under way, behind its test, or behind
the copy to `out`. -/
inductive Phase where
  | outside
  | tested
  | copied (out : MouseEvent)

/-- An interrupt with the status and the byte it reads, or a step of the reader: the test
at the start of a call, whose `out` may be NULL, the copy, and the move of the tail. -/
inductive Action where
  | irq (status data : UInt8)
  | test (outNull : Bool)
  | copy
  | advance

/-- The mouse, the call under way, the events the handler has stored and those the reader
has returned, in their orders. -/
structure Ledger where
  mouse : Mouse
  phase : Phase
  accepted : List MouseEvent
  returned : List MouseEvent

/-- The event that an interrupt passes to `buffer_push`. -/
def completed (s : Mouse) (status data : UInt8) : Option MouseEvent :=
  if status &&& 0x20 = 0 ∨ s.packetIndex + 1 < needed s.hasWheel then none
  else some (packetEvent s.hasWheel (s.store data 0).packet)

def act (l : Ledger) : Action → Ledger
  | .irq status data =>
    let mouse := (mouseIrqHandler l.mouse status data).1
    { l with
      mouse := mouse
      accepted := l.accepted ++
        if mouse.bufHead ≠ l.mouse.bufHead then [mouse.mouseBuffer l.mouse.bufHead] else [] }
  | .test outNull =>
    match l.phase with
    | .outside => if bufferEmpty l.mouse ∨ outNull then l else { l with phase := .tested }
    | _ => l
  | .copy =>
    match l.phase with
    | .tested => { l with phase := .copied (l.mouse.mouseBuffer l.mouse.bufTail) }
    | _ => l
  | .advance =>
    match l.phase with
    | .copied out =>
      { l with
        mouse := { l.mouse with bufTail := (l.mouse.bufTail + 1) % mouseBufSize }
        phase := .outside
        returned := l.returned ++ [out] }
    | _ => l

/-- After `mouse_init`. -/
def start (s : Mouse) (id : UInt8) : Ledger := ⟨mouseInit s id, .outside, [], []⟩

/-- How many accepted events have not been returned. -/
def Ledger.unread (l : Ledger) : Nat := l.accepted.length - l.returned.length

/-- A whole call, or the rest of the one under way. -/
def call : List Action := [.test false, .copy, .advance]

/-- The cells and the indices of the queue are the same. -/
structure SameQueue (s s' : Mouse) : Prop where
  cells : s'.mouseBuffer = s.mouseBuffer
  head : s'.bufHead = s.bufHead
  tail : s'.bufTail = s.bufTail

/-- What holds at any moment: the events returned are the first ones accepted, in their
order, there is room for all that are unread, they can be seen, and calls return them. -/
structure QueueLaw (l : Ledger) : Prop where
  order : l.returned <+: l.accepted
  few : l.unread ≤ mouseBufSize - 1
  hasEvent : mouseHasEvent l.mouse = true ↔ l.unread ≠ 0
  drained : ∀ n ≥ l.unread, ((List.replicate n call).flatten.foldl act l).returned = l.accepted

/-- What an interrupt does: the event of the packet that it completes is accepted, unless
as many events are unread as the queue has room for; then nothing changes, and neither
does it without such a packet. -/
structure PacketLaw (l : Ledger) (status data : UInt8) : Prop where
  none : completed l.mouse status data = none →
    (act l (.irq status data)).accepted = l.accepted ∧
      SameQueue l.mouse (act l (.irq status data)).mouse
  accepted : ∀ ev, completed l.mouse status data = some ev → l.unread ≠ mouseBufSize - 1 →
    (act l (.irq status data)).accepted = l.accepted ++ [ev]
  dropped : ∀ ev, completed l.mouse status data = some ev → l.unread = mouseBufSize - 1 →
    (act l (.irq status data)).accepted = l.accepted ∧
      SameQueue l.mouse (act l (.irq status data)).mouse

/-- Without an interrupt in between the steps are the call. -/
theorem call_eq (outside : l.phase = .outside) : call.foldl act l =
    { l with
      mouse := (mouseReadEvent l.mouse).1
      returned := l.returned ++ (mouseReadEvent l.mouse).2.toList } := by
  obtain ⟨mouse, phase, accepted, returned⟩ := l
  cases outside
  cases empty : bufferEmpty mouse with
  | true => simp [call, act, mouseReadEvent, empty]
  | false => simp [call, act, mouseReadEvent, empty]

/-! ## The cells -/

/-- The queue holds these events. -/
structure Queued (s : Mouse) (queue : List MouseEvent) : Prop where
  cells : Fifo.Holds mouseBufSize s.mouseBuffer s.bufTail s.bufHead queue
  room : queue.length < mouseBufSize

theorem Queued.same (queued : Queued s queue) (same : SameQueue s s') : Queued s' queue := by
  refine ⟨?_, queued.room⟩
  rw [same.cells, same.head, same.tail]
  exact queued.cells

theorem Queued.empty_iff (queued : Queued s queue) : bufferEmpty s = true ↔ queue = [] := by
  rw [bufferEmpty, decide_eq_true_iff]
  exact queued.cells.empty_iff queued.room

theorem Queued.full_iff (queued : Queued s queue) :
    bufferFull s = true ↔ queue.length = mouseBufSize - 1 := by
  have room := queued.room
  rw [bufferFull, decide_eq_true_iff, queued.cells.full_iff room]
  omega

/-- A pushed event goes behind the others while one more cell is free. -/
theorem Queued.push (ev : MouseEvent) (queued : Queued s queue) (free : queue.length ≠ mouseBufSize - 1) :
    bufferPush s ev = { s with
      mouseBuffer := Function.update s.mouseBuffer s.bufHead ev
      bufHead := (s.bufHead + 1) % mouseBufSize } ∧ Queued (bufferPush s ev) (queue ++ [ev]) := by
  have room := queued.room
  have pushed : bufferPush s ev = { s with
      mouseBuffer := Function.update s.mouseBuffer s.bufHead ev
      bufHead := (s.bufHead + 1) % mouseBufSize } := by
    rw [bufferPush, if_neg (mt queued.full_iff.mp free)]
  refine ⟨pushed, ?_⟩
  rw [pushed]
  refine ⟨queued.cells.push room, ?_⟩
  rw [List.length_append, List.length_singleton]
  omega

/-! ## What an interrupt does -/

variable {l : Ledger} {status data : UInt8} {queue : List MouseEvent}

theorem handler_none (none : completed s status data = none) :
    SameQueue s (mouseIrqHandler s status data).1 := by
  rw [completed] at none
  split_ifs at none with idle
  by_cases mine : status &&& 0x20 = 0
  · rw [mouseIrqHandler_other s data mine]
    exact ⟨rfl, rfl, rfl⟩
  · rw [mouseIrqHandler_assembles data mine (idle.resolve_left mine)]
    exact ⟨rfl, rfl, rfl⟩

theorem handler_some (complete : completed s status data = some ev) :
    (mouseIrqHandler s status data).1 = bufferPush (s.store data 0) ev := by
  rw [completed] at complete
  split_ifs at complete with idle
  rw [not_or] at idle
  rw [mouseIrqHandler_complete data idle.1 idle.2, Option.some.inj complete]

/-- Nothing is accepted while the queue does not change. -/
theorem act_same (same : SameQueue l.mouse (mouseIrqHandler l.mouse status data).1) :
    (act l (.irq status data)).accepted = l.accepted := by
  simp only [act, same.head, ne_eq, not_true_eq_false, if_false, List.append_nil]

theorem irq_none (none : completed l.mouse status data = none) :
    (act l (.irq status data)).accepted = l.accepted ∧
      SameQueue l.mouse (act l (.irq status data)).mouse :=
  ⟨act_same (handler_none none), handler_none none⟩

theorem irq_dropped (complete : completed l.mouse status data = some ev)
    (queued : Queued l.mouse queue) (full : queue.length = mouseBufSize - 1) :
    (act l (.irq status data)).accepted = l.accepted ∧
      SameQueue l.mouse (act l (.irq status data)).mouse := by
  have stored : Queued (l.mouse.store data 0) queue := queued.same ⟨rfl, rfl, rfl⟩
  have same : SameQueue l.mouse (mouseIrqHandler l.mouse status data).1 := by
    rw [handler_some complete, bufferPush, if_pos (stored.full_iff.mpr full)]
    exact ⟨rfl, rfl, rfl⟩
  exact ⟨act_same same, same⟩

theorem irq_accepted (complete : completed l.mouse status data = some ev)
    (queued : Queued l.mouse queue) (free : queue.length ≠ mouseBufSize - 1) :
    (act l (.irq status data)).accepted = l.accepted ++ [ev] ∧
      Queued (act l (.irq status data)).mouse (queue ++ [ev]) := by
  have stored : Queued (l.mouse.store data 0) queue := queued.same ⟨rfl, rfl, rfl⟩
  obtain ⟨pushed, longer⟩ := stored.push ev free
  have handled := handler_some complete
  have head : l.mouse.bufHead < 32 := queued.cells.head_lt
  have moved : (l.mouse.bufHead + 1) % 32 ≠ l.mouse.bufHead := by omega
  refine ⟨?_, ?_⟩
  · rw [pushed] at handled
    simp only [act, handled, mouseBufSize, Mouse.store, if_pos moved, Function.update_self]
  · simp only [act, handled]
    exact longer

/-! ## Runs -/

/-- What a call under way has seen of the queue. -/
def Seen (phase : Phase) (queue : List MouseEvent) : Prop :=
  match phase with
  | .outside => True
  | .tested => queue ≠ []
  | .copied out => queue.head? = some out

/-- What is unread stands in the queue. -/
structure Exact (l : Ledger) (queue : List MouseEvent) : Prop where
  queued : Queued l.mouse queue
  balance : l.returned ++ queue = l.accepted
  seen : Seen l.phase queue

theorem Seen.append (seen : Seen phase queue) (more : List MouseEvent) : Seen phase (queue ++ more) := by
  cases phase with
  | outside => trivial
  | tested => exact fun empty => seen (List.append_eq_nil_iff.mp empty).1
  | copied out =>
    rw [Seen, List.head?_append]
    rw [Seen] at seen
    rw [seen]
    rfl

theorem exact_start (s : Mouse) (id : UInt8) : Exact (start s id) [] :=
  ⟨⟨.empty (Nat.zero_lt_succ 31), by decide⟩, rfl, trivial⟩

theorem Exact.unread (exact : Exact l queue) : l.unread = queue.length := by
  rw [Ledger.unread, ← exact.balance, List.length_append]
  omega

theorem Exact.irq (exact : Exact l queue) (status data : UInt8) :
    ∃ queue', Exact (act l (.irq status data)) queue' := by
  obtain ⟨queued, balance, seen⟩ := exact
  cases complete : completed l.mouse status data with
  | none =>
    obtain ⟨accepted, same⟩ := irq_none complete
    exact ⟨queue, queued.same same, balance.trans accepted.symm, seen⟩
  | some ev =>
    by_cases full : queue.length = mouseBufSize - 1
    · obtain ⟨accepted, same⟩ := irq_dropped complete queued full
      exact ⟨queue, queued.same same, balance.trans accepted.symm, seen⟩
    · obtain ⟨accepted, longer⟩ := irq_accepted complete queued full
      refine ⟨queue ++ [ev], longer, ?_, seen.append [ev]⟩
      rw [accepted, ← balance, List.append_assoc]
      rfl

theorem Exact.test (exact : Exact l queue) (outNull : Bool) : Exact (act l (.test outNull)) queue := by
  obtain ⟨mouse, phase, accepted, returned⟩ := l
  obtain ⟨queued, balance, seen⟩ := exact
  cases phase with
  | outside =>
    simp only [act]
    split_ifs with idle
    · exact ⟨queued, balance, seen⟩
    · exact ⟨queued, balance, mt queued.empty_iff.mpr (not_or.mp idle).1⟩
  | tested => exact ⟨queued, balance, seen⟩
  | copied out => exact ⟨queued, balance, seen⟩

theorem Exact.copy (exact : Exact l queue) : Exact (act l .copy) queue := by
  obtain ⟨mouse, phase, accepted, returned⟩ := l
  obtain ⟨queued, balance, seen⟩ := exact
  cases phase with
  | outside => exact ⟨queued, balance, seen⟩
  | tested =>
    refine ⟨queued, balance, ?_⟩
    cases queue with
    | nil => exact absurd rfl seen
    | cons ev queue =>
      have first : mouse.mouseBuffer mouse.bufTail = ev := queued.cells.pop.1
      exact congrArg some first.symm
  | copied out => exact ⟨queued, balance, seen⟩

/-- The move of the tail takes the event that was copied off the queue. -/
theorem Exact.advance_copied (exact : Exact l (ev :: queue)) (copied : l.phase = .copied out) :
    Exact (act l .advance) queue := by
  obtain ⟨mouse, phase, accepted, returned⟩ := l
  obtain ⟨queued, balance, seen⟩ := exact
  cases copied
  have here : ev = out := Option.some.inj seen
  subst here
  have room := queued.room
  rw [List.length_cons] at room
  refine ⟨⟨queued.cells.pop.2, Nat.lt_of_succ_lt room⟩, ?_, trivial⟩
  exact (List.append_assoc _ _ _).trans balance

theorem Exact.advance (exact : Exact l queue) : ∃ queue', Exact (act l .advance) queue' := by
  cases phase : l.phase with
  | outside =>
    have same : act l .advance = l := by simp only [act, phase]
    exact ⟨queue, by rw [same]; exact exact⟩
  | tested =>
    have same : act l .advance = l := by simp only [act, phase]
    exact ⟨queue, by rw [same]; exact exact⟩
  | copied out =>
    cases queue with
    | nil =>
      have seen := exact.seen
      rw [phase] at seen
      cases seen
    | cons ev queue => exact ⟨queue, exact.advance_copied phase⟩

theorem Exact.step (exact : Exact l queue) (action : Action) :
    ∃ queue', Exact (act l action) queue' := by
  cases action with
  | irq status data => exact exact.irq status data
  | test outNull => exact ⟨queue, exact.test outNull⟩
  | copy => exact ⟨queue, exact.copy⟩
  | advance => exact exact.advance

theorem exact_run (s : Mouse) (id : UInt8) (actions : List Action) :
    ∃ queue, Exact (actions.foldl act (start s id)) queue := by
  induction actions using List.reverseRecOn with
  | nil => exact ⟨[], exact_start s id⟩
  | append_singleton actions action ih =>
    obtain ⟨queue, exact⟩ := ih
    rw [List.foldl_append]
    exact exact.step action

/-- The reader accepts nothing. -/
theorem call_accepted (l : Ledger) : (call.foldl act l).accepted = l.accepted := by
  obtain ⟨mouse, phase, accepted, returned⟩ := l
  cases phase with
  | outside => cases empty : bufferEmpty mouse <;> simp [call, act, empty]
  | tested => simp [call, act]
  | copied out => simp [call, act]

theorem copy_phase (under : l.phase ≠ .outside) : ∃ out, (act l .copy).phase = .copied out := by
  cases phase : l.phase with
  | outside => exact absurd phase under
  | tested =>
    refine ⟨l.mouse.mouseBuffer l.mouse.bufTail, ?_⟩
    simp only [act, phase]
  | copied out =>
    refine ⟨out, ?_⟩
    simp only [act, phase]

/-- A call returns the oldest event, also where it was under way. -/
theorem Exact.call_cons (exact : Exact l (ev :: queue)) : Exact (call.foldl act l) queue := by
  have tested : (act l (.test false)).phase ≠ .outside := by
    have some : bufferEmpty l.mouse = false := by
      rw [Bool.eq_false_iff]
      exact mt exact.queued.empty_iff.mp (by simp)
    cases phase : l.phase <;> simp [act, phase, some]
  obtain ⟨out, copied⟩ := copy_phase tested
  exact (exact.test false).copy.advance_copied copied

/-- On an empty queue it returns nothing. -/
theorem Exact.call_nil (exact : Exact l []) : Exact (call.foldl act l) [] := by
  obtain ⟨mouse, phase, accepted, returned⟩ := l
  have empty : bufferEmpty mouse = true := exact.queued.empty_iff.mpr rfl
  have seen := exact.seen
  cases phase with
  | outside =>
    simp only [call, List.foldl, act, empty, true_or, if_true]
    exact exact
  | tested => exact absurd rfl seen
  | copied out => cases seen

theorem Exact.calls (exact : Exact l queue) (enough : queue.length ≤ n) :
    Exact ((List.replicate n call).flatten.foldl act l) [] ∧
      ((List.replicate n call).flatten.foldl act l).accepted = l.accepted := by
  induction n generalizing l queue with
  | zero =>
    rw [List.eq_nil_of_length_eq_zero (Nat.le_zero.mp enough)] at exact
    exact ⟨exact, rfl⟩
  | succ n ih =>
    rw [List.replicate_succ, List.flatten_cons, List.foldl_append, ← call_accepted l]
    cases queue with
    | nil => exact ih exact.call_nil (Nat.zero_le n)
    | cons ev queue => exact ih exact.call_cons (Nat.le_of_succ_le_succ enough)

theorem Exact.law (exact : Exact l queue) : QueueLaw l := by
  have room := exact.queued.room
  refine ⟨⟨queue, exact.balance⟩, ?_, ?_, fun n enough => ?_⟩
  · rw [exact.unread]
    omega
  · rw [exact.unread, mouseHasEvent, Bool.not_eq_true', Bool.eq_false_iff, ne_eq, exact.queued.empty_iff,
      ← List.length_eq_zero_iff]
  · rw [exact.unread] at enough
    obtain ⟨drained, accepted⟩ := exact.calls enough
    rw [← accepted, ← drained.balance, List.append_nil]

theorem Exact.packetLaw (exact : Exact l queue) (status data : UInt8) : PacketLaw l status data := by
  refine ⟨irq_none, fun ev complete free => ?_, fun ev complete full => ?_⟩
  · rw [exact.unread] at free
    exact (irq_accepted complete exact.queued free).1
  · rw [exact.unread] at full
    exact irq_dropped complete exact.queued full

/-- In every run of interrupts and steps of the reader the events returned are the ones
accepted, in order and each once, and an event is dropped exactly if one less than the
number of cells is unread when its packet is complete. -/
theorem mouse_queue (s : Mouse) (id : UInt8) (actions : List Action) :
    QueueLaw (actions.foldl act (start s id)) ∧
      ∀ status data, PacketLaw (actions.foldl act (start s id)) status data := by
  obtain ⟨queue, exact⟩ := exact_run s id actions
  exact ⟨exact.law, exact.packetLaw⟩

end ZynthexOS.MouseQueue
