import ZynthexOS.Drivers.Keyboard
import ZynthexOS.Lib.Fifo
import ZynthexOS.Lib.Runs

/-! The keyboard queue over interrupts and readers in any order. The handler never
looks whether the queue is full: the character that arrives while all cells but one
are taken makes the indices meet, and all that is unread is lost. -/
namespace ZynthexOS.KeyboardQueue
open Drivers Lib

/-- An interrupt with the scancode it reads, or a call of `keyboard_getchar`. -/
inductive Call where
  | irq (scancode : UInt8)
  | getchar
  deriving DecidableEq, Repr

/-- The keyboard, the characters the handler has mapped and those `keyboard_getchar`
has returned, in their orders. -/
structure Ledger where
  keyboard : Keyboard
  received : List UInt8
  returned : List UInt8

/-- A character, where 0 stands for none. -/
def charOf (c : UInt8) : List UInt8 := if c = 0 then [] else [c]

def act (l : Ledger) : Call → Ledger
  | .irq scancode =>
    { l with
      keyboard := (keyboardIrqHandler l.keyboard scancode).1
      received := l.received ++ charOf (keyboardScancodeToAscii scancode) }
  | .getchar =>
    let (keyboard, c) := keyboardGetchar l.keyboard
    { l with keyboard := keyboard, returned := l.returned ++ charOf c }

def start : Ledger := ⟨keyboardStart, [], []⟩

/-- How many received characters have not been returned. -/
def Ledger.unread (l : Ledger) : Nat := l.received.length - l.returned.length

/-- What a queue for one character less than its size promises: characters come out
in the order they came in, each once; as long as no more are unread than fit, all
of them still come out; and what is unread can be seen. -/
structure QueueLaw (l : Ledger) : Prop where
  inOrder : l.returned.Sublist l.received
  kept : l.unread < keyboardBufferSize → ∀ n, l.unread ≤ n →
    ((List.replicate n Call.getchar).foldl act l).returned = l.received
  ready : 0 < l.unread → keyboardHasInput l.keyboard = true

/-- A mapped character arrives only while fewer than `KEYBOARD_BUFFER_SIZE - 1`
characters are unread. -/
def Roomy (l : Ledger) : Call → Prop
  | .irq scancode => keyboardScancodeToAscii scancode ≠ 0 → l.unread < keyboardBufferSize - 1
  | .getchar => True

/-! ## What each step does to the cells -/

/-- The queue holds these characters, none of which is 0. -/
structure Queued (s : Keyboard) (queue : List UInt8) : Prop where
  cells : Fifo.Holds keyboardBufferSize s.keyboardBuffer s.bufferTail s.bufferHead queue
  room : queue.length < keyboardBufferSize
  chars : ∀ c ∈ queue, c ≠ 0

theorem queued_start : Queued keyboardStart [] := ⟨.empty (by decide), by decide, by simp⟩

/-- A character is in sight exactly if the queue is not empty. -/
theorem Queued.hasInput (queued : Queued s queue) : keyboardHasInput s = true ↔ queue ≠ [] := by
  rw [keyboardHasInput, decide_eq_true_iff]
  exact not_congr (queued.cells.empty_iff queued.room)

theorem Queued.getchar_nil (queued : Queued s []) : keyboardGetchar s = (s, 0) := by
  have none : ¬ keyboardHasInput s = true := by simp [queued.hasInput]
  rw [keyboardGetchar, if_neg none]

theorem Queued.getchar_cons (queued : Queued s (c :: queue)) :
    (keyboardGetchar s).2 = c ∧ Queued (keyboardGetchar s).1 queue := by
  obtain ⟨first, rest⟩ := queued.cells.pop
  have some : keyboardHasInput s = true := by simp [queued.hasInput]
  rw [keyboardGetchar, if_pos some]
  refine ⟨first, rest, ?_, fun d member => queued.chars d (by simp [member])⟩
  have room := queued.room
  rw [List.length_cons] at room
  exact Nat.lt_of_succ_lt room

theorem Queued.irq_unmapped (unmapped : keyboardScancodeToAscii scancode = 0)
    (queued : Queued s queue) : Queued (keyboardIrqHandler s scancode).1 queue := by
  rw [keyboardIrqHandler_state, if_neg (not_not.mpr unmapped)]
  exact queued

/-- A mapped character goes behind the others while one more cell is free. -/
theorem Queued.irq_push (mapped : keyboardScancodeToAscii scancode ≠ 0) (queued : Queued s queue)
    (room : queue.length < keyboardBufferSize - 1) :
    Queued (keyboardIrqHandler s scancode).1 (queue ++ [keyboardScancodeToAscii scancode]) := by
  rw [keyboardIrqHandler_state, if_pos mapped]
  refine ⟨queued.cells.push queued.room, ?_, ?_⟩
  · rw [List.length_append, List.length_singleton]
    exact Nat.add_lt_of_lt_sub room
  · intro c member
    rcases List.mem_append.mp member with older | new
    · exact queued.chars c older
    · rw [List.mem_singleton.mp new]
      exact mapped

/-- Otherwise it empties the queue. -/
theorem Queued.irq_overflow (mapped : keyboardScancodeToAscii scancode ≠ 0) (queued : Queued s queue)
    (full : ¬ queue.length < keyboardBufferSize - 1) : Queued (keyboardIrqHandler s scancode).1 [] := by
  rw [keyboardIrqHandler_state, if_pos mapped]
  have room := queued.room
  have last : queue.length + 1 = keyboardBufferSize := by omega
  refine ⟨?_, Nat.zero_lt_of_lt room, by simp⟩
  rw [(queued.cells.full_iff queued.room).mpr last]
  exact .empty queued.cells.tail_lt

/-! ## Runs -/

/-- What is unread stands in the queue. -/
def Exact (l : Ledger) : Prop := ∃ queue, Queued l.keyboard queue ∧ l.returned ++ queue = l.received

theorem unread_eq {l : Ledger} {queue : List UInt8} (balance : l.returned ++ queue = l.received) :
    l.unread = queue.length := by
  rw [Ledger.unread, ← balance, List.length_append]
  omega

/-- Reading on returns what is in the queue. -/
theorem reads_return {l : Ledger} (queued : Queued l.keyboard queue) (enough : queue.length ≤ n) :
    ((List.replicate n Call.getchar).foldl act l).returned = l.returned ++ queue := by
  induction n generalizing l queue with
  | zero =>
    rw [List.eq_nil_of_length_eq_zero (Nat.le_zero.mp enough)]
    simp
  | succ n ih =>
    rw [List.replicate_succ, List.foldl_cons]
    cases queue with
    | nil =>
      have still : act l .getchar = l := by simp [act, queued.getchar_nil, charOf]
      rw [still]
      exact ih queued (Nat.zero_le n)
    | cons c queue =>
      obtain ⟨first, rest⟩ := queued.getchar_cons
      have char := queued.chars c (by simp)
      have read : (act l .getchar).returned = l.returned ++ [c] := by simp [act, first, charOf, char]
      rw [ih rest (Nat.le_of_succ_le_succ enough), read, List.append_assoc]
      rfl

theorem Exact.lawful (exact : Exact l) : QueueLaw l := by
  obtain ⟨queue, queued, balance⟩ := exact
  have unread := unread_eq balance
  refine ⟨?_, ?_, ?_⟩
  · rw [← balance]
    exact List.sublist_append_left l.returned queue
  · intro _ n enough
    rw [reads_return queued (unread ▸ enough), balance]
  · intro some
    rw [queued.hasInput]
    rintro rfl
    simp [unread] at some

theorem Exact.keep (exact : Exact l) (roomy : Roomy l call) : Exact (act l call) := by
  obtain ⟨queue, queued, balance⟩ := exact
  cases call with
  | irq scancode =>
    by_cases unmapped : keyboardScancodeToAscii scancode = 0
    · refine ⟨queue, queued.irq_unmapped unmapped, ?_⟩
      simp [act, charOf, unmapped, balance]
    · have room : queue.length < keyboardBufferSize - 1 := unread_eq balance ▸ roomy unmapped
      refine ⟨_, queued.irq_push unmapped room, ?_⟩
      simp [act, charOf, unmapped, ← balance]
  | getchar =>
    cases queue with
    | nil =>
      refine ⟨[], ?_, ?_⟩
      · simpa [act, queued.getchar_nil] using queued
      · simpa [act, queued.getchar_nil, charOf] using balance
    | cons c queue =>
      obtain ⟨first, rest⟩ := queued.getchar_cons
      have char := queued.chars c (by simp)
      refine ⟨queue, rest, ?_⟩
      simp [act, first, charOf, char, ← balance]

/-- A character that arrives at a full queue leaves nothing to see. -/
theorem Exact.broken (exact : Exact l) (crowded : ¬ Roomy l call) : ¬ QueueLaw (act l call) := by
  obtain ⟨queue, queued, balance⟩ := exact
  cases call with
  | getchar => exact absurd trivial crowded
  | irq scancode =>
    simp only [Roomy, Classical.not_imp] at crowded
    obtain ⟨mapped, full⟩ := crowded
    rw [unread_eq balance] at full
    have nothing := queued.irq_overflow mapped full
    intro law
    have unread : 0 < (act l (.irq scancode)).unread := by
      simp only [Ledger.unread, act, ← balance, charOf, mapped, if_false, List.length_append,
        List.length_singleton]
      omega
    exact nothing.hasInput.mp (law.ready unread) rfl

/-- The queue keeps its promise over a whole run exactly if no character arrives
while `KEYBOARD_BUFFER_SIZE - 1` others are unread. -/
theorem keyboard_queue (calls : List Call) :
    Always QueueLaw act start calls ↔ EachStep Roomy act start calls :=
  always_iff_eachStep (fun _ => Exact.lawful) (fun _ _ => Exact.keep) (fun _ _ => Exact.broken)
    ⟨[], queued_start, rfl⟩

/-- The key A is pressed 256 times before anything is read. -/
theorem keyboard_queue_lost : ¬ Always QueueLaw act start (List.replicate 256 (.irq 0x1E)) := by
  intro always
  have law := always _ List.prefix_rfl
  have unread : 0 < ((List.replicate 256 (Call.irq 0x1E)).foldl act start).unread := by
    decide +kernel
  have blind : keyboardHasInput ((List.replicate 256 (Call.irq 0x1E)).foldl act start).keyboard =
      false := by
    decide +kernel
  have sight := law.ready unread
  rw [blind] at sight
  exact Bool.false_ne_true sight

end ZynthexOS.KeyboardQueue
