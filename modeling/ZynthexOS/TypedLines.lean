import ZynthexOS.Core.KernelMain
import ZynthexOS.KeyboardQueue
import ZynthexOS.LineEditing

/-! From the keys to the commands: interrupts in between the steps of `kernel_main`. As long as
fewer than 255 characters are unread, what the shell calls is what a plain line editor would
call for the characters handled so far. -/
namespace ZynthexOS.TypedLines
open ZynthexOS.Core Drivers KeyboardQueue LineEditing Text Lib Lib.Polling

/-- What a line editor calls for a character, and its line then. -/
def respond (returns : List ShellCall → Bool) (s : List ShellCall × List UInt8) (c : UInt8) :
    Option (List ShellCall × List UInt8) :=
  if c = newline then
    let calls := s.1 ++ [.vgaPutchar newline, .executeCommand s.2]
    if returns calls then some (calls ++ [.prompt], []) else none
  else if c = backspace then
    if s.2 = [] then some s else some (s.1 ++ [.vgaPutchar backspace], s.2.dropLast)
  else if s.2.length < 255 then some (s.1 ++ [.vgaPutchar c], s.2 ++ [c])
  else some s

/-- The characters in the queue, the oldest first. -/
def waiting (s : Keyboard) : List UInt8 :=
  (List.range ((s.bufferHead + keyboardBufferSize - s.bufferTail) % keyboardBufferSize)).map fun i =>
    s.keyboardBuffer ((s.bufferTail + i) % keyboardBufferSize)

/-- The character of an interrupt, if it brings one. -/
def typed (irq : Irq) : List UInt8 :=
  if irq.number = 33 then charOf (keyboardScancodeToAscii irq.scancode) else []

inductive Event where
  | interrupt (irq : Irq)
  | step

/-- The kernel and the characters that the interrupts have brought. -/
structure Ledger where
  kernel : KernelMain
  received : List UInt8

def act (returns : List ShellCall → Bool) (l : Ledger) : Event → Ledger
  | .interrupt irq => ⟨l.kernel.interrupt irq, l.received ++ typed irq⟩
  | .step => { l with kernel := l.kernel.step returns }

/-- A character comes while fewer than 255 are unread. -/
def Roomy (l : Ledger) : Event → Prop
  | .interrupt irq => typed irq ≠ [] → (waiting l.kernel.devices.keyboard).length < 255
  | .step => True

def start (mouse : Mouse) (console : Console) : Ledger :=
  ⟨kernelMainStart ⟨keyboardStart, mouse⟩ console, []⟩

/-- The characters received are those handled and those that wait; the calls and the line are
the line editor's. -/
def Followed (returns : List ShellCall → Bool) (l : Ledger) : Prop :=
  ∃ handled, handled ++ (l.kernel.place.held ++ waiting l.kernel.devices.keyboard) = l.received ∧
    handled.foldlM (respond returns) ([.prompt], []) = some (l.kernel.calls, consoleGetLine l.kernel.console)

variable {returns : List ShellCall → Bool} {s : KernelMain} {r : Reader UInt8 (List ShellCall × List UInt8)}
  {queue : List UInt8} {l : Ledger}

/-! ## The loop simulates a reader -/

theorem waiting_eq {k : Keyboard} (queued : Queued k queue) : waiting k = queue := by
  have tail := queued.cells.tail_lt
  have room := queued.room
  have size : keyboardBufferSize = 256 := rfl
  rw [size] at tail room
  have count : (k.bufferHead + keyboardBufferSize - k.bufferTail) % keyboardBufferSize = queue.length := by
    rw [queued.cells.head_eq, size]
    omega
  rw [waiting, count]
  apply List.ext_getElem
  · simp
  · intro i inside within
    rw [List.getElem_map, List.getElem_range]
    exact queued.cells.cell i within

/-- The keyboard's queue and the console stand for the reader's queue and line. -/
structure Simulates (s : KernelMain) (r : Reader UInt8 (List ShellCall × List UInt8)) : Prop where
  place : s.place = r.place
  queued : Queued s.devices.keyboard r.queue
  edited : Edited s.console r.state.2
  calls : s.calls = r.state.1
  char : ∀ c, r.place = .hold c → c ≠ 0

/-- The console edits its line as the line editor does. -/
theorem shellRespond_some (edited : Edited console line) (char : c ≠ 0)
    (answer : respond returns (calls, line) c = some (calls', line')) :
    ∃ console', shellRespond returns console calls c = some (console', calls') ∧ Edited console' line' := by
  have length := edited.length
  rw [respond] at answer
  rw [shellRespond]
  by_cases enter : c = newline
  · rw [if_pos enter] at answer ⊢
    dsimp only at answer ⊢
    rw [edited.agrees]
    split_ifs at answer ⊢
    cases answer
    exact ⟨_, rfl, edited_zeroLine _⟩
  · rw [if_neg enter] at answer ⊢
    rw [consoleHandleChar]
    by_cases erase : c = backspace
    · rw [if_pos erase] at answer ⊢
      by_cases none : line = []
      · subst none
        cases answer
        rw [if_neg (by rw [length]; exact Nat.lt_irrefl 0)]
        exact ⟨console, by simp, edited⟩
      · rw [if_neg none] at answer
        cases answer
        have some : console.lineLength > 0 := length ▸ List.length_pos_iff.mpr none
        rw [if_pos some]
        exact ⟨_, rfl, edited.remove some⟩
    · rw [if_neg erase] at answer ⊢
      have size : consoleBufferSize - 1 = 255 := rfl
      rw [if_neg enter, length, size]
      by_cases room : line.length < 255
      · rw [if_pos room] at answer ⊢
        cases answer
        have added := edited.append room char
        rw [length] at added
        exact ⟨_, rfl, added⟩
      · rw [if_neg room] at answer
        cases answer
        rw [if_neg room]
        exact ⟨console, by simp, edited⟩

theorem shellRespond_none (edited : Edited console line) (answer : respond returns (calls, line) c = none) :
    shellRespond returns console calls c = none := by
  have enter : c = newline := by
    by_contra other
    rw [respond, if_neg other] at answer
    split_ifs at answer
  rw [respond, if_pos enter] at answer
  rw [shellRespond, if_pos enter]
  dsimp only at answer ⊢
  rw [edited.agrees]
  split_ifs at answer ⊢
  rfl

theorem Simulates.step (simulates : Simulates s r) (sound : r.Sound (respond returns)) :
    Simulates (s.step returns) (r.step (respond returns)) := by
  obtain ⟨same, queued, edited, calls, char⟩ := simulates
  rw [KernelMain.step, same]
  cases place : r.place with
  | look =>
    by_cases none : r.queue = []
    · rw [step_look_nil place none]
      have empty : ¬ keyboardHasInput s.devices.keyboard = true := by simp [queued.hasInput, none]
      dsimp only
      rw [if_neg empty]
      exact ⟨rfl, queued, edited, calls, nofun⟩
    · rw [step_look place none]
      dsimp only
      rw [if_pos (queued.hasInput.mpr none)]
      exact ⟨rfl, queued, edited, calls, nofun⟩
  | take =>
    obtain ⟨c, queue, cons⟩ := List.exists_cons_of_ne_nil (sound.take place)
    rw [step_take place cons]
    rw [cons] at queued
    obtain ⟨first, rest⟩ := queued.getchar_cons
    dsimp only
    rw [first]
    refine ⟨rfl, rest, edited, calls, fun d held => ?_⟩
    cases held
    exact queued.chars _ List.mem_cons_self
  | hold c =>
    dsimp only
    rw [calls]
    cases answer : respond returns r.state c with
    | none =>
      rw [step_hold_none place answer, shellRespond_none edited answer]
      exact ⟨rfl, queued, edited, rfl, nofun⟩
    | some state =>
      obtain ⟨console, responded, edited'⟩ := shellRespond_some edited (char c place) answer
      rw [step_hold place answer, responded]
      exact ⟨rfl, queued, edited', rfl, nofun⟩
  | leave =>
    rw [step_leave place]
    exact ⟨rfl, queued, edited, calls, nofun⟩
  | asleep =>
    rw [step_asleep place]
    exact ⟨same, queued, edited, calls, char⟩
  | stuck c =>
    rw [step_stuck place]
    exact ⟨same, queued, edited, calls, char⟩

/-- Only the interrupt of the keyboard changes its queue. -/
theorem isrHandlerRest_keyboard (s : Devices) (irq : Irq) : (isrHandlerRest s irq).1.keyboard =
    if irq.number = 33 then (keyboardIrqHandler s.keyboard irq.scancode).1 else s.keyboard := by
  rw [isrHandlerRest]
  split_ifs <;> rfl

theorem Simulates.interrupt (simulates : Simulates s r) (irq : Irq)
    (roomy : typed irq ≠ [] → (waiting s.devices.keyboard).length < 255) :
    Simulates (s.interrupt irq) (r.arrive (typed irq)) := by
  obtain ⟨same, queued, edited, calls, char⟩ := simulates
  have queue : Queued (s.interrupt irq).devices.keyboard (r.queue ++ typed irq) := by
    rw [waiting_eq queued] at roomy
    rw [KernelMain.interrupt, isrHandlerRest_keyboard]
    unfold typed charOf at roomy ⊢
    split_ifs at roomy ⊢ with keys unmapped
    · rw [List.append_nil]
      exact queued.irq_unmapped unmapped
    · exact queued.irq_push unmapped (roomy (by simp))
    · rw [List.append_nil]
      exact queued
  refine ⟨congrArg Place.wake same, queue, edited, calls, fun c held => char c ?_⟩
  cases place : r.place <;> simp [Reader.arrive, Place.wake, place] at held ⊢
  exact held

/-! ## Runs -/

/-- The kernel simulates a reader that has handled what it has taken. -/
def Read (returns : List ShellCall → Bool) (l : Ledger) : Prop :=
  ∃ r, Simulates l.kernel r ∧ r.Sound (respond returns) ∧
    Follows (respond returns) ([.prompt], []) l.received r

theorem Read.start (returns : List ShellCall → Bool) (mouse : Mouse) (console : Console) :
    Read returns (start mouse console) := by
  refine ⟨⟨.look, [], ([.prompt], [])⟩, ⟨rfl, queued_start, edited_zeroLine _, rfl, nofun⟩, ⟨nofun, nofun⟩, ?_⟩
  exact follows_start _ _

theorem Read.keep (read : Read returns l) (roomy : Roomy l event) : Read returns (act returns l event) := by
  obtain ⟨r, simulates, sound, follows⟩ := read
  cases event with
  | interrupt irq => exact ⟨_, simulates.interrupt irq roomy, sound.arrive _, follows.arrive _⟩
  | step => exact ⟨_, simulates.step sound, sound.step, follows.step sound⟩

theorem Read.followed (read : Read returns l) : Followed returns l := by
  obtain ⟨r, simulates, -, handled, split, result⟩ := read
  refine ⟨handled, ?_, ?_⟩
  · rw [waiting_eq simulates.queued, simulates.place]
    exact split
  · rw [simulates.calls, simulates.edited.agrees]
    exact result

theorem read_of_run (roomy : EachStep Roomy (act returns) (start mouse console) events) :
    Read returns (events.foldl (act returns) (start mouse console)) :=
  roomy.always (fun _ _ read => read.keep) (Read.start returns mouse console) _ List.prefix_rfl

/-- Whatever interrupts come between the steps of the loop, as long as no character comes while
255 are unread: no character is lost, handled twice or out of order, and what the shell calls
is what the line editor calls for the characters handled so far. -/
theorem shell_follows (returns : List ShellCall → Bool) (mouse : Mouse) (console : Console) (events : List Event)
    (roomy : EachStep Roomy (act returns) (start mouse console) events) :
    Always (Followed returns) (act returns) (start mouse console) events :=
  (roomy.always (fun _ _ read => read.keep) (Read.start returns mouse console)).mono fun _ => Read.followed

/-- The interrupt of a pressed key A, before any other. -/
def keyA : Irq := ⟨33, by decide, 0x1E, 0, 0, true⟩

def untouched : Ledger := start ⟨fun _ => ⟨0, 0, 0, 0⟩, 0, 0, fun _ => 0, 0, false⟩ ⟨fun _ => 0, 0⟩

def keyEnter : Irq := ⟨33, by decide, 0x1C, 0, 0, true⟩

instance : Decidable (Roomy l event) :=
  match event with
  | .interrupt irq => inferInstanceAs (Decidable (typed irq ≠ [] → _))
  | .step => .isTrue trivial

/-- A is handled before Enter comes, and the next A comes while Enter is handled. -/
def typing : List Event :=
  [.interrupt keyA, .step, .step, .step, .interrupt keyEnter, .step, .step, .interrupt keyA, .step]

/-- The command has been called, and the last character waits. -/
theorem shell_follows_typing : Always (Followed fun _ => true) (act fun _ => true) untouched typing ∧
    (typing.foldl (act fun _ => true) untouched).kernel.calls =
      [.prompt, .vgaPutchar 0x61, .vgaPutchar newline, .executeCommand [0x61], .prompt] ∧
    waiting (typing.foldl (act fun _ => true) untouched).kernel.devices.keyboard = [0x61] := by
  have roomy : EachStep Roomy (act fun _ => true) untouched typing := by decide +kernel
  exact ⟨shell_follows _ _ _ _ roomy, by decide +kernel, by decide +kernel⟩

/-- How many steps the loop takes until it sleeps: three for a character, and five more. -/
def Ledger.work (l : Ledger) : Nat := 3 * (waiting l.kernel.devices.keyboard).length + 5

/-- The steps of the loop while nothing interrupts it. -/
def quiet (returns : List ShellCall → Bool) (n : Nat) (s : KernelMain) : KernelMain :=
  (KernelMain.step returns)^[n] s

theorem quiet_simulates (simulates : Simulates s r) (sound : r.Sound (respond returns)) (n : Nat) :
    Simulates (quiet returns n s) ((Reader.step (respond returns))^[n] r) := by
  induction n generalizing s r with
  | zero => exact simulates
  | succ n ih => exact ih (simulates.step sound) sound.step

/-- All that was received has been handled, and the loop waits in `hlt`. -/
structure Settled (returns : List ShellCall → Bool) (received : List UInt8) (s : KernelMain) : Prop where
  place : s.place = .asleep
  waiting : waiting s.devices.keyboard = []
  handled : received.foldlM (respond returns) ([.prompt], []) = some (s.calls, consoleGetLine s.console)

theorem work_le (simulates : Simulates l.kernel r) : r.work ≤ l.work := by
  rw [Ledger.work, waiting_eq simulates.queued, Reader.work]
  cases r.place <;> dsimp only <;> omega

/-- With no more interrupts all that waits is handled. -/
theorem Read.settled (read : Read returns l) (enough : l.work ≤ n) (awake : ¬ l.kernel.place.Retired)
    (answer : l.received.foldlM (respond returns) ([.prompt], []) = some state) :
    Settled returns l.received (quiet returns n l.kernel) := by
  obtain ⟨r, simulates, sound, handled, split, result⟩ := read
  have all := answer
  rw [← split, List.foldlM_append, result] at answer
  have after := quiet_simulates simulates sound n
  rw [quiet_handles sound (simulates.place ▸ awake) ((work_le simulates).trans enough) answer] at after
  refine ⟨after.place, waiting_eq after.queued, ?_⟩
  rw [all, after.calls, after.edited.agrees]

/-- Without an interrupt a loop that is done with `shell_update` only comes to `hlt`. -/
theorem Read.retired (read : Read returns l) (enough : l.work ≤ n) (retired : l.kernel.place.Retired) :
    (quiet returns n l.kernel).place = .asleep ∧
      waiting (quiet returns n l.kernel).devices.keyboard = waiting l.kernel.devices.keyboard ∧
      (quiet returns n l.kernel).calls = l.kernel.calls ∧
      consoleGetLine (quiet returns n l.kernel).console = consoleGetLine l.kernel.console := by
  obtain ⟨r, simulates, sound, -⟩ := read
  have one : 1 ≤ n := (Nat.le_add_left 1 _).trans enough
  have after := quiet_simulates simulates sound n
  rw [quiet_retired (simulates.place ▸ retired) one] at after
  refine ⟨after.place, ?_, ?_, ?_⟩
  · rw [waiting_eq after.queued, waiting_eq simulates.queued]
  · rw [after.calls, simulates.calls]
  · rw [after.edited.agrees, simulates.edited.agrees]

theorem Read.settles (read : Read returns l) (enough : l.work ≤ n)
    (answer : l.received.foldlM (respond returns) ([.prompt], []) = some state) :
    Settled returns l.received (quiet returns n l.kernel) ↔
      (l.kernel.place.Retired → waiting l.kernel.devices.keyboard = []) := by
  by_cases retired : l.kernel.place.Retired
  · obtain ⟨place, same, calls, line⟩ := read.retired enough retired
    constructor
    · intro settled _
      rw [← same, settled.waiting]
    · intro none
      refine ⟨place, same.trans (none retired), ?_⟩
      obtain ⟨handled, split, result⟩ := read.followed
      have held : l.kernel.place.held = [] := by
        obtain here | here := retired <;> rw [here] <;> rfl
      rw [none retired, held, List.append_nil, List.append_nil] at split
      rw [← split, calls, line, result]
  · exact iff_of_true (read.settled enough retired answer) fun left => absurd left retired

/-- After any such run and with no more interrupts, the loop handles all that was received,
except if it had left `shell_update` while characters were waiting. -/
theorem shell_settles (returns : List ShellCall → Bool) (mouse : Mouse) (console : Console) (events : List Event)
    (roomy : EachStep Roomy (act returns) (start mouse console) events)
    (enough : (events.foldl (act returns) (start mouse console)).work ≤ n)
    (answer : (events.foldl (act returns) (start mouse console)).received.foldlM (respond returns) ([.prompt], []) =
      some state) :
    Settled returns (events.foldl (act returns) (start mouse console)).received
        (quiet returns n (events.foldl (act returns) (start mouse console)).kernel) ↔
      ((events.foldl (act returns) (start mouse console)).kernel.place.Retired →
        waiting (events.foldl (act returns) (start mouse console)).kernel.devices.keyboard = []) :=
  (read_of_run roomy).settles enough answer

/-- The key comes when the loop has seen no input and has not reached `hlt` yet: it stays in the
queue. -/
theorem shell_settles_late : ¬ Settled (fun _ => true) [0x61] (quiet (fun _ => true) 8
    ([Event.step, .interrupt keyA].foldl (act fun _ => true) untouched).kernel) := by
  have roomy : EachStep Roomy (act fun _ => true) untouched [.step, .interrupt keyA] :=
    eachStep_cons.mpr ⟨trivial, eachStep_cons.mpr ⟨fun _ => by decide, eachStep_nil⟩⟩
  have law := shell_settles (fun _ => true) _ _ _ roomy (by decide : _ ≤ 8) rfl
  intro settled
  exact absurd (law.mp settled (.inl rfl)) (by decide)

/-- The calls and the line behind a run of quiet steps. -/
theorem quiet_eq (returns : List ShellCall → Bool) (l : Ledger) (n : Nat) :
    (List.replicate n Event.step).foldl (act returns) l = ⟨quiet returns n l.kernel, l.received⟩ := by
  induction n generalizing l with
  | zero => rfl
  | succ n ih =>
    rw [List.replicate_succ, List.foldl_cons, ih]
    rfl

/-- Once the loop is in `hlt`, any interrupt makes it handle all that was received. -/
theorem shell_wakes (returns : List ShellCall → Bool) (mouse : Mouse) (console : Console) (events : List Event)
    (irq : Irq) (l : Ledger) (reached : l = events.foldl (act returns) (start mouse console))
    (rested : l.work ≤ k) (woken : Ledger)
    (run : woken = (List.replicate k Event.step ++ [Event.interrupt irq]).foldl (act returns) l)
    (roomy : EachStep Roomy (act returns) (start mouse console)
      (events ++ (List.replicate k Event.step ++ [Event.interrupt irq])))
    (enough : woken.work ≤ n)
    (answer : woken.received.foldlM (respond returns) ([.prompt], []) = some state) :
    Settled returns woken.received (quiet returns n woken.kernel) := by
  have before : EachStep Roomy (act returns) (start mouse console) events := by
    intro first event rest split
    exact roomy first event (rest ++ (List.replicate k Event.step ++ [Event.interrupt irq])) (by rw [split]; simp)
  have read : Read returns l := reached ▸ read_of_run before
  have readWoken : Read returns woken := by
    rw [run, reached, ← List.foldl_append]
    exact read_of_run roomy
  rw [List.foldl_append, quiet_eq, List.foldl_cons, List.foldl_nil] at run
  have asleep : (quiet returns k l.kernel).place = .asleep := by
    by_cases retired : l.kernel.place.Retired
    · exact (read.retired rested retired).1
    · have received : woken.received = l.received ++ typed irq := by rw [run]; rfl
      rw [received, List.foldlM_append] at answer
      obtain ⟨state, earlier, -⟩ := Option.bind_eq_some_iff.mp answer
      exact (read.settled rested retired earlier).place
  have awake : woken.kernel.place = .look := by
    rw [run]
    exact congrArg Place.wake asleep
  refine readWoken.settled enough ?_ answer
  rw [awake]
  rintro (here | here) <;> cases here

/-- The key comes when the loop is in `hlt`. -/
theorem shell_wakes_key : Settled (fun _ => true) [0x61] (quiet (fun _ => true) 8
    ((List.replicate 5 Event.step ++ [Event.interrupt keyA]).foldl (act fun _ => true) untouched).kernel) := by
  have roomy : EachStep Roomy (act fun _ => true) untouched
      (List.replicate 5 Event.step ++ [Event.interrupt keyA]) := by
    iterate 5 refine eachStep_cons.mpr ⟨trivial, ?_⟩
    exact eachStep_cons.mpr ⟨fun _ => by decide, eachStep_nil⟩
  exact shell_wakes (fun _ => true) _ _ [] keyA untouched rfl (by decide : _ ≤ 5) _ rfl roomy (by decide) rfl

end ZynthexOS.TypedLines
