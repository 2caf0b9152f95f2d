import ZynthexOS.InterruptAccounting
import ZynthexOS.Lib.Controllers
import Mathlib.Data.List.Induction

/-! Interrupts from a device to its handler and back. `pic_remap` gives the sixteen lines the
numbers from 32 on and keeps the masks it finds; what the handlers write to the controllers,
twice for the keyboard and the mouse, leaves nothing in service behind them. -/
namespace ZynthexOS.InterruptDelivery
open ZynthexOS.Core Drivers Lib.Controllers InterruptAccounting

/-- What a handler reads from the ports of its device. -/
structure Ports where
  scancode : UInt8
  status : UInt8
  data : UInt8

/-- Between handlers, or in one that will still write to the controllers. A number without a
handler of a hardware interrupt leads elsewhere. -/
inductive Phase where
  | free
  | handling (writes : List Outb)
  | lost

/-- The controllers, the drivers, and for each line how often it has made a request, for each
number how often the processor has got it. -/
structure Board where
  pair : Pair
  devices : Devices
  phase : Phase
  raised : Nat → Nat
  delivered : Nat → Nat

/-- A device makes a request; the processor takes an interrupt, maybe one whose request has gone;
the handler goes on to its next write, or ends. -/
inductive Event where
  | request (line : { line // Device line })
  | accept (ports : Ports)
  | spurious (slave : Bool) (ports : Ports)
  | write

/-- What an effect writes to a port. -/
def writeOf : Effect → Option Outb
  | .outb write => some write
  | _ => none

/-- `isr_handler` is entered; `scheduler_tick` comes back. -/
def Board.enter (b : Board) (number : Nat) (ports : Ports) (pair : Pair) : Board :=
  if inside : 32 ≤ number ∧ number ≤ 47 then
    let (devices, effects, _) :=
      isrHandlerIrq b.devices ⟨number, inside, ports.scancode, ports.status, ports.data, true⟩
    { b with pair := pair, devices := devices, phase := .handling (effects.filterMap writeOf) }
  else { b with pair := pair, phase := .lost }

def step (b : Board) : Event → Board
  | .request line =>
    if b.pair.requested line then b
    else
      { b with
        pair := b.pair.request line
        raised := Function.update b.raised line (b.raised line + 1) }
  | .accept ports =>
    match b.phase, b.pair.acknowledge with
    | .free, some (number, pair) =>
      { b.enter number ports pair with
        delivered := Function.update b.delivered number (b.delivered number + 1) }
    | _, _ => b
  | .spurious slave ports =>
    match b.phase with
    | .free => b.enter (b.pair.spurious slave).1 ports (b.pair.spurious slave).2
    | _ => b
  | .write =>
    match b.phase with
    | .handling (write :: writes) =>
      { b with pair := b.pair.outb write.port write.value, phase := .handling writes }
    | .handling [] => { b with phase := .free }
    | _ => b

/-- The writes as the controllers get them. -/
def portBytes (writes : List Outb) : List (UInt16 × UInt8) := writes.map fun write => (write.port, write.value)

/-- The controllers behind `pic_remap`. -/
def remapped (p : Pair) : Pair := p.outs (portBytes (picRemap p.master.mask p.slave.mask))

/-- The board behind `pic_remap`, when the processor begins to take interrupts. -/
def booted (p : Pair) (devices : Devices) : Board := ⟨remapped p, devices, .free, fun _ => 0, fun _ => 0⟩

/-! ## The initialization -/

variable {p : Pair} {b : Board} {writes : List Outb}

theorem remapped_wired (p : Pair) : (remapped p).Wired 32 where
  low := (by decide : (0x20 : UInt8).toNat / 8 * 8 = 32)
  high := (by decide : (0x28 : UInt8).toNat / 8 * 8 = 40)
  line n := by
    have wiring : (remapped p).master.wiring.toNat = 2 ^ 2 := rfl
    rw [wiring, Nat.testBit_two_pow]
    simp [eq_comm]
  cascade := (by decide : (2 : UInt8).toNat % 8 = 2)

/-! ## The writes of a handler -/

/-- The writes still to come put all out of service, and between handlers nothing is. -/
def Settled : Phase → Pair → Prop
  | .free, p => p.Free
  | .handling writes, p => (∀ write ∈ portBytes writes, IsEnd write) ∧ (p.outs (portBytes writes)).Free
  | .lost, _ => False

theorem isEnd_endsOf (line : Nat) : ∀ write ∈ endsOf line, IsEnd write := by
  unfold endsOf IsEnd
  split_ifs <;> simp

/-- A handler ends the interrupt of its line, and that of the keyboard and of the mouse twice. -/
theorem acknowledgements_ends (small : line < 16) : ∃ more, (∀ write ∈ more, IsEnd write) ∧
    portBytes (acknowledgements (32 + line)) = endsOf line ++ more := by
  have all : ∀ line < 16, portBytes (acknowledgements (32 + line)) =
      endsOf line ++ if line = 1 ∨ line = 12 then endsOf line else [] := by decide
  refine ⟨_, fun write member => ?_, all line small⟩
  split_ifs at member
  · exact isEnd_endsOf line write member
  · exact absurd member List.not_mem_nil

theorem isrHandlerIrq_writes (s : Devices) (irq : Irq) (resumes : irq.resumes = true) :
    (isrHandlerIrq s irq).2.1.filterMap writeOf = acknowledgements irq.number := by
  have writes : ∀ writes : List Outb, (writes.map Effect.outb).filterMap writeOf = writes := by
    intro writes
    rw [List.filterMap_map]
    exact List.filterMap_some
  rw [isrHandlerIrq_effects, resumes, if_pos rfl]
  split_ifs <;> exact writes _

/-- A handler is entered for one of the sixteen numbers. -/
theorem Board.enter_handling (b : Board) (small : line < 16) (ports : Ports) (pair : Pair) :
    ∃ devices, b.enter (32 + line) ports pair =
      { b with pair := pair, devices := devices, phase := .handling (acknowledgements (32 + line)) } := by
  have inside : 32 ≤ 32 + line ∧ 32 + line ≤ 47 := by omega
  rw [Board.enter, dif_pos inside]
  dsimp only
  rw [isrHandlerIrq_writes _ _ rfl]
  exact ⟨_, rfl⟩

/-! ## Runs -/

/-- What every run keeps. -/
structure Sound (p : Pair) (b : Board) : Prop where
  same : (remapped p).Same b.pair
  settled : Settled b.phase b.pair
  counted : ∀ line, Device line →
    b.raised line = b.delivered (32 + line) + if b.pair.requested line then 1 else 0
  only : ∀ number, b.delivered number ≠ 0 → ∃ line, Device line ∧ number = 32 + line

theorem Sound.wired (sound : Sound p b) : b.pair.Wired 32 := (remapped_wired p).same sound.same

theorem sound_booted (free : p.Free) (devices : Devices) : Sound p (booted p devices) where
  same := .refl _
  settled := ⟨free.master, free.slave⟩
  counted line _ := by
    have none : (remapped p).requested line = false := by
      unfold Pair.requested
      split <;> rfl
    simp [booted, none]
  only number some := absurd rfl some

theorem Sound.request (sound : Sound p b) (line : { line // Device line }) :
    Sound p (step b (.request line)) := by
  unfold step
  dsimp only
  split_ifs with asked
  · exact sound
  · refine ⟨sound.same.trans (Pair.same_request _ _), ?_, fun other device => ?_, sound.only⟩
    · have settled := sound.settled
      revert settled
      dsimp only
      cases b.phase with
      | free => exact fun settled => settled.request line
      | handling writes => exact fun settled => ⟨settled.1, settled.2.request_outs settled.1 line⟩
      | lost => exact id
    · have counted := sound.counted other device
      dsimp only
      rw [Pair.requested_request, Function.update_apply]
      by_cases same : other = line
      · rw [same] at counted ⊢
        rw [if_pos rfl, if_pos rfl, if_pos rfl, counted, if_neg asked]
      · rwa [if_neg same, if_neg same]

/-- The processor takes the next line, and its handler is entered. -/
theorem Sound.accept (sound : Sound p b) (ports : Ports) : Sound p (step b (.accept ports)) := by
  have settled := sound.settled
  unfold step
  dsimp only
  cases phase : b.phase with
  | handling writes => exact sound
  | lost => exact sound
  | free =>
    rw [phase] at settled
    have taken := Pair.acknowledge_spec settled sound.wired
    cases acknowledged : b.pair.acknowledge with
    | none => exact sound
    | some result =>
      obtain ⟨number, pair⟩ := result
      rw [acknowledged] at taken
      obtain ⟨line, next, rfl, rfl⟩ := taken
      have small := next.asks.device.1
      obtain ⟨devices, entered⟩ := b.enter_handling small ports (b.pair.serve line)
      obtain ⟨more, ends, writes⟩ := acknowledgements_ends small
      dsimp only
      rw [entered]
      refine ⟨sound.same.trans (Pair.same_serve _ _), ?_, fun other device => ?_, fun number some => ?_⟩
      · dsimp only [Settled]
        rw [writes]
        refine ⟨fun write member => ?_, settled.ends small ends⟩
        exact (List.mem_append.mp member).elim (isEnd_endsOf line write) (ends write)
      · have counted := sound.counted other device
        dsimp only
        rw [Pair.requested_serve _ _ device, Function.update_apply]
        by_cases same : other = line
        · subst same
          rw [if_pos rfl, if_pos rfl, counted, next.asks.requested]
          rfl
        · rw [if_neg (by omega), if_neg same]
          exact counted
      · dsimp only at some
        by_cases here : number = 32 + line
        · exact ⟨line, next.asks.device, here⟩
        · rw [Function.update_of_ne here] at some
          exact sound.only number some

/-- So it is for an interrupt without a request. -/
theorem Sound.spurious (sound : Sound p b) (slave : Bool) (ports : Ports) :
    Sound p (step b (.spurious slave ports)) := by
  have settled := sound.settled
  have wired := sound.wired
  unfold step
  dsimp only
  cases phase : b.phase with
  | handling writes => exact sound
  | lost => exact sound
  | free =>
    rw [phase] at settled
    obtain ⟨number, same⟩ := Pair.spurious_spec wired slave
    have small : (if slave then 15 else 7) < 16 := by split <;> decide
    obtain ⟨devices, entered⟩ := b.enter_handling small ports (b.pair.spurious slave).2
    obtain ⟨more, ends, writes⟩ := acknowledgements_ends small
    dsimp only
    rw [number, entered]
    refine ⟨sound.same.trans same, ?_, fun other device => ?_, sound.only⟩
    · dsimp only [Settled]
      rw [writes]
      refine ⟨fun write member => ?_, settled.ends_spurious wired slave ends⟩
      exact (List.mem_append.mp member).elim (isEnd_endsOf _ write) (ends write)
    · rw [Pair.spurious_requested _ slave device]
      exact sound.counted other device

theorem Sound.write (sound : Sound p b) : Sound p (step b .write) := by
  have settled := sound.settled
  unfold step
  dsimp only
  cases phase : b.phase with
  | free => exact sound
  | lost => exact sound
  | handling writes =>
    rw [phase] at settled
    obtain ⟨ends, free⟩ := settled
    cases writes with
    | nil => exact ⟨sound.same, free, sound.counted, sound.only⟩
    | cons write writes =>
      have isEnd := ends _ List.mem_cons_self
      refine ⟨sound.same.trans (Pair.same_outb isEnd), ⟨fun w member => ends w (List.mem_cons_of_mem _ member), free⟩,
        fun line device => ?_, sound.only⟩
      dsimp only
      rw [Pair.outb_requested isEnd]
      exact sound.counted line device

theorem sound_step (sound : Sound p b) (event : Event) : Sound p (step b event) := by
  cases event with
  | request line => exact sound.request line
  | accept ports => exact sound.accept ports
  | spurious slave ports => exact sound.spurious slave ports
  | write => exact sound.write

theorem sound_run (free : p.Free) (devices : Devices) (events : List Event) :
    Sound p (events.foldl step (booted p devices)) := by
  induction events using List.reverseRecOn with
  | nil => exact sound_booted free devices
  | append_singleton events event ih =>
    rw [List.foldl_append]
    exact sound_step ih event

/-- A handler comes to its end. -/
theorem Sound.returns (sound : Sound p b) :
    ∃ n, ((List.replicate n Event.write).foldl step b).phase = .free := by
  cases phase : b.phase with
  | free => exact ⟨0, phase⟩
  | lost =>
    have settled := sound.settled
    rw [phase] at settled
    exact settled.elim
  | handling writes =>
    clear sound
    refine ⟨writes.length + 1, ?_⟩
    induction writes generalizing b with
    | nil => simp [step, phase]
    | cons write writes ih =>
      rw [List.length_cons, List.replicate_succ, List.foldl_cons]
      refine ih ?_
      simp [step, phase]

/-- What a run does with the requests of the devices. -/
structure Delivers (p : Pair) (b : Board) : Prop where
  /-- The masks are those that were there before. -/
  masks : b.pair.master.mask = p.master.mask ∧ b.pair.slave.mask = p.slave.mask
  /-- Each request has been delivered once under the number of its line, or waits. -/
  once : ∀ line, Device line →
    b.raised line = b.delivered (32 + line) + if b.pair.requested line then 1 else 0
  /-- No other number has been delivered. -/
  only : ∀ number, b.delivered number ≠ 0 → ∃ line, Device line ∧ number = 32 + line
  /-- Each handler returns and leaves nothing in service. -/
  returns : ∃ n, ((List.replicate n Event.write).foldl step b).phase = .free
  free : b.phase = .free → b.pair.Free
  /-- Between handlers the processor can take the request of highest priority that is not masked. -/
  next : b.phase = .free → match b.pair.acknowledge with
    | some (number, _) => ∃ line, b.pair.Next line ∧ number = 32 + line
    | none => ∀ line, ¬ b.pair.Asks line

/-- In every run after `pic_remap`, in whatever order devices make requests and the processor
takes them or takes spurious interrupts, between the writes of a handler as well, each request
is delivered once under its number, and nothing left in service holds back another one. -/
theorem interrupts_delivered (p : Pair) (free : p.Free) (devices : Devices) (events : List Event) :
    Delivers p (events.foldl step (booted p devices)) := by
  have sound := sound_run free devices events
  generalize events.foldl step (booted p devices) = b at sound
  have settled := sound.settled
  refine ⟨⟨sound.same.master.mask, sound.same.slave.mask⟩, sound.counted, sound.only, sound.returns,
    fun phase => ?_, fun phase => ?_⟩
  · rw [phase] at settled
    exact settled
  · rw [phase] at settled
    have taken := Pair.acknowledge_spec settled sound.wired
    cases acknowledged : b.pair.acknowledge with
    | none => rwa [acknowledged] at taken
    | some result =>
      rw [acknowledged] at taken
      obtain ⟨line, next, number, -⟩ := taken
      exact ⟨line, next, number⟩

/-- Controllers as the firmware leaves them, with the numbers that the processor has for
exceptions, the lines of the timer, the keyboard and the slave open. -/
def firmware : Pair where
  master := ⟨.mask, 0x08, 4, 1, 0xF8, fun _ => false, fun _ => false⟩
  slave := ⟨.mask, 0x70, 2, 1, 0xEF, fun _ => false, fun _ => false⟩

/-- The mouse and the timer ask while the keyboard is handled, and the timer is taken first. -/
theorem interrupts_delivered_firmware : Delivers firmware
    ([.request ⟨1, by decide⟩, .accept ⟨0x1E, 0, 0⟩, .request ⟨12, by decide⟩, .write, .request ⟨0, by decide⟩,
      .write, .write, .accept ⟨0, 0, 0⟩].foldl step
      (booted firmware ⟨keyboardStart, ⟨fun _ => ⟨0, 0, 0, 0⟩, 0, 0, fun _ => 0, 0, false⟩⟩)) :=
  interrupts_delivered firmware ⟨fun _ => rfl, fun _ => rfl⟩ _ _

end ZynthexOS.InterruptDelivery
