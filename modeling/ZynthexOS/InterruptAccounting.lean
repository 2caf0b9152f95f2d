import ZynthexOS.Core.Irq
import Mathlib.Data.List.Count
import Mathlib.Tactic.IntervalCases

/-! What an interrupt calls and how often it is acknowledged. Every hardware interrupt
calls `scheduler_tick`, and those of the keyboard and the mouse are acknowledged by
the driver and by `isr_handler`. -/
namespace ZynthexOS.InterruptAccounting
open ZynthexOS.Core Drivers

/-- The timer and the scheduler tick at interrupt 32 and at no other, and an interrupt
that returns was acknowledged once where it came from. -/
structure Accounted (irq : Irq) (effects : List Effect) (returned : Bool) : Prop where
  timer : effects.count .timerTick = if irq.number = 32 then 1 else 0
  scheduler : effects.count .schedulerTick = if irq.number = 32 then 1 else 0
  master : returned = true → effects.count (.outb masterEoi) = 1
  slave : returned = true → effects.count (.outb slaveEoi) = if 40 ≤ irq.number then 1 else 0

/-- Every interrupt of a sequence is accounted for. -/
def AllAccounted (s : Devices) : List Irq → Prop
  | [] => True
  | irq :: irqs =>
    let (s', effects, returned) := isrHandlerIrq s irq
    Accounted irq effects returned ∧ AllAccounted s' irqs

/-! ## What one interrupt does -/

/-- What is written to the ports, whatever the devices hold. -/
def acknowledgements (number : Nat) : List Outb :=
  if number = 33 then picSendEoi 1 ++ picSendEoi 1
  else if number = 44 then picSendEoi 12 ++ picSendEoi 12
  else picSendEoi (.ofNat (number - 32))

theorem keyboardIrqHandler_outb (s : Keyboard) (scancode : UInt8) :
    (keyboardIrqHandler s scancode).2 = picSendEoi 1 := by
  rw [keyboardIrqHandler]
  split_ifs <;> rfl

theorem isrHandlerRest_effects (s : Devices) (irq : Irq) :
    (isrHandlerRest s irq).2 = (acknowledgements irq.number).map .outb := by
  have noSyscall : irq.number ≠ 0x80 := by
    have inside := irq.inside
    omega
  simp only [isrHandlerRest, acknowledgements, noSyscall, if_false]
  split_ifs
  · exact congrArg (fun writes => (writes ++ picSendEoi 1).map Effect.outb) (keyboardIrqHandler_outb _ _)
  · exact congrArg (fun writes => (writes ++ picSendEoi 12).map Effect.outb) (mouseIrqHandler_outb _ _ _)
  · rfl

theorem isrHandlerIrq_effects (s : Devices) (irq : Irq) : (isrHandlerIrq s irq).2 =
    ((if irq.number = 32 then [.timerTick] else []) ++ [.schedulerTick] ++
      (if irq.resumes then (acknowledgements irq.number).map .outb else []), irq.resumes) := by
  rw [isrHandlerIrq]
  cases irq.resumes with
  | true =>
    simp only [if_true]
    rw [isrHandlerRest_effects]
  | false => simp

theorem count_timerTick (s : Devices) (irq : Irq) :
    (isrHandlerIrq s irq).2.1.count .timerTick = if irq.number = 32 then 1 else 0 := by
  rw [isrHandlerIrq_effects]
  cases irq.resumes <;> by_cases timer : irq.number = 32 <;> simp [timer, List.count_eq_zero]

/-- `scheduler_tick` is called once by every interrupt. -/
theorem count_schedulerTick (s : Devices) (irq : Irq) :
    (isrHandlerIrq s irq).2.1.count .schedulerTick = 1 := by
  rw [isrHandlerIrq_effects]
  cases irq.resumes <;> by_cases timer : irq.number = 32 <;> simp [timer, List.count_eq_zero]

theorem count_outb (s : Devices) (irq : Irq) (write : Outb) (returned : (isrHandlerIrq s irq).2.2 = true) :
    (isrHandlerIrq s irq).2.1.count (.outb write) = (acknowledgements irq.number).count write := by
  rw [isrHandlerIrq_effects] at returned ⊢
  have injective : Function.Injective Effect.outb := fun _ _ same => Effect.outb.inj same
  have ticks : (if irq.number = 32 then [Effect.timerTick] else []).count (.outb write) = 0 := by
    split_ifs <;> simp
  dsimp only at returned
  simp only [returned, if_true, List.count_append, ticks, List.count_map_of_injective _ _ injective]
  simp

/-- The acknowledgements are right except for the keyboard and the mouse. -/
theorem acknowledgements_once (low : 32 ≤ number) (high : number ≤ 47) :
    ((acknowledgements number).count masterEoi = 1 ∧
      (acknowledgements number).count slaveEoi = if 40 ≤ number then 1 else 0) ↔
      number ≠ 33 ∧ number ≠ 44 := by
  interval_cases number <;> decide +revert

/-- The timer's interrupt is accounted for, and no other is. -/
theorem accounted_iff (s : Devices) (irq : Irq) :
    Accounted irq (isrHandlerIrq s irq).2.1 (isrHandlerIrq s irq).2.2 ↔ irq.number = 32 := by
  constructor
  · intro accounted
    by_contra other
    have once := accounted.scheduler
    rw [count_schedulerTick, if_neg other] at once
    exact Nat.one_ne_zero once
  · intro timer
    have once := (acknowledgements_once irq.inside.1 irq.inside.2).mpr (by omega)
    refine ⟨count_timerTick s irq, ?_, fun returned => ?_, fun returned => ?_⟩
    · rw [count_schedulerTick, if_pos timer]
    · rw [count_outb s irq _ returned, once.1]
    · rw [count_outb s irq _ returned, once.2]

/-- Every interrupt of a sequence is accounted for exactly if all of them are the
timer's. -/
theorem interrupts_accounted (s : Devices) (irqs : List Irq) :
    AllAccounted s irqs ↔ ∀ irq ∈ irqs, irq.number = 32 := by
  induction irqs generalizing s with
  | nil => simp [AllAccounted]
  | cons irq irqs ih =>
    rw [List.forall_mem_cons, ← accounted_iff s irq, ← ih (isrHandlerIrq s irq).1]
    rfl

/-- The keyboard's interrupt ticks the scheduler and is acknowledged twice. -/
theorem keyboard_unaccounted :
    ¬ AllAccounted ⟨keyboardStart, ⟨fun _ => ⟨0, 0, 0, 0⟩, 0, 0, fun _ => 0, 0, false⟩⟩
      [⟨33, by decide, 0x1E, 0, 0, true⟩] := by
  rintro ⟨accounted, -⟩
  have once := accounted.master rfl
  revert once
  decide

end ZynthexOS.InterruptAccounting
