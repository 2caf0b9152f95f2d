import ZynthexOS.Lib.Interrupts

/-! `boot/isr_stubs.s`, `boot/isr_common_stub.s` and `boot/syscall_entry.s`, each up to its
`iretd`. -/
namespace ZynthexOS.Boot
open Lib.I386 Lib.Interrupts

/-- `isr_common_stub`. -/
def isrCommonStub : Stub where
  before := [ .instr .pusha
              , .instr (.load .eax .esp 32)
              , .instr (.load .ebx .esp 36)
              , .push .ebx
              , .push .eax ]
  behind := [ .addEsp 8, .instr .popa, .addEsp 8 ]

/-- Words pushed in front of `jmp isr_common_stub`. -/
def pushing (words : List UInt32) : Stub :=
  { isrCommonStub with before := words.map Op.pushWord ++ isrCommonStub.before }

/-- `ISR_NOERR` and `ISR_ERR`. -/
def isrNoErr (n : UInt32) : Stub := pushing [0, n]

def isrErr (n : UInt32) : Stub := pushing [n]

/-- `IRQ`. -/
def irqStub (number : UInt32) : Stub := pushing [0, number]

/-- The stubs declared with `ISR_ERR`. -/
def errorCodes : List Nat := [8, 10, 11, 12, 13, 14, 17]

/-- `isr0` to `isr31`. -/
def isr (n : Nat) : Stub := if n ∈ errorCodes then isrErr (.ofNat n) else isrNoErr (.ofNat n)

/-- `irq0` to `irq15`. -/
def irq (n : Nat) : Stub := irqStub (.ofNat (32 + n))

/-- `syscall_entry`. -/
def syscallEntry : Stub where
  before := [ .instr .pusha, .push .edx, .push .ecx, .push .ebx, .push .eax ]
  behind := [ .addEsp 16, .instr .popa ]

end ZynthexOS.Boot
