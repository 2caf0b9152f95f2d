import ZynthexOS.Boot.TaskSwitch

/-! `boot/context_switch.s`. A `cpu_context_t` is eight words: EDI, ESI, EBP, ESP, EBX, EDX,
ECX and EAX. -/
namespace ZynthexOS.Boot
open Lib.I386

/-- `context_switch`. -/
def contextSwitch : List Instr :=
  [ .pusha
    , .load .eax .esp 36
    , .store .eax 0 .edi
    , .store .eax 4 .esi
    , .store .eax 8 .ebp
    , .store .eax 12 .esp
    , .store .eax 16 .ebx
    , .store .eax 20 .edx
    , .store .eax 24 .ecx
    , .store .eax 28 .eax
    , .load .eax .esp 40
    , .load .edi .eax 0
    , .load .esi .eax 4
    , .load .ebp .eax 8
    , .load .ebx .eax 16
    , .load .edx .eax 20
    , .load .ecx .eax 24
    , .load .eax .eax 28
    , .popa
    , .ret ]

end ZynthexOS.Boot
