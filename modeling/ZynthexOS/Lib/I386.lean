import ZynthexOS.Lib.Memory

/-! The few instructions of a 32-bit x86 processor that move words between
registers, memory and the stack and jump through a register. -/
namespace ZynthexOS.Lib.I386
open Lib.Memory

inductive Reg where
  | eax | ecx | edx | ebx | esp | ebp | esi | edi
  deriving DecidableEq, Repr

inductive Instr where
  /-- `mov dst, [base + disp]` -/
  | load (dst base : Reg) (disp : UInt32)
  /-- `mov [base + disp], src` -/
  | store (base : Reg) (disp : UInt32) (src : Reg)
  /-- `mov dst, src` -/
  | move (dst src : Reg)
  | pusha
  | popa
  | ret
  /-- `jmp target` -/
  | jump (target : Reg)
  deriving DecidableEq, Repr

/-- The registers, the instruction pointer where a jump has set it, and memory. -/
structure Machine where
  regs : Reg → UInt32
  eip : UInt32
  mem : Mem

/-- The word at an address. -/
def loadWord (mem : Mem) (a : UInt32) : UInt32 := UInt32.ofNat (readWord mem a.toNat)

def storeWord (mem : Mem) (a v : UInt32) : Mem := writeWord mem a.toNat v.toNat

def Machine.set (m : Machine) (r : Reg) (v : UInt32) : Machine :=
  { m with regs := fun q => if q = r then v else m.regs q }

@[simp] theorem Machine.set_same (m : Machine) (r : Reg) (v : UInt32) : (m.set r v).regs r = v :=
  if_pos rfl

@[simp] theorem Machine.set_ne (m : Machine) (v : UInt32) (ne : q ≠ r) :
    (m.set r v).regs q = m.regs q :=
  if_neg ne

@[simp] theorem Machine.set_mem (m : Machine) (r : Reg) (v : UInt32) : (m.set r v).mem = m.mem := rfl

/-- A word is pushed. -/
def Machine.push (m : Machine) (v : UInt32) : Machine :=
  { m.set .esp (m.regs .esp - 4) with mem := storeWord m.mem (m.regs .esp - 4) v }

/-- The word on top of the stack. -/
def Machine.top (m : Machine) : UInt32 := loadWord m.mem (m.regs .esp)

/-- A word is popped into a register, or skipped where that is the stack pointer. -/
def Machine.pop (m : Machine) (r : Reg) : Machine :=
  if r = .esp then m.set .esp (m.regs .esp + 4) else (m.set .esp (m.regs .esp + 4)).set r m.top

/-- The order in which `pusha` pushes; `popa` pops in the reverse order. -/
def pushOrder : List Reg := [.eax, .ecx, .edx, .ebx, .esp, .ebp, .esi, .edi]

def Instr.exec (m : Machine) : Instr → Machine
  | .load dst base disp => m.set dst (loadWord m.mem (m.regs base + disp))
  | .store base disp src => { m with mem := storeWord m.mem (m.regs base + disp) (m.regs src) }
  | .move dst src => m.set dst (m.regs src)
  | .pusha => pushOrder.foldl (fun m' r => m'.push (m.regs r)) m
  | .popa => pushOrder.reverse.foldl Machine.pop m
  | .ret => { m.set .esp (m.regs .esp + 4) with eip := m.top }
  | .jump target => { m with eip := m.regs target }

/-- Straight-line code. -/
def run (code : List Instr) (m : Machine) : Machine := code.foldl Instr.exec m

theorem run_append (first second : List Instr) (m : Machine) :
    run (first ++ second) m = run second (run first m) := List.foldl_append

/-! ## Memory and the stack -/

theorem loadWord_storeWord_same (mem : Mem) (a v : UInt32) : loadWord (storeWord mem a v) a = v := by
  rw [loadWord, storeWord, readWord_writeWord_same, wrap_of_lt v.toNat_lt, UInt32.ofNat_toNat]

theorem loadWord_storeWord_apart (apart : Apart a.toNat b.toNat) (mem : Mem) (v : UInt32) :
    loadWord (storeWord mem a v) b = loadWord mem b := by
  rw [loadWord, storeWord, readWord_writeWord_apart apart, loadWord]

/-- These words are on top of the stack. -/
def Machine.Stack (m : Machine) (ws : List UInt32) : Prop :=
  ∀ i (inside : i < ws.length), loadWord m.mem (m.regs .esp + .ofNat (4 * i)) = ws[i]

variable {m m' : Machine} {w a : UInt32} {ws : List UInt32} {r : Reg}

theorem Machine.Stack.congr (stack : m.Stack ws) (esp : m'.regs .esp = m.regs .esp)
    (mem : m'.mem = m.mem) : m'.Stack ws := by
  intro i inside
  rw [esp, mem]
  exact stack i inside

theorem Machine.Stack.top (stack : m.Stack (w :: ws)) : m.top = w := by
  have first := stack 0 (Nat.zero_lt_succ _)
  have start : m.regs .esp + .ofNat (4 * 0) = m.regs .esp := UInt32.add_zero _
  rwa [start] at first

/-- A store that hits none of the words. -/
theorem Machine.Stack.store (stack : m.Stack ws) (v : UInt32)
    (apart : ∀ i < ws.length, Apart a.toNat (m.regs .esp + .ofNat (4 * i)).toNat) :
    ({ m with mem := storeWord m.mem a v } : Machine).Stack ws := by
  intro i inside
  rw [← stack i inside]
  exact loadWord_storeWord_apart (apart i inside) _ _

theorem Machine.push_esp (m : Machine) (v : UInt32) : (m.push v).regs .esp = m.regs .esp - 4 := by
  simp only [Machine.push, Machine.set_same]

theorem Machine.Stack.push (stack : m.Stack ws) (short : ws.length < 2 ^ 29) (v : UInt32) :
    (m.push v).Stack (v :: ws) := by
  intro i inside
  have mem : (m.push v).mem = storeWord m.mem (m.regs .esp - 4) v := rfl
  rw [Machine.push_esp, mem]
  cases i with
  | zero =>
    have start : m.regs .esp - 4 + .ofNat (4 * 0) = m.regs .esp - 4 := UInt32.add_zero _
    rw [start]
    exact loadWord_storeWord_same ..
  | succ i =>
    have less : i < ws.length := Nat.lt_of_succ_lt_succ inside
    have next : m.regs .esp - 4 + .ofNat (4 * (i + 1)) = m.regs .esp + .ofNat (4 * i) := by
      have four : UInt32.ofNat 4 = 4 := rfl
      rw [Nat.mul_succ, UInt32.ofNat_add, four, UInt32.add_comm (.ofNat _), ← UInt32.add_assoc,
        UInt32.sub_add_cancel]
    rw [next, List.getElem_cons_succ, ← stack i less]
    apply loadWord_storeWord_apart
    have four : (4 : UInt32).toNat = 4 := rfl
    have offset : (UInt32.ofNat (4 * i)).toNat = 4 * i :=
      UInt32.toNat_ofNat_of_lt' (Nat.lt_of_lt_of_le (by omega : 4 * i < 2 ^ 31) (by decide))
    have size := (m.regs .esp).toNat_lt
    rw [UInt32.toNat_sub, UInt32.toNat_add, four, offset]
    omega

theorem Machine.pop_esp (m : Machine) (r : Reg) : (m.pop r).regs .esp = m.regs .esp + 4 := by
  rw [Machine.pop]
  split_ifs with skipped
  · exact Machine.set_same ..
  · rw [Machine.set_ne _ _ (Ne.symm skipped)]
    exact Machine.set_same ..

theorem Machine.Stack.pop (stack : m.Stack (w :: ws)) (r : Reg) : (m.pop r).Stack ws := by
  have mem : (m.pop r).mem = m.mem := by
    rw [Machine.pop]
    split_ifs <;> rfl
  intro i inside
  have next : m.regs .esp + 4 + .ofNat (4 * i) = m.regs .esp + .ofNat (4 * (i + 1)) := by
    have four : UInt32.ofNat 4 = 4 := rfl
    rw [Nat.mul_succ, UInt32.ofNat_add, four, UInt32.add_comm (.ofNat _), UInt32.add_assoc]
  rw [Machine.pop_esp, mem, next]
  exact stack (i + 1) (Nat.succ_lt_succ inside)

theorem Machine.Stack.popped (stack : m.Stack (w :: ws)) (real : r ≠ .esp) : (m.pop r).regs r = w := by
  rw [Machine.pop, if_neg real, Machine.set_same, stack.top]

theorem Machine.pop_ne (m : Machine) (other : q ≠ r) (real : q ≠ .esp) : (m.pop r).regs q = m.regs q := by
  rw [Machine.pop]
  split_ifs
  · exact Machine.set_ne _ _ real
  · rw [Machine.set_ne _ _ other, Machine.set_ne _ _ real]

/-! ## All registers at once -/

/-- Words pushed in turn. -/
theorem Machine.Stack.pushes {vs : List UInt32} (stack : m.Stack ws) (short : vs.length + ws.length < 2 ^ 29) :
    (vs.foldl Machine.push m).Stack (vs.reverse ++ ws) := by
  induction vs generalizing m ws with
  | nil => exact stack
  | cons v vs ih =>
    rw [List.length_cons] at short
    rw [List.foldl_cons, List.reverse_cons, List.append_assoc]
    exact ih (stack.push (by omega) v) (by rw [List.singleton_append, List.length_cons]; omega)

theorem pusha_eq (m : Machine) :
    Instr.pusha.exec m = (pushOrder.map m.regs).foldl Machine.push m := List.foldl_map.symm

theorem pushes_esp (vs : List UInt32) (m : Machine) :
    (vs.foldl Machine.push m).regs .esp + .ofNat (4 * vs.length) = m.regs .esp := by
  induction vs generalizing m with
  | nil => exact UInt32.add_zero _
  | cons v vs ih =>
    have four : UInt32.ofNat 4 = 4 := rfl
    rw [List.foldl_cons, List.length_cons, Nat.mul_succ, UInt32.ofNat_add, ← UInt32.add_assoc, ih,
      Machine.push_esp, four, UInt32.sub_add_cancel]

/-- Words popped in turn. -/
theorem Machine.Stack.pops {rs : List Reg} {f : Reg → UInt32} (stack : m.Stack (rs.map f ++ ws))
    (distinct : rs.Nodup) : (rs.foldl Machine.pop m).Stack ws ∧
      ∀ r, r ≠ .esp → (rs.foldl Machine.pop m).regs r = if r ∈ rs then f r else m.regs r := by
  induction rs generalizing m with
  | nil => exact ⟨stack, fun r _ => (if_neg List.not_mem_nil).symm⟩
  | cons q rs ih =>
    obtain ⟨other, distinct⟩ := List.nodup_cons.mp distinct
    obtain ⟨rest, values⟩ := ih (stack.pop q) distinct
    refine ⟨rest, fun r real => (values r real).trans ?_⟩
    by_cases same : r = q
    · subst same
      rw [if_neg other, if_pos List.mem_cons_self, stack.popped real]
    · rw [Machine.pop_ne m same real]
      simp only [List.mem_cons, same, false_or]

theorem pops_esp (rs : List Reg) (m : Machine) :
    (rs.foldl Machine.pop m).regs .esp = m.regs .esp + .ofNat (4 * rs.length) := by
  induction rs generalizing m with
  | nil => exact (UInt32.add_zero _).symm
  | cons r rs ih =>
    have four : UInt32.ofNat 4 = 4 := rfl
    rw [List.foldl_cons, ih, Machine.pop_esp, List.length_cons, Nat.mul_succ, UInt32.ofNat_add, four,
      UInt32.add_comm (.ofNat _), UInt32.add_assoc]

/-- `popa` brings back what `pusha` has pushed, if the words are still on top of the stack. -/
theorem popa_pusha (esp : m'.regs .esp = (Instr.pusha.exec m).regs .esp)
    (kept : m'.Stack ((pushOrder.map m.regs).reverse ++ ws)) :
    (Instr.popa.exec m').Stack ws ∧ (Instr.popa.exec m').regs = m.regs := by
  rw [← List.map_reverse] at kept
  obtain ⟨stack, values⟩ := kept.pops (by decide)
  refine ⟨stack, funext fun r => ?_⟩
  by_cases real : r = .esp
  · subst real
    have back := pushes_esp (pushOrder.map m.regs) m
    rw [← pusha_eq, ← esp] at back
    exact (pops_esp _ m').trans back
  · have member : r ∈ pushOrder.reverse := by cases r <;> decide
    exact (values r real).trans (if_pos member)

end ZynthexOS.Lib.I386
