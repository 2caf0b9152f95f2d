import Mathlib.Data.Nat.Digits.Lemmas
import ZynthexOS.Shell.Calc
import ZynthexOS.ShellBuffers

/-! What `calc` computes. Sums, differences and products that fit are printed; the case of
the division returns before anything is printed, and its guard lets one division pass that
the processor refuses. -/
namespace ZynthexOS.Calculator
open Text Shell

/-- The canonical numeral of a number: its digits, with a leading zero only for 0. -/
structure Numeral (s : CString) (n : Nat) : Prop where
  digits : ∀ c ∈ s, IsDigit c
  denotes : decimal s = n
  nonempty : s ≠ []
  canonical : 1 < s.length → s.head? ≠ some (cchar '0' (by decide))

inductive Operator where
  | plus
  | minus
  | times
  | divide
  deriving DecidableEq, Repr

/-- The character of an operator. -/
def Operator.char : Operator → CChar
  | .plus => Shell.plus
  | .minus => Shell.minus
  | .times => Shell.star
  | .divide => Text.slash

/-- What it means for integers: the quotient is rounded down. -/
def Operator.exact (a b : Int) : Operator → Int
  | .plus => a + b
  | .minus => a - b
  | .times => a * b
  | .divide => a / b

/-- `calc` prints the numeral of a number, and a newline. -/
def PrintsNumber (s : ShellState) (argv : List CString) (n : Nat) : Prop :=
  ∃ text, Numeral text n ∧
    cmdCalc s argv = .ok { s with screen := s.screen ++ [text, cstring "\n"] }

/-- `calc` comes back to the shell. -/
def Returns (s : ShellState) (argv : List CString) : Prop := ∃ s', cmdCalc s argv = .ok s'

/-- The text is a division of the smallest `int` by -1, as `atoi` reads them. -/
def Overflows (x operator y : CString) : Prop :=
  operator.head? = some slash ∧ decimal (x.takeWhile (IsDigit ·)) % 2 ^ 32 = 2 ^ 31 ∧
    decimal (y.takeWhile (IsDigit ·)) % 2 ^ 32 = 2 ^ 32 - 1

/-! ## Numerals -/

/-- What stands for the digits of a positive number, the first one first. -/
theorem numeral_digits (positive : n ≠ 0)
    (bytes : s.map (·.val.toNat) = (Nat.digits 10 n).reverse.map (48 + ·)) : Numeral s n := by
  have values : s.map (fun c => c.val.toNat - 48) = (Nat.digits 10 n).reverse := by
    have less := congrArg (List.map (· - 48)) bytes
    simpa [List.map_map, Function.comp_def] using less
  refine ⟨fun c member => ?_, ?_, ?_, fun _ zero => ?_⟩
  · have byte := List.mem_map_of_mem (f := (·.val.toNat)) member
    rw [bytes, List.mem_map] at byte
    obtain ⟨d, digit, same⟩ := byte
    have small : d < 10 := Nat.digits_lt_base (by decide) (List.mem_reverse.mp digit)
    rw [isDigit_iff]
    omega
  · rw [decimal, values, List.reverse_reverse, Nat.ofDigits_digits]
  · rintro rfl
    exact positive (Nat.digits_eq_nil_iff_eq_zero.mp (by simpa using values.symm))
  · have nonempty : Nat.digits 10 n ≠ [] := Nat.digits_ne_nil_iff_ne_zero.mpr positive
    have leading := congrArg List.head? values
    rw [List.head?_map, zero, List.head?_reverse, List.getLast?_eq_some_getLast nonempty] at leading
    exact Nat.getLast_digit_ne_zero 10 positive (Option.some.inj leading).symm

theorem utoaDigit_decimal : ∀ d < 10, (utoaDigit (.ofNat d)).toNat = 48 + d := by decide

/-- `utoa` with base 10 stores the canonical numeral. -/
theorem numeral_utoa (text : s.map Subtype.val = utoa value 10) : Numeral s value.toNat := by
  by_cases zero : value = 0
  · rw [utoa, if_pos zero] at text
    have here : s = [cchar '0' (by decide)] :=
      List.map_injective_iff.mpr Subtype.val_injective text
    rw [here, zero]
    exact ⟨by decide +kernel, rfl, by simp, by simp⟩
  · have positive : value.toNat ≠ 0 := fun same => zero (UInt32.toNat_inj.mp same)
    rw [utoa, if_neg zero, utoaDigits_eq 10 value (by decide) value.toNat_lt, ← List.map_reverse] at text
    apply numeral_digits positive
    calc s.map (·.val.toNat) = (s.map Subtype.val).map (·.toNat) := by rw [List.map_map]; rfl
      _ = (Nat.digits 10 value.toNat).reverse.map (48 + ·) := by
        rw [text, List.map_map]
        refine List.map_congr_left fun d digit => ?_
        exact utoaDigit_decimal d (Nat.digits_lt_base (by decide) (List.mem_reverse.mp digit))

/-- A string in a buffer. -/
theorem bufferString_val (proper : ∀ c ∈ buffer, c ≠ 0) :
    (bufferString buffer).map Subtype.val = buffer := by
  induction buffer with
  | nil => rfl
  | cons c buffer ih =>
    rw [bufferString, dif_pos (proper c List.mem_cons_self), List.map_cons,
      ih fun d member => proper d (List.mem_cons_of_mem _ member)]

theorem utoa_nonzero (member : c ∈ utoa value 10) : c ≠ 0 := by
  rw [utoa] at member
  split at member
  · rw [List.mem_singleton.mp member]
    decide
  · rw [utoaDigits_eq 10 value (by decide) value.toNat_lt, List.mem_reverse, List.mem_map] at member
    obtain ⟨d, digit, rfl⟩ := member
    have small := utoaDigit_decimal d (Nat.digits_lt_base (by decide) digit)
    rintro zero
    rw [zero] at small
    simp at small
    omega

/-- What `calc` prints. -/
theorem numeral_printed : Numeral (bufferString (utoa value 10)) value.toNat :=
  numeral_utoa (bufferString_val fun _ => utoa_nonzero)

/-! ## The operators -/

theorem plus_exact (fits : a + b < 2 ^ 32) :
    (Int32.ofNat a + .ofNat b).toUInt32.toNat = a + b := by
  rw [← Int32.ofNat_add, Int32.toUInt32_ofNat', UInt32.toNat_ofNat_of_lt' fits]

theorem minus_exact (bound : b ≤ a) (fits : a - b < 2 ^ 32) :
    (Int32.ofNat a - .ofNat b).toUInt32.toNat = a - b := by
  rw [← Int32.ofNat_sub a b bound, Int32.toUInt32_ofNat', UInt32.toNat_ofNat_of_lt' fits]

theorem times_exact (fits : a * b < 2 ^ 32) :
    (Int32.ofNat a * .ofNat b).toUInt32.toNat = a * b := by
  rw [← Int32.ofNat_mul, Int32.toUInt32_ofNat', UInt32.toNat_ofNat_of_lt' fits]

/-- What is stored to `result` by the cases that do not return. -/
def stored (op : CChar) (a b : Int32) : UInt32 :=
  if op = plus then (a + b).toUInt32
  else if op = minus then (a - b).toUInt32
  else if op = star then (a * b).toUInt32
  else 0

theorem prints_stored (other : op ≠ slash) :
    PrintsNumber s [name, x, op :: rest, y] (stored op (atoi x) (atoi y)).toNat := by
  refine ⟨_, numeral_printed, ?_⟩
  simp [cmdCalc, other, stored, ShellState.print]

/-- A division ends without a print, whatever its quotient. -/
theorem divide_silent (division : operator.head? = some slash) (real : atoi y ≠ 0)
    (returned : cmdCalc s [name, x, operator, y] = .ok s') : s' = s := by
  simp only [cmdCalc, if_pos division, if_pos real] at returned
  cases quotient : idiv (atoi x) (atoi y) with
  | error halt =>
    rw [quotient] at returned
    exact nomatch returned
  | ok value =>
    rw [quotient] at returned
    exact (Except.ok.inj returned).symm

/-! ## Divisions -/

/-- The one pair of integers whose quotient leaves the range of `int`. -/
theorem quotient_fits {a b : Int} (least : -2 ^ 31 ≤ a) (most : a < 2 ^ 31) (real : b ≠ 0) :
    (-2 ^ 31 ≤ a.tdiv b ∧ a.tdiv b < 2 ^ 31) ↔ ¬ (a = -2 ^ 31 ∧ b = -1) := by
  by_cases opposite : b = -1
  · rw [opposite, Int.tdiv_neg, Int.tdiv_one]
    omega
  · by_cases one : b = 1
    · rw [one, Int.tdiv_one]
      omega
    · have size : (a.tdiv b).natAbs ≤ a.natAbs / 2 := by
        rw [Int.natAbs_tdiv]
        exact Nat.div_le_div_left (by omega) (by decide)
      omega

theorem idiv_returns (real : b ≠ 0) :
    (∃ quotient, idiv a b = .ok quotient) ↔ ¬ (a.toInt = -2 ^ 31 ∧ b.toInt = -1) := by
  have nonzero : b.toInt ≠ 0 := fun zero => real (Int32.toInt_inj.mp zero)
  rw [← quotient_fits a.le_toInt a.toInt_lt nonzero, idiv]
  split_ifs with fits
  · exact ⟨fun _ => fits.2, fun _ => ⟨_, rfl⟩⟩
  · exact ⟨fun quotient => (nomatch quotient), fun range => (fits ⟨real, range⟩).elim⟩

theorem ofNat_least : (Int32.ofNat n).toInt = -2 ^ 31 ↔ n % 2 ^ 32 = 2 ^ 31 := by
  rw [Int32.toInt_ofNat', Int.bmod, Int32.size]
  omega

theorem ofNat_opposite : (Int32.ofNat n).toInt = -1 ↔ n % 2 ^ 32 = 2 ^ 32 - 1 := by
  rw [Int32.toInt_ofNat', Int.bmod, Int32.size]
  omega

/-- Only a division can fail. -/
theorem returns_iff : Returns s [name, x, operator, y] ↔
    ¬ (operator.head? = some slash ∧ (atoi x).toInt = -2 ^ 31 ∧ (atoi y).toInt = -1) := by
  by_cases division : operator.head? = some slash
  · by_cases real : atoi y ≠ 0
    · have divides : Returns s [name, x, operator, y] ↔
          ∃ quotient, idiv (atoi x) (atoi y) = .ok quotient := by
        simp only [Returns, cmdCalc, if_pos division, if_pos real]
        cases idiv (atoi x) (atoi y) <;> simp [bind, Except.bind]
      rw [divides, idiv_returns real]
      simp [division]
    · simp [Returns, cmdCalc, division, not_not.mp real]
  · simp [Returns, cmdCalc, division]

/-! ## The commands -/

theorem atoi_real (digits : ∀ c ∈ y, IsDigit c) (small : decimal y < 2 ^ 31) (real : decimal y ≠ 0) :
    atoi y ≠ 0 := by
  rw [atoi_digits digits]
  intro zero
  have value := congrArg Int32.toInt zero
  rw [Int32.toInt_ofNat_of_lt small] at value
  exact real (Int.natCast_eq_zero.mp value)

/-- For numbers that an `int` holds and a result that a `uint32_t` holds, `calc` prints the
result exactly if it need not divide. -/
theorem calc_prints (s : ShellState) (name rest : CString) (op : Operator)
    (digitsX : ∀ c ∈ x, IsDigit c) (digitsY : ∀ c ∈ y, IsDigit c)
    (smallX : decimal x < 2 ^ 31) (smallY : decimal y < 2 ^ 31) (real : op = .divide → decimal y ≠ 0)
    (least : 0 ≤ op.exact (decimal x) (decimal y)) (most : op.exact (decimal x) (decimal y) < 2 ^ 32) :
    PrintsNumber s [name, x, op.char :: rest, y] (op.exact (decimal x) (decimal y)).toNat ↔
      op ≠ .divide := by
  have printed : ∀ c : CChar, c ≠ slash → PrintsNumber s [name, x, c :: rest, y]
      (stored c (.ofNat (decimal x)) (.ofNat (decimal y))).toNat := by
    intro c other
    rw [← atoi_digits digitsX, ← atoi_digits digitsY]
    exact prints_stored other
  cases op with
  | plus =>
    refine iff_of_true ?_ (by decide)
    have result := plus_exact (Int.ofNat_lt.mp most)
    have prints := printed plus (by decide)
    rw [stored, if_pos rfl, result] at prints
    exact prints
  | minus =>
    refine iff_of_true ?_ (by decide)
    have bound : decimal y ≤ decimal x := Int.ofNat_le.mp (Int.sub_nonneg.mp least)
    have difference : (Operator.minus.exact (decimal x) (decimal y)).toNat = decimal x - decimal y := by
      simp [Operator.exact]
    have result := minus_exact bound (by omega)
    have prints := printed minus (by decide)
    rw [stored, if_neg (by decide), if_pos rfl, result] at prints
    rwa [difference]
  | times =>
    refine iff_of_true ?_ (by decide)
    have result := times_exact (Int.ofNat_lt.mp most)
    have prints := printed star (by decide)
    rw [stored, if_neg (by decide), if_neg (by decide), if_pos rfl, result] at prints
    exact prints
  | divide =>
    refine iff_of_false ?_ (by decide)
    rintro ⟨text, -, shown⟩
    have silent := divide_silent rfl (atoi_real digitsY smallY (real rfl)) shown
    have screens := congrArg (·.screen.length) silent
    simp at screens

/-- A product. -/
theorem calc_prints_product : PrintsNumber ShellBuffers.emptyShell
    [cstring "calc", cstring "65536", cstring "*", cstring "65535"] 4294901760 :=
  (calc_prints ShellBuffers.emptyShell (cstring "calc") [] .times (by decide +kernel)
    (by decide +kernel) (by decide +kernel) (by decide +kernel) (by decide) (by decide +kernel)
    (by decide +kernel)).mpr (by decide)

/-- The return behind the two branches of the division comes before the print. -/
theorem quotient_not_printed : ¬ ∀ s name x y rest (op : Operator), (∀ c ∈ x, IsDigit c) →
    (∀ c ∈ y, IsDigit c) → decimal x < 2 ^ 31 → decimal y < 2 ^ 31 →
    (op = .divide → decimal y ≠ 0) → 0 ≤ op.exact (decimal x) (decimal y) →
    op.exact (decimal x) (decimal y) < 2 ^ 32 →
    PrintsNumber s [name, x, op.char :: rest, y] (op.exact (decimal x) (decimal y)).toNat := by
  intro claim
  obtain ⟨text, -, shown⟩ := claim ShellBuffers.emptyShell (cstring "calc") (cstring "6") (cstring "2") []
    .divide (by decide +kernel) (by decide +kernel) (by decide) (by decide) (by decide) (by decide)
    (by decide)
  have silent := divide_silent rfl (by decide) shown
  have screens := congrArg (·.screen.length) silent
  simp at screens

/-- For any three arguments, `calc` comes back to the shell unless it divides the smallest
`int` by -1. -/
theorem calc_returns (s : ShellState) (name x operator y : CString) :
    Returns s [name, x, operator, y] ↔ ¬ Overflows x operator y := by
  rw [returns_iff, Overflows, atoi_eq, atoi_eq, ofNat_least, ofNat_opposite]

/-- Two numbers beyond `int` make the pair. -/
theorem quotient_overflows : ¬ ∀ s name x operator y, Returns s [name, x, operator, y] := by
  intro claim
  obtain ⟨s', returned⟩ := claim ShellBuffers.emptyShell (cstring "calc") (cstring "2147483648")
    (cstring "/") (cstring "4294967295")
  have stopped : cmdCalc ShellBuffers.emptyShell [cstring "calc", cstring "2147483648",
      cstring "/", cstring "4294967295"] = .error divideException := rfl
  exact nomatch stopped.symm.trans returned

end ZynthexOS.Calculator
