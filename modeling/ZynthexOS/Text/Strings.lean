import Mathlib.Data.List.TakeWhile
import Mathlib.Data.Nat.Digits.Defs
import Mathlib.Tactic.Common
import Mathlib.Tactic.Ring

/-! `lib/string.c`, on strings as what stands before their NUL: a string is a list
of bytes none of which is 0. -/
namespace ZynthexOS.Text

/-- A byte that does not end a string. -/
abbrev CChar := { c : UInt8 // c ≠ 0 }

abbrev CString := List CChar

/-- A character constant of the source. -/
def cchar (c : Char) (nonzero : UInt8.ofNat c.toNat ≠ 0) : CChar := ⟨UInt8.ofNat c.toNat, nonzero⟩

/-- `'/'` and `' '`. -/
def slash : CChar := cchar '/' (by decide)

def space : CChar := cchar ' ' (by decide)

/-- A string constant of the source. -/
def cstring (s : String) : CString :=
  s.toList.filterMap fun c =>
    if nonzero : UInt8.ofNat c.toNat ≠ 0 then some (cchar c nonzero) else none

/-- `'\b'` and `'\n'`. -/
def backspace : UInt8 := 8

def newline : UInt8 := 10

/-- The bytes of a string constant without its NUL. -/
def ascii (s : String) : List UInt8 := s.toList.map fun c => .ofNat c.toNat

/-- The value of a `char`, which is signed. -/
def charValue (c : CChar) : Int := c.val.toInt8.toInt

/-- `strlen`. -/
def strlen (s : CString) : Nat := s.length

/-- `strcmp`. -/
def strcmp : CString → CString → Int
  | a :: as, b :: bs => if a ≠ b then charValue a - charValue b else strcmp as bs
  | a :: _, [] => charValue a - 0
  | [], b :: _ => 0 - charValue b
  | [], [] => 0 - 0

theorem charValue_injective (same : charValue a = charValue b) : a = b := by
  apply Subtype.ext
  have bits : a.val.toInt8 = b.val.toInt8 := Int8.toInt_inj.mp same
  exact congrArg (·.toUInt8) bits

theorem charValue_ne_zero (a : CChar) : charValue a ≠ 0 := by
  intro zero
  have bits : a.val.toInt8 = (0 : UInt8).toInt8 := Int8.toInt_inj.mp zero
  exact a.property (congrArg (·.toUInt8) bits)

/-- `strcmp` finds two strings equal exactly if they are. -/
theorem strcmp_eq_zero : strcmp a b = 0 ↔ a = b := by
  induction a generalizing b with
  | nil =>
    cases b with
    | nil => simp [strcmp]
    | cons c b =>
      have positive := charValue_ne_zero c
      simp only [strcmp, reduceCtorEq, iff_false]
      omega
  | cons c a ih =>
    cases b with
    | nil =>
      have positive := charValue_ne_zero c
      simp only [strcmp, reduceCtorEq, iff_false]
      omega
    | cons d b =>
      by_cases same : c = d
      · subst same
        simp [strcmp, ih]
      · have differ : charValue c ≠ charValue d := fun equal => same (charValue_injective equal)
        simp only [strcmp, ne_eq, same, not_false_iff, if_true, List.cons.injEq, false_and, iff_false]
        omega

/-! ## Numbers -/

/-- A digit of `utoa`. -/
def utoaDigit (value : UInt32) : UInt8 := if value < 10 then 48 + value.toUInt8 else 65 + (value - 10).toUInt8

/-- The first loop of `utoa`, at most `n` rounds of it: the last digit first. -/
def utoaDigits (base : UInt32) : Nat → UInt32 → List UInt8
  | 0, _ => []
  | n + 1, value =>
    if value = 0 then [] else utoaDigit (value % base) :: utoaDigits base n (value / base)

/-- `utoa`, whose base is at least 2, so that 32 rounds are enough. -/
def utoa (value base : UInt32) : List UInt8 :=
  if value = 0 then ascii "0" else (utoaDigits base 32 value).reverse

/-- The rounds of `utoa` come to an end. -/
theorem utoaDigits_eq (base value : UInt32) (proper : 1 < base.toNat) (enough : value.toNat < 2 ^ n) :
    utoaDigits base n value =
      (Nat.digits base.toNat value.toNat).map fun digit => utoaDigit (.ofNat digit) := by
  induction n generalizing value with
  | zero =>
    have zero : value.toNat = 0 := by omega
    simp [utoaDigits, zero]
  | succ n ih =>
    by_cases zero : value = 0
    · simp [utoaDigits, zero]
    · have positive : 0 < value.toNat := Nat.pos_of_ne_zero fun same => zero (UInt32.toNat_inj.mp same)
      have halved : (value / base).toNat < 2 ^ n := by
        rw [UInt32.toNat_div]
        apply Nat.div_lt_of_lt_mul
        calc value.toNat < 2 * 2 ^ n := by omega
          _ ≤ base.toNat * 2 ^ n := Nat.mul_le_mul_right _ proper
      have digit : UInt32.ofNat (value.toNat % base.toNat) = value % base := by
        rw [← UInt32.toNat_mod, UInt32.ofNat_toNat]
      rw [utoaDigits, if_neg zero, ih _ halved, Nat.digits_def' proper positive, List.map_cons, digit,
        UInt32.toNat_div]

/-- The loop of `atoi`. -/
def atoiFrom (result : Int32) : CString → Int32
  | [] => result
  | c :: str =>
    if charValue c < 48 ∨ charValue c > 57 then result
    else atoiFrom (result * 10 + .ofInt (charValue c - 48)) str

/-- `atoi`, whose sums and products wrap around. -/
def atoi (str : CString) : Int32 := atoiFrom 0 str

def IsDigit (c : CChar) : Prop := 48 ≤ c.val ∧ c.val ≤ 57

instance : DecidablePred IsDigit := fun _ => inferInstanceAs (Decidable (_ ∧ _))

/-- The number that a string of digits denotes. -/
def decimal (s : CString) : Nat := Nat.ofDigits 10 (s.map fun c => c.val.toNat - 48).reverse

@[simp] theorem decimal_nil : decimal [] = 0 := rfl

theorem decimal_cons (c : CChar) (s : CString) :
    decimal (c :: s) = (c.val.toNat - 48) * 10 ^ s.length + decimal s := by
  rw [decimal, List.map_cons, Nat.ofDigits_reverse_cons, List.length_map, decimal]
  ring

theorem charValue_eq (c : CChar) :
    charValue c = if c.val.toNat < 128 then (c.val.toNat : Int) else c.val.toNat - 256 := by
  have bits : charValue c = c.val.toBitVec.toInt := rfl
  have size := c.val.toNat_lt
  rw [bits, BitVec.toInt_eq_toNat_cond, UInt8.toNat_toBitVec]
  split <;> split <;> omega

theorem isDigit_iff : IsDigit c ↔ 48 ≤ c.val.toNat ∧ c.val.toNat ≤ 57 := by
  simp [IsDigit, UInt8.le_iff_toNat_le]

/-- The comparisons of `atoi`. -/
theorem charValue_digit : (charValue c < 48 ∨ charValue c > 57) ↔ ¬ IsDigit c := by
  have size := c.val.toNat_lt
  rw [charValue_eq, isDigit_iff]
  split <;> omega

theorem atoiFrom_eq (n : Nat) (s : CString) : atoiFrom (.ofNat n) s =
    .ofNat (n * 10 ^ (s.takeWhile (IsDigit ·)).length + decimal (s.takeWhile (IsDigit ·))) := by
  induction s generalizing n with
  | nil => simp [atoiFrom]
  | cons c s ih =>
    by_cases digit : IsDigit c
    · have least := (isDigit_iff.mp digit).1
      have size := c.val.toNat_lt
      have value : charValue c - 48 = ((c.val.toNat - 48 : Nat) : Int) := by
        have most := (isDigit_iff.mp digit).2
        rw [charValue_eq, if_pos (by omega)]
        omega
      have next : Int32.ofNat n * 10 + Int32.ofInt (charValue c - 48) =
          .ofNat (n * 10 + (c.val.toNat - 48)) := by
        rw [value, Int32.ofInt_eq_ofNat, Int32.ofNat_add, Int32.ofNat_mul]
        rfl
      rw [atoiFrom, if_neg (by rwa [charValue_digit, not_not]), next, ih,
        List.takeWhile_cons_of_pos (by simpa using digit), decimal_cons, List.length_cons]
      congr 1
      ring
    · rw [atoiFrom, if_pos (charValue_digit.mpr digit),
        List.takeWhile_cons_of_neg (by simpa using digit)]
      simp

/-- `atoi` reads the digits that the string starts with, modulo `2 ^ 32`. -/
theorem atoi_eq (s : CString) : atoi s = .ofNat (decimal (s.takeWhile (IsDigit ·))) := by
  have read := atoiFrom_eq 0 s
  rwa [Nat.zero_mul, Nat.zero_add] at read

theorem atoi_digits (digits : ∀ c ∈ s, IsDigit c) : atoi s = .ofNat (decimal s) := by
  rw [atoi_eq, List.takeWhile_eq_self_iff.mpr (by simpa using digits)]

/-! ## The parts of a path -/

/-- The parts of a path, the first of which has been read up to here. -/
def splitParts (part : CString) : CString → List CString
  | [] => if part = [] then [] else [part]
  | c :: path =>
    if c = slash then if part = [] then splitParts [] path else part :: splitParts [] path
    else splitParts (part ++ [c]) path

/-- The maximal non-empty segments of a path without `/`. -/
def parts (path : CString) : List CString := splitParts [] path

theorem parts_skip (path : CString) : parts (path.dropWhile (· = slash)) = parts path := by
  induction path with
  | nil => rfl
  | cons c path ih =>
    by_cases sep : c = slash
    · rw [List.dropWhile_cons_of_pos (by simpa using sep), ih]
      simp [parts, splitParts, sep]
    · rw [List.dropWhile_cons_of_neg (by simpa using sep)]

theorem splitParts_first (part path : CString) : splitParts part path =
    if part ++ path.takeWhile (· ≠ slash) = [] then parts (path.dropWhile (· ≠ slash))
    else (part ++ path.takeWhile (· ≠ slash)) :: parts (path.dropWhile (· ≠ slash)) := by
  induction path generalizing part with
  | nil => simp [splitParts, parts]
  | cons c path ih =>
    by_cases sep : c = slash
    · simp [splitParts, parts, sep]
    · rw [List.takeWhile_cons_of_pos (by simpa using sep),
        List.dropWhile_cons_of_pos (by simpa using sep)]
      simp only [splitParts, sep, if_false]
      rw [ih]
      simp

/-- A path that starts with a part. -/
theorem parts_cons (c : CChar) (path : CString) (here : c ≠ slash) : parts (c :: path) =
    ((c :: path).takeWhile (· ≠ slash)) :: parts ((c :: path).dropWhile (· ≠ slash)) := by
  rw [parts, splitParts_first, List.nil_append, if_neg]
  simp [here]

/-- Where skipping separators stops, and how much shorter the path is behind the
part that follows. -/
theorem skip_spec {c : CChar} {path tail : CString}
    (skipped : path.dropWhile (· = slash) = c :: tail) :
    c ≠ slash ∧ ((c :: tail).dropWhile (· ≠ slash)).length < path.length := by
  induction path with
  | nil => simp at skipped
  | cons d path ih =>
    by_cases sep : d = slash
    · rw [List.dropWhile_cons_of_pos (by simpa using sep)] at skipped
      obtain ⟨here, shorter⟩ := ih skipped
      exact ⟨here, Nat.lt_succ_of_lt shorter⟩
    · rw [List.dropWhile_cons_of_neg (by simpa using sep)] at skipped
      obtain ⟨rfl, rfl⟩ := List.cons.inj skipped
      rw [List.dropWhile_cons_of_pos (by simpa using sep)]
      exact ⟨sep, Nat.lt_succ_of_le (List.length_dropWhile_le _ _)⟩

/-- A string without `/` is its only part. -/
theorem parts_plain (nonempty : name ≠ []) (plain : slash ∉ name) : parts name = [name] := by
  have all : ∀ c ∈ name, decide (c ≠ slash) = true := by
    intro c member
    apply decide_eq_true
    rintro rfl
    exact plain member
  rw [parts, splitParts_first, List.takeWhile_eq_self_iff.mpr all,
    List.dropWhile_eq_nil_iff.mpr all, List.nil_append, if_neg nonempty]
  rfl

/-- No part contains `/`. -/
theorem slash_notMem_parts : p ∈ parts path → slash ∉ p := by
  have loop : ∀ part : CString, slash ∉ part → ∀ p ∈ splitParts part path, slash ∉ p := by
    induction path with
    | nil =>
      intro part plain p member
      simp only [splitParts] at member
      split at member
      · simp at member
      · rw [List.mem_singleton] at member
        exact member ▸ plain
    | cons c path ih =>
      intro part plain p member
      simp only [splitParts] at member
      split_ifs at member with sep empty
      · exact ih [] (by simp) p member
      · rcases List.mem_cons.mp member with rfl | later
        · exact plain
        · exact ih [] (by simp) p later
      · refine ih (part ++ [c]) ?_ p member
        simp [plain, Ne.symm sep]
  exact loop [] (by simp) p

end ZynthexOS.Text
