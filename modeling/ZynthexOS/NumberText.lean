import ZynthexOS.Calculator
import ZynthexOS.Core.Log
import ZynthexOS.Video.Vga

/-! Numbers as text: `utoa`, the loop of the screen and the log write the one canonical
numeral, and `atoi` reads it. -/
namespace ZynthexOS.NumberText
open ZynthexOS.Core Text Video Calculator

/-- The characters of the digits. -/
def digitChars : List UInt8 := ascii "0123456789ABCDEFGHIJKLMNOPQRSTUVWXYZ"

/-- The canonical numeral of a number: digits below the base, the first of which is 0 only
for the number 0. -/
def IsNumeral (base n : Nat) (text : List UInt8) : Prop :=
  ∃ digits : List Nat, text = digits.map (digitChars.getD · 0) ∧ (∀ d ∈ digits, d < base) ∧
    Nat.ofDigits base digits.reverse = n ∧ digits ≠ [] ∧
    (1 < digits.length → digits.head? ≠ some 0)

variable {value : UInt32} {base : Int32} {s : Screen} {buffer : Chars} {text : List UInt8}

/-! ## Numerals -/

/-- The digits of a numeral. -/
theorem numeral_digits {digits : List Nat} (proper : 1 < b) (bound : ∀ d ∈ digits, d < b)
    (denotes : Nat.ofDigits b digits.reverse = n) (nonempty : digits ≠ [])
    (canonical : 1 < digits.length → digits.head? ≠ some 0) :
    digits = if n = 0 then [0] else (Nat.digits b n).reverse := by
  by_cases leading : digits.head? = some 0
  · -- a leading zero stands alone
    obtain ⟨rest, rfl⟩ : ∃ rest, digits = 0 :: rest := List.head?_eq_some_iff.mp leading
    have alone : rest = [] := by
      by_contra more
      exact canonical (by simpa using List.length_pos_iff.mpr more) leading
    subst alone
    have zero : n = 0 := by simpa using denotes.symm
    rw [if_pos zero]
  · have same : Nat.digits b n = digits.reverse := by
      rw [← denotes]
      apply Nat.digits_ofDigits b proper _ fun d member => bound d (List.mem_reverse.mp member)
      intro _ zero
      rw [List.getLast_reverse] at zero
      exact leading (by rw [List.head?_eq_some_head nonempty, zero])
    have positive : n ≠ 0 := by
      rw [← Nat.digits_ne_nil_iff_ne_zero (b := b), same]
      simpa using nonempty
    rw [if_neg positive, same, List.reverse_reverse]

theorem isNumeral_unique (proper : 1 < b) (numeral : IsNumeral b n text)
    (other : IsNumeral b n text') : text' = text := by
  obtain ⟨digits, rfl, bound, denotes, nonempty, canonical⟩ := numeral
  obtain ⟨digits', rfl, bound', denotes', nonempty', canonical'⟩ := other
  have same : digits' = digits :=
    (numeral_digits proper bound' denotes' nonempty' canonical').trans
      (numeral_digits proper bound denotes nonempty canonical).symm
  rw [same]

theorem utoaDigit_char : ∀ d < 36, utoaDigit (.ofNat d) = digitChars.getD d 0 := by decide

/-- `utoa` writes the numeral. -/
theorem utoa_isNumeral {base : UInt32} (value : UInt32) (proper : 1 < base.toNat)
    (most : base.toNat ≤ 36) : IsNumeral base.toNat value.toNat (utoa value base) := by
  rw [utoa]
  by_cases zero : value = 0
  · rw [if_pos zero, zero]
    refine ⟨[0], by decide, ?_, by simp, by simp, by simp⟩
    simp only [List.mem_singleton, forall_eq]
    omega
  · have positive : value.toNat ≠ 0 := fun same => zero (UInt32.toNat_inj.mp same)
    rw [if_neg zero, utoaDigits_eq base value proper value.toNat_lt, ← List.map_reverse]
    refine ⟨(Nat.digits base.toNat value.toNat).reverse, ?_, ?_, ?_, ?_, ?_⟩
    · refine List.map_congr_left fun d digit => ?_
      have small : d < base.toNat := Nat.digits_lt_base proper (List.mem_reverse.mp digit)
      exact utoaDigit_char d (by omega)
    · intro d digit
      exact Nat.digits_lt_base proper (List.mem_reverse.mp digit)
    · rw [List.reverse_reverse, Nat.ofDigits_digits]
    · simpa [Nat.digits_eq_nil_iff_eq_zero] using positive
    · intro _ leading
      have nonempty : Nat.digits base.toNat value.toNat ≠ [] :=
        Nat.digits_ne_nil_iff_ne_zero.mpr positive
      rw [List.head?_reverse, List.getLast?_eq_some_getLast nonempty] at leading
      exact Nat.getLast_digit_ne_zero _ positive (Option.some.inj leading)

/-! ## The screen and the log -/

theorem vgaPrint_text (proper : ∀ c ∈ text, c ≠ 0) : vgaPrint s text = text.foldl vgaPutchar s := by
  rw [vgaPrint, List.takeWhile_eq_self_iff.mpr (by simpa using proper)]

/-- What the loop prints that goes down to the first digit. -/
theorem printBack_eq (proper : ∀ j < i, buffer j ≠ 0) :
    printBack s buffer i = ((List.range i).map buffer).reverse.foldl vgaPutchar s := by
  induction i generalizing s with
  | zero => rfl
  | succ j ih =>
    have character : vgaPrint s [buffer j, 0] = vgaPutchar s (buffer j) := by
      rw [vgaPrint, List.takeWhile_cons_of_pos (by simpa using proper j (Nat.lt_succ_self j))]
      rfl
    rw [printBack, ih fun k less => proper k (Nat.lt_succ_of_lt less), character, List.range_succ,
      List.map_append, List.reverse_append]
    rfl

theorem place_chars (buffer : Chars) (text : List UInt8) :
    (List.range text.length).map (place buffer 0 text) = text := by
  refine List.ext_getElem (by simp) fun i inside inside' => ?_
  rw [List.getElem_map, List.getElem_range]
  have character := place_inside buffer 0 inside'
  rwa [Nat.zero_add] at character

/-- The digits of the screen are those of `utoa`. -/
theorem vgaPrintDec_eq (enough : 10 < n) :
    vgaPrintDec n s value buffer = some ((utoa value 10).foldl vgaPutchar s) := by
  obtain ⟨n, rfl⟩ : ∃ m, n = m + 1 := ⟨n - 1, by omega⟩
  rw [vgaPrintDec]
  by_cases zero : value = 0
  · rw [if_pos zero, utoa, if_pos zero, vgaPrint_text (by decide +kernel)]
  · have small : value.toNat < 10 ^ 10 := Nat.lt_trans value.toNat_lt (by decide)
    have short : (Nat.digits 10 value.toNat).length ≤ 10 :=
      (Nat.digits_length_le_iff (by decide) _).mpr small
    have rounds : value.toNat < (10 : UInt32).toNat ^ n :=
      Nat.lt_of_lt_of_le small (Nat.pow_le_pow_right (by decide) (by omega))
    obtain ⟨text, stored⟩ : ∃ text,
        (Nat.digits 10 value.toNat).map (fun d => 48 + (UInt32.ofNat d).toUInt8) = text := ⟨_, rfl⟩
    have written : utoa value 10 = text.reverse := by
      rw [utoa, if_neg zero, utoaDigits_eq 10 value (by decide) value.toNat_lt, ← stored]
      refine congrArg List.reverse (List.map_congr_left fun d digit => ?_)
      have less : ∀ d < 10, utoaDigit (.ofNat d) = 48 + (UInt32.ofNat d).toUInt8 := by decide
      exact less d (Nat.digits_lt_base (by decide) digit)
    have length : (Nat.digits 10 value.toNat).length = text.length := by rw [← stored, List.length_map]
    have ten : (10 : UInt32).toNat = 10 := rfl
    rw [if_neg zero, fillDigits_eq _ (by decide) rounds (by rw [ten]; omega), ten, stored, length]
    simp only [Option.bind_eq_bind, Option.bind_some, Nat.zero_add]
    rw [printBack_eq, place_chars, written]
    intro j less
    have character := place_inside buffer 0 less
    rw [Nat.zero_add] at character
    have digit : text[j] ∈ utoa value 10 := by
      rw [written, List.mem_reverse]
      exact List.getElem_mem less
    rw [character]
    exact utoa_nonzero digit

/-- A text in front of its NUL, in a larger array. -/
theorem place_string (proper : ∀ c ∈ text, c ≠ 0) (room : text.length < size) :
    ((List.range size).map (place buffer 0 (text ++ [0]))).takeWhile (· ≠ 0) = text := by
  have split : size = (text ++ [0]).length + (size - (text.length + 1)) := by
    rw [List.length_append, List.length_singleton]
    omega
  rw [split, List.range_add, List.map_append, place_chars, List.append_assoc,
    List.takeWhile_append_of_pos (by simpa using proper), List.singleton_append,
    List.takeWhile_cons_of_neg (by simp), List.append_nil]

theorem decimal_length (value : UInt32) : (utoa value 10).length ≤ 10 :=
  utoa_length (by decide) (by decide) (Nat.lt_trans value.toNat_lt (by decide))

/-- What `log_write_dec` logs from its array. -/
theorem logWriteDec_eq (l : Log) (enough : 32 < n) (buffer : Chars) :
    ∃ buf, utoaBuffer n 16 value buffer 10 = some buf ∧
      logWriteDec l value = logWrite l (some ((List.range 16).map buf)) ∧
      logWriteDec l value = (utoa value 10).foldl logChar l := by
  have room : (utoa value 10).length < 16 := Nat.lt_of_le_of_lt (decimal_length value) (by decide)
  have proper : ∀ c ∈ utoa value 10, c ≠ 0 := fun c member => utoa_nonzero member
  have logged : logWriteDec l value = (utoa value 10).foldl logChar l := by
    rw [logWriteDec, logWrite, List.takeWhile_eq_self_iff.mpr (by simpa using proper)]
  refine ⟨_, utoaBuffer_eq value (by decide) enough room, ?_, logged⟩
  rw [logged, logWrite, Int32.toUInt32_ofNat, place_string proper room]

/-! ## The whole -/

theorem toUInt32_toNat (least : 0 ≤ base.toInt) : base.toUInt32.toNat = base.toInt.toNat :=
  Int32.toNat_toUInt32_of_le (Int32.le_iff_toInt_le.mpr least)

/-- `atoi` of a decimal numeral that an `int` holds. -/
theorem atoi_numeral {str : CString} (text : str.map Subtype.val = utoa value 10)
    (small : value.toNat < 2 ^ 31) : (atoi str).toInt = value.toNat := by
  obtain ⟨digits, denotes, -, -⟩ := numeral_utoa text
  rw [atoi_digits digits, denotes, Int32.toInt_ofNat_of_lt small]

/-- Number and text determine each other: `utoa` stores the one canonical numeral, in at most
33 bytes; the screen prints the decimal one and the log keeps it; `atoi` reads it back. -/
theorem number_text (value : UInt32) (base : Int32) (least : 2 ≤ base.toInt) (most : base.toInt ≤ 36) :
    (∃! text, IsNumeral base.toInt.toNat value.toNat text) ∧
    (∀ text, IsNumeral base.toInt.toNat value.toNat text → text.length < 33 ∧
      ∀ n size buffer, 32 < n → text.length < size →
        utoaBuffer n size value buffer base = some (place buffer 0 (text ++ [0]))) ∧
    ∀ text, IsNumeral 10 value.toNat text →
      (∀ n s buffer, 10 < n → vgaPrintDec n s value buffer = some (text.foldl vgaPutchar s)) ∧
      (∀ n l buffer, 32 < n → ∃ buf, utoaBuffer n 16 value buffer 10 = some buf ∧
        logWriteDec l value = logWrite l (some ((List.range 16).map buf)) ∧
        logWriteDec l value = text.foldl logChar l) ∧
      (value.toNat < 2 ^ 31 → ∀ str : CString, str.map Subtype.val = text →
        (atoi str).toInt = value.toNat) := by
  have converted := toUInt32_toNat (by omega : 0 ≤ base.toInt)
  have proper : 1 < base.toUInt32.toNat := by omega
  have written := utoa_isNumeral value proper (by omega)
  rw [← converted]
  refine ⟨⟨_, written, fun _ other => isNumeral_unique proper written other⟩, ?_, ?_⟩
  · intro text numeral
    have same := isNumeral_unique proper written numeral
    subst same
    refine ⟨Nat.lt_succ_of_le (utoa_length proper (by decide) ?_), ?_⟩
    · exact Nat.lt_of_lt_of_le value.toNat_lt (Nat.pow_le_pow_left proper 32)
    · intro n size buffer enough room
      exact utoaBuffer_eq value proper enough room
  · intro text numeral
    have decimal : IsNumeral 10 value.toNat (utoa value 10) :=
      utoa_isNumeral value (by decide) (by decide)
    have same := isNumeral_unique (by decide) decimal numeral
    subst same
    refine ⟨fun n s buffer enough => vgaPrintDec_eq enough, ?_, ?_⟩
    · intro n l buffer enough
      exact logWriteDec_eq l enough buffer
    · intro small str here
      exact atoi_numeral here small

/-- The address of the screen memory in hexadecimal. -/
theorem number_text_screen : IsNumeral 16 753664 (ascii "B8000") ∧ (ascii "B8000").length < 33 := by
  have numeral : IsNumeral 16 753664 (ascii "B8000") :=
    ⟨[11, 8, 0, 0, 0], by decide, by decide, by decide, by decide, by decide⟩
  exact ⟨numeral, ((number_text 753664 16 (by decide) (by decide)).2.1 _ numeral).1⟩

end ZynthexOS.NumberText
