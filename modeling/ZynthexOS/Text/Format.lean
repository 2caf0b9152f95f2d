import Mathlib.Data.List.GetD
import Mathlib.Data.Nat.Digits.Lemmas
import Mathlib.Logic.Function.Basic
import ZynthexOS.Text.Strings

/-! Numbers in `char` arrays: the loops of `utoa` in `lib/string.c` as they store to
their buffer, and `atoi_hex`. A store outside of the array is not defined. -/
namespace ZynthexOS.Text

/-- The bytes of a `char` array and of what follows it. -/
abbrev Chars := Nat → UInt8

/-- A store to a `char` array of `size` bytes. -/
def setChar (size : Nat) (buffer : Chars) (i : Nat) (c : UInt8) : Option Chars :=
  if i < size then some (Function.update buffer i c) else none

/-- A loop that stores the digits of a number, the last one first, in at most `n` tests of
its condition: the array and the number of digits. -/
def fillDigits (size : Nat) (digit : UInt32 → UInt8) (base : UInt32) :
    Nat → Chars → Nat → UInt32 → Option (Chars × Nat)
  | 0, _, _, _ => none
  | n + 1, buffer, i, value =>
    if value = 0 then some (buffer, i)
    else do
      let buffer ← setChar size buffer i (digit (value % base))
      fillDigits size digit base n buffer (i + 1) (value / base)

/-- The loop of `utoa` that reverses the string between two pointers. -/
def reverseString (size : Nat) : Nat → Chars → Nat → Nat → Option Chars
  | 0, _, _, _ => none
  | n + 1, buffer, ptr1, ptr =>
    if ptr1 < ptr then do
      let tmpChar := buffer ptr
      let buffer ← setChar size buffer ptr (buffer ptr1)
      let buffer ← setChar size buffer ptr1 tmpChar
      reverseString size n buffer (ptr1 + 1) (ptr - 1)
    else some buffer

/-- `utoa` with a buffer of `size` bytes, whose loops are given `n` tests. The base is an
`int`, which the division converts. -/
def utoaBuffer (n size : Nat) (value : UInt32) (buffer : Chars) (base : Int32) : Option Chars :=
  if value = 0 then do
    let buffer ← setChar size buffer 0 48
    setChar size buffer 1 0
  else do
    let (buffer, ptr) ← fillDigits size utoaDigit base.toUInt32 n buffer 0 value
    let buffer ← setChar size buffer ptr 0
    reverseString size n buffer 0 (ptr - 1)

/-! ## What stands in a buffer -/

variable {size i p : Nat} {buffer : Chars} {c : UInt8} {text : List UInt8}

/-- The buffer with a text from a place on. -/
def place (buffer : Chars) (p : Nat) (text : List UInt8) : Chars :=
  fun i => if p ≤ i then text.getD (i - p) (buffer i) else buffer i

theorem place_nil (buffer : Chars) (p : Nat) : place buffer p [] = buffer := by
  funext i
  simp [place]

theorem place_cons (buffer : Chars) (p : Nat) (c : UInt8) (text : List UInt8) :
    place (Function.update buffer p c) (p + 1) text = place buffer p (c :: text) := by
  funext i
  rw [place, place]
  rcases Nat.lt_trichotomy i p with before | here | behind
  · rw [if_neg (by omega), if_neg (by omega), Function.update_of_ne (by omega)]
  · subst here
    rw [if_neg (by omega), if_pos (Nat.le_refl i), Function.update_self, Nat.sub_self]
    rfl
  · rw [if_pos (by omega), if_pos (by omega), Function.update_of_ne (by omega),
      show i - p = i - (p + 1) + 1 by omega]
    rfl

/-- Digits are stored from a place on. -/
theorem fillDigits_eq (digit : UInt32 → UInt8) {base value : UInt32} (proper : 1 < base.toNat)
    (enough : value.toNat < base.toNat ^ n)
    (room : p + (Nat.digits base.toNat value.toNat).length ≤ size) :
    fillDigits size digit base (n + 1) buffer p value =
      some (place buffer p ((Nat.digits base.toNat value.toNat).map fun d => digit (.ofNat d)),
        p + (Nat.digits base.toNat value.toNat).length) := by
  induction n generalizing buffer p value with
  | zero =>
    have zero : value = 0 := UInt32.toNat_inj.mp (Nat.lt_one_iff.mp enough)
    rw [fillDigits, if_pos zero, zero]
    simp [place_nil]
  | succ n ih =>
    rw [fillDigits]
    by_cases zero : value = 0
    · rw [if_pos zero, zero]
      simp [place_nil]
    · have positive : 0 < value.toNat := Nat.pos_of_ne_zero fun same => zero (UInt32.toNat_inj.mp same)
      have divided : (value / base).toNat < base.toNat ^ n := by
        rw [UInt32.toNat_div]
        apply Nat.div_lt_of_lt_mul
        rwa [← Nat.pow_succ']
      have last : UInt32.ofNat (value.toNat % base.toNat) = value % base := by
        rw [← UInt32.toNat_mod, UInt32.ofNat_toNat]
      rw [Nat.digits_def' proper positive, List.length_cons, ← UInt32.toNat_div] at room
      rw [Nat.digits_def' proper positive, List.map_cons, List.length_cons, last, ← UInt32.toNat_div,
        ← place_cons, Nat.add_comm (List.length _) 1, ← Nat.add_assoc, if_neg zero, setChar, if_pos (by omega)]
      exact ih divided (by omega)

/-- The buffer with the part between two places turned around. -/
def mirror (buffer : Chars) (first last : Nat) : Chars :=
  fun i => if first ≤ i ∧ i ≤ last then buffer (first + last - i) else buffer i

/-- What two characters trade places for. -/
theorem mirror_swap (more : first < last) :
    mirror (Function.update (Function.update buffer last (buffer first)) first (buffer last))
      (first + 1) (last - 1) = mirror buffer first last := by
  funext i
  rw [mirror, mirror]
  rcases Nat.lt_trichotomy i first with before | here | behind
  · rw [if_neg (by omega), if_neg (by omega), Function.update_of_ne (by omega),
      Function.update_of_ne (by omega)]
  · subst here
    rw [if_neg (by omega), if_pos (by omega), Function.update_self, Nat.add_sub_cancel_left]
  · rcases Nat.lt_trichotomy i last with before' | here | behind'
    · rw [if_pos (by omega), if_pos (by omega), Function.update_of_ne (by omega),
        Function.update_of_ne (by omega)]
      congr 1
      omega
    · subst here
      rw [if_neg (by omega), if_pos (by omega), Function.update_of_ne (by omega), Function.update_self,
        Nat.add_sub_cancel]
    · rw [if_neg (by omega), if_neg (by omega), Function.update_of_ne (by omega),
        Function.update_of_ne (by omega)]

theorem reverseString_eq (enough : last ≤ first + 2 * n) (room : last < size) :
    reverseString size (n + 1) buffer first last = some (mirror buffer first last) := by
  have still {buffer : Chars} {first last : Nat} (met : last ≤ first) :
      mirror buffer first last = buffer := by
    funext i
    rw [mirror]
    split_ifs with here
    · congr 1
      omega
    · rfl
  induction n generalizing buffer first last with
  | zero => rw [reverseString, if_neg (by omega), still (by omega)]
  | succ n ih =>
    rw [reverseString]
    by_cases more : first < last
    · rw [if_pos more, ← mirror_swap more, setChar, if_pos room]
      simp only [Option.bind_eq_bind, Option.bind_some]
      rw [setChar, if_pos (by omega), Option.bind_some]
      exact ih (by omega) (by omega)
    · rw [if_neg more, still (by omega)]

theorem place_inside (buffer : Chars) (p : Nat) (inside : i < text.length) :
    place buffer p text (p + i) = text[i] := by
  rw [place, if_pos (Nat.le_add_right p i), Nat.add_sub_cancel_left, List.getD_eq_getElem _ _ inside]

theorem place_behind (behind : p + text.length ≤ i) : place buffer p text i = buffer i := by
  rw [place, if_pos (by omega), List.getD_eq_default _ _ (by omega)]

/-- A text in front of a NUL, turned around. -/
theorem mirror_place (some : text ≠ []) :
    mirror (Function.update (place buffer 0 text) text.length 0) 0 (text.length - 1) =
      place buffer 0 (text.reverse ++ [0]) := by
  have positive := List.length_pos_iff.mpr some
  have length : (text.reverse ++ [0]).length = text.length + 1 := by simp
  funext i
  rw [mirror, ← Nat.zero_add i]
  rcases Nat.lt_trichotomy i text.length with before | here | behind
  · rw [if_pos (by omega), Function.update_of_ne (by omega), place_inside _ 0 (by omega),
      show 0 + (text.length - 1) - (0 + i) = 0 + (text.length - 1 - i) by omega,
      place_inside _ 0 (by omega), List.getElem_append_left (by simpa using before), List.getElem_reverse]
  · subst here
    rw [if_neg (by omega), Nat.zero_add, Function.update_self, ← Nat.zero_add text.length,
      place_inside _ 0 (by omega)]
    simp
  · rw [if_neg (by omega), Function.update_of_ne (by omega), place_behind (by omega),
      place_behind (by omega)]

theorem utoa_length (proper : 1 < base.toNat) (positive : 0 < k) (small : value.toNat < base.toNat ^ k) :
    (utoa value base).length ≤ k := by
  rw [utoa]
  split_ifs
  · exact positive
  · rw [List.length_reverse, utoaDigits_eq base value proper value.toNat_lt, List.length_map,
      Nat.digits_length_le_iff proper]
    exact small

/-- The buffer ends up with the text of the number and a NUL. -/
theorem utoaBuffer_eq (value : UInt32) (proper : 1 < base.toUInt32.toNat) (enough : 32 < n)
    (room : (utoa value base.toUInt32).length < size) :
    utoaBuffer n size value buffer base = some (place buffer 0 (utoa value base.toUInt32 ++ [0])) := by
  obtain ⟨n, rfl⟩ : ∃ m, n = m + 1 := ⟨n - 1, by omega⟩
  have short : (utoa value base.toUInt32).length ≤ 32 := by
    apply utoa_length proper (by decide)
    exact Nat.lt_of_lt_of_le value.toNat_lt (Nat.pow_le_pow_left proper 32)
  rw [utoaBuffer]
  rw [utoa] at room short ⊢
  by_cases zero : value = 0
  · rw [if_pos zero] at room
    have two : 1 < size := room
    rw [if_pos zero, if_pos zero, setChar, if_pos (by omega)]
    simp only [Option.bind_eq_bind, Option.bind_some]
    rw [setChar, if_pos two, show ascii "0" ++ [0] = [48, 0] from rfl, ← place_cons, ← place_cons,
      place_nil]
  · have rounds : value.toNat < base.toUInt32.toNat ^ n := calc
      value.toNat < 2 ^ 32 := value.toNat_lt
      _ ≤ 2 ^ n := Nat.pow_le_pow_right (by decide) (by omega)
      _ ≤ base.toUInt32.toNat ^ n := Nat.pow_le_pow_left proper n
    have nonzero : value.toNat ≠ 0 := fun same => zero (UInt32.toNat_inj.mp same)
    rw [if_neg zero, utoaDigits_eq _ value proper value.toNat_lt, List.length_reverse,
      List.length_map] at room short
    have some : (Nat.digits base.toUInt32.toNat value.toNat).map
        (fun d => utoaDigit (.ofNat d)) ≠ [] := by
      rw [ne_eq, List.map_eq_nil_iff, Nat.digits_eq_nil_iff_eq_zero]
      exact nonzero
    rw [if_neg zero, if_neg zero, utoaDigits_eq _ value proper value.toNat_lt,
      fillDigits_eq utoaDigit proper rounds (by omega)]
    simp only [Option.bind_eq_bind, Option.bind_some]
    rw [setChar, Nat.zero_add, if_pos room, Option.bind_some, reverseString_eq (by omega) (by omega),
      ← mirror_place some, List.length_map]

/-! ## `atoi_hex` -/

/-- The value of a digit of `atoi_hex`. -/
def hexValue (c : CChar) : Option Int :=
  if charValue c ≥ 48 ∧ charValue c ≤ 57 then some (charValue c - 48)
  else if charValue c ≥ 97 ∧ charValue c ≤ 102 then some (charValue c - 97 + 10)
  else if charValue c ≥ 65 ∧ charValue c ≤ 70 then some (charValue c - 65 + 10)
  else none

/-- The loop of `atoi_hex`. -/
def atoiHexFrom (result : Int32) : CString → Int32
  | [] => result
  | c :: str =>
    match hexValue c with
    | none => result
    | some value => atoiHexFrom (result * 16 + .ofInt value) str

/-- The string behind an optional `0x`. -/
def skipPrefix : CString → CString
  | c :: d :: str =>
    if charValue c = 48 ∧ (charValue d = 120 ∨ charValue d = 88) then str else c :: d :: str
  | str => str

/-- `atoi_hex`, whose sums and products wrap around. -/
def atoiHex (str : CString) : Int32 := atoiHexFrom 0 (skipPrefix str)

end ZynthexOS.Text
