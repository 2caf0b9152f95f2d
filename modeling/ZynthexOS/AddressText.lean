import ZynthexOS.Calculator
import ZynthexOS.Core.Log
import ZynthexOS.Shell.Allocate

/-! Addresses as text. The screen and the log write the same eight digits, `atoi_hex` reads
them back, also where its sums wrap around, and so `cmd_free` frees what `cmd_alloc` has
printed. -/
namespace ZynthexOS.AddressText
open ZynthexOS.Core Text Video Shell Mm Lib.Memory

/-- The same letter in either case, or the same character. -/
def SameLetter (shown typed : CChar) : Prop :=
  typed = shown ∨ 65 ≤ shown.val ∧ shown.val ≤ 90 ∧ typed.val = shown.val + 32

/-- How a printed address is typed: with its prefix or without it, with letters in upper or
in lower case. -/
def Typed (shown typed : CString) : Prop :=
  List.Forall₂ SameLetter shown typed ∨ List.Forall₂ SameLetter (shown.drop 2) typed

/-- The digits of a word, the first one first. -/
def nibbles (v : UInt32) : List Nat := (List.range 8).map fun i => v.toNat / 2 ^ ((7 - i) * 4) % 16

variable {v : UInt32} {c : CChar} {d n : Nat}

/-! ## What is printed -/

theorem nibble_toNat (v : UInt32) (less : k < 32) :
    ((v >>> (.ofNat k)) &&& 0xF).toNat = v.toNat / 2 ^ k % 16 := by
  have mask : (0xF : UInt32).toNat = 2 ^ 4 - 1 := rfl
  have count : (UInt32.ofNat k).toNat % 32 = k := by
    rw [UInt32.toNat_ofNat_of_lt' (Nat.lt_trans less (by decide)), Nat.mod_eq_of_lt less]
  rw [UInt32.toNat_and, UInt32.toNat_shiftRight, count, mask, Nat.and_two_pow_sub_one_eq_mod,
    Nat.shiftRight_eq_div_pow]

/-- The two encoders agree on a digit. -/
theorem hexDigit_char : ∀ d < 16, hexDigit (UInt32.ofNat d).toUInt8 = hexChars.getD d 0 := by decide

theorem hexBuffer_eq (v : UInt32) :
    hexBuffer v = ascii "0x" ++ (nibbles v).map (hexChars.getD · 0) := by
  rw [hexBuffer, nibbles, List.map_map]
  refine congrArg _ (List.map_congr_left fun i inside => ?_)
  rw [List.mem_range] at inside
  rw [nibble_toNat v (by omega), Function.comp_apply, show 28 - i * 4 = (7 - i) * 4 by omega]

theorem hexText_eq (v : UInt32) : hexText v = hexBuffer v := by
  rw [hexBuffer_eq, hexText, nibbles, List.map_map]
  refine congrArg _ (List.map_congr_left fun i inside => ?_)
  have digit := nibble_toNat v (by omega : (7 - i) * 4 < 32)
  have small : v.toNat / 2 ^ ((7 - i) * 4) % 16 < 16 := Nat.mod_lt _ (by decide)
  rw [← UInt32.ofNat_toNat (x := (v >>> _) &&& 0xF), digit]
  exact hexDigit_char _ small

theorem nibbles_small (member : d ∈ nibbles v) : d < 16 := by
  obtain ⟨i, -, rfl⟩ := List.mem_map.mp member
  exact Nat.mod_lt _ (by decide)

theorem hexChar_nonzero : ∀ d < 16, hexChars.getD d 0 ≠ 0 := by decide

theorem hexBuffer_nonzero (member : b ∈ hexBuffer v) : b ≠ 0 := by
  rw [hexBuffer_eq, List.mem_append, List.mem_map] at member
  rcases member with start | ⟨d, digit, rfl⟩
  · have constant : ∀ b ∈ ascii "0x", b ≠ 0 := by decide +kernel
    exact constant b start
  · exact hexChar_nonzero d (nibbles_small digit)

/-! ## What is read -/

/-- Digits that stand for these numbers. -/
theorem atoiHexFrom_eq {typed : CString} {ds : List Nat}
    (values : List.Forall₂ (fun c d => hexValue c = some (Int.ofNat d)) typed ds) (n : Nat) :
    atoiHexFrom (.ofNat n) typed = .ofNat (ds.foldl (fun n d => n * 16 + d) n) := by
  induction values generalizing n with
  | nil => rfl
  | @cons c d typed ds value _ ih =>
    have next : Int32.ofNat n * 16 + Int32.ofInt (Int.ofNat d) = .ofNat (n * 16 + d) := by
      rw [Int32.ofNat_add, Int32.ofNat_mul]
      rfl
    rw [atoiHexFrom, value, List.foldl_cons]
    simp only
    rw [next, ih]

/-- The first digits make the word without the rest of them. -/
theorem digits_word (v : UInt32) (most : k ≤ 8) :
    ((List.range k).map fun i => v.toNat / 2 ^ ((7 - i) * 4) % 16).foldl (fun n d => n * 16 + d) 0 =
      v.toNat / 2 ^ ((8 - k) * 4) := by
  induction k with
  | zero => exact (Nat.div_eq_of_lt v.toNat_lt).symm
  | succ k ih =>
    have before : 2 ^ ((8 - k) * 4) = 2 ^ ((7 - k) * 4) * 16 := by
      rw [show (8 - k) * 4 = (7 - k) * 4 + 4 by omega, Nat.pow_add]
    have after : 8 - (k + 1) = 7 - k := by omega
    rw [List.range_succ, List.map_append, List.foldl_append, ih (by omega), before, after,
      ← Nat.div_div_eq_div_mul]
    exact Nat.div_add_mod' _ 16

theorem nibbles_word (v : UInt32) : (nibbles v).foldl (fun n d => n * 16 + d) 0 = v.toNat := by
  rw [nibbles, digits_word v (Nat.le_refl 8)]
  exact Nat.div_one _

/-- The value of a digit in either case. -/
theorem hexValue_typed (small : d < 16) (shown : c.val = hexChars.getD d 0) (typed : SameLetter c c') :
    hexValue c' = some (Int.ofNat d) := by
  have upper : ∀ d < 16, ∀ nonzero : hexChars.getD d 0 ≠ 0,
      hexValue ⟨hexChars.getD d 0, nonzero⟩ = some (Int.ofNat d) := by decide
  have lower : ∀ d < 16, ∀ nonzero : hexChars.getD d 0 + 32 ≠ 0, 65 ≤ hexChars.getD d 0 →
      hexValue ⟨hexChars.getD d 0 + 32, nonzero⟩ = some (Int.ofNat d) := by decide
  rcases typed with rfl | ⟨letter, -, typed⟩
  · rw [← upper d small (shown ▸ c'.property)]
    exact congrArg hexValue (Subtype.ext shown)
  · rw [shown] at letter typed
    rw [← lower d small (typed ▸ c'.property) letter]
    exact congrArg hexValue (Subtype.ext typed)

theorem hexValues_typed {shown typed : CString} {ds : List Nat} (small : ∀ d ∈ ds, d < 16)
    (digits : shown.map Subtype.val = ds.map (hexChars.getD · 0))
    (same : List.Forall₂ SameLetter shown typed) :
    List.Forall₂ (fun c d => hexValue c = some (Int.ofNat d)) typed ds := by
  induction same generalizing ds with
  | nil =>
    have none : ds = [] := List.map_eq_nil_iff.mp digits.symm
    subst none
    exact .nil
  | cons letter same ih =>
    cases ds with
    | nil => exact nomatch digits
    | cons d ds =>
      obtain ⟨first, rest⟩ := List.cons.inj digits
      exact .cons (hexValue_typed (small d List.mem_cons_self) first letter)
        (ih (fun d member => small d (List.mem_cons_of_mem _ member)) rest)

/-- A string whose second character is a digit has no prefix. -/
theorem skipPrefix_digits (digits : List.Forall₂ (fun c d => hexValue c = some (Int.ofNat d)) typed ds) :
    skipPrefix typed = typed := by
  cases digits with
  | nil => rfl
  | cons first rest =>
    cases rest with
    | nil => rfl
    | @cons d _ _ _ second =>
      have other : ¬ (charValue d = 120 ∨ charValue d = 88) := by
        rintro letter
        rw [hexValue, if_neg (by omega), if_neg (by omega), if_neg (by omega)] at second
        exact nomatch second
      rw [skipPrefix, if_neg fun both => other both.2]

theorem skipPrefix_typed {x x' : CChar} (zero : c.val = 48) (ex : x.val = 120) (rest : CString)
    (first : SameLetter c c') (second : SameLetter x x') : skipPrefix (c' :: x' :: rest) = rest := by
  have first : c' = c := by
    rcases first with same | ⟨letter, -, -⟩
    · exact same
    · rw [zero] at letter
      exact absurd letter (by decide)
  have second : x' = x := by
    rcases second with same | ⟨-, letter, -⟩
    · exact same
    · rw [ex] at letter
      exact absurd letter (by decide)
  rw [first, second, skipPrefix, charValue_eq, charValue_eq, zero, ex, if_pos]
  decide

/-- A typed address denotes the word that was printed. -/
theorem atoiHex_typed {shown : CString} (printed : shown.map Subtype.val = hexBuffer v)
    (typed : Typed shown str) : (atoiHex str).toUInt32 = v := by
  rw [hexBuffer_eq] at printed
  obtain ⟨c, shown, rfl⟩ : ∃ c rest, shown = c :: rest :=
    List.exists_cons_of_ne_nil fun none => nomatch none ▸ printed
  obtain ⟨zero, printed⟩ := List.cons.inj printed
  obtain ⟨x, shown, rfl⟩ : ∃ c rest, shown = c :: rest :=
    List.exists_cons_of_ne_nil fun none => nomatch none ▸ printed
  obtain ⟨ex, printed⟩ := List.cons.inj printed
  have small : ∀ d ∈ nibbles v, d < 16 := fun d => nibbles_small
  obtain ⟨digits, values, skipped⟩ : ∃ digits,
      List.Forall₂ (fun c d => hexValue c = some (Int.ofNat d)) digits (nibbles v) ∧
      skipPrefix str = digits := by
    rcases typed with whole | bare
    · obtain ⟨_, _, first, more, rfl⟩ := List.forall₂_cons_left_iff.mp whole
      obtain ⟨_, digits, second, same, rfl⟩ := List.forall₂_cons_left_iff.mp more
      exact ⟨digits, hexValues_typed small printed same, skipPrefix_typed zero ex digits first second⟩
    · have values := hexValues_typed small printed bare
      exact ⟨str, values, skipPrefix_digits values⟩
  have start : (0 : Int32) = .ofNat 0 := rfl
  rw [atoiHex, skipped, start, atoiHexFrom_eq values, nibbles_word, Int32.toUInt32_ofNat',
    UInt32.ofNat_toNat]

/-! ## The commands -/

/-- The answer of `kmalloc`, if there is one, with a pointer that is a word. -/
def WordPointer (answer : Option (HeapVars × Nat)) : Prop :=
  ∀ vars ptr, answer = some (vars, ptr) → ptr < 2 ^ 32

theorem WordPointer.of (less : ptr < 2 ^ 32) (vars : HeapVars) : WordPointer (some (vars, ptr)) := by
  rintro _ _ ⟨⟩
  exact less

theorem kmalloc_pointer (fuel : Nat) (vars : HeapVars) (size : Nat) :
    Yields (kmalloc fuel vars size) WordPointer := by
  have null : WordPointer (some (vars, 0)) := .of (by decide) vars
  have first : Yields (kmallocFirst vars (alignUp size)) fun answer => WordPointer (some answer) := by
    unfold kmallocFirst
    dsimp only
    split_ifs
    · exact yields_pure null
    · iterate 6 refine yields_bind _ fun _ => ?_
      exact yields_pure (.of (wrap_lt _) _)
  have append (last : Nat) :
      Yields (kmallocAppend vars last (alignUp size)) fun answer => WordPointer (some answer) := by
    unfold kmallocAppend
    dsimp only
    split_ifs
    · exact yields_pure null
    · exact yields_pure null
    · iterate 8 refine yields_bind _ fun _ => ?_
      exact yields_pure (.of (wrap_lt _) _)
  unfold kmalloc
  split_ifs
  · exact yields_pure null
  · exact yields_pure null
  · exact yields_pure null
  · exact .map first
  · refine yields_bind _ fun search => ?_
    rcases search with none | found | last
    · refine yields_pure ?_
      rintro _ _ ⟨⟩
    · have reused : Yields (kmallocReuse found (alignUp size)) (· < 2 ^ 32) := by
        unfold kmallocReuse
        iterate 3 refine yields_bind _ fun _ => ?_
        exact yields_pure (wrap_lt _)
      exact reused.bind fun ptr less => yields_pure (.of less vars)
    · exact .map (append last)

/-- What `cmd_alloc` prints behind `Allocated at: ` is the pointer of its `kmalloc`. -/
theorem cmdAlloc_printed (returned : cmdAlloc fuel s argv = some s')
    (printed : s'.screen = s.screen ++ [cstring "Allocated at: ", text, cstring "\n"]) :
    ∃ name argument rest vars, ∃ ptr : UInt32, argv = name :: argument :: rest ∧
      ((kmalloc fuel s.vars (atoi argument).toUInt32.toNat).run s.mem).result = some (vars, ptr.toNat) ∧
      ptr ≠ 0 ∧ s'.lastAlloc = ptr ∧ text = bufferString (hexBuffer ptr) := by
  have message {message : String} {s₀ : AllocState} (only : some (s₀.print message) = some s')
      (same : s₀.screen = s.screen) : False := by
    have screens := congrArg List.length printed
    rw [← Option.some.inj only, AllocState.print, same, List.length_append, List.length_append] at screens
    simp at screens
  match argv with
  | [] => exact (message returned rfl).elim
  | [_] => exact (message returned rfl).elim
  | name :: argument :: rest =>
    rw [cmdAlloc] at returned
    simp only at returned
    split_ifs at returned
    · exact (message returned rfl).elim
    · obtain ⟨⟨s₁, ptr⟩, allocated, returned⟩ := Option.bind_eq_some_iff.mp returned
      rw [AllocState.kmalloc, Option.map_eq_some_iff] at allocated
      obtain ⟨⟨vars, p⟩, answer, made⟩ := allocated
      obtain ⟨rfl, rfl⟩ := Prod.mk.inj made
      simp only at returned
      split_ifs at returned with null
      · exact (message returned rfl).elim
      · refine ⟨name, argument, rest, vars, .ofNat p, rfl, ?_, null, ?_, ?_⟩
        · rw [answer, UInt32.toNat_ofNat_of_lt' (kmalloc_pointer _ _ _ _ _ _ answer)]
        · rw [← Option.some.inj returned]
          rfl
        · rw [← Option.some.inj returned] at printed
          simp only [AllocState.print, AllocState.printHex, List.append_assoc, List.append_cancel_left_eq,
            List.cons_append, List.nil_append, List.cons.injEq, true_and, and_true] at printed
          exact printed.symm

theorem cmdFree_typed {shown : CString} (printed : shown.map Subtype.val = hexBuffer ptr)
    (typed : Typed shown str) (real : ptr ≠ 0) : cmdFree fuel t (name :: str :: rest) =
      (t.kfree fuel ptr).map (·.printFreed ptr) := by
  rw [cmdFree, atoiHex_typed printed typed, if_neg real]
  exact (Option.map_eq_bind ..).symm

theorem hexBuffer_shown (v : UInt32) : (bufferString (hexBuffer v)).map Subtype.val = hexBuffer v :=
  Calculator.bufferString_val fun _ => hexBuffer_nonzero

/-- `freelast` does what `free` does with the address that `alloc` has printed, and forgets it. -/
theorem freelast_frees_printed (returned : cmdAlloc fuel s argv = some s')
    (printed : s'.screen = s.screen ++ [cstring "Allocated at: ", text, cstring "\n"]) (typed : Typed text str) :
    cmdFreelast fuel' s' argv' =
      (cmdFree fuel' s' (name :: str :: rest)).map fun t => { t with lastAlloc := 0 } := by
  obtain ⟨-, -, -, -, ptr, -, -, real, last, rfl⟩ := cmdAlloc_printed returned printed
  rw [cmdFree_typed (hexBuffer_shown ptr) typed real, cmdFreelast, last, if_neg real, AllocState.kfree]
  cases ((kfree fuel' s'.vars ptr.toNat).run s'.mem).result with
  | none => rfl
  | some freed =>
    rw [← last]
    rfl

/-- Both encoders produce one string of ten characters, `atoi_hex` reads the word back from it
however it is typed, and an address that `cmd_alloc` has printed is what `cmd_free` gives to
`kfree`. -/
theorem printed_address :
    (∀ v, ∃ text : CString, text.length = 10 ∧
      (∀ s, vgaPrintHex s v = (text.map Subtype.val).foldl vgaPutchar s) ∧
      (∀ l, logWriteHex l v = (text.map Subtype.val).foldl logChar l) ∧
      ∀ str, Typed text str → (atoiHex str).toUInt32 = v) ∧
    ∀ fuel s argv s' text, cmdAlloc fuel s argv = some s' →
      s'.screen = s.screen ++ [cstring "Allocated at: ", text, cstring "\n"] →
      ∃ name argument rest vars, ∃ ptr : UInt32, argv = name :: argument :: rest ∧
        ((kmalloc fuel s.vars (atoi argument).toUInt32.toNat).run s.mem).result =
          some (vars, ptr.toNat) ∧
        ∀ fuel' t name' str rest', Typed text str →
          cmdFree fuel' t (name' :: str :: rest') = (t.kfree fuel' ptr).map (·.printFreed ptr) := by
  have all (v : UInt32) : (hexBuffer v).takeWhile (· ≠ 0) = hexBuffer v :=
    List.takeWhile_eq_self_iff.mpr fun c member => by simpa using hexBuffer_nonzero member
  refine ⟨fun v => ⟨bufferString (hexBuffer v), ?_, ?_, ?_, ?_⟩, ?_⟩
  · rw [← List.length_map (f := Subtype.val), hexBuffer_shown, hexBuffer_eq]
    rfl
  · intro s
    rw [hexBuffer_shown, vgaPrintHex, vgaPrint, all]
  · intro l
    rw [hexBuffer_shown, logWriteHex, hexText_eq, logWrite, all]
  · intro str typed
    exact atoiHex_typed (hexBuffer_shown v) typed
  · intro fuel s argv s' text returned printed
    obtain ⟨name, argument, rest, vars, ptr, arguments, answer, real, -, rfl⟩ :=
      cmdAlloc_printed returned printed
    refine ⟨name, argument, rest, vars, ptr, arguments, answer, ?_⟩
    intro fuel' t name' str rest' typed
    exact cmdFree_typed (hexBuffer_shown ptr) typed real

/-- The shell right after `heap_init`, with memory all zeros. -/
def clearShell : AllocState := ⟨heapInit heapStatics, fun _ => 0, 0, []⟩

/-- The first `alloc 16`. -/
theorem printed_address_first :
    ∃ s', cmdAlloc 1 clearShell [cstring "alloc", cstring "16"] = some s' ∧
      s'.screen = [cstring "Allocated at: ", cstring "0x00400014", cstring "\n"] ∧
      ∃ vars, ∃ ptr : UInt32,
        ((kmalloc 1 clearShell.vars 16).run clearShell.mem).result = some (vars, ptr.toNat) ∧
        ∀ fuel t name str rest, Typed (cstring "0x00400014") str →
          cmdFree fuel t (name :: str :: rest) = (t.kfree fuel ptr).map (·.printFreed ptr) := by
  have returns : (cmdAlloc 1 clearShell [cstring "alloc", cstring "16"]).isSome := by decide +kernel
  obtain ⟨s', returned⟩ := Option.isSome_iff_exists.mp returns
  have screen : (cmdAlloc 1 clearShell [cstring "alloc", cstring "16"]).map (·.screen) =
      some [cstring "Allocated at: ", cstring "0x00400014", cstring "\n"] := by decide +kernel
  rw [returned, Option.map_some, Option.some.injEq] at screen
  obtain ⟨name, argument, rest, vars, ptr, arguments, answer, freed⟩ :=
    printed_address.2 1 clearShell _ s' _ returned screen
  cases arguments
  exact ⟨s', returned, screen, vars, ptr, answer, freed⟩

end ZynthexOS.AddressText
