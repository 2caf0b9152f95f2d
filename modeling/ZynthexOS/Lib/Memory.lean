import Mathlib.Algebra.Group.Nat.Defs
import Mathlib.Tactic.Common
import Mathlib.Tactic.SplitIfs

/-! Byte-addressed memory of a 32-bit little-endian machine, and the programs
that load and store words in it. A program returns its result, the memory it
leaves and the log of the words it touched, so that what a program computes,
what it changes and what it dereferences are read off one definition. -/
namespace ZynthexOS.Lib.Memory

/-- 32-bit addition, subtraction and truncation of unsigned words. -/
def wrap (n : Nat) : Nat := n % 2 ^ 32

def add32 (a b : Nat) : Nat := wrap (a + b)

def sub32 (a b : Nat) : Nat := wrap (a + 2 ^ 32 - b)

/-- One byte at every address. -/
abbrev Mem := Nat → UInt8

/-- The little-endian word at an address. -/
def readWord (m : Mem) (a : Nat) : Nat :=
  (m a).toNat + 2 ^ 8 * (m (a + 1)).toNat + 2 ^ 16 * (m (a + 2)).toNat +
    2 ^ 24 * (m (a + 3)).toNat

/-- Storing a word replaces its four bytes. -/
def writeWord (m : Mem) (a v : Nat) : Mem := fun x =>
  if x = a then UInt8.ofNat v
  else if x = a + 1 then UInt8.ofNat (v / 2 ^ 8)
  else if x = a + 2 then UInt8.ofNat (v / 2 ^ 16)
  else if x = a + 3 then UInt8.ofNat (v / 2 ^ 24)
  else m x

/-- The words at two addresses share no byte. -/
abbrev Apart (a b : Nat) : Prop := a + 4 ≤ b ∨ b + 4 ≤ a

theorem wrap_of_lt (h : n < 2 ^ 32) : wrap n = n := Nat.mod_eq_of_lt h

theorem wrap_lt (n : Nat) : wrap n < 2 ^ 32 := Nat.mod_lt _ (by decide)

@[simp] theorem wrap_wrap (a : Nat) : wrap (wrap a) = wrap a := Nat.mod_mod ..

theorem add32_of_lt (h : a + b < 2 ^ 32) : add32 a b = a + b := wrap_of_lt h

theorem sub32_of_le (h : b ≤ a) (bound : a < 2 ^ 32) : sub32 a b = a - b := by
  unfold sub32 wrap
  omega

private theorem bytes_of_word (v : Nat) :
    v % 2 ^ 8 + 2 ^ 8 * (v / 2 ^ 8 % 2 ^ 8) + 2 ^ 16 * (v / 2 ^ 16 % 2 ^ 8) +
      2 ^ 24 * (v / 2 ^ 24 % 2 ^ 8) = v % 2 ^ 32 := by
  omega

/-- A word reads back as it was stored, truncated to 32 bits. -/
theorem readWord_writeWord_same (m : Mem) (a v : Nat) :
    readWord (writeWord m a v) a = wrap v := by
  have byte : readWord (writeWord m a v) a = v % 2 ^ 8 + 2 ^ 8 * (v / 2 ^ 8 % 2 ^ 8) +
      2 ^ 16 * (v / 2 ^ 16 % 2 ^ 8) + 2 ^ 24 * (v / 2 ^ 24 % 2 ^ 8) := by
    simp [readWord, writeWord, UInt8.toNat_ofNat']
  exact byte.trans (bytes_of_word v)

theorem readWord_lt (m : Mem) (a : Nat) : readWord m a < 2 ^ 32 := by
  have b0 := (m a).toNat_lt
  have b1 := (m (a + 1)).toNat_lt
  have b2 := (m (a + 2)).toNat_lt
  have b3 := (m (a + 3)).toNat_lt
  unfold readWord
  omega

theorem readWord_congr (same : ∀ i < 4, m (a + i) = m' (a + i)) : readWord m a = readWord m' a := by
  have b0 := same 0 (by decide)
  have b1 := same 1 (by decide)
  have b2 := same 2 (by decide)
  have b3 := same 3 (by decide)
  rw [Nat.add_zero] at b0
  simp only [readWord, b0, b1, b2, b3]

theorem writeWord_outside (outside : x < a ∨ a + 4 ≤ x) : writeWord m a v x = m x := by
  have other : x ≠ a ∧ x ≠ a + 1 ∧ x ≠ a + 2 ∧ x ≠ a + 3 := by omega
  simp only [writeWord, other, if_false]

theorem writeWord_congr (same : m x = m' x) : writeWord m a v x = writeWord m' a v x := by
  simp only [writeWord, same]

/-- Storing a word leaves every word that shares no byte with it. -/
theorem readWord_writeWord_apart (apart : Apart a b) :
    readWord (writeWord m a v) b = readWord m b :=
  readWord_congr fun i below => writeWord_outside (by omega)

/-- A word determines its bytes. -/
theorem bytes_of_readWord (same : readWord m a = readWord m' a) :
    ∀ i < 4, m (a + i) = m' (a + i) := by
  have b0 := (m a).toNat_lt
  have b1 := (m (a + 1)).toNat_lt
  have b2 := (m (a + 2)).toNat_lt
  have b3 := (m (a + 3)).toNat_lt
  have c0 := (m' a).toNat_lt
  have c1 := (m' (a + 1)).toNat_lt
  have c2 := (m' (a + 2)).toNat_lt
  have c3 := (m' (a + 3)).toNat_lt
  unfold readWord at same
  intro i below
  apply UInt8.toNat_inj.mp
  rcases (by omega : i = 0 ∨ i = 1 ∨ i = 2 ∨ i = 3) with rfl | rfl | rfl | rfl
  · rw [Nat.add_zero]
    omega
  all_goals omega

/-- A store keeps two memories equal where they are. -/
theorem readWord_writeWord_congr (same : readWord m c = readWord m' c) (a v : Nat) :
    readWord (writeWord m a v) c = readWord (writeWord m' a v) c := by
  have bytes := bytes_of_readWord same
  exact readWord_congr fun i below => writeWord_congr (bytes i below)

/-- Storing what a word already holds changes nothing. -/
theorem writeWord_self (same : readWord m a = wrap v) : writeWord m a v = m := by
  have bytes := bytes_of_readWord ((readWord_writeWord_same m a v).trans same.symm)
  funext x
  by_cases outside : x < a ∨ a + 4 ≤ x
  · exact writeWord_outside outside
  · obtain ⟨i, rfl⟩ := Nat.exists_eq_add_of_le (by omega : a ≤ x)
    exact bytes i (by omega)

/-- The later of two stores of one word wins. -/
theorem writeWord_writeWord (m : Mem) (a v w : Nat) :
    writeWord (writeWord m a v) a w = writeWord m a w := by
  funext x
  simp only [writeWord]
  split_ifs <;> rfl

/-- Stores of words that share no byte commute. -/
theorem writeWord_comm (apart : Apart a b) :
    writeWord (writeWord m a v) b w = writeWord (writeWord m b w) a v := by
  funext x
  by_cases outside : x < a ∨ a + 4 ≤ x
  · exact (writeWord_congr (writeWord_outside outside)).trans (writeWord_outside outside).symm
  · have other : x < b ∨ b + 4 ≤ x := by omega
    exact (writeWord_outside other).trans (writeWord_congr (writeWord_outside other)).symm

/-! ## Programs -/

/-- One dereference: the address of the word, and the word stored. -/
inductive Access where
  | load (addr : Nat)
  | store (addr value : Nat)
  deriving DecidableEq, Repr

def Access.addr : Access → Nat
  | .load addr => addr
  | .store addr _ => addr

/-- What a program returns, the memory it leaves and what it touched. -/
structure Outcome (α : Type) where
  result : α
  mem : Mem
  log : List Access

/-- A program over word loads and stores. -/
structure MemM (α : Type) where
  run : Mem → Outcome α

instance : Monad MemM where
  pure a := ⟨fun m => ⟨a, m, []⟩⟩
  bind x f := ⟨fun m =>
    let first := x.run m
    let second := (f first.result).run first.mem
    ⟨second.result, second.mem, first.log ++ second.log⟩⟩

/-- Addresses are 32-bit words and wrap around. -/
def load (a : Nat) : MemM Nat := ⟨fun m => ⟨readWord m (wrap a), m, [.load (wrap a)]⟩⟩

def store (a v : Nat) : MemM Unit :=
  ⟨fun m => ⟨(), writeWord m (wrap a) v, [.store (wrap a) (wrap v)]⟩⟩

@[simp] theorem run_pure : (pure a : MemM α).run m = ⟨a, m, []⟩ := rfl

@[simp] theorem run_bind (x : MemM α) (f : α → MemM β) : (x >>= f).run m =
    ⟨((f (x.run m).result).run (x.run m).mem).result, ((f (x.run m).result).run (x.run m).mem).mem,
      (x.run m).log ++ ((f (x.run m).result).run (x.run m).mem).log⟩ := rfl

@[simp] theorem run_load : (load a).run m = ⟨readWord m (wrap a), m, [.load (wrap a)]⟩ := rfl

@[simp] theorem run_store :
    (store a v).run m = ⟨(), writeWord m (wrap a) v, [.store (wrap a) (wrap v)]⟩ := rfl

@[simp] theorem run_map (f : α → β) (x : MemM α) : (f <$> x).run m =
    ⟨f (x.run m).result, (x.run m).mem, (x.run m).log⟩ := by
  have bind : (f <$> x).run m = (x >>= fun a => pure (f a)).run m := rfl
  simp [bind]

/-! ## What a program returns -/

/-- The result has this property, whatever memory the program starts from. -/
def Yields (x : MemM α) (post : α → Prop) : Prop := ∀ m, post (x.run m).result

theorem yields_pure (holds : post a) : Yields (pure a) post := fun _ => holds

theorem Yields.bind {f : α → MemM β} (first : Yields x mid) (rest : ∀ a, mid a → Yields (f a) post) :
    Yields (x >>= f) post := fun m => rest _ (first m) _

theorem yields_bind {f : α → MemM β} (x : MemM α) (rest : ∀ a, Yields (f a) post) :
    Yields (x >>= f) post := fun _ => rest _ _

theorem Yields.map {f : α → β} (holds : Yields x fun a => post (f a)) : Yields (f <$> x) post := by
  intro m
  rw [run_map]
  exact holds m

/-! ## What a program does not touch -/

/-- A word that shares no byte with those the program touches may hold anything:
the program does the same and leaves it. -/
def Framed (x : MemM α) : Prop :=
  ∀ m t v, (∀ acc ∈ (x.run m).log, Apart t acc.addr) →
    x.run (writeWord m t v) = ⟨(x.run m).result, writeWord (x.run m).mem t v, (x.run m).log⟩

theorem framed_pure (a : α) : Framed (pure a : MemM α) := fun _ _ _ _ => rfl

theorem framed_load (a : Nat) : Framed (load a) := by
  intro m t v apart
  have word : Apart t (wrap a) := apart (.load (wrap a)) (by simp)
  rw [run_load, run_load, readWord_writeWord_apart word]

theorem framed_store (a w : Nat) : Framed (store a w) := by
  intro m t v apart
  have word : Apart t (wrap a) := apart (.store (wrap a) (wrap w)) (by simp)
  rw [run_store, run_store, writeWord_comm word]

theorem Framed.same (framed : Framed x) (apart : ∀ acc ∈ (x.run m).log, Apart t acc.addr) :
    (x.run (writeWord m t v)).result = (x.run m).result ∧
      (x.run (writeWord m t v)).mem = writeWord (x.run m).mem t v := by
  rw [framed m t v apart]
  exact ⟨rfl, rfl⟩

theorem Framed.bind {f : α → MemM β} (first : Framed x) (rest : ∀ a, Framed (f a)) :
    Framed (x >>= f) := by
  intro m t v apart
  simp only [run_bind, List.forall_mem_append] at apart ⊢
  rw [first m t v apart.1, rest _ _ t v apart.2]

theorem Framed.map {f : α → β} (framed : Framed x) : Framed (f <$> x) := by
  intro m t v apart
  simp only [run_map] at apart ⊢
  rw [framed m t v apart]

end ZynthexOS.Lib.Memory
