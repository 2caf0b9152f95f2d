import ZynthexOS.Lib.Bits
import ZynthexOS.HeapConditions

/-! The invariant that ties the variables and memory to a list of blocks, and
`kmalloc` as an operation on the list: an allocation carves a free block or
appends a new one, whatever the fuel of the search. -/
namespace ZynthexOS.HeapAllocation
open Lib Lib.Memory Lib.Bits Mm HeapLayout HeapRepresentation HeapPrograms HeapConditions

/-! ## Requests -/

theorem alignUp_eq (n : Nat) : alignUp n = add32 n 7 / 8 * 8 := by
  have mask : 0xFFFFFFF8 = 2 ^ 32 - 2 ^ 3 := rfl
  rw [alignUp, mask]
  exact and_high_mask (by decide) (wrap_lt (n + 7))

/-- A request that passes the overflow check is rounded up to a multiple of eight. -/
theorem alignUp_spec (positive : n ≠ 0) (fits : ¬ alignUp n < n) :
    alignUp n % 8 = 0 ∧ 0 < alignUp n ∧ n ≤ alignUp n := by
  have rounded := alignUp_eq n
  omega

/-- The room `kmalloc` computes in a heap without blocks. -/
theorem heapRoom_empty (start : vars.heapEnd = kernelHeapStart) : heapRoom vars = 0x3fffe8 := by
  simp only [heapRoom, start]
  decide

/-! ## The invariant -/

/-- Memory holds the blocks, `heap_head` is the first of them, and `heap_end`
is where they end unless a release has lowered it to a block of the list. At
`heap_end` a used block ends, with its tail word when it is not alone. -/
structure HeapInv (vars : HeapVars) (m : Mem) (bs : List Block) (stop : Nat) : Prop where
  stored : Stored m bs stop
  start : vars.heapStart = kernelHeapStart
  head : vars.heapHead = headAddr bs 0
  edge : vars.heapEnd = stop ∨ ∃ l, bs.getLast? = some l ∧ vars.heapEnd ≤ l.addr
  last : vars.heapEnd = stop → ∀ l, bs.getLast? = some l →
    l.free = false ∧ (1 < bs.length → tailSize ≤ l.slack)

/-- The heap right after `heap_init`. -/
theorem heapInit_inv (m : Mem) : HeapInv (heapInit heapStatics) m [] kernelHeapStart :=
  ⟨⟨trivial, rfl, by simp, by decide⟩, rfl, rfl, .inl rfl, by simp⟩

/-- What `kmalloc` does to the list for an aligned size. -/
inductive Alloc (vars : HeapVars) (size : Nat) (bs : List Block) (stop : Nat) :
    HeapVars → List Block → Nat → Nat → Prop where
  | refused : Alloc vars size bs stop vars bs stop 0
  | first {b : Block} : bs = [] → b = ⟨kernelHeapStart, size, false, 0⟩ →
      Alloc vars size bs stop { vars with heapHead := b.addr, heapEnd := b.fin } [b] b.fin b.payload
  | reuse {pre : List Block} {x : Block} {post : List Block} :
      bs = pre ++ x :: post → fits size x = true →
      Alloc vars size bs stop vars (pre ++ carve x size ++ post) stop x.payload
  | append {b : Block} : bs ≠ [] → vars.heapEnd = stop → b = ⟨stop, size, false, tailSize⟩ →
      Alloc vars size bs stop { vars with heapEnd := b.fin + tailSize } (bs ++ [b])
        (b.fin + tailSize) b.payload

/-- No magic word of the log is stored over a header. -/
def MagicClear (log : List Access) (header : Nat) : Prop :=
  ∀ t, Access.store t heapMagic ∈ log → t + 4 ≤ header ∨ header + headerSize ≤ t

theorem Alloc.inv (alloc : Alloc vars size bs stop vars' bs' stop' ptr)
    (held : HeapInv vars m bs stop) (stored : Stored m' bs' stop') :
    HeapInv vars' m' bs' stop' := by
  obtain ⟨-, start, head, edge, last⟩ := held
  cases alloc with
  | refused => exact ⟨stored, start, head, edge, last⟩
  | first empty new =>
    subst new
    exact ⟨stored, start, rfl, .inl rfl, by simp⟩
  | @reuse pre x post same fit =>
    subst same
    have isFree : x.free = true := by
      simp only [fits, Bool.and_eq_true] at fit
      exact fit.1
    have nonempty : carve x size ≠ [] := by
      unfold carve
      split <;> simp
    have carveHead : headAddr (carve x size) 0 = x.addr := by
      unfold carve
      split <;> rfl
    refine ⟨stored, start, ?_, ?_, ?_⟩
    · rw [head, List.append_assoc, headAddr_append, headAddr_append]
      cases carved : carve x size with
      | nil => exact absurd carved nonempty
      | cons c cs =>
        rw [carved] at carveHead
        rw [List.cons_append, headAddr_cons, headAddr_cons]
        rw [headAddr_cons] at carveHead
        rw [carveHead]
    · apply edge.imp_right
      rintro ⟨l, isLast, low⟩
      rcases List.eq_nil_or_concat post with rfl | ⟨post, k, rfl⟩
      · obtain rfl : x = l := by simpa using isLast
        unfold carve
        split
        · refine ⟨splitRest x size, by simp, ?_⟩
          simp only [splitRest]
          omega
        · exact ⟨{ x with free := false }, by simp, low⟩
      · obtain rfl : k = l := by simpa [List.getLast?_append, List.getLast?_cons] using isLast
        exact ⟨k, by simp [List.getLast?_append], low⟩
    · intro atStop l isLast
      rcases List.eq_nil_or_concat post with rfl | ⟨post, k, rfl⟩
      · obtain ⟨used, -⟩ := last atStop x (by simp)
        rw [isFree] at used
        cases used
      · obtain rfl : k = l := by simpa [List.getLast?_append] using isLast
        obtain ⟨used, slack⟩ := last atStop k (by simp [List.getLast?_append, List.getLast?_cons])
        exact ⟨used, fun _ => slack (by simp; omega)⟩
  | append nonempty atStop new =>
    subst new
    refine ⟨stored, start, ?_, .inl rfl, ?_⟩
    · cases bs with
      | nil => exact absurd rfl nonempty
      | cons c bs => exact head
    · intro _ l isLast
      simp only [List.getLast?_append, List.getLast?_singleton, Option.some_or,
        Option.some.injEq] at isLast
      subst isLast
      exact ⟨rfl, fun _ => Nat.le_refl _⟩

/-- An allocation keeps every block but the free one it hands out. -/
theorem Alloc.keeps (alloc : Alloc vars size bs stop vars' bs' stop' ptr) (member : b ∈ bs)
    (other : b.free = true → b.payload ≠ ptr) : b ∈ bs' := by
  cases alloc with
  | refused => exact member
  | first empty => simp [empty] at member
  | @reuse pre x post same fit =>
    subst same
    simp only [fits, Bool.and_eq_true] at fit
    simp only [List.mem_append, List.mem_cons] at member ⊢
    rcases member with member | rfl | member
    · exact .inl (.inl member)
    · exact absurd rfl (other fit.1)
    · exact .inr member
  | append => exact List.mem_append_left _ member

/-- The empty list is the one whose `heap_head` is NULL. -/
theorem HeapInv.head_eq_zero (held : HeapInv vars m bs stop) : vars.heapHead = 0 ↔ bs = [] := by
  rw [held.head]
  cases bs with
  | nil => simp
  | cons b bs => simpa using (addressed_of_stored held.stored b (by simp)).1

theorem HeapInv.empty (held : HeapInv vars m [] stop) :
    stop = kernelHeapStart ∧ vars.heapEnd = kernelHeapStart := by
  have here : kernelHeapStart = stop := held.stored.layout
  refine ⟨here.symm, ?_⟩
  rcases held.edge with edge | ⟨l, isLast, -⟩
  · exact edge.trans here.symm
  · cases isLast

theorem heapEnd_le (held : HeapInv vars m bs stop) : vars.heapEnd ≤ stop := by
  rcases held.edge with atStop | ⟨l, isLast, below⟩
  · exact Nat.le_of_eq atStop
  · have low := (held.stored.low (List.mem_of_getLast? isLast)).2
    simp only [Block.fin, headerSize] at low
    omega

/-- A block carved from the list leaves memory holding the carved list, and no
magic word falls on the header of another block. -/
theorem kmallocReuse_refines (held : Stored m (pre ++ x :: post) stop) (fit : fits size x = true)
    (positive : 0 < size) (aligned : size % 8 = 0) :
    ((kmallocReuse x.addr size).run m).result = x.payload ∧
      Stored ((kmallocReuse x.addr size).run m).mem (pre ++ carve x size ++ post) stop ∧
      ∀ c ∈ pre ++ post, MagicClear ((kmallocReuse x.addr size).run m).log c.addr := by
  obtain ⟨layoutPre, layoutPost, -, header, -⟩ := held.around
  have top := held.top
  have low := layoutPre.le
  have high := layoutPost.le
  simp only [fits, Bool.and_eq_true, decide_eq_true_eq] at fit
  have bound : x.fin + 20 < 2 ^ 32 := by
    simp only [Block.fin, Block.width, headerSize, tailSize, kernelHeapEnd] at high top ⊢
    omega
  have zbound : headAddr post 0 + 20 < 2 ^ 32 := by
    cases post with
    | nil => decide
    | cons z post =>
      have inside := layoutPost.mem (List.mem_cons_self ..)
      simp only [headAddr_cons, Block.width, headerSize, tailSize, kernelHeapEnd] at inside top ⊢
      omega
  by_cases splits : Splits x size
  · rw [run_kmallocReuse_split header splits bound zbound]
    refine ⟨rfl, split_stored held splits positive aligned, fun c member t stored => ?_⟩
    have apart : c.addr + c.width ≤ x.addr ∨ x.addr + x.width ≤ c.addr :=
      (List.mem_append.mp member).imp (fun h => (layoutPre.mem h).2) fun h => (layoutPost.mem h).1
    simp only [Splits, Block.fin, Block.width, splitRest, splitFirst, headerSize, tailSize,
      minBlockSize, kernelHeapEnd, kernelHeapStart] at *
    have inLinks : Access.store t heapMagic ∉
        relinkLog (headAddr post 0) (x.addr + 20 + size) := by
      unfold relinkLog
      split
      · simp
      · simp only [List.mem_singleton, Access.store.injEq, heapMagic]
        omega
    simp only [List.mem_append, inLinks, List.mem_cons, Access.store.injEq, reduceCtorEq,
      List.not_mem_nil, or_false, false_or] at stored
    simp only [heapMagic] at stored
    omega
  · rw [run_kmallocReuse_whole header splits fit.2 bound]
    refine ⟨rfl, ?_, fun c member t stored => ?_⟩
    · have freed := writeFree_stored held false 0 rfl
      simpa [carve, splits] using freed
    · simp [heapMagic] at stored

/-- What `kmalloc(n)` may return: with enough fuel it returns, and whenever it
does, it has made an allocation in the list. -/
structure Serves (vars : HeapVars) (bs : List Block) (stop n fuel : Nat)
    (o : Outcome (Option (HeapVars × Nat))) : Prop where
  total : bs.length < fuel → o.result ≠ none
  alloc : ∀ vars' ptr, o.result = some (vars', ptr) → ∃ bs' stop',
    Alloc vars (alignUp n) bs stop vars' bs' stop' ptr ∧ HeapInv vars' o.mem bs' stop' ∧
      (ptr ≠ 0 → n ≤ alignUp n) ∧ ∀ c ∈ bs, c.payload ≠ ptr → MagicClear o.log c.addr

theorem serves_refused (held : HeapInv vars m bs stop) (loads : ∀ acc ∈ log, ∃ a, acc = .load a) :
    Serves vars bs stop n fuel ⟨some (vars, 0), m, log⟩ := by
  refine ⟨by simp, ?_⟩
  rintro vars' ptr ⟨⟩
  refine ⟨bs, stop, .refused, held, fun ne => absurd rfl ne, fun c _ _ t stored => ?_⟩
  obtain ⟨a, load⟩ := loads _ stored
  cases load

/-- The first allocation, in a heap without blocks. -/
private theorem serves_first (held : HeapInv vars m [] stop) (aligned : alignUp n % 8 = 0)
    (positive : 0 < alignUp n) (covers : n ≤ alignUp n) (room : ¬ alignUp n > heapRoom vars) :
    Serves vars [] stop n fuel ((some <$> kmallocFirst vars (alignUp n)).run m) := by
  obtain ⟨rfl, atStart⟩ := held.empty
  rw [heapRoom_empty atStart] at room
  rw [run_map]
  by_cases full : kernelHeapEnd ≤ vars.heapEnd + headerSize + alignUp n
  · have small : vars.heapEnd + headerSize + alignUp n < 2 ^ 32 := by
      simp only [atStart, kernelHeapStart, headerSize]
      omega
    rw [run_kmallocFirst_full small full]
    exact serves_refused held (by simp)
  · rw [run_kmallocFirst (Nat.lt_of_not_le full)]
    refine ⟨by simp, ?_⟩
    rintro vars' ptr ⟨⟩
    rw [atStart] at full ⊢
    let b : Block := ⟨kernelHeapStart, alignUp n, false, 0⟩
    have alloc : Alloc vars (alignUp n) [] kernelHeapStart
        { vars with heapHead := b.addr, heapEnd := b.fin } [b] b.fin b.payload := .first rfl rfl
    have stored : Stored (fresh m b.addr b.size 0) [b] (b.fin + b.slack) := by
      refine first_stored rfl rfl ⟨positive, aligned, rfl⟩ ?_
      simp only [b, Block.fin, headerSize, kernelHeapStart, kernelHeapEnd] at full ⊢
      omega
    exact ⟨[b], b.fin, alloc, alloc.inv held stored, fun _ => covers, by simp⟩

/-- The search finds a free block, which is carved. -/
private theorem serves_reuse (fuel : Nat) (held : HeapInv vars m (pre ++ x :: post) stop)
    (fit : fits (alignUp n) x = true) (aligned : alignUp n % 8 = 0) (positive : 0 < alignUp n)
    (covers : n ≤ alignUp n) (loads : ∀ acc ∈ log, ∃ a, acc = .load a) :
    Serves vars (pre ++ x :: post) stop n fuel
      ⟨some (vars, ((kmallocReuse x.addr (alignUp n)).run m).result),
        ((kmallocReuse x.addr (alignUp n)).run m).mem,
        log ++ ((kmallocReuse x.addr (alignUp n)).run m).log⟩ := by
  obtain ⟨result, stored, clear⟩ := kmallocReuse_refines held.stored fit positive aligned
  refine ⟨by simp, ?_⟩
  rintro vars' ptr ⟨⟩
  have alloc : Alloc vars (alignUp n) (pre ++ x :: post) stop vars
      (pre ++ carve x (alignUp n) ++ post) stop x.payload := .reuse rfl fit
  rw [result]
  refine ⟨_, _, alloc, alloc.inv held stored, fun _ => covers, fun c member other t magic => ?_⟩
  have here : c ∈ pre ++ post := by
    refine mem_beside member ?_
    rintro rfl
    exact other rfl
  rcases List.mem_append.mp magic with magic | magic
  · obtain ⟨a, load⟩ := loads _ magic
    cases load
  · exact clear c here t magic

/-- The search reaches the end of the list, and a block is appended behind it. -/
private theorem serves_append (fuel : Nat) (held : HeapInv vars m (pre ++ [l]) stop)
    (sound : newEnd vars (alignUp n) < vars.heapEnd ∨ newEnd vars (alignUp n) ≥ kernelHeapEnd ∨
      l.addr < vars.heapEnd ∧ vars.heapEnd + headerSize + alignUp n + tailSize < kernelHeapEnd)
    (aligned : alignUp n % 8 = 0) (positive : 0 < alignUp n)
    (covers : n ≤ alignUp n) (loads : ∀ acc ∈ log, ∃ a, acc = .load a) :
    Serves vars (pre ++ [l]) stop n fuel
      ⟨some ((kmallocAppend vars l.addr (alignUp n)).run m).result,
        ((kmallocAppend vars l.addr (alignUp n)).run m).mem,
        log ++ ((kmallocAppend vars l.addr (alignUp n)).run m).log⟩ := by
  by_cases full : newEnd vars (alignUp n) < vars.heapEnd ∨ newEnd vars (alignUp n) ≥ kernelHeapEnd
  · rw [run_kmallocAppend_full full, List.append_nil]
    exact serves_refused held loads
  obtain ⟨below, inside⟩ : l.addr < vars.heapEnd ∧
      vars.heapEnd + headerSize + alignUp n + tailSize < kernelHeapEnd := by tauto
  have atStop : vars.heapEnd = stop := by
    rcases held.edge with edge | ⟨k, isLast, above⟩
    · exact edge
    · obtain rfl : l = k := by simpa using isLast
      omega
  rw [run_kmallocAppend inside (by simp only [headerSize, tailSize, kernelHeapEnd] at *; omega)]
  refine ⟨by simp, ?_⟩
  rintro vars' ptr ⟨⟩
  rw [atStop] at inside ⊢
  let b : Block := ⟨stop, alignUp n, false, tailSize⟩
  have alloc : Alloc vars (alignUp n) (pre ++ [l]) stop
      { vars with heapEnd := b.fin + tailSize } (pre ++ [l] ++ [b]) (b.fin + tailSize) b.payload :=
    .append (by simp) atStop rfl
  have stored : Stored (writeWord (fresh m b.addr b.size l.addr) (l.addr + 12) b.addr)
      (pre ++ [l] ++ [b]) (b.fin + tailSize) := by
    have words := (layout_aligned held.stored.layout held.stored.wf).2
    have appended := append_stored (b := b) held.stored rfl rfl
      ⟨positive, aligned, by simp [b, tailSize]⟩ (by
      simp only [b, Block.fin, headerSize, tailSize, kernelHeapStart, kernelHeapEnd] at inside words ⊢
      omega)
    simpa using appended
  refine ⟨_, _, alloc, alloc.inv held stored, fun _ => covers, fun c member _ t magic => ?_⟩
  have low := held.stored.low member
  have top := held.stored.top
  have lowL := held.stored.low (List.mem_append_right pre (List.mem_singleton_self l))
  rcases List.mem_append.mp magic with magic | magic
  · obtain ⟨a, load⟩ := loads _ magic
    cases load
  · simp only [List.mem_cons, Access.store.injEq, reduceCtorEq, List.not_mem_nil, or_false,
      false_or] at magic
    simp only [heapMagic, Block.fin, headerSize, tailSize, kernelHeapEnd] at magic low top inside lowL ⊢
    omega

/-- An append that is not refused for its end finds `heap_end` behind every block and has room
below the end of the heap. -/
theorem append_guarded (held : HeapInv vars m bs stop) (sound : SoundAppend vars m n) (zero : n ≠ 0)
    (overflow : ¬ alignUp n < n) (large : ¬ alignUp n > heapRoom vars)
    (unfit : ∀ c ∈ bs, fits (alignUp n) c = false) (member : l ∈ bs) :
    newEnd vars (alignUp n) < vars.heapEnd ∨ newEnd vars (alignUp n) ≥ kernelHeapEnd ∨
      l.addr < vars.heapEnd ∧ vars.heapEnd + headerSize + alignUp n + tailSize < kernelHeapEnd := by
  by_cases above : newEnd vars (alignUp n) < vars.heapEnd
  · exact .inl above
  by_cases below : newEnd vars (alignUp n) ≥ kernelHeapEnd
  · exact .inr (.inl below)
  have nonempty : vars.heapHead ≠ 0 := by
    rw [ne_eq, held.head_eq_zero]
    exact List.ne_nil_of_mem member
  have appends : Appends vars m n := by
    refine ⟨zero, overflow, large, nonempty, ?_, above, below⟩
    intro a listed
    obtain ⟨c, member, rfl⟩ := (listed_iff held.stored held.head).mp listed
    obtain ⟨before, after, here⟩ := List.append_of_mem member
    have small := (addressed_of_stored held.stored c member).2
    have header := (here ▸ held.stored).around.2.2.2.1
    have refused := unfit c member
    rw [freeIn_eq header small, sizeIn_eq header small, Block.flag_ne_zero]
    simpa [fits] using refused
  obtain ⟨headers, inside⟩ := sound appends
  exact .inr (.inr ⟨headers _ ((listed_iff held.stored held.head).mpr ⟨l, member, rfl⟩), inside⟩)

/-- `kmalloc` run once: with enough fuel it returns, and what it returns is an
allocation in the list. -/
theorem kmalloc_refines (held : HeapInv vars m bs stop) (sound : SoundAppend vars m n)
    (fuel : Nat) : Serves vars bs stop n fuel ((kmalloc fuel vars n).run m) := by
  by_cases zero : n = 0
  · rw [kmalloc, if_pos zero]
    exact serves_refused held (by simp)
  by_cases overflow : alignUp n < n
  · rw [kmalloc, if_neg zero, if_pos overflow]
    exact serves_refused held (by simp)
  by_cases large : alignUp n > heapRoom vars
  · rw [kmalloc, if_neg zero, if_neg overflow, if_pos large]
    exact serves_refused held (by simp)
  obtain ⟨aligned, positive, covers⟩ := alignUp_spec zero overflow
  rw [kmalloc, if_neg zero, if_neg overflow, if_neg large]
  cases bs with
  | nil =>
    rw [if_pos (held.head_eq_zero.mpr rfl)]
    exact serves_first held aligned positive covers large
  | cons b bs =>
    have nonempty : vars.heapHead ≠ 0 := fun empty => by
      cases held.head_eq_zero.mp empty
    obtain ⟨kept, result, total, loads⟩ := run_searchFree held.stored.linked
      (addressed_of_stored held.stored) (alignUp n) fuel
    rw [if_neg nonempty, held.head, headAddr_cons, run_bind, kept]
    rcases result with none | found
    · rw [none]
      exact ⟨fun enough => absurd none (total (Nat.lt_of_succ_lt enough)), by simp⟩
    rw [found]
    rcases searchList_cases (alignUp n) b bs with ⟨pre, x, post, same, -, fit, search⟩ | ⟨unfit, search⟩
    · rw [search]
      rw [same] at held ⊢
      simpa using serves_reuse fuel held fit aligned positive covers loads
    · rw [search]
      obtain ⟨pre, l, same⟩ : ∃ pre l, b :: bs = pre ++ [l] :=
        ⟨_, _, (List.dropLast_concat_getLast (List.cons_ne_nil b bs)).symm⟩
      have behind : lastAddr b.addr bs = l.addr := by
        have := congrArg (lastAddr 0) same
        simpa [lastAddr_append] using this
      have lMember : l ∈ b :: bs := by simp [same]
      have guarded := append_guarded held sound zero overflow large unfit lMember
      rw [behind]
      rw [same] at held ⊢
      simpa using serves_append fuel held guarded aligned positive covers loads

end ZynthexOS.HeapAllocation
