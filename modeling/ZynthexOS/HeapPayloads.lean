import ZynthexOS.HeapCanaries

/-! What the heap keeps for its users. A call writes headers and tail words only, so that every
payload in use keeps its bytes until it is freed, and a store to a payload changes neither the
blocks nor another payload. -/
namespace ZynthexOS.HeapPayloads
open Lib Lib.Memory Mm HeapLayout HeapRepresentation HeapPrograms HeapConditions HeapAllocation
  HeapRelease HeapRuns HeapDisjointness HeapCanaries

/-- The word at an address lies in the payload. -/
def WordOf (b : Block) (c : Nat) : Prop := b.payload ≤ c ∧ c + 4 ≤ b.fin

/-- So does the byte. -/
def ByteOf (b : Block) (x : Nat) : Prop := b.payload ≤ x ∧ x < b.fin

/-- A payload whose words stay keeps its bytes. -/
theorem bytes_of_words (wf : b.Wf) (words : ∀ c, WordOf b c → readWord m' c = readWord m c)
    (inside : ByteOf b x) : m' x = m x := by
  obtain ⟨low, high⟩ := inside
  have positive := wf.positive
  have aligned := wf.aligned
  have large : b.payload + 8 ≤ b.fin := by
    simp only [Block.payload, Block.fin]
    omega
  by_cases near : x + 4 ≤ b.fin
  · have first := bytes_of_readWord (words x ⟨low, near⟩) 0 (by decide)
    rwa [Nat.add_zero] at first
  · have last := bytes_of_readWord (words (b.fin - 4) ⟨by omega, by omega⟩) (x - (b.fin - 4)) (by omega)
    rwa [Nat.add_sub_cancel' (by omega)] at last

/-! ## `kmalloc` -/

/-- A word of a payload lies apart from the header of every block. -/
theorem word_off_header (layout : Layout a bs e) (hb : b ∈ bs) (hz : z ∈ bs) (word : WordOf b c)
    (field : k + 4 ≤ headerSize) : Apart (z.addr + k) c := by
  obtain ⟨low, high⟩ := word
  simp only [Block.payload, Block.fin, headerSize] at low high field
  rcases blocks_apart layout hb hz with rfl | apart
  · omega
  · simp only [Block.width, headerSize] at apart
    omega

theorem reuse_keeps (held : Stored m (pre ++ x :: post) stop) (fit : fits size x = true)
    (member : b ∈ pre ++ post) (word : WordOf b c) :
    readWord ((kmallocReuse x.addr size).run m).mem c = readWord m c := by
  have inList := mem_whole x member
  have atX : x ∈ pre ++ x :: post := by simp
  have layout := held.layout
  obtain ⟨layoutPre, layoutPost, -, header, -⟩ := held.around
  have bound := fin_small held atX
  have zbound := headAddr_small held
  simp only [fits, Bool.and_eq_true, decide_eq_true_eq] at fit
  by_cases splits : Splits x size
  · rw [run_kmallocReuse_split header splits bound zbound]
    have outside : c ≤ x.addr ∨ c = x.addr + 16 ∨ x.fin ≤ c := by
      obtain ⟨low, high⟩ := word
      rcases List.mem_append.mp member with before | after
      · have room := (layoutPre.mem before).2
        simp only [Block.payload, Block.fin, Block.width, headerSize] at low high room ⊢
        omega
      · have room := (layoutPost.mem after).1
        simp only [Block.payload, Block.fin, Block.width, headerSize] at low high room ⊢
        omega
    refine (readWord_split splits outside).trans (readWord_relink ?_)
    cases post with
    | nil => exact .inl rfl
    | cons z post => exact .inr (word_off_header layout inList (by simp) word (by decide))
  · rw [run_kmallocReuse_whole header splits fit.2 bound]
    exact readWord_writeWord_apart (word_off_header layout inList atX word (by decide))

theorem append_keeps (held : Stored m (pre ++ [l]) vars.heapEnd)
    (inside : vars.heapEnd + headerSize + size + tailSize < kernelHeapEnd) (member : b ∈ pre ++ [l])
    (word : WordOf b c) : readWord ((kmallocAppend vars l.addr size).run m).mem c = readWord m c := by
  have lowL := (held.low (List.mem_append_right pre (List.mem_singleton_self l))).2
  have low := (held.low member).2
  rw [run_kmallocAppend inside (by
    simp only [Block.fin, headerSize, tailSize, kernelHeapEnd] at lowL inside ⊢
    omega)]
  have fresh_eq : fresh m vars.heapEnd size l.addr = blockAt m vars.heapEnd size 0 0 l.addr := rfl
  have next := word_off_header (k := 12) held.layout member
    (List.mem_append_right pre (List.mem_singleton_self l)) word (by decide)
  rw [readWord_writeWord_apart next, fresh_eq]
  exact readWord_blockAt (.inl (Nat.le_trans word.2 (by omega)))

/-- `kmalloc` leaves every payload in use. -/
theorem kmalloc_keeps (held : HeapInv vars m bs stop) (sound : SoundAppend vars m n) (fuel : Nat)
    (member : b ∈ bs) (used : b.free = false) (word : WordOf b c) :
    readWord ((kmalloc fuel vars n).run m).mem c = readWord m c := by
  by_cases zero : n = 0
  · rw [kmalloc, if_pos zero, run_pure]
  by_cases overflow : alignUp n < n
  · rw [kmalloc, if_neg zero, if_pos overflow, run_pure]
  by_cases large : alignUp n > heapRoom vars
  · rw [kmalloc, if_neg zero, if_neg overflow, if_pos large, run_pure]
  rw [kmalloc, if_neg zero, if_neg overflow, if_neg large]
  obtain ⟨d, ds, rfl⟩ := List.exists_cons_of_ne_nil (List.ne_nil_of_mem member)
  have nonempty : vars.heapHead ≠ 0 := fun empty => by
    cases held.head_eq_zero.mp empty
  obtain ⟨kept, result, -, -⟩ := run_searchFree held.stored.linked
    (addressed_of_stored held.stored) (alignUp n) fuel
  rw [if_neg nonempty, held.head, headAddr_cons, run_bind, kept]
  rcases result with none | found
  · rw [none, run_pure]
  rw [found]
  rcases searchList_cases (alignUp n) d ds with ⟨pre, x, post, same, -, fit, search⟩ | ⟨unfit, search⟩
  · rw [search]
    rw [same] at held member
    have isFree : x.free = true := by
      simp only [fits, Bool.and_eq_true] at fit
      exact fit.1
    have other : b ≠ x := by
      rintro rfl
      rw [isFree] at used
      cases used
    exact reuse_keeps held.stored fit (mem_beside member other) word
  · rw [search]
    obtain ⟨pre, l, same⟩ : ∃ pre l, d :: ds = pre ++ [l] :=
      ⟨_, _, (List.dropLast_concat_getLast (List.cons_ne_nil d ds)).symm⟩
    have behind : lastAddr d.addr ds = l.addr := by
      have := congrArg (lastAddr 0) same
      simpa [lastAddr_append] using this
    have guarded := append_guarded held sound zero overflow large unfit (l := l) (by simp [same])
    rw [behind]
    rw [same] at held member
    by_cases full : newEnd vars (alignUp n) < vars.heapEnd ∨ newEnd vars (alignUp n) ≥ kernelHeapEnd
    · rw [run_map, run_kmallocAppend_full full]
    obtain ⟨below, inside⟩ := (guarded.resolve_left fun above => full (.inl above)).resolve_left
      fun end_ => full (.inr end_)
    have atStop : vars.heapEnd = stop := by
      rcases held.edge with edge | ⟨k, isLast, above⟩
      · exact edge
      · obtain rfl : l = k := by simpa using isLast
        omega
    rw [run_map]
    exact append_keeps (atStop ▸ held.stored) inside member word

/-! ## `kfree` -/

/-- The tail words a release may touch lie behind the blocks before it and before the payloads of
the blocks behind it. -/
theorem tails_beside (layout : Layout a (before ++ left.toList ++ x :: (right.toList ++ after)) stop)
    (next : ∀ y ∈ right, tailSize ≤ x.slack + y.slack)
    (prev : ∀ w ∈ left, tailSize ≤ w.slack + (withNext x right).slack)
    (member : t ∈ [x.fin, (withNext x right).fin, (released left x right).fin]) :
    (∀ b ∈ before, b.addr + b.width ≤ t) ∧ ∀ b ∈ after, t ≤ b.addr := by
  obtain ⟨c, first, here, rest⟩ := tiles_append.mp layout
  obtain ⟨d, first, atLeft⟩ := tiles_append.mp first
  obtain ⟨e, atRight, rest⟩ := tiles_append.mp rest
  have bounds : d ≤ t ∧ t ≤ e := by
    simp only [List.mem_cons, List.not_mem_nil, or_false] at member
    cases left <;> cases right <;>
      simp only [Option.toList_none, Option.toList_some, tiles_nil, tiles_cons, Block.width,
        Block.fin, withNext_none, withNext_some, withPrev_none, withPrev_some, released, release,
        join_addr, join_size, join_slack, headerSize, tailSize, Option.mem_def, Option.some.injEq,
        forall_eq', reduceCtorEq, false_imp_iff, implies_true] at * <;>
      omega
  exact ⟨fun b inside => (first.mem inside).2.trans bounds.1,
    fun b inside => bounds.2.trans (rest.mem inside).1⟩

/-- `kfree` of a live pointer leaves every other payload in use. -/
theorem kfree_keeps (held : HeapInv vars m (pre ++ x :: post) stop) (used : x.free = false)
    (room : MergeRoom r vars m x.addr) (fuel : Nat) (member : b ∈ pre ++ post) (usedB : b.free = false)
    (word : WordOf b c) : readWord ((kfree fuel vars x.payload).run m).mem c = readWord m c := by
  by_cases ends : x.fin ≤ vars.heapEnd
  · obtain ⟨left, right, before, after, around⟩ := neighbours_exist vars.heapEnd pre post
    have touches := kfree_touches held used around ends room fuel
    have below := (run_kfree_below held used ends fuel).1
    obtain ⟨next, prev⟩ := slack_enough held around below room
    have layout := held.stored.layout
    have inList := mem_whole x member
    have untouched : ∀ acc ∈ ((kfree fuel vars x.payload).run m).log, Apart c acc.addr := by
      intro acc inside
      rcases touches acc inside with ⟨z, atZ, low, high⟩ | tail
      · have apart := word_off_header (k := acc.addr - z.addr) layout inList atZ word (by omega)
        rw [Nat.add_sub_cancel' low] at apart
        omega
      · obtain ⟨rfl, rfl, leftFree, rightFree, -⟩ := around
        obtain ⟨behind, ahead⟩ := tails_beside layout (fun y here => (next y here).1) prev tail
        obtain ⟨low, high⟩ := word
        simp only [List.mem_append, Option.mem_toList] at member
        rcases member with (member | member) | member | member
        · have bound := behind b member
          simp only [Block.fin, Block.width] at bound high
          omega
        · rw [(leftFree b member).1] at usedB
          cases usedB
        · rw [(rightFree b member).1] at usedB
          cases usedB
        · have bound := ahead b member
          simp only [Block.payload, headerSize] at bound low
          omega
    -- storing the word it holds changes nothing, and the call leaves what is stored
    have same : writeWord m c (readWord m c) = m :=
      writeWord_self (wrap_of_lt (readWord_lt m c)).symm
    have kept := ((framed_kfree fuel vars x.payload).same (v := readWord m c) untouched).2
    rw [same] at kept
    rw [kept, readWord_writeWord_same, wrap_of_lt (readWord_lt m c)]
  · rw [(kfree_refused held (Nat.lt_of_not_le ends) fuel).2.1]

/-! ## Calls and stores -/

theorem step_keeps (held : Represents s bs stop) (legal : Legal s call) (roomy : Roomy r s call)
    (step : HeapStep s call s') (member : b ∈ bs) (used : b.free = false)
    (other : ∀ ptr, call = .kfree ptr → b.payload ≠ ptr.toNat) (word : WordOf b c) :
    readWord s'.mem c = readWord s.mem c := by
  obtain ⟨inv, owns⟩ := held
  obtain ⟨fuel, returned⟩ := step
  cases call with
  | kmalloc size =>
    obtain ⟨result, -, rfl⟩ := Option.map_eq_some_iff.mp returned
    exact kmalloc_keeps inv roomy fuel member used word
  | kfree ptr =>
    obtain ⟨result, -, rfl⟩ := Option.map_eq_some_iff.mp returned
    obtain ⟨pre, x, post, rfl, atX, usedX⟩ := legal_block owns legal
    have apart : b ≠ x := by
      rintro rfl
      exact other ptr rfl atX.symm
    rw [Roomy, atX, sub32_payload inv (by simp)] at roomy
    have kept := kfree_keeps inv usedX roomy fuel (mem_beside member apart) used word
    rw [← atX] at kept
    exact kept

/-- A call keeps the bytes behind every live pointer but the one it frees. -/
theorem call_keeps (held : Represents s bs stop) (legal : Legal s call) (roomy : Roomy r s call)
    (step : HeapStep s call s') (live : (p, n) ∈ s.live) (other : ∀ ptr, call = .kfree ptr → p ≠ ptr.toNat)
    (small : k < n) : s'.mem (p + k) = s.mem (p + k) := by
  obtain ⟨b, member, used, here, size⟩ := held.2.block (p, n) live
  dsimp only at here size
  have inside : ByteOf b (p + k) := by
    simp only [ByteOf, Block.fin, Block.payload] at here ⊢
    omega
  refine bytes_of_words (held.1.stored.wf b member) (fun c word => ?_) inside
  exact step_keeps held legal roomy step member used (fun ptr frees => here ▸ other ptr frees) word

/-- Memory that changed behind live pointers only. -/
def Within (live : List (Nat × Nat)) (m m' : Mem) : Prop :=
  ∀ x, m' x ≠ m x → ∃ a ∈ live, a.1 ≤ x ∧ x < a.1 + a.2

/-- Such a change keeps the blocks. -/
theorem represents_within (held : Represents s bs stop) (within : Within s.live s.mem m') :
    Represents { s with mem := m' } bs stop := by
  obtain ⟨⟨stored, start, head, edge, last⟩, owns⟩ := held
  refine ⟨⟨⟨?_, stored.layout, stored.wf, stored.top⟩, start, head, edge, last⟩, owns⟩
  refine stored.linked.frame fun c member w word => readWord_congr fun i small => ?_
  by_contra changed
  obtain ⟨a, live, low, high⟩ := within (w + i) changed
  obtain ⟨b, inList, -, here, size⟩ := owns.block a live
  simp only [blockWords, List.mem_cons, List.not_mem_nil, or_false] at word
  have positive := (stored.wf c member).positive
  simp only [Block.fin, Block.payload, headerSize] at here word
  rcases blocks_apart stored.layout inList member with rfl | apart
  · omega
  · simp only [Block.width, headerSize] at apart
    omega

/-- What lies behind two live pointers is apart. -/
theorem live_apart (held : Represents s bs stop) (live : (p, n) ∈ s.live) (other : (q, l) ∈ s.live)
    (ne : p ≠ q) : p + n ≤ q ∨ q + l ≤ p := by
  obtain ⟨x, atX, -, hereX, sizeX⟩ := held.2.block (p, n) live
  obtain ⟨y, atY, -, hereY, sizeY⟩ := held.2.block (q, l) other
  simp only [Block.payload, headerSize] at hereX hereY sizeX sizeY
  rcases blocks_apart held.1.stored.layout atX atY with rfl | apart
  · omega
  · simp only [Block.width, headerSize] at apart
    omega

/-- The byte behind a live pointer is behind no other one. -/
theorem live_byte (held : Represents s bs stop) (live : (p, n) ∈ s.live) (other : (q, l) ∈ s.live)
    (small : j < n) (below : k < l) (same : p + j = q + k) : p = q ∧ j = k := by
  by_cases here : p = q
  · omega
  · rcases live_apart held live other here with apart | apart <;> omega

/-! ## Users of the heap -/

/-- A user calls the heap, or stores a byte behind a pointer. -/
inductive UserCall where
  | call (call : HeapCall)
  | store (ptr offset : Nat) (byte : UInt8)

/-- The heap, and the bytes that were stored behind each live pointer since it was handed out. -/
structure Users where
  heap : HeapState
  stored : Nat → Nat → Option UInt8

/-- Bytes are forgotten when their pointer is freed. -/
def UserStep (s : Users) : UserCall → Users → Prop
  | .call call, s' => HeapStep s.heap call s'.heap ∧
    s'.stored = fun p => if Live s.heap p ∧ Live s'.heap p then s.stored p else fun _ => none
  | .store ptr offset byte, s' =>
    s' = ⟨{ s.heap with mem := Function.update s.heap.mem (ptr + offset) byte },
      fun p k => if p = ptr ∧ k = offset then some byte else s.stored p k⟩

/-- Calls meet their conditions, and stores stay below the size that was requested. -/
def Disciplined (s : Users) : UserCall → Prop
  | .call call => Legal s.heap call ∧ Roomy 0 s.heap call
  | .store ptr offset _ => ∃ n, (ptr, n) ∈ s.heap.live ∧ offset < n

def NothingStored (s : Users) : Prop := Initial s.heap ∧ ∀ p k, s.stored p k = none

/-- What was stored is still there. -/
structure Kept (s : Users) (bs : List Block) (stop : Nat) : Prop where
  held : Represents s.heap bs stop
  bytes : ∀ p n k v, (p, n) ∈ s.heap.live → k < n → s.stored p k = some v → s.heap.mem (p + k) = v

theorem kept_call (kept : Kept s bs stop) (legal : Legal s.heap call) (roomy : Roomy 0 s.heap call)
    (step : UserStep s (.call call) s') : ∃ bs' stop', Kept s' bs' stop' := by
  obtain ⟨step, stored⟩ := step
  obtain ⟨bs', stop', did, held'⟩ := step_cases kept.held legal roomy step
  refine ⟨bs', stop', held', fun p n k v live small byte => ?_⟩
  rw [stored] at byte
  dsimp only at byte
  by_cases before : Live s.heap p ∧ Live s'.heap p
  · rw [if_pos before] at byte
    have old : (p, n) ∈ s.heap.live ∧ ∀ ptr, call = .kfree ptr → p ≠ ptr.toNat := by
      obtain ⟨⟨q, l⟩, wasLive, rfl⟩ := List.mem_map.mp before.1
      cases did with
      | kmalloc alloc grown =>
        refine ⟨?_, fun ptr frees => by cases frees⟩
        have distinct := held'.2.distinct
        rw [grown] at live distinct
        split_ifs at live distinct
        · exact live
        · rcases List.mem_cons.mp live with new | old
          · cases new
            exact absurd rfl ((List.pairwise_cons.mp distinct).1 (q, l) wasLive)
          · exact old
      | refused _ _ _ shrunk =>
        rw [shrunk] at live
        have member := List.mem_filter.mp live
        refine ⟨member.1, fun ptr frees => ?_⟩
        cases frees
        simpa using member.2
      | kfree _ here _ _ _ shrunk =>
        rw [shrunk] at live
        have member := List.mem_filter.mp live
        refine ⟨member.1, fun ptr frees => ?_⟩
        cases frees
        rw [here]
        simpa using member.2
    rw [call_keeps kept.held legal roomy step old.1 old.2 small]
    exact kept.bytes p n k v old.1 small byte
  · rw [if_neg before] at byte
    cases byte

theorem kept_store (kept : Kept s bs stop) (live : (ptr, n) ∈ s.heap.live) (inside : offset < n)
    (step : UserStep s (.store ptr offset byte) s') : Kept s' bs stop := by
  cases step
  refine ⟨represents_within kept.held fun x changed => ⟨_, live, ?_⟩, fun p l k v other small stored => ?_⟩
  · by_cases here : x = ptr + offset
    · omega
    · exact absurd (Function.update_of_ne here _ _) changed
  · dsimp only at stored other ⊢
    by_cases here : p = ptr ∧ k = offset
    · rw [if_pos here, Option.some.injEq] at stored
      rw [here.1, here.2, Function.update_self, stored]
    · rw [if_neg here] at stored
      rw [Function.update_of_ne fun same => here (live_byte kept.held other live small inside same)]
      exact kept.bytes p l k v other small stored

/-- In every run of calls that meet their conditions and of stores behind live pointers, in whatever
order, a byte behind a live pointer is the one that was stored there last. -/
theorem heap_keeps_bytes (reached : Reachable NothingStored (Guarded Disciplined UserStep) s)
    (live : (p, n) ∈ s.heap.live) (small : k < n) (stored : s.stored p k = some v) :
    s.heap.mem (p + k) = v := by
  have run : ∃ bs stop, Kept s bs stop := by
    refine reached.induct (fun s => ∃ bs stop, Kept s bs stop) ?_ ?_
    · rintro ⟨⟨vars, m, live⟩, stored⟩ ⟨⟨rfl, rfl⟩, none⟩
      refine ⟨[], kernelHeapStart, ⟨heapInit_inv m, List.Pairwise.nil, by simp⟩, ?_⟩
      intro p n k v live
      cases live
    · rintro s (call | ⟨ptr, offset, byte⟩) s' ⟨bs, stop, kept⟩ ⟨allowed, step⟩
      · exact kept_call kept allowed.1 allowed.2 step
      · obtain ⟨n, live, inside⟩ := allowed
        exact ⟨bs, stop, kept_store kept live inside step⟩
  obtain ⟨bs, stop, kept⟩ := run
  exact kept.bytes p n k v live small stored

/-- A pointer stays live until it is freed. -/
theorem live_step (live : Live s p) (other : ∀ ptr, call = .kfree ptr → ptr.toNat ≠ p) (step : HeapStep s call s') :
    Live s' p := by
  obtain ⟨fuel, returned⟩ := step
  obtain ⟨a, member, rfl⟩ := List.mem_map.mp live
  cases call with
  | kmalloc size =>
    obtain ⟨⟨vars', ptr⟩, -, rfl⟩ := Option.map_eq_some_iff.mp returned
    refine List.mem_map.mpr ⟨a, ?_, rfl⟩
    dsimp only
    split_ifs
    · exact member
    · exact List.mem_cons_of_mem _ member
  | kfree ptr =>
    obtain ⟨⟨vars', message⟩, -, rfl⟩ := Option.map_eq_some_iff.mp returned
    refine List.mem_map.mpr ⟨a, List.mem_filter.mpr ⟨member, ?_⟩, rfl⟩
    exact decide_eq_true fun same => other ptr rfl same.symm

/-- Tested calls among users forget nothing that is not freed. -/
theorem users_tested (reached : Reachable NothingStored (Guarded Disciplined UserStep) s)
    (passed : s.heap.passes (roomyTest 0) calls = true) :
    ∃ s', s.heap.calls 9 calls = some s'.heap ∧ Reachable NothingStored (Guarded Disciplined UserStep) s' ∧
      ∀ p, Live s.heap p → (∀ ptr, .kfree ptr ∈ calls → ptr.toNat ≠ p) → s'.stored p = s.stored p := by
  induction calls generalizing s with
  | nil => exact ⟨s, rfl, reached, fun p _ _ => rfl⟩
  | cons call rest ih =>
    rw [HeapState.passes, Bool.and_eq_true, Bool.and_eq_true, Option.any_eq_true] at passed
    obtain ⟨⟨tested, legal⟩, next, taken, passed⟩ := passed
    have legal := of_decide_eq_true legal
    have step : UserStep s (.call call)
        ⟨next, fun p => if Live s.heap p ∧ Live next p then s.stored p else fun _ => none⟩ := ⟨⟨9, taken⟩, rfl⟩
    have disciplined : Disciplined s (.call call) := ⟨legal, roomy_of_test tested⟩
    obtain ⟨s', run, reached, kept⟩ := ih (reached.next ⟨disciplined, step⟩) passed
    refine ⟨s', ?_, reached, fun p live unfreed => ?_⟩
    · rw [HeapState.calls, if_pos legal, taken]
      exact run
    · have stays : Live next p :=
        live_step live (fun ptr same => unfreed ptr (same ▸ List.mem_cons_self)) ⟨9, taken⟩
      rw [kept p stays fun ptr member => unfreed ptr (List.mem_cons_of_mem _ member)]
      exact if_pos ⟨live, stays⟩

/-- Four blocks, and a byte stored in the last one. -/
def fourBlocks : HeapState := .after [.kmalloc 8, .kmalloc 8, .kmalloc 8, .kmalloc 8]

def lastStored : HeapState := { fourBlocks with mem := Function.update fourBlocks.mem (0x400070 + 3) 7 }

/-- The byte is still there when the two blocks in front have been merged and used again, and a
fifth block was appended. -/
theorem heap_keeps_bytes_merged : ∃ s,
    lastStored.calls 9 [.kfree 0x400030, .kfree 0x400050, .kmalloc 40, .kmalloc 8] = some s ∧
      s.live = [(0x400090, 8), (0x400030, 40), (0x400070, 8), (0x400014, 8)] ∧ s.mem (0x400070 + 3) = 7 := by
  have nothing : NothingStored ⟨clearHeap, fun _ _ => none⟩ := ⟨clearHeap_initial, fun _ _ => rfl⟩
  have before : clearHeap.passes (roomyTest 0) [.kmalloc 8, .kmalloc 8, .kmalloc 8, .kmalloc 8] = true := by
    decide +kernel
  have after : lastStored.passes (roomyTest 0)
      [.kfree 0x400030, .kfree 0x400050, .kmalloc 40, .kmalloc 8] = true := by
    decide +kernel
  obtain ⟨⟨heap, stored⟩, four, reached, -⟩ := users_tested (.start nothing) before
  obtain rfl : heap = fourBlocks := by
    rw [fourBlocks, HeapState.after, four]
    rfl
  have live : (0x400070, 8) ∈ fourBlocks.live := by decide +kernel
  have reached : Reachable NothingStored (Guarded Disciplined UserStep)
      ⟨lastStored, fun p k => if p = 0x400070 ∧ k = 3 then some 7 else stored p k⟩ :=
    reached.next (a := .store 0x400070 3 7) ⟨⟨8, live, by decide⟩, rfl⟩
  obtain ⟨s, run, reached, kept⟩ := users_tested reached after
  have held : s.heap.live = [(0x400090, 8), (0x400030, 40), (0x400070, 8), (0x400014, 8)] := by
    have lives : (lastStored.calls 9 [.kfree 0x400030, .kfree 0x400050, .kmalloc 40, .kmalloc 8]).map (·.live) =
        some [(0x400090, 8), (0x400030, 40), (0x400070, 8), (0x400014, 8)] := by decide +kernel
    rw [run] at lives
    exact Option.some.inj lives
  refine ⟨s.heap, run, held, heap_keeps_bytes reached (n := 8) (k := 3) ?_ (by decide) ?_⟩
  · rw [held]
    simp
  · rw [kept 0x400070 (List.mem_map_of_mem live) (by simp)]
    simp

end ZynthexOS.HeapPayloads
