import ZynthexOS.Lib.Runs
import ZynthexOS.HeapRelease
import ZynthexOS.HeapVariables

/-! The heap as a system of calls. A state holds the variables, memory and the
pointers that are live: returned by `kmalloc` and not freed since. The ledger
`Owns` says which blocks of the list the live pointers own, and every call that
meets its conditions keeps it. -/
namespace ZynthexOS.HeapRuns
open Lib Lib.Memory Mm HeapLayout HeapRepresentation HeapPrograms HeapConditions HeapAllocation
  HeapRelease HeapVariables

/-- `live` lists the pointers with the sizes they were requested with. -/
structure HeapState where
  vars : HeapVars
  mem : Mem
  live : List (Nat × Nat)

inductive HeapCall where
  | kmalloc (size : UInt32)
  | kfree (ptr : UInt32)
  deriving DecidableEq, Repr

/-- One call with the given fuel, `none` when a loop of it runs out. -/
def HeapState.call (s : HeapState) (fuel : Nat) : HeapCall → Option HeapState
  | .kmalloc size =>
    let o := (kmalloc fuel s.vars size.toNat).run s.mem
    o.result.map fun (vars, ptr) =>
      ⟨vars, o.mem, if ptr = 0 then s.live else (ptr, size.toNat) :: s.live⟩
  | .kfree ptr =>
    let o := (kfree fuel s.vars ptr.toNat).run s.mem
    o.result.map fun (vars, _) => ⟨vars, o.mem, s.live.filter (·.1 ≠ ptr.toNat)⟩

/-- A call that returns. -/
def HeapStep (s : HeapState) (call : HeapCall) (s' : HeapState) : Prop :=
  ∃ fuel, s.call fuel call = some s'

/-- Right after `heap_init`, whatever memory holds. -/
def Initial (s : HeapState) : Prop := s.vars = heapInit heapStatics ∧ s.live = []

/-- `kfree` is only given live pointers. -/
def Legal (s : HeapState) : HeapCall → Prop
  | .kmalloc _ => True
  | .kfree ptr => ptr.toNat ∈ s.live.map Prod.fst

instance : DecidablePred (Legal s) := fun call =>
  match call with
  | .kmalloc _ => .isTrue trivial
  | .kfree ptr => inferInstanceAs (Decidable (ptr.toNat ∈ s.live.map Prod.fst))

/-- A sequence of legal calls, run with the given fuel. -/
def HeapState.calls (fuel : Nat) : HeapState → List HeapCall → Option HeapState
  | s, [] => some s
  | s, call :: rest =>
    if Legal s call then (s.call fuel call).bind fun s' => s'.calls fuel rest else none

theorem calls_reachable (reached : Reachable Initial (Guarded Legal HeapStep) s)
    (run : s.calls fuel calls = some s') : Reachable Initial (Guarded Legal HeapStep) s' := by
  induction calls generalizing s with
  | nil =>
    cases run
    exact reached
  | cons call rest ih =>
    simp only [HeapState.calls] at run
    split at run
    · rename_i legal
      obtain ⟨next, taken, run⟩ := Option.bind_eq_some_iff.mp run
      exact ih (reached.next ⟨legal, fuel, taken⟩) run
    · cases run

/-! ## The variables -/

theorem step_moves (step : HeapStep s call s') : Moves s.vars s'.vars := by
  obtain ⟨fuel, returned⟩ := step
  cases call with
  | kmalloc size =>
    obtain ⟨⟨vars', ptr⟩, result, rfl⟩ := Option.map_eq_some_iff.mp returned
    exact kmalloc_moves fuel s.vars size.toNat s.mem vars' ptr result
  | kfree ptr =>
    obtain ⟨⟨vars', message⟩, result, rfl⟩ := Option.map_eq_some_iff.mp returned
    exact kfree_moves fuel s.vars ptr.toNat s.mem vars' message result

theorem words_reached (reached : Reachable Initial HeapStep s) : Words s.vars := by
  refine reached.induct (fun s => Words s.vars) ?_ fun s call s' words step =>
    (step_moves step).words words
  rintro s ⟨start, -⟩
  rw [start]
  exact ⟨by decide, by decide, by decide⟩

/-! ## The ledger -/

/-- Every live pointer is the payload of its own used block, which is at least
as large as the request. -/
structure Owns (bs : List Block) (live : List (Nat × Nat)) : Prop where
  distinct : live.Pairwise fun a b => a.1 ≠ b.1
  block : ∀ a ∈ live, ∃ b ∈ bs, b.free = false ∧ b.payload = a.1 ∧ a.2 ≤ b.size

/-- The used blocks an allocation keeps, and the block it hands out. -/
theorem Owns.alloc (owns : Owns bs live)
    (alloc : Alloc vars (alignUp n) bs stop vars' bs' stop' ptr) (held : HeapInv vars m bs stop)
    (fits : ptr ≠ 0 → n ≤ alignUp n) :
    Owns bs' (if ptr = 0 then live else (ptr, n) :: live) := by
  have small := addressed_of_stored held.stored
  -- what a live pointer owns is still there, and is not the new block
  have grow : ∀ x : Block, x.payload = ptr → (∃ b ∈ bs', b.free = false ∧ b.payload = ptr ∧
        alignUp n ≤ b.size) → (∀ b ∈ bs, b.free = false → b.addr ≠ x.addr) →
      Owns bs' (if ptr = 0 then live else (ptr, n) :: live) := by
    rintro x rfl ⟨b, member, used, here, large⟩ apart
    have ne : x.payload ≠ 0 := by simp [Block.payload, headerSize]
    rw [if_neg ne]
    refine ⟨List.pairwise_cons.mpr ⟨fun a inside same => ?_, owns.distinct⟩, ?_⟩
    · obtain ⟨c, member, used, here, -⟩ := owns.block a inside
      have other := apart c member used
      simp only [Block.payload] at same here
      omega
    · intro a inside
      rcases List.mem_cons.mp inside with rfl | inside
      · exact ⟨b, member, used, here, Nat.le_trans (fits ne) large⟩
      · obtain ⟨c, member, used, here⟩ := owns.block a inside
        exact ⟨c, alloc.keeps member (by simp [used]), used, here⟩
  cases alloc with
  | refused => exact owns
  | @first b empty new =>
    subst empty new
    exact grow _ rfl ⟨_, List.mem_singleton_self _, rfl, rfl, Nat.le_refl _⟩ (by simp)
  | @reuse pre x post same fit =>
    subst same
    simp only [HeapLayout.fits, Bool.and_eq_true, decide_eq_true_eq] at fit
    refine grow x rfl ?_ fun b member used => ?_
    · unfold carve
      split
      · exact ⟨splitFirst x (alignUp n), by simp, rfl, rfl, Nat.le_refl _⟩
      · exact ⟨{ x with free := false }, by simp, rfl, rfl, fit.2⟩
    · intro same
      rw [layout_inj held.stored.layout member (by simp) same, fit.1] at used
      cases used
  | @append b nonempty atStop new =>
    subst new
    refine grow _ rfl ⟨_, List.mem_append_right _ (List.mem_singleton_self _), rfl, rfl, Nat.le_refl _⟩
      fun c member _ => ?_
    have low := held.stored.low member
    simp only [Block.fin, headerSize] at low ⊢
    omega

theorem Owns.release (owns : Owns (pre ++ x :: post) live)
    (around : Neighbours edge pre post left right before after)
    (given : GivesBack vars (before ++ released left x right :: after) stop vars' bs' stop') :
    Owns bs' (live.filter (·.1 ≠ x.payload)) := by
  refine ⟨owns.distinct.filter _, fun a inside => ?_⟩
  obtain ⟨inside, other⟩ := List.mem_filter.mp inside
  obtain ⟨b, member, used, here, large⟩ := owns.block a inside
  have rest : b ∈ pre ++ post := by
    refine mem_beside member ?_
    rintro rfl
    simp [here] at other
  exact ⟨b, given.used (used_released around rest used) used, used, here, large⟩

/-! ## Runs whose calls keep to the conditions -/

/-- The condition of a call: an append finds `heap_end` behind every block, and
merged payloads end `room` bytes before the next header. -/
def Roomy (room : Nat) (s : HeapState) : HeapCall → Prop
  | .kmalloc size => SoundAppend s.vars s.mem size.toNat
  | .kfree ptr => MergeRoom room s.vars s.mem (sub32 ptr.toNat headerSize)

/-- The blocks behind a state. -/
def Represents (s : HeapState) (bs : List Block) (stop : Nat) : Prop :=
  HeapInv s.vars s.mem bs stop ∧ Owns bs s.live

/-- What one call does to the blocks and to the live pointers. -/
inductive CallOn (s : HeapState) (bs : List Block) (stop : Nat) :
    HeapCall → HeapState → List Block → Nat → Prop where
  | kmalloc {size : UInt32} {s' : HeapState} {bs' : List Block} {stop' ptr : Nat} :
      Alloc s.vars (alignUp size.toNat) bs stop s'.vars bs' stop' ptr →
      s'.live = (if ptr = 0 then s.live else (ptr, size.toNat) :: s.live) →
      CallOn s bs stop (.kmalloc size) s' bs' stop'
  | refused {ptr : UInt32} {s' : HeapState} : s.vars.heapEnd < stop → s'.vars = s.vars →
      s'.mem = s.mem → s'.live = s.live.filter (·.1 ≠ ptr.toNat) →
      CallOn s bs stop (.kfree ptr) s' bs stop
  | kfree {ptr : UInt32} {s' : HeapState} {pre : List Block} {x : Block} {post : List Block}
      {left right : Option Block} {before after bs' : List Block} {stop' : Nat} :
      bs = pre ++ x :: post → ptr.toNat = x.payload → x.free = false →
      Neighbours s.vars.heapEnd pre post left right before after →
      GivesBack s.vars (before ++ released left x right :: after) stop s'.vars bs' stop' →
      s'.live = s.live.filter (·.1 ≠ x.payload) → CallOn s bs stop (.kfree ptr) s' bs' stop'

/-- The block of the list that a legal `kfree` is given. -/
theorem legal_block (owns : Owns bs s.live) (legal : Legal s (.kfree ptr)) :
    ∃ pre x post, bs = pre ++ x :: post ∧ ptr.toNat = x.payload ∧ x.free = false := by
  obtain ⟨a, inside, here⟩ := List.mem_map.mp legal
  obtain ⟨x, member, used, payload, -⟩ := owns.block a inside
  obtain ⟨pre, post, same⟩ := List.append_of_mem member
  exact ⟨pre, x, post, same, by rw [← here, payload], used⟩

theorem sub32_payload (held : HeapInv vars m bs stop) (member : x ∈ bs) :
    sub32 x.payload headerSize = x.addr := by
  have small := (addressed_of_stored held.stored x member).2
  simp only [Block.payload, headerSize]
  rw [sub32_of_le (by omega) (by omega), Nat.add_sub_cancel]

/-- A `kmalloc` that returns, with the answer it gave. -/
theorem kmalloc_cases (held : Represents s bs stop) (roomy : Roomy r s (.kmalloc size))
    (step : HeapStep s (.kmalloc size) s') :
    ∃ fuel ptr bs' stop',
      ((kmalloc fuel s.vars size.toNat).run s.mem).result = some (s'.vars, ptr) ∧
        Alloc s.vars (alignUp size.toNat) bs stop s'.vars bs' stop' ptr ∧
        s'.live = (if ptr = 0 then s.live else (ptr, size.toNat) :: s.live) ∧
        Represents s' bs' stop' := by
  obtain ⟨inv, owns⟩ := held
  obtain ⟨fuel, returned⟩ := step
  have serves := kmalloc_refines inv roomy fuel
  simp only [HeapState.call, Option.map_eq_some_iff, Prod.exists] at returned
  obtain ⟨vars', ptr, result, rfl⟩ := returned
  obtain ⟨bs', stop', alloc, inv', covers, -⟩ := serves.alloc vars' ptr result
  exact ⟨fuel, ptr, bs', stop', result, alloc, rfl, inv', owns.alloc alloc inv covers⟩

/-- A `kfree` of a live pointer that returns: it is refused, or the block it is
given lies below `heap_end`. -/
theorem kfree_cases (held : Represents s bs stop) (legal : Legal s (.kfree ptr))
    (roomy : Roomy r s (.kfree ptr)) (step : HeapStep s (.kfree ptr) s') :
    ∃ bs' stop', CallOn s bs stop (.kfree ptr) s' bs' stop' ∧ Represents s' bs' stop' ∧
      (s'.vars = s.vars ∧ bs' = bs ∧ stop' = stop ∨
        sub32 ptr.toNat headerSize < s.vars.heapEnd) := by
  obtain ⟨inv, owns⟩ := held
  obtain ⟨fuel, returned⟩ := step
  obtain ⟨pre, x, post, rfl, here, used⟩ := legal_block owns legal
  obtain ⟨left, right, before, after, around⟩ := neighbours_exist s.vars.heapEnd pre post
  have block := sub32_payload inv (List.mem_append_right pre List.mem_cons_self)
  rw [Roomy, here, block] at roomy
  rw [here, block]
  have frees := kfree_refines inv used around roomy fuel
  simp only [HeapState.call, Option.map_eq_some_iff, Prod.exists] at returned
  obtain ⟨vars', msg, result, rfl⟩ := returned
  rw [← here] at frees
  rcases frees with ⟨low, ⟨msg', same⟩, kept, -⟩ | ⟨below, frees⟩
  · rw [result] at same
    cases same
    refine ⟨_, stop, .refused low rfl kept rfl, ⟨?_, owns.distinct.filter _, ?_⟩,
      .inl ⟨rfl, rfl, rfl⟩⟩
    · rwa [kept]
    · exact fun a inside => owns.block a (List.mem_filter.mp inside).1
  · obtain ⟨-, bs', stop', given, inv'⟩ := frees.result vars' msg result
    refine ⟨bs', stop', .kfree rfl here used around given (by rw [here]), ⟨inv', ?_⟩, .inr below⟩
    rw [here]
    exact owns.release around given

/-- A legal call that meets its condition and returns acts on the blocks. -/
theorem step_cases (held : Represents s bs stop) (legal : Legal s call) (roomy : Roomy r s call)
    (step : HeapStep s call s') :
    ∃ bs' stop', CallOn s bs stop call s' bs' stop' ∧ Represents s' bs' stop' := by
  cases call with
  | kmalloc size =>
    obtain ⟨-, ptr, bs', stop', -, alloc, live, held'⟩ := kmalloc_cases held roomy step
    exact ⟨bs', stop', .kmalloc alloc live, held'⟩
  | kfree ptr =>
    obtain ⟨bs', stop', did, held', -⟩ := kfree_cases held legal roomy step
    exact ⟨bs', stop', did, held'⟩

/-- A legal call that meets its condition returns. -/
theorem step_total (held : Represents s bs stop) (legal : Legal s call) (roomy : Roomy r s call) :
    ∃ s', HeapStep s call s' := by
  obtain ⟨inv, owns⟩ := held
  suffices returns : s.call (bs.length + 1) call ≠ none by
    obtain ⟨s', result⟩ := Option.ne_none_iff_exists'.mp returns
    exact ⟨s', bs.length + 1, result⟩
  cases call with
  | kmalloc size =>
    simpa [HeapState.call] using (kmalloc_refines inv roomy (bs.length + 1)).total (by omega)
  | kfree ptr =>
    obtain ⟨pre, x, post, rfl, here, used⟩ := legal_block owns legal
    obtain ⟨left, right, before, after, around⟩ := neighbours_exist s.vars.heapEnd pre post
    rw [Roomy, here, sub32_payload inv (by simp)] at roomy
    rcases kfree_refines inv used around roomy ((pre ++ x :: post).length + 1) with
      ⟨-, ⟨msg, same⟩, -⟩ | ⟨-, frees⟩
    · simp only [HeapState.call, here, same, Option.map_some, ne_eq, reduceCtorEq, not_false_eq_true]
    · have total := frees.total (by
        obtain ⟨rfl, rfl, -⟩ := around
        simp only [List.length_append, List.length_cons]
        omega)
      simpa [HeapState.call, here] using total

/-- Every state of a run whose calls all meet their conditions has its blocks. -/
theorem represented (reached : Reachable Initial
    (Guarded (fun s call => Legal s call ∧ Roomy r s call) HeapStep) s) :
    ∃ bs stop, Represents s bs stop := by
  refine reached.induct (fun s => ∃ bs stop, Represents s bs stop) ?_ ?_
  · rintro ⟨vars, m, live⟩ ⟨rfl, rfl⟩
    exact ⟨[], kernelHeapStart, heapInit_inv m, List.Pairwise.nil, by simp⟩
  · rintro s call s' ⟨bs, stop, held⟩ ⟨⟨legal, roomy⟩, step⟩
    obtain ⟨bs', stop', -, held'⟩ := step_cases held legal roomy step
    exact ⟨bs', stop', held'⟩

/-- In an empty heap no call is an append. -/
theorem roomy_empty (empty : s.vars.heapHead = 0) : Roomy r s (.kmalloc size) :=
  fun appends => absurd empty appends.nonempty

/-- Right after `heap_init`, with memory all zeros. -/
def clearHeap : HeapState := ⟨heapInit heapStatics, fun _ => 0, []⟩

theorem clearHeap_initial : Initial clearHeap := ⟨rfl, rfl⟩

/-- Where a sequence of legal calls leads from a cleared heap. -/
def HeapState.after (calls : List HeapCall) : HeapState := (clearHeap.calls 9 calls).getD clearHeap

theorem after_reached (run : (clearHeap.calls 9 calls).isSome = true) :
    Reachable Initial (Guarded Legal HeapStep) (HeapState.after calls) := by
  obtain ⟨s, same⟩ := Option.isSome_iff_exists.mp run
  rw [HeapState.after, same]
  exact calls_reachable (.start clearHeap_initial) same

/-- One allocation later. -/
def oneBlock : HeapState := .after [.kmalloc 16]

theorem oneBlock_reached {guard : HeapState → HeapCall → Prop}
    (allowed : guard clearHeap (.kmalloc 16)) :
    Reachable Initial (Guarded guard HeapStep) oneBlock :=
  .next (.start clearHeap_initial) ⟨allowed, 9, rfl⟩

/-! ## Runs that are tested call by call -/

/-- The headers along `next` from `a` on, if the fuel covers them. -/
def walk (m : Mem) : Nat → Nat → Option (List Nat)
  | 0, _ => none
  | fuel + 1, a => if a = 0 then some [] else (walk m fuel (nextIn m a)).map (a :: ·)

theorem walk_next (ended : walk m fuel a = some headers) :
    (a ≠ 0 → a ∈ headers) ∧ ∀ b ∈ headers, nextIn m b ≠ 0 → nextIn m b ∈ headers := by
  induction fuel generalizing a headers with
  | zero => cases ended
  | succ fuel ih =>
    rw [walk] at ended
    split_ifs at ended with last
    · cases ended
      exact ⟨fun some => absurd last some, fun b member => absurd member List.not_mem_nil⟩
    · obtain ⟨rest, behind, rfl⟩ := Option.map_eq_some_iff.mp ended
      obtain ⟨first, closed⟩ := ih behind
      refine ⟨fun _ => List.mem_cons_self, fun b member more => ?_⟩
      rcases List.mem_cons.mp member with rfl | member
      · exact List.mem_cons_of_mem _ (first more)
      · exact List.mem_cons_of_mem _ (closed b member more)

theorem listed_walk (ended : walk m fuel vars.heapHead = some headers) (listed : Listed vars m b) : b ∈ headers := by
  obtain ⟨first, closed⟩ := walk_next ended
  induction listed with
  | head some => exact first some
  | next _ more ih => exact closed _ ih more

instance : Decidable (ClearOfLinks x t) := inferInstanceAs (Decidable (_ ∨ _))

instance : Decidable (MergeRoom room vars m x) :=
  decidable_of_iff ((MergesNext vars m x → nextAfter vars m x ≠ 0 →
      x + headerSize + sizeAfter vars m x + room ≤ nextAfter vars m x) ∧
    (MergesPrev vars m x → nextAfter vars m x ≠ 0 → tailAfter vars m x + room ≤ nextAfter vars m x) ∧
    (MergesPrev vars m x → ClearOfLinks x (tailAfter vars m x)))
    ⟨fun ⟨next, prev, links⟩ => ⟨next, prev, links⟩, fun ⟨next, prev, links⟩ => ⟨next, prev, links⟩⟩

/-- A test of `Roomy` that asks of every `kmalloc` what an append needs. -/
def roomyTest (room : Nat) (s : HeapState) : HeapCall → Bool
  | .kmalloc size =>
    ((walk s.mem 9 s.vars.heapHead).any fun headers => headers.all fun b => b < s.vars.heapEnd) &&
      decide (s.vars.heapEnd + headerSize + alignUp size.toNat + tailSize < kernelHeapEnd)
  | .kfree ptr => decide (MergeRoom room s.vars s.mem (sub32 ptr.toNat headerSize))

theorem roomy_of_test (passed : roomyTest room s call = true) : Roomy room s call := by
  cases call with
  | kfree ptr =>
    have fits : MergeRoom room s.vars s.mem (sub32 ptr.toNat headerSize) := of_decide_eq_true passed
    exact fits
  | kmalloc size =>
    rw [roomyTest, Bool.and_eq_true, Option.any_eq_true] at passed
    obtain ⟨⟨headers, ended, below⟩, room⟩ := passed
    refine fun _ => ⟨fun b listed => ?_, of_decide_eq_true room⟩
    exact of_decide_eq_true (List.all_eq_true.mp below b (listed_walk ended listed))

/-- The calls return and each passes the test. -/
def HeapState.passes (test : HeapState → HeapCall → Bool) : HeapState → List HeapCall → Bool
  | _, [] => true
  | s, call :: rest => test s call && decide (Legal s call) && (s.call 9 call).any fun s' => s'.passes test rest

theorem passes_reached {test : HeapState → HeapCall → Bool} {guard : HeapState → HeapCall → Prop}
    (sound : ∀ s call, test s call = true → Legal s call → guard s call)
    (reached : Reachable Initial (Guarded guard HeapStep) s) (passed : s.passes test calls = true) :
    ∃ s', s.calls 9 calls = some s' ∧ Reachable Initial (Guarded guard HeapStep) s' := by
  induction calls generalizing s with
  | nil => exact ⟨s, rfl, reached⟩
  | cons call rest ih =>
    rw [HeapState.passes, Bool.and_eq_true, Bool.and_eq_true, Option.any_eq_true] at passed
    obtain ⟨⟨tested, legal⟩, next, taken, passed⟩ := passed
    have legal := of_decide_eq_true legal
    obtain ⟨s', run, reached⟩ := ih (reached.next ⟨sound s call tested legal, 9, taken⟩) passed
    refine ⟨s', ?_, reached⟩
    rw [HeapState.calls, if_pos legal, taken]
    exact run

/-- Every call of a tested run from a cleared heap meets the guard. -/
theorem tested_reached {test : HeapState → HeapCall → Bool} {guard : HeapState → HeapCall → Prop}
    (sound : ∀ s call, test s call = true → Legal s call → guard s call)
    (passed : clearHeap.passes test calls = true) :
    Reachable Initial (Guarded guard HeapStep) (HeapState.after calls) := by
  obtain ⟨s, run, reached⟩ := passes_reached sound (.start clearHeap_initial) passed
  rw [HeapState.after, run]
  exact reached

theorem roomy_tested (passed : clearHeap.passes (roomyTest room) calls = true) :
    Reachable Initial (Guarded (fun s call => Legal s call ∧ Roomy room s call) HeapStep) (.after calls) :=
  tested_reached (fun _ _ passed legal => ⟨legal, roomy_of_test passed⟩) passed

/-- Four blocks, of which the second and then the third is freed: the two become one between
blocks in use. -/
def mergedBetween : HeapState :=
  .after [.kmalloc 8, .kmalloc 8, .kmalloc 8, .kmalloc 8, .kfree 0x400030, .kfree 0x400050]

theorem mergedBetween_reached :
    Reachable Initial (Guarded (fun s call => Legal s call ∧ Roomy 0 s call) HeapStep) mergedBetween :=
  roomy_tested (by decide +kernel)

end ZynthexOS.HeapRuns
