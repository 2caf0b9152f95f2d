import ZynthexOS.Fs.Volume
import ZynthexOS.HeapPayloads
import ZynthexOS.Lib.Simulations
import ZynthexOS.Mounting
import ZynthexOS.RoundTrip

/-! The files of ramfs in the memory of the heap, which others use at the same time. As long as
these free and write what is theirs, a volume behaves as the file system that keeps its buffers
apart: the blocks of ramfs stay live and keep their bytes. -/
namespace ZynthexOS.StoredFiles
open Lib Lib.Memory Lib.Scan Text Mm Fs HeapRepresentation HeapAllocation HeapRuns HeapCanaries
  HeapPayloads RamfsCalls RamfsTree RamfsFile Mounting RoundTrip

/-- A call of ramfs, without what `kmalloc` answers in it. -/
inductive FileRequest where
  | createInstance
  | create (parent : UInt32) (name : CString) (flags : UInt32)
  | write (node offset size : UInt32) (buffer : Nat → UInt8)
  | setRoot (root : UInt32)
  | mount (path : CString) (fsRoot : UInt32)

def request : RamCall → FileRequest
  | .createInstance _ => .createInstance
  | .create _ parent name flags => .create parent name flags
  | .write _ node offset size buffer => .write node offset size buffer
  | .setRoot root => .setRoot root
  | .mount path fsRoot => .mount path fsRoot

/-- A call of ramfs, or what others do with the heap. -/
inductive VolumeCall where
  | files (request : FileRequest)
  | heap (call : HeapCall)
  | store (ptr offset : Nat) (byte : UInt8)

/-- What a file system shows of it. -/
def VolumeCall.request? : VolumeCall → Option FileRequest
  | .files request => some request
  | .heap _ => none
  | .store .. => none

/-- A volume with the ledger of nodes, roots and blocks. -/
structure Ledger where
  volume : Volume
  nodes : List UInt32
  roots : List UInt32
  blocks : List UInt32

/-- The same file system with buffers of its own. -/
def Ledger.apart (s : Ledger) (buffers : UInt32 → Nat → UInt8) : RamState :=
  ⟨⟨s.volume.nodes, buffers, s.volume.mounts, s.volume.vfsRoot⟩, s.nodes, s.roots, s.blocks⟩

/-- A call of ramfs that returns. -/
def FileStep (s : Ledger) : FileRequest → Ledger → Prop
  | .createInstance, s' => ∃ fuel v root, createInstanceOn fuel s.volume = some (.ok (v, root)) ∧
    s' = ⟨v, root :: s.nodes, root :: s.roots, root :: s.blocks⟩
  | .create parent name flags, s' => ∃ fuel v child result,
    ramfsCreateOn fuel s.volume parent name flags = some (.ok (v, child, result)) ∧
    s' = if result = 0 then ⟨v, child :: s.nodes, s.roots, child :: s.blocks⟩ else { s with volume := v }
  | .write node offset size buffer, s' => ∃ fuel v result,
    ramfsWriteOn fuel s.volume node offset size buffer = some (.ok (v, result)) ∧
    s' = ⟨v, s.nodes, s.roots,
      if Grows s.volume.files node offset size ∧ (v.nodes node).data ≠ 0 then
        (v.nodes node).data :: s.blocks
      else s.blocks⟩
  | .setRoot root, s' => s' = { s with volume := { s.volume with vfsRoot := root } }
  | .mount path fsRoot, s' => ∃ fs, vfsMount s.volume.files path fsRoot = .ok fs ∧
    s' = { s with volume := s.volume.setFiles fs }

/-- The fields of nodes change, and with them any bytes of their blocks. -/
def OnNodes (nodes : List UInt32) (m m' : Mem) : Prop :=
  ∀ x, m' x ≠ m x → ∃ n ∈ nodes, n.toNat ≤ x ∧ x < n.toNat + nodeSize.toNat

def VolumeStep (s : Ledger) : VolumeCall → Ledger → Prop
  | .files request, s' => ∃ t m, FileStep s request t ∧ OnNodes t.nodes t.volume.heap.mem m ∧
    s' = { t with volume := t.volume.setMem m }
  | .heap call, s' => ∃ heap, HeapStep s.volume.heap call heap ∧
    s' = { s with volume := s.volume.setHeap heap }
  | .store ptr offset byte, s' =>
    s' = { s with volume := s.volume.setMem (Function.update s.volume.heap.mem (ptr + offset) byte) }

/-- The nodes exist, what is mounted is the root of an instance that is not mounted yet, and the
allocation that a call makes meets its condition. -/
def Asked (s : Ledger) : FileRequest → Prop
  | .createInstance => Roomy 0 s.volume.heap (.kmalloc nodeSize)
  | .create parent _ _ => parent ∈ s.nodes ∧
    ((s.volume.nodes parent).children.length < 32 → Roomy 0 s.volume.heap (.kmalloc nodeSize))
  | .write node offset size _ => node ∈ s.nodes ∧
    (Grows s.volume.files node offset size → Roomy 0 s.volume.heap (.kmalloc (offset + size)))
  | .setRoot root => root ∈ s.roots
  | .mount _ fsRoot => fsRoot ∈ s.roots ∧ ∀ mount ∈ s.volume.mounts, fsRoot ≠ mount.2

/-- Others free live pointers and write behind them, but for those of ramfs. -/
def Mannerly (s : Ledger) : VolumeCall → Prop
  | .files request => Asked s request
  | .heap (.kmalloc size) => Roomy 0 s.volume.heap (.kmalloc size)
  | .heap (.kfree ptr) => HeapRuns.Legal s.volume.heap (.kfree ptr) ∧ Roomy 0 s.volume.heap (.kfree ptr) ∧
    ptr ∉ s.blocks
  | .store ptr offset _ => ∃ n, (ptr, n) ∈ s.volume.heap.live ∧ offset < n ∧ ptr ∉ s.blocks.map (·.toNat)

/-- Right after `heap_init`. -/
def NoFiles (s : Ledger) : Prop :=
  Initial s.volume.heap ∧ s.nodes = [] ∧ s.roots = [] ∧ s.blocks = [] ∧ s.volume.mounts = [] ∧
    s.volume.vfsRoot = 0

/-! ## The blocks of ramfs on the heap -/

/-- The blocks are live: those of nodes with the size of a node, buffers with their capacity. -/
structure Housed (s : Ledger) : Prop where
  heap : ∃ bs stop, Represents s.volume.heap bs stop
  blocks : ∀ b ∈ s.blocks, Live s.volume.heap b.toNat
  nodes : ∀ n ∈ s.nodes, (n.toNat, nodeSize.toNat) ∈ s.volume.heap.live
  data : ∀ n ∈ s.nodes, (s.volume.nodes n).data ≠ 0 →
    ((s.volume.nodes n).data.toNat, (s.volume.nodes n).capacity.toNat) ∈ s.volume.heap.live

/-- The buffers hold what memory does. -/
def Shows (s : Ledger) (buffers : UInt32 → Nat → UInt8) : Prop :=
  ∀ n ∈ s.nodes, (s.volume.nodes n).data ≠ 0 → ∀ k < (s.volume.nodes n).capacity.toNat,
    s.volume.heap.mem ((s.volume.nodes n).data.toNat + k) = buffers (s.volume.nodes n).data k

/-- The volume and the file system with buffers of its own agree. -/
structure Agrees (s : Ledger) (buffers : UInt32 → Nat → UInt8) : Prop where
  linked : Linked (s.apart buffers)
  housed : Housed s
  shows : Shows s buffers

/-- A heap that keeps the blocks of ramfs and the bytes of files serves as well. -/
theorem Agrees.reheap (agrees : Agrees s buffers) (held : Represents heap bs stop)
    (kept : ∀ a ∈ s.volume.heap.live, a.1 ∈ s.blocks.map (·.toNat) → a ∈ heap.live)
    (bytes : ∀ n ∈ s.nodes, (s.volume.nodes n).data ≠ 0 → ∀ k < (s.volume.nodes n).capacity.toNat,
      heap.mem ((s.volume.nodes n).data.toNat + k) =
        s.volume.heap.mem ((s.volume.nodes n).data.toNat + k)) :
    Agrees { s with volume := s.volume.setHeap heap } buffers := by
  obtain ⟨linked, housed, shows⟩ := agrees
  have listed {b : UInt32} (member : b ∈ s.blocks) : b.toNat ∈ s.blocks.map (·.toNat) :=
    List.mem_map_of_mem member
  refine ⟨linked, ⟨⟨_, _, held⟩, fun b member => ?_, fun n member => ?_, fun n member buffer => ?_⟩,
    fun n member buffer k small => (bytes n member buffer k small).trans (shows n member buffer k small)⟩
  · obtain ⟨a, live, here⟩ := List.mem_map.mp (housed.blocks b member)
    exact List.mem_map.mpr ⟨a, kept a live (here ▸ listed member), here⟩
  · exact kept _ (housed.nodes n member) (listed (linked.nodes n member))
  · exact kept _ (housed.data n member buffer) (listed (linked.data n member buffer).1)

/-- The byte of a file lies behind no pointer but that of its buffer. -/
theorem Agrees.apart_data (agrees : Agrees s buffers) (member : n ∈ s.nodes)
    (buffer : (s.volume.nodes n).data ≠ 0) (small : k < (s.volume.nodes n).capacity.toNat)
    (live : (p, l) ∈ s.volume.heap.live) (low : p ≤ (s.volume.nodes n).data.toNat + k)
    (high : (s.volume.nodes n).data.toNat + k < p + l) : p = (s.volume.nodes n).data.toNat := by
  obtain ⟨bs, stop, held⟩ := agrees.housed.heap
  have data := agrees.housed.data n member buffer
  have same := live_byte held data live small (k := (s.volume.nodes n).data.toNat + k - p) (by omega) (by omega)
  exact same.1.symm

/-- Writing the fields of nodes changes no file. -/
theorem Agrees.onNodes (agrees : Agrees s buffers) (on : OnNodes s.nodes s.volume.heap.mem m) :
    Agrees { s with volume := s.volume.setMem m } buffers := by
  obtain ⟨bs, stop, held⟩ := agrees.housed.heap
  have within : Within s.volume.heap.live s.volume.heap.mem m := by
    intro x changed
    obtain ⟨n, member, bounds⟩ := on x changed
    exact ⟨_, agrees.housed.nodes n member, bounds⟩
  refine agrees.reheap (represents_within held within) (fun a live _ => live) ?_
  intro n member buffer k small
  by_contra changed
  obtain ⟨d, isNode, low, high⟩ := on _ changed
  have same := agrees.apart_data member buffer small (agrees.housed.nodes d isNode) low high
  have here : d = (s.volume.nodes n).data := UInt32.toNat_inj.mp same
  exact (agrees.linked.data n member buffer).2 (here ▸ isNode)

/-! ## What others do -/

theorem agrees_store (agrees : Agrees s buffers) (live : (ptr, n) ∈ s.volume.heap.live)
    (inside : offset < n) (foreign : ptr ∉ s.blocks.map (·.toNat)) (byte : UInt8) :
    Agrees { s with volume :=
      s.volume.setMem (Function.update s.volume.heap.mem (ptr + offset) byte) } buffers := by
  obtain ⟨bs, stop, held⟩ := agrees.housed.heap
  have changes {x : Nat} (changed : Function.update s.volume.heap.mem (ptr + offset) byte x ≠
      s.volume.heap.mem x) : x = ptr + offset :=
    Classical.byContradiction fun other => changed (Function.update_of_ne other _ _)
  refine agrees.reheap (represents_within held fun x changed => ⟨_, live, ?_⟩) (fun a live _ => live) ?_
  · have here := changes changed
    omega
  · intro d member buffer k small
    by_contra changed
    have here := changes changed
    have same := agrees.apart_data member buffer small live (by omega) (by omega)
    exact foreign (same ▸ List.mem_map_of_mem (agrees.linked.data d member buffer).1)

theorem agrees_heap (agrees : Agrees s buffers) (mannerly : Mannerly s (.heap call))
    (step : HeapStep s.volume.heap call heap) :
    Agrees { s with volume := s.volume.setHeap heap } buffers := by
  obtain ⟨bs, stop, held⟩ := agrees.housed.heap
  have allowed : HeapRuns.Legal s.volume.heap call ∧ Roomy 0 s.volume.heap call ∧
      ∀ ptr, call = .kfree ptr → ptr ∉ s.blocks := by
    cases call with
    | kmalloc size => exact ⟨trivial, mannerly, fun ptr frees => by cases frees⟩
    | kfree ptr =>
      refine ⟨mannerly.1, mannerly.2.1, fun q frees => ?_⟩
      cases frees
      exact mannerly.2.2
  obtain ⟨legal, roomy, foreign⟩ := allowed
  obtain ⟨bs', stop', did, held'⟩ := step_cases held legal roomy step
  have other {a : Nat × Nat} (ours : a.1 ∈ s.blocks.map (·.toNat)) (ptr : UInt32)
      (frees : call = .kfree ptr) : a.1 ≠ ptr.toNat := by
    obtain ⟨b, member, here⟩ := List.mem_map.mp ours
    intro same
    have same : b = ptr := UInt32.toNat_inj.mp (here.trans same)
    exact foreign ptr frees (same ▸ member)
  refine agrees.reheap held' (fun a live ours => ?_) fun n member buffer k small => ?_
  · cases did with
    | kmalloc _ grown =>
      rw [grown]
      split_ifs
      · exact live
      · exact List.mem_cons_of_mem _ live
    | refused _ _ _ shrunk =>
      rw [shrunk]
      exact List.mem_filter.mpr ⟨live, by simpa using other ours _ rfl⟩
    | kfree _ here _ _ _ shrunk =>
      rw [shrunk, ← here]
      exact List.mem_filter.mpr ⟨live, by simpa using other ours _ rfl⟩
  · have live := agrees.housed.data n member buffer
    have ours := List.mem_map_of_mem (f := fun b : UInt32 => b.toNat) (agrees.linked.data n member buffer).1
    have foreign := other (a := ((s.volume.nodes n).data.toNat, (s.volume.nodes n).capacity.toNat)) ours
    exact call_keeps held legal roomy step live foreign small

/-! ## Allocating and making nodes -/

theorem allocate_step (done : allocate fuel heap size = some (heap', ptr)) :
    HeapStep heap (.kmalloc size) heap' := by
  obtain ⟨⟨vars, p⟩, result, same⟩ := Option.map_eq_some_iff.mp done
  cases same
  refine ⟨fuel, ?_⟩
  simp only [HeapState.call, result, Option.map_some]

/-- A pointer that is not NULL was not live before, and is live with the size asked for. -/
theorem allocate_fresh (held : Represents heap bs stop) (roomy : Roomy 0 heap (.kmalloc size))
    (done : allocate fuel heap size = some (heap', ptr)) (real : ptr ≠ 0) :
    (ptr.toNat, size.toNat) ∈ heap'.live ∧ ¬ Live heap ptr.toNat := by
  have legal : HeapRuns.Legal heap (.kmalloc size) := trivial
  obtain ⟨bs', stop', -, held'⟩ := step_cases held legal roomy (allocate_step done)
  obtain ⟨⟨vars, p⟩, -, same⟩ := Option.map_eq_some_iff.mp done
  cases same
  have positive : p ≠ 0 := by
    rintro rfl
    exact real rfl
  simp only [if_neg positive] at held' ⊢
  obtain ⟨b, member, -, here, -⟩ := held'.2.block (p, size.toNat) List.mem_cons_self
  have low := held'.1.stored.low member
  have top := held'.1.stored.top
  have small : p < 2 ^ 32 := by
    simp only [HeapLayout.Block.payload, HeapLayout.Block.fin, headerSize, tailSize, kernelHeapEnd] at here low top
    omega
  have word : (UInt32.ofNat p).toNat = p := UInt32.toNat_ofNat_of_lt' small
  rw [word]
  refine ⟨List.mem_cons_self, fun live => ?_⟩
  obtain ⟨a, inside, same⟩ := List.mem_map.mp live
  exact (List.pairwise_cons.mp held'.2.distinct).1 a inside same.symm

theorem agrees_allocate (agrees : Agrees s buffers) (roomy : Roomy 0 s.volume.heap (.kmalloc size))
    (done : allocate fuel s.volume.heap size = some (heap, ptr)) :
    Agrees { s with volume := s.volume.setHeap heap } buffers ∧ ptr ∉ s.blocks ∧
      (ptr ≠ 0 → (ptr.toNat, size.toNat) ∈ heap.live) := by
  obtain ⟨bs, stop, held⟩ := agrees.housed.heap
  have mannerly : Mannerly s (.heap (.kmalloc size)) := roomy
  refine ⟨agrees_heap agrees mannerly (allocate_step done), fun member => ?_,
    fun real => (allocate_fresh held roomy done real).1⟩
  have real : ptr ≠ 0 := by
    rintro rfl
    exact agrees.linked.nonNull member
  exact (allocate_fresh held roomy done real).2 (agrees.housed.blocks ptr member)

/-- A node made in a fresh block. -/
theorem Agrees.made (agrees : Agrees s buffers)
    (made : Made (s.apart buffers) (s'.apart buffers) node parent name flags) (fresh : node ∉ s.blocks)
    (heap : s'.volume.heap = s.volume.heap)
    (live : (node.toNat, nodeSize.toNat) ∈ s.volume.heap.live) : Agrees s' buffers := by
  have nodes : s'.nodes = node :: s.nodes := made.nodes
  have blocks : s'.blocks = node :: s.blocks := made.blocks
  have old {n : UInt32} (member : n ∈ s'.nodes) (buffer : (s'.volume.nodes n).data ≠ 0) :
      n ∈ s.nodes ∧ (s'.volume.nodes n).data = (s.volume.nodes n).data ∧
        (s'.volume.nodes n).capacity = (s.volume.nodes n).capacity := by
    obtain ⟨before, data⟩ := made_buffer made member buffer
    refine ⟨before, data, ?_⟩
    have kept : s'.volume.nodes n = _ := made.old n before
    rw [kept]
    split <;> rfl
  refine ⟨linked_made agrees.linked fresh made, ⟨?_, fun b member => ?_, fun n member => ?_,
    fun n member buffer => ?_⟩, fun n member buffer k small => ?_⟩
  · rw [heap]
    exact agrees.housed.heap
  · rw [heap]
    rcases List.mem_cons.mp (blocks ▸ member) with rfl | before
    · exact List.mem_map.mpr ⟨_, live, rfl⟩
    · exact agrees.housed.blocks b before
  · rw [heap]
    rcases List.mem_cons.mp (nodes ▸ member) with rfl | before
    · exact live
    · exact agrees.housed.nodes n before
  · obtain ⟨before, data, capacity⟩ := old member buffer
    rw [heap, data, capacity]
    exact agrees.housed.data n before (data ▸ buffer)
  · obtain ⟨before, data, capacity⟩ := old member buffer
    rw [capacity] at small
    rw [heap, data]
    exact agrees.shows n before (data ▸ buffer) k small

theorem agrees_createInstance (agrees : Agrees s buffers) (asked : Asked s .createInstance)
    (step : FileStep s .createInstance s') : ∃ answer,
      Guarded RamfsTree.Legal RamStep (s.apart buffers) (.createInstance answer) (s'.apart buffers) ∧
        Agrees s' buffers := by
  obtain ⟨fuel, v, root, done, rfl⟩ := step
  obtain ⟨⟨heap, answer⟩, allocated, made⟩ := Option.map_eq_some_iff.mp done
  obtain ⟨kept, fresh, live⟩ := agrees_allocate agrees asked allocated
  by_cases null : answer = 0
  · simp [ramfsCreateInstance, null] at made
    cases made
  · simp only [ramfsCreateInstance, if_neg null] at made
    cases made
    have legal : RamfsTree.Legal (s.apart buffers) (.createInstance answer) := fresh
    have taken : RamStep (s.apart buffers) (.createInstance answer) _ :=
      ⟨_, answer, if_neg null, rfl⟩
    refine ⟨answer, ⟨legal, taken⟩, ?_⟩
    exact kept.made (createInstance_made agrees.linked legal taken) fresh rfl (live null)

theorem agrees_create (agrees : Agrees s buffers) (asked : Asked s (.create parent name flags))
    (step : FileStep s (.create parent name flags) s') : ∃ answer,
      Guarded RamfsTree.Legal RamStep (s.apart buffers) (.create answer parent name flags)
        (s'.apart buffers) ∧ Agrees s' buffers := by
  obtain ⟨fuel, v, child, result, done, rfl⟩ := step
  obtain ⟨member, roomy⟩ := asked
  have real : parent ≠ 0 := agrees.linked.node_ne_zero member
  rw [ramfsCreateOn, if_neg real] at done
  by_cases full : (s.volume.nodes parent).children.length ≥ 32
  · rw [if_pos full] at done
    cases done
    have legal : RamfsTree.Legal (s.apart buffers) (.create 0 parent name flags) :=
      ⟨member, agrees.linked.nonNull⟩
    exact ⟨0, ⟨legal, (create_made agrees.linked legal).mpr (.inl ⟨full, rfl⟩)⟩, agrees⟩
  · rw [if_neg full] at done
    obtain ⟨⟨heap, answer⟩, allocated, made⟩ := Option.map_eq_some_iff.mp done
    obtain ⟨kept, fresh, live⟩ := agrees_allocate agrees (roomy (Nat.lt_of_not_le full)) allocated
    obtain ⟨⟨fs, result'⟩, created, same⟩ := bind_returns.mp made
    cases same
    have other : child ≠ parent := by
      rintro rfl
      exact fresh (agrees.linked.nodes _ member)
    obtain ⟨-, ⟨isFull, -⟩ | ⟨room, null, short, rfl, rfl⟩⟩ := (ramfsCreate_returns other).mp created
    · exact absurd isFull full
    · have legal : RamfsTree.Legal (s.apart buffers) (.create child parent name flags) := ⟨member, fresh⟩
      have taken := (create_made agrees.linked legal).mpr (.inr ⟨room, null, short, rfl⟩)
      exact ⟨child, ⟨legal, taken⟩,
        kept.made (created_made agrees.linked legal room null) fresh rfl (live null)⟩

/-! ## Writing -/

theorem copyWithin_apply (apart : dest + n ≤ src ∨ src + n ≤ dest) (m : Mem) (x : Nat) :
    copyWithin m dest src n x = if dest ≤ x ∧ x < dest + n then m (src + (x - dest)) else m x := by
  have copied : ∀ y, copyWithin m dest src n y =
      if dest ≤ y ∧ y < dest + n then m (src + (y - dest)) else m y := by
    refine forRange_induct _ (fun i (m' : Mem) => ∀ y, m' y =
      if dest ≤ y ∧ y < dest + i then m (src + (y - dest)) else m y) (Nat.zero_le n) ?_ m ?_
    · intro m' i _ below copied y
      by_cases here : y = dest + i
      · have source : ¬ (dest ≤ src + i ∧ src + i < dest + i) := by omega
        rw [if_pos here, copied, if_neg source, if_pos (by omega), here, Nat.add_sub_cancel_left]
      · rw [if_neg here, copied]
        exact if_congr (by omega) rfl rfl
    · intro y
      rw [if_neg (by omega)]
  exact copied x

/-- The other buffers stay when a buffer grows. -/
theorem grown_others (s : FileSystem) (answer : Answer) (node newCapacity : UInt32)
    (other : d ≠ answer.address) : (grown s answer node newCapacity).buffers d = s.buffers d := by
  have installed : (s.install answer).buffers d = s.buffers d := by
    unfold FileSystem.install
    split
    · rfl
    · exact if_neg other
  unfold grown FileSystem.copyBuffer
  by_cases data : (s.nodes node).data = 0
  · simp only [data, ne_eq, not_true, if_false]
    exact installed
  · simp only [data, ne_eq, not_false_iff, if_true]
    exact (if_neg other).trans installed

theorem stored_others (s : FileSystem) (node offset size : UInt32) (buffer : Nat → UInt8)
    (other : d ≠ (s.nodes node).data) : (stored s node offset size buffer).buffers d = s.buffers d := by
  unfold stored
  dsimp only
  split <;> exact if_neg other

theorem stored_nodes (s : FileSystem) (node offset size : UInt32) (buffer : Nat → UInt8) :
    (stored s node offset size buffer).nodes =
      if offset + size > (s.nodes node).size then
        fun b => if b = node then { s.nodes node with size := offset + size } else s.nodes b
      else s.nodes := by
  unfold stored
  dsimp only
  split <;> rfl

/-- The bytes that a write stores. -/
def writtenMem (v : Volume) (node offset size : UInt32) (buffer : Nat → UInt8) : Mem :=
  memcpy v.heap.mem ((v.nodes node).data.toNat + offset.toNat) buffer size.toNat

/-- The volume after the stores of a write. -/
def storedVolume (v : Volume) (node offset size : UInt32) (buffer : Nat → UInt8) : Volume :=
  ⟨{ v.heap with mem := writtenMem v node offset size buffer },
    (stored v.files node offset size buffer).nodes, v.mounts, v.vfsRoot⟩

theorem storeOn_ok : storeOn v node offset size buffer = .ok (v', result) ↔
    touch (v.nodes node).data offset.toNat size.toNat (v.nodes node).capacity.toNat = .ok () ∧
      v' = storedVolume v node offset size buffer ∧ result = asInt size := by
  have after : (if offset + size > (v.nodes node).size then
      (v.setMem (writtenMem v node offset size buffer)).setNode node
        { v.nodes node with size := offset + size }
      else v.setMem (writtenMem v node offset size buffer)) = storedVolume v node offset size buffer := by
    rw [storedVolume, stored_nodes]
    by_cases more : offset + size > (v.nodes node).size
    · rw [if_pos more, if_pos (show offset + size > (v.files.nodes node).size from more)]
      rfl
    · rw [if_neg more, if_neg (show ¬ offset + size > (v.files.nodes node).size from more)]
      rfl
  rw [← after, storeOn, bind_returns]
  constructor
  · rintro ⟨_, room, done⟩
    obtain ⟨rfl, rfl⟩ := Prod.mk.inj (Except.ok.inj done)
    exact ⟨room, rfl, rfl⟩
  · rintro ⟨room, rfl, rfl⟩
    exact ⟨(), room, rfl⟩

def Ledger.stored (s : Ledger) (node offset size : UInt32) (buffer : Nat → UInt8) : Ledger :=
  { s with volume := storedVolume s.volume node offset size buffer }

/-- With buffers of its own it is the file system that the write leaves. -/
theorem stored_apart (s : Ledger) (buffers : UInt32 → Nat → UInt8) (node offset size : UInt32)
    (buffer : Nat → UInt8) :
    ((s.stored node offset size buffer).apart
      (stored (s.apart buffers).fs node offset size buffer).buffers).fs =
      stored (s.apart buffers).fs node offset size buffer := by
  obtain ⟨-, mounts, vfsRoot⟩ := stored_keeps (s.apart buffers).fs node offset size buffer
  have nodes : (stored s.volume.files node offset size buffer).nodes =
      (stored (s.apart buffers).fs node offset size buffer).nodes := by
    rw [stored_nodes, stored_nodes]
    rfl
  generalize stored (s.apart buffers).fs node offset size buffer = fs at mounts vfsRoot nodes
  obtain ⟨ns, bs, ms, r⟩ := fs
  cases mounts
  cases vfsRoot
  cases nodes
  rfl

/-- A write with room in its buffer keeps volume and file system in agreement. -/
theorem agrees_stored (buffer : Nat → UInt8) (agrees : Agrees s buffers) (member : node ∈ s.nodes)
    (room : touch (s.volume.nodes node).data offset.toNat size.toNat
      (s.volume.nodes node).capacity.toNat = .ok ()) :
    Agrees (s.stored node offset size buffer)
      (stored (s.apart buffers).fs node offset size buffer).buffers := by
  have wrote := stored_wrote (s.apart buffers).fs node offset size buffer
  rw [← stored_apart] at wrote
  have wroteOn := stored_wrote s.volume.files node offset size buffer
  have fieldsOf (n : UInt32) : ((s.stored node offset size buffer).volume.nodes n).data =
      (s.volume.nodes n).data ∧ ((s.stored node offset size buffer).volume.nodes n).capacity =
      (s.volume.nodes n).capacity := by
    have nodes : (s.stored node offset size buffer).volume.nodes =
      (stored s.volume.files node offset size buffer).nodes := rfl
    by_cases here : n = node
    · rw [nodes, here, stored_node]
      exact ⟨rfl, rfl⟩
    · rw [nodes, wroteOn.others n here]
      exact ⟨rfl, rfl⟩
  -- what the copy changes lies in the buffer of the node
  have changes {x : Nat} (changed : writtenMem s.volume node offset size buffer x ≠ s.volume.heap.mem x) :
      (s.volume.nodes node).data ≠ 0 ∧ (s.volume.nodes node).data.toNat + offset.toNat ≤ x ∧
        x < (s.volume.nodes node).data.toNat + offset.toNat + size.toNat ∧
        offset.toNat + size.toNat ≤ (s.volume.nodes node).capacity.toNat := by
    rw [writtenMem, memcpy_apply] at changed
    split_ifs at changed with inside
    · rcases touch_ok.mp room with none | ⟨real, below⟩
      · omega
      · exact ⟨real, inside.1, inside.2, below⟩
    · exact absurd rfl changed
  obtain ⟨bs, stop, held⟩ := agrees.housed.heap
  have within : Within s.volume.heap.live s.volume.heap.mem (writtenMem s.volume node offset size buffer) := by
    intro x changed
    obtain ⟨real, low, high, below⟩ := changes changed
    exact ⟨_, agrees.housed.data node member real, by omega, by omega⟩
  refine ⟨linked_wrote agrees.linked rfl rfl wrote (.inl ⟨.inl rfl, rfl⟩),
    ⟨⟨bs, stop, represents_within held within⟩, agrees.housed.blocks, agrees.housed.nodes, ?_⟩, ?_⟩
  · intro n inList
    rw [(fieldsOf n).1, (fieldsOf n).2]
    exact agrees.housed.data n inList
  · intro n inList
    rw [(fieldsOf n).1, (fieldsOf n).2]
    intro real k small
    change writtenMem s.volume node offset size buffer _ = _
    by_cases here : n = node
    · subst here
      have shown := agrees.shows n inList real k small
      have copied := stored_bytes (s.apart buffers).fs n offset size buffer k
      refine Eq.trans ?_ copied.symm
      rw [writtenMem, memcpy_apply]
      by_cases inside : offset.toNat ≤ k ∧ k < offset.toNat + size.toNat
      · rw [if_pos (by omega), if_pos inside]
        congr 1
        omega
      · rw [if_neg (by omega), if_neg inside]
        exact shown
    · have other : (s.volume.nodes n).data ≠ (s.volume.nodes node).data :=
        fun same => here (agrees.linked.owner n inList node member real same)
      rw [stored_others (s.apart buffers).fs node offset size buffer other]
      refine Eq.trans ?_ (agrees.shows n inList real k small)
      by_contra changed
      obtain ⟨live, low, high, below⟩ := changes changed
      have same := agrees.apart_data inList real small (agrees.housed.data node member live) (by omega) (by omega)
      exact other (UInt32.toNat_inj.mp same.symm)

/-! ## Growing -/

/-- What `kmalloc` answered in a volume, and the bytes that are there. -/
def answerOn (v : Volume) (newData : UInt32) : Answer := ⟨newData, fun k => v.heap.mem (newData.toNat + k)⟩

/-- The memory after the old bytes were copied. -/
def grownMem (v : Volume) (node newData : UInt32) : Mem :=
  if (v.nodes node).data ≠ 0 then
    copyWithin v.heap.mem newData.toNat (v.nodes node).data.toNat (v.nodes node).size.toNat
  else v.heap.mem

/-- The volume with the new buffer, once it was allocated. -/
def grownVolume (v : Volume) (node newData newCapacity : UInt32) : Volume :=
  ⟨{ v.heap with mem := grownMem v node newData },
    fun b => if b = node then { v.nodes node with data := newData, capacity := newCapacity } else v.nodes b,
    v.mounts, v.vfsRoot⟩

def Ledger.grown (s : Ledger) (node newData newCapacity : UInt32) : Ledger :=
  { s with
    volume := grownVolume s.volume node newData newCapacity
    blocks := if newData ≠ 0 then newData :: s.blocks else s.blocks }

theorem growOn_ok : growOn fuel v node newCapacity = some (.ok v') ↔ ∃ heap newData,
    allocate fuel v.heap newCapacity = some (heap, newData) ∧
      Copies v.files (answerOn (v.setHeap heap) newData) node newCapacity ∧
      v' = grownVolume (v.setHeap heap) node newData newCapacity := by
  rw [growOn, Option.map_eq_some_iff, Prod.exists]
  refine exists₂_congr fun heap newData => and_congr_right fun _ => ?_
  by_cases old : (v.nodes node).data = 0
  · have kept : grownMem (v.setHeap heap) node newData = heap.mem := if_neg (not_not.mpr old)
    simp only [old, ne_eq, not_true, if_false, grownVolume, kept]
    refine ⟨fun done => ⟨fun real => absurd old real, ?_⟩, fun both => congrArg Except.ok both.2.symm⟩
    exact (Except.ok.inj done).symm
  · have copied : grownMem (v.setHeap heap) node newData =
        copyWithin heap.mem newData.toNat (v.nodes node).data.toNat (v.nodes node).size.toNat := if_pos old
    simp only [old, ne_eq, not_false_iff, if_true, grownVolume, copied, bind_returns]
    constructor
    · rintro ⟨_, first, _, second, done⟩
      exact ⟨fun _ => ⟨first, second⟩, (Except.ok.inj done).symm⟩
    · rintro ⟨copies, rfl⟩
      exact ⟨(), (copies old).1, (), (copies old).2, rfl⟩

theorem grown_nodes (s : FileSystem) (answer : Answer) (node newCapacity : UInt32) :
    (grown s answer node newCapacity).nodes = fun b =>
      if b = node then { s.nodes node with data := answer.address, capacity := newCapacity }
      else s.nodes b := by
  funext b
  by_cases here : b = node
  · rw [if_pos here, here, grown_node]
  · rw [if_neg here, (grown_keeps s answer node newCapacity).1 b here]

theorem grown_apart (s : Ledger) (buffers : UInt32 → Nat → UInt8) (node newData newCapacity : UInt32) :
    ((s.grown node newData newCapacity).apart
      (grown (s.apart buffers).fs (answerOn s.volume newData) node newCapacity).buffers).fs =
      grown (s.apart buffers).fs (answerOn s.volume newData) node newCapacity := by
  obtain ⟨-, mounts, vfsRoot⟩ := grown_keeps (s.apart buffers).fs (answerOn s.volume newData) node newCapacity
  have nodes := grown_nodes (s.apart buffers).fs (answerOn s.volume newData) node newCapacity
  generalize grown (s.apart buffers).fs (answerOn s.volume newData) node newCapacity = fs at mounts vfsRoot nodes
  obtain ⟨ns, bs, ms, r⟩ := fs
  cases mounts
  cases vfsRoot
  cases nodes
  rfl

/-- What the copy of an old buffer takes is inside both. -/
theorem copies_room {s : Ledger} (copies : Copies s.volume.files (answerOn s.volume newData) node newCapacity)
    (old : (s.volume.nodes node).data ≠ 0) :
    (s.volume.nodes node).size.toNat ≤ (s.volume.nodes node).capacity.toNat ∧
      ((s.volume.nodes node).size.toNat = 0 ∨
        newData ≠ 0 ∧ (s.volume.nodes node).size.toNat ≤ newCapacity.toNat) := by
  obtain ⟨first, second⟩ := copies old
  have first := touch_ok.mp first
  have second := touch_ok.mp second
  simp only [Nat.zero_add] at first second
  exact ⟨first.elim (fun none => none ▸ Nat.zero_le _) fun room => room.2, second⟩

/-- The new buffer starts with the bytes of the old one. -/
theorem grownMem_apply (agrees : Agrees s buffers) (member : node ∈ s.nodes) (fresh : newData ∉ s.blocks)
    (live : newData ≠ 0 → (newData.toNat, newCapacity.toNat) ∈ s.volume.heap.live)
    (copies : Copies s.volume.files (answerOn s.volume newData) node newCapacity) (x : Nat) :
    grownMem s.volume node newData x =
      if (s.volume.nodes node).data ≠ 0 ∧ newData.toNat ≤ x ∧
        x < newData.toNat + (s.volume.nodes node).size.toNat then
        s.volume.heap.mem ((s.volume.nodes node).data.toNat + (x - newData.toNat))
      else s.volume.heap.mem x := by
  obtain ⟨bs, stop, held⟩ := agrees.housed.heap
  -- the two buffers of the copy are different blocks
  have disjoint (old : (s.volume.nodes node).data ≠ 0) (real : newData ≠ 0) :
      newData.toNat + newCapacity.toNat ≤ (s.volume.nodes node).data.toNat ∨
        (s.volume.nodes node).data.toNat + (s.volume.nodes node).capacity.toNat ≤ newData.toNat := by
    refine live_apart held (live real) (agrees.housed.data node member old) fun same => fresh ?_
    rw [UInt32.toNat_inj.mp same]
    exact (agrees.linked.data node member old).1
  unfold grownMem
  by_cases old : (s.volume.nodes node).data = 0
  · simp only [old, ne_eq, not_true, if_false, false_and]
  · obtain ⟨below, none | ⟨real, room⟩⟩ := copies_room copies old
    · simp only [old, ne_eq, not_false_iff, if_true, true_and, none, copyWithin, Nat.add_zero]
      rw [if_neg (by omega)]
      rfl
    · simp only [old, ne_eq, not_false_iff, if_true, true_and]
      exact copyWithin_apply (by have apart := disjoint old real; omega) _ _

/-- Nothing changes outside the new buffer. -/
theorem grownMem_changes (agrees : Agrees s buffers) (member : node ∈ s.nodes) (fresh : newData ∉ s.blocks)
    (live : newData ≠ 0 → (newData.toNat, newCapacity.toNat) ∈ s.volume.heap.live)
    (copies : Copies s.volume.files (answerOn s.volume newData) node newCapacity) {x : Nat}
    (changed : grownMem s.volume node newData x ≠ s.volume.heap.mem x) :
    newData ≠ 0 ∧ newData.toNat ≤ x ∧ x < newData.toNat + newCapacity.toNat := by
  rw [grownMem_apply agrees member fresh live copies] at changed
  split_ifs at changed with inside
  · obtain ⟨old, low, high⟩ := inside
    rcases (copies_room copies old).2 with none | ⟨real, room⟩
    · omega
    · exact ⟨real, low, by omega⟩
  · exact absurd rfl changed

theorem grown_fields (s : Ledger) (node newData newCapacity n : UInt32) :
    (s.grown node newData newCapacity).volume.nodes n =
      if n = node then { s.volume.nodes node with data := newData, capacity := newCapacity }
      else s.volume.nodes n := rfl

theorem housed_grown (agrees : Agrees s buffers) (member : node ∈ s.nodes) (fresh : newData ∉ s.blocks)
    (live : newData ≠ 0 → (newData.toNat, newCapacity.toNat) ∈ s.volume.heap.live)
    (copies : Copies s.volume.files (answerOn s.volume newData) node newCapacity) :
    Housed (s.grown node newData newCapacity) := by
  obtain ⟨bs, stop, held⟩ := agrees.housed.heap
  have within : Within s.volume.heap.live s.volume.heap.mem (grownMem s.volume node newData) := by
    intro x changed
    obtain ⟨real, bounds⟩ := grownMem_changes agrees member fresh live copies changed
    exact ⟨_, live real, bounds⟩
  have blocks : (s.grown node newData newCapacity).blocks =
    if newData ≠ 0 then newData :: s.blocks else s.blocks := rfl
  refine ⟨⟨bs, stop, represents_within held within⟩, fun b inside => ?_, agrees.housed.nodes, fun n inList => ?_⟩
  · rw [blocks] at inside
    split_ifs at inside with real
    · rcases List.mem_cons.mp inside with rfl | before
      · exact List.mem_map.mpr ⟨_, live real, rfl⟩
      · exact agrees.housed.blocks b before
    · exact agrees.housed.blocks b inside
  · rw [grown_fields]
    split_ifs with here
    · exact live
    · exact agrees.housed.data n inList

/-- The new buffer shows the bytes of the file, and the other files keep theirs. -/
theorem shows_grown (agrees : Agrees s buffers) (member : node ∈ s.nodes) (fresh : newData ∉ s.blocks)
    (live : newData ≠ 0 → (newData.toNat, newCapacity.toNat) ∈ s.volume.heap.live)
    (copies : Copies s.volume.files (answerOn s.volume newData) node newCapacity) :
    Shows (s.grown node newData newCapacity)
      (grown (s.apart buffers).fs (answerOn s.volume newData) node newCapacity).buffers := by
  intro n inList
  rw [grown_fields]
  split_ifs with here
  · intro real k small
    dsimp only at real small ⊢
    have old : newData ≠ (s.volume.nodes node).data := by
      rintro rfl
      exact fresh (agrees.linked.data node member real).1
    have filled := grown_bytes (s.apart buffers).fs node newCapacity (answerOn s.volume newData) real old k
    refine Eq.trans (grownMem_apply agrees member fresh live copies _) (Eq.trans ?_ filled.symm)
    by_cases inside : (s.volume.nodes node).data ≠ 0 ∧ k < (s.volume.nodes node).size.toNat
    · rw [if_pos ⟨inside.1, by omega, by omega⟩]
      refine Eq.trans ?_ (if_pos inside).symm
      have below := (copies_room copies inside.1).1
      rw [Nat.add_sub_cancel_left]
      exact agrees.shows node member inside.1 k (by omega)
    · rw [if_neg fun both => inside ⟨both.1, by omega⟩]
      exact (if_neg inside).symm
  · intro real k small
    have other : (s.volume.nodes n).data ≠ newData := by
      rintro rfl
      exact fresh (agrees.linked.data n inList real).1
    have kept := grown_others (s.apart buffers).fs (answerOn s.volume newData) node newCapacity other
    rw [kept]
    refine Eq.trans ?_ (agrees.shows n inList real k small)
    by_contra changed
    obtain ⟨new, low, high⟩ := grownMem_changes agrees member fresh live copies changed
    exact other (UInt32.toNat_inj.mp (agrees.apart_data inList real small (live new) low high)).symm

/-- A buffer that grows into a fresh block keeps volume and file system in agreement. -/
theorem agrees_grown (agrees : Agrees s buffers) (member : node ∈ s.nodes) (fresh : newData ∉ s.blocks)
    (live : newData ≠ 0 → (newData.toNat, newCapacity.toNat) ∈ s.volume.heap.live)
    (copies : Copies s.volume.files (answerOn s.volume newData) node newCapacity) :
    Agrees (s.grown node newData newCapacity)
      (grown (s.apart buffers).fs (answerOn s.volume newData) node newCapacity).buffers := by
  have wrote := grown_wrote (s.apart buffers).fs (answerOn s.volume newData) node newCapacity
  rw [← grown_apart] at wrote
  refine ⟨linked_wrote agrees.linked rfl rfl wrote ?_, housed_grown agrees member fresh live copies,
    shows_grown agrees member fresh live copies⟩
  by_cases null : newData = 0
  · exact .inl ⟨.inr null, if_neg (not_not.mpr null)⟩
  · exact .inr ⟨null, fresh, if_pos null⟩

/-! ## Every call -/

theorem apart_eq {s : Ledger} (fs : (s.apart buffers).fs = f) (nodes : s.nodes = ns) (roots : s.roots = rs)
    (blocks : s.blocks = bs) : s.apart buffers = ⟨f, ns, rs, bs⟩ := by
  subst fs nodes roots blocks
  rfl

/-- The buffer of the node after a write that grew it. -/
theorem grown_stored_data (s : Ledger) (node newData newCapacity offset size : UInt32) (buffer : Nat → UInt8) :
    (((s.grown node newData newCapacity).stored node offset size buffer).volume.nodes node).data = newData := by
  have wrote := stored_wrote (s.grown node newData newCapacity).volume.files node offset size buffer
  refine wrote.data.trans ?_
  exact congrArg RamfsNode.data (if_pos rfl)

/-- A write that grows the buffer. -/
theorem agrees_write_grows (buffer : Nat → UInt8) (agrees : Agrees s buffers) (member : node ∈ s.nodes)
    (fresh : newData ∉ s.blocks) (live : newData ≠ 0 → (newData.toNat, (offset + size).toNat) ∈ s.volume.heap.live)
    (grows : Grows s.volume.files node offset size)
    (copies : Copies s.volume.files (answerOn s.volume newData) node (offset + size))
    (room : touch newData offset.toNat size.toNat (offset + size).toNat = .ok ()) : ∃ buffers',
    Guarded RamfsTree.Legal RamStep (s.apart buffers) (.write (answerOn s.volume newData) node offset size buffer)
        (((s.grown node newData (offset + size)).stored node offset size buffer).apart buffers') ∧
      Agrees ((s.grown node newData (offset + size)).stored node offset size buffer) buffers' := by
  have enlarged := agrees_grown agrees member fresh live copies
  have inside : touch ((s.grown node newData (offset + size)).volume.nodes node).data offset.toNat size.toNat
      ((s.grown node newData (offset + size)).volume.nodes node).capacity.toNat = .ok () := by
    have here : (s.grown node newData (offset + size)).volume.nodes node =
      { s.volume.nodes node with data := newData, capacity := offset + size } := if_pos rfl
    rw [here]
    exact room
  refine ⟨_, ⟨⟨member, fresh⟩, _, _,
    ramfsWrite_grows (agrees.linked.node_ne_zero member) grows copies room, ?_⟩,
    agrees_stored buffer enlarged member inside⟩
  have fs := stored_apart (s.grown node newData (offset + size))
    (grown (s.apart buffers).fs (answerOn s.volume newData) node (offset + size)).buffers node offset size buffer
  rw [grown_apart] at fs ⊢
  refine apart_eq fs rfl rfl ?_
  have asks : Grows (s.apart buffers).fs node offset size := grows
  simp only [asks, true_and]
  rfl

/-- A write that returns, in the volume and in the file system. -/
theorem agrees_write (agrees : Agrees s buffers) (asked : Asked s (.write node offset size buffer))
    (step : FileStep s (.write node offset size buffer) s') : ∃ answer buffers',
      Guarded RamfsTree.Legal RamStep (s.apart buffers) (.write answer node offset size buffer)
        (s'.apart buffers') ∧ Agrees s' buffers' := by
  obtain ⟨fuel, v, result, done, rfl⟩ := step
  obtain ⟨member, roomy⟩ := asked
  have real : node ≠ 0 := agrees.linked.node_ne_zero member
  rw [ramfsWriteOn, if_neg real] at done
  by_cases grows : Grows s.volume.files node offset size
  · have more : offset + size > (s.volume.nodes node).capacity := grows.2
    have regular : (s.volume.nodes node).flags &&& vfsDir = 0 := grows.1
    rw [if_neg (not_not.mpr regular), if_pos more] at done
    obtain ⟨_, grew, done⟩ := Option.map_eq_some_iff.mp done
    obtain ⟨w, rfl, done⟩ := bind_returns.mp done
    obtain ⟨heap, newData, allocated, copies, rfl⟩ := growOn_ok.mp grew
    obtain ⟨room, rfl, rfl⟩ := storeOn_ok.mp done
    obtain ⟨kept, fresh, live⟩ := agrees_allocate agrees (roomy grows) allocated
    have here : (grownVolume (s.volume.setHeap heap) node newData (offset + size)).nodes node =
      { s.volume.nodes node with data := newData, capacity := offset + size } := if_pos rfl
    rw [here] at room
    obtain ⟨buffers', taken, after⟩ :=
      agrees_write_grows buffer kept member fresh live grows copies room
    have data : ((storedVolume (grownVolume (s.volume.setHeap heap) node newData (offset + size)) node offset size
        buffer).nodes node).data = newData :=
      grown_stored_data { s with volume := s.volume.setHeap heap } node newData (offset + size) offset size buffer
    have same : (⟨storedVolume (grownVolume (s.volume.setHeap heap) node newData (offset + size)) node offset size
        buffer, s.nodes, s.roots, if newData ≠ 0 then newData :: s.blocks else s.blocks⟩ : Ledger) =
        (Ledger.grown { s with volume := s.volume.setHeap heap } node newData (offset + size)).stored node offset
          size buffer := rfl
    simp only [grows, true_and, data, same]
    exact ⟨_, buffers', taken, after⟩
  · have nowhere : RamfsTree.Legal (s.apart buffers) (.write ⟨0, fun _ => 0⟩ node offset size buffer) :=
      ⟨member, agrees.linked.nonNull⟩
    have still : ¬ Grows (s.apart buffers).fs node offset size := grows
    have blocks : (if Grows (s.apart buffers).fs node offset size ∧ (0 : UInt32) ≠ 0 then 0 :: s.blocks
      else s.blocks) = s.blocks := if_neg fun both => still both.1
    simp only [grows, false_and, if_false]
    by_cases dir : (s.volume.nodes node).flags &&& vfsDir = 0
    · have fits : ¬ offset + size > (s.volume.nodes node).capacity := fun more => grows ⟨dir, more⟩
      rw [if_neg (not_not.mpr dir), if_neg fits, Option.some.injEq] at done
      obtain ⟨room, rfl, rfl⟩ := storeOn_ok.mp done
      have wrote : ramfsWrite (s.apart buffers).fs ⟨0, fun _ => 0⟩ node offset size buffer =
          .ok (stored (s.apart buffers).fs node offset size buffer, asInt size) := by
        refine ramfsWrite_returns.mpr ⟨real, .inr ⟨dir, (s.apart buffers).fs, ?_, room, rfl, rfl⟩⟩
        rw [if_neg still]
      exact ⟨_, _, ⟨nowhere, _, _, wrote,
        apart_eq (stored_apart s buffers node offset size buffer) rfl rfl blocks.symm⟩,
        agrees_stored _ agrees member room⟩
    · rw [if_pos dir] at done
      cases done
      exact ⟨⟨0, fun _ => 0⟩, buffers, ⟨nowhere, _, -1,
        ramfsWrite_returns.mpr ⟨real, .inl ⟨dir, rfl, rfl⟩⟩, apart_eq rfl rfl rfl blocks.symm⟩, agrees⟩

/-- The roots of trees and the mounts do not touch the heap. -/
theorem Agrees.retree (agrees : Agrees s buffers) (mounts : List (UInt32 × UInt32)) (vfsRoot : UInt32) :
    Agrees { s with volume := ⟨s.volume.heap, s.volume.nodes, mounts, vfsRoot⟩ } buffers :=
  ⟨linked_congr agrees.linked rfl rfl rfl rfl,
    ⟨agrees.housed.heap, agrees.housed.blocks, agrees.housed.nodes, agrees.housed.data⟩, agrees.shows⟩

/-- Paths lead to the same nodes. -/
theorem lookup_apart (s : Ledger) (buffers : UInt32 → Nat → UInt8) (path : CString) :
    vfsLookup (s.apart buffers).fs path = vfsLookup s.volume.files path := by
  have same : Wrote s.volume.files (s.apart buffers).fs 0 (s.volume.nodes 0).data :=
    ⟨fun _ _ => rfl, rfl, rfl, rfl, rfl, rfl, rfl, rfl⟩
  exact vfsLookup_wrote same path

theorem agrees_mount (agrees : Agrees s buffers) (asked : Asked s (.mount path fsRoot))
    (step : FileStep s (.mount path fsRoot) s') :
    Guarded RamfsTree.Legal RamStep (s.apart buffers) (.mount path fsRoot) (s'.apart buffers) ∧
      Agrees s' buffers := by
  obtain ⟨fs, done, rfl⟩ := step
  obtain ⟨mp, found, done⟩ := bind_returns.mp done
  split at done
  · cases done
  · rename_i real
    obtain ⟨_, room, done⟩ := bind_returns.mp done
    cases done
    have mounted := vfsMount_eq ((lookup_apart s buffers path).trans found) real (storeBelow_ok.mp room) fsRoot
    exact ⟨⟨asked, _, mounted, rfl⟩, agrees.retree _ _⟩

/-- Whatever ramfs does in the volume, the file system with buffers of its own does as well. -/
theorem agrees_files (agrees : Agrees s buffers) (asked : Asked s req) (step : FileStep s req s') :
    ∃ call buffers', request call = req ∧
      Guarded RamfsTree.Legal RamStep (s.apart buffers) call (s'.apart buffers') ∧ Agrees s' buffers' := by
  cases req with
  | createInstance =>
    obtain ⟨answer, taken, after⟩ := agrees_createInstance agrees asked step
    exact ⟨_, buffers, rfl, taken, after⟩
  | create parent name flags =>
    obtain ⟨answer, taken, after⟩ := agrees_create agrees asked step
    exact ⟨_, buffers, rfl, taken, after⟩
  | write node offset size buffer =>
    obtain ⟨answer, buffers', taken, after⟩ := agrees_write agrees asked step
    exact ⟨_, buffers', rfl, taken, after⟩
  | setRoot root =>
    cases step
    exact ⟨.setRoot root, buffers, rfl, ⟨asked, rfl⟩, agrees.retree _ _⟩
  | mount path fsRoot =>
    obtain ⟨taken, after⟩ := agrees_mount agrees asked step
    exact ⟨_, buffers, rfl, taken, after⟩

/-- The file systems that a volume stands for. -/
def StandsFor (s : Ledger) (ram : RamState) : Prop := ∃ buffers, ram = s.apart buffers ∧ Agrees s buffers

/-- A volume simulates them; what others do with the heap does not show. -/
theorem volume_simulation : Simulation StandsFor VolumeCall.request? request (Guarded Mannerly VolumeStep)
    (Guarded RamfsTree.Legal RamStep) := by
  rintro s _ call s' ⟨buffers, rfl, agrees⟩ ⟨allowed, step⟩
  cases call with
  | files req =>
    obtain ⟨t, m, step, on, rfl⟩ := step
    obtain ⟨call, buffers', same, taken, after⟩ := agrees_files agrees allowed step
    refine ⟨[call], t.apart buffers', .cons taken .nil, ?_, buffers', rfl, after.onNodes on⟩
    rw [List.map_singleton, same]
    rfl
  | heap call =>
    obtain ⟨heap, step, rfl⟩ := step
    exact ⟨[], _, .nil, rfl, buffers, rfl, agrees_heap agrees allowed step⟩
  | store ptr offset byte =>
    cases step
    obtain ⟨n, live, inside, foreign⟩ := allowed
    exact ⟨[], _, .nil, rfl, buffers, rfl, agrees_store agrees live inside foreign byte⟩

/-! ## Reading -/

/-- A read finds in memory what the buffer holds. -/
theorem read_apart (agrees : Agrees s buffers) (member : node ∈ s.nodes) (offset size : UInt32) :
    ramfsRead s.volume.files node offset size = ramfsRead (s.apart buffers).fs node offset size := by
  have fields : (s.apart buffers).fs.nodes = s.volume.files.nodes := rfl
  unfold ramfsRead
  rw [fields]
  dsimp only
  split
  · rfl
  · generalize (if offset + size > (s.volume.files.nodes node).size then
      (s.volume.files.nodes node).size - offset else size) = n
    cases room : touch (s.volume.files.nodes node).data offset.toNat n.toNat
        (s.volume.files.nodes node).capacity.toNat with
    | error fault => rfl
    | ok _ =>
      refine congrArg (fun bytes => Except.ok (asInt n, bytes)) (List.map_congr_left fun i member' => ?_)
      have below := List.mem_range.mp member'
      rcases touch_ok.mp room with none | ⟨real, inside⟩
      · omega
      · exact agrees.shows node member real (offset.toNat + i) (by
          have capacity : s.volume.files.nodes node = s.volume.nodes node := rfl
          rw [capacity] at inside
          omega)

theorem agrees_noFiles (boot : NoFiles s) (buffers : UInt32 → Nat → UInt8) : Agrees s buffers := by
  obtain ⟨⟨vars, live⟩, nodes, roots, blocks, -, -⟩ := boot
  refine ⟨?_, ⟨⟨[], kernelHeapStart, ?_, ?_⟩, ?_, ?_, ?_⟩, ?_⟩
  · constructor <;> simp [Ledger.apart, nodes, roots, blocks]
  · rw [vars]
    exact heapInit_inv _
  · rw [live]
    exact ⟨List.Pairwise.nil, by simp⟩
  · simp [blocks]
  · simp [nodes]
  · simp [nodes]
  · simp [Shows, nodes]

/-- What follows from the answer of a call that returns without a fault. -/
def answered (answer : Option (Except Fault α)) (f : α → Ledger) : Option Ledger :=
  match answer with
  | some (.ok a) => some (f a)
  | _ => none

theorem of_answered {answer : Option (Except Fault α)} (done : answered answer f = some s) :
    ∃ a, answer = some (.ok a) ∧ s = f a := by
  unfold answered at done
  split at done
  · rename_i a
    exact ⟨a, rfl, (Option.some.inj done).symm⟩
  · cases done

/-- A call of ramfs with the fuel of a short list. -/
def Ledger.serve (s : Ledger) : FileRequest → Option Ledger
  | .createInstance => answered (createInstanceOn 9 s.volume) fun (v, root) =>
    ⟨v, root :: s.nodes, root :: s.roots, root :: s.blocks⟩
  | .create parent name flags => answered (ramfsCreateOn 9 s.volume parent name flags) fun (v, child, result) =>
    if result = 0 then ⟨v, child :: s.nodes, s.roots, child :: s.blocks⟩ else { s with volume := v }
  | .write node offset size buffer => answered (ramfsWriteOn 9 s.volume node offset size buffer) fun (v, _) =>
    ⟨v, s.nodes, s.roots,
      if Grows s.volume.files node offset size ∧ (v.nodes node).data ≠ 0 then
        (v.nodes node).data :: s.blocks
      else s.blocks⟩
  | .setRoot root => some { s with volume := { s.volume with vfsRoot := root } }
  | .mount path fsRoot => answered (some (vfsMount s.volume.files path fsRoot)) fun fs =>
    { s with volume := s.volume.setFiles fs }

theorem serve_step {req : FileRequest} (served : s.serve req = some s') : FileStep s req s' := by
  cases req with
  | createInstance =>
    rw [Ledger.serve] at served
    obtain ⟨⟨v, root⟩, done, same⟩ := of_answered served
    exact ⟨9, v, root, done, same⟩
  | create parent name flags =>
    rw [Ledger.serve] at served
    obtain ⟨⟨v, child, result⟩, done, same⟩ := of_answered served
    exact ⟨9, v, child, result, done, same⟩
  | write node offset size buffer =>
    rw [Ledger.serve] at served
    obtain ⟨⟨v, result⟩, done, same⟩ := of_answered served
    exact ⟨9, v, result, done, same⟩
  | setRoot root =>
    cases served
    rfl
  | mount path fsRoot =>
    rw [Ledger.serve] at served
    obtain ⟨fs, done, same⟩ := of_answered served
    exact ⟨fs, Option.some.inj done, same⟩

def Ledger.did (s : Ledger) : VolumeCall → Option Ledger
  | .files req => s.serve req
  | .heap call => (s.volume.heap.call 9 call).map fun heap => { s with volume := s.volume.setHeap heap }
  | .store ptr offset byte =>
    some { s with volume := s.volume.setMem (Function.update s.volume.heap.mem (ptr + offset) byte) }

theorem did_step {call : VolumeCall} (done : s.did call = some s') : VolumeStep s call s' := by
  cases call with
  | files req => exact ⟨s', s'.volume.heap.mem, serve_step done, fun x changed => absurd rfl changed, rfl⟩
  | heap call =>
    obtain ⟨heap, taken, rfl⟩ := Option.map_eq_some_iff.mp done
    exact ⟨heap, ⟨9, taken⟩, rfl⟩
  | store ptr offset byte =>
    cases done
    rfl

/-- A test of `Mannerly`. -/
def manners (s : Ledger) : VolumeCall → Bool
  | .files .createInstance => roomyTest 0 s.volume.heap (.kmalloc nodeSize)
  | .files (.create parent _ _) => decide (parent ∈ s.nodes) && roomyTest 0 s.volume.heap (.kmalloc nodeSize)
  | .files (.write node offset size _) =>
    decide (node ∈ s.nodes) && roomyTest 0 s.volume.heap (.kmalloc (offset + size))
  | .files (.setRoot root) => decide (root ∈ s.roots)
  | .files (.mount _ fsRoot) =>
    decide (fsRoot ∈ s.roots) && s.volume.mounts.all fun mount => fsRoot != mount.2
  | .heap (.kmalloc size) => roomyTest 0 s.volume.heap (.kmalloc size)
  | .heap (.kfree ptr) =>
    decide (HeapRuns.Legal s.volume.heap (.kfree ptr) ∧ ptr ∉ s.blocks) && roomyTest 0 s.volume.heap (.kfree ptr)
  | .store ptr offset _ =>
    decide ((∃ a ∈ s.volume.heap.live, a.1 = ptr ∧ offset < a.2) ∧ ptr ∉ s.blocks.map (·.toNat))

theorem mannerly_of_test {call : VolumeCall} (passed : manners s call = true) : Mannerly s call := by
  cases call with
  | files req =>
    cases req with
    | createInstance =>
      rw [manners] at passed
      exact roomy_of_test passed
    | create parent name flags =>
      rw [manners, Bool.and_eq_true, decide_eq_true_eq] at passed
      exact ⟨passed.1, fun _ => roomy_of_test passed.2⟩
    | write node offset size buffer =>
      rw [manners, Bool.and_eq_true, decide_eq_true_eq] at passed
      exact ⟨passed.1, fun _ => roomy_of_test passed.2⟩
    | setRoot root =>
      rw [manners, decide_eq_true_eq] at passed
      exact passed
    | mount path fsRoot =>
      rw [manners, Bool.and_eq_true, decide_eq_true_eq, List.all_eq_true] at passed
      exact ⟨passed.1, fun mount member => bne_iff_ne.mp (passed.2 mount member)⟩
  | heap call =>
    cases call with
    | kmalloc size =>
      rw [manners] at passed
      exact roomy_of_test passed
    | kfree ptr =>
      rw [manners, Bool.and_eq_true, decide_eq_true_eq] at passed
      obtain ⟨⟨legal, foreign⟩, passed⟩ := passed
      exact ⟨legal, roomy_of_test passed, foreign⟩
  | store ptr offset byte =>
    rw [manners, decide_eq_true_eq] at passed
    obtain ⟨⟨⟨p, n⟩, live, rfl, inside⟩, foreign⟩ := passed
    exact ⟨n, live, inside, foreign⟩

/-- The volume after a call that passes the test. -/
def mannered (s : Ledger) (call : VolumeCall) : Option Ledger := if manners s call then s.did call else none

theorem mannered_step {call : VolumeCall} (done : mannered s call = some s') :
    Guarded Mannerly VolumeStep s call s' := by
  rw [mannered] at done
  split_ifs at done with passed
  exact ⟨mannerly_of_test passed, did_step done⟩

/-- A cleared heap without files. -/
def noFiles : Ledger := ⟨⟨clearHeap, fun _ => clearedNode, [], 0⟩, [], [], []⟩

/-- A file in the root is written to. Before it grows, another user of the heap allocates, stores and
frees in front of it. -/
def sharedCalls : List VolumeCall :=
  [.files .createInstance, .files (.setRoot 0x400014), .heap (.kmalloc 16),
    .files (.create 0x400014 (cstring "a") vfsFile), .files (.write 0x400138 0 3 fun k => .ofNat (97 + k)),
    .store 0x400110 2 7, .heap (.kfree 0x400110), .files (.write 0x400138 3 2 fun k => .ofNat (100 + k)),
    .heap (.kmalloc 8)]

/-- The file then lies where that user's block was. -/
def shared : Ledger := (execute mannered noFiles sharedCalls).getD noFiles

theorem shared_run : Run (Guarded Mannerly VolumeStep) noFiles sharedCalls shared :=
  executed_run (fun _ _ _ => mannered_step) (by decide +kernel)

end ZynthexOS.StoredFiles
