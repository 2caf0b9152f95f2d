import ZynthexOS.Arch.Gdt
import ZynthexOS.Core.Gates
import ZynthexOS.Lib.Bits
import ZynthexOS.Lib.Descriptors
import Mathlib.Data.List.Induction

/-! The descriptor tables as the processor reads them. -/
namespace ZynthexOS.DescriptorTables
open ZynthexOS.Core Arch Lib.Descriptors Lib.Scan

/-! ## Gates -/

/-- A mask of ones takes a field. -/
theorem masked (v : UInt32) (low mask : UInt32) (width : Nat) (ones : mask.toNat = 2 ^ width - 1) :
    ((v >>> low) &&& mask).toNat = field v.toNat (low.toNat % 32) width := by
  rw [UInt32.toNat_and, ones, Nat.and_two_pow_sub_one_eq_mod, UInt32.toNat_shiftRight,
    Nat.shiftRight_eq_div_pow, field]

theorem masked_low (v mask : UInt32) (width : Nat) (ones : mask.toNat = 2 ^ width - 1) :
    (v &&& mask).toNat = field v.toNat 0 width := by
  rw [UInt32.toNat_and, ones, Nat.and_two_pow_sub_one_eq_mod, field, Nat.pow_zero, Nat.div_one]

/-- The processor reads the handler that was stored, behind a ring 0 interrupt gate. -/
theorem readGate_gateEntry (handler : UInt32) :
    readGate (gateEntry handler).raw = ⟨handler.toNat, 0x08, 0x8E⟩ := by
  have small := handler.toNat_lt
  have low : (handler &&& 0xFFFF).toUInt16.toNat = handler.toNat % 2 ^ 16 := by
    rw [UInt32.toNat_toUInt16, masked_low handler _ 16 rfl]
    unfold field
    omega
  have high : ((handler >>> 16) &&& 0xFFFF).toUInt16.toNat = handler.toNat / 2 ^ 16 := by
    rw [UInt32.toNat_toUInt16, masked handler 16 _ 16 rfl]
    change handler.toNat / 2 ^ 16 % 2 ^ 16 % 2 ^ 16 = _
    omega
  have selector : (0x08 : UInt16).toNat = 8 := rfl
  have zero : (0 : UInt8).toNat = 0 := rfl
  have typeAttr : (0x8E : UInt8).toNat = 0x8E := rfl
  rw [readGate, Gate.mk.injEq]
  simp only [gateEntry, IdtEntry.raw, field, low, high, selector, zero, typeAttr]
  omega

/-- What a loop over the table stores at the places `first + i`. -/
theorem forRange_gates (handlers : Nat → UInt32) (first count : Nat) (entries : Nat → IdtEntry) (n : Nat) :
    forRange (fun entries i => idtSetGate entries (first + i) (handlers i)) 0 count entries n =
      if first ≤ n ∧ n < first + count then gateEntry (handlers (n - first)) else entries n := by
  by_cases before : n < first
  · rw [if_neg (by omega)]
    refine forRange_keep _ (fun entries => entries n) 0 count (fun entries i _ _ => ?_) entries
    exact Function.update_of_ne (by omega) _ _
  · obtain ⟨i, rfl⟩ := Nat.exists_eq_add_of_le (Nat.le_of_not_lt before)
    have loop := forRange_observe (fun entries i => idtSetGate entries (first + i) (handlers i))
      (fun entries i => entries (first + i)) (fun i _ => gateEntry (handlers i))
      (fun entries f g => by
        rw [idtSetGate, Function.update_apply]
        by_cases same : g = f
        · rw [same, if_pos rfl, if_pos rfl]
        · rw [if_neg (by omega), if_neg same]) 0 count entries i
    rw [loop, Nat.add_sub_cancel_left]
    by_cases inside : i < count
    · rw [if_pos (by omega), if_pos (by omega)]
    · rw [if_neg (by omega), if_neg (by omega)]

theorem bootIdt_entries (s : Idt) (address : UInt32) (isrHandlers irqHandlers : Nat → UInt32)
    (syscallEntry : UInt32) (inside : n < 256) :
    (bootIdt s address isrHandlers irqHandlers syscallEntry).entries n =
      if n < 32 then gateEntry (isrHandlers n)
      else if n < 48 then gateEntry (irqHandlers (n - 32))
      else if n = 0x80 then gateEntry syscallEntry else ⟨0, 0, 0, 0, 0⟩ := by
  have cleared := forRange_observe (fun entries i => Function.update entries i (⟨0, 0, 0, 0, 0⟩ : IdtEntry))
    (fun entries i => entries i) (fun _ _ => ⟨0, 0, 0, 0, 0⟩)
    (fun entries f g => Function.update_apply entries f _ g) 0 idtEntries s.entries n
  have exceptions := forRange_gates isrHandlers 0 32
  simp only [Nat.zero_add, Nat.sub_zero] at exceptions
  rw [if_pos ⟨Nat.zero_le n, inside⟩] at cleared
  have init : (idtInit s address isrHandlers irqHandlers).entries n =
      if n < 32 then gateEntry (isrHandlers n)
      else if n < 48 then gateEntry (irqHandlers (n - 32)) else ⟨0, 0, 0, 0, 0⟩ := by
    rw [idtInit]
    dsimp only
    rw [exceptions, forRange_gates irqHandlers 32 16, cleared]
    by_cases exception : n < 32
    · rw [if_pos ⟨Nat.zero_le n, exception⟩, if_pos exception]
    · rw [if_neg (by omega), if_neg exception]
      congr 1
      exact propext ⟨fun both => both.2, fun below => ⟨by omega, below⟩⟩
  change idtSetGate (idtInit s address isrHandlers irqHandlers).entries 0x80 syscallEntry n = _
  rw [idtSetGate, Function.update_apply, init]
  split_ifs <;> first | rfl | omega

/-- After `kernel_boot` has filled the table the interrupts 0 to 31 lead to the stubs of the
exceptions, 32 to 47 to those of the hardware interrupts, 0x80 to `syscall_entry`, all through
the kernel's code segment, and every other interrupt nowhere. -/
theorem interrupts_lead (s : Idt) (address : UInt32) (isrHandlers irqHandlers : Nat → UInt32)
    (syscallEntry : UInt32) (n : Nat) :
    interruptTarget (fun i => ((bootIdt s address isrHandlers irqHandlers syscallEntry).entries i).raw)
        (bootIdt s address isrHandlers irqHandlers syscallEntry).limit.toNat n =
      if n < 32 then some (codeSelector, (isrHandlers n).toNat)
      else if n < 48 then some (codeSelector, (irqHandlers (n - 32)).toNat)
      else if n = 0x80 then some (codeSelector, syscallEntry.toNat) else none := by
  have stored : ∀ handler, (readGate (gateEntry handler).raw).enters = true := fun handler => by
    rw [readGate_gateEntry]
    simp [Gate.enters]
  have absent : (readGate (⟨0, 0, 0, 0, 0⟩ : IdtEntry).raw).enters = false := by decide
  have limit : (bootIdt s address isrHandlers irqHandlers syscallEntry).limit.toNat = 2047 := rfl
  rw [interruptTarget, limit]
  by_cases inside : n < 256
  · have covered : 8 * n + 7 ≤ 2047 := by omega
    rw [bootIdt_entries s address isrHandlers irqHandlers syscallEntry inside]
    by_cases exception : n < 32
    · rw [if_pos exception, if_pos exception, if_pos ⟨covered, stored _⟩, readGate_gateEntry]
      rfl
    rw [if_neg exception, if_neg exception]
    by_cases hardware : n < 48
    · rw [if_pos hardware, if_pos hardware, if_pos ⟨covered, stored _⟩, readGate_gateEntry]
      rfl
    rw [if_neg hardware, if_neg hardware]
    by_cases call : n = 0x80
    · rw [if_pos call, if_pos call, if_pos ⟨covered, stored _⟩, readGate_gateEntry]
      rfl
    · rw [if_neg call, if_neg call, absent]
      exact if_neg (by simp)
  · rw [if_neg (by omega), if_neg (by omega), if_neg (by omega), if_neg (by omega)]

/-! ## Segments -/

/-- The fields of a descriptor that is put together from its parts. -/
theorem readSegment_parts (smallLimit : limit < 2 ^ 16) (smallBase : base < 2 ^ 16) (smallMiddle : middle < 2 ^ 8)
    (smallAccess : access < 2 ^ 8) (smallUpper : upper < 2 ^ 4) (smallFlags : flags < 2 ^ 4)
    (smallHigh : high < 2 ^ 8) :
    readSegment (limit + 2 ^ 16 * base + 2 ^ 32 * middle + 2 ^ 40 * access + 2 ^ 48 * (upper + flags * 2 ^ 4) +
      2 ^ 56 * high) = ⟨base + 2 ^ 16 * middle + 2 ^ 24 * high, limit + 2 ^ 16 * upper, access, flags⟩ := by
  rw [readSegment, Segment.mk.injEq]
  unfold field
  omega

/-- The processor reads the base, 20 bits of the limit, the access byte and four flags. -/
theorem readSegment_segmentEntry (base limit : UInt32) (access gran : UInt8) :
    readSegment (segmentEntry base limit access gran).raw =
      ⟨base.toNat, limit.toNat % 2 ^ 20, access.toNat, gran.toNat / 2 ^ 4⟩ := by
  have smallBase := base.toNat_lt
  have smallGran := gran.toNat_lt
  have smallAccess := access.toNat_lt
  have limitLow : (limit &&& 0xFFFF).toUInt16.toNat = limit.toNat % 2 ^ 16 := by
    rw [UInt32.toNat_toUInt16, masked_low limit _ 16 rfl]
    unfold field
    omega
  have baseLow : (base &&& 0xFFFF).toUInt16.toNat = base.toNat % 2 ^ 16 := by
    rw [UInt32.toNat_toUInt16, masked_low base _ 16 rfl]
    unfold field
    omega
  have baseMiddle : ((base >>> 16) &&& 0xFF).toUInt8.toNat = base.toNat / 2 ^ 16 % 2 ^ 8 := by
    rw [UInt32.toNat_toUInt8, masked base 16 _ 8 rfl]
    exact Nat.mod_mod ..
  have baseHigh : ((base >>> 24) &&& 0xFF).toUInt8.toNat = base.toNat / 2 ^ 24 := by
    rw [UInt32.toNat_toUInt8, masked base 24 _ 8 rfl]
    change base.toNat / 2 ^ 24 % 2 ^ 8 % 2 ^ 8 = _
    omega
  have limitHigh : ((limit >>> 16) &&& 0x0F).toUInt8.toNat = limit.toNat / 2 ^ 16 % 2 ^ 4 := by
    rw [UInt32.toNat_toUInt8, masked limit 16 _ 4 rfl]
    change limit.toNat / 2 ^ 16 % 2 ^ 4 % 2 ^ 8 = _
    omega
  have flags : (gran &&& 0xF0).toNat = gran.toNat / 2 ^ 4 * 2 ^ 4 := by
    rw [UInt8.toNat_and]
    exact Lib.Bits.and_high_mask (by decide : 4 ≤ 8) smallGran
  have granularity : (((limit >>> 16) &&& 0x0F).toUInt8 ||| (gran &&& 0xF0)).toNat =
      limit.toNat / 2 ^ 16 % 2 ^ 4 + gran.toNat / 2 ^ 4 * 2 ^ 4 := by
    rw [UInt8.toNat_or, limitHigh, flags, Nat.or_comm, Nat.add_comm]
    exact Lib.Bits.or_low (k := 4) (by omega) (by omega)
  have raw : (segmentEntry base limit access gran).raw = limit.toNat % 2 ^ 16 +
      2 ^ 16 * (base.toNat % 2 ^ 16) + 2 ^ 32 * (base.toNat / 2 ^ 16 % 2 ^ 8) + 2 ^ 40 * access.toNat +
      2 ^ 48 * (limit.toNat / 2 ^ 16 % 2 ^ 4 + gran.toNat / 2 ^ 4 * 2 ^ 4) + 2 ^ 56 * (base.toNat / 2 ^ 24) := by
    simp only [segmentEntry, GdtEntry.raw, limitLow, baseLow, baseMiddle, baseHigh, granularity]
  rw [raw, readSegment_parts (by omega) (by omega) (by omega) smallAccess (by omega) (by omega) (by omega),
    Segment.mk.injEq]
  omega

/-- A call of `gdt_set_entry`. -/
structure SegmentCall where
  num : Nat
  base : UInt32
  limit : UInt32
  access : UInt8
  gran : UInt8

def SegmentCall.run (s : Gdt) (call : SegmentCall) : Gdt :=
  gdtSetEntry s call.num call.base call.limit call.access call.gran

theorem SegmentCall.run_entries (s : Gdt) (call : SegmentCall) :
    (call.run s).entries =
      Function.update s.entries call.num (segmentEntry call.base call.limit call.access call.gran) := rfl

/-- What the processor is meant to read behind the call. -/
def SegmentCall.segment (call : SegmentCall) : Segment :=
  ⟨call.base.toNat, call.limit.toNat % 2 ^ 20, call.access.toNat, call.gran.toNat / 2 ^ 4⟩

/-- After any calls of `gdt_set_entry` the processor reads in every entry what the last call for
it has asked for, and leaves the others. -/
theorem segments_read_back (s : Gdt) (calls : List SegmentCall) (n : Nat) :
    readSegment ((calls.foldl SegmentCall.run s).entries n).raw =
      match calls.reverse.find? (·.num = n) with
      | some call => call.segment
      | none => readSegment (s.entries n).raw := by
  induction calls using List.reverseRecOn with
  | nil => rfl
  | append_singleton calls call ih =>
    rw [List.foldl_append, List.foldl_cons, List.foldl_nil, SegmentCall.run_entries, List.reverse_append,
      List.reverse_singleton, List.singleton_append]
    by_cases here : call.num = n
    · rw [List.find?_cons_of_pos (by simpa using here), ← here, Function.update_self, readSegment_segmentEntry]
      rfl
    · rw [List.find?_cons_of_neg (by simpa using here), Function.update_of_ne (Ne.symm here), ih]

/-- The calls of `gdt_init` and `tss_init`. -/
def bootSegments (tss : UInt32) : List SegmentCall :=
  [⟨0, 0, 0, 0, 0⟩, ⟨1, 0, 0xFFFFFFFF, 0x9A, 0xCF⟩, ⟨2, 0, 0xFFFFFFFF, 0x92, 0xCF⟩,
    ⟨3, 0, 0xFFFFFFFF, 0xFA, 0xCF⟩, ⟨4, 0, 0xFFFFFFFF, 0xF2, 0xCF⟩, ⟨5, tss, tssSize, 0x89, 0x40⟩]

theorem boot_entries (s : Gdt) (address tss : UInt32) :
    (tssInit (gdtInit s address) tss).entries = ((bootSegments tss).foldl SegmentCall.run s).entries := rfl

/-- A present segment over all of the memory. -/
theorem linear_flat {s : Segment} (present : s.present) (base : s.base = 0) (limit : s.limit = 0xFFFFF)
    (pages : s.flags / 2 ^ 3 % 2 = 1) (small : offset < 2 ^ 32) : s.linear offset = some offset := by
  have inside : offset ≤ s.lastOffset := by
    rw [Segment.lastOffset, if_pos pages, limit]
    omega
  rw [Segment.linear, if_pos ⟨present, inside⟩, base, Nat.zero_add, Nat.mod_eq_of_lt small]

/-- With the kernel's segments an address is its own linear address, in ring 0 and in ring 3; the
null selector gives no address, and the task state takes its own bytes and one more. -/
theorem boot_segments_flat (s : Gdt) (address tss : UInt32) (offset : UInt32) :
    (∀ n, 1 ≤ n → n ≤ 4 → (readSegment ((tssInit (gdtInit s address) tss).entries n).raw).linear offset.toNat =
      some offset.toNat) ∧
    (readSegment ((tssInit (gdtInit s address) tss).entries 0).raw).linear offset.toNat = none ∧
    (readSegment ((tssInit (gdtInit s address) tss).entries (taskSelector / 8)).raw).linear offset.toNat =
      if offset ≤ tssSize then some (tss + offset).toNat else none := by
  have small := offset.toNat_lt
  have read : ∀ n call, (bootSegments tss).reverse.find? (·.num = n) = some call →
      readSegment ((tssInit (gdtInit s address) tss).entries n).raw = call.segment := fun n call last => by
    rw [boot_entries, segments_read_back, last]
  refine ⟨fun n first last => ?_, ?_, ?_⟩
  · obtain rfl | rfl | rfl | rfl : n = 1 ∨ n = 2 ∨ n = 3 ∨ n = 4 := by omega
    all_goals
      rw [read _ _ rfl]
      exact linear_flat rfl rfl rfl rfl small
  · rw [read 0 _ rfl]
    exact if_neg fun both => absurd both.1 (by decide)
  · rw [read (taskSelector / 8) _ rfl, Segment.linear, SegmentCall.segment, UInt32.toNat_add]
    have limit : tssSize.toNat % 1048576 = 104 := rfl
    have size : offset ≤ tssSize ↔ offset.toNat ≤ 104 := UInt32.le_iff_toNat_le
    simp [Segment.present, Segment.lastOffset, limit, size]

end ZynthexOS.DescriptorTables
