import ZynthexOS.Core.Log
import ZynthexOS.Lib.Fifo
import Mathlib.Data.List.DropRight

/-! The kernel log as the tail of the stream of characters written to it, before,
while and after the buffer fills up. -/
namespace ZynthexOS.KernelLog
open ZynthexOS.Core Text Lib

/-- A call that writes to the log. -/
inductive Call where
  | write (message : Option (List UInt8))
  | writeHex (value : UInt32)
  | writeDec (value : UInt32)

def act (s : Log) : Call → Log
  | .write message => logWrite s message
  | .writeHex value => logWriteHex s value
  | .writeDec value => logWriteDec s value

/-- The characters of a call: a message up to its NUL, or a number's digits. -/
def Call.text : Call → List UInt8
  | .write none => []
  | .write (some message) => message.takeWhile (· ≠ 0)
  | .writeHex value => (hexText value).takeWhile (· ≠ 0)
  | .writeDec value => (utoa value 10).takeWhile (· ≠ 0)

/-- The log holds the last characters of a stream. -/
structure Tail (s : Log) (stream : List UInt8) : Prop where
  used : s.logUsed = min stream.length logBufferSize
  cells : Fifo.Holds logBufferSize s.logBuffer (logStartIndex s) s.logHead
    (stream.rtake logBufferSize)

variable {s : Log} {stream : List UInt8} {c : UInt8} {n : Nat}

/-- The last `n` of a list that has one more. -/
theorem rtake_concat (long : n ≤ stream.length) (positive : 0 < n) :
    (stream ++ [c]).rtake n = (stream.rtake n).tail ++ [c] := by
  simp only [List.rtake, List.length_append, List.length_singleton, List.tail_drop]
  rw [List.drop_append_of_le_length (by omega)]
  congr 2
  omega

theorem rtake_all (short : stream.length ≤ n) : stream.rtake n = stream := by
  rw [List.rtake, Nat.sub_eq_zero_of_le short, List.drop_zero]

theorem Tail.reset (s : Log) : Tail { s with logHead := 0, logUsed := 0 } [] := by
  refine ⟨rfl, ?_⟩
  rw [List.rtake_nil]
  have size : 0 < logBufferSize := by decide
  have origin : logStartIndex { s with logHead := 0, logUsed := 0 } = 0 := if_pos size
  rw [origin]
  exact .empty size

/-- One more character. -/
theorem Tail.char (tail : Tail s stream) : Tail (logChar s c) (stream ++ [c]) := by
  obtain ⟨used, cells⟩ := tail
  have size : 0 < logBufferSize := by decide
  by_cases room : stream.length < logBufferSize
  · -- nothing has been overwritten, so that the queue starts at 0
    have below : s.logUsed < logBufferSize := by omega
    have origin : logStartIndex s = 0 := if_pos below
    rw [origin, rtake_all (Nat.le_of_lt room)] at cells
    have head := cells.head_eq
    have origin' : logStartIndex (logChar s c) = 0 := by
      simp only [logStartIndex, logChar, if_pos below]
      split_ifs with more
      · rfl
      · have last : s.logHead + 1 = logBufferSize := by
          rw [Nat.zero_add, Nat.mod_eq_of_lt room] at head
          omega
        rw [last, Nat.mod_self]
    refine ⟨?_, ?_⟩
    · simp only [logChar, if_pos below, List.length_append, List.length_singleton]
      omega
    · rw [origin', rtake_all (by simp; omega)]
      exact cells.push room
  · have full : ¬ s.logUsed < logBufferSize := by omega
    have origin : logStartIndex s = s.logHead := if_neg full
    have origin' : logStartIndex (logChar s c) = (s.logHead + 1) % logBufferSize := by
      simp only [logStartIndex, logChar, if_neg full]
    rw [origin] at cells
    refine ⟨?_, ?_⟩
    · simp only [logChar, if_neg full, List.length_append, List.length_singleton]
      omega
    · rw [origin', rtake_concat (by omega) size]
      apply cells.push_full
      simp only [List.rtake, List.length_drop]
      omega

theorem Tail.chars (tail : Tail s stream) (cs : List UInt8) :
    Tail (cs.foldl logChar s) (stream ++ cs) := by
  induction cs generalizing s stream with
  | nil => simpa using tail
  | cons c cs ih =>
    rw [List.foldl_cons, List.append_cons]
    exact ih tail.char

theorem Tail.act (tail : Tail s stream) (call : Call) : Tail (act s call) (stream ++ call.text) := by
  cases call with
  | write message =>
    cases message with
    | none => simpa [KernelLog.act, logWrite, Call.text] using tail
    | some message => exact tail.chars _
  | writeHex value => exact tail.chars _
  | writeDec value => exact tail.chars _

theorem Tail.run (tail : Tail s stream) (calls : List Call) :
    Tail (calls.foldl KernelLog.act s) (stream ++ calls.flatMap Call.text) := by
  induction calls generalizing s stream with
  | nil => simpa using tail
  | cons call calls ih =>
    rw [List.foldl_cons, List.flatMap_cons, ← List.append_assoc]
    exact ih (tail.act call)

theorem Tail.dump (tail : Tail s stream) : logDump s =
    ascii "[dmesg]\n" ++ stream.rtake logBufferSize ++ ascii "\n[end]\n" := by
  have length : s.logUsed = (stream.rtake logBufferSize).length := by
    rw [tail.used, List.rtake, List.length_drop]
    omega
  rw [logDump, length, tail.cells.map_range]

/-- Whatever has been written since the reset, its last `LOG_BUFFER_SIZE` characters
are dumped, or all of them if there are fewer. -/
theorem log_dump_tail (s : Log) (calls : List Call) :
    logDump (calls.foldl act (logInit s)) =
      ascii "[dmesg]\n" ++
        (ascii "log: initialized\n" ++ calls.flatMap Call.text).rtake logBufferSize ++
        ascii "\n[end]\n" := by
  have greeting : (ascii "log: initialized\n").takeWhile (· ≠ 0) = ascii "log: initialized\n" := by
    decide
  have first := (Tail.reset s).chars ((ascii "log: initialized\n").takeWhile (· ≠ 0))
  rw [List.nil_append, greeting] at first
  have initial : Tail (logInit s) (ascii "log: initialized\n") := by
    rw [logInit, logWrite, greeting]
    exact first
  exact (initial.run calls).dump

end ZynthexOS.KernelLog
