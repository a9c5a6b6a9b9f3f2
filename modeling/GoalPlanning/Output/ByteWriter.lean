import GoalPlanning.Failure

/-!
# Byte writers

A byte writer takes some of the bytes that it is offered, from the first one on, and says how many.
Writing all bytes means to offer the rest again and again.
-/

namespace GoalPlanning

/-- Something that takes bytes. -/
class ByteWriter (ω : Type) where
  /-- Offers bytes. The answer is how many were taken, or why there was an error. -/
  write : List UInt8 → ω → Except String Nat × ω

/-- Offers bytes until all are taken. An error ends it, and so does a writer that takes none. -/
def ByteWriter.writeAll {ω : Type} [ByteWriter ω] (bytes : List UInt8) (writer : ω) :
    Except Failure Unit × ω :=
  match bytes with
  | [] => (.ok (), writer)
  | byte :: rest =>
    match ByteWriter.write (byte :: rest) writer with
    | (.error reason, writer) => (.error (.writing reason), writer)
    | (.ok 0, writer) => (.error (.writing "failed to write whole buffer"), writer)
    | (.ok (count + 1), writer) => writeAll (rest.drop count) writer
  termination_by bytes.length
  decreasing_by simp only [List.length_drop, List.length_cons]; omega

/-- A writer with room for a limited number of bytes, which takes a limited number of them at
once. -/
structure Pipe where
  /-- How many bytes there is room for in all. -/
  limit : Nat
  /-- How many bytes are taken at once, at most. -/
  chunk : Nat
  /-- Whether a full pipe takes nothing without calling this an error. -/
  silent : Bool
  /-- The bytes taken so far. -/
  taken : Array UInt8 := #[]

namespace Pipe

/-- Takes as many bytes as fit, up to a chunk. -/
def write (bytes : List UInt8) (pipe : Pipe) : Except String Nat × Pipe :=
  match bytes.take (min pipe.chunk (pipe.limit - pipe.taken.size)) with
  | [] => (if pipe.silent then .ok 0 else .error "disk full", pipe)
  | bytes => (.ok bytes.length, { pipe with taken := pipe.taken ++ bytes })

instance : ByteWriter Pipe := ⟨write⟩

end Pipe

end GoalPlanning
