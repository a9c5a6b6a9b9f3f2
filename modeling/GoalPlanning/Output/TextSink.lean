import GoalPlanning.Failure

/-!
# Text sinks

A text sink takes text piece by piece. It may refuse to go on, and what it has taken by then stays
taken.
-/

namespace GoalPlanning

/-- Something that takes text. -/
class TextSink (σ : Type) where
  /-- Offers a piece of text. The answer says whether all of it was taken. -/
  write : String → σ → Bool × σ

/-- Offers pieces of text one after another, until one is not taken as a whole. -/
def TextSink.writeAll {σ : Type} [TextSink σ] : List String → σ → Except Failure Unit × σ
  | [], sink => (.ok (), sink)
  | piece :: rest, sink =>
    match TextSink.write piece sink with
    | (true, sink) => writeAll rest sink
    | (false, sink) => (.error .rendering, sink)

/-- A string takes all text, at its end. -/
instance : TextSink String := ⟨fun piece s => (true, s ++ piece)⟩

/-- A sink with room for a limited number of bytes in UTF-8. It takes whole characters. -/
structure BoundedText where
  /-- How many bytes there is room for in all. -/
  limit : Nat
  /-- The text taken so far. -/
  taken : String := ""

namespace BoundedText

/-- The first characters that fit into a number of bytes. -/
def fitting (room : Nat) : List Char → List Char
  | [] => []
  | c :: rest => if c.utf8Size ≤ room then c :: fitting (room - c.utf8Size) rest else []

/-- Takes the characters that fit. Nothing after the first one that does not fit is taken. -/
def write (piece : String) (sink : BoundedText) : Bool × BoundedText :=
  let chars := fitting (sink.limit - sink.taken.utf8ByteSize) piece.toList
  (chars.length == piece.toList.length, { sink with taken := sink.taken ++ String.ofList chars })

instance : TextSink BoundedText := ⟨write⟩

end BoundedText

end GoalPlanning
