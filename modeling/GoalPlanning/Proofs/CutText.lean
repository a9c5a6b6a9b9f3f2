import GoalPlanning.Drawing
import Mathlib.Data.String.Basic

/-!
# Text that is cut off

A drawing can be made as a string, written into a text sink line by line, or written to a byte
writer chunk by chunk. A sink may become full anywhere: between two lines, in the middle of a label
or, as far as bytes are concerned, in the middle of a character. All that this changes is where the
text ends. A sink of whole characters has taken as many of them as fit, a byte writer has taken as
many bytes as fit, and both say so exactly if this is not all. The sizes of the pieces in which the
text is offered do not matter.
-/

namespace GoalPlanning

/-- The part at the beginning of a text that is as long as a number of bytes allows, in whole
characters. -/
structure IsCutAt (limit : ℕ) (whole part : String) : Prop where
  /-- It is where the text begins. -/
  isPrefix : part.toList <+: whole.toList
  /-- It fits. -/
  size_le : part.utf8ByteSize ≤ limit
  /-- Nothing longer fits. -/
  longest : ∀ s : String, s.toList <+: whole.toList → s.utf8ByteSize ≤ limit →
    s.toList <+: part.toList

/-! ## Text sinks -/

/-- A string takes all text at its end. -/
theorem TextSink.writeAll_string (pieces : List String) (s : String) :
    TextSink.writeAll pieces s = (.ok (), s ++ String.join pieces) := by
  induction pieces generalizing s with
  | nil => simp [TextSink.writeAll, String.join_nil]
  | cons piece rest ih =>
    change TextSink.writeAll rest (s ++ piece) = _
    rw [ih, String.join_cons, String.append_assoc]

namespace BoundedText

variable {room : ℕ} {cs ds : List Char}

/-- What fits is at the beginning. -/
theorem fitting_isPrefix (room : ℕ) (cs : List Char) : fitting room cs <+: cs := by
  induction cs generalizing room with
  | nil => exact List.nil_prefix
  | cons c cs ih =>
    unfold fitting
    split
    · exact List.cons_prefix_cons.2 ⟨rfl, ih _⟩
    · exact List.nil_prefix

/-- What fits has no more bytes than there is room for. -/
theorem utf8Len_fitting_le (room : ℕ) (cs : List Char) :
    String.utf8Len (fitting room cs) ≤ room := by
  induction cs generalizing room with
  | nil => exact Nat.zero_le room
  | cons c cs ih =>
    unfold fitting
    split
    · have hrest := ih (room - c.utf8Size)
      rw [String.utf8Len_cons]
      omega
    · exact Nat.zero_le room

/-- Whatever has room at the beginning is among what fits. -/
theorem isPrefix_fitting (hbegins : ds <+: cs) (hle : String.utf8Len ds ≤ room) :
    ds <+: fitting room cs := by
  induction cs generalizing room ds with
  | nil => exact hbegins
  | cons c cs ih =>
    rcases List.prefix_cons_iff.1 hbegins with rfl | ⟨ds, rfl, hrest⟩
    · exact List.nil_prefix
    · rw [String.utf8Len_cons] at hle
      have hfits : c.utf8Size ≤ room := by omega
      rw [fitting, if_pos hfits]
      exact List.cons_prefix_cons.2 ⟨rfl, ih hrest (by omega)⟩

/-- What fits is everything exactly if there is room for everything. -/
theorem fitting_eq_self_iff : fitting room cs = cs ↔ String.utf8Len cs ≤ room := by
  constructor
  · intro h
    rw [← h]
    exact utf8Len_fitting_le room cs
  · intro hle
    have hall : cs <+: fitting room cs := isPrefix_fitting List.prefix_rfl hle
    exact (fitting_isPrefix room cs).eq_of_length_le hall.length_le

/-- If a first piece fits, then the next one has the room that is left. -/
theorem fitting_append_of_le (hle : String.utf8Len cs ≤ room) (ds : List Char) :
    fitting room (cs ++ ds) = cs ++ fitting (room - String.utf8Len cs) ds := by
  induction cs generalizing room with
  | nil => rfl
  | cons c cs ih =>
    rw [String.utf8Len_cons] at hle ⊢
    have hfits : c.utf8Size ≤ room := by omega
    rw [List.cons_append, fitting, if_pos hfits, ih (by omega), List.cons_append, Nat.sub_sub,
      Nat.add_comm c.utf8Size]

/-- If a first piece does not fit, then nothing of the next one is taken. -/
theorem fitting_append_of_lt (hlt : room < String.utf8Len cs) (ds : List Char) :
    fitting room (cs ++ ds) = fitting room cs := by
  induction cs generalizing room with
  | nil => exact absurd hlt (Nat.not_lt_zero room)
  | cons c cs ih =>
    rw [String.utf8Len_cons] at hlt
    rw [List.cons_append, fitting, fitting]
    split
    · rw [ih (by omega)]
    · rfl

/-- What fits of a text. -/
def cut (room : ℕ) (s : String) : String := String.ofList (fitting room s.toList)

/-- What fits is the longest part that does. -/
theorem isCutAt_cut (limit : ℕ) (whole : String) : IsCutAt limit whole (cut limit whole) where
  isPrefix := by
    rw [cut, String.toList_ofList]
    exact fitting_isPrefix limit whole.toList
  size_le := by
    rw [cut, String.utf8ByteSize_ofList]
    exact utf8Len_fitting_le limit whole.toList
  longest s hbegins hle := by
    rw [cut, String.toList_ofList]
    exact isPrefix_fitting hbegins ((String.utf8Len_toList s).trans_le hle)

/-- There is nothing to cut off an empty text. -/
theorem cut_empty (room : ℕ) : cut room "" = "" := by
  simp [cut, fitting]

/-- If the first text fits, then only the second one is cut. -/
theorem cut_append_of_le {s : String} (hle : s.utf8ByteSize ≤ room) (t : String) :
    cut room (s ++ t) = s ++ cut (room - s.utf8ByteSize) t := by
  rw [← String.utf8Len_toList] at hle ⊢
  rw [cut, String.toList_append, fitting_append_of_le hle, String.ofList_append,
    String.ofList_toList, cut]

/-- If the first text does not fit, then nothing of the second one is left. -/
theorem cut_append_of_lt {s : String} (hlt : room < s.utf8ByteSize) (t : String) :
    cut room (s ++ t) = cut room s := by
  rw [← String.utf8Len_toList] at hlt
  rw [cut, String.toList_append, fitting_append_of_lt hlt, cut]

/-- How many bytes a sink still has room for. -/
def space (sink : BoundedText) : ℕ := sink.limit - sink.taken.utf8ByteSize

/-- A piece that there is room for is taken as a whole. -/
theorem write_of_le {piece : String} {sink : BoundedText}
    (hle : piece.utf8ByteSize ≤ sink.space) :
    TextSink.write piece sink = (true, { sink with taken := sink.taken ++ piece }) := by
  rw [← String.utf8Len_toList, ← fitting_eq_self_iff, space] at hle
  change write piece sink = _
  simp only [write, hle, beq_self_eq_true, String.ofList_toList]

/-- Of any other piece what fits is taken. -/
theorem write_of_lt {piece : String} {sink : BoundedText}
    (hlt : sink.space < piece.utf8ByteSize) :
    TextSink.write piece sink =
      (false, { sink with taken := sink.taken ++ cut sink.space piece }) := by
  have hpart : (fitting sink.space piece.toList).length ≠ piece.toList.length := by
    intro hlength
    have hall := (fitting_isPrefix _ _).eq_of_length hlength
    rw [fitting_eq_self_iff, String.utf8Len_toList] at hall
    omega
  change write piece sink = _
  rw [space] at hpart ⊢
  simp only [write, beq_false_of_ne hpart, cut]

/-- Pieces that are offered one after another are taken as one text. -/
theorem writeAll_eq (pieces : List String) (sink : BoundedText) :
    TextSink.writeAll pieces sink =
      (if (String.join pieces).utf8ByteSize ≤ sink.space then .ok () else .error .rendering,
        { sink with taken := sink.taken ++ cut sink.space (String.join pieces) }) := by
  induction pieces generalizing sink with
  | nil => simp [TextSink.writeAll, String.join_nil, cut_empty]
  | cons piece rest ih =>
    rw [TextSink.writeAll, String.join_cons, String.utf8ByteSize_append]
    rcases Nat.lt_or_ge sink.space piece.utf8ByteSize with hlt | hle
    · have hfull : ¬piece.utf8ByteSize + (String.join rest).utf8ByteSize ≤ sink.space := by omega
      rw [write_of_lt hlt, cut_append_of_lt hlt, if_neg hfull]
    · have hspace : space { sink with taken := sink.taken ++ piece } =
          sink.space - piece.utf8ByteSize := by
        simp only [space, String.utf8ByteSize_append, Nat.sub_sub]
      have hrest : piece.utf8ByteSize + (String.join rest).utf8ByteSize ≤ sink.space ↔
          (String.join rest).utf8ByteSize ≤ sink.space - piece.utf8ByteSize := by omega
      rw [write_of_le hle, cut_append_of_le hle]
      simp only [ih, hspace, hrest, String.append_assoc]

end BoundedText

/-! ## Byte writers -/

namespace Pipe

variable {pipe : Pipe} {bytes : List UInt8}

/-- How many bytes a pipe still has room for. -/
def space (pipe : Pipe) : ℕ := pipe.limit - pipe.taken.size

/-- Why a full pipe takes nothing. -/
def reason (pipe : Pipe) : String :=
  if pipe.silent then "failed to write whole buffer" else "disk full"

/-- The pipe when it has taken some more bytes. -/
def accept (pipe : Pipe) (bytes : List UInt8) : Pipe := { pipe with taken := pipe.taken ++ bytes }

/-- What a pipe has accepted does not change how much it takes at once. -/
@[simp] theorem chunk_accept (pipe : Pipe) (bytes : List UInt8) :
    (pipe.accept bytes).chunk = pipe.chunk := rfl

/-- What a pipe has accepted does not change why it fails in the end. -/
@[simp] theorem reason_accept (pipe : Pipe) (bytes : List UInt8) :
    (pipe.accept bytes).reason = pipe.reason := rfl

/-- What a pipe has accepted takes up space. -/
@[simp] theorem space_accept (pipe : Pipe) (bytes : List UInt8) :
    (pipe.accept bytes).space = pipe.space - bytes.length := by
  have hsize : (pipe.taken ++ bytes).size = pipe.taken.size + bytes.length := by
    rw [← Array.length_toList, Array.toList_appendList, List.length_append, Array.length_toList]
  rw [space, accept, hsize, space, Nat.sub_sub]

/-- Without any bytes nothing changes. -/
@[simp] theorem accept_nil (pipe : Pipe) : pipe.accept [] = pipe := rfl

/-- Bytes may be accepted in two parts. -/
@[simp] theorem accept_accept (pipe : Pipe) (bytes bytes' : List UInt8) :
    (pipe.accept bytes).accept bytes' = pipe.accept (bytes ++ bytes') := by
  have htaken : pipe.taken ++ bytes ++ bytes' = pipe.taken ++ (bytes ++ bytes') :=
    Array.ext' (by simp only [Array.toList_appendList, List.append_assoc])
  simp only [accept, htaken]

/-- A full pipe takes nothing, and writing fails at once. -/
theorem writeAll_of_space_eq_zero (hspace : pipe.space = 0) (hbytes : bytes ≠ []) :
    ByteWriter.writeAll bytes pipe = (.error (.writing pipe.reason), pipe) := by
  obtain ⟨byte, rest, rfl⟩ := List.exists_cons_of_ne_nil hbytes
  have hwrite : ByteWriter.write (byte :: rest) pipe =
      (if pipe.silent then .ok 0 else .error "disk full", pipe) := by
    change write (byte :: rest) pipe = _
    rw [space] at hspace
    simp [write, hspace]
  rw [ByteWriter.writeAll, hwrite, reason]
  cases pipe.silent <;> rfl

/-- Any other pipe takes a chunk, or what it has room for, and the rest is offered to it again. -/
theorem writeAll_of_space_pos (hchunk : 0 < pipe.chunk) (hspace : 0 < pipe.space)
    (hbytes : bytes ≠ []) :
    ByteWriter.writeAll bytes pipe = ByteWriter.writeAll (bytes.drop (min pipe.chunk pipe.space))
      (pipe.accept (bytes.take (min pipe.chunk pipe.space))) := by
  obtain ⟨byte, rest, rfl⟩ := List.exists_cons_of_ne_nil hbytes
  obtain ⟨count, hcount⟩ : ∃ count, min pipe.chunk pipe.space = count + 1 :=
    Nat.exists_eq_add_one_of_ne_zero (by omega)
  have hwrite : ByteWriter.write (byte :: rest) pipe =
      (.ok ((rest.take count).length + 1), pipe.accept ((byte :: rest).take (count + 1))) := by
    change write (byte :: rest) pipe = _
    rw [space] at hcount
    simp [write, hcount, accept]
  have hdrop : rest.drop (rest.take count).length = rest.drop count := by
    rcases Nat.le_total count rest.length with hle | hle
    · rw [List.length_take_of_le hle]
    · rw [List.take_of_length_le hle, List.drop_length, List.drop_of_length_le hle]
  rw [ByteWriter.writeAll, hwrite, hcount, List.drop_succ_cons, ← hdrop]

/-- The first bytes, and then the first ones of the rest, are the first bytes. -/
theorem take_append_take_drop (bytes : List UInt8) {k room : ℕ} (hle : k ≤ room) :
    bytes.take k ++ (bytes.drop k).take (room - min k bytes.length) = bytes.take room := by
  rcases Nat.le_total k bytes.length with hk | hk
  · rw [Nat.min_eq_left hk, ← List.take_add, Nat.add_sub_cancel' hle]
  · rw [List.drop_of_length_le hk, List.take_nil, List.append_nil, List.take_of_length_le hk,
      List.take_of_length_le (hk.trans hle)]

/-- Bytes that are offered chunk by chunk are taken as far as there is room for them. -/
theorem writeAll_eq (hchunk : 0 < pipe.chunk) (bytes : List UInt8) :
    ByteWriter.writeAll bytes pipe =
      (if bytes.length ≤ pipe.space then .ok () else .error (.writing pipe.reason),
        pipe.accept (bytes.take pipe.space)) := by
  induction hlength : bytes.length using Nat.strong_induction_on generalizing bytes pipe with
  | h length ih =>
    subst hlength
    rcases eq_or_ne bytes [] with rfl | hbytes
    · simp [ByteWriter.writeAll]
    have hpos := List.length_pos_of_ne_nil hbytes
    rcases Nat.eq_zero_or_pos pipe.space with hspace | hspace
    · have hfull : ¬bytes.length ≤ 0 := by omega
      rw [writeAll_of_space_eq_zero hspace hbytes, hspace, if_neg hfull, List.take_zero, accept_nil]
    · rw [writeAll_of_space_pos hchunk hspace hbytes]
      generalize hk : min pipe.chunk pipe.space = k
      have hk_le : k ≤ pipe.space := hk ▸ Nat.min_le_right _ _
      have hrest : (bytes.drop k).length < bytes.length := by
        rw [List.length_drop]
        omega
      have hfits : bytes.length - k ≤ pipe.space - min k bytes.length ↔
          bytes.length ≤ pipe.space := by
        omega
      have hchunk' : 0 < (pipe.accept (bytes.take k)).chunk := by rwa [chunk_accept]
      rw [ih _ hrest hchunk' _ rfl, reason_accept, space_accept, accept_accept, List.length_take,
        List.length_drop, take_append_take_drop bytes hk_le]
      simp only [hfits]

end Pipe

/-! ## Drawings -/

namespace Drawing

/-- **Text is cut off only where there is no more room.** Written into a string, a drawing is its
text. A sink with room for a number of bytes has taken the longest part at the beginning of this
text that fits, in whole characters, however the text is cut into pieces; a pipe with room for so
many bytes has taken exactly so many bytes of it from the beginning, however many it takes at once.
Writing succeeds exactly if there is room for all of the text. -/
theorem writeText_writeBytes_eq (actions : List Action) (current goal : State)
    (plan : List Action) (limit : ℕ) {chunk : ℕ} (hchunk : 0 < chunk) (silent : Bool) :
    let drawn := text actions current goal plan
    let sink : BoundedText := { limit }
    let pipe : Pipe := { limit, chunk, silent }
    writeText actions current goal plan "" = (.ok (), drawn) ∧
    (∃ part, IsCutAt limit drawn part ∧
      writeText actions current goal plan sink =
        (if drawn.utf8ByteSize ≤ limit then .ok () else .error .rendering,
          { sink with taken := part }) ∧
      ∀ pieces, String.join pieces = drawn →
        TextSink.writeAll pieces sink = writeText actions current goal plan sink) ∧
    writeBytes actions current goal plan pipe =
      (if drawn.utf8ByteSize ≤ limit then .ok () else .error (.writing pipe.reason),
        { pipe with taken := (drawn.toUTF8.data.toList.take limit).toArray }) := by
  intro drawn sink pipe
  have hlines : String.join (graph actions current goal plan).lines = drawn := rfl
  have hsink : sink.space = limit := rfl
  have hpipe : pipe.space = limit := rfl
  have hbytes : (text actions current goal plan).toUTF8.data.toList.length = drawn.utf8ByteSize :=
    rfl
  have htaken (bytes : List UInt8) : pipe.taken ++ bytes = bytes.toArray :=
    Array.ext' (by rw [Array.toList_appendList]; rfl)
  refine ⟨?_, ⟨BoundedText.cut limit drawn, BoundedText.isCutAt_cut limit drawn, ?_, ?_⟩, ?_⟩
  · rw [writeText, TextSink.writeAll_string, hlines, String.empty_append]
  · rw [writeText, BoundedText.writeAll_eq, hlines, hsink, String.empty_append]
  · intro pieces hpieces
    rw [writeText, BoundedText.writeAll_eq, BoundedText.writeAll_eq, hpieces, hlines]
  · rw [writeBytes, Pipe.writeAll_eq hchunk, hpipe, hbytes, Pipe.accept, htaken]

end Drawing

namespace Dessert

/-- What is on offer is written with accents. -/
def offered : State := State.empty.insert "crème brûlée" (.bool true)

/-- With room for 150 bytes the drawing is cut off in the middle of the first letter that has an
accent. As text it ends in front of the letter, as bytes it ends with half of it. -/
theorem written_offered :
    0 < 7 ∧ ∃ part bytes, IsCutAt 150 (Drawing.text [] offered State.empty []) part ∧
      Drawing.writeText [] offered State.empty [] (⟨150, ""⟩ : BoundedText) =
        (.error .rendering, ⟨150, part⟩) ∧ part.utf8ByteSize = 149 ∧
      Drawing.writeBytes [] offered State.empty [] (⟨150, 7, false, #[]⟩ : Pipe) =
        (.error (.writing "disk full"), ⟨150, 7, false, bytes⟩) ∧ bytes.size = 150 := by
  have hchunk : 0 < 7 := by decide
  obtain ⟨-, ⟨part, hcut, htext, -⟩, hbytes⟩ :=
    Drawing.writeText_writeBytes_eq [] offered State.empty [] 150 hchunk false
  have hlong : ¬(Drawing.text [] offered State.empty []).utf8ByteSize ≤ 150 := by decide +kernel
  have hpart : (Drawing.writeText [] offered State.empty []
      (⟨150, ""⟩ : BoundedText)).2.taken.utf8ByteSize = 149 := by
    decide +kernel
  rw [if_neg hlong] at htext hbytes
  rw [htext] at hpart
  refine ⟨hchunk, part, _, hcut, htext, hpart, hbytes, ?_⟩
  rw [List.size_toArray, List.length_take]
  exact Nat.min_eq_left (Nat.le_of_not_le hlong)

end Dessert

end GoalPlanning
