import GoalPlanning.Proofs.Dot.Scanning

/-!
# Rows of DOT text

DOT text is written in rows. A row ends at a line break outside strings. A line break inside a
string belongs to the string, so a text that is drawn can no more end its row than it can end its
label, and the rows that were written can be read off the text.
-/

namespace GoalPlanning.Dot

/-! ## Reading rows -/

/-- A reader that takes DOT text apart into rows. -/
structure Rows where
  /-- The rows that are complete, each with its line break. -/
  complete : List String
  /-- The characters of the row that has begun. -/
  begun : List Char
  /-- What a scanner has found in the row that has begun. -/
  found : Scan

/-- A reader that is about to begin a row after the given ones. -/
def Rows.after (complete : List String) : Rows := ⟨complete, [], ⟨.outside, [], []⟩⟩

/-- A reader reads one more character. -/
def Rows.step (r : Rows) (c : Char) : Rows :=
  if c = '\n' ∧ r.found.place = .outside then
    .after (r.complete ++ [String.ofList (r.begun ++ [c])])
  else ⟨r.complete, r.begun ++ [c], r.found.step c⟩

/-- The rows of a text. What follows the last line break is no row. -/
def rowsOf (text : String) : List String := (text.toList.foldl Rows.step (.after [])).complete

/-- What a row has outside its strings, with the quotation marks of each string. -/
def outside (row : String) : List Char := (scan row).frame

/-- What has been found outside strings is kept. -/
theorem Scan.mem_frame_foldl {c : Char} (chars : List Char) {s : Scan} (h : c ∈ s.frame) :
    c ∈ (chars.foldl Scan.step s).frame := by
  induction chars generalizing s with
  | nil => exact h
  | cons d chars ih =>
    apply ih
    unfold Scan.step
    cases s.place with
    | outside => exact List.mem_append_left _ h
    | inside body =>
      dsimp only
      split_ifs
      · exact h
      · exact List.mem_append_left _ h
      · exact h
    | escaped body => exact h

/-- Text without a line break outside strings belongs to the row that has begun. -/
theorem Rows.foldl_step_of_unbroken (chars : List Char) {r : Rows}
    (h : '\n' ∉ (chars.foldl Scan.step r.found).frame) :
    chars.foldl Rows.step r =
      ⟨r.complete, r.begun ++ chars, chars.foldl Scan.step r.found⟩ := by
  induction chars generalizing r with
  | nil => simp
  | cons c chars ih =>
    have hgoes_on : ¬(c = '\n' ∧ r.found.place = .outside) := by
      rintro ⟨rfl, houtside⟩
      refine h (Scan.mem_frame_foldl chars ?_)
      simp [Scan.step, houtside]
    have hstep : r.step c = ⟨r.complete, r.begun ++ [c], r.found.step c⟩ := if_neg hgoes_on
    rw [List.foldl_cons, hstep, ih h]
    simp

/-! ## Texts of whole rows -/

/-- Reading the text, which consists of whole rows, leads outside strings again. It adds the frame
and the strings, and these rows. -/
structure ReadsRows (text frame : String) (strings : List (List Char)) (rows : List String) :
    Prop where
  /-- A scanner finds this from outside strings on. -/
  foldl_scan : ∀ s : Scan, s.place = .outside →
    text.toList.foldl Scan.step s = ⟨.outside, s.frame ++ frame.toList, s.strings ++ strings⟩
  /-- A reader that is about to begin a row completes these rows. -/
  foldl_rows : ∀ complete, text.toList.foldl Rows.step (.after complete) =
    .after (complete ++ rows)

/-- A text whose frame is on one line is a row when a line break follows. -/
theorem Reads.row {text frame : String} {strings : List (List Char)}
    (h : Reads text frame strings) :
    ReadsRows (text ++ "\n") (frame ++ "\n") strings [text ++ "\n"] where
  foldl_scan s hs := by
    rw [String.toList_append, List.foldl_append, h.foldl_step s hs]
    simp [Scan.step]
  foldl_rows complete := by
    have hfound := h.foldl_step ⟨.outside, [], []⟩ rfl
    have hbegun : text.toList.foldl Rows.step (.after complete) =
        ⟨complete, text.toList, ⟨.outside, frame.toList, strings⟩⟩ := by
      rw [Rows.foldl_step_of_unbroken text.toList (r := .after complete)]
      · exact congrArg (Rows.mk complete text.toList) hfound
      · change '\n' ∉ (text.toList.foldl Scan.step ⟨.outside, [], []⟩).frame
        rw [hfound]
        exact h.unbroken
    rw [String.toList_append, List.foldl_append, hbegun]
    simp [Rows.step]

namespace ReadsRows

variable {text text' frame frame' : String} {strings strings' : List (List Char)}
  {rows rows' : List String}

/-- Rows are read one after another. -/
theorem append (h : ReadsRows text frame strings rows)
    (h' : ReadsRows text' frame' strings' rows') :
    ReadsRows (text ++ text') (frame ++ frame') (strings ++ strings') (rows ++ rows') where
  foldl_scan s hs := by
    rw [String.toList_append, List.foldl_append, h.foldl_scan s hs, h'.foldl_scan _ rfl]
    simp
  foldl_rows complete := by
    rw [String.toList_append, List.foldl_append, h.foldl_rows, h'.foldl_rows, List.append_assoc]

/-- Where nothing is read, there is no row. -/
theorem empty : ReadsRows "" "" [] [] := by
  constructor
  · rintro ⟨place, frame, strings⟩ rfl
    simp
  · intro complete
    simp

/-- Any number of rows may be read one after another. -/
theorem join {α : Type} {pieces : List α} {text frame : α → String}
    {strings : α → List (List Char)}
    (h : ∀ a ∈ pieces, ReadsRows (text a) (frame a) (strings a) [text a]) :
    ReadsRows (String.join (pieces.map text)) (String.join (pieces.map frame))
      (pieces.flatMap strings) (pieces.map text) := by
  induction pieces with
  | nil => exact empty
  | cons a pieces ih =>
    obtain ⟨ha, hpieces⟩ := List.forall_mem_cons.1 h
    simp only [List.map_cons, String.join_cons, List.flatMap_cons]
    exact ha.append (ih hpieces)

/-- A scanner that reads whole rows ends outside strings. -/
theorem scan_eq (h : ReadsRows text frame strings rows) :
    scan text = ⟨.outside, frame.toList, strings⟩ :=
  h.foldl_scan _ rfl

/-- The rows of the text are these. -/
theorem rowsOf_eq (h : ReadsRows text frame strings rows) : rowsOf text = rows := by
  rw [rowsOf, h.foldl_rows]
  rfl

end ReadsRows

/-- A line break in a label does not end the row. -/
example : rowsOf "a [label=\"one\ntwo\"];\nb;\n" = ["a [label=\"one\ntwo\"];\n", "b;\n"] := by
  decide

end GoalPlanning.Dot
