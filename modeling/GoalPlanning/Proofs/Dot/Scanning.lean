import GoalPlanning.Dot.Label
import Mathlib.Data.List.Basic

/-!
# Reading strings in DOT text

In DOT text a quotation mark opens a string. Inside a string a backslash takes the next character
with it, and the next quotation mark that is not taken closes the string. Whatever lines a label
has, what is written for it is one string, and the lines can be read off the string again.
-/

namespace GoalPlanning.Dot

/-! ## Scanning -/

/-- Where a scanner of DOT text is. -/
inductive Place where
  /-- Outside strings. -/
  | outside
  /-- Inside a string, after these characters of it. -/
  | inside (body : List Char)
  /-- Inside a string, after these characters of it and a backslash. -/
  | escaped (body : List Char)
  deriving DecidableEq

/-- What a scanner has found. -/
structure Scan where
  /-- Where it is. -/
  place : Place
  /-- The text outside strings. Of each string it has the quotation marks. -/
  frame : List Char
  /-- What stands between the quotation marks of the strings that are closed. -/
  strings : List (List Char)
  deriving DecidableEq

/-- A scanner reads one more character. -/
def Scan.step (s : Scan) (c : Char) : Scan :=
  match s.place with
  | .outside =>
    { s with place := if c = '"' then .inside [] else .outside, frame := s.frame ++ [c] }
  | .inside body =>
    if c = '\\' then { s with place := .escaped body }
    else if c = '"' then ⟨.outside, s.frame ++ [c], s.strings ++ [body]⟩
    else { s with place := .inside (body ++ [c]) }
  | .escaped body => { s with place := .inside (body ++ ['\\', c]) }

/-- Reads a text from its beginning. -/
def scan (text : String) : Scan := text.toList.foldl Scan.step ⟨.outside, [], []⟩

/-- Reading the text outside strings leads outside strings again, and adds the frame and the
strings. The frame is on one line. -/
structure Reads (text frame : String) (strings : List (List Char)) : Prop where
  /-- This is found from outside strings on, whatever has been found before. -/
  foldl_step : ∀ s : Scan, s.place = .outside →
    text.toList.foldl Scan.step s = ⟨.outside, s.frame ++ frame.toList, s.strings ++ strings⟩
  /-- There is no line break outside strings. -/
  unbroken : '\n' ∉ frame.toList

/-- A text without quotation marks and line breaks. -/
def Plain (text : String) : Prop := '"' ∉ text.toList ∧ '\n' ∉ text.toList

instance (text : String) : Decidable (Plain text) := inferInstanceAs (Decidable (_ ∧ _))

/-- Plain texts may be put together. -/
theorem Plain.append {text text' : String} (h : Plain text) (h' : Plain text') :
    Plain (text ++ text') := by
  simp only [Plain, String.toList_append, List.mem_append, not_or] at *
  exact ⟨⟨h.1, h'.1⟩, h.2, h'.2⟩

/-- Numbers are written with digits alone. -/
theorem isDigit_of_mem_toString {n : ℕ} {c : Char} (h : c ∈ (toString n).toList) :
    c.isDigit = true := by
  rw [Nat.toString_eq_repr, Nat.toList_repr] at h
  exact Nat.isDigit_of_mem_toDigits (by decide) (by decide) h

/-- A character that is no digit cannot be in a numbered name unless it is in what is numbered. -/
theorem notMem_append_toString {c : Char} {s : String} {n : ℕ} (hc : c.isDigit = false)
    (hs : c ∉ s.toList) : c ∉ (s ++ toString n).toList := by
  rw [String.toList_append, List.mem_append, not_or]
  exact ⟨hs, fun h => Bool.false_ne_true (hc.symm.trans (isDigit_of_mem_toString h))⟩

/-- Numbers are plain. -/
theorem plain_toString (n : ℕ) : Plain (toString n) :=
  ⟨fun h => absurd (isDigit_of_mem_toString h) (by decide),
    fun h => absurd (isDigit_of_mem_toString h) (by decide)⟩

namespace Reads

variable {text text' frame frame' : String} {strings strings' : List (List Char)}

/-- Texts are read one after another. -/
theorem append (h : Reads text frame strings) (h' : Reads text' frame' strings') :
    Reads (text ++ text') (frame ++ frame') (strings ++ strings') where
  foldl_step s hs := by
    rw [String.toList_append, List.foldl_append, h.foldl_step s hs, h'.foldl_step _ rfl]
    simp
  unbroken := by
    rw [String.toList_append, List.mem_append, not_or]
    exact ⟨h.unbroken, h'.unbroken⟩

/-- Plain text only adds to the frame. -/
theorem of_plain (h : Plain text) : Reads text text [] := by
  refine ⟨fun s hs => ?_, h.2⟩
  rw [List.append_nil]
  have hquote := h.1
  generalize text.toList = chars at hquote
  induction chars generalizing s with
  | nil => simp [← hs]
  | cons c chars ih =>
    obtain ⟨hc, hchars⟩ := List.ne_and_not_mem_of_not_mem_cons hquote
    have hstep : s.step c = ⟨.outside, s.frame ++ [c], s.strings⟩ := by
      simp [Scan.step, hs, Ne.symm hc]
    rw [List.foldl_cons, hstep, ih _ rfl hchars]
    simp

/-- Where nothing is read, nothing is found. -/
theorem empty : Reads "" "" [] := of_plain (by decide)

/-- Plain text may come first. -/
theorem plain_append {plain : String} (hplain : Plain plain) (h : Reads text frame strings) :
    Reads (plain ++ text) (plain ++ frame) strings :=
  (of_plain hplain).append h

/-- Plain text may come last. -/
theorem append_plain {plain : String} (h : Reads text frame strings) (hplain : Plain plain) :
    Reads (text ++ plain) (frame ++ plain) strings := by
  simpa only [List.append_nil] using h.append (of_plain hplain)

/-- A plain text may separate other ones. -/
theorem intercalate {α : Type} {pieces : List α} {text frame : α → String}
    {strings : α → List (List Char)} {separator : String} (hseparator : Plain separator)
    (h : ∀ a ∈ pieces, Reads (text a) (frame a) (strings a)) :
    Reads (separator.intercalate (pieces.map text)) (separator.intercalate (pieces.map frame))
      (pieces.flatMap strings) := by
  induction pieces with
  | nil => exact empty
  | cons a pieces ih =>
    obtain ⟨ha, hpieces⟩ := List.forall_mem_cons.1 h
    cases pieces with
    | nil => simpa using ha
    | cons b pieces =>
      simp only [List.map_cons, String.intercalate_cons_cons, List.flatMap_cons] at ih ⊢
      exact (ha.append_plain hseparator).append (ih hpieces)

end Reads

/-! ## Strings -/

/-- A character inside quotation marks. -/
def escapeChar (c : Char) : List Char := if c = '\\' ∨ c = '"' then ['\\', c] else [c]

/-- The two replacements, one after the other, put one backslash in front of each backslash and
each quotation mark. -/
theorem toList_escape (s : String) : (escape s).toList = s.toList.flatMap escapeChar := by
  have hchar (c : Char) : (if c = '\\' then ['\\', '\\'] else [c]).flatMap
      (fun d => if d = '"' then ['\\', '"'] else [d]) = escapeChar c := by
    unfold escapeChar
    by_cases hbackslash : c = '\\'
    · rw [hbackslash]
      decide
    by_cases hquote : c = '"'
    · rw [hquote]
      decide
    · simp [hbackslash, hquote]
  simp only [escape, replaceEach, String.toList_ofList, List.flatMap_assoc]
  exact List.flatMap_congr fun c _ => hchar c

/-- In the other order a quotation mark would close the string that it stands in. -/
example : (scan ("\"" ++ replaceEach '\\' "\\\\" (replaceEach '"' "\\\"" "\"") ++ "\"")).place ≠
    .outside := by
  decide

/-- Text without backslashes and quotation marks stays as it is. -/
theorem escape_eq_self {s : String} (hbackslash : '\\' ∉ s.toList) (hquote : '"' ∉ s.toList) :
    escape s = s := by
  have hchar : ∀ c ∈ s.toList, escapeChar c = [c] := by
    intro c hc
    refine if_neg (not_or.2 ⟨?_, ?_⟩) <;> rintro rfl
    · exact hbackslash hc
    · exact hquote hc
  rw [← String.toList_inj, toList_escape, List.flatMap_congr hchar, List.flatMap_singleton']

/-- What a label has between its quotation marks. -/
def labelBody (lines : List String) : List Char := ("\\n".intercalate (lines.map escape)).toList

/-- A label without lines is empty. -/
@[simp] theorem labelBody_nil : labelBody [] = [] := rfl

/-- A label of one line is the escaped line. -/
@[simp] theorem labelBody_singleton (line : String) :
    labelBody [line] = line.toList.flatMap escapeChar := by
  simp [labelBody, toList_escape]

/-- Lines are separated by a backslash and the letter n. -/
@[simp] theorem labelBody_cons_cons (line line' : String) (lines : List String) :
    labelBody (line :: line' :: lines) =
      line.toList.flatMap escapeChar ++ '\\' :: 'n' :: labelBody (line' :: lines) := by
  simp [labelBody, toList_escape]

/-- A scanner that reads these characters inside a string stays inside. -/
def StaysInside (chars : List Char) : Prop :=
  ∀ body frame strings, chars.foldl Scan.step ⟨.inside body, frame, strings⟩ =
    ⟨.inside (body ++ chars), frame, strings⟩

namespace StaysInside

/-- Where nothing is read, the scanner stays. -/
theorem nil : StaysInside [] := by simp [StaysInside]

/-- Characters are read one after another. -/
theorem append {chars chars' : List Char} (h : StaysInside chars) (h' : StaysInside chars') :
    StaysInside (chars ++ chars') := by
  intro body frame strings
  rw [List.foldl_append, h, h', List.append_assoc]

/-- No character can close a string early. -/
theorem escapeChar (c : Char) : StaysInside (escapeChar c) := by
  intro body frame strings
  unfold Dot.escapeChar
  split
  case isTrue h => simp [Scan.step]
  case isFalse h => simp [Scan.step, not_or.1 h]

/-- What stands for a line break does not close a string. -/
theorem lineBreak : StaysInside ['\\', 'n'] := by
  intro body frame strings
  simp [Scan.step]

/-- No text can close a string early. -/
theorem flatMap_escapeChar (chars : List Char) : StaysInside (chars.flatMap Dot.escapeChar) := by
  induction chars with
  | nil => exact nil
  | cons c chars ih => exact (escapeChar c).append ih

/-- No lines can close a string early. -/
theorem labelBody (lines : List String) : StaysInside (labelBody lines) := by
  induction lines with
  | nil => exact nil
  | cons line lines ih =>
    cases lines with
    | nil =>
      rw [labelBody_singleton]
      exact flatMap_escapeChar line.toList
    | cons line' lines =>
      rw [labelBody_cons_cons]
      exact (flatMap_escapeChar line.toList).append (lineBreak.append ih)

end StaysInside

/-- A label is one string. -/
theorem reads_quoteLines (lines : List String) :
    Reads (quoteLines lines) (quoteLines []) [labelBody lines] := by
  refine ⟨fun s hs => ?_, by decide⟩
  have hchars : (quoteLines lines).toList = '"' :: (labelBody lines ++ ['"']) := by
    simp [quoteLines, labelBody]
  have hopen : s.step '"' = ⟨.inside [], s.frame ++ ['"'], s.strings⟩ := by
    simp [Scan.step, hs]
  rw [hchars, List.foldl_cons, hopen, List.foldl_append, StaysInside.labelBody lines]
  simp [Scan.step, quoteLines]

/-! ## Lines -/

/-- Reads the lines off what a string has between its quotation marks. Two backslashes are a
backslash, a backslash and a quotation mark are a quotation mark, and a backslash and the letter n
are a line break. No other character can follow a backslash. -/
def readLines : List Char → Option (List (List Char))
  | [] => some [[]]
  | c :: rest =>
    if c = '\\' then
      match rest with
      | [] => none
      | d :: rest =>
        if d = '\\' ∨ d = '"' then (readLines rest).map (List.modifyHead (d :: ·))
        else if d = 'n' then (readLines rest).map ([] :: ·)
        else none
    else (readLines rest).map (List.modifyHead (c :: ·))

/-- An escaped character is read as the character. -/
theorem readLines_escapeChar (c : Char) (rest : List Char) :
    readLines (escapeChar c ++ rest) = (readLines rest).map (List.modifyHead (c :: ·)) := by
  unfold escapeChar
  split
  case isTrue h => simp [readLines, h]
  case isFalse h =>
    rw [List.cons_append, List.nil_append, readLines.eq_def]
    simp [not_or.1 h]

/-- An escaped text is read as the text. -/
theorem readLines_flatMap_escapeChar (chars rest : List Char) :
    readLines (chars.flatMap escapeChar ++ rest) =
      (readLines rest).map (List.modifyHead (chars ++ ·)) := by
  induction chars with
  | nil =>
    have hid : List.modifyHead (([] : List Char) ++ ·) = id := List.modifyHead_id
    rw [hid, Option.map_id]
    rfl
  | cons c chars ih =>
    rw [List.flatMap_cons, List.append_assoc, readLines_escapeChar, ih, Option.map_map]
    congr 1
    funext lines
    rw [Function.comp_apply, List.modifyHead_modifyHead]
    rfl

/-- The lines of a label can be read off its string. -/
theorem readLines_labelBody {lines : List String} (hne : lines ≠ []) :
    readLines (labelBody lines) = some (lines.map String.toList) := by
  induction lines with
  | nil => exact absurd rfl hne
  | cons line lines ih =>
    cases lines with
    | nil =>
      rw [labelBody_singleton, ← List.append_nil (line.toList.flatMap escapeChar),
        readLines_flatMap_escapeChar]
      simp [readLines]
    | cons line' lines =>
      rw [labelBody_cons_cons, readLines_flatMap_escapeChar]
      simp [readLines, ih]

/-- A backslash before the letter n is told apart from a line break. -/
example : readLines ['a', '\\', '\\', 'n', '\\', 'n', 'b'] = some [['a', '\\', 'n'], ['b']] := by
  decide

end GoalPlanning.Dot
