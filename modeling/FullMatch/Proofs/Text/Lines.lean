import FullMatch.Text.Lines
import Mathlib.Data.List.Forall2

/-!
# Streams and their lines

The lines of a byte stream said from the stream alone: written one behind the other, each with what
ends it, they are the stream (`Text.Parts`), and the text of a line is the one whose encoding its
bytes are (`Text.Decodes`). Reading a stream finds these lines and these texts (`Text.reads_iff`).
-/

namespace FullMatch.Text

/-- The lines of a stream without what ends them: a line feed, alone or behind a carriage return,
or the end of the stream. -/
inductive Parts : List UInt8 → List (List UInt8) → Prop where
  | nil : Parts [] []
  | last {line} (nonempty : line ≠ []) (single : lineFeed ∉ line) : Parts line [line]
  | fed {line rest contents} (single : lineFeed ∉ line)
      (bare : line.getLast? ≠ some carriageReturn) (parts : Parts rest contents) :
      Parts (line ++ lineFeed :: rest) (line :: contents)
  | returned {line rest contents} (single : lineFeed ∉ line) (parts : Parts rest contents) :
      Parts (line ++ carriageReturn :: lineFeed :: rest) (line :: contents)

/-- The text that bytes encode in UTF-8, or none if they encode no text. -/
inductive Decodes (bytes : List UInt8) : Option String → Prop where
  | text {s : String} (encoded : s.toUTF8.data.toList = bytes) : Decodes bytes (some s)
  | broken (foreign : ∀ s : String, s.toUTF8.data.toList ≠ bytes) : Decodes bytes none

/-- The lines of a stream, each as the text that it encodes, if it does. -/
def Reads (bytes : List UInt8) (input : List (Option String)) : Prop :=
  ∃ contents, Parts bytes contents ∧ List.Forall₂ Decodes contents input

section Lines

variable {bytes line : List UInt8} {contents : List (List UInt8)}

/-- Lines that were found come in front of those found later. -/
theorem linesFrom_eq (done : List Line) (read bytes : List UInt8) :
    linesFrom done read bytes = done.reverse ++ linesFrom [] read bytes := by
  induction bytes generalizing done read with
  | nil =>
    simp only [linesFrom]
    split <;> simp
  | cons b bytes ih =>
    simp only [linesFrom]
    split
    · rw [ih, ih [_]]
      simp
    · exact ih done (b :: read)

/-- Bytes that are no line feeds join the line that is being read. -/
theorem linesFrom_append (single : lineFeed ∉ line) (done : List Line) (read rest : List UInt8) :
    linesFrom done read (line ++ rest) = linesFrom done (line.reverse ++ read) rest := by
  induction line generalizing read with
  | nil => rfl
  | cons b line ih =>
    obtain ⟨other, single⟩ := not_or.mp (mt List.mem_cons.mpr single)
    rw [List.cons_append, linesFrom, if_neg (Ne.symm other), ih single]
    simp

/-- A line feed ends a line. -/
theorem lines_fed (single : lineFeed ∉ line) (rest : List UInt8) :
    lines (line ++ lineFeed :: rest) = ⟨line, true⟩ :: lines rest := by
  rw [lines, linesFrom_append single, linesFrom, if_pos rfl, linesFrom_eq]
  simp [lines]

/-- What stands behind the last line feed is a line as well, if it is anything. -/
theorem lines_last (nonempty : line ≠ []) (single : lineFeed ∉ line) :
    lines line = [⟨line, false⟩] := by
  have read := linesFrom_append single [] [] []
  rw [List.append_nil, List.append_nil] at read
  rw [lines, read]
  simp [linesFrom, nonempty]

/-- A stream that is written line by line has these lines. -/
theorem lines_written (single : ∀ line ∈ contents, lineFeed ∉ line) :
    lines (contents.flatMap (· ++ [lineFeed])) = contents.map (⟨·, true⟩) := by
  induction contents with
  | nil => rfl
  | cons line contents ih =>
    obtain ⟨first, single⟩ := List.forall_mem_cons.mp single
    simp [lines_fed first, ih single]

theorem content_fed (bare : line.getLast? ≠ some carriageReturn) :
    Line.content ⟨line, true⟩ = line := by
  simp [Line.content, bare]

/-- A line feed takes one carriage return along. -/
theorem content_returned (line : List UInt8) :
    Line.content ⟨line ++ [carriageReturn], true⟩ = line := by
  simp [Line.content]

theorem Parts.content_lines (parts : Parts bytes contents) :
    (lines bytes).map Line.content = contents := by
  induction parts with
  | nil => rfl
  | last nonempty single =>
    rw [lines_last nonempty single]
    rfl
  | fed single bare parts ih => rw [lines_fed single, List.map_cons, content_fed bare, ih]
  | @returned line rest contents single parts ih =>
    have single' : lineFeed ∉ line ++ [carriageReturn] := by
      have other : lineFeed ≠ carriageReturn := by decide
      simp [single, other]
    rw [← List.singleton_append, ← List.append_assoc, lines_fed single', List.map_cons,
      content_returned, ih]

/-- Every stream has lines. -/
theorem exists_parts (bytes : List UInt8) : ∃ contents, Parts bytes contents := by
  -- By induction on the number of bytes: the first line feed, if there is one, ends a line, and
  -- fewer bytes stand behind it.
  induction length : bytes.length using Nat.strongRecOn generalizing bytes with
  | _ n ih =>
    by_cases ended : lineFeed ∈ bytes
    · obtain ⟨line, rest, rfl, single⟩ := List.eq_append_cons_of_mem ended
      have shorter : rest.length < n := by
        rw [List.length_append, List.length_cons] at length
        omega
      obtain ⟨contents, parts⟩ := ih _ shorter rest rfl
      by_cases bare : line.getLast? = some carriageReturn
      · obtain ⟨line, rfl⟩ := List.getLast?_eq_some_iff.mp bare
        rw [List.append_assoc]
        exact ⟨_, .returned (fun member => single (List.mem_append_left _ member)) parts⟩
      · exact ⟨_, .fed single bare parts⟩
    · cases bytes with
      | nil => exact ⟨_, .nil⟩
      | cons b bytes => exact ⟨_, .last (List.cons_ne_nil b bytes) ended⟩

/-- Reading finds the lines of a stream. -/
theorem parts_iff : Parts bytes contents ↔ (lines bytes).map Line.content = contents := by
  refine ⟨Parts.content_lines, ?_⟩
  rintro rfl
  obtain ⟨contents, parts⟩ := exists_parts bytes
  rwa [parts.content_lines]

end Lines

section Texts

variable {text : Option String} {s : String}

theorem bytes_inj {b c : ByteArray} : b.data.toList = c.data.toList ↔ b = c :=
  ⟨fun same => ByteArray.ext (Array.toList_inj.mp same), fun same => same ▸ rfl⟩

/-- A line is text just when its bytes encode that text. -/
theorem text?_eq_some {line : Line} :
    line.text? = some s ↔ s.toUTF8.data.toList = line.content := by
  have packed : line.content = (ByteArray.mk line.content.toArray).data.toList := rfl
  rw [packed, bytes_inj, Line.text?, String.fromUTF8?]
  split
  · next valid =>
    rw [Option.some.injEq, ← String.toByteArray_inj, eq_comm]
    rfl
  · next invalid =>
    refine iff_of_false nofun fun encoded => invalid ?_
    rw [← encoded]
    exact s.isValidUTF8

/-- Reading finds the text of a line. -/
theorem decodes_iff {line : Line} : Decodes line.content text ↔ line.text? = text := by
  constructor
  · intro decodes
    cases decodes with
    | text encoded => exact text?_eq_some.mpr encoded
    | broken foreign =>
      rw [Option.eq_none_iff_forall_ne_some]
      exact fun s found => foreign s (text?_eq_some.mp found)
  · rintro rfl
    cases found : line.text? with
    | some s => exact .text (text?_eq_some.mp found)
    | none =>
      refine .broken fun s encoded => ?_
      rw [text?_eq_some.mpr encoded] at found
      cases found

end Texts

/-- The lines of a stream are those that are read, with the texts that are read. -/
theorem reads_iff {bytes : List UInt8} {input : List (Option String)} :
    Reads bytes input ↔ (lines bytes).map Line.text? = input := by
  simp only [Reads, parts_iff, exists_eq_left', List.forall₂_map_left_iff, decodes_iff]
  rw [← List.forall₂_eq_eq_eq, List.forall₂_map_left_iff]

end FullMatch.Text
