/-!
# Rows of text

Text that is shown is cut into rows at its line feeds. Rows that are written one behind the other,
each with a line feed behind it, are the rows of the whole (`Text.rows_ofRows`).
-/

namespace FullMatch.Text

/-- The rows of a text. -/
def rows (text : String) : List String :=
  (text.toList.splitOn '\n').map .ofList

/-- A text of one row. -/
def IsRow (text : String) : Prop :=
  '\n' ∉ text.toList

/-- Rows one behind the other, each with a line feed behind it. -/
def ofRows (rows : List String) : String :=
  .join (rows.map (· ++ "\n"))

variable {s t row : String} {above : List String}

theorem ofRows_append (above below : List String) :
    ofRows (above ++ below) = ofRows above ++ ofRows below := by
  rw [ofRows, List.map_append, String.join_append, ofRows, ofRows]

theorem ofRows_singleton (row : String) : ofRows [row] = row ++ "\n" := by
  simp [ofRows]

theorem isRow_ofList {chars : List Char} (without : chars.contains '\n' = false) :
    IsRow (.ofList chars) := by
  rw [IsRow, String.toList_ofList]
  simpa using without

theorem IsRow.append (first : IsRow s) (second : IsRow t) : IsRow (s ++ t) := by
  rw [IsRow, String.toList_append, List.mem_append]
  exact not_or.mpr ⟨first, second⟩

/-- One row between pieces of a row is one row. -/
theorem IsRow.between {front back : List Char} (middle : IsRow s)
    (without : front.contains '\n' = false) (without' : back.contains '\n' = false) :
    IsRow (.ofList front ++ s ++ .ofList back) :=
  ((isRow_ofList without).append middle).append (isRow_ofList without')

theorem isRow_char {c : Char} (other : c ≠ '\n') : IsRow (toString c) := by
  simpa [IsRow, toString] using other.symm

theorem isRow_nat (n : Nat) : IsRow (toString n) := by
  intro member
  have written : '\n' ∈ Nat.toDigits 10 n := by simpa [toString] using member
  have digit : '\n'.isDigit = true := Nat.isDigit_of_mem_toDigits (by decide) (by decide) written
  exact absurd digit (by decide)

/-- Text is written behind what stands there already. -/
theorem foldl_append_eq_join {α : Type} (write : α → String) (out : String) (parts : List α) :
    parts.foldl (fun out part => out ++ write part) out = out ++ .join (parts.map write) := by
  induction parts generalizing out with
  | nil => exact String.append_empty.symm
  | cons part parts ih =>
    rw [List.foldl_cons, ih, List.map_cons, String.join_cons, String.append_assoc]

/-- A text of one row is its own row. -/
theorem rows_of_isRow (single : IsRow row) : rows row = [row] := by
  rw [rows, List.splitOn_eq_singleton single, List.map_singleton, String.ofList_toList]

/-- A row ends at a line feed. -/
theorem rows_append (single : IsRow row) (rest : String) :
    rows (row ++ "\n" ++ rest) = row :: rows rest := by
  have feed : "\n".toList = ['\n'] := String.toList_ofList
  rw [rows, String.toList_append, String.toList_append, feed, List.append_assoc,
    List.singleton_append, List.splitOn_append_cons_self_of_not_mem single, List.map_cons,
    String.ofList_toList, rows]

/-- Rows that are written with more text behind them come in front of its rows. -/
theorem rows_ofRows (single : ∀ row ∈ above, IsRow row) (rest : String) :
    rows (ofRows above ++ rest) = above ++ rows rest := by
  induction above with
  | nil => rw [ofRows, List.map_nil, String.join_nil, String.empty_append, List.nil_append]
  | cons row above ih =>
    obtain ⟨first, single⟩ := List.forall_mem_cons.mp single
    rw [ofRows, List.map_cons, String.join_cons, String.append_assoc, rows_append first, ← ofRows,
      ih single, List.cons_append]

end FullMatch.Text
