import FullMatch.Proofs.Text.Rows
import FullMatch.Proofs.Token.Scan
import FullMatch.Token.Explain

/-!
# Explanations in rows

The patterns that have an explanation are those that can be cut into tokens
(`Token.explain_eq_ok`). It names the pattern and then has one row for each token, in their order
(`Token.rows_of_explain`).
-/

namespace FullMatch.Token

open Text (IsRow isRow_ofList isRow_char)

variable {pattern text : String} {tokens : List Token} {t : Token}

/-- The rows of an explanation: a header, an empty row, and one row for each token. -/
def explanationRows (pattern : String) (tokens : List Token) : List String :=
  s!"Pattern explanation for: {pattern}" :: "" :: tokens.map describe

/-- An explanation is its rows, one behind the other. -/
theorem explanation_eq (pattern : String) (tokens : List Token) :
    explanation pattern tokens = Text.ofRows (explanationRows pattern tokens) := by
  have row : (fun (text : String) (t : Token) => text ++ t.describe ++ "\n") =
      fun text t => text ++ (t.describe ++ "\n") :=
    funext fun text => funext fun t => String.append_assoc
  rw [explanation, row, Text.foldl_append_eq_join, explanationRows, Text.ofRows, List.map_cons,
    List.map_cons, List.map_map, String.join_cons, String.join_cons, ← String.append_assoc]
  congr 1
  simp only [String.append_assoc]
  rfl

/-- A pattern is explained if it can be cut into tokens. -/
theorem explain_eq_ok :
    explain pattern = .ok text ↔ ∃ tokens, scan pattern = .ok tokens ∧
      text = Text.ofRows (explanationRows pattern tokens) := by
  rw [explain]
  cases scan pattern with
  | error fault => simp [Except.map]
  | ok tokens => simp [Except.map, explanation_eq, eq_comm]

/-- What is said about a token stands in one row. -/
theorem isRow_describe (single : t.value ≠ '\n') : IsRow t.describe := by
  unfold describe
  refine .append (isRow_ofList rfl) ?_
  split
  case h_1 | h_2 | h_19 =>
    exact .append (.append (isRow_ofList rfl) (isRow_char single)) (isRow_ofList rfl)
  all_goals exact isRow_ofList rfl

/-- The explanation of a pattern of one row has its rows, and nothing behind the last line feed. -/
theorem rows_of_explain (explained : explain pattern = .ok text) (single : IsRow pattern) :
    ∃ tokens, scan pattern = .ok tokens ∧
      Text.rows text = explanationRows pattern tokens ++ [""] := by
  obtain ⟨tokens, cut, rfl⟩ := explain_eq_ok.mp explained
  have rows : ∀ row ∈ explanationRows pattern tokens, IsRow row := by
    refine List.forall_mem_cons.mpr ⟨?_, List.forall_mem_cons.mpr ⟨isRow_ofList rfl, ?_⟩⟩
    · exact .append (isRow_ofList rfl) single
    · intro row said
      obtain ⟨t, member, rfl⟩ := List.mem_map.mp said
      refine isRow_describe fun same => single ?_
      exact same ▸ value_mem_of_scan cut t member
  have whole := Text.rows_ofRows rows ""
  rw [String.append_empty, Text.rows_of_isRow (isRow_ofList rfl)] at whole
  exact ⟨tokens, cut, whole⟩

end FullMatch.Token
