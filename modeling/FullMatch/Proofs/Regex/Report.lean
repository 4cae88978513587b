import FullMatch.Proofs.Regex.Refusal
import FullMatch.Proofs.Text.Rows
import FullMatch.Proofs.Token.Scan

/-!
# Reports in rows

A report is shown in five rows: what is wrong, where, the pattern, a caret below the place, and the
details. No report on a pattern of one row has more (`Settings.rows_of_compile`), so that the caret
stands below the character that the report points at.
-/

namespace FullMatch

open Text (IsRow isRow_ofList isRow_char isRow_nat)

section Wording

variable {t : Token} {fault : Grammar.Fault}

theorem Token.isRow_display (single : t.value ≠ '\n') : IsRow t.display := by
  unfold display
  split
  case h_3 | h_4 => exact isRow_ofList rfl
  all_goals exact (isRow_char single).between rfl rfl

theorem Token.ScanFault.isRow_message (fault : Token.ScanFault) : IsRow fault.message := by
  cases fault <;> exact isRow_ofList rfl

theorem Token.ScanFault.isRow_details (fault : Token.ScanFault) : IsRow fault.details := by
  cases fault with
  | danglingEscape => exact isRow_ofList rfl
  | unclosedClass opened => exact (isRow_nat opened).between rfl rfl

theorem Nfa.Fault.isRow_message (fault : Nfa.Fault) : IsRow fault.message := by
  cases fault <;> exact isRow_ofList rfl

theorem Nfa.Fault.isRow_details (fault : Nfa.Fault) : IsRow fault.details := by
  cases fault with
  | tooManyStates n => exact (isRow_nat n).between rfl rfl
  | tooManyTransitions n => exact ((isRow_nat n).between rfl rfl).append (isRow_ofList rfl)
  | exits n => exact (isRow_ofList rfl).append (isRow_nat n)

theorem Dfa.Fault.isRow_message (fault : Dfa.Fault) : IsRow fault.message := by
  cases fault <;> exact isRow_ofList rfl

theorem Dfa.Fault.isRow_details (fault : Dfa.Fault) : IsRow fault.details := by
  cases fault with
  | tooManyStates n | tooManyTransitions n => exact (isRow_nat n).between rfl rfl

theorem InvertedBounds.isRow_message (bounds : InvertedBounds) : IsRow bounds.message :=
  (((isRow_nat bounds.most).between rfl rfl).append (isRow_nat bounds.least)).append
    (isRow_ofList rfl)

theorem Grammar.Fault.isRow_message (single : ∀ t ∈ fault.shown, t.value ≠ '\n') :
    IsRow fault.message := by
  unfold message
  split
  case h_5 t | h_13 t =>
    exact (isRow_ofList rfl).append (Token.isRow_display (single t List.mem_cons_self))
  all_goals exact isRow_ofList rfl

theorem Token.isRow_range {first last : Token} (single : ∀ t ∈ [first, last], t.value ≠ '\n') :
    IsRow s!"Range '{first.value}-{last.value}" := by
  have before := isRow_char (single first List.mem_cons_self)
  have behind := isRow_char (single last (List.mem_cons_of_mem _ List.mem_cons_self))
  exact (before.between rfl rfl).append behind

theorem Grammar.Fault.isRow_details (single : ∀ t ∈ fault.shown, t.value ≠ '\n') :
    IsRow fault.details := by
  cases fault with
  | unopenedGroup t | anchor t | unexpected t | unexpectedMember t =>
    exact (isRow_char (single t List.mem_cons_self)).between rfl rfl
  | unclosedGroup n | unclosedBounds n => exact (isRow_ofList rfl).append (isRow_nat n)
  | tooDeep => exact (isRow_nat maxDepth).between rfl rfl
  | unclosedClass n | emptyClass n => exact (isRow_nat n).between rfl rfl
  | classTooLarge => exact (isRow_nat maxClassSize).between rfl rfl
  | unexpectedEnd | numberTooLarge => exact isRow_ofList rfl
  | numberExpected found =>
    cases found with
    | none => exact isRow_ofList rfl
    | some t => exact (isRow_char (single t List.mem_cons_self)).between rfl rfl
  | boundTooLarge opened bound limit =>
    exact ((isRow_nat bound).between rfl rfl).append (isRow_nat limit.toNat)
  | invertedBounds opened bounds => exact bounds.isRow_message
  | invertedRange first last => exact (Token.isRow_range single).append (isRow_ofList rfl)
  | rangeTooLarge first last =>
    refine .append (.append (.append ?_ (isRow_nat _)) (isRow_ofList rfl)) ?_
    · exact (Token.isRow_range single).append (isRow_ofList rfl)
    · exact (isRow_ofList rfl).append (isRow_nat maxClassSize)

end Wording

namespace Diagnostic

variable {d : Diagnostic}

/-- The row that points at a place in the row above it. -/
def caret (position : Nat) : String :=
  .ofList (List.replicate position ' ' ++ ['^'])

/-- The caret stands below the place. -/
theorem caret_iff {position i : Nat} :
    (caret position).toList[i]? = some '^' ↔ i = position := by
  rw [caret, String.toList_ofList]
  rcases Nat.lt_trichotomy i position with before | rfl | behind
  · have blank : (List.replicate position ' ')[i]? = some ' ' :=
      List.getElem?_replicate_of_lt before
    rw [List.getElem?_append_left (by rwa [List.length_replicate]), blank]
    exact iff_of_false (by decide) (Nat.ne_of_lt before)
  · rw [List.getElem?_append_right (by rw [List.length_replicate]), List.length_replicate,
      Nat.sub_self]
    exact iff_of_true rfl rfl
  · have beyond : (List.replicate position ' ' ++ ['^']).length ≤ i := by
      rw [List.length_append, List.length_replicate]
      exact behind
    rw [List.getElem?_eq_none beyond]
    exact iff_of_false nofun (Nat.ne_of_gt behind)

/-- The rows of a report above its details. -/
def heading (d : Diagnostic) : List String :=
  [d.message, s!"At position {d.position} in pattern:", d.pattern, caret d.position]

/-- The rows of a report. -/
def shown (d : Diagnostic) : List String :=
  d.heading ++ [s!"Details: {d.details}"]

/-- A report is shown as its heading and the details. -/
theorem render_eq (d : Diagnostic) :
    d.render = Text.ofRows d.heading ++ s!"Details: {d.details}" := by
  have opening : "\nAt position " = "\n" ++ "At position " := rfl
  have closing : " in pattern:\n" = " in pattern:" ++ "\n" := rfl
  have under : "^\n" = "^" ++ "\n" := rfl
  rw [render, opening, closing, under, heading, caret, Text.ofRows, String.ofList_append]
  simp only [List.map_cons, List.map_nil, String.join_cons, String.join_nil, String.append_assoc,
    String.append_empty]
  rfl

/-- A report with a line feed behind it is its rows, one behind the other. -/
theorem render_append_newline (d : Diagnostic) : d.render ++ "\n" = Text.ofRows d.shown := by
  rw [render_eq, shown, Text.ofRows_append, Text.ofRows_singleton, String.append_assoc]

/-- The rows of a report each of whose parts is one row. -/
theorem rows_render (message : IsRow d.message) (pattern : IsRow d.pattern)
    (details : IsRow d.details) : Text.rows d.render = d.shown := by
  have place : IsRow s!"At position {d.position} in pattern:" :=
    (isRow_nat d.position).between rfl rfl
  have marked : IsRow (caret d.position) := by
    rw [caret, IsRow, String.toList_ofList]
    simp
  have last : IsRow s!"Details: {d.details}" := (isRow_ofList rfl).append details
  have above : ∀ row ∈ d.heading, IsRow row := by
    simp only [heading, List.forall_mem_cons, List.not_mem_nil, false_imp_iff, implies_true,
      and_true]
    exact ⟨message, place, pattern, marked⟩
  rw [render_eq, Text.rows_ofRows above, Text.rows_of_isRow last, shown]

end Diagnostic

/-- A report names the stage that its fault comes from. -/
theorem Fault.exists_message_report (fault : Fault) (pattern : String) :
    ∃ message : String, (fault.report pattern).message =
      s!"Regex {(fault.report pattern).stage.name} error: {message}" := by
  cases fault <;> exact ⟨_, rfl⟩

namespace Settings

variable {settings : Settings} {pattern : String} {fault : Fault}

/-- A report on a pattern of one row says in one row what is wrong, and in one row why. -/
theorem isRow_of_compile (failed : settings.compile pattern = .error fault)
    (single : IsRow pattern) :
    IsRow (fault.report pattern).message ∧ IsRow (fault.report pattern).details := by
  have named {stage message : String} (row : IsRow stage) (row' : IsRow message) :
      IsRow s!"Regex {stage} error: {message}" := (row.between rfl rfl).append row'
  rcases compile_eq_error failed with ⟨f, -, rfl⟩ | ⟨tokens, f, cut, unread, rfl⟩ |
    ⟨e, -, unbuilt⟩
  · exact ⟨named (isRow_ofList rfl) f.isRow_message, f.isRow_details⟩
  · have shown (t) (member : t ∈ f.shown) : t.value ≠ '\n' := by
      have placed := (Grammar.placed_of_read_eq_error unread).shown t member
      exact fun same => single (same ▸ Token.value_mem_of_scan cut t placed)
    exact ⟨named (isRow_ofList rfl) (Grammar.Fault.isRow_message shown),
      Grammar.Fault.isRow_details shown⟩
  · rcases exceeded_of_automaton_eq_error unbuilt with ⟨⟨f, rfl⟩, -⟩ | ⟨⟨f, rfl⟩, -⟩
    · exact ⟨named (isRow_ofList rfl) f.isRow_message, f.isRow_details⟩
    · exact ⟨named (isRow_ofList rfl) f.isRow_message, f.isRow_details⟩

/-- The report on a pattern of one row that does not compile is shown in five rows. The first names
the stage that refused it, the third is the pattern, and the caret in the fourth stands below the
place that the report points at. -/
theorem rows_of_compile (failed : settings.compile pattern = .error fault)
    (single : IsRow pattern) :
    let d := fault.report pattern
    ∃ message : String, Text.rows d.render = [s!"Regex {d.stage.name} error: {message}",
      s!"At position {d.position} in pattern:", pattern, Diagnostic.caret d.position,
      s!"Details: {d.details}"] := by
  obtain ⟨message, details⟩ := isRow_of_compile failed single
  have pattern_eq := (refusal_of_compile failed).pattern_eq
  have shown := Diagnostic.rows_render message (pattern_eq.symm ▸ single) details
  obtain ⟨said, message_eq⟩ := fault.exists_message_report pattern
  rw [Diagnostic.shown, Diagnostic.heading, pattern_eq, message_eq] at shown
  exact ⟨said, shown⟩

end Settings

end FullMatch
