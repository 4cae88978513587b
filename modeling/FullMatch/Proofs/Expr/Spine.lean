import FullMatch.Expr.Printer
import FullMatch.Proofs.Nfa.Arena

/-!
# Walking spines and plain recursion

What is done along a spine, in one walk over the list of its parts, is what recursion on the binary
tree does: for taking a spine apart and putting it together again, for the text of an expression
(`Expr.renderSpines_eq`), and for building its automaton (`Nfa.Build.fragment_concat`).
-/

namespace FullMatch

namespace Expr

variable {e : Expr}

/-- The text of an expression as an operand of a concatenation. -/
def renderOperand (e : Expr) : String :=
  if e.groupedInConcat then "(" ++ e.render ++ ")" else e.render

/-- What is known of a part when its text is put into a larger one. -/
structure Piece where
  text : String
  /-- Whether it is an alternation. -/
  alternates : Bool
  /-- Whether it is a single atom. -/
  single : Bool

namespace Piece

/-- The text of a piece as an operand of a concatenation. -/
def operand (p : Piece) : String :=
  if p.alternates then "(" ++ p.text ++ ")" else p.text

/-- The text of a piece that is repeated. -/
def base (p : Piece) : String :=
  if p.single then p.text else "(" ++ p.text ++ ")"

/-- The pieces of each kind of expression: operands stand one behind the other, branches have a bar
between them. -/
def algebra : Expr.Algebra Piece where
  empty := ⟨"", false, false⟩
  atom a := ⟨.ofList (a.write []), false, true⟩
  sequence operands := ⟨.join (operands.map operand), false, false⟩
  choice branches := ⟨"|".intercalate (branches.map text), true, false⟩
  repeated op p := ⟨p.base ++ .singleton op.toChar, false, false⟩
  counted b p := ⟨p.base ++ .ofList (b.write []), false, false⟩

end Piece

/-- The text of an expression, written along its spines. -/
def renderSpines (e : Expr) : String :=
  (e.fold Piece.algebra).text

/-- The piece of an expression by plain recursion. -/
def piece (e : Expr) : Piece :=
  ⟨e.render, e.groupedInConcat, !e.groupedInRepeat⟩

/-- The text of an operand of a concatenation, as characters. -/
theorem renderOperand_eq (e : Expr) : e.renderOperand = .ofList e.operandText := by
  apply String.toList_inj.mp
  rw [renderOperand]
  split
  · next grouped => simp [operandText_of_grouped grouped, render]
  · next bare => simp [operandText_of_single (eq_false_of_ne_true bare), render]

theorem renderOperand_of_single (single : e.groupedInConcat = false) :
    e.renderOperand = e.render := by
  rw [renderOperand_eq, operandText_of_single single, render]

theorem base_piece (e : Expr) : e.piece.base = .ofList e.baseText := by
  apply String.toList_inj.mp
  rw [Piece.base, piece]
  cases grouped : e.groupedInRepeat with
  | false => simp [baseText_of_bare grouped, render]
  | true => simp [baseText_of_grouped grouped, render]

theorem render_concat (l r : Expr) :
    (Expr.concat l r).render = l.renderOperand ++ r.renderOperand := by
  rw [renderOperand_eq, renderOperand_eq, ← String.ofList_append, ← write_concat, render]

theorem render_alternate (l r : Expr) :
    (Expr.alternate l r).render = l.render ++ "|" ++ r.render := by
  apply String.toList_inj.mp
  simp [render, write_alternate]

theorem render_repeated (op : RepeatOp) (e : Expr) :
    (Expr.repeated op e).render = e.piece.base ++ .singleton op.toChar := by
  rw [base_piece, String.singleton_eq_ofList, ← String.ofList_append, ← write_repeated, render]

theorem render_counted (e : Expr) (b : Bounds) :
    (Expr.counted e b).render = e.piece.base ++ .ofList (b.write []) := by
  rw [base_piece, ← String.ofList_append, ← write_counted, render]

theorem join_singleton (s : String) : String.join [s] = s := by
  simp [String.join]

/-- The piece of an expression, and what its two spines are joined to. -/
structure Joins (e : Expr) : Prop where
  whole : e.fold Piece.algebra = e.piece
  operands : .join ((e.concatParts.map (fold Piece.algebra)).map Piece.operand) = e.renderOperand
  branches : "|".intercalate ((e.alternatives.map (fold Piece.algebra)).map Piece.text) = e.render

/-- An expression that has no spine is its own single part. -/
theorem joins_of_single (whole : e.fold Piece.algebra = e.piece) (operand : e.concatParts = [e])
    (branch : e.alternatives = [e]) : e.Joins where
  whole := whole
  operands := by
    rw [operand, List.map_singleton, List.map_singleton, whole, join_singleton]
    rfl
  branches := by
    rw [branch, List.map_singleton, List.map_singleton, whole, String.intercalate_singleton]
    rfl

theorem joins_concat {l r : Expr} (left : l.Joins) (right : r.Joins) : (Expr.concat l r).Joins := by
  have operands : .join (((Expr.concat l r).concatParts.map (fold Piece.algebra)).map
      Piece.operand) = l.renderOperand ++ r.renderOperand := by
    rw [concatParts_concat, List.map_append, List.map_append, String.join_append, left.operands,
      List.map_singleton, List.map_singleton, right.whole, join_singleton]
    rfl
  have whole : fold Piece.algebra (.concat l r) = (Expr.concat l r).piece := by
    rw [fold_concat, piece, render_concat, ← operands]
    rfl
  refine ⟨whole, ?_, ?_⟩
  · rw [operands, ← render_concat, renderOperand_of_single rfl]
  · change "|".intercalate [(fold Piece.algebra (.concat l r)).text] = _
    rw [whole, String.intercalate_singleton]
    rfl

theorem joins_alternate {l r : Expr} (left : l.Joins) (right : r.Joins) :
    (Expr.alternate l r).Joins := by
  have branches : "|".intercalate (((Expr.alternate l r).alternatives.map
      (fold Piece.algebra)).map Piece.text) = l.render ++ "|" ++ r.render := by
    rw [alternatives_alternate, List.map_append, List.map_append,
      String.intercalate_append_of_ne_nil (by simp [alternatives_ne_nil]) (by simp),
      left.branches, List.map_singleton, List.map_singleton, right.whole,
      String.intercalate_singleton]
    rfl
  have whole : fold Piece.algebra (.alternate l r) = (Expr.alternate l r).piece := by
    rw [fold_alternate, piece, render_alternate, ← branches]
    rfl
  refine ⟨whole, ?_, ?_⟩
  · change String.join [(fold Piece.algebra (.alternate l r)).operand] = _
    rw [whole, join_singleton]
    rfl
  · rw [branches, render_alternate]

/-- Along either spine the texts of the parts are put together to what plain recursion writes. -/
theorem joins (e : Expr) : e.Joins := by
  induction e with
  | empty => exact joins_of_single rfl rfl rfl
  | atom a => exact joins_of_single rfl rfl rfl
  | concat l r left right => exact joins_concat left right
  | alternate l r left right => exact joins_alternate left right
  | repeated op e operand =>
    refine joins_of_single ?_ rfl rfl
    rw [fold_repeated, operand.whole]
    exact congrArg (Piece.mk · false false) (render_repeated op e).symm
  | counted e b operand =>
    refine joins_of_single ?_ rfl rfl
    rw [fold_counted, operand.whole]
    exact congrArg (Piece.mk · false false) (render_counted e b).symm

/-- The text written along the spines is that of plain recursion. -/
theorem renderSpines_eq (e : Expr) : e.renderSpines = e.render := by
  rw [renderSpines, e.joins.whole, piece]

/-- An operand is put in parentheses if it is an alternation, and only then. -/
theorem renderOperand_cases (e : Expr) :
    (∃ l r, e = .alternate l r) ∧ e.renderOperand = "(" ++ e.render ++ ")" ∨
      (∀ l r, e ≠ .alternate l r) ∧ e.renderOperand = e.render := by
  cases e with
  | alternate l r => exact .inl ⟨⟨l, r, rfl⟩, rfl⟩
  | _ => exact .inr ⟨nofun, rfl⟩

end Expr

open Nfa.Build in
/-- Walking along a spine is plain recursion on the tree: for the parts of an expression, for its
text, and for building its automaton in any arena, within any limits. -/
theorem spine_walks_agree :
    (∀ e : Expr,
      (∃ first rest, e.concatParts = first :: rest ∧ (∀ l r, first ≠ .concat l r) ∧
        rest.foldl .concat first = e) ∧
      ∃ first rest, e.alternatives = first :: rest ∧ (∀ l r, first ≠ .alternate l r) ∧
        rest.foldl .alternate first = e) ∧
    (∀ e : Expr, e.renderSpines = e.render ∧
      ((∃ l r, e = .alternate l r) ∧ e.renderOperand = "(" ++ e.render ++ ")" ∨
        (∀ l r, e ≠ .alternate l r) ∧ e.renderOperand = e.render)) ∧
    (∀ l r : Expr,
      (Expr.concat l r).renderSpines = l.renderOperand ++ r.renderOperand ∧
      (Expr.alternate l r).renderSpines = l.renderSpines ++ "|" ++ r.renderSpines) ∧
    ∀ l r : Expr,
      fragment (.concat l r) = Nfa.Build.sequence ((Expr.concat l r).concatParts.map fragment) ∧
      ∀ arena : Nfa.Arena,
        (Nfa.Build.sequence ((Expr.concat l r).concatParts.map fragment)).run arena =
          StateT.run (do
            let left ← fragment l
            let right ← fragment r
            link left.exit right.entry
            demote left.exit
            return ⟨left.entry, right.exit, left.lengths.append right.lengths⟩) arena := by
  refine ⟨fun e => ⟨e.foldl_concatParts, e.foldl_alternatives⟩,
    fun e => ⟨e.renderSpines_eq, e.renderOperand_cases⟩, fun l r => ⟨?_, ?_⟩, fun l r => ?_⟩
  · rw [Expr.renderSpines_eq, Expr.render_concat]
  · rw [Expr.renderSpines_eq, Expr.renderSpines_eq, Expr.renderSpines_eq, Expr.render_alternate]
  · have walked : fragment (.concat l r) =
        Nfa.Build.sequence ((Expr.concat l r).concatParts.map fragment) :=
      Expr.fold_concat algebra l r
    refine ⟨walked, fun arena => ?_⟩
    rw [← walked, fragment_concat]
    rfl

end FullMatch
