import FullMatch.Expr.Normal
import FullMatch.Proofs.Expr.Spelling
import FullMatch.Proofs.Grammar.Completeness
import FullMatch.Regex

/-!
# Printed expressions

The text of an expression spells its operands, its branches, or a base, according to where it
stands (`Printed`). What is read from it is put together from these lists, so it is the normal form
of the expression (`parsePattern_render`).
-/

namespace FullMatch

open Token (nesting)
open Grammar (Admits Derives maxDepth)

variable {limit : UInt32} {ts us : List Token} {e l r : Expr} {es fs : List Expr}

section Lists

/-- Factors one after another. -/
inductive Factors (limit : UInt32) : List Token → List Expr → Prop where
  | nil : Factors limit [] []
  | cons {ts us : List Token} {e : Expr} {es : List Expr} (factor : Derives limit .factor ts e)
      (rest : Factors limit us es) : Factors limit (ts ++ us) (e :: es)

namespace Factors

theorem single (factor : Derives limit .factor ts e) : Factors limit ts [e] := by
  have factors : Factors limit (ts ++ []) [e] := .cons factor .nil
  rwa [List.append_nil] at factors

theorem append (first : Factors limit ts es) (second : Factors limit us fs) :
    Factors limit (ts ++ us) (es ++ fs) := by
  induction first with
  | nil => exact second
  | cons factor _ ih =>
    rw [List.append_assoc]
    exact .cons factor ih

theorem derives_foldl (first : Derives limit .factors ts e) (rest : Factors limit us es) :
    Derives limit .factors (ts ++ us) (es.foldl .concat e) := by
  induction rest generalizing ts e with
  | nil => rwa [List.append_nil]
  | cons factor _ ih =>
    rw [← List.append_assoc]
    exact ih (.concat first factor)

/-- Factors one after another are read as their concatenation. -/
theorem derives (factors : Factors limit ts es) : Derives limit .term ts (.sequence es) := by
  cases factors with
  | nil => exact .empty
  | cons factor rest => exact .nonempty (derives_foldl (.single factor) rest)

end Factors

/-- Terms with bars between them. -/
inductive Branches (limit : UInt32) : List Token → List Expr → Prop where
  | single {ts : List Token} {e : Expr} (term : Derives limit .term ts e) : Branches limit ts [e]
  | cons {ts us : List Token} {bar : Token} {e : Expr} {es : List Expr}
      (term : Derives limit .term ts e) (separates : bar.kind = .pipe)
      (rest : Branches limit us es) : Branches limit (ts ++ bar :: us) (e :: es)

namespace Branches

theorem append {bar : Token} (first : Branches limit ts es) (separates : bar.kind = .pipe)
    (second : Branches limit us fs) : Branches limit (ts ++ bar :: us) (es ++ fs) := by
  induction first with
  | single term => exact .cons term separates second
  | cons term separates' _ ih =>
    rw [List.append_assoc, List.cons_append]
    exact .cons term separates' ih

theorem derives_foldl {bar : Token} (first : Derives limit .expression ts e)
    (separates : bar.kind = .pipe) (rest : Branches limit us es) :
    Derives limit .expression (ts ++ bar :: us) (es.foldl .alternate e) := by
  induction rest generalizing ts bar e with
  | single term => exact .alternate first separates term
  | cons term separates' _ ih =>
    rw [← List.cons_append, ← List.append_assoc]
    exact ih (.alternate first separates term) separates'

/-- Terms with bars between them are read as their alternation. -/
theorem derives (branches : Branches limit ts es) :
    Derives limit .expression ts (.alternation es) := by
  cases branches with
  | single term => exact .branch term
  | cons term separates rest => exact derives_foldl (.branch term) separates rest

end Branches

end Lists

/-- How deep the parentheses are nested in the text of an expression. -/
def Expr.nesting : Expr → Nat
  | .empty | .atom _ => 0
  | .concat l r =>
    max (l.nesting + l.groupedInConcat.toNat) (r.nesting + r.groupedInConcat.toNat)
  | .alternate l r => max l.nesting r.nesting
  | .repeated _ e | .counted e _ => e.nesting + e.groupedInRepeat.toNat

/-- The text of an expression spells its normal form, as a whole and where it is an operand. -/
structure Printed (limit : UInt32) (e : Expr) : Prop where
  whole : Spells (e.write []) e.nesting fun ts => Branches limit ts (e.branches.map Expr.normal)
  operand : Spells e.operandText (e.nesting + e.groupedInConcat.toNat)
    fun ts => Factors limit ts (e.factors.map Expr.normal)
  base : Spells e.baseText (e.nesting + e.groupedInRepeat.toNat)
    fun ts => Derives limit .base ts e.normal

namespace Printed

theorem branches_eq_singleton (single : e.groupedInConcat = false) : e.branches = [e] := by
  cases e with
  | alternate l r => cases single
  | _ => rfl

/-- In parentheses, the whole is a base. -/
theorem group_of_whole
    (whole : Spells (e.write []) e.nesting
      fun ts => Branches limit ts (e.branches.map Expr.normal)) :
    Spells ('(' :: (e.write [] ++ [')'])) (e.nesting + 1)
      fun ts => Derives limit .base ts e.normal := by
  rw [Expr.normal_eq_alternation]
  exact (whole.mono fun ts branches => branches.derives).group

/-- An expression other than an alternation and an atom is known by its operands. -/
theorem of_operand (single : e.groupedInConcat = false) (grouped : e.groupedInRepeat = true)
    (operand : Spells (e.write []) e.nesting
      fun ts => Factors limit ts (e.factors.map Expr.normal)) :
    Printed limit e := by
  have whole : Spells (e.write []) e.nesting
      fun ts => Branches limit ts (e.branches.map Expr.normal) := by
    refine operand.mono fun ts factors => ?_
    rw [branches_eq_singleton single, List.map_singleton, Expr.normal_eq_sequence]
    exact .single factors.derives
  refine ⟨whole, ?_, ?_⟩
  · rw [Expr.operandText_of_single single, single]
    exact operand
  · rw [Expr.baseText_of_grouped grouped, grouped]
    exact group_of_whole whole

theorem concat (left : Printed limit l) (right : Printed limit r) :
    Printed limit (.concat l r) := by
  refine of_operand rfl rfl ?_
  rw [Expr.write_concat, Expr.factors_concat, List.map_append]
  exact left.operand.append right.operand fun _ _ first second => first.append second

theorem alternate (left : Printed limit l) (right : Printed limit r) :
    Printed limit (.alternate l r) := by
  have whole : Spells ((Expr.alternate l r).write []) (Expr.alternate l r).nesting
      fun ts => Branches limit ts ((Expr.alternate l r).branches.map Expr.normal) := by
    rw [Expr.write_alternate, Expr.branches, List.map_append]
    exact left.whole.barred right.whole fun _ _ _ first separates second =>
      first.append separates second
  have group := group_of_whole whole
  refine ⟨whole, ?_, ?_⟩
  · rw [Expr.operandText_of_grouped rfl]
    exact group.mono fun ts base => .single (.bare base)
  · rw [Expr.baseText_of_grouped rfl]
    exact group

theorem atom (a : Atom) (sized : ∀ k, a = .charClass k → Grammar.Sized k.members) :
    Printed limit (.atom a) := by
  have base : Spells (a.write []) 0 fun ts => Derives limit .base ts (Expr.atom a).normal := by
    rw [Expr.normal_atom]
    exact spells_atom a sized
  exact ⟨base.mono fun ts base => .single (.nonempty (.single (.bare base))),
    base.mono fun ts base => .single (.bare base), base⟩

theorem repeated (op : RepeatOp) (inner : Printed limit e) : Printed limit (.repeated op e) := by
  refine of_operand rfl rfl ?_
  have factor := inner.base.repeated op
  rw [← Expr.normal_repeated] at factor
  rw [Expr.write_repeated]
  exact factor.mono fun ts factor => .single factor

theorem counted {b : Bounds} (inner : Printed limit e) (allowed : b.largest ≤ limit.toNat) :
    Printed limit (.counted e b) := by
  refine of_operand rfl rfl ?_
  have factor := inner.base.counted allowed
  rw [← Expr.normal_counted] at factor
  rw [Expr.write_counted]
  exact factor.mono fun ts factor => .single factor

end Printed

/-- The text of an expression that keeps to the limits spells its normal form. -/
theorem printed (admits : Admits limit e) : Printed limit e := by
  induction e with
  | empty =>
    -- No tokens are no factors, and in parentheses they are the empty group.
    refine .of_operand rfl rfl fun start => ?_
    exact ⟨[], .nil _ start, .of_flat nofun, .nil⟩
  | atom a => exact .atom a admits
  | concat l r ihl ihr => exact .concat (ihl admits.1) (ihr admits.2)
  | alternate l r ihl ihr => exact .alternate (ihl admits.1) (ihr admits.2)
  | repeated op e ih => exact .repeated op (ih admits)
  | counted e b ih => exact .counted (ih admits.1) admits.2

/-- A pattern that spells some expression is read as one. -/
theorem exists_parsePattern_of_spells {pattern : String} {n : Nat} {P : Expr → Prop}
    (spells : Spells pattern.toList n fun ts => ∃ e, Derives limit .expression ts e ∧ P e)
    (shallow : n ≤ maxDepth) : ∃ e, parsePattern limit pattern = .ok e ∧ P e := by
  obtain ⟨ts, scans, nests, e, derives, holds⟩ := spells 0
  have cut := scans.scan
  rw [String.ofList_toList] at cut
  have depth : nesting ts ≤ maxDepth := by
    rwa [nesting, nests.deepest, Nat.zero_add]
  exact ⟨e, parsePattern_eq_ok.mpr ⟨ts, cut,
    Grammar.read_of_derives derives (Token.faithful_of_scan cut) depth⟩, holds⟩

/-- A pattern that spells an expression is read as it. -/
theorem parsePattern_of_spells {pattern : String} {n : Nat}
    (spells : Spells pattern.toList n fun ts => Derives limit .expression ts e)
    (shallow : n ≤ maxDepth) : parsePattern limit pattern = .ok e := by
  obtain ⟨e', parsed, rfl⟩ := exists_parsePattern_of_spells (P := (· = e))
    (spells.mono fun ts derives => ⟨e, derives, rfl⟩) shallow
  exact parsed

/-- The text of an expression that keeps to the limits is cut into tokens that derive its normal
form, nested as deep as its parentheses are. -/
theorem scan_render (admits : Admits limit e) :
    ∃ ts, Token.scan e.render = .ok ts ∧ nesting ts = e.nesting ∧
      Derives limit .expression ts e.normal := by
  obtain ⟨ts, scans, nests, branches⟩ := (printed admits).whole 0
  refine ⟨ts, scans.scan, (nests.deepest 0).trans (Nat.zero_add _), ?_⟩
  rw [Expr.normal_eq_alternation]
  exact branches.derives

/-- An expression that keeps to the limits, its parentheses included, is read back from its text as
its normal form. -/
theorem parsePattern_render_of_nesting_le (admits : Admits limit e)
    (depth : e.nesting ≤ maxDepth) : parsePattern limit e.render = .ok e.normal := by
  refine parsePattern_of_spells ?_ depth
  rw [Expr.render, String.toList_ofList, Expr.normal_eq_alternation]
  exact (printed admits).whole.mono fun ts branches => branches.derives

/-- An expression whose classes and counts keep to the limits, and whose text does not nest
parentheses too deeply, is read back from its text as its normal form; so it is read back itself if
it is canonical. -/
theorem parsePattern_render (admits : Admits limit e)
    (depth : ∀ tokens, Token.scan e.render = .ok tokens → nesting tokens ≤ maxDepth) :
    parsePattern limit e.render = .ok e.normal ∧
      (e.Canonical → parsePattern limit e.render = .ok e) := by
  obtain ⟨ts, cut, nests, -⟩ := scan_render admits
  have readBack := parsePattern_render_of_nesting_le admits (nests ▸ depth ts cut)
  refine ⟨readBack, fun canonical => ?_⟩
  rwa [Expr.normal_eq_self canonical] at readBack

/-- `a(b|c){2,}` is the text of a concatenation with an empty operand and a nested one, and is read
back without them. -/
theorem parsePattern_render_nested :
    let e : Expr := .concat .empty (.concat (.literal 'a')
      (.counted (.alternate (.literal 'b') (.literal 'c')) (.atLeast 2)))
    Admits 2 e ∧ (∀ tokens, Token.scan e.render = .ok tokens → nesting tokens ≤ maxDepth) ∧
      parsePattern 2 e.render = .ok (.concat (.literal 'a')
        (.counted (.alternate (.literal 'b') (.literal 'c')) (.atLeast 2))) := by
  intro e
  have admits : Admits 2 e := ⟨trivial, nofun, ⟨nofun, nofun⟩, by decide⟩
  have depth (tokens : List Token) (cut : Token.scan e.render = .ok tokens) :
      nesting tokens ≤ maxDepth := by
    obtain ⟨ts, cut', nests, -⟩ := scan_render admits
    obtain rfl := Except.ok.inj (cut.symm.trans cut')
    rw [nests]
    decide
  have readBack := (parsePattern_render admits depth).1
  refine ⟨admits, depth, ?_⟩
  rw [readBack]
  simp [e, Expr.normal_concat, Expr.normal_alternate, Expr.factors, Expr.operands, Expr.branches,
    Expr.sequence, Expr.alternation, Expr.choice, Expr.literal]

end FullMatch
