import FullMatch.Proofs.Expr.Printed
import FullMatch.Proofs.Expr.Similar
import FullMatch.Proofs.Grammar.Soundness

/-!
# Parsed patterns, printed

Each pair of parentheses that the printer writes is around an expression that stood in a group, so
the text of an expression that was read is nested no deeper than the pattern it was read from
(`Grammar.Derives.nesting_le`). Hence the text can be read again, and what is read from it stands
for the same texts (`parsePattern_reprint`).
-/

namespace FullMatch

open Token (deepest nesting)
open Grammar (Admits Category Derives maxDepth)

variable {limit : UInt32} {pattern : String} {ts : List Token} {e : Expr} {c : Category}

/-- Whatever stands in parentheses as an operand does so when it is repeated. -/
theorem Expr.groupedInConcat_le_groupedInRepeat (e : Expr) :
    e.groupedInConcat.toNat ≤ e.groupedInRepeat.toNat := by
  cases e with
  | alternate l r => exact Nat.le_refl 1
  | _ => exact Nat.zero_le _

/-- How deep the parentheses are nested in the text of an expression that is a phrase. -/
def Expr.nestingAs (e : Expr) : Category → Nat
  | .expression | .term => e.nesting
  | .factors | .factor => e.nesting + e.groupedInConcat.toNat
  | .base => e.nesting + e.groupedInRepeat.toNat

namespace Grammar

/-- What is derived keeps to the limits. -/
theorem Derives.admits (derives : Derives limit c ts e) : Admits limit e := by
  induction derives with
  | branch _ ih | nonempty _ ih | single _ ih | bare _ ih | group _ _ _ ih => exact ih
  | alternate _ _ _ left right => exact ⟨left, right⟩
  | concat _ _ left right => exact ⟨left, right⟩
  | empty => trivial
  | repeated _ _ ih => exact ih
  | counted _ _ _ _ allowed ih => exact ⟨ih, allowed⟩
  | literal | anyChar | wordChar | digit => exact nofun
  | charClass _ inner _ =>
    rintro k same
    obtain rfl := Atom.charClass.inj same
    cases inner with
    | plain _ _ sized => exact sized
    | negated _ _ _ sized => exact sized

/-- The text of what is derived is nested no deeper than the tokens it is derived from. -/
theorem Derives.nesting_le (derives : Derives limit c ts e) (opened : Nat) :
    opened + e.nestingAs c ≤ deepest opened ts := by
  induction derives generalizing opened with
  | branch _ ih => exact ih opened
  | alternate left separates right ihl ihr =>
    have first := ihl opened
    have second := ihr opened
    rw [Token.deepest_append, left.balanced, deepest, opensTo_of_kind separates rfl]
    simp only [Expr.nestingAs, Expr.nesting] at *
    omega
  | empty => exact Nat.le_refl _
  | nonempty _ ih => exact Nat.le_trans (Nat.add_le_add_left (Nat.le_add_right _ _) _) (ih opened)
  | single _ ih => exact ih opened
  | concat left _ ihl ihr =>
    have first := ihl opened
    have second := ihr opened
    rw [Token.deepest_append, left.balanced]
    simp only [Expr.nestingAs, Expr.nesting, Expr.groupedInConcat, Bool.toNat_false] at *
    omega
  | @bare ts e _ ih =>
    have fewer := e.groupedInConcat_le_groupedInRepeat
    have inner := ih opened
    simp only [Expr.nestingAs] at *
    omega
  | repeated base _ ih =>
    rw [Token.deepest_append]
    exact Nat.le_trans (ih opened) (Nat.le_max_left _ _)
  | counted base _ _ _ _ ih =>
    rw [Token.deepest_append]
    exact Nat.le_trans (ih opened) (Nat.le_max_left _ _)
  | literal | anyChar | wordChar | digit | charClass => exact Token.le_deepest opened _
  | @group opening ts closing e opens _ _ ih =>
    -- However the group is used, the printer writes at most one pair of parentheses for it.
    have single := Bool.toNat_le e.groupedInRepeat
    have inner := ih (opened + 1)
    rw [deepest, Token.opensTo_leftParen opens, Token.deepest_append]
    simp only [Expr.nestingAs] at *
    omega

end Grammar

/-- The text of an expression that was read is read again, as its normal form. -/
theorem parsePattern_render_of_parsePattern (parsed : parsePattern limit pattern = .ok e) :
    parsePattern limit e.render = .ok e.normal := by
  obtain ⟨ts, cut, isRead⟩ := parsePattern_eq_ok.mp parsed
  obtain ⟨derives, depth⟩ := Grammar.derives_of_read (Token.faithful_of_scan cut) isRead
  have shallow : e.nesting ≤ maxDepth := by
    have bound := derives.nesting_le 0
    rw [Nat.zero_add] at bound
    exact Nat.le_trans bound depth
  exact parsePattern_render_of_nesting_le derives.admits shallow

/-- The text of an expression that was read can be read again, under the same limit, as an
expression for the same texts; automata of the two have the same least and greatest lengths. -/
theorem parsePattern_reprint (parsed : parsePattern limit pattern = .ok e) :
    ∃ e', parsePattern limit e.render = .ok e' ∧ (∀ text, e'.Denotes text ↔ e.Denotes text) ∧
      ∀ limits limits' nfa nfa', Nfa.ofExpr limits e = .ok nfa → Nfa.ofExpr limits' e' = .ok nfa' →
        nfa'.lengths.least = nfa.lengths.least ∧ nfa'.lengths.greatest = nfa.lengths.greatest := by
  refine ⟨e.normal, parsePattern_render_of_parsePattern parsed, (Similar.normal e).denotes_iff, ?_⟩
  intro limits limits' nfa nfa' built built'
  obtain rfl := Nfa.eq_ofBlock built
  obtain rfl := Nfa.eq_ofBlock built'
  have same : (Nfa.ofBlock e.normal).lengths = (Nfa.ofBlock e).lengths :=
    (Similar.normal e).lengths_eq
  rw [same]
  exact ⟨rfl, rfl⟩

/-- `a(bc)*|(d)` is read with a group that the text of its expression leaves out, and the text is
read again. -/
theorem parsePattern_reprint_groups :
    ∃ e e', parsePattern 0 "a(bc)*|(d)" = .ok e ∧ parsePattern 0 e.render = .ok e' ∧
      ∀ text, e'.Denotes text ↔ e.Denotes text := by
  let e : Expr := .alternate
    (.concat (.literal 'a') (.repeated .zeroOrMore (.concat (.literal 'b') (.literal 'c'))))
    (.literal 'd')
  have parsed : parsePattern 0 "a(bc)*|(d)" = .ok e := by decide
  obtain ⟨e', reparsed, denotes, -⟩ := parsePattern_reprint parsed
  exact ⟨e, e', parsed, reparsed, denotes⟩

end FullMatch
