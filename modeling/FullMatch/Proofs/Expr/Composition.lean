import FullMatch.Proofs.Expr.Printed
import FullMatch.Proofs.Grammar.Seam
import FullMatch.Proofs.Grammar.Soundness

/-!
# Patterns put together

A pattern that can be read spells its expression wherever it stands (`spells_of_parsePattern`). So
patterns in parentheses are read as the operands of whatever is written around them, and patterns
with a bar between them as an expression for the texts of both (`parsePattern_composed`).
-/

namespace FullMatch

open Token (bracesOpen nesting shiftScan)
open Grammar (Derives maxDepth)

variable {limit : UInt32} {p q : String} {ts us : List Token} {e f : Expr}

namespace Grammar.Derives

theorem factors_of_base (base : Derives limit .base ts e) : Derives limit .factors ts e :=
  .single (.bare base)

theorem expression_of_factors (factors : Derives limit .factors ts e) :
    Derives limit .expression ts e :=
  .branch (.nonempty factors)

/-- Two expressions with a bar between them make one, though not their alternation: the branches of
the second one join those of the first. -/
theorem union {c : Category} {bar : Token} (left : Derives limit .expression ts e)
    (separates : bar.kind = .pipe) (right : Derives limit c us f) (whole : c = .expression) :
    ∃ g, Derives limit .expression (ts ++ bar :: us) g ∧
      ∀ text, g.Denotes text ↔ e.Denotes text ∨ f.Denotes text := by
  induction right with
  | branch term => exact ⟨_, .alternate left separates term, fun text => Iff.rfl⟩
  | @alternate us bar' us' l r _ separates' term ih =>
    obtain ⟨g, derives, denotes⟩ := ih rfl
    refine ⟨.alternate g r, ?_, fun text => ?_⟩
    · rw [← List.cons_append, ← List.append_assoc]
      exact .alternate derives separates' term
    · rw [Expr.Denotes, Expr.Denotes, denotes, or_assoc]
  | _ => cases whole

end Grammar.Derives

/-- A pattern that is read spells its expression, its groups nested as deep as they are in its
tokens, and leaves no braces open. -/
theorem spells_of_parsePattern (parsed : parsePattern limit p = .ok e) :
    ∃ ts, Token.scan p = .ok ts ∧ nesting ts ≤ maxDepth ∧ bracesOpen false ts = false ∧
      Spells p.toList (nesting ts) fun us => Derives limit .expression us e := by
  obtain ⟨ts, cut, isRead⟩ := parsePattern_eq_ok.mp parsed
  obtain ⟨derives, depth⟩ := Grammar.derives_of_read (Token.faithful_of_scan cut) isRead
  have closed := derives.bracesOpen_eq
  refine ⟨ts, cut, depth, closed, fun start => ?_⟩
  obtain ⟨n, nests⟩ := derives.nests
  have same : nesting ts = n := (nests.deepest 0).trans (Nat.zero_add n)
  exact ⟨_, Token.scans_of_scan cut closed start, same ▸ nests.shift start, derives.shift start⟩

/-- A pattern that leaves room for one more group spells a base in parentheses. -/
theorem spells_group_of_parsePattern (parsed : parsePattern limit p = .ok e)
    (room : ∀ ts, Token.scan p = .ok ts → nesting ts < maxDepth) :
    ∃ n ≤ maxDepth, Spells s!"({p})".toList n fun ts => Derives limit .base ts e := by
  obtain ⟨ts, cut, -, -, spells⟩ := spells_of_parsePattern parsed
  refine ⟨nesting ts + 1, room ts cut, ?_⟩
  have text : s!"({p})".toList = '(' :: (p.toList ++ [')']) := by simp [toString]
  rw [text]
  exact spells.group

/-- A pattern that spells factors one after another is read as their concatenation. -/
theorem parsePattern_of_factors {n : Nat}
    (spells : Spells p.toList n fun ts => Derives limit .factors ts e) (shallow : n ≤ maxDepth) :
    parsePattern limit p = .ok e :=
  parsePattern_of_spells (spells.mono fun _ factors => factors.expression_of_factors) shallow

/-- A group with two numbers in braces behind it is read as a counted repetition. -/
theorem parsePattern_counted_of_base {n least most : Nat}
    (base : Spells s!"({p})".toList n fun ts => Derives limit .base ts e) (shallow : n ≤ maxDepth)
    (ordered : least ≤ most) (allowed : most ≤ limit.toNat) :
    ∃ b : Bounds, b.least = least ∧ b.most = some most ∧
      parsePattern limit s!"({p})\x7b{least},{most}\x7d" = .ok (.counted e b) := by
  let b : Bounds := ⟨least, some most, fun _ same => Option.some.inj same ▸ ordered⟩
  have allowed' : least ≤ limit.toNat := Nat.le_trans ordered allowed
  have bounds : SpellsBounds (Nat.toDigits 10 least ++ ',' :: Nat.toDigits 10 most)
      b.least b.most :=
    spellsBounds_between (le_maxNumber_of_le allowed') (le_maxNumber_of_le allowed)
  have text : s!"({p})\x7b{least},{most}\x7d".toList = s!"({p})".toList ++
      '\x7b' :: ((Nat.toDigits 10 least ++ ',' :: Nat.toDigits 10 most) ++ ['\x7d']) := by
    simp [toString]
  refine ⟨b, rfl, rfl, parsePattern_of_factors ?_ shallow⟩
  rw [text]
  exact (base.braces bounds allowed).mono fun ts factor => .single factor

/-- Patterns with a bar between them are read as an expression for the texts of both. -/
theorem parsePattern_union (parsed : parsePattern limit p = .ok e)
    (parsed' : parsePattern limit q = .ok f) :
    ∃ g, parsePattern limit s!"{p}|{q}" = .ok g ∧
      ∀ text, g.Denotes text ↔ e.Denotes text ∨ f.Denotes text := by
  obtain ⟨ts, -, depth, -, spells⟩ := spells_of_parsePattern parsed
  obtain ⟨us, -, depth', -, spells'⟩ := spells_of_parsePattern parsed'
  have text : s!"{p}|{q}".toList = p.toList ++ '|' :: q.toList := by simp [toString]
  refine exists_parsePattern_of_spells ?_ (Nat.max_le.mpr ⟨depth, depth'⟩)
  rw [text]
  exact spells.barred spells' fun _ _ _ left separates right => left.union separates right rfl

/-- Behind a pattern that is read, text is cut as if it stood alone. -/
theorem scan_append_of_parsePattern (parsed : parsePattern limit p = .ok e) :
    ∃ ts, Token.scan p = .ok ts ∧
      ∀ rest, Token.scan (p ++ rest) = (shiftScan p.length (Token.scan rest)).map (ts ++ ·) := by
  obtain ⟨ts, cut, -, closed, -⟩ := spells_of_parsePattern parsed
  exact ⟨ts, cut, Token.scan_append cut closed⟩

/-- Patterns that are read, and that leave room for one more group, may be put in parentheses and
then be concatenated, alternated and repeated: what is read is put together in the same way from
what they are read as. Without parentheses, a bar between them still stands for the texts of both.
Nothing that stands behind such a pattern is cut differently because of it. -/
theorem parsePattern_composed (parsed : parsePattern limit p = .ok e)
    (parsed' : parsePattern limit q = .ok f)
    (room : ∀ ts, Token.scan p = .ok ts → nesting ts < maxDepth)
    (room' : ∀ ts, Token.scan q = .ok ts → nesting ts < maxDepth) :
    parsePattern limit s!"({p})" = .ok e ∧
      parsePattern limit s!"({p})({q})" = .ok (.concat e f) ∧
      parsePattern limit s!"({p})|({q})" = .ok (.alternate e f) ∧
      (∀ op : RepeatOp, parsePattern limit (s!"({p})".push op.toChar) = .ok (.repeated op e)) ∧
      (∀ m n, m ≤ n → n ≤ limit.toNat → ∃ b : Bounds, b.least = m ∧ b.most = some n ∧
        parsePattern limit s!"({p})\x7b{m},{n}\x7d" = .ok (.counted e b)) ∧
      (∃ g, parsePattern limit s!"{p}|{q}" = .ok g ∧
        ∀ text, g.Denotes text ↔ e.Denotes text ∨ f.Denotes text) ∧
      ∃ ts, Token.scan p = .ok ts ∧
        ∀ rest, Token.scan (p ++ rest) =
          (shiftScan p.length (Token.scan rest)).map (ts ++ ·) := by
  obtain ⟨m, depth, base⟩ := spells_group_of_parsePattern parsed room
  obtain ⟨n, depth', base'⟩ := spells_group_of_parsePattern parsed' room'
  refine ⟨?group, ?concat, ?alternate, ?repeated, ?counted, parsePattern_union parsed parsed',
    scan_append_of_parsePattern parsed⟩
  case group => exact parsePattern_of_factors (base.mono fun ts => .factors_of_base) depth
  case concat =>
    have text : s!"({p})({q})".toList = s!"({p})".toList ++ s!"({q})".toList := by simp [toString]
    refine parsePattern_of_factors ?_ (Nat.max_le.mpr ⟨depth, depth'⟩)
    rw [text]
    exact base.append base' fun ts us left right => .concat left.factors_of_base (.bare right)
  case alternate =>
    have text : s!"({p})|({q})".toList = s!"({p})".toList ++ '|' :: s!"({q})".toList := by
      simp [toString]
    refine parsePattern_of_spells ?_ (Nat.max_le.mpr ⟨depth, depth'⟩)
    rw [text]
    exact base.barred base' fun ts bar us left separates right =>
      .alternate left.factors_of_base.expression_of_factors separates
        (.nonempty right.factors_of_base)
  case repeated =>
    intro op
    refine parsePattern_of_factors ?_ depth
    rw [String.toList_push]
    exact (base.repeated op).mono fun ts factor => .single factor
  case counted =>
    exact fun least most ordered allowed =>
      parsePattern_counted_of_base base depth ordered allowed

/-- `a|[^b-]` and `c{2}` are read as the operands of `(a|[^b-])|(c{2})`; the bracket and
the braces in them end with the groups. -/
theorem parsePattern_composed_of_class :
    ∃ e f, parsePattern 3 "a|[^b-]" = .ok e ∧ parsePattern 3 "c\x7b2\x7d" = .ok f ∧
      (∀ ts, Token.scan "a|[^b-]" = .ok ts → nesting ts < maxDepth) ∧
      (∀ ts, Token.scan "c\x7b2\x7d" = .ok ts → nesting ts < maxDepth) ∧
      parsePattern 3 "(a|[^b-])|(c\x7b2\x7d)" = .ok (.alternate e f) := by
  have flat {pattern : String} (cut : (Token.scan pattern).map nesting = .ok 0) (ts : List Token)
      (is : Token.scan pattern = .ok ts) : nesting ts < maxDepth := by
    rw [is] at cut
    rw [Except.ok.inj cut]
    decide
  have room := @flat "a|[^b-]" rfl
  have room' := @flat "c\x7b2\x7d" rfl
  have parsed : parsePattern 3 "a|[^b-]" = .ok _ := rfl
  have parsed' : parsePattern 3 "c\x7b2\x7d" = .ok _ := rfl
  exact ⟨_, _, parsed, parsed', room, room',
    (parsePattern_composed parsed parsed' room room').2.2.1⟩

end FullMatch
