import FullMatch.Proofs.Expr.Reprint

/-!
# Parentheses that go away

Parentheses are put where the shape of an expression asks for them. Empty operands leave no text, so
a pair may turn out to enclose nothing that needs it. The normal form, which is what is read from
the text, is then written without that pair. Its text is never longer (`written_normal`), it is the
same text just when the expression is `Tight`, and a normal form always is (`tight_normal`). So
printed text that is read and printed again may become shorter, but only once
(`parsePattern_render_twice`).
-/

namespace FullMatch

variable {limit : UInt32} {pattern : String} {e f l r : Expr} {es fs : List Expr}
  {after before after' before' : List Char} {p q : Prop}

namespace Expr

section Texts

/-- Induction on what is put together from the left, from the end of the list. -/
@[elab_as_elim]
theorem snocInduction {motive : List Expr → Prop} (nil : motive [])
    (single : ∀ e, motive [e])
    (snoc : ∀ es e, es ≠ [] → motive es → motive (es ++ [e])) (es : List Expr) : motive es := by
  induction es using List.reverseRecOn with
  | nil => exact nil
  | append_singleton es e ih =>
    by_cases none : es = []
    · rw [none]
      exact single e
    · exact snoc es e none ih

/-- Operands are written one after another. -/
theorem operandText_sequence (es : List Expr) :
    (Expr.sequence es).operandText = es.flatMap operandText := by
  induction es using snocInduction with
  | nil => rfl
  | single e => exact (List.flatMap_singleton ..).symm
  | snoc es e nonempty ih =>
    rw [sequence_append _ _ nonempty, operandText_concat, ih, List.flatMap_append,
      List.flatMap_singleton]

/-- The normal form of a concatenation is written as those of its operands. -/
theorem operandText_normal_concat (l r : Expr) :
    (Expr.concat l r).normal.operandText = l.normal.operandText ++ r.normal.operandText := by
  rw [normal_concat, l.normal_eq_sequence, r.normal_eq_sequence, operandText_sequence,
    operandText_sequence, operandText_sequence, List.map_append, List.flatMap_append]

/-- Branches are written with bars between them. -/
theorem write_alternation_append (nonempty : es ≠ []) (nonempty' : fs ≠ []) :
    (alternation (es ++ fs)).write [] =
      (alternation es).write [] ++ '|' :: (alternation fs).write [] := by
  induction fs using snocInduction with
  | nil => exact absurd rfl nonempty'
  | single f =>
    rw [alternation_append nonempty, write_alternate]
    rfl
  | snoc fs f some ih =>
    rw [← List.append_assoc, alternation_append (by simp [nonempty]), alternation_append some,
      write_alternate, write_alternate, ih some, List.append_assoc, List.cons_append]

/-- The normal form of an alternation is written as those of its branches. -/
theorem write_normal_alternate (l r : Expr) :
    (Expr.alternate l r).normal.write [] = l.normal.write [] ++ '|' :: r.normal.write [] := by
  rw [normal_alternate, l.normal_eq_alternation, r.normal_eq_alternation, List.map_append]
  exact write_alternation_append (by simp [branches_ne_nil]) (by simp [branches_ne_nil])

end Texts

section Shapes

/-- Expressions that are neither empty nor concatenations are operands of their own. -/
theorem factors_of_mem_factors (factor : f ∈ e.factors) : f.factors = [f] := by
  induction e with
  | concat l r ihl ihr =>
    rw [factors_concat, List.mem_append] at factor
    exact factor.elim ihl ihr
  | empty => cases factor
  | atom | alternate | repeated | counted =>
    obtain rfl := List.mem_singleton.mp factor
    rfl

/-- The normal form of an alternation is one. -/
theorem exists_normal_alternate (l r : Expr) :
    ∃ l' r', (Expr.alternate l r).normal = .alternate l' r' := by
  rcases r.branches.eq_nil_or_concat with none | ⟨bs, b, some⟩
  · exact absurd none r.branches_ne_nil
  · rw [normal_alternate, some, List.concat_eq_append, ← List.append_assoc, List.map_append,
      List.map_singleton, alternation_append (by simp [branches_ne_nil])]
    exact ⟨_, _, rfl⟩

/-- An operand of its own keeps its kind. -/
theorem normal_kind (single : e.factors = [e]) :
    e.normal.factors = [e.normal] ∧ e.normal.groupedInConcat = e.groupedInConcat ∧
      e.normal.groupedInRepeat = e.groupedInRepeat := by
  cases e with
  | empty => cases single
  | concat l r =>
    have factor : Expr.concat l r ∈ (Expr.concat l r).factors := by rw [single]; simp
    exact absurd (sizeOf_lt_of_mem_factors factor) (Nat.lt_irrefl _)
  | atom a =>
    rw [normal_atom]
    exact ⟨rfl, rfl, rfl⟩
  | alternate l r =>
    obtain ⟨l', r', normal⟩ := exists_normal_alternate l r
    rw [normal]
    exact ⟨rfl, rfl, rfl⟩
  | repeated op e =>
    rw [normal_repeated]
    exact ⟨rfl, rfl, rfl⟩
  | counted e b =>
    rw [normal_counted]
    exact ⟨rfl, rfl, rfl⟩

/-- Operands of their own are the operands of their concatenation. -/
theorem factors_sequence (singles : ∀ f ∈ es, f.factors = [f]) :
    (Expr.sequence es).factors = es := by
  induction es using snocInduction with
  | nil => rfl
  | single e => exact singles e List.mem_cons_self
  | snoc es e nonempty ih =>
    obtain ⟨singles, single⟩ := List.forall_mem_append.mp singles
    rw [sequence_append _ _ nonempty, factors_concat, ih singles,
      List.forall_mem_singleton.mp single]

/-- The operands of a normal form are those of the expression, each in its normal form. -/
theorem factors_normal (e : Expr) : e.normal.factors = e.factors.map normal := by
  rw [e.normal_eq_sequence]
  refine factors_sequence fun f member => ?_
  obtain ⟨g, factor, rfl⟩ := List.mem_map.mp member
  exact (normal_kind (factors_of_mem_factors factor)).1

theorem normal_of_factors (single : e.factors = [f]) : e.normal = f.normal := by
  rw [normal_eq_sequence, single]
  rfl

/-- A normal form that is an operand of its own is that of the only operand. -/
theorem exists_factors_of_normal (single : e.normal.factors = [e.normal]) :
    ∃ f, e.factors = [f] ∧ f.groupedInConcat = e.normal.groupedInConcat ∧
      f.groupedInRepeat = e.normal.groupedInRepeat := by
  rw [factors_normal, List.map_eq_singleton_iff] at single
  obtain ⟨f, factors, same⟩ := single
  have kind := normal_kind (factors_of_mem_factors (e := e) (f := f) (by simp [factors]))
  rw [same] at kind
  exact ⟨f, factors, kind.2.1.symm, kind.2.2.symm⟩

/-- A normal form is an alternation only if an alternation is the only operand. -/
theorem exists_factors_eq_alternate (grouped : e.normal.groupedInConcat = true) :
    ∃ l r, e.factors = [.alternate l r] := by
  have single : e.normal.factors = [e.normal] := by
    cases normal : e.normal with
    | alternate l r => rfl
    | _ => cases normal ▸ grouped
  obtain ⟨f, factors, kind, -⟩ := exists_factors_of_normal single
  rw [grouped] at kind
  cases f with
  | alternate l r => exact ⟨l, r, factors⟩
  | _ => cases kind

/-- A normal form is an atom only if an atom is the only operand. -/
theorem exists_factors_eq_atom (bare : e.normal.groupedInRepeat = false) :
    ∃ a, e.factors = [.atom a] := by
  have single : e.normal.factors = [e.normal] := by
    cases normal : e.normal with
    | atom a => rfl
    | _ => cases normal ▸ bare
  obtain ⟨f, factors, -, kind⟩ := exists_factors_of_normal single
  rw [bare] at kind
  cases f with
  | atom a => exact ⟨a, factors⟩
  | _ => cases kind

end Shapes

section Tight

/-- Whether all parentheses in the text of an expression are still needed without its empty
operands: none enclose the whole text, or an atom that is repeated. An operand of a concatenation
may be an alternation that needs them. -/
def Tight (operand : Bool) : Expr → Prop
  | .empty | .atom _ => True
  | .concat l r =>
    (operand = false → ∀ l' r', (Expr.concat l r).factors ≠ [.alternate l' r']) ∧
      l.Tight true ∧ r.Tight true
  | .alternate l r => l.Tight false ∧ r.Tight false
  | .repeated _ e | .counted e _ => (∀ a, e.factors = [.atom a] → e = .atom a) ∧ e.Tight false

/-- The text `after` is `before`, or some of it, and it is the whole under a condition. -/
structure Tidies (after before : List Char) (p : Prop) : Prop where
  length_le : after.length ≤ before.length
  eq_iff : after = before ↔ p

namespace Tidies

theorem refl (text : List Char) : Tidies text text True :=
  ⟨Nat.le_refl _, iff_of_true rfl trivial⟩

theorem congr (tidies : Tidies after before p) (same : p ↔ q) : Tidies after before q :=
  ⟨tidies.length_le, tidies.eq_iff.trans same⟩

theorem of_lt (shorter : after.length < before.length) (not : ¬p) : Tidies after before p :=
  ⟨Nat.le_of_lt shorter, iff_of_false (fun same => Nat.ne_of_lt shorter (same ▸ rfl)) not⟩

theorem append (first : Tidies after before p) (second : Tidies after' before' q) :
    Tidies (after ++ after') (before ++ before') (p ∧ q) := by
  have shorter := first.length_le
  have shorter' := second.length_le
  refine ⟨by rw [List.length_append, List.length_append]; omega, ?_⟩
  rw [← first.eq_iff, ← second.eq_iff]
  constructor
  · intro same
    have lengths := congrArg List.length same
    rw [List.length_append, List.length_append] at lengths
    exact List.append_inj same (by omega)
  · rintro ⟨rfl, rfl⟩
    rfl

/-- What stands on both sides changes nothing. -/
theorem within (front back : List Char) (tidies : Tidies after before p) :
    Tidies (front ++ (after ++ back)) (front ++ (before ++ back)) p :=
  ((refl front).append (tidies.append (refl back))).congr (by simp)

end Tidies

/-- The text of the normal form, as a whole and as an operand, against that of the expression. -/
structure Written (e : Expr) : Prop where
  whole : Tidies (e.normal.write []) (e.write []) (e.Tight false)
  operand : Tidies e.normal.operandText e.operandText (e.Tight true)

theorem exists_eq_atom (bare : e.groupedInRepeat = false) : ∃ a, e = .atom a := by
  cases e with
  | atom a => exact ⟨a, rfl⟩
  | _ => cases bare

namespace Written

/-- What is repeated loses its parentheses only if nothing but an atom remains of it. -/
theorem base (written : e.Written) :
    Tidies e.normal.baseText e.baseText
      ((∀ a, e.factors = [.atom a] → e = .atom a) ∧ e.Tight false) := by
  cases bare : e.groupedInRepeat with
  | false =>
    obtain ⟨a, rfl⟩ := exists_eq_atom bare
    have whole (b : Atom) (same : (Expr.atom a).factors = [.atom b]) : Expr.atom a = .atom b :=
      (List.cons.inj same).1
    rw [normal_atom]
    exact (Tidies.refl _).congr (iff_of_true trivial ⟨whole, trivial⟩)
  | true =>
    rw [baseText_of_grouped bare]
    cases bare' : e.normal.groupedInRepeat with
    | false =>
      obtain ⟨a, factors⟩ := exists_factors_eq_atom bare'
      have shorter := written.whole.length_le
      rw [baseText_of_bare bare']
      refine .of_lt ?_ fun tight => ?_
      · rw [List.length_cons, List.length_append]
        omega
      · rw [tight.1 a factors] at bare
        cases bare
    | true =>
      rw [baseText_of_grouped bare']
      refine (written.whole.within ['('] [')']).congr (and_iff_right fun a factors => ?_).symm
      rw [normal_of_factors factors, normal_atom] at bare'
      cases bare'

/-- An expression that is no alternation, and whose normal form is none, is an operand as it is. -/
theorem of_single (single : e.groupedInConcat = false) (single' : e.normal.groupedInConcat = false)
    (same : e.Tight false ↔ e.Tight true)
    (whole : Tidies (e.normal.write []) (e.write []) (e.Tight false)) : e.Written := by
  refine ⟨whole, ?_⟩
  rw [operandText_of_single single, operandText_of_single single']
  exact whole.congr same

theorem concat (left : l.Written) (right : r.Written) : (Expr.concat l r).Written := by
  have operand : Tidies (Expr.concat l r).normal.operandText (Expr.concat l r).operandText
      ((Expr.concat l r).Tight true) := by
    rw [operandText_normal_concat, operandText_concat]
    exact (left.operand.append right.operand).congr (by simp [Tight])
  refine ⟨?_, operand⟩
  cases grouped : (Expr.concat l r).normal.groupedInConcat with
  | true =>
    -- As an operand the alternation that remains keeps its parentheses; as a whole it does not.
    obtain ⟨l', r', factors⟩ := exists_factors_eq_alternate grouped
    have shorter := operand.length_le
    rw [operandText_of_grouped grouped, List.length_cons, List.length_append] at shorter
    exact .of_lt (Nat.lt_of_lt_of_le (by omega) shorter) fun tight => tight.1 rfl l' r' factors
  | false =>
    rw [operandText_of_single grouped] at operand
    refine operand.congr ⟨fun tight => ⟨fun _ l' r' factors => ?_, tight.2⟩,
      fun tight => ⟨nofun, tight.2⟩⟩
    obtain ⟨l'', r'', normal⟩ := exists_normal_alternate l' r'
    rw [normal_of_factors factors, normal] at grouped
    cases grouped

theorem alternate (left : l.Written) (right : r.Written) : (Expr.alternate l r).Written := by
  have whole : Tidies ((Expr.alternate l r).normal.write []) ((Expr.alternate l r).write [])
      (l.Tight false ∧ r.Tight false) := by
    rw [write_normal_alternate, write_alternate]
    exact (left.whole.append ((Tidies.refl ['|']).append right.whole)).congr (by simp)
  obtain ⟨l', r', normal⟩ := exists_normal_alternate l r
  have grouped : (Expr.alternate l r).normal.groupedInConcat = true := by
    rw [normal]
    rfl
  refine ⟨whole, ?_⟩
  rw [operandText_of_grouped grouped, operandText_of_grouped rfl]
  exact whole.within ['('] [')']

theorem repeated (op : RepeatOp) (written : e.Written) : (Expr.repeated op e).Written := by
  refine of_single rfl (by rw [normal_repeated]; rfl) Iff.rfl ?_
  rw [normal_repeated, write_repeated, write_repeated]
  exact written.base.within [] [op.toChar]

theorem counted (b : Bounds) (written : e.Written) : (Expr.counted e b).Written := by
  refine of_single rfl (by rw [normal_counted]; rfl) Iff.rfl ?_
  rw [normal_counted, write_counted, write_counted]
  exact written.base.within [] (b.write [])

end Written

/-- The normal form of an expression is written with no more than the text of the expression, and
with all of it just when that is tight. -/
theorem written_normal (e : Expr) : e.Written := by
  induction e with
  | empty =>
    refine .of_single rfl (by rw [normal_empty]; rfl) Iff.rfl ?_
    rw [normal_empty]
    exact .refl _
  | atom a =>
    refine .of_single rfl (by rw [normal_atom]; rfl) Iff.rfl ?_
    rw [normal_atom]
    exact .refl _
  | concat l r ihl ihr => exact ihl.concat ihr
  | alternate l r ihl ihr => exact ihl.alternate ihr
  | repeated op e ih => exact ih.repeated op
  | counted e b ih => exact ih.counted b

end Tight

section NormalForms

/-- What stays without parentheses as a whole needs none as an operand, but for its own pair. -/
theorem Tight.operand (tight : e.Tight false) : e.Tight true := by
  cases e with
  | concat l r => exact ⟨nofun, tight.2⟩
  | _ => exact tight

theorem tight_sequence_operand (tight : ∀ e ∈ es, e.Tight true) :
    (Expr.sequence es).Tight true := by
  induction es using snocInduction with
  | nil => trivial
  | single e => exact List.forall_mem_singleton.mp tight
  | snoc es e nonempty ih =>
    obtain ⟨tight, last⟩ := List.forall_mem_append.mp tight
    rw [sequence_append _ _ nonempty]
    exact ⟨nofun, ih tight, List.forall_mem_singleton.mp last⟩

/-- Operands of their own need all their parentheses in a concatenation of several. -/
theorem tight_sequence (singles : ∀ f ∈ es, f.factors = [f]) (tight : ∀ e ∈ es, e.Tight false) :
    (Expr.sequence es).Tight false := by
  cases es using snocInduction with
  | nil => trivial
  | single e => exact List.forall_mem_singleton.mp tight
  | snoc es e nonempty _ =>
    have factors := factors_sequence singles
    have operands := tight_sequence_operand fun e member => (tight e member).operand
    rw [sequence_append _ _ nonempty] at factors operands ⊢
    refine ⟨fun _ l r same => ?_, operands.2⟩
    have single : es ++ [e] = [] ++ [.alternate l r] := factors.symm.trans same
    exact nonempty (List.append_inj' single rfl).1

theorem tight_alternation (tight : ∀ e ∈ es, e.Tight false) : (alternation es).Tight false := by
  induction es using snocInduction with
  | nil => trivial
  | single e => exact List.forall_mem_singleton.mp tight
  | snoc es e nonempty ih =>
    obtain ⟨tight, last⟩ := List.forall_mem_append.mp tight
    rw [alternation_append nonempty]
    exact ⟨ih tight, List.forall_mem_singleton.mp last⟩

/-- In a normal form an atom is an operand by itself only if it is the whole. -/
theorem eq_atom_of_factors_normal (a : Atom) (single : e.normal.factors = [.atom a]) :
    e.normal = .atom a := by
  rw [normal_eq_sequence, ← factors_normal, single]
  rfl

/-- A normal form needs all its parentheses. -/
theorem tight_normal (e : Expr) : e.normal.Tight false := by
  -- Normal forms are put together from all operands, or all branches, at once.
  suffices parts : (∀ f ∈ e.factors, f.normal.Tight false) ∧
      (∀ f ∈ e.branches, f.normal.Tight false) ∧ e.normal.Tight false from parts.2.2
  have alone {e : Expr} (factors : e.factors ⊆ [e]) (branches : e.branches = [e])
      (whole : e.normal.Tight false) : (∀ f ∈ e.factors, f.normal.Tight false) ∧
        (∀ f ∈ e.branches, f.normal.Tight false) ∧ e.normal.Tight false := by
    refine ⟨fun f member => ?_, fun f member => ?_, whole⟩
    · rwa [List.mem_singleton.mp (factors member)]
    · rw [branches] at member
      rwa [List.mem_singleton.mp member]
  induction e with
  | empty => exact alone (by simp [factors, operands]) rfl (by rw [normal_empty]; trivial)
  | atom a => exact alone (fun _ => id) rfl (by rw [normal_atom]; trivial)
  | concat l r ihl ihr =>
    have factors : ∀ f ∈ (Expr.concat l r).factors, f.normal.Tight false := by
      rw [factors_concat]
      exact List.forall_mem_append.mpr ⟨ihl.1, ihr.1⟩
    have whole : (Expr.concat l r).normal.Tight false := by
      rw [normal_eq_sequence, ← factors_normal]
      refine tight_sequence (fun f => factors_of_mem_factors) ?_
      rw [factors_normal]
      exact List.forall_mem_map.mpr factors
    refine ⟨factors, fun f member => ?_, whole⟩
    rwa [List.mem_singleton.mp member]
  | alternate l r ihl ihr =>
    have branches : ∀ f ∈ (Expr.alternate l r).branches, f.normal.Tight false :=
      List.forall_mem_append.mpr ⟨ihl.2.1, ihr.2.1⟩
    have whole : (Expr.alternate l r).normal.Tight false := by
      rw [normal_eq_alternation]
      exact tight_alternation (List.forall_mem_map.mpr branches)
    refine ⟨fun f member => ?_, branches, whole⟩
    rwa [List.mem_singleton.mp member]
  | repeated op e ih =>
    refine alone (fun _ => id) rfl ?_
    rw [normal_repeated]
    exact ⟨eq_atom_of_factors_normal, ih.2.2⟩
  | counted e b ih =>
    refine alone (fun _ => id) rfl ?_
    rw [normal_counted]
    exact ⟨eq_atom_of_factors_normal, ih.2.2⟩

end NormalForms

end Expr

/-- The text of an expression that was read is read again, and what is read is written with the same
text just when no parentheses in it can go; otherwise the text becomes shorter. The second text
stays: it is read as an expression that is written with it once more. -/
theorem parsePattern_render_twice (parsed : parsePattern limit pattern = .ok e) :
    ∃ e', parsePattern limit e.render = .ok e' ∧ e'.render.length ≤ e.render.length ∧
      (e'.render = e.render ↔ e.Tight false) ∧
      ∃ e'', parsePattern limit e'.render = .ok e'' ∧ e''.render = e'.render := by
  have reparsed := parsePattern_render_of_parsePattern parsed
  have tidies := e.written_normal.whole
  refine ⟨e.normal, reparsed, ?_, ?_, e.normal.normal,
    parsePattern_render_of_parsePattern reparsed, ?_⟩
  · rw [Expr.render, Expr.render, String.length_ofList, String.length_ofList]
    exact tidies.length_le
  · rw [Expr.render, Expr.render, String.ofList_inj]
    exact tidies.eq_iff
  · exact congrArg String.ofList (e.normal.written_normal.whole.eq_iff.mpr e.tight_normal)

/-- `(a|b)()c` is written without its empty group, and that text stays, as its parentheses are
needed. -/
theorem parsePattern_render_twice_of_group :
    ∃ e e', parsePattern 0 "(a|b)()c" = .ok e ∧ e.render = "(a|b)c" ∧
      parsePattern 0 e.render = .ok e' ∧ e'.render = e.render := by
  let e : Expr := .concat (.concat (.alternate (.literal 'a') (.literal 'b')) .empty) (.literal 'c')
  have parsed : parsePattern 0 "(a|b)()c" = .ok e := by decide
  have tight : e.Tight false := by
    refine ⟨fun _ l r same => ?_, ⟨nofun, ⟨trivial, trivial⟩, trivial⟩, trivial⟩
    simp [Expr.factors, Expr.operands, Expr.literal] at same
  obtain ⟨e', reparsed, -, stays, -⟩ := parsePattern_render_twice parsed
  exact ⟨e, e', parsed, by decide, reparsed, stays.mpr tight⟩

/-- `(a|b)()` is written with parentheses that only the empty group asked for, and what is read from
that text is written without them. -/
theorem parsePattern_render_of_emptyGroup :
    ∃ e e', parsePattern 0 "(a|b)()" = .ok e ∧ e.render = "(a|b)" ∧
      parsePattern 0 e.render = .ok e' ∧ e'.render = "a|b" := by
  let e' : Expr := .alternate (.literal 'a') (.literal 'b')
  exact ⟨.concat e' .empty, e', by decide, by decide, by decide, by decide⟩

end FullMatch
