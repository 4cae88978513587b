import FullMatch.Expr.Normal
import FullMatch.Proofs.Length.Accepted

/-!
# Similar expressions

Expressions that differ only in how their concatenations and alternations are nested, and in empty
operands, are similar. An expression is similar to its normal form (`Similar.normal`). Similar
expressions stand for the same texts and have the same lengths, so whatever is known of the normal
form of an expression is known of the expression.
-/

namespace FullMatch

variable {e e' : Expr} {es fs : List Expr}

/-- Expressions that differ only in the nesting of concatenations and alternations and in empty
operands. -/
inductive Similar : Expr → Expr → Prop where
  | refl (e : Expr) : Similar e e
  | symm {e e' : Expr} (similar : Similar e e') : Similar e' e
  | trans {e e' e'' : Expr} (first : Similar e e') (second : Similar e' e'') : Similar e e''
  | concat {l l' r r' : Expr} (left : Similar l l') (right : Similar r r') :
      Similar (.concat l r) (.concat l' r')
  | alternate {l l' r r' : Expr} (left : Similar l l') (right : Similar r r') :
      Similar (.alternate l r) (.alternate l' r')
  | repeated {e e' : Expr} (op : RepeatOp) (inner : Similar e e') :
      Similar (.repeated op e) (.repeated op e')
  | counted {e e' : Expr} (b : Bounds) (inner : Similar e e') :
      Similar (.counted e b) (.counted e' b)
  | concat_assoc (e f g : Expr) : Similar (.concat (.concat e f) g) (.concat e (.concat f g))
  | alternate_assoc (e f g : Expr) :
      Similar (.alternate (.alternate e f) g) (.alternate e (.alternate f g))
  | empty_concat (e : Expr) : Similar (.concat .empty e) e
  | concat_empty (e : Expr) : Similar (.concat e .empty) e

namespace Similar

theorem foldl_concat (similar : Similar e e') (es : List Expr) :
    Similar (es.foldl .concat e) (es.foldl .concat e') := by
  induction es generalizing e e' with
  | nil => exact similar
  | cons f es ih => exact ih (similar.concat (.refl f))

theorem foldl_alternate (similar : Similar e e') (es : List Expr) :
    Similar (es.foldl .alternate e) (es.foldl .alternate e') := by
  induction es generalizing e e' with
  | nil => exact similar
  | cons f es ih => exact ih (similar.alternate (.refl f))

/-- The operands behind the first one may be put together first. -/
theorem foldl_concat_cons (e f : Expr) (fs : List Expr) :
    Similar ((f :: fs).foldl .concat e) (.concat e (fs.foldl .concat f)) := by
  induction fs generalizing f with
  | nil => exact .refl _
  | cons g fs ih => exact (foldl_concat (.concat_assoc e f g) fs).trans (ih (.concat f g))

/-- The branches behind the first one may be put together first. -/
theorem foldl_alternate_cons (e f : Expr) (fs : List Expr) :
    Similar ((f :: fs).foldl .alternate e) (.alternate e (fs.foldl .alternate f)) := by
  induction fs generalizing f with
  | nil => exact .refl _
  | cons g fs ih => exact (foldl_alternate (.alternate_assoc e f g) fs).trans (ih (.alternate f g))

theorem sequence_append (es fs : List Expr) :
    Similar (.sequence (es ++ fs)) (.concat (.sequence es) (.sequence fs)) := by
  cases es with
  | nil => exact (empty_concat _).symm
  | cons e es =>
    cases fs with
    | nil =>
      rw [List.append_nil]
      exact (concat_empty _).symm
    | cons f fs =>
      rw [List.cons_append, Expr.sequence, List.foldl_append]
      exact foldl_concat_cons _ f fs

theorem alternation_append (nonempty : es ≠ []) (nonempty' : fs ≠ []) :
    Similar (.alternation (es ++ fs)) (.alternate (.alternation es) (.alternation fs)) := by
  cases es with
  | nil => exact absurd rfl nonempty
  | cons e es =>
    cases fs with
    | nil => exact absurd rfl nonempty'
    | cons f fs =>
      rw [List.cons_append, Expr.alternation, Expr.choice, List.foldl_append]
      exact foldl_alternate_cons _ f fs

/-- An expression is similar to its normal form. -/
theorem normal (e : Expr) : Similar e.normal e := by
  induction e with
  | empty =>
    rw [Expr.normal_empty]
    exact .refl _
  | atom a =>
    rw [Expr.normal_atom]
    exact .refl _
  | concat l r ihl ihr =>
    rw [Expr.normal_concat, List.map_append]
    refine (sequence_append _ _).trans (.concat ?_ ?_)
    · rwa [← Expr.normal_eq_sequence]
    · rwa [← Expr.normal_eq_sequence]
  | alternate l r ihl ihr =>
    rw [Expr.normal_alternate, List.map_append]
    refine (alternation_append ?_ ?_).trans (.alternate ?_ ?_)
    · simp [Expr.branches_ne_nil]
    · simp [Expr.branches_ne_nil]
    · rwa [← Expr.normal_eq_alternation]
    · rwa [← Expr.normal_eq_alternation]
  | repeated op e ih =>
    rw [Expr.normal_repeated]
    exact .repeated op ih
  | counted e b ih =>
    rw [Expr.normal_counted]
    exact .counted b ih

/-- Similar expressions stand for the same texts. -/
theorem denotes_iff (similar : Similar e e') (text : List Char) :
    e.Denotes text ↔ e'.Denotes text := by
  induction similar generalizing text with
  | refl e => exact Iff.rfl
  | symm _ ih => exact (ih text).symm
  | trans _ _ ih ih' => exact (ih text).trans (ih' text)
  | concat _ _ left right => simp only [Expr.Denotes, left, right]
  | alternate _ _ left right => simp only [Expr.Denotes, left, right]
  | repeated op _ ih =>
    rw [Expr.Denotes, Expr.Denotes, funext fun text => propext (ih text)]
  | counted b _ ih =>
    rw [Expr.Denotes, Expr.Denotes, funext fun text => propext (ih text)]
  | concat_assoc e f g =>
    constructor
    · rintro ⟨_, third, rfl, ⟨first, second, rfl, inE, inF⟩, inG⟩
      exact ⟨first, second ++ third, List.append_assoc .., inE, second, third, rfl, inF, inG⟩
    · rintro ⟨first, _, rfl, inE, second, third, rfl, inF, inG⟩
      exact ⟨first ++ second, third, (List.append_assoc ..).symm, ⟨first, second, rfl, inE, inF⟩,
        inG⟩
  | alternate_assoc e f g => exact or_assoc
  | empty_concat e =>
    constructor
    · rintro ⟨_, rest, rfl, rfl, inE⟩
      exact inE
    · exact fun inE => ⟨[], text, rfl, rfl, inE⟩
  | concat_empty e =>
    constructor
    · rintro ⟨first, _, rfl, inE, rfl⟩
      rwa [List.append_nil]
    · exact fun inE => ⟨text, [], (List.append_nil text).symm, inE, rfl⟩

/-- Similar expressions have shortest texts of one length. -/
theorem shortest_eq (similar : Similar e e') : e.shortest = e'.shortest := by
  induction similar with
  | refl e => rfl
  | symm _ ih => exact ih.symm
  | trans _ _ ih ih' => exact ih.trans ih'
  | concat _ _ left right => rw [Expr.shortest, Expr.shortest, left, right]
  | alternate _ _ left right => rw [Expr.shortest, Expr.shortest, left, right]
  | repeated op _ ih => rw [Expr.shortest, Expr.shortest, ih]
  | counted b _ ih => rw [Expr.shortest, Expr.shortest, ih]
  | concat_assoc e f g => exact Nat.add_assoc ..
  | alternate_assoc e f g => exact Nat.min_assoc ..
  | empty_concat e => exact Nat.zero_add _
  | concat_empty e => rfl

/-- Similar expressions have longest texts of one length. -/
theorem longest_eq (similar : Similar e e') : e.longest = e'.longest := by
  induction similar with
  | refl e => rfl
  | symm _ ih => exact ih.symm
  | trans _ _ ih ih' => exact ih.trans ih'
  | concat _ _ left right => rw [Expr.longest, Expr.longest, left, right]
  | alternate _ _ left right => rw [Expr.longest, Expr.longest, left, right]
  | repeated op _ ih => rw [Expr.longest, Expr.longest, ih]
  | counted b _ ih => rw [Expr.longest, Expr.longest, ih]
  | concat_assoc e f g =>
    ext m
    simp only [Expr.longest_concat_eq_some]
    constructor
    · rintro ⟨_, k, ⟨i, j, boundE, boundF, rfl⟩, boundG, rfl⟩
      exact ⟨i, j + k, boundE, ⟨j, k, boundF, boundG, rfl⟩, (Nat.add_assoc ..).symm⟩
    · rintro ⟨i, _, boundE, ⟨j, k, boundF, boundG, rfl⟩, rfl⟩
      exact ⟨i + j, k, ⟨i, j, boundE, boundF, rfl⟩, boundG, Nat.add_assoc ..⟩
  | alternate_assoc e f g =>
    ext m
    simp only [Expr.longest_alternate_eq_some]
    constructor
    · rintro ⟨_, k, ⟨i, j, boundE, boundF, rfl⟩, boundG, rfl⟩
      exact ⟨i, max j k, boundE, ⟨j, k, boundF, boundG, rfl⟩, (Nat.max_assoc ..).symm⟩
    · rintro ⟨i, _, boundE, ⟨j, k, boundF, boundG, rfl⟩, rfl⟩
      exact ⟨max i j, k, ⟨i, j, boundE, boundF, rfl⟩, boundG, Nat.max_assoc ..⟩
  | empty_concat e =>
    simp [Expr.longest]
  | concat_empty e =>
    simp [Expr.longest]

/-- Similar expressions have one interval of lengths. -/
theorem lengths_eq (similar : Similar e e') : e.lengths = e'.lengths := by
  have least : e.lengths.least = e'.lengths.least := by
    rw [Expr.lengths_least, Expr.lengths_least, similar.shortest_eq]
  have greatest : e.lengths.greatest = e'.lengths.greatest := by
    ext m
    rw [Expr.lengths_greatest_eq_some, Expr.lengths_greatest_eq_some, similar.longest_eq]
  calc
    e.lengths = ⟨e.lengths.least, e.lengths.greatest⟩ := rfl
    _ = ⟨e'.lengths.least, e'.lengths.greatest⟩ := by rw [least, greatest]
    _ = e'.lengths := rfl

end Similar

end FullMatch
