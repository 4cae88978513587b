import FullMatch.Expr.Basic

/-!
# Spines

A concatenation that leans to the left is a list of operands, and an alternation that leans to the
left a list of branches. Taking a spine apart and putting it together again changes nothing
(`foldl_concatParts`, `foldl_alternatives`).
-/

namespace FullMatch.Expr

/-- Concatenation of a list, from the left. -/
def sequence : List Expr → Expr
  | [] => .empty
  | e :: es => es.foldl .concat e

/-- Alternation of `e` and then the expressions of a list, from the left. -/
def choice (e : Expr) (es : List Expr) : Expr :=
  es.foldl .alternate e

/-- The operands of the concatenation at the top, in pattern order, before `rest`. Only the left
spine is taken apart: a right operand stays whole, and any other expression is its own single
operand. -/
def concatPartsOnto : Expr → List Expr → List Expr
  | .concat l r, rest => concatPartsOnto l (r :: rest)
  | e, rest => e :: rest

/-- The operands of the concatenation at the top, in pattern order. -/
def concatParts (e : Expr) : List Expr :=
  e.concatPartsOnto []

/-- The branches of the alternation at the top, in pattern order, before `rest`, taken from the
left spine alone. -/
def alternativesOnto : Expr → List Expr → List Expr
  | .alternate l r, rest => alternativesOnto l (r :: rest)
  | e, rest => e :: rest

/-- The branches of the alternation at the top, in pattern order. -/
def alternatives (e : Expr) : List Expr :=
  e.alternativesOnto []

/-- The operands stand in front of what follows them. -/
theorem concatPartsOnto_eq (e : Expr) (rest : List Expr) :
    e.concatPartsOnto rest = e.concatParts ++ rest := by
  induction e generalizing rest with
  | concat l r ihl _ => simp [concatParts, concatPartsOnto, ihl (_ :: _)]
  | _ => rfl

/-- The right operand of a concatenation is its last one. -/
theorem concatParts_concat (l r : Expr) :
    (Expr.concat l r).concatParts = l.concatParts ++ [r] :=
  concatPartsOnto_eq l [r]

theorem concatParts_ne_nil (e : Expr) : e.concatParts ≠ [] := by
  cases e with
  | concat l r => simp [concatParts_concat]
  | _ => exact List.cons_ne_nil _ _

theorem sequence_append (es : List Expr) (e : Expr) (nonempty : es ≠ []) :
    sequence (es ++ [e]) = .concat (sequence es) e := by
  cases es with
  | nil => exact absurd rfl nonempty
  | cons first es => simp [sequence]

/-- The operands of a concatenation begin with an expression that is none, and make it up from the
left. -/
theorem foldl_concatParts (e : Expr) :
    ∃ first rest, e.concatParts = first :: rest ∧ (∀ l r, first ≠ .concat l r) ∧
      rest.foldl .concat first = e := by
  induction e with
  | concat l r ihl _ =>
    obtain ⟨first, rest, parts, leftmost, rebuilt⟩ := ihl
    refine ⟨first, rest ++ [r], by rw [concatParts_concat, parts, List.cons_append], leftmost, ?_⟩
    rw [List.foldl_append, rebuilt]
    rfl
  | _ => exact ⟨_, [], rfl, nofun, rfl⟩

/-- The branches stand in front of what follows them. -/
theorem alternativesOnto_eq (e : Expr) (rest : List Expr) :
    e.alternativesOnto rest = e.alternatives ++ rest := by
  induction e generalizing rest with
  | alternate l r ihl _ => simp [alternatives, alternativesOnto, ihl (_ :: _)]
  | _ => rfl

/-- The right branch of an alternation is its last one. -/
theorem alternatives_alternate (l r : Expr) :
    (Expr.alternate l r).alternatives = l.alternatives ++ [r] :=
  alternativesOnto_eq l [r]

theorem alternatives_ne_nil (e : Expr) : e.alternatives ≠ [] := by
  cases e with
  | alternate l r => simp [alternatives_alternate]
  | _ => exact List.cons_ne_nil _ _

/-- The branches of an alternation begin with an expression that is none, and make it up from the
left. -/
theorem foldl_alternatives (e : Expr) :
    ∃ first rest, e.alternatives = first :: rest ∧ (∀ l r, first ≠ .alternate l r) ∧
      rest.foldl .alternate first = e := by
  induction e with
  | alternate l r ihl _ =>
    obtain ⟨first, rest, parts, leftmost, rebuilt⟩ := ihl
    refine ⟨first, rest ++ [r], by rw [alternatives_alternate, parts, List.cons_append], leftmost,
      ?_⟩
    rw [List.foldl_append, rebuilt]
    rfl
  | _ => exact ⟨_, [], rfl, nofun, rfl⟩

/-- Induction that takes an alternation apart into all its branches at once, and any other
expression into its operands. -/
@[elab_as_elim]
theorem branchInduction {motive : Expr → Prop} (empty : motive .empty)
    (atom : ∀ a, motive (.atom a))
    (concat : ∀ l r, motive l → motive r → motive (.concat l r))
    (alternate : ∀ l r, (∀ e ∈ (Expr.alternate l r).alternatives, motive e) →
      motive (.alternate l r))
    (repeated : ∀ op e, motive e → motive (.repeated op e))
    (counted : ∀ e b, motive e → motive (.counted e b)) (e : Expr) : motive e := by
  -- An expression that is no alternation is its own single branch.
  suffices whole : motive e ∧ ∀ branch ∈ e.alternatives, motive branch from whole.1
  have single {e : Expr} (alone : e.alternatives = [e]) (holds : motive e) :
      motive e ∧ ∀ branch ∈ e.alternatives, motive branch := by
    refine ⟨holds, fun branch member => ?_⟩
    rw [alone, List.mem_singleton] at member
    exact member ▸ holds
  induction e with
  | empty => exact single rfl empty
  | atom a => exact single rfl (atom a)
  | concat l r ihl ihr => exact single rfl (concat l r ihl.1 ihr.1)
  | alternate l r ihl ihr =>
    have branches : ∀ branch ∈ (Expr.alternate l r).alternatives, motive branch := by
      intro branch member
      rw [alternatives_alternate, List.mem_append, List.mem_singleton] at member
      rcases member with left | rfl
      · exact ihl.2 branch left
      · exact ihr.1
    exact ⟨alternate l r branches, branches⟩
  | repeated op e ih => exact single rfl (repeated op e ih.1)
  | counted e b ih => exact single rfl (counted e b ih.1)

end FullMatch.Expr
