import FullMatch.Expr.Spine

/-!
# Folding expressions

`Expr.fold` computes a value bottom up and shows each concatenation and each alternation as the
list of its operands. A left spine of any length is one list and is walked in constant stack
space, so a summary of an expression only has to say what it does with lists. Where it treats lists
by a binary operation from the left, it agrees with plain recursion on the binary tree
(`fold_concat_eq`, `fold_alternate_eq`).
-/

namespace FullMatch

/-- What a fold does at each kind of expression. -/
structure Expr.Algebra (α : Type) where
  empty : α
  atom : Atom → α
  /-- The operands of a concatenation, at least two, in pattern order. -/
  sequence : List α → α
  /-- The branches of an alternation, at least two, in pattern order. -/
  choice : List α → α
  repeated : RepeatOp → α → α
  counted : Bounds → α → α

namespace Expr

/-- The values to the right of the expression being folded, when it is part of a spine. -/
inductive Spine (α : Type) where
  | none
  | operands (later : List α)
  | branches (later : List α)

/-- The value of the spine whose leftmost part has the value `x`. -/
def Spine.close {α : Type} (alg : Algebra α) (x : α) : Spine α → α
  | .none => x
  | .operands later => alg.sequence (x :: later)
  | .branches later => alg.choice (x :: later)

/-- The value of the spine that ends on the left with the given expression. -/
def foldSpine {α : Type} (alg : Algebra α) : Expr → Spine α → α
  | .concat l r, .operands later => foldSpine alg l (.operands (foldSpine alg r .none :: later))
  | .concat l r, .none => foldSpine alg l (.operands [foldSpine alg r .none])
  | .concat l r, .branches later =>
    alg.choice (foldSpine alg l (.operands [foldSpine alg r .none]) :: later)
  | .alternate l r, .branches later =>
    foldSpine alg l (.branches (foldSpine alg r .none :: later))
  | .alternate l r, .none => foldSpine alg l (.branches [foldSpine alg r .none])
  | .alternate l r, .operands later =>
    alg.sequence (foldSpine alg l (.branches [foldSpine alg r .none]) :: later)
  | .empty, spine => spine.close alg alg.empty
  | .atom a, spine => spine.close alg (alg.atom a)
  | .repeated op e, spine => spine.close alg (alg.repeated op (foldSpine alg e .none))
  | .counted e b, spine => spine.close alg (alg.counted b (foldSpine alg e .none))

/-- The value of an expression. -/
def fold {α : Type} (alg : Algebra α) (e : Expr) : α :=
  foldSpine alg e .none

section Equations

variable {α : Type} (alg : Algebra α)

@[simp] theorem fold_empty : fold alg .empty = alg.empty := rfl

@[simp] theorem fold_atom (a : Atom) : fold alg (.atom a) = alg.atom a := rfl

@[simp] theorem fold_repeated (op : RepeatOp) (e : Expr) :
    fold alg (.repeated op e) = alg.repeated op (fold alg e) := rfl

@[simp] theorem fold_counted (e : Expr) (b : Bounds) :
    fold alg (.counted e b) = alg.counted b (fold alg e) := rfl

/-- Whatever stands to the right of an operand joins it in one list. -/
theorem foldSpine_operands (e : Expr) (later : List Expr) :
    foldSpine alg e (.operands (later.map (fold alg))) =
      alg.sequence ((e.concatPartsOnto later).map (fold alg)) := by
  induction e generalizing later with
  | concat l r ihl _ => exact ihl (r :: later)
  | _ => rfl

/-- Whatever stands to the right of a branch joins it in one list. -/
theorem foldSpine_branches (e : Expr) (later : List Expr) :
    foldSpine alg e (.branches (later.map (fold alg))) =
      alg.choice ((e.alternativesOnto later).map (fold alg)) := by
  induction e generalizing later with
  | alternate l r ihl _ => exact ihl (r :: later)
  | _ => rfl

/-- A concatenation is folded over its operands. -/
theorem fold_concat (l r : Expr) :
    fold alg (.concat l r) = alg.sequence ((concatParts (.concat l r)).map (fold alg)) :=
  foldSpine_operands alg l [r]

/-- An alternation is folded over its branches. -/
theorem fold_alternate (l r : Expr) :
    fold alg (.alternate l r) = alg.choice ((alternatives (.alternate l r)).map (fold alg)) :=
  foldSpine_branches alg l [r]

variable {alg}

/-- If sequences grow at the right by `op`, a concatenation is folded by `op`. -/
theorem fold_concat_eq {op : α → α → α} (single : ∀ x, alg.sequence [x] = x)
    (grow : ∀ xs x, xs ≠ [] → alg.sequence (xs ++ [x]) = op (alg.sequence xs) x) (l r : Expr) :
    fold alg (.concat l r) = op (fold alg l) (fold alg r) := by
  have whole (e : Expr) : alg.sequence (e.concatParts.map (fold alg)) = fold alg e := by
    cases e with
    | concat l r => exact (fold_concat alg l r).symm
    | _ => exact single _
  rw [fold_concat, concatParts_concat, List.map_append, List.map_singleton,
    grow _ _ (by simp [concatParts_ne_nil]), whole]

/-- If choices grow at the right by `op`, an alternation is folded by `op`. -/
theorem fold_alternate_eq {op : α → α → α} (single : ∀ x, alg.choice [x] = x)
    (grow : ∀ xs x, xs ≠ [] → alg.choice (xs ++ [x]) = op (alg.choice xs) x) (l r : Expr) :
    fold alg (.alternate l r) = op (fold alg l) (fold alg r) := by
  have whole (e : Expr) : alg.choice (e.alternatives.map (fold alg)) = fold alg e := by
    cases e with
    | alternate l r => exact (fold_alternate alg l r).symm
    | _ => exact single _
  rw [fold_alternate, alternatives_alternate, List.map_append, List.map_singleton,
    grow _ _ (by simp [alternatives_ne_nil]), whole]

end Equations

end Expr

end FullMatch
