import FullMatch.Expr.Spine

/-!
# Normal forms

Pattern text does not show how concatenations and alternations are nested, nor operands that are
empty. `Expr.normal` is what is left of an expression without them: nested concatenations and nested
alternations are lists again, put together from the left, and empty operands are dropped. Trees that
already have this shape are their own normal form (`Expr.normal_eq_self`).
-/

namespace FullMatch.Expr

/-- The operands of all concatenations directly nested in one another, in pattern order. -/
def operands : Expr → List Expr
  | .concat l r => l.operands ++ r.operands
  | e => [e]

/-- The operands that are not empty. -/
def factors (e : Expr) : List Expr :=
  e.operands.filter (· ≠ .empty)

/-- The branches of all alternations directly nested in one another, in pattern order. -/
def branches : Expr → List Expr
  | .alternate l r => l.branches ++ r.branches
  | e => [e]

/-- Alternation of the expressions of a list, from the left. -/
def alternation : List Expr → Expr
  | [] => .empty
  | e :: es => choice e es

theorem sizeOf_le_of_mem_operands {e e' : Expr} (operand : e' ∈ e.operands) :
    sizeOf e' ≤ sizeOf e := by
  induction e with
  | concat l r ihl ihr =>
    rw [concat.sizeOf_spec]
    rcases List.mem_append.mp operand with left | right
    · exact Nat.le_trans (ihl left) (by omega)
    · exact Nat.le_trans (ihr right) (by omega)
  | _ =>
    obtain rfl := List.mem_singleton.mp operand
    exact Nat.le_refl _

theorem sizeOf_le_of_mem_branches {e e' : Expr} (branch : e' ∈ e.branches) :
    sizeOf e' ≤ sizeOf e := by
  induction e with
  | alternate l r ihl ihr =>
    rw [alternate.sizeOf_spec]
    rcases List.mem_append.mp branch with left | right
    · exact Nat.le_trans (ihl left) (by omega)
    · exact Nat.le_trans (ihr right) (by omega)
  | _ =>
    obtain rfl := List.mem_singleton.mp branch
    exact Nat.le_refl _

theorem sizeOf_lt_of_mem_factors {l r e : Expr} (factor : e ∈ (Expr.concat l r).factors) :
    sizeOf e < sizeOf (Expr.concat l r) := by
  rw [concat.sizeOf_spec]
  rcases List.mem_append.mp (List.mem_filter.mp factor).1 with left | right
  · exact Nat.lt_of_le_of_lt (sizeOf_le_of_mem_operands left) (by omega)
  · exact Nat.lt_of_le_of_lt (sizeOf_le_of_mem_operands right) (by omega)

theorem sizeOf_lt_of_mem_branches {l r e : Expr} (branch : e ∈ (Expr.alternate l r).branches) :
    sizeOf e < sizeOf (Expr.alternate l r) := by
  rw [alternate.sizeOf_spec]
  rcases List.mem_append.mp branch with left | right
  · exact Nat.lt_of_le_of_lt (sizeOf_le_of_mem_branches left) (by omega)
  · exact Nat.lt_of_le_of_lt (sizeOf_le_of_mem_branches right) (by omega)

/-- The expression with its concatenations and alternations flat and without empty operands. -/
def normal : Expr → Expr
  | .empty => .empty
  | .atom a => .atom a
  | .concat l r => sequence ((Expr.concat l r).factors.attach.map fun ⟨e, _⟩ => e.normal)
  | .alternate l r => alternation ((Expr.alternate l r).branches.attach.map fun ⟨e, _⟩ => e.normal)
  | .repeated op e => .repeated op e.normal
  | .counted e b => .counted e.normal b
termination_by e => sizeOf e
decreasing_by
  · exact sizeOf_lt_of_mem_factors (by assumption)
  · exact sizeOf_lt_of_mem_branches ‹_›
  · rw [repeated.sizeOf_spec]; omega
  · rw [counted.sizeOf_spec]; omega

@[simp] theorem normal_empty : normal .empty = .empty := by rw [normal]

@[simp] theorem normal_atom (a : Atom) : normal (.atom a) = .atom a := by rw [normal]

@[simp] theorem normal_repeated (op : RepeatOp) (e : Expr) :
    normal (.repeated op e) = .repeated op e.normal := by rw [normal]

@[simp] theorem normal_counted (e : Expr) (b : Bounds) :
    normal (.counted e b) = .counted e.normal b := by rw [normal]

theorem factors_concat (l r : Expr) : (Expr.concat l r).factors = l.factors ++ r.factors :=
  List.filter_append ..

theorem branches_ne_nil (e : Expr) : e.branches ≠ [] := by
  induction e with
  | alternate l r ihl _ => simp [branches, ihl]
  | _ => exact List.cons_ne_nil _ _

/-- The normal form is put together from the operands that are not empty. -/
theorem normal_eq_sequence (e : Expr) : e.normal = sequence (e.factors.map normal) := by
  cases e with
  | empty => rw [normal]; rfl
  | concat l r => simp [normal]
  | _ => rfl

/-- The normal form is put together from the branches. -/
theorem normal_eq_alternation (e : Expr) : e.normal = alternation (e.branches.map normal) := by
  cases e with
  | alternate l r => simp [normal]
  | _ => rfl

theorem normal_concat (l r : Expr) :
    normal (.concat l r) = sequence ((l.factors ++ r.factors).map normal) := by
  rw [normal_eq_sequence, factors_concat]

theorem normal_alternate (l r : Expr) :
    normal (.alternate l r) = alternation ((l.branches ++ r.branches).map normal) :=
  normal_eq_alternation _

theorem alternation_append {es : List Expr} (nonempty : es ≠ []) (e : Expr) :
    alternation (es ++ [e]) = .alternate (alternation es) e := by
  cases es with
  | nil => exact absurd rfl nonempty
  | cons first es => simp [alternation, choice]

/-- Concatenations lean to the left and have no empty operand; alternations lean to the left. -/
def Canonical : Expr → Prop
  | .empty | .atom _ => True
  | .concat l r =>
    (l ≠ .empty ∧ r ≠ .empty ∧ ∀ l' r', r ≠ .concat l' r') ∧ l.Canonical ∧ r.Canonical
  | .alternate l r => (∀ l' r', r ≠ .alternate l' r') ∧ l.Canonical ∧ r.Canonical
  | .repeated _ e | .counted e _ => e.Canonical

/-- Nothing is to be done to an expression that is canonical. -/
theorem normal_eq_self {e : Expr} (canonical : e.Canonical) : e.normal = e := by
  induction e with
  | empty => exact normal_empty
  | atom a => exact normal_atom a
  | concat l r ihl ihr =>
    obtain ⟨⟨leftFull, rightFull, rightSingle⟩, left, right⟩ := canonical
    have single : r.factors = [r] := by
      cases r with
      | empty => exact absurd rfl rightFull
      | concat l' r' => exact absurd rfl (rightSingle l' r')
      | _ => rfl
    have full : l.factors.map normal ≠ [] := by
      intro nothing
      apply leftFull
      rw [← ihl left, normal_eq_sequence, nothing]
      rfl
    rw [normal_concat, single, List.map_append, List.map_singleton, ihr right,
      sequence_append _ _ full, ← normal_eq_sequence, ihl left]
  | alternate l r ihl ihr =>
    obtain ⟨rightSingle, left, right⟩ := canonical
    have single : r.branches = [r] := by
      cases r with
      | alternate l' r' => exact absurd rfl (rightSingle l' r')
      | _ => rfl
    have full : l.branches.map normal ≠ [] := by
      simp [branches_ne_nil]
    rw [normal_alternate, single, List.map_append, List.map_singleton, ihr right,
      alternation_append full, ← normal_eq_alternation, ihl left]
  | repeated op e ih => rw [normal, ih canonical]
  | counted e b ih => rw [normal, ih canonical]

end FullMatch.Expr
