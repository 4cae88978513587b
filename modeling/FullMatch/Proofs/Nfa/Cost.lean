import FullMatch.Proofs.Nfa.Construction

/-!
# What an automaton costs

Counting an expression against the limits succeeds exactly when the states and the labelled edges of
its automaton fit, and then adds exactly these to the usage (`charge_costs`). The states are those
of the block; the labelled edges are counted by `Expr.labels`.
-/

namespace FullMatch

/-- How many labelled edges the automaton of an expression has, one for each character of a
label. -/
def Expr.labels : Expr → Nat
  | .empty => 0
  | .atom a => a.chars.size
  | .concat l r => l.labels + r.labels
  | .alternate l r => l.labels + r.labels
  | .repeated _ e => e.labels
  | .counted e b => b.copies * e.labels

/-- The labelled edges of an alternation are those of its branches. -/
theorem Expr.labels_eq_sum (e : Expr) : e.labels = (e.alternatives.map labels).sum := by
  induction e with
  | alternate l r ihl _ => simp [labels, alternatives_alternate, ihl]
  | _ => simp [alternatives, alternativesOnto]

namespace Nfa

namespace Usage

/-- The usage with more states and labelled edges. -/
def plus (u : Usage) (states labels : Nat) : Usage :=
  ⟨u.states + states, u.transitions + labels⟩

/-- Whether a usage is within the limits. -/
def Within (u : Usage) (limits : Limits) : Prop :=
  u.states ≤ limits.states ∧ u.transitions ≤ limits.transitions

theorem plus_plus (u : Usage) (n m n' m' : Nat) :
    (u.plus n m).plus n' m' = u.plus (n + n') (m + m') := by
  rw [plus, plus, plus, Nat.add_assoc, Nat.add_assoc]

theorem Within.of_plus {u : Usage} {limits : Limits} {n m : Nat}
    (fits : (u.plus n m).Within limits) : u.Within limits :=
  ⟨Nat.le_of_add_right_le fits.1, Nat.le_of_add_right_le fits.2⟩

end Usage

/-- From within the limits, a charge adds `states` and `labels` to the usage if they fit, and fails
if they do not. -/
def Charge.Costs (limits : Limits) (f : Charge) (states labels : Nat) : Prop :=
  ∀ u u' : Usage, u.Within limits →
    (f u = .ok u' ↔ u' = u.plus states labels ∧ u'.Within limits)

namespace Charge

variable {limits : Limits} {f g : Charge} {n m n' m' : Nat}

/-- A charge that only looks whether what it adds fits. -/
theorem costs_of_check
    (fits : ∀ u : Usage, (u.plus n m).Within limits → f u = .ok (u.plus n m))
    (crosses : ∀ u u' : Usage, u.Within limits → ¬(u.plus n m).Within limits → f u ≠ .ok u') :
    Costs limits f n m := by
  intro u u' within
  by_cases room : (u.plus n m).Within limits
  · rw [fits u room, Except.ok.injEq]
    constructor
    · rintro rfl
      exact ⟨rfl, room⟩
    · exact fun charged => charged.1.symm
  · constructor
    · intro charged
      exact absurd charged (crosses u u' within room)
    · rintro ⟨rfl, room'⟩
      exact absurd room' room

theorem costs_pair (limits : Limits) : Costs limits (Usage.pair limits) 2 0 := by
  apply costs_of_check
  · intro u room
    exact if_pos room.1
  · intro u u' within crossed
    have full : ¬u.states + 2 ≤ limits.states := fun room => crossed ⟨room, within.2⟩
    rw [Usage.pair, if_neg full]
    nofun

theorem costs_edges (limits : Limits) (k : Nat) : Costs limits (Usage.edges limits k) 0 k := by
  apply costs_of_check
  · intro u room
    exact if_pos room.2
  · intro u u' within crossed
    have full : ¬u.transitions + k ≤ limits.transitions := fun room => crossed ⟨within.1, room⟩
    rw [Usage.edges, if_neg full]
    nofun

theorem costs_nothing (limits : Limits) : Costs limits .ok 0 0 := by
  apply costs_of_check
  · intro u _
    rfl
  · intro u u' within crossed
    exact absurd within crossed

theorem andThen_eq_ok {u u' : Usage} :
    f.andThen g u = .ok u' ↔ ∃ between, f u = .ok between ∧ g between = .ok u' := by
  rw [andThen]
  cases f u with
  | ok between => simp
  | error fault => simp

/-- The costs of two charges add up. -/
theorem Costs.andThen (first : Costs limits f n m) (second : Costs limits g n' m') :
    Costs limits (f.andThen g) (n + n') (m + m') := by
  intro u u' within
  rw [andThen_eq_ok, ← Usage.plus_plus]
  constructor
  · rintro ⟨between, charged, charged'⟩
    obtain ⟨rfl, within'⟩ := (first u between within).mp charged
    exact (second _ u' within').mp charged'
  · rintro ⟨rfl, fits⟩
    have within' : (u.plus n m).Within limits := fits.of_plus
    exact ⟨_, (first u _ within).mpr ⟨rfl, within'⟩, (second _ _ within').mpr ⟨rfl, fits⟩⟩

/-- Charging for the branches of a list costs what they cost together. -/
theorem costs_all {es : List Expr} {charges : Expr → Charge} {states labels : Expr → Nat}
    (each : ∀ e ∈ es, Costs limits (charges e) (states e) (labels e)) :
    Costs limits (all (es.map charges)) (es.map states).sum (es.map labels).sum := by
  induction es with
  | nil => exact costs_nothing limits
  | cons e es ih =>
    have rest := ih fun e' member => each e' (List.mem_cons_of_mem e member)
    exact (each e List.mem_cons_self).andThen rest

theorem Costs.times (once : Costs limits f n m) (k : Nat) :
    Costs limits (f.times k) (k * n) (k * m) := by
  induction k with
  | zero =>
    rw [Nat.zero_mul, Nat.zero_mul]
    exact costs_nothing limits
  | succ k ih =>
    rw [Nat.add_one_mul, Nat.add_one_mul, Nat.add_comm (k * n), Nat.add_comm (k * m)]
    exact once.andThen ih

end Charge

variable {limits : Limits} {e : Expr}

theorem charge_alternate (limits : Limits) (l r : Expr) :
    charge limits (.alternate l r) = (Usage.pair limits).andThen
      (Charge.all ((Expr.alternate l r).alternatives.map (charge limits))) :=
  Expr.fold_alternate (Charge.algebra limits) l r

/-- The size of the block of an alternation. -/
theorem size_block_alternate (l r : Expr) :
    (block (.alternate l r)).size =
      2 + ((Expr.alternate l r).alternatives.map fun e => (block e).size).sum := by
  rw [block_alternate, Block.fork, Block.totalSize_eq, List.map_map]
  rfl

/-- An expression costs the states of its block and its labelled edges. -/
theorem charge_costs (limits : Limits) (e : Expr) :
    (charge limits e).Costs limits (block e).size e.labels := by
  induction e using Expr.branchInduction with
  | empty => exact Charge.costs_pair limits
  | atom a =>
    have costs := (Charge.costs_pair limits).andThen (Charge.costs_edges limits a.chars.size)
    rwa [Nat.zero_add] at costs
  | concat l r left right =>
    rw [charge_concat, block_concat]
    exact left.andThen right
  | alternate l r branches =>
    have costs := (Charge.costs_pair limits).andThen (Charge.costs_all branches)
    rwa [Nat.zero_add, ← Expr.labels_eq_sum, ← size_block_alternate, ← charge_alternate] at costs
  | repeated op e operand => exact operand.andThen (Charge.costs_pair limits)
  | counted e b operand =>
    have costs := (Charge.costs_pair limits).andThen (operand.times b.copies)
    rwa [Nat.zero_add] at costs

/-- Counting from nothing succeeds just when the states and the labelled edges fit. -/
theorem charge_zero_eq_ok_iff {u : Usage} :
    charge limits e .zero = .ok u ↔ u = ⟨(block e).size, e.labels⟩ ∧ u.Within limits := by
  have within : Usage.zero.Within limits := ⟨Nat.zero_le _, Nat.zero_le _⟩
  rw [charge_costs limits e .zero u within, Usage.plus, Usage.zero, Nat.zero_add, Nat.zero_add]

/-- An automaton that is built has no more states than the limit. -/
theorem size_block_le {nfa : Nfa} (built : ofExpr limits e = .ok nfa) :
    (block e).size ≤ limits.states := by
  rw [ofExpr] at built
  split at built
  · next u charged =>
    obtain ⟨rfl, fits, _⟩ := charge_zero_eq_ok_iff.mp charged
    exact fits
  · cases built

end Nfa

end FullMatch
