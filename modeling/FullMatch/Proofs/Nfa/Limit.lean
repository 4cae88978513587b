import FullMatch.Proofs.Nfa.Cost

/-!
# Limits on automata

An expression is refused an automaton only if the automaton that it would have without limits has
more states or more labelled edges than they allow (`exceeded_of_ofExpr_eq_error`). That the exit of
an automaton is the one state that accepts is never in the way (`sealExit_ofBlock`).
-/

namespace FullMatch.Nfa

/-- How many characters lead on from a state, counted for each edge. -/
def State.labelCount (s : State) : Nat :=
  (s.edges.map fun e => e.label.size).sum

/-- How many characters lead on from states, counted for each edge. -/
def labelSum (states : List State) : Nat :=
  (states.map State.labelCount).sum

/-- How many labelled edges an automaton has, one for each character of a label. -/
def labelCount (nfa : Nfa) : Nat :=
  labelSum nfa.states.toList

/-- Whether an automaton has more states or labelled edges than allowed. -/
def Limits.ExceededBy (limits : Limits) (nfa : Nfa) : Prop :=
  limits.states < nfa.states.size ∨ limits.transitions < nfa.labelCount

section Labels

variable {x : Exit} {base : Nat} {states states' : List State}

@[simp] theorem labelCount_ofSilent (silent : StateSet) : (State.ofSilent silent).labelCount = 0 :=
  rfl

@[simp] theorem labelCount_exit (x : Exit) : x.state.labelCount = 0 := rfl

@[simp] theorem labelCount_ofEdge (label : CharSet) (target : Nat) :
    (State.ofEdge label target).labelCount = label.size :=
  Nat.add_zero _

@[simp] theorem labelSum_nil : labelSum [] = 0 := rfl

@[simp] theorem labelSum_cons (s : State) (states : List State) :
    labelSum (s :: states) = s.labelCount + labelSum states :=
  List.sum_cons

@[simp] theorem labelSum_append :
    labelSum (states ++ states') = labelSum states + labelSum states' := by
  rw [labelSum, List.map_append, List.sum_append]
  rfl

theorem labelSum_sideBySide {es : List Expr}
    (each : ∀ e ∈ es, ∀ base x, labelSum ((block e).states base x) = e.labels) (base : Nat) :
    labelSum (Block.sideBySide x base (es.map block)) = (es.map Expr.labels).sum := by
  induction es generalizing base with
  | nil => rfl
  | cons e es ih =>
    obtain ⟨first, rest⟩ := List.forall_mem_cons.mp each
    rw [List.map_cons, Block.sideBySide, labelSum_append, first, ih rest, List.map_cons,
      List.sum_cons]

theorem labelSum_copies {b : Block} {bounds : Bounds} {labels : Nat}
    (once : ∀ base x, labelSum (b.states base x) = labels) (base n : Nat) :
    labelSum ((List.range n).flatMap (b.copyStates bounds base)) = n * labels := by
  induction n with
  | zero => simp
  | succ n ih =>
    rw [List.range_succ, List.flatMap_append, labelSum_append, ih, List.flatMap_singleton,
      Block.copyStates, once, Nat.add_one_mul]

/-- Wherever it is laid out, the block of an expression has the labelled edges of the expression. -/
theorem labelSum_block (e : Expr) (base : Nat) (x : Exit) :
    labelSum ((block e).states base x) = e.labels := by
  induction e using Expr.branchInduction generalizing base x with
  | empty => rfl
  | atom a =>
    show labelSum [State.ofEdge a.chars (base + 1), x.state] = a.chars.size
    simp
  | concat l r left right =>
    rw [block_concat, Block.append, labelSum_append, left, right, Expr.labels]
  | alternate l r branches =>
    rw [block_alternate, Block.fork_states, labelSum_cons, labelSum_cons, labelCount_ofSilent,
      labelCount_exit, labelSum_sideBySide branches, ← Expr.labels_eq_sum]
    omega
  | repeated op e operand =>
    show labelSum ((block e).states base _ ++ [.ofSilent _, x.state]) = e.labels
    rw [labelSum_append, operand]
    simp
  | counted e b operand =>
    show labelSum ((Block.counted b (block e)).states base x) = b.copies * e.labels
    rw [Block.counted_states, labelSum_cons, labelSum_cons, labelCount_ofSilent, labelCount_exit,
      labelSum_copies operand]
    omega

theorem labelCount_ofBlock (e : Expr) : (ofBlock e).labelCount = e.labels :=
  labelSum_block e 0 .final

end Labels

/-- The exit of the automaton of an expression is the one state that accepts. -/
theorem acceptingCount_ofBlock (e : Expr) : (ofBlock e).acceptingCount = 1 := by
  obtain ⟨before, after, states, -, -, inside⟩ := (block_proper e).laid_out 0
  have others : (before ++ after).countP State.accepting = 0 := by
    rw [List.countP_eq_zero]
    intro s member
    rw [(inside s member).rejects]
    exact Bool.false_ne_true
  rw [List.countP_append] at others
  rw [acceptingCount, ofBlock, List.countP_toArray, states, List.countP_append,
    List.countP_cons_of_pos rfl]
  omega

theorem sealExit_ofBlock (e : Expr) : sealExit (ofBlock e) = .ok (ofBlock e) := by
  have exit : ((ofBlock e).state (ofBlock e).accept).accepting = true :=
    (ofBlock_accepting_iff e _).mpr rfl
  rw [sealExit, acceptingCount_ofBlock, exit]
  rfl

variable {limits : Limits} {e : Expr} {nfa : Nfa} {fault : Fault}

/-- The automaton within the limits is the one laid out without any, and it is there just when its
states and its labelled edges fit. -/
theorem ofExpr_eq_ok_iff :
    ofExpr limits e = .ok nfa ↔
      nfa = ofBlock e ∧ (block e).size ≤ limits.states ∧ e.labels ≤ limits.transitions := by
  rw [ofExpr]
  cases charged : charge limits e .zero with
  | ok u =>
    obtain ⟨rfl, fits⟩ := charge_zero_eq_ok_iff.mp charged
    dsimp only
    rw [sealExit_ofBlock, Except.ok.injEq, eq_comm]
    exact ⟨fun same => ⟨same, fits⟩, And.left⟩
  | error fault =>
    dsimp only
    constructor
    · intro failed
      cases failed
    · rintro ⟨-, fits⟩
      cases charged.symm.trans (charge_zero_eq_ok_iff.mpr ⟨rfl, fits⟩)

/-- An expression is refused an automaton only if the automaton exceeds the limits. -/
theorem exceeded_of_ofExpr_eq_error (failed : ofExpr limits e = .error fault) :
    limits.ExceededBy (ofBlock e) := by
  refine Classical.byContradiction fun fits => ?_
  rw [Limits.ExceededBy, not_or, Nat.not_lt, Nat.not_lt, size_ofBlock, labelCount_ofBlock] at fits
  cases failed.symm.trans (ofExpr_eq_ok_iff.mpr ⟨rfl, fits⟩)

end FullMatch.Nfa
