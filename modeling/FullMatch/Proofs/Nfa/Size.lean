import FullMatch.Proofs.Listing
import FullMatch.Proofs.Nfa.Limit
import FullMatch.Proofs.Nfa.Thompson
import FullMatch.Regex

/-!
# Sizes of automata

How many states the automaton of an expression has follows from the structure of the expression
(`Expr.stateCount`), and so does how many labelled edges it has (`Expr.labels`). The limits are
exact: the automaton is built just when neither number crosses its limit, it is the same whatever
the limits are, and when it is not built the report blames a limit that is crossed
(`ofExpr_within_limits`).
-/

namespace FullMatch

namespace Expr

/-- How many states an automaton takes, from those that the parts of the expression take. -/
def stateAlgebra : Expr.Algebra Nat where
  empty := 2
  atom _ := 2
  sequence := List.sum
  choice branches := 2 + branches.sum
  repeated _ n := 2 + n
  counted b n := 2 + b.copies * n

/-- How many states the automaton of an expression has. -/
def stateCount (e : Expr) : Nat :=
  e.fold stateAlgebra

/-- A concatenation has the states of its operands and no others. -/
theorem stateCount_concat (l r : Expr) :
    (Expr.concat l r).stateCount = l.stateCount + r.stateCount :=
  fold_concat_eq (fun _ => List.sum_singleton) (fun ns n _ => by simp [stateAlgebra]) l r

/-- An alternation has the states of its branches and one pair more. -/
theorem stateCount_alternate (l r : Expr) :
    (Expr.alternate l r).stateCount =
      2 + ((Expr.alternate l r).alternatives.map stateCount).sum :=
  fold_alternate stateAlgebra l r

end Expr

namespace Nfa

variable {limits : Limits} {e : Expr} {nfa : Nfa} {fault : Fault}

/-- The block of an expression has the states that the expression asks for. -/
theorem size_block (e : Expr) : (block e).size = e.stateCount := by
  induction e using Expr.branchInduction with
  | empty => rfl
  | atom a => rfl
  | concat l r left right =>
    rw [block_concat, Expr.stateCount_concat, ← left, ← right]
    rfl
  | alternate l r branches =>
    rw [size_block_alternate, Expr.stateCount_alternate, List.map_congr_left branches]
  | repeated op e operand =>
    show (block e).size + 2 = 2 + e.stateCount
    rw [operand, Nat.add_comm]
  | counted e b operand =>
    show 2 + b.copies * (block e).size = 2 + b.copies * e.stateCount
    rw [operand]

section Blame

/-- The fault names a limit that the usage crosses. -/
def Usage.Crosses (u : Usage) (limits : Limits) (fault : Fault) : Prop :=
  fault = .tooManyStates limits.states ∧ limits.states < u.states ∨
    fault = .tooManyTransitions limits.transitions ∧ limits.transitions < u.transitions

/-- Asking for more does not bring a usage back within a limit. -/
theorem Usage.Crosses.plus {u : Usage} (crossed : u.Crosses limits fault) (n m : Nat) :
    (u.plus n m).Crosses limits fault := by
  rcases crossed with ⟨rfl, states⟩ | ⟨rfl, transitions⟩
  · exact .inl ⟨rfl, Nat.lt_add_right n states⟩
  · exact .inr ⟨rfl, Nat.lt_add_right m transitions⟩

/-- From within the limits, a charge fails only with a fault that names a limit crossed by adding
`states` and `labels` to the usage. -/
def Charge.Blames (limits : Limits) (f : Charge) (states labels : Nat) : Prop :=
  ∀ (u : Usage) (fault : Fault), u.Within limits → f u = .error fault →
    (u.plus states labels).Crosses limits fault

namespace Charge

variable {f g : Charge} {n m n' m' : Nat}

theorem blames_pair (limits : Limits) : Blames limits (Usage.pair limits) 2 0 := by
  intro u fault within failed
  rw [Usage.pair] at failed
  split at failed
  · cases failed
  · next full =>
    obtain rfl := Except.error.inj failed
    exact .inl ⟨rfl, Nat.lt_of_not_le full⟩

theorem blames_edges (limits : Limits) (k : Nat) : Blames limits (Usage.edges limits k) 0 k := by
  intro u fault within failed
  rw [Usage.edges] at failed
  split at failed
  · cases failed
  · next full =>
    obtain rfl := Except.error.inj failed
    exact .inr ⟨rfl, Nat.lt_of_not_le full⟩

theorem blames_nothing (limits : Limits) : Blames limits .ok 0 0 := by
  intro u fault within failed
  cases failed

/-- The second of two charges starts from what the first one has added. -/
theorem Blames.andThen (first : Blames limits f n m) (costs : Costs limits f n m)
    (second : Blames limits g n' m') : Blames limits (f.andThen g) (n + n') (m + m') := by
  intro u fault within failed
  rw [← Usage.plus_plus]
  rw [Charge.andThen] at failed
  split at failed
  · next between charged =>
    obtain ⟨rfl, within'⟩ := (costs u between within).mp charged
    exact second _ fault within' failed
  · next charged =>
    obtain rfl := Except.error.inj failed
    exact (first u _ within charged).plus n' m'

theorem blames_all {es : List Expr} {charges : Expr → Charge} {states labels : Expr → Nat}
    (each : ∀ e ∈ es, Blames limits (charges e) (states e) (labels e))
    (costs : ∀ e ∈ es, Costs limits (charges e) (states e) (labels e)) :
    Blames limits (all (es.map charges)) (es.map states).sum (es.map labels).sum := by
  induction es with
  | nil => exact blames_nothing limits
  | cons e es ih =>
    obtain ⟨first, later⟩ := List.forall_mem_cons.mp each
    obtain ⟨cost, costs⟩ := List.forall_mem_cons.mp costs
    exact first.andThen cost (ih later costs)

theorem Blames.times (once : Blames limits f n m) (costs : Costs limits f n m) (k : Nat) :
    Blames limits (f.times k) (k * n) (k * m) := by
  induction k with
  | zero =>
    rw [Nat.zero_mul, Nat.zero_mul]
    exact blames_nothing limits
  | succ k ih =>
    rw [Nat.add_one_mul, Nat.add_one_mul, Nat.add_comm (k * n), Nat.add_comm (k * m)]
    exact once.andThen costs ih

end Charge

/-- Counting an expression fails only over a limit that its automaton crosses. -/
theorem charge_blames (limits : Limits) (e : Expr) :
    (charge limits e).Blames limits (block e).size e.labels := by
  induction e using Expr.branchInduction with
  | empty => exact Charge.blames_pair limits
  | atom a =>
    have blames := (Charge.blames_pair limits).andThen (Charge.costs_pair limits)
      (Charge.blames_edges limits a.chars.size)
    rwa [Nat.zero_add] at blames
  | concat l r left right =>
    rw [charge_concat, block_concat]
    exact left.andThen (charge_costs limits l) right
  | alternate l r branches =>
    have blames := (Charge.blames_pair limits).andThen (Charge.costs_pair limits)
      (Charge.blames_all branches fun e _ => charge_costs limits e)
    rwa [Nat.zero_add, ← Expr.labels_eq_sum, ← size_block_alternate, ← charge_alternate] at blames
  | repeated op e operand =>
    exact operand.andThen (charge_costs limits e) (Charge.blames_pair limits)
  | counted e b operand =>
    have blames := (Charge.blames_pair limits).andThen (Charge.costs_pair limits)
      (operand.times (charge_costs limits e) b.copies)
    rwa [Nat.zero_add] at blames

end Blame

section Edges

variable {base : Nat} {states : List State} {edge : Nat × Char × Nat}

/-- The labelled edges of an automaton, one for each character of a label: where it begins, what it
reads and where it leads. -/
def labelledEdges (nfa : Nfa) : Set (Nat × Char × Nat) :=
  {edge | ∃ e ∈ (nfa.state edge.1).edges, edge.2.1 ∈ e.label ∧ e.target = edge.2.2}

/-- The labelled edges of the state numbered `q`, in a list. -/
def State.listEdges (s : State) (q : Nat) : List (Nat × Char × Nat) :=
  s.edges.flatMap fun e => e.label.toList.map fun c => (q, c, e.target)

/-- The labelled edges of states, the first of which is numbered `base`. -/
def listEdges (base : Nat) : List State → List (Nat × Char × Nat)
  | [] => []
  | s :: states => s.listEdges base ++ listEdges (base + 1) states

theorem State.mem_listEdges {s : State} {q : Nat} :
    edge ∈ s.listEdges q ↔
      edge.1 = q ∧ ∃ e ∈ s.edges, edge.2.1 ∈ e.label ∧ e.target = edge.2.2 := by
  obtain ⟨p, c, r⟩ := edge
  simp only [listEdges, List.mem_flatMap, List.mem_map, Std.ExtTreeSet.mem_toList, Prod.mk.injEq]
  constructor
  · rintro ⟨e, edge, c, label, rfl, rfl, rfl⟩
    exact ⟨rfl, e, edge, label, rfl⟩
  · rintro ⟨rfl, e, edge, label, rfl⟩
    exact ⟨e, edge, c, label, rfl, rfl, rfl⟩

theorem mem_listEdges :
    edge ∈ listEdges base states ↔
      ∃ (i : Nat) (s : State), states[i]? = some s ∧ edge ∈ s.listEdges (base + i) := by
  induction states generalizing base with
  | nil => simp [listEdges]
  | cons s states ih =>
    rw [listEdges, List.mem_append, ih]
    constructor
    · rintro (here | ⟨i, s', place, later⟩)
      · exact ⟨0, s, rfl, here⟩
      · rw [Nat.add_right_comm] at later
        exact ⟨i + 1, s', place, later⟩
    · rintro ⟨i, s', place, edge⟩
      cases i with
      | zero =>
        obtain rfl := Option.some.inj place
        exact .inl edge
      | succ i =>
        rw [← Nat.add_assoc, Nat.add_right_comm] at edge
        exact .inr ⟨i, s', place, edge⟩

theorem length_listEdges : (listEdges base states).length = labelSum states := by
  induction states generalizing base with
  | nil => rfl
  | cons s states ih =>
    rw [listEdges, List.length_append, ih, labelSum_cons, State.listEdges, List.length_flatMap]
    simp [State.labelCount]

/-- No edge is listed twice if no state has two labels. -/
theorem nodup_listEdges (single : ∀ s ∈ states, s.edges.length ≤ 1) :
    (listEdges base states).Nodup := by
  induction states generalizing base with
  | nil => exact List.nodup_nil
  | cons s states ih =>
    obtain ⟨one, later⟩ := List.forall_mem_cons.mp single
    refine List.nodup_append.mpr ⟨?_, ih later, ?_⟩
    · rw [State.listEdges]
      match edges : s.edges with
      | [] => exact List.nodup_nil
      | [e] =>
        rw [List.flatMap_singleton]
        refine e.label.nodup_toList.map ?_
        intro c d same
        exact (Prod.ext_iff.mp (Prod.ext_iff.mp same).2).1
      | _ :: _ :: _ => simp [edges] at one
    · rintro edge here _ behind rfl
      obtain ⟨i, s', -, edge'⟩ := mem_listEdges.mp behind
      have place := (State.mem_listEdges.mp here).1
      have place' := (State.mem_listEdges.mp edge').1
      omega

/-- The list of its states' edges lists the edges of an automaton. -/
theorem mem_listEdges_iff (nfa : Nfa) :
    edge ∈ listEdges 0 nfa.states.toList ↔ edge ∈ nfa.labelledEdges := by
  rw [mem_listEdges, labelledEdges, Set.mem_ofPred_eq]
  simp only [State.mem_listEdges, Nat.zero_add, Array.getElem?_toList]
  constructor
  · rintro ⟨i, s, place, rfl, e, edge, label, target⟩
    rw [state, Array.getD_eq_getD_getElem?, place]
    exact ⟨e, edge, label, target⟩
  · rintro ⟨e, edge', label, target⟩
    rw [state, Array.getD_eq_getD_getElem?] at edge'
    cases place : nfa.states[edge.1]? with
    | none =>
      rw [place] at edge'
      cases edge'
    | some s =>
      rw [place] at edge'
      exact ⟨edge.1, s, place, rfl, e, edge', label, target⟩

/-- The automaton of an expression has as many labelled edges as the expression asks for. -/
theorem encard_labelledEdges (e : Expr) : (ofBlock e).labelledEdges.encard = e.labels := by
  have single : ∀ s ∈ (ofBlock e).states.toList, s.edges.length ≤ 1 := by
    intro s member
    rcases (block_proper e).mem_states member with rfl | inside
    · exact Nat.zero_le 1
    · rcases inside.unmixed with unlabelled | ⟨-, edge, labelled⟩
      · simp [unlabelled]
      · simp [labelled]
  rw [encard_eq_length (nodup_listEdges single) fun edge => mem_listEdges_iff (ofBlock e),
    length_listEdges, ← labelCount_ofBlock e, labelCount]

end Edges

/-- An expression is refused an automaton only over a limit that its automaton crosses. -/
theorem crosses_of_ofExpr_eq_error (failed : ofExpr limits e = .error fault) :
    Usage.Crosses ⟨e.stateCount, e.labels⟩ limits fault := by
  have within : Usage.zero.Within limits := ⟨Nat.zero_le _, Nat.zero_le _⟩
  rw [ofExpr] at failed
  split at failed
  · cases (sealExit_ofBlock e).symm.trans failed
  · next charged =>
    obtain rfl := Except.error.inj failed
    have crossed := charge_blames limits e .zero _ within charged
    rwa [size_block, Usage.plus, Usage.zero, Nat.zero_add, Nat.zero_add] at crossed

/-- A fault over a limit is reported as an automaton too large. -/
theorem Usage.Crosses.report {u : Usage} (crossed : u.Crosses limits fault) (pattern : String) :
    (FullMatch.Fault.nfa fault).report pattern =
      .ofStage .build "Automaton too large" 0 pattern fault.details := by
  rcases crossed with ⟨rfl, -⟩ | ⟨rfl, -⟩
  · rfl
  · rfl

/-- An expression has an automaton just when its states and its labelled edges are within the
limits. The automaton has exactly these states and edges, and it is the same within any limits.
Otherwise the report says that the automaton is too large, and blames a limit that is crossed. -/
theorem ofExpr_within_limits (limits : Limits) (e : Expr) :
    ((∃ nfa, ofExpr limits e = .ok nfa) ↔
      e.stateCount ≤ limits.states ∧ e.labels ≤ limits.transitions) ∧
    (∀ nfa, ofExpr limits e = .ok nfa →
      nfa.states.size = e.stateCount ∧ nfa.labelledEdges.encard = e.labels ∧
        ∀ limits' nfa', ofExpr limits' e = .ok nfa' → nfa' = nfa) ∧
    ∀ fault, ofExpr limits e = .error fault →
      (fault = .tooManyStates limits.states ∧ limits.states < e.stateCount ∨
        fault = .tooManyTransitions limits.transitions ∧ limits.transitions < e.labels) ∧
      ∀ pattern, (FullMatch.Fault.nfa fault).report pattern =
        .ofStage .build "Automaton too large" 0 pattern fault.details := by
  refine ⟨?_, ?_, ?_⟩
  · simp only [ofExpr_eq_ok_iff, exists_eq_left, size_block]
  · intro nfa built
    obtain rfl := eq_ofBlock built
    refine ⟨?_, encard_labelledEdges e, fun limits' nfa' => eq_ofBlock⟩
    rw [size_ofBlock, size_block]
  · intro fault failed
    have crossed := crosses_of_ofExpr_eq_error failed
    exact ⟨crossed, crossed.report⟩

/-- `(a|b){2}` takes fourteen states and four labelled edges, and is refused an automaton if either
limit is lower. -/
theorem ofExpr_within_limits_of_counted_choice :
    let e : Expr := .counted (.alternate (.literal 'a') (.literal 'b'))
      ⟨2, some 2, fun _ same => Nat.le_of_eq (Option.some.inj same)⟩
    (∃ nfa, ofExpr ⟨14, 4⟩ e = .ok nfa) ∧
      (∀ nfa, ofExpr ⟨13, 4⟩ e ≠ .ok nfa) ∧ ∀ nfa, ofExpr ⟨14, 3⟩ e ≠ .ok nfa := by
  intro e
  have states : e.stateCount = 14 := rfl
  have labels : e.labels = 4 := by decide +kernel
  refine ⟨(ofExpr_within_limits ⟨14, 4⟩ e).1.mpr (by rw [states, labels]; decide), ?_, ?_⟩
  · intro nfa built
    have fits := (ofExpr_within_limits ⟨13, 4⟩ e).1.mp ⟨nfa, built⟩
    rw [states, labels] at fits
    exact absurd fits (by decide)
  · intro nfa built
    have fits := (ofExpr_within_limits ⟨14, 3⟩ e).1.mp ⟨nfa, built⟩
    rw [states, labels] at fits
    exact absurd fits (by decide)

end Nfa

end FullMatch
