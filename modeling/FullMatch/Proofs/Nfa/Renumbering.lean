import FullMatch.Proofs.Nfa.Construction

/-!
# Moving a block

Laid out from another number, the states of a block are the same but for the numbers in them, which
move along with the block (`block_moves`).
-/

namespace FullMatch

namespace StateSet

variable {set set' : StateSet} {rename : Nat → Nat} {p q r : Nat}

/-- A set of states under other numbers. -/
def renumbered (set : StateSet) (rename : Nat → Nat) : StateSet :=
  .ofList (set.toList.map rename)

theorem mem_renumbered : q ∈ set.renumbered rename ↔ ∃ p ∈ set, rename p = q := by
  rw [renumbered, Std.ExtTreeSet.mem_ofList, List.contains_iff_mem, List.mem_map]
  simp only [Std.ExtTreeSet.mem_toList]

theorem renumbered_eq (same : ∀ q, q ∈ set' ↔ ∃ p ∈ set, rename p = q) :
    set' = set.renumbered rename :=
  Std.ExtTreeSet.ext_mem fun q => (same q).trans mem_renumbered.symm

theorem renumbered_empty (rename : Nat → Nat) : (∅ : StateSet).renumbered rename = ∅ :=
  (renumbered_eq (by simp)).symm

theorem renumbered_singleton (p : Nat) (rename : Nat → Nat) :
    ({p} : StateSet).renumbered rename = {rename p} := by
  refine (renumbered_eq fun q => ?_).symm
  simp only [mem_singleton]
  grind

end StateSet

namespace Nfa

/-- A state whose edges lead to the same states under other numbers. -/
def State.renumbered (s : State) (rename : Nat → Nat) : State where
  edges := s.edges.map fun e => { e with target := rename e.target }
  silent := s.silent.renumbered rename
  accepting := s.accepting

/-- An exit that leads to the same states under other numbers. -/
def Exit.renumbered (x : Exit) (rename : Nat → Nat) : Exit :=
  { x with silent := x.silent.renumbered rename }

theorem State.renumbered_ofSilent (silent : StateSet) (rename : Nat → Nat) :
    (State.ofSilent silent).renumbered rename = .ofSilent (silent.renumbered rename) :=
  rfl

theorem State.renumbered_ofEdge (label : CharSet) (target : Nat) (rename : Nat → Nat) :
    (State.ofEdge label target).renumbered rename = .ofEdge label (rename target) := by
  simp [State.ofEdge, State.renumbered, StateSet.renumbered_empty]

theorem Exit.renumbered_state (x : Exit) (rename : Nat → Nat) :
    x.state.renumbered rename = (x.renumbered rename).state :=
  rfl

theorem Exit.renumbered_into (silent : StateSet) (rename : Nat → Nat) :
    (Exit.into silent).renumbered rename = .into (silent.renumbered rename) :=
  rfl

theorem Exit.renumbered_final (rename : Nat → Nat) : Exit.final.renumbered rename = .final := by
  rw [Exit.renumbered, Exit.final, StateSet.renumbered_empty]

namespace Block

variable {rename : Nat → Nat} {base base' : Nat} {b c : Block} {x : Exit}

/-- The numbers from `base` on become those from `base'` on, in the same order. -/
def Shifts (rename : Nat → Nat) (base base' : Nat) : Prop :=
  ∀ i, rename (base + i) = base' + i

theorem Shifts.behind (shifts : Shifts rename base base') (n : Nat) :
    Shifts rename (base + n) (base' + n) := by
  intro i
  rw [Nat.add_assoc, Nat.add_assoc]
  exact shifts (n + i)

/-- Wherever a block is laid out, its states are the same but for the numbers. -/
def Moves (b : Block) : Prop :=
  ∀ {rename base base'} x, Shifts rename base base' →
    b.states base' (x.renumbered rename) = (b.states base x).map (State.renumbered · rename)

theorem moves_empty : empty.Moves := by
  intro rename base base' x shifts
  rw [empty, List.map_cons, List.map_singleton, State.renumbered_ofSilent,
    StateSet.renumbered_singleton, shifts, Exit.renumbered_state]

theorem moves_symbol (label : CharSet) : (symbol label).Moves := by
  intro rename base base' x shifts
  rw [symbol, List.map_cons, List.map_singleton, State.renumbered_ofEdge, shifts,
    Exit.renumbered_state]

theorem Moves.append (first : b.Moves) (second : c.Moves) : (b.append c).Moves := by
  intro rename base base' x shifts
  have left := first (.into {base + b.size + c.entry}) shifts
  have right := second x (shifts.behind b.size)
  rw [Exit.renumbered_into, StateSet.renumbered_singleton, shifts.behind b.size] at left
  simp only [Block.append, left, right, List.map_append]

theorem renumbered_openings (op : RepeatOp) (b : Block) (shifts : Shifts rename base base') :
    b.openings op base' = (b.openings op base).renumbered rename := by
  refine StateSet.renumbered_eq fun q => ?_
  have entry := shifts b.entry
  have exit := shifts (b.size + 1)
  simp only [mem_openings, Nat.add_assoc]
  grind

theorem renumbered_closings (op : RepeatOp) (b : Block) (shifts : Shifts rename base base') :
    b.closings op base' = (b.closings op base).renumbered rename := by
  refine StateSet.renumbered_eq fun q => ?_
  have entry := shifts b.entry
  have exit := shifts (b.size + 1)
  simp only [mem_closings, Nat.add_assoc]
  grind

theorem Moves.repeated (moves : b.Moves) (op : RepeatOp) : (b.repeated op).Moves := by
  intro rename base base' x shifts
  have operand := moves (.into (b.closings op base)) shifts
  rw [Exit.renumbered_into, ← renumbered_closings op b shifts] at operand
  simp only [Block.repeated, operand, renumbered_openings op b shifts, List.map_append,
    List.map_cons, List.map_nil, State.renumbered_ofSilent, Exit.renumbered_state]

section Fork

variable {blocks : List Block}

theorem map_entriesFrom (blocks : List Block) (shifts : Shifts rename base base') :
    entriesFrom base' blocks = (entriesFrom base blocks).map rename := by
  induction blocks generalizing base base' with
  | nil => rfl
  | cons b blocks ih =>
    rw [entriesFrom, entriesFrom, List.map_cons, shifts, ih (shifts.behind b.size)]

theorem sideBySide_moves (moves : ∀ b ∈ blocks, b.Moves) (x : Exit)
    (shifts : Shifts rename base base') :
    sideBySide (x.renumbered rename) base' blocks =
      (sideBySide x base blocks).map (State.renumbered · rename) := by
  induction blocks generalizing base base' with
  | nil => rfl
  | cons b blocks ih =>
    rw [sideBySide, sideBySide, List.map_append, moves b List.mem_cons_self x shifts,
      ih (fun c member => moves c (List.mem_cons_of_mem b member)) (shifts.behind b.size)]

theorem renumbered_branches (blocks : List Block) (shifts : Shifts rename base base') :
    branches blocks base' = (branches blocks base).renumbered rename := by
  refine StateSet.renumbered_eq fun q => ?_
  simp only [mem_branches]
  rw [map_entriesFrom blocks (shifts.behind 2), List.mem_map]

theorem moves_fork (moves : ∀ b ∈ blocks, b.Moves) : (fork blocks).Moves := by
  intro rename base base' x shifts
  have hung := sideBySide_moves moves (.into {base + 1}) (shifts.behind 2)
  rw [Exit.renumbered_into, StateSet.renumbered_singleton, shifts] at hung
  rw [fork_states, fork_states, hung, renumbered_branches blocks shifts, List.map_cons,
    List.map_cons, State.renumbered_ofSilent, Exit.renumbered_state]

end Fork

section Count

theorem shifts_copyEntry (b : Block) (shifts : Shifts rename base base') (i : Nat) :
    rename (b.copyEntry (base + 2) i) = b.copyEntry (base' + 2) i :=
  (shifts.behind 2).behind (i * b.size) b.entry

theorem renumbered_continuation (bounds : Bounds) (b : Block) (shifts : Shifts rename base base')
    (taken : Nat) :
    b.continuation bounds base' taken = (b.continuation bounds base taken).renumbered rename := by
  refine StateSet.renumbered_eq fun q => ?_
  have exit := shifts 1
  have next := shifts_copyEntry b shifts taken
  have last := shifts_copyEntry b shifts bounds.least
  simp only [mem_continuation]
  grind

theorem copyStates_moves (moves : b.Moves) (bounds : Bounds) (shifts : Shifts rename base base')
    (i : Nat) :
    copyStates bounds b base' i =
      (copyStates bounds b base i).map (State.renumbered · rename) := by
  rw [copyStates, copyStates, renumbered_continuation bounds b shifts, ← Exit.renumbered_into]
  exact moves _ ((shifts.behind 2).behind (i * b.size))

theorem Moves.counted (moves : b.Moves) (bounds : Bounds) : (counted bounds b).Moves := by
  intro rename base base' x shifts
  have copies := funext (copyStates_moves moves bounds shifts)
  rw [counted_states, counted_states, renumbered_continuation bounds b shifts, copies,
    List.map_cons, List.map_cons, List.map_flatMap, State.renumbered_ofSilent,
    Exit.renumbered_state]

end Count

end Block

/-- The block of an expression is the same wherever it is laid out. -/
theorem block_moves (e : Expr) : (block e).Moves := by
  induction e using Expr.branchInduction with
  | empty => exact Block.moves_empty
  | atom a => exact Block.moves_symbol a.chars
  | concat l r left right =>
    rw [block_concat]
    exact left.append right
  | alternate l r branches =>
    rw [block_alternate]
    apply Block.moves_fork
    intro b member
    obtain ⟨e, branch, rfl⟩ := List.mem_map.mp member
    exact branches e branch
  | repeated op e operand => exact operand.repeated op
  | counted e b operand => exact operand.counted b

end Nfa

end FullMatch
