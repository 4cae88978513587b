import FullMatch.Nfa.Basic
import FullMatch.Nfa.Budget

/-!
# Automaton of an expression

Every expression becomes a block of consecutive states with one entry and one exit, after Thompson.
A block is laid out from the number of its first state and from what its exit is to be: the exit
has no edges of its own, so whoever encloses the block decides where it leads and whether it
accepts. Sizes are known before anything is laid out. Hence each state is written once, in the
order of the numbers, and moving a block only shifts the numbers.
-/

namespace FullMatch.Nfa

/-- What becomes of the exit of a block. -/
structure Exit where
  /-- Where the exit leads without reading. -/
  silent : StateSet
  accepting : Bool

namespace Exit

/-- The exit of the outermost block. -/
def final : Exit :=
  ⟨∅, true⟩

/-- An exit that leads on to the given states. -/
def into (silent : StateSet) : Exit :=
  ⟨silent, false⟩

/-- The state of an exit. -/
def state (x : Exit) : State :=
  ⟨[], x.silent, x.accepting⟩

end Exit

/-- Consecutive states, not yet numbered. -/
structure Block where
  size : Nat
  /-- The entry, counted from the first state. -/
  entry : Nat
  /-- The exit, counted from the first state. -/
  exit : Nat
  /-- The states, the first of which is numbered `base`. -/
  states : (base : Nat) → Exit → List State

namespace Block

/-- Reads nothing. -/
def empty : Block where
  size := 2
  entry := 0
  exit := 1
  states base x := [.ofSilent {base + 1}, x.state]

/-- Reads one character of a set. -/
def symbol (label : CharSet) : Block where
  size := 2
  entry := 0
  exit := 1
  states base x := [.ofEdge label (base + 1), x.state]

/-- The size of blocks laid out one after another. -/
def totalSize (blocks : List Block) : Nat :=
  blocks.foldl (fun n b => n + b.size) 0

/-- The states of blocks laid out one after another, each exit leading to the next entry, behind
the pieces `done`, which stand in reverse. -/
def chainOnto (done : List (List State)) (base : Nat) (x : Exit) :
    List Block → List (List State)
  | [] => done
  | [b] => b.states base x :: done
  | b :: next :: blocks =>
    let base' := base + b.size
    chainOnto (b.states base (.into {base' + next.entry}) :: done) base' x (next :: blocks)

/-- Blocks one after another. -/
def chain (blocks : List Block) : Block where
  size := totalSize blocks
  entry := (blocks.head?.map Block.entry).getD 0
  exit := totalSize blocks.dropLast + (blocks.getLast?.map Block.exit).getD 0
  states base x := (chainOnto [] base x blocks).reverse.flatten

/-- The states of blocks laid out side by side, all with the same exit, and their entries. -/
def forkOnto (x : Exit) (done : List (List State)) (entries : StateSet) (base : Nat) :
    List Block → List (List State) × StateSet
  | [] => (done, entries)
  | b :: blocks =>
    forkOnto x (b.states base x :: done) (entries.insert (base + b.entry)) (base + b.size) blocks

/-- Any one of the blocks, between an entry that leads to all of theirs and an exit that all of
theirs lead to. -/
def fork (blocks : List Block) : Block where
  size := 2 + totalSize blocks
  entry := 0
  exit := 1
  states base x :=
    let found := forkOnto (.into {base + 1}) [] ∅ (base + 2) blocks
    .ofSilent found.2 :: x.state :: found.1.reverse.flatten

/-- Where a postfix repetition begins: at its operand, or at the end if that may be left out. -/
def openings (op : RepeatOp) (b : Block) (base : Nat) : StateSet :=
  let inner := base + b.entry
  if op.skips then {inner, base + b.size + 1} else {inner}

/-- Where a postfix repetition goes on behind its operand: at the end, or at the operand if that may
be taken again. -/
def closings (op : RepeatOp) (b : Block) (base : Nat) : StateSet :=
  let accept := base + b.size + 1
  if op.loops then {base + b.entry, accept} else {accept}

/-- A block under a postfix repetition, with a pair of states behind it. -/
def repeated (op : RepeatOp) (b : Block) : Block where
  size := b.size + 2
  entry := b.size
  exit := b.size + 1
  states base x :=
    b.states base (.into (closings op b base)) ++ [.ofSilent (openings op b base), x.state]

/-- The entry of copy `i` of a block, the first copy beginning at `base`. -/
def copyEntry (b : Block) (base : Nat) (i : Nat) : Nat :=
  base + i * b.size + b.entry

/-- Where a counted repetition goes on when `taken` copies have been read: to the next copy, to the
exit if that is enough, and into the last copy again if there is no upper end. -/
def continuation (bounds : Bounds) (b : Block) (base : Nat) (taken : Nat) : StateSet :=
  let copies := base + 2
  let next : StateSet := if taken < bounds.copies then {b.copyEntry copies taken} else ∅
  let next := if bounds.least ≤ taken then next.insert (base + 1) else next
  if bounds.most.isNone && bounds.least < taken then
    next.insert (b.copyEntry copies bounds.least)
  else next

/-- A block under a counted repetition: a pair of states, and as many copies as may be needed. -/
def counted (bounds : Bounds) (b : Block) : Block where
  size := 2 + bounds.copies * b.size
  entry := 0
  exit := 1
  states base x :=
    let copy (i : Nat) : List State :=
      b.states (base + 2 + i * b.size) (.into (continuation bounds b base (i + 1)))
    .ofSilent (continuation bounds b base 0) :: x.state ::
      (List.range bounds.copies).flatMap copy

/-- The block of each kind of expression. -/
def algebra : Expr.Algebra Block where
  empty := empty
  atom a := symbol a.chars
  sequence := chain
  choice := fork
  repeated := repeated
  counted := counted

end Block

/-- The block of an expression. -/
def block (e : Expr) : Block :=
  e.fold Block.algebra

/-- The automaton with the states of the block of `e`. -/
def ofBlock (e : Expr) : Nfa :=
  let b := block e
  ⟨(b.states 0 .final).toArray, b.entry, b.exit, e.lengths⟩

/-- The automaton, if its exit and no other state accepts. -/
def sealExit (nfa : Nfa) : Except Fault Nfa :=
  let found := nfa.acceptingCount
  if found = 1 && (nfa.state nfa.accept).accepting then .ok nfa
  else .error (.exits found)

/-- The automaton of an expression, within the limits. -/
def ofExpr (limits : Limits) (e : Expr) : Except Fault Nfa :=
  match charge limits e .zero with
  | .ok _ => sealExit (ofBlock e)
  | .error fault => .error fault

end FullMatch.Nfa
