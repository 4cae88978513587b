import FullMatch.Nfa.Block

/-!
# Automata built in place

A second way to the automaton of an expression, which knows nothing of blocks. States are added one
at a time behind those of an arena, and each limit is looked at when one more state or labelled edge
is asked for. A part that becomes the operand of a larger one is changed where it stands: its exit
is led on, and no longer accepts. The lengths of the texts that lead through a part are kept with
it; of the copies under a repetition count, those of the last one.
-/

namespace FullMatch.Nfa

/-- The states made so far, how many labelled edges they have (one for each character of a label),
and the limits on both. -/
structure Arena where
  states : Array State
  transitions : Nat
  limits : Limits

/-- An arena without states. -/
def Arena.empty (limits : Limits) : Arena :=
  ⟨#[], 0, limits⟩

/-- A part of an automaton: the numbers of the states where it is entered and where it is left, and
the lengths of the texts that lead through it. -/
structure Fragment where
  entry : Nat
  exit : Nat
  lengths : LengthRange
  deriving DecidableEq

/-- Work on an arena, which ends at a limit that would be crossed. -/
abbrev Build := StateT Arena (Except Fault)

namespace Build

/-- Adds a state without edges and returns its number. -/
def addState (accepting : Bool) : Build Nat := fun arena =>
  if arena.limits.states ≤ arena.states.size then .error (.tooManyStates arena.limits.states)
  else .ok (arena.states.size, { arena with states := arena.states.push ⟨[], ∅, accepting⟩ })

/-- Adds an entry, and an exit that accepts. -/
def addPair : Build (Nat × Nat) := do
  let entry ← addState false
  let exit ← addState true
  return (entry, exit)

/-- Changes the state numbered `q`. -/
def change (q : Nat) (f : State → State) : Build Unit := fun arena =>
  .ok ((), { arena with states := arena.states.modify q f })

/-- Adds a silent edge from `p` to `q`. -/
def link (p q : Nat) : Build Unit :=
  change p fun s => { s with silent := s.silent.insert q }

/-- Adds a silent edge from `p` to `q` if it is `wanted`. -/
def linkIf (wanted : Bool) (p q : Nat) : Build Unit :=
  if wanted then link p q else pure ()

/-- Takes back that `q` accepts. -/
def demote (q : Nat) : Build Unit :=
  change q fun s => { s with accepting := false }

/-- Asks for one more labelled edge. -/
def countEdge : Build Unit := fun arena =>
  if arena.limits.transitions ≤ arena.transitions then
    .error (.tooManyTransitions arena.limits.transitions)
  else .ok ((), { arena with transitions := arena.transitions + 1 })

/-- Adds an edge from `p` to `q` for each character of a label. -/
def addEdge (p : Nat) (label : CharSet) (q : Nat) : Build Unit := do
  label.toList.forM fun _ => countEdge
  change p fun s => { s with edges := s.edges ++ [⟨label, q⟩] }

/-- Reads nothing. -/
def empty : Build Fragment := do
  let (entry, exit) ← addPair
  link entry exit
  return ⟨entry, exit, .exactly 0⟩

/-- Reads one character of a set. -/
def symbol (label : CharSet) : Build Fragment := do
  let (entry, exit) ← addPair
  addEdge entry label exit
  return ⟨entry, exit, .exactly 1⟩

/-- One part and then another: the exit of the first leads to the entry of the second. -/
def join (left right : Fragment) : Build Fragment := do
  link left.exit right.entry
  demote left.exit
  return ⟨left.entry, right.exit, left.lengths.append right.lengths⟩

/-- Operands one after another, each joined to those in front of it as soon as it is built. -/
def sequence : List (Build Fragment) → Build Fragment
  | [] => empty
  | first :: operands => do
    let done ← first
    operands.foldlM (fun done operand => do join done (← operand)) done

/-- Hangs a branch between `entry` and `exit`, and adds its lengths to those of the others. -/
def hang (entry exit : Nat) (lengths : LengthRange) (branch : Build Fragment) :
    Build LengthRange := do
  let part ← branch
  link entry part.entry
  link part.exit exit
  demote part.exit
  return lengths.hull part.lengths

/-- Any one of several branches, which share an entry and an exit. -/
def choice (branches : List (Build Fragment)) : Build Fragment := do
  let (entry, exit) ← addPair
  let lengths ← branches.foldlM (hang entry exit) ⟨LengthRange.cap, some 0⟩
  return ⟨entry, exit, lengths⟩

/-- An operand under a postfix repetition. -/
def repeated (op : RepeatOp) (operand : Build Fragment) : Build Fragment := do
  let part ← operand
  let (entry, exit) ← addPair
  link entry part.entry
  link part.exit exit
  demote part.exit
  linkIf op.skips entry exit
  linkIf op.loops part.exit part.entry
  return ⟨entry, exit, part.lengths.repeated op⟩

/-- A chain of copies of an operand: the state where it ends, and the lengths of its last copy. -/
structure Copies where
  cursor : Nat
  unit : LengthRange

/-- One more copy at the end of a chain. -/
def takeCopy (operand : Build Fragment) (done : Copies) : Build Copies := do
  let copy ← operand
  link done.cursor copy.entry
  demote copy.exit
  return ⟨copy.exit, copy.lengths⟩

/-- `n` more copies, in front of each of which one `mayLeave` the chain for `exit`. -/
def takeCopies (operand : Build Fragment) (exit : Nat) (mayLeave : Bool) :
    (n : Nat) → (done : Copies) → Build Copies
  | 0, done => return done
  | n + 1, done => do
    linkIf mayLeave done.cursor exit
    takeCopies operand exit mayLeave n (← takeCopy operand done)

/-- The rest of a chain behind the copies that are needed: as many as are allowed, or a last one
that may be taken again and again. -/
def takeRest (operand : Build Fragment) (exit : Nat) (bounds : Bounds) (needed : Copies) :
    Build Copies :=
  match bounds.most with
  | some most => do
    let last ← takeCopies operand exit true (most - bounds.least) needed
    link last.cursor exit
    return last
  | none => do
    let copy ← operand
    link needed.cursor exit
    link needed.cursor copy.entry
    link copy.exit copy.entry
    link copy.exit exit
    demote copy.exit
    return ⟨copy.exit, copy.lengths⟩

/-- An operand under a counted repetition: a chain of copies of it. -/
def counted (bounds : Bounds) (operand : Build Fragment) : Build Fragment := do
  let (entry, exit) ← addPair
  let needed ← takeCopies operand exit false bounds.least ⟨entry, .exactly 0⟩
  let last ← takeRest operand exit bounds needed
  return ⟨entry, exit, last.unit.times bounds⟩

/-- What is built for each kind of expression. -/
def algebra : Expr.Algebra (Build Fragment) where
  empty := empty
  atom a := symbol a.chars
  sequence := sequence
  choice := choice
  repeated := repeated
  counted := counted

/-- Builds the part for an expression. -/
def fragment (e : Expr) : Build Fragment :=
  e.fold algebra

end Build

/-- The automaton of an expression, built in an arena of its own. -/
def buildExpr (limits : Limits) (e : Expr) : Except Fault Nfa :=
  match (Build.fragment e).run (.empty limits) with
  | .ok (whole, arena) => sealExit ⟨arena.states, whole.entry, whole.exit, whole.lengths⟩
  | .error fault => .error fault

end FullMatch.Nfa
