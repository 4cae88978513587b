import FullMatch.Nfa.Basic
import Std.Data.ExtTreeMap

/-!
# Deterministic automata

A state stands for a set of states of a nondeterministic automaton. A row lists the characters that
lead on from a state; any other character is a dead end.
-/

namespace FullMatch

namespace Dfa

/-- Where each character leads from one state. -/
abbrev Row := Std.ExtTreeMap Char Nat

/-- A set of states of the nondeterministic automaton, and where each character leads from it. -/
structure State where
  /-- The states stood for. -/
  members : StateSet
  accepting : Bool
  row : Row

end Dfa

/-- A deterministic automaton over characters, with the lengths of the texts it can accept. -/
structure Dfa where
  states : Array Dfa.State
  start : Nat
  lengths : LengthRange

namespace Dfa

/-- Where `c` leads from a state, unless it is a dead end. -/
def next (dfa : Dfa) (q : Nat) (c : Char) : Option Nat :=
  dfa.states[q]?.bind fun s => s.row[c]?

/-- Whether a state is accepting. -/
def isAccepting (dfa : Dfa) (q : Nat) : Bool :=
  dfa.states[q]?.any State.accepting

/-- The state that a text leads to, unless it meets a dead end. -/
def walk (dfa : Dfa) (q : Nat) : (text : List Char) → Option Nat
  | [] => some q
  | c :: text =>
    match dfa.next q c with
    | some q => dfa.walk q text
    | none => none

/-- Whether the automaton accepts the whole text. -/
def accepts (dfa : Dfa) (text : List Char) : Bool :=
  (dfa.walk dfa.start text).any dfa.isAccepting

/-- How many characters lead on, over all states. -/
def transitionCount (dfa : Dfa) : Nat :=
  dfa.states.foldl (fun n s => n + s.row.size) 0

end Dfa

end FullMatch
