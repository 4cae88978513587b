import FullMatch.Expr.Fold

/-!
# Automaton budgets

Before an automaton is laid out, its states and labelled edges are counted against limits, in the
order in which they are numbered, so that the first limit to be crossed is the one reported. An
expression whose counted repetitions multiply far beyond a limit is refused after the limit, not
after the multiplication.
-/

namespace FullMatch.Nfa

/-- The most states and labelled edges (one for each character of a label) of an automaton. -/
structure Limits where
  states : Nat
  transitions : Nat
  deriving DecidableEq

namespace Limits

/-- The limits when nothing else is set. -/
def standard : Limits :=
  ⟨100000, 1000000⟩

end Limits

/-- Why there is no automaton. -/
inductive Fault where
  | tooManyStates (limit : Nat)
  | tooManyTransitions (limit : Nat)
  /-- `found` states accept, or a state accepts that is not the exit. -/
  | exits (found : Nat)
  deriving DecidableEq

namespace Fault

/-- What is wrong, in short. -/
def message : Fault → String
  | .tooManyStates _ | .tooManyTransitions _ => "Automaton too large"
  | .exits _ => "Failed to build NFA"

/-- What is wrong, with the limit that was crossed. -/
def details : Fault → String
  | .tooManyStates limit =>
    s!"Pattern needs more than {limit} NFA states; reduce counted repetitions"
  | .tooManyTransitions limit =>
    s!"Pattern needs more than {limit} NFA transitions; " ++
      "shrink character classes under counted repetition"
  | .exits found =>
    s!"Expected exactly one accepting state (the fragment exit), found {found}"

end Fault

/-- How many states and labelled edges have been asked for. -/
structure Usage where
  states : Nat
  transitions : Nat
  deriving DecidableEq

/-- What counting an expression does to the usage. -/
abbrev Charge := Usage → Except Fault Usage

namespace Usage

/-- Nothing asked for yet. -/
def zero : Usage :=
  ⟨0, 0⟩

/-- A pair of states, the entry and the exit of a block. -/
def pair (limits : Limits) : Charge := fun u =>
  if u.states + 2 ≤ limits.states then .ok { u with states := u.states + 2 }
  else .error (.tooManyStates limits.states)

/-- The labelled edges of one state. -/
def edges (limits : Limits) (n : Nat) : Charge := fun u =>
  if u.transitions + n ≤ limits.transitions then .ok { u with transitions := u.transitions + n }
  else .error (.tooManyTransitions limits.transitions)

end Usage

namespace Charge

/-- One charge and then another. -/
def andThen (f g : Charge) : Charge := fun u =>
  match f u with
  | .ok u => g u
  | .error fault => .error fault

/-- Charges one after another. -/
def all : List Charge → Charge
  | [], u => .ok u
  | f :: fs, u =>
    match f u with
    | .ok u => all fs u
    | .error fault => .error fault

theorem all_singleton (f : Charge) : all [f] = f := by
  funext u
  cases h : f u <;> simp [all, h]

theorem all_append (fs : List Charge) (f : Charge) : all (fs ++ [f]) = (all fs).andThen f := by
  funext u
  induction fs generalizing u with
  | nil => exact congrFun (all_singleton f) u
  | cons g fs ih =>
    cases h : g u with
    | ok u' => simpa [all, andThen, h] using ih u'
    | error fault => simp [all, andThen, h]

/-- A charge `n` times. -/
def times (f : Charge) : Nat → Charge
  | 0, u => .ok u
  | n + 1, u =>
    match f u with
    | .ok u => times f n u
    | .error fault => .error fault

/-- The order in which the parts of an expression are counted: a pair before its operands, except
that the operand of a postfix repetition comes first. -/
def algebra (limits : Limits) : Expr.Algebra Charge where
  empty := Usage.pair limits
  atom a := (Usage.pair limits).andThen (Usage.edges limits a.chars.size)
  sequence fs := all fs
  choice fs := (Usage.pair limits).andThen (all fs)
  repeated _ f := f.andThen (Usage.pair limits)
  counted b f := (Usage.pair limits).andThen (f.times b.copies)

end Charge

/-- What counting `e` against the limits does to the usage. -/
def charge (limits : Limits) (e : Expr) : Charge :=
  e.fold (Charge.algebra limits)

/-- A concatenation is counted from left to right. -/
theorem charge_concat (limits : Limits) (l r : Expr) :
    charge limits (.concat l r) = (charge limits l).andThen (charge limits r) :=
  Expr.fold_concat_eq Charge.all_singleton (fun fs f _ => Charge.all_append fs f) l r

end FullMatch.Nfa
