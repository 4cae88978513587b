import FullMatch.Dfa.Basic

/-!
# Subset construction

`Dfa.ofNfa` determinises an automaton. It numbers the active sets in the order in which they are
found, exploring the sets by number and the characters that lead on from each in code point order.
A set is numbered once, so there are never more states than sets.
-/

namespace FullMatch.Dfa

/-- The most states and transitions of an automaton. -/
structure Limits where
  states : Nat
  transitions : Nat
  deriving DecidableEq

namespace Limits

/-- The limits when nothing else is set. -/
def standard : Limits :=
  ⟨10000, 1000000⟩

end Limits

/-- Why there is no automaton. -/
inductive Fault where
  | tooManyStates (limit : Nat)
  | tooManyTransitions (limit : Nat)
  deriving DecidableEq

namespace Fault

/-- What is wrong, in short. -/
def message : Fault → String
  | .tooManyStates _ | .tooManyTransitions _ => "Automaton too large"

/-- What is wrong, with the limit that was crossed. -/
def details : Fault → String
  | .tooManyStates limit =>
    s!"Subset construction needs more than {limit} DFA states; use NFA matching instead"
  | .tooManyTransitions limit =>
    s!"Subset construction needs more than {limit} DFA transitions; use NFA matching instead"

end Fault

/-- The sets found so far, in the order of their numbers. A set is looked up by its members in
ascending order. -/
structure Found where
  sets : Array StateSet
  numbers : Std.ExtTreeMap (List Nat) Nat

namespace Found

/-- Nothing found yet. -/
def empty : Found :=
  ⟨#[], ∅⟩

/-- The number of a set, which is the next one if the set is new. -/
def number (limits : Limits) (found : Found) (set : StateSet) : Except Fault (Nat × Found) :=
  match found.numbers[set.toList]? with
  | some n => .ok (n, found)
  | none =>
    let n := found.sets.size
    if n < limits.states then
      .ok (n, ⟨found.sets.push set, found.numbers.insert set.toList n⟩)
    else .error (.tooManyStates limits.states)

end Found

/-- The characters that lead on from some member of `set`. -/
def alphabet (nfa : Nfa) (set : StateSet) : CharSet :=
  set.foldl (fun chars q => (nfa.state q).insertLabels chars) ∅

/-- The alphabet of a set consists of the labels of its members' edges. -/
theorem mem_alphabet {nfa : Nfa} {set : StateSet} {c : Char} :
    c ∈ alphabet nfa set ↔ ∃ q ∈ set, ∃ e ∈ (nfa.state q).edges, c ∈ e.label := by
  have folded (members : List Nat) (chars : CharSet) :
      c ∈ members.foldl (fun chars q => (nfa.state q).insertLabels chars) chars ↔
        c ∈ chars ∨ ∃ q ∈ members, ∃ e ∈ (nfa.state q).edges, c ∈ e.label := by
    induction members generalizing chars with
    | nil => simp
    | cons q members ih =>
      simp [ih, Nfa.State.mem_insertLabels, or_assoc]
  rw [alphabet, Std.ExtTreeSet.foldl_eq_foldl_toList, folded]
  simp [Std.ExtTreeSet.mem_toList]

/-- A construction under way: the sets found, the rows finished (row `i` is that of set `i`), and
how many transitions have been made. -/
structure Progress where
  found : Found
  rows : Array Row
  transitions : Nat

/-- Goes on with the row of `set`, of which `row` holds where the characters before `chars` lead.
The rows finished are left alone. -/
def fillRow (limits : Limits) (nfa : Nfa) (set : StateSet) (row : Row) :
    Progress → (chars : List Char) → Except Fault (Progress × Row)
  | progress, [] => .ok (progress, row)
  | ⟨found, rows, transitions⟩, c :: chars =>
    if transitions < limits.transitions then
      match found.number limits (nfa.step set c) with
      | .ok (n, found) =>
        fillRow limits nfa set (row.insert c n) ⟨found, rows, transitions + 1⟩ chars
      | .error fault => .error fault
    else .error (.tooManyTransitions limits.transitions)

/-- Finishes the rows of the sets found, those found on the way included, but no more than `fuel`
rows. -/
def explore (limits : Limits) (nfa : Nfa) :
    (fuel : Nat) → Progress → Except Fault Progress
  | 0, progress => .ok progress
  | fuel + 1, progress =>
    match progress.found.sets[progress.rows.size]? with
    | none => .ok progress
    | some set =>
      match fillRow limits nfa set ∅ progress (alphabet nfa set).toList with
      | .ok (⟨found, rows, transitions⟩, row) =>
        explore limits nfa fuel ⟨found, rows.push row, transitions⟩
      | .error fault => .error fault

/-- The automaton of a finished construction, its start being the first set found. -/
def ofProgress (nfa : Nfa) (progress : Progress) : Dfa where
  states := progress.found.sets.zipWith
    (fun set row => ⟨set, nfa.isAccepting set, row⟩) progress.rows
  start := 0
  lengths := nfa.lengths

/-- The deterministic automaton of the active sets, within the limits. There is a row for every
set, and never more sets than the limit on states. -/
def ofNfa (limits : Limits) (nfa : Nfa) : Except Fault Dfa :=
  match Found.empty.number limits nfa.initial with
  | .ok (_, found) => (explore limits nfa limits.states ⟨found, #[], 0⟩).map (ofProgress nfa)
  | .error fault => .error fault

end FullMatch.Dfa
