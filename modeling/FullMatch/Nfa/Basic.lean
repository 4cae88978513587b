import FullMatch.Length

/-!
# Nondeterministic automata

States are numbered from zero. An edge reads one character of its label; a silent edge reads
nothing. A run keeps the set of states that are active, closed under silent edges.
-/

namespace FullMatch

/-- A finite set of states, equal to any other with the same members. -/
abbrev StateSet := Std.ExtTreeSet Nat

namespace StateSet

theorem mem_insert {set : StateSet} {p q : Nat} : q ∈ set.insert p ↔ q = p ∨ q ∈ set := by
  rw [Std.ExtTreeSet.mem_insert, Std.LawfulEqCmp.compare_eq_iff_eq, eq_comm]

theorem mem_singleton {p q : Nat} : q ∈ ({p} : StateSet) ↔ q = p := by
  rw [Std.ExtTreeSet.singleton_eq_insert, mem_insert]
  simp

theorem mem_pair {p q r : Nat} : q ∈ ({p, r} : StateSet) ↔ q = p ∨ q = r := by
  rw [Std.ExtTreeSet.insert_eq_insert, mem_insert, mem_singleton]

end StateSet

namespace Nfa

/-- An edge that reads any one character of its label. -/
structure Edge where
  label : CharSet
  target : Nat
  deriving DecidableEq

/-- A state: where reading leads from it, where it leads without reading, and whether a text may
end in it. -/
structure State where
  edges : List Edge
  /-- Where the silent edges lead. -/
  silent : StateSet
  accepting : Bool
  deriving DecidableEq

namespace State

/-- A state with silent edges alone. -/
def ofSilent (silent : StateSet) : State :=
  ⟨[], silent, false⟩

/-- A state with one labelled edge. -/
def ofEdge (label : CharSet) (target : Nat) : State :=
  ⟨[⟨label, target⟩], ∅, false⟩

/-- A state without edges that does not accept. -/
def dead : State :=
  ⟨[], ∅, false⟩

/-- The states that reading `c` leads to, together with `set`. -/
def insertTargets (s : State) (c : Char) (set : StateSet) : StateSet :=
  s.edges.foldl (fun set e => if e.label.contains c then set.insert e.target else set) set

/-- Reading `c` leads to the targets of the edges with `c` in their label. -/
theorem mem_insertTargets {s : State} {c : Char} {set : StateSet} {q : Nat} :
    q ∈ s.insertTargets c set ↔ q ∈ set ∨ ∃ e ∈ s.edges, c ∈ e.label ∧ e.target = q := by
  unfold insertTargets
  induction s.edges generalizing set with
  | nil => simp
  | cons e es ih =>
    rw [List.foldl_cons, ih]
    split
    · next labelled =>
      rw [Std.ExtTreeSet.contains_iff_mem] at labelled
      simp [Std.ExtTreeSet.mem_insert, labelled, or_assoc, or_left_comm]
    · next unlabelled =>
      rw [Std.ExtTreeSet.contains_iff_mem] at unlabelled
      simp [unlabelled]

/-- The characters that lead on from a state, together with `chars`. -/
def insertLabels (s : State) (chars : CharSet) : CharSet :=
  s.edges.foldl (fun chars e => chars ∪ e.label) chars

/-- The characters that lead on are those of the labels. -/
theorem mem_insertLabels {s : State} {chars : CharSet} {c : Char} :
    c ∈ s.insertLabels chars ↔ c ∈ chars ∨ ∃ e ∈ s.edges, c ∈ e.label := by
  unfold insertLabels
  induction s.edges generalizing chars with
  | nil => simp
  | cons e es ih => rw [List.foldl_cons, ih]; simp [or_assoc]

end State

end Nfa

/-- A nondeterministic automaton over characters, with the lengths of the texts it can accept. -/
structure Nfa where
  states : Array Nfa.State
  start : Nat
  accept : Nat
  lengths : LengthRange

namespace Nfa

/-- A state by its number; there is nothing to do in a state that does not exist. -/
def state (nfa : Nfa) (q : Nat) : State :=
  nfa.states.getD q .dead

/-- Whether some member of a set is accepting. -/
def isAccepting (nfa : Nfa) (set : StateSet) : Bool :=
  set.toList.any fun q => (nfa.state q).accepting

theorem isAccepting_iff {nfa : Nfa} {set : StateSet} :
    nfa.isAccepting set = true ↔ ∃ q ∈ set, (nfa.state q).accepting = true := by
  simp [isAccepting, Std.ExtTreeSet.mem_toList]

/-- How many states are accepting. -/
def acceptingCount (nfa : Nfa) : Nat :=
  nfa.states.countP State.accepting

/-- The states to visit and the states seen, after one silent edge to `q`. -/
def discover (found : List Nat × StateSet) (q : Nat) : List Nat × StateSet :=
  if found.2.contains q then found else (q :: found.1, found.2.insert q)

/-- `seen` together with what silent edges reach from the states still to visit, following at most
`fuel` states. -/
def closeFrom (nfa : Nfa) : (fuel : Nat) → (visit : List Nat) → (seen : StateSet) → StateSet
  | 0, _, seen => seen
  | _, [], seen => seen
  | fuel + 1, q :: visit, seen =>
    let found := (nfa.state q).silent.foldl discover (visit, seen)
    closeFrom nfa fuel found.1 found.2

/-- The states reached from a set by silent edges. Each member and each other state is visited at
most once. -/
def closure (nfa : Nfa) (set : StateSet) : StateSet :=
  nfa.closeFrom (set.size + nfa.states.size) set.toList set

/-- The states reached from a set by reading `c`, before silent edges. -/
def moveOn (nfa : Nfa) (set : StateSet) (c : Char) : StateSet :=
  set.foldl (fun moved q => (nfa.state q).insertTargets c moved) ∅

/-- A move leads exactly to the targets of the edges that can read `c` in some member. -/
theorem mem_moveOn {nfa : Nfa} {set : StateSet} {c : Char} {q : Nat} :
    q ∈ nfa.moveOn set c ↔
      ∃ p ∈ set, ∃ e ∈ (nfa.state p).edges, c ∈ e.label ∧ e.target = q := by
  have folded (members : List Nat) (moved : StateSet) :
      q ∈ members.foldl (fun moved p => (nfa.state p).insertTargets c moved) moved ↔
        q ∈ moved ∨ ∃ p ∈ members, ∃ e ∈ (nfa.state p).edges, c ∈ e.label ∧ e.target = q := by
    induction members generalizing moved with
    | nil => simp
    | cons p members ih =>
      simp [ih, State.mem_insertTargets, or_assoc]
  rw [moveOn, Std.ExtTreeSet.foldl_eq_foldl_toList, folded]
  simp [Std.ExtTreeSet.mem_toList]

/-- The active states behind `c`. -/
def step (nfa : Nfa) (set : StateSet) (c : Char) : StateSet :=
  nfa.closure (nfa.moveOn set c)

/-- The active states before any character. -/
def initial (nfa : Nfa) : StateSet :=
  nfa.closure {nfa.start}

/-- Whether the automaton accepts `text` from the active states `set`. -/
def acceptsFrom (nfa : Nfa) (set : StateSet) : (text : List Char) → Bool
  | [] => nfa.isAccepting set
  | c :: text =>
    let set := nfa.step set c
    !set.isEmpty && nfa.acceptsFrom set text

/-- Whether the automaton accepts the whole text. -/
def accepts (nfa : Nfa) (text : List Char) : Bool :=
  nfa.acceptsFrom nfa.initial text

end Nfa

end FullMatch
