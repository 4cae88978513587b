import FullMatch.Nfa.Chain

/-!
# Layout of blocks

Where the states of a block stand, and what is true of each of them. A proper block consists of
its exit, which is whatever its surroundings make of it, and of inner states, which do not accept
and whose edges lead to states of the same block other than its entry.
-/

namespace FullMatch.Nfa

variable {nfa : Nfa}

section Standing

variable {base : Nat} {s : State} {states later : List State}

/-- The states of a list stand in the automaton, the first of them numbered `base`. -/
def Stands (nfa : Nfa) (base : Nat) (states : List State) : Prop :=
  ∀ i s, states[i]? = some s → nfa.state (base + i) = s

theorem Stands.head (stands : nfa.Stands base (s :: states)) : nfa.state base = s :=
  stands 0 s rfl

theorem Stands.tail (stands : nfa.Stands base (s :: states)) : nfa.Stands (base + 1) states := by
  intro i t found
  rw [Nat.add_right_comm]
  exact stands (i + 1) t found

theorem Stands.left (stands : nfa.Stands base (states ++ later)) : nfa.Stands base states := by
  intro i t found
  obtain ⟨inside, _⟩ := List.getElem?_eq_some_iff.mp found
  exact stands i t (by rw [List.getElem?_append_left inside, found])

theorem Stands.right (stands : nfa.Stands base (states ++ later)) :
    nfa.Stands (base + states.length) later := by
  intro i t found
  rw [Nat.add_assoc]
  exact stands _ t (by rw [List.getElem?_append_right (by omega), Nat.add_sub_cancel_left, found])

/-- The states of a block stand at the beginning of its automaton. -/
theorem ofBlock_stands (e : Expr) : (ofBlock e).Stands 0 ((block e).states 0 .final) := by
  intro i s found
  simp [ofBlock, state, found]

end Standing

/-- What is true of a state of a block that is not its exit, the block having the numbers from `low`
to below `high`: it does not accept, and its edges stay in the block without entering it again. It
has silent edges alone or one labelled edge alone. -/
structure State.Inside (s : State) (low high entry : Nat) : Prop where
  rejects : s.accepting = false
  silent_inside : ∀ r ∈ s.silent, low ≤ r ∧ r < high ∧ r ≠ entry
  edges_inside : ∀ e ∈ s.edges, low ≤ e.target ∧ e.target < high ∧ e.target ≠ entry
  unmixed : s.edges = [] ∨ s.silent = ∅ ∧ ∃ e, s.edges = [e]

namespace State.Inside

variable {s : State} {low high low' high' entry entry' : Nat}

/-- An inner state of a block is an inner state of a larger one, entered at the same state or from
outside. -/
theorem widen (inside : s.Inside low high entry) (lower : low' ≤ low) (upper : high ≤ high')
    (entered : entry' = entry ∨ entry' < low ∨ high ≤ entry') : s.Inside low' high' entry' where
  rejects := inside.rejects
  silent_inside r edge := by
    have target := inside.silent_inside r edge
    omega
  edges_inside e edge := by
    have target := inside.edges_inside e edge
    omega
  unmixed := inside.unmixed

/-- A state with silent edges alone is an inner state if they lead to the right places. -/
theorem ofSilent {silent : StateSet} (targets : ∀ r ∈ silent, low ≤ r ∧ r < high ∧ r ≠ entry) :
    (State.ofSilent silent).Inside low high entry where
  rejects := rfl
  silent_inside := targets
  edges_inside := nofun
  unmixed := .inl rfl

/-- A state with one labelled edge is an inner state if it leads to the right place. -/
theorem ofEdge {label : CharSet} {target : Nat}
    (inside : low ≤ target ∧ target < high ∧ target ≠ entry) :
    (State.ofEdge label target).Inside low high entry where
  rejects := rfl
  silent_inside r edge := absurd edge Std.ExtTreeSet.not_mem_empty
  edges_inside e edge := by
    obtain rfl := List.mem_singleton.mp edge
    exact inside
  unmixed := .inr ⟨rfl, _, rfl⟩

end State.Inside

namespace Block

/-- A block that is entered and left at two different states, and whose states are inner ones but
for the exit, wherever it is laid out. -/
structure Proper (b : Block) : Prop where
  entry_lt : b.entry < b.size
  entry_ne_exit : b.entry ≠ b.exit
  laid_out : ∀ base, ∃ before after,
    (∀ x, b.states base x = before ++ x.state :: after) ∧
      before.length = b.exit ∧ b.exit + 1 + after.length = b.size ∧
        ∀ s ∈ before ++ after, s.Inside base (base + b.size) (base + b.entry)

namespace Proper

variable {b : Block} {base : Nat} {x : Exit} {q : Nat}

theorem exit_lt (proper : b.Proper) : b.exit < b.size := by
  obtain ⟨before, after, _, _, size, _⟩ := proper.laid_out 0
  omega

theorem length_states (proper : b.Proper) (base : Nat) (x : Exit) :
    (b.states base x).length = b.size := by
  obtain ⟨before, after, states, exit, size, _⟩ := proper.laid_out base
  rw [states, List.length_append, List.length_cons]
  omega

theorem mem_states (proper : b.Proper) {s : State} (member : s ∈ b.states base x) :
    s = x.state ∨ s.Inside base (base + b.size) (base + b.entry) := by
  obtain ⟨before, after, states, _, _, inside⟩ := proper.laid_out base
  rw [states, List.mem_append, List.mem_cons] at member
  rcases member with first | rfl | last
  · exact .inr (inside s (List.mem_append_left after first))
  · exact .inl rfl
  · exact .inr (inside s (List.mem_append_right before last))

/-- The exit is the state that the surroundings made it. -/
theorem state_exit (proper : b.Proper) (stands : nfa.Stands base (b.states base x)) :
    nfa.state (base + b.exit) = x.state := by
  obtain ⟨before, after, states, exit, _, _⟩ := proper.laid_out base
  apply stands
  rw [states, ← exit, List.getElem?_append_right (Nat.le_refl _), Nat.sub_self]
  rfl

/-- Any other state of the block is an inner one. -/
theorem state_inside (proper : b.Proper) (stands : nfa.Stands base (b.states base x))
    (low : base ≤ q) (high : q < base + b.size) (inner : q ≠ base + b.exit) :
    (nfa.state q).Inside base (base + b.size) (base + b.entry) := by
  obtain ⟨before, after, states, exit, size, inside⟩ := proper.laid_out base
  have length := proper.length_states base x
  obtain ⟨i, rfl⟩ := Nat.exists_eq_add_of_le low
  have found : i < (b.states base x).length := by omega
  rw [stands i _ (List.getElem?_eq_getElem found)]
  apply inside
  simp only [states]
  rw [List.getElem_append]
  split
  · exact List.mem_append_left after (List.getElem_mem _)
  · next behind =>
    have further : i - before.length ≠ 0 := by omega
    rw [List.getElem_cons, dif_neg further]
    exact List.mem_append_right before (List.getElem_mem _)

end Proper

end Block

end FullMatch.Nfa
