import FullMatch.Proofs.Nfa.Arena
import FullMatch.Proofs.Nfa.Renumbering
import FullMatch.Proofs.Nfa.Size

/-!
# Building does not depend on where

What is built for an expression stands behind the states of the arena and keeps to itself
(`Appends`). Behind other states and under other limits it is the same, but for the numbers
(`Moved`). So the copies under a count are all alike (`Copied`), and the lengths of the last one are
those of each.
-/

namespace FullMatch.Nfa

/-- The numbers from `p` on, moved to those from `q` on. -/
def shift (p q : Nat) (n : Nat) : Nat :=
  n + q - p

theorem shifts_shift (p q : Nat) : Block.Shifts (shift p q) p q := by
  intro i
  rw [shift]
  omega

/-- An arena with the part of an expression behind the states that it had. -/
structure Appends (e : Expr) (arena arena' : Arena) (part : Fragment) : Prop where
  limits : arena'.limits = arena.limits
  labels : arena'.transitions = arena.transitions + e.labels
  /-- As many states are added as the expression takes, each under the next number. -/
  size : arena'.states.size = arena.states.size + e.stateCount
  kept : ∀ q < arena.states.size, arena'.states[q]? = arena.states[q]?
  silent_new : ∀ q s, arena.states.size ≤ q → arena'.states[q]? = some s →
    ∀ r ∈ s.silent, arena.states.size ≤ r ∧ r < arena'.states.size
  edges_new : ∀ q s, arena.states.size ≤ q → arena'.states[q]? = some s →
    ∀ edge ∈ s.edges, arena.states.size ≤ edge.target ∧ edge.target < arena'.states.size
  entry_new : arena.states.size ≤ part.entry ∧ part.entry < arena'.states.size
  exit_new : arena.states.size ≤ part.exit ∧ part.exit < arena'.states.size

/-- What one arena has behind its states is what another has behind its own, moved there. -/
structure Moved (arena arena' : Arena) (part : Fragment) (other other' : Arena)
    (part' : Fragment) : Prop where
  size : other'.states.size = shift arena.states.size other.states.size arena'.states.size
  states : ∀ q, arena.states.size ≤ q → q < arena'.states.size →
    other'.states[shift arena.states.size other.states.size q]? =
      arena'.states[q]?.map (State.renumbered · (shift arena.states.size other.states.size))
  entry : part'.entry = shift arena.states.size other.states.size part.entry
  exit : part'.exit = shift arena.states.size other.states.size part.exit
  lengths : part'.lengths = part.lengths

/-- Where copy `i` of an expression begins when its count is built behind the states of an arena. -/
def copyStart (e : Expr) (outer : Arena) (i : Nat) : Nat :=
  outer.states.size + 2 + i * e.stateCount

/-- Each copy under a count is what is built for the operand alone, moved there, except that its
exit is led on. -/
structure Copied (e : Expr) (bounds : Bounds) (arena arena' : Arena) (part : Fragment)
    (outer outer' : Arena) (whole : Fragment) : Prop where
  inner : ∀ i < bounds.copies, ∀ q, arena.states.size ≤ q → q < arena'.states.size →
    q ≠ part.exit →
      outer'.states[shift arena.states.size (copyStart e outer i) q]? =
        arena'.states[q]?.map
          (State.renumbered · (shift arena.states.size (copyStart e outer i)))
  exit : ∀ i < bounds.copies, ∃ silent,
    outer'.states[shift arena.states.size (copyStart e outer i) part.exit]? =
      some (.ofSilent silent)
  lengths : whole.lengths = part.lengths.times bounds

namespace Block

variable {b : Block} {base : Nat} {x y : Exit} {i k n : Nat}

theorem Proper.getElem?_exit (proper : b.Proper) :
    (b.states base x)[b.exit]? = some x.state := by
  obtain ⟨before, after, states, exit, -, -⟩ := proper.laid_out base
  rw [states, ← exit, List.getElem?_append_right (Nat.le_refl _), Nat.sub_self]
  rfl

/-- Only the exit of a block depends on its surroundings. -/
theorem Proper.getElem?_inner (proper : b.Proper) (inner : i ≠ b.exit) :
    (b.states base x)[i]? = (b.states base y)[i]? := by
  obtain ⟨before, after, states, exit, -, -⟩ := proper.laid_out base
  rw [states, states, List.getElem?_append, List.getElem?_append]
  split
  · rfl
  · have further : i - before.length ≠ 0 := by omega
    obtain ⟨j, behind⟩ := Nat.exists_eq_succ_of_ne_zero further
    rw [behind, List.getElem?_cons_succ, List.getElem?_cons_succ]

/-- Copies stand one behind the other. -/
theorem getElem?_flatMap_copyStates {bounds : Bounds} (proper : b.Proper) (present : i < n)
    (inside : k < b.size) :
    ((List.range n).flatMap (copyStates bounds b base))[i * b.size + k]? =
      (copyStates bounds b base i)[k]? := by
  induction n with
  | zero => exact absurd present (Nat.not_lt_zero i)
  | succ n ih =>
    have length : ((List.range n).flatMap (copyStates bounds b base)).length = n * b.size :=
      length_flatMap_copyStates proper base n
    rw [List.range_succ, List.flatMap_append, List.flatMap_singleton]
    by_cases last : i = n
    · subst last
      rw [List.getElem?_append_right (by omega), length, Nat.add_sub_cancel_left]
    · have room : (i + 1) * b.size ≤ n * b.size := Nat.mul_le_mul_right b.size (by omega)
      rw [Nat.add_one_mul] at room
      rw [List.getElem?_append_left (by omega), ih (by omega)]

end Block

namespace Build

/-- An arena with the block of an expression behind its states. -/
def laidOut (e : Expr) (arena : Arena) : Arena :=
  arena.grown ((block e).states arena.states.size .final) e.labels

theorem size_laidOut (e : Expr) (arena : Arena) :
    (laidOut e arena).states.size = arena.states.size + (block e).size := by
  rw [laidOut, Arena.size_grown, (block_proper e).length_states]

theorem getElem?_laidOut (e : Expr) (arena : Arena) (i : Nat) :
    (laidOut e arena).states[arena.states.size + i]? =
      ((block e).states arena.states.size .final)[i]? := by
  rw [laidOut, Arena.grown, Array.getElem?_append_right (Nat.le_add_right _ _),
    Nat.add_sub_cancel_left, List.getElem?_toArray]

theorem appends_laidOut (e : Expr) (arena : Arena) :
    Appends e arena (laidOut e arena)
      ⟨arena.states.size + (block e).entry, arena.states.size + (block e).exit, e.lengths⟩ := by
  have proper := block_proper e
  have size := size_laidOut e arena
  have entry := proper.entry_lt
  have exit := proper.exit_lt
  have added (q : Nat) (s : State) (new : arena.states.size ≤ q)
      (found : (laidOut e arena).states[q]? = some s) :
      s = Exit.final.state ∨ s.Inside arena.states.size (laidOut e arena).states.size
        (arena.states.size + (block e).entry) := by
    obtain ⟨i, rfl⟩ := Nat.exists_eq_add_of_le new
    rw [getElem?_laidOut] at found
    rw [size]
    exact proper.mem_states (List.mem_of_getElem? found)
  exact {
    limits := rfl
    labels := rfl
    size := by rw [size, size_block]
    kept := fun q old => Array.getElem?_append_left old
    silent_new := by
      intro q s new found r edge
      rcases added q s new found with rfl | inside
      · exact absurd edge Std.ExtTreeSet.not_mem_empty
      · have target := inside.silent_inside r edge
        exact ⟨target.1, target.2.1⟩
    edges_new := by
      intro q s new found t edge
      rcases added q s new found with rfl | inside
      · exact absurd edge List.not_mem_nil
      · have target := inside.edges_inside t edge
        exact ⟨target.1, target.2.1⟩
    entry_new := by rw [size]; exact ⟨Nat.le_add_right _ _, Nat.add_lt_add_left entry _⟩
    exit_new := by rw [size]; exact ⟨Nat.le_add_right _ _, Nat.add_lt_add_left exit _⟩ }

theorem moved_laidOut (e : Expr) (arena other : Arena) :
    Moved arena (laidOut e arena)
      ⟨arena.states.size + (block e).entry, arena.states.size + (block e).exit, e.lengths⟩
      other (laidOut e other)
      ⟨other.states.size + (block e).entry, other.states.size + (block e).exit, e.lengths⟩ where
  size := by rw [size_laidOut, size_laidOut, shifts_shift]
  states q new _ := by
    obtain ⟨i, rfl⟩ := Nat.exists_eq_add_of_le new
    have moved := block_moves e .final (shifts_shift arena.states.size other.states.size)
    rw [Exit.renumbered_final] at moved
    rw [shifts_shift, getElem?_laidOut, getElem?_laidOut, moved, List.getElem?_map]
  entry := (shifts_shift _ _ _).symm
  exit := (shifts_shift _ _ _).symm
  lengths := rfl

/-- The states of a copy, behind the pair of the count and the copies in front of it. -/
theorem getElem?_laidOut_copy {e : Expr} {bounds : Bounds} {outer : Arena} {i k : Nat}
    (present : i < bounds.copies) (inside : k < (block e).size) :
    (laidOut (.counted e bounds) outer).states[copyStart e outer i + k]? =
      ((block e).states (copyStart e outer i)
        (.into ((block e).continuation bounds outer.states.size (i + 1))))[k]? := by
  have place : copyStart e outer i + k = outer.states.size + (i * (block e).size + k + 1 + 1) := by
    rw [copyStart, size_block]
    omega
  have start : outer.states.size + 2 + i * (block e).size = copyStart e outer i := by
    rw [copyStart, size_block]
  have counted : block (.counted e bounds) = .counted bounds (block e) := rfl
  rw [place, getElem?_laidOut, counted, Block.counted_states, List.getElem?_cons_succ,
    List.getElem?_cons_succ, Block.getElem?_flatMap_copyStates (block_proper e) present inside,
    Block.copyStates, start]

theorem copied_laidOut (e : Expr) (bounds : Bounds) (arena outer : Arena) (entry exit : Nat) :
    Copied e bounds arena (laidOut e arena)
      ⟨arena.states.size + (block e).entry, arena.states.size + (block e).exit, e.lengths⟩
      outer (laidOut (.counted e bounds) outer) ⟨entry, exit, e.lengths.times bounds⟩ where
  inner i present q new below different := by
    obtain ⟨k, rfl⟩ := Nat.exists_eq_add_of_le new
    have inside : k < (block e).size := by
      rw [size_laidOut] at below
      omega
    have inner : k ≠ (block e).exit := fun same => different (by rw [same])
    have moved := block_moves e .final (shifts_shift arena.states.size (copyStart e outer i))
    rw [Exit.renumbered_final] at moved
    rw [shifts_shift, getElem?_laidOut_copy present inside,
      (block_proper e).getElem?_inner inner, moved, List.getElem?_map, getElem?_laidOut]
  exit i present := by
    have proper := block_proper e
    refine ⟨(block e).continuation bounds outer.states.size (i + 1), ?_⟩
    rw [shifts_shift, getElem?_laidOut_copy present proper.exit_lt, proper.getElem?_exit]
    rfl
  lengths := rfl

/-- Building an expression leaves the states of an arena as they are and adds the same states behind
any others, wherever their numbers begin and whatever the limits. -/
theorem fragment_position_independent (e : Expr) (arena arena' : Arena) (part : Fragment)
    (built : (fragment e).run arena = .ok (part, arena')) :
    Appends e arena arena' part ∧
      (∀ other other' part', (fragment e).run other = .ok (part', other') →
        Moved arena arena' part other other' part') ∧
      ∀ bounds outer outer' whole,
        (fragment (.counted e bounds)).run outer = .ok (whole, outer') →
          Copied e bounds arena arena' part outer outer' whole := by
  obtain ⟨rfl, rfl⟩ := Prod.mk.inj (fragment_lays e arena _ built)
  refine ⟨appends_laidOut e arena, ?_, ?_⟩
  · intro other other' part' again
    obtain ⟨rfl, rfl⟩ := Prod.mk.inj (fragment_lays e other _ again)
    exact moved_laidOut e arena other
  · intro bounds outer outer' whole counted
    obtain ⟨rfl, rfl⟩ := Prod.mk.inj (fragment_lays (.counted e bounds) outer _ counted)
    exact copied_laidOut e bounds arena outer _ _

/-- `a` is built in an empty arena and behind a state of another one, and twice there for
`a{2}`. -/
theorem fragment_position_independent_of_literal :
    let e : Expr := .literal 'a'
    let twice : Bounds := ⟨2, some 2, fun _ same => Nat.le_of_eq (Option.some.inj same)⟩
    let arena : Arena := .empty .standard
    let other : Arena := ⟨#[.dead], 3, ⟨8, 5⟩⟩
    ∃ arena' part other' part' outer' whole,
      (fragment e).run arena = .ok (part, arena') ∧ (fragment e).run other = .ok (part', other') ∧
        (fragment (.counted e twice)).run other = .ok (whole, outer') ∧
          Appends e arena arena' part ∧ Moved arena arena' part other other' part' ∧
            Copied e twice arena arena' part other outer' whole := by
  intro e twice arena other
  have built : (fragment e).run arena = .ok (⟨0, 1, .exactly 1⟩, laidOut e arena) := rfl
  have again : (fragment e).run other = .ok (⟨1, 2, .exactly 1⟩, laidOut e other) := rfl
  have builds : ((fragment (.counted e twice)).run other).isOk = true := by decide +kernel
  obtain ⟨appends, moved, copied⟩ := fragment_position_independent e _ _ _ built
  cases counted : (fragment (.counted e twice)).run other with
  | error fault =>
    rw [counted] at builds
    cases builds
  | ok result =>
    exact ⟨_, _, _, _, result.2, result.1, built, again, rfl, appends, moved _ _ _ again,
      copied _ _ _ _ counted⟩

end Build

end FullMatch.Nfa
