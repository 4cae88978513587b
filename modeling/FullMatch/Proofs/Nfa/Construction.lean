import FullMatch.Proofs.Nfa.Layout
import FullMatch.Proofs.Nfa.Path

/-!
# Every block is proper

Each way to build a block from smaller ones keeps blocks proper, so the block of every expression is
proper (`block_proper`). For its automaton this means that every edge leads to a state that exists
(`ofBlock_wellFormed`), and that the exit is the one state that accepts (`ofBlock_accepting_iff`).
-/

namespace FullMatch.Nfa

variable {nfa : Nfa}

namespace Block

theorem proper_empty : empty.Proper where
  entry_lt := by decide
  entry_ne_exit := by decide
  laid_out base := by
    refine ⟨[.ofSilent {base + 1}], [], fun x => rfl, rfl, rfl, ?_⟩
    intro s member
    obtain rfl := List.mem_singleton.mp member
    apply State.Inside.ofSilent
    intro r edge
    have target := StateSet.mem_singleton.mp edge
    simp only [empty]
    omega

theorem proper_symbol (label : CharSet) : (symbol label).Proper where
  entry_lt := by simp [symbol]
  entry_ne_exit := by simp [symbol]
  laid_out base := by
    refine ⟨[.ofEdge label (base + 1)], [], fun x => rfl, rfl, rfl, ?_⟩
    intro s member
    obtain rfl := List.mem_singleton.mp member
    apply State.Inside.ofEdge
    simp only [symbol]
    omega

theorem proper_append {a b : Block} (first : a.Proper) (second : b.Proper) :
    (a.append b).Proper where
  entry_lt := by
    have entry := first.entry_lt
    simp only [append]
    omega
  entry_ne_exit := by
    have entry := first.entry_lt
    simp only [append]
    omega
  laid_out base := by
    obtain ⟨before, after, states, exit, size, inside⟩ := second.laid_out (base + a.size)
    have entryA := first.entry_lt
    have entryB := second.entry_lt
    have lengthA := first.length_states base (.into {base + a.size + b.entry})
    refine ⟨a.states base (.into {base + a.size + b.entry}) ++ before, after, ?_, ?_, ?_, ?_⟩
    · intro x
      simp [append, states]
    · simp only [append, List.length_append]
      omega
    · simp only [append]
      omega
    · intro s member
      simp only [append]
      rw [List.append_assoc, List.mem_append] at member
      rcases member with left | right
      · rcases first.mem_states left with rfl | inner
        · apply State.Inside.ofSilent
          intro r edge
          have target := StateSet.mem_singleton.mp edge
          omega
        · exact inner.widen (by omega) (by omega) (.inl rfl)
      · exact (inside s right).widen (by omega) (by omega) (by omega)

section Repetition

variable {op : RepeatOp} {b : Block} {base r : Nat}

theorem mem_openings :
    r ∈ b.openings op base ↔ r = base + b.entry ∨ op.skips ∧ r = base + b.size + 1 := by
  rw [openings]
  split
  · next skips => rw [StateSet.mem_pair]; simp [skips]
  · next needed => rw [StateSet.mem_singleton]; simp [needed]

theorem mem_closings :
    r ∈ b.closings op base ↔ op.loops ∧ r = base + b.entry ∨ r = base + b.size + 1 := by
  rw [closings]
  split
  · next loops => rw [StateSet.mem_pair]; simp [loops]
  · next once => rw [StateSet.mem_singleton]; simp [once]

theorem proper_repeated (proper : b.Proper) : (b.repeated op).Proper where
  entry_lt := by simp [repeated]
  entry_ne_exit := by simp [repeated]
  laid_out base := by
    have entry := proper.entry_lt
    have length := proper.length_states base (.into (b.closings op base))
    refine ⟨b.states base (.into (b.closings op base)) ++ [.ofSilent (b.openings op base)], [],
      ?_, ?_, rfl, ?_⟩
    · intro x
      simp [repeated]
    · simp only [repeated, List.length_append, List.length_singleton]
      omega
    · intro s member
      simp only [repeated]
      rw [List.append_nil, List.mem_append, List.mem_singleton] at member
      rcases member with operand | rfl
      · rcases proper.mem_states operand with rfl | inner
        · apply State.Inside.ofSilent
          intro r edge
          have target := mem_closings.mp edge
          omega
        · exact inner.widen (by omega) (by omega) (by omega)
      · apply State.Inside.ofSilent
        intro r edge
        have target := mem_openings.mp edge
        omega

end Repetition

section Fork

variable {x : Exit} {base q : Nat} {blocks : List Block}

/-- The states of blocks side by side, in one list. -/
def sideBySide (x : Exit) (base : Nat) : List Block → List State
  | [] => []
  | b :: blocks => b.states base x ++ sideBySide x (base + b.size) blocks

/-- The entries of blocks side by side. -/
def entriesFrom (base : Nat) : List Block → List Nat
  | [] => []
  | b :: blocks => (base + b.entry) :: entriesFrom (base + b.size) blocks

theorem totalSize_cons (b : Block) (blocks : List Block) :
    totalSize (b :: blocks) = b.size + totalSize blocks := by
  simp [totalSize_eq]

theorem forkOnto_states (done : List (List State)) (entries : StateSet) :
    (forkOnto x done entries base blocks).1.reverse.flatten =
      done.reverse.flatten ++ sideBySide x base blocks := by
  induction blocks generalizing done entries base with
  | nil => simp [forkOnto, sideBySide]
  | cons b blocks ih => simp [forkOnto, sideBySide, ih]

theorem mem_forkOnto_entries {done : List (List State)} {entries : StateSet} :
    q ∈ (forkOnto x done entries base blocks).2 ↔ q ∈ entries ∨ q ∈ entriesFrom base blocks := by
  induction blocks generalizing done entries base with
  | nil => simp [forkOnto, entriesFrom]
  | cons b blocks ih =>
    rw [forkOnto, ih, StateSet.mem_insert, entriesFrom, List.mem_cons]
    grind

theorem length_sideBySide (proper : ∀ b ∈ blocks, b.Proper) (base : Nat) (x : Exit) :
    (sideBySide x base blocks).length = totalSize blocks := by
  induction blocks generalizing base with
  | nil => rfl
  | cons b blocks ih =>
    have rest := ih (fun c member => proper c (List.mem_cons_of_mem b member)) (base + b.size)
    rw [sideBySide, List.length_append, rest, totalSize_cons,
      (proper b List.mem_cons_self).length_states]

theorem entriesFrom_inside (proper : ∀ b ∈ blocks, b.Proper)
    (member : q ∈ entriesFrom base blocks) :
    base ≤ q ∧ q < base + totalSize blocks := by
  induction blocks generalizing base with
  | nil => exact absurd member List.not_mem_nil
  | cons b blocks ih =>
    rw [totalSize_cons]
    rcases List.mem_cons.mp member with rfl | later
    · have entry := (proper b List.mem_cons_self).entry_lt
      omega
    · have behind := ih (fun c known => proper c (List.mem_cons_of_mem b known)) later
      omega

/-- A state of blocks side by side is one of their exits or an inner state. -/
theorem mem_sideBySide (proper : ∀ b ∈ blocks, b.Proper) {s : State} {entry : Nat}
    (outside : entry < base) (member : s ∈ sideBySide x base blocks) :
    s = x.state ∨ s.Inside base (base + totalSize blocks) entry := by
  induction blocks generalizing base with
  | nil => exact absurd member List.not_mem_nil
  | cons b blocks ih =>
    rw [totalSize_cons]
    rcases List.mem_append.mp member with here | later
    · rcases (proper b List.mem_cons_self).mem_states here with rfl | inner
      · exact .inl rfl
      · exact .inr (inner.widen (by omega) (by omega) (by omega))
    · have others : ∀ c ∈ blocks, c.Proper :=
        fun c known => proper c (List.mem_cons_of_mem b known)
      rcases ih others (by omega) later with rfl | inner
      · exact .inl rfl
      · exact .inr (inner.widen (by omega) (by omega) (by omega))

/-- Where a fork leads from its entry. -/
def branches (blocks : List Block) (base : Nat) : StateSet :=
  (forkOnto (.into {base + 1}) [] ∅ (base + 2) blocks).2

theorem mem_branches : q ∈ branches blocks base ↔ q ∈ entriesFrom (base + 2) blocks := by
  rw [branches, mem_forkOnto_entries]
  simp

theorem fork_states (blocks : List Block) (base : Nat) (x : Exit) :
    (fork blocks).states base x =
      .ofSilent (branches blocks base) :: x.state ::
        sideBySide (.into {base + 1}) (base + 2) blocks := by
  simp [fork, branches, forkOnto_states]

theorem proper_fork (proper : ∀ b ∈ blocks, b.Proper) : (fork blocks).Proper where
  entry_lt := by
    simp only [fork]
    omega
  entry_ne_exit := by simp [fork]
  laid_out base := by
    refine ⟨[.ofSilent (branches blocks base)], sideBySide (.into {base + 1}) (base + 2) blocks,
      fork_states blocks base, rfl, ?_, ?_⟩
    · simp only [fork]
      rw [length_sideBySide proper]
    · intro s member
      simp only [fork]
      rcases List.mem_cons.mp member with rfl | inBranch
      · apply State.Inside.ofSilent
        intro r edge
        have target := entriesFrom_inside proper (mem_branches.mp edge)
        omega
      · rcases mem_sideBySide proper (Nat.lt_add_of_pos_right (by decide)) inBranch with rfl | inner
        · apply State.Inside.ofSilent
          intro r edge
          have target := StateSet.mem_singleton.mp edge
          omega
        · exact inner.widen (by omega) (by omega) (.inl rfl)

end Fork

section Count

variable {bounds : Bounds} {b : Block} {base taken r : Nat}

theorem mem_continuation :
    r ∈ continuation bounds b base taken ↔
      taken < bounds.copies ∧ r = b.copyEntry (base + 2) taken ∨
        bounds.least ≤ taken ∧ r = base + 1 ∨
          bounds.most = none ∧ bounds.least < taken ∧
            r = b.copyEntry (base + 2) bounds.least := by
  have next : r ∈ (if taken < bounds.copies then {b.copyEntry (base + 2) taken} else ∅ : StateSet) ↔
      taken < bounds.copies ∧ r = b.copyEntry (base + 2) taken := by
    split
    · next more => rw [StateSet.mem_singleton]; simp [more]
    · next last => simp [last]
  simp only [continuation, Bool.and_eq_true, Option.isNone_iff_eq_none, decide_eq_true_eq]
  split <;> split <;> simp only [StateSet.mem_insert, next] <;> grind

theorem copyEntry_inside (proper : b.Proper) (base : Nat) {copies i : Nat} (present : i < copies) :
    base ≤ b.copyEntry base i ∧ b.copyEntry base i < base + copies * b.size := by
  have entry := proper.entry_lt
  have room : (i + 1) * b.size ≤ copies * b.size := Nat.mul_le_mul_right b.size present
  rw [Nat.add_one_mul] at room
  simp only [copyEntry]
  omega

/-- The states of copy `i` of a counted block. -/
def copyStates (bounds : Bounds) (b : Block) (base i : Nat) : List State :=
  b.states (base + 2 + i * b.size) (.into (continuation bounds b base (i + 1)))

theorem counted_states (bounds : Bounds) (b : Block) (base : Nat) (x : Exit) :
    (counted bounds b).states base x =
      .ofSilent (continuation bounds b base 0) :: x.state ::
        (List.range bounds.copies).flatMap (copyStates bounds b base) :=
  rfl

theorem length_flatMap_copyStates (proper : b.Proper) (base n : Nat) :
    ((List.range n).flatMap (copyStates bounds b base)).length = n * b.size := by
  induction n with
  | zero => simp
  | succ n ih =>
    rw [List.range_succ, List.flatMap_append, List.length_append, ih, List.flatMap_singleton,
      copyStates, proper.length_states, Nat.add_one_mul]

/-- The copies of a block stand one behind the other. -/
theorem stands_copyStates (proper : b.Proper) {start n i : Nat}
    (stands : nfa.Stands start ((List.range n).flatMap (copyStates bounds b base)))
    (present : i < n) : nfa.Stands (start + i * b.size) (copyStates bounds b base i) := by
  induction n with
  | zero => exact absurd present (Nat.not_lt_zero i)
  | succ n ih =>
    rw [List.range_succ, List.flatMap_append, List.flatMap_singleton] at stands
    by_cases last : i = n
    · subst last
      have behind := stands.right
      rwa [length_flatMap_copyStates proper] at behind
    · exact ih stands.left (by omega)

/-- A continuation leads to the exit or to the entry of a copy. -/
theorem continuation_inside (proper : b.Proper) (edge : r ∈ continuation bounds b base taken) :
    base < r ∧ r < base + 2 + bounds.copies * b.size := by
  rcases mem_continuation.mp edge with ⟨more, rfl⟩ | ⟨_, rfl⟩ | ⟨unbounded, _, rfl⟩
  · have inside := copyEntry_inside proper (base + 2) more
    omega
  · omega
  · have last : bounds.least < bounds.copies := by
      rw [Bounds.copies_of_most_eq_none unbounded]
      exact Nat.lt_add_one _
    have inside := copyEntry_inside proper (base + 2) last
    omega

theorem proper_counted (proper : b.Proper) : (counted bounds b).Proper where
  entry_lt := by
    simp only [counted]
    omega
  entry_ne_exit := by simp [counted]
  laid_out base := by
    refine ⟨[.ofSilent (continuation bounds b base 0)],
      (List.range bounds.copies).flatMap (copyStates bounds b base), counted_states bounds b base,
      rfl, ?_, ?_⟩
    · simp only [counted]
      rw [length_flatMap_copyStates proper]
    · intro s member
      have continued (taken : Nat) : (State.ofSilent (continuation bounds b base taken)).Inside base
          (base + (counted bounds b).size) (base + (counted bounds b).entry) := by
        apply State.Inside.ofSilent
        intro r edge
        have target := continuation_inside proper edge
        simp only [counted]
        omega
      rcases List.mem_cons.mp member with rfl | copied
      · exact continued 0
      · obtain ⟨i, present, inCopy⟩ := List.mem_flatMap.mp copied
        have room : (i + 1) * b.size ≤ bounds.copies * b.size :=
          Nat.mul_le_mul_right b.size (List.mem_range.mp present)
        rw [Nat.add_one_mul] at room
        rcases proper.mem_states inCopy with rfl | inner
        · exact continued (i + 1)
        · simp only [counted]
          exact inner.widen (by omega) (by omega) (by omega)

end Count

end Block

/-- The block of an alternation is a fork of the blocks of its branches. -/
theorem block_alternate (l r : Expr) :
    block (.alternate l r) = .fork ((Expr.alternate l r).alternatives.map block) :=
  Expr.fold_alternate Block.algebra l r

/-- The block of every expression is proper. -/
theorem block_proper (e : Expr) : (block e).Proper := by
  induction e using Expr.branchInduction with
  | empty => exact Block.proper_empty
  | atom a => exact Block.proper_symbol a.chars
  | concat l r left right =>
    rw [block_concat]
    exact Block.proper_append left right
  | alternate l r branches =>
    rw [block_alternate]
    apply Block.proper_fork
    intro b member
    obtain ⟨e, branch, rfl⟩ := List.mem_map.mp member
    exact branches e branch
  | repeated op e operand => exact Block.proper_repeated operand
  | counted e b operand => exact Block.proper_counted operand

section Automaton

variable {e : Expr} {q : Nat}

theorem size_ofBlock (e : Expr) : (ofBlock e).states.size = (block e).size := by
  simp [ofBlock, (block_proper e).length_states]

/-- The exit of the whole automaton has no edges and accepts. -/
theorem ofBlock_state_exit (e : Expr) : (ofBlock e).state (block e).exit = ⟨[], ∅, true⟩ := by
  have exit := (block_proper e).state_exit (ofBlock_stands e)
  rwa [Nat.zero_add] at exit

/-- Any other state of the automaton is an inner one. -/
theorem ofBlock_state_inside (present : q < (block e).size) (inner : q ≠ (block e).exit) :
    ((ofBlock e).state q).Inside 0 (block e).size (block e).entry := by
  have inside := (block_proper e).state_inside (ofBlock_stands e) (Nat.zero_le q)
    (by omega) (by omega)
  simpa using inside

theorem ofBlock_state_absent (absent : (block e).size ≤ q) : (ofBlock e).state q = .dead := by
  rw [state, Array.getD_eq_getD_getElem?, Array.getElem?_eq_none, Option.getD_none]
  rwa [size_ofBlock]

/-- A state of the automaton of an expression is the exit, an inner state, or does not exist. -/
theorem ofBlock_state_cases (e : Expr) (q : Nat) :
    q = (block e).exit ∧ (ofBlock e).state q = ⟨[], ∅, true⟩ ∨
      ((ofBlock e).state q).Inside 0 (block e).size (block e).entry ∨
        (ofBlock e).state q = .dead := by
  by_cases final : q = (block e).exit
  · exact .inl ⟨final, final ▸ ofBlock_state_exit e⟩
  · by_cases present : q < (block e).size
    · exact .inr (.inl (ofBlock_state_inside present final))
    · exact .inr (.inr (ofBlock_state_absent (Nat.le_of_not_lt present)))

/-- Every edge of the automaton of an expression leads to a state that exists. -/
theorem ofBlock_wellFormed (e : Expr) : (ofBlock e).WellFormed where
  start_lt := by
    rw [size_ofBlock]
    exact (block_proper e).entry_lt
  silent_lt p r edge := by
    rw [size_ofBlock]
    rcases ofBlock_state_cases e p with ⟨_, exit⟩ | inside | absent
    · rw [exit] at edge
      exact absurd edge Std.ExtTreeSet.not_mem_empty
    · exact (inside.silent_inside r edge).2.1
    · rw [absent] at edge
      exact absurd edge Std.ExtTreeSet.not_mem_empty
  target_lt p t edge := by
    rw [size_ofBlock]
    rcases ofBlock_state_cases e p with ⟨_, exit⟩ | inside | absent
    · rw [exit] at edge
      exact absurd edge List.not_mem_nil
    · exact (inside.edges_inside t edge).2.1
    · rw [absent] at edge
      exact absurd edge List.not_mem_nil

/-- The exit is the one state that accepts. -/
theorem ofBlock_accepting_iff (e : Expr) (q : Nat) :
    ((ofBlock e).state q).accepting = true ↔ q = (block e).exit := by
  constructor
  · intro accepts
    rcases ofBlock_state_cases e q with ⟨final, _⟩ | inside | absent
    · exact final
    · exact absurd accepts (by simp [inside.rejects])
    · exact absurd accepts (by simp [absent, State.dead])
  · rintro rfl
    rw [ofBlock_state_exit]

end Automaton

end FullMatch.Nfa
