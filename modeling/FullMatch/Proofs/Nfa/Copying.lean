import FullMatch.Proofs.Nfa.Laying

/-!
# Counts in place

A count is built as a chain. Each copy of the operand is laid out behind the last one, and where the
chain ended, it is led on to the new copy. The states of a chain under way are those of the block of
the count, except that its end does not lead anywhere yet (`Build.trail`).
-/

namespace FullMatch.Nfa.Build

section Trail

variable {arena : Arena} {b : Block} {full : Nat → StateSet} {silent : StateSet}
  {base n m r : Nat}

/-- A pair and `n` copies of a block. Where the chain ends, at the last copy or at the entry of the
pair if there is none, it leads to the states of a set; what stands before goes on as in a chain
that is `full`. -/
def trail (b : Block) (full : Nat → StateSet) (base : Nat) : (n : Nat) → StateSet → List State
  | 0, silent => [.ofSilent silent, Exit.final.state]
  | n + 1, silent =>
    trail b full base n (full n) ++ b.states (base + 2 + n * b.size) (.into silent)

/-- Where a chain of `n` copies ends, counted from the entry of the pair. -/
def chainEnd (b : Block) : (n : Nat) → Nat
  | 0 => 0
  | n + 1 => 2 + n * b.size + b.exit

theorem length_trail (proper : b.Proper) (full : Nat → StateSet) (base n : Nat)
    (silent : StateSet) : (trail b full base n silent).length = 2 + n * b.size := by
  induction n generalizing silent with
  | zero =>
    rw [Nat.zero_mul]
    rfl
  | succ n ih =>
    rw [trail, List.length_append, ih, proper.length_states, Nat.add_one_mul, Nat.add_assoc]

/-- A chain that ends as a full one does. -/
theorem trail_eq (b : Block) (full : Nat → StateSet) (base n : Nat) :
    trail b full base n (full n) = .ofSilent (full 0) :: Exit.final.state ::
      (List.range n).flatMap fun i => b.states (base + 2 + i * b.size) (.into (full (i + 1))) := by
  induction n with
  | zero => rfl
  | succ n ih =>
    rw [trail, ih, List.range_succ, List.flatMap_append, List.flatMap_singleton]
    rfl

/-- Only one state of a chain depends on where its end leads. -/
theorem trail_split (proper : b.Proper) (full : Nat → StateSet) (base n : Nat) :
    ∃ front back, (∀ silent, trail b full base n silent = front ++ .ofSilent silent :: back) ∧
      front.length = chainEnd b n := by
  cases n with
  | zero => exact ⟨[], [Exit.final.state], fun silent => rfl, rfl⟩
  | succ n =>
    obtain ⟨front, back, states, exit, -, -⟩ := proper.laid_out (base + 2 + n * b.size)
    refine ⟨trail b full base n (full n) ++ front, back, fun silent => ?_, ?_⟩
    · rw [trail, states, List.append_assoc]
      rfl
    · rw [List.length_append, length_trail proper, exit, chainEnd]

theorem yields_link_trail (proper : b.Proper) (after : List State) :
    Yields (link (arena.states.size + chainEnd b n) r)
      (arena.grown (trail b full base n silent ++ after) m)
      (arena.grown (trail b full base n (silent.insert r) ++ after) m) () := by
  obtain ⟨front, back, states, length⟩ := trail_split proper full base n
  rw [states, states, List.append_assoc, List.append_assoc]
  refine yields_link front ?_
  rw [length]

theorem yields_link_end (proper : b.Proper) :
    Yields (link (arena.states.size + chainEnd b n) r)
      (arena.grown (trail b full base n silent) m)
      (arena.grown (trail b full base n (silent.insert r)) m) () := by
  rw [← List.append_nil (trail b full base n silent),
    ← List.append_nil (trail b full base n (silent.insert r))]
  exact yields_link_trail proper []

theorem yields_linkIf_end {wanted : Bool} (proper : b.Proper) :
    Yields (linkIf wanted (arena.states.size + chainEnd b n) r)
      (arena.grown (trail b full base n silent) m)
      (arena.grown (trail b full base n (if wanted then silent.insert r else silent)) m) () := by
  cases wanted with
  | false => exact yields_pure rfl rfl
  | true => exact yields_link_end proper

end Trail

section Copies

variable {arena : Arena} {f : Build Fragment} {b : Block} {lengths : LengthRange} {labels : Nat}
  {silent : StateSet} {n m : Nat}

/-- One more copy is taken at the end of a chain, which is led on to it. -/
theorem yields_takeCopy (proper : b.Proper) (lays : Lays f b lengths labels)
    (full : Nat → StateSet) (unit : LengthRange)
    (leads : silent.insert (b.copyEntry (arena.states.size + 2) n) = full n) :
    Yields (takeCopy f ⟨arena.states.size + chainEnd b n, unit⟩)
      (arena.grown (trail b full arena.states.size n silent) m)
      (arena.grown (trail b full arena.states.size (n + 1) ∅) (m + labels))
      ⟨arena.states.size + chainEnd b (n + 1), lengths⟩ := by
  have copied := lays.behind arena (trail b full arena.states.size n silent) m
  rw [length_trail proper, ← Nat.add_assoc] at copied
  refine copied.bind ?_
  refine (yields_link_trail proper _).bind ?_
  refine (yields_demote_last proper _ ?_).bind (yields_pure ?_ ?_)
  · rw [length_trail proper, ← Nat.add_assoc]
  · simp [chainEnd, Nat.add_assoc]
  · rw [trail, ← leads]
    rfl

/-- The lengths in hand when a chain has `n` copies. -/
def unitOf (lengths : LengthRange) (n : Nat) : LengthRange :=
  if n = 0 then .exactly 0 else lengths

/-- Lengths that no copy has are not asked for. -/
theorem unitOf_times (lengths : LengthRange) (bounds : Bounds) :
    (unitOf lengths bounds.copies).times bounds = lengths.times bounds := by
  rw [unitOf]
  split
  case isFalse => rfl
  case isTrue none =>
    cases bounded : bounds.most with
    | none =>
      rw [Bounds.copies_of_most_eq_none bounded] at none
      omega
    | some most =>
      rw [Bounds.copies_of_most_eq_some bounded] at none
      subst none
      have least : bounds.least = 0 := Nat.le_zero.mp (bounds.least_le_most 0 bounded)
      simp [LengthRange.times, bounded, least]

/-- A chain grows by `k` copies, in front of each of which it goes on as a full one does. -/
theorem yields_takeCopies {mayLeave : Bool} (proper : b.Proper) (lays : Lays f b lengths labels)
    (full : Nat → StateSet) (k : Nat)
    (leads : ∀ i, n ≤ i → i < n + k →
      (if mayLeave then (∅ : StateSet).insert (arena.states.size + 1) else ∅).insert
        (b.copyEntry (arena.states.size + 2) i) = full i) :
    Yields (takeCopies f (arena.states.size + 1) mayLeave k
        ⟨arena.states.size + chainEnd b n, unitOf lengths n⟩)
      (arena.grown (trail b full arena.states.size n ∅) m)
      (arena.grown (trail b full arena.states.size (n + k) ∅) (m + k * labels))
      ⟨arena.states.size + chainEnd b (n + k), unitOf lengths (n + k)⟩ := by
  induction k generalizing n m with
  | zero =>
    refine yields_pure rfl ?_
    rw [Nat.zero_mul]
    rfl
  | succ k ih =>
    have first := leads n (Nat.le_refl n) (by omega)
    have later : ∀ i, n + 1 ≤ i → i < n + 1 + k → _ := fun i low high =>
      leads i (by omega) (by omega)
    refine (yields_linkIf_end proper).bind ?_
    refine (yields_takeCopy proper lays full _ first).bind ?_
    have rest := ih (m := m + labels) later
    rwa [Nat.add_assoc n, Nat.add_comm 1 k, Nat.add_assoc m, Nat.add_comm labels,
      ← Nat.add_one_mul] at rest

end Copies

section Count

variable {b : Block} {bounds : Bounds} {base i most : Nat}

theorem insert_continuation_of_lt (needed : i < bounds.least) :
    (∅ : StateSet).insert (b.copyEntry (base + 2) i) = b.continuation bounds base i := by
  refine Std.ExtTreeSet.ext_mem fun q => ?_
  have more := Nat.lt_of_lt_of_le needed bounds.least_le_copies
  rw [StateSet.mem_insert, Block.mem_continuation]
  simp [more, Nat.not_le.mpr needed, Nat.not_lt.mpr (Nat.le_of_lt needed)]

theorem insert_continuation_of_le (bounded : bounds.most = some most)
    (enough : bounds.least ≤ i) (more : i < most) :
    ((∅ : StateSet).insert (base + 1)).insert (b.copyEntry (base + 2) i) =
      b.continuation bounds base i := by
  refine Std.ExtTreeSet.ext_mem fun q => ?_
  rw [StateSet.mem_insert, StateSet.mem_insert, Block.mem_continuation]
  simp [Bounds.copies_of_most_eq_some bounded, more, bounded, enough]

theorem insert_continuation_most (bounded : bounds.most = some most) :
    (∅ : StateSet).insert (base + 1) = b.continuation bounds base most := by
  refine Std.ExtTreeSet.ext_mem fun q => ?_
  rw [StateSet.mem_insert, Block.mem_continuation]
  simp [Bounds.copies_of_most_eq_some bounded, bounded, bounds.least_le_most most bounded]

theorem insert_continuation_least (unbounded : bounds.most = none) :
    ((∅ : StateSet).insert (base + 1)).insert (b.copyEntry (base + 2) bounds.least) =
      b.continuation bounds base bounds.least := by
  refine Std.ExtTreeSet.ext_mem fun q => ?_
  rw [StateSet.mem_insert, StateSet.mem_insert, Block.mem_continuation]
  simp [Bounds.copies_of_most_eq_none unbounded]

theorem insert_continuation_loop (unbounded : bounds.most = none) :
    ((∅ : StateSet).insert (b.copyEntry (base + 2) bounds.least)).insert (base + 1) =
      b.continuation bounds base (bounds.least + 1) := by
  refine Std.ExtTreeSet.ext_mem fun q => ?_
  rw [StateSet.mem_insert, StateSet.mem_insert, Block.mem_continuation]
  simp [Bounds.copies_of_most_eq_none unbounded, unbounded]

variable {arena : Arena} {f : Build Fragment} {lengths : LengthRange} {labels m : Nat}

/-- The copies beyond those that are needed make the chain full. -/
theorem yields_takeRest (proper : b.Proper) (lays : Lays f b lengths labels) :
    Yields (takeRest f (arena.states.size + 1) bounds
        ⟨arena.states.size + chainEnd b bounds.least, unitOf lengths bounds.least⟩)
      (arena.grown (trail b (b.continuation bounds arena.states.size) arena.states.size
        bounds.least ∅) m)
      (arena.grown ((Block.counted bounds b).states arena.states.size .final)
        (m + (bounds.copies - bounds.least) * labels))
      ⟨arena.states.size + chainEnd b bounds.copies, unitOf lengths bounds.copies⟩ := by
  have whole : (Block.counted bounds b).states arena.states.size .final =
      trail b (b.continuation bounds arena.states.size) arena.states.size bounds.copies
        (b.continuation bounds arena.states.size bounds.copies) :=
    (trail_eq b _ _ _).symm
  rw [whole, takeRest]
  cases bounded : bounds.most with
  | some most =>
    rw [Bounds.copies_of_most_eq_some bounded]
    refine (yields_takeCopies proper lays (b.continuation bounds arena.states.size)
      (most - bounds.least) ?_).bind ?_
    · intro i enough more
      exact insert_continuation_of_le bounded enough (by omega)
    · rw [Nat.add_sub_cancel' (bounds.least_le_most most bounded),
        ← insert_continuation_most bounded]
      exact (yields_link_end proper).bind (yields_pure rfl rfl)
  | none =>
    let front := trail b (b.continuation bounds arena.states.size) arena.states.size bounds.least
    have copied := lays.behind arena (front ∅) m
    have place (silent : StateSet) : arena.states.size + 2 + bounds.least * b.size + b.exit =
        arena.states.size + (front silent).length + b.exit := by
      rw [length_trail proper, ← Nat.add_assoc]
    rw [length_trail proper, ← Nat.add_assoc] at copied
    rw [Bounds.copies_of_most_eq_none bounded]
    refine copied.bind ?_
    refine (yields_link_trail proper _).bind ?_
    refine (yields_link_trail proper _).bind ?_
    refine (yields_link_last proper _ (place _)).bind ?_
    refine (yields_link_last proper _ (place _)).bind ?_
    refine (yields_demote_last proper _ (place _)).bind (yields_pure ?_ ?_)
    · simp [chainEnd, unitOf, Nat.add_assoc]
    · rw [trail, ← insert_continuation_least bounded, ← insert_continuation_loop bounded,
        Nat.add_sub_cancel_left, Nat.one_mul]
      rfl

/-- A part under a count is the block of the count. -/
theorem lays_counted (proper : b.Proper) (lays : Lays f b lengths labels) :
    Lays (counted bounds f) (.counted bounds b) (lengths.times bounds)
      (bounds.copies * labels) := by
  intro arena
  have needed : Yields (takeCopies f (arena.states.size + 1) false bounds.least
      ⟨arena.states.size, .exactly 0⟩) (arena.grown [.dead, Exit.final.state] 0) _ _ :=
    yields_takeCopies (n := 0) proper lays (b.continuation bounds arena.states.size) bounds.least
      fun i _ early => insert_continuation_of_lt (by omega)
  simp only [Nat.zero_add] at needed
  refine (yields_addPair arena).bind (needed.bind ?_)
  refine (yields_takeRest proper lays).bind (yields_pure ?_ ?_)
  · rw [unitOf_times]
    rfl
  · rw [← Nat.add_mul, Nat.add_sub_cancel' bounds.least_le_copies]

end Count

end FullMatch.Nfa.Build
