import FullMatch.Proofs.Length.Accepted
import FullMatch.Proofs.Nfa.Copying

/-!
# The automaton built in place

Building an expression in an arena lays its block out behind the states that are there
(`Build.fragment_lays`). Along the spine of a concatenation it does what building operand by operand
does (`Build.fragment_concat`).
-/

namespace FullMatch.Nfa

namespace Build

section Fork

variable {arena : Arena} {f : Build Fragment} {b : Block} {lengths lengths' : LengthRange}
  {labels base n : Nat} {es : List Expr} {entries : StateSet} {done : List State}

/-- A pair whose entry leads to the states of a set, and states behind it. -/
def paired (entries : StateSet) (states : List State) : List State :=
  .ofSilent entries :: Exit.final.state :: states

theorem length_paired (entries : StateSet) (states : List State) :
    (paired entries states).length = 2 + states.length := by
  rw [paired, List.length_cons, List.length_cons, Nat.add_comm 2]

/-- A branch is hung behind the others. -/
theorem yields_hang (proper : b.Proper) (lays : Lays f b lengths' labels)
    (behind : base = arena.states.size + (2 + done.length)) :
    Yields (hang arena.states.size (arena.states.size + 1) lengths f)
      (arena.grown (paired entries done) n)
      (arena.grown (paired (entries.insert (base + b.entry))
        (done ++ b.states base (.into {arena.states.size + 1}))) (n + labels))
      (lengths.hull lengths') := by
  have laid := lays.behind arena (paired entries done) n
  rw [length_paired, ← behind] at laid
  have place (entries : StateSet) :
      base + b.exit = arena.states.size + (paired entries done).length + b.exit := by
    rw [length_paired, behind]
  refine laid.bind ?_
  refine (yields_link [] rfl).bind ?_
  refine (yields_link_last proper _ (place _)).bind ?_
  exact (yields_demote_last proper _ (place _)).bind (yields_pure rfl rfl)

/-- Branches are hung side by side. -/
theorem yields_hangs
    (branches : ∀ e ∈ es, (block e).Proper ∧ Lays (fragment e) (block e) e.lengths e.labels)
    (behind : base = arena.states.size + (2 + done.length)) :
    Yields ((es.map fragment).foldlM (hang arena.states.size (arena.states.size + 1)) lengths)
      (arena.grown (paired entries done) n)
      (arena.grown (paired ((Block.entriesFrom base (es.map block)).foldl .insert entries)
        (done ++ Block.sideBySide (.into {arena.states.size + 1}) base (es.map block)))
        (n + (es.map Expr.labels).sum))
      ((es.map Expr.lengths).foldl .hull lengths) := by
  induction es generalizing entries done lengths n base with
  | nil =>
    refine yields_pure rfl ?_
    simp [Block.entriesFrom, Block.sideBySide]
  | cons e es ih =>
    obtain ⟨proper, lays⟩ := branches e List.mem_cons_self
    have next : base + (block e).size = arena.states.size +
        (2 + (done ++ (block e).states base (.into {arena.states.size + 1})).length) := by
      rw [List.length_append, proper.length_states, behind]
      omega
    have laid : done ++ Block.sideBySide (.into {arena.states.size + 1}) base
          ((e :: es).map block) =
        done ++ (block e).states base (.into {arena.states.size + 1}) ++
          Block.sideBySide (.into {arena.states.size + 1}) (base + (block e).size)
            (es.map block) := (List.append_assoc ..).symm
    have labels : n + ((e :: es).map Expr.labels).sum =
        n + e.labels + (es.map Expr.labels).sum := by
      rw [List.map_cons, List.sum_cons, Nat.add_assoc]
    rw [laid, labels]
    exact (yields_hang proper lays behind).bind
      (ih (fun e' member => branches e' (List.mem_cons_of_mem e member)) next)

theorem foldl_insert_entriesFrom (base : Nat) (blocks : List Block) :
    (Block.entriesFrom (base + 2) blocks).foldl .insert ∅ = Block.branches blocks base := by
  refine Std.ExtTreeSet.ext_mem fun q => ?_
  have member (targets : List Nat) (entries : StateSet) :
      q ∈ targets.foldl .insert entries ↔ q ∈ entries ∨ q ∈ targets := by
    induction targets generalizing entries with
    | nil => simp
    | cons r targets ih =>
      rw [List.foldl_cons, ih, StateSet.mem_insert, List.mem_cons]
      grind
  rw [member, Block.mem_branches]
  simp

/-- Widening by an interval within the cap leaves that interval. -/
theorem hull_of_least_le {r : LengthRange} (capped : r.least ≤ LengthRange.cap) :
    LengthRange.hull ⟨LengthRange.cap, some 0⟩ r = r := by
  obtain ⟨least, greatest⟩ := r
  have smaller : min LengthRange.cap least = least := Nat.min_eq_right capped
  cases greatest with
  | none => simp [LengthRange.hull, smaller]
  | some most => simp [LengthRange.hull, smaller]

/-- Nothing is lost by starting from the lengths of no branch at all. -/
theorem foldl_hull (nonempty : es ≠ []) :
    (es.map Expr.lengths).foldl .hull ⟨LengthRange.cap, some 0⟩ =
      LengthRange.choice (es.map Expr.lengths) := by
  cases es with
  | nil => exact absurd rfl nonempty
  | cons e es =>
    have capped : e.lengths.least ≤ LengthRange.cap := by
      rw [Expr.lengths_least]
      exact Nat.min_le_right _ _
    rw [List.map_cons, List.foldl_cons, hull_of_least_le capped]
    rfl

end Fork

section Spine

theorem fragment_alternate (l r : Expr) :
    fragment (.alternate l r) = choice ((Expr.alternate l r).alternatives.map fragment) :=
  Expr.fold_alternate algebra l r

/-- Branches between a pair are the fork of their blocks. -/
theorem lays_alternate (l r : Expr)
    (branches : ∀ e ∈ (Expr.alternate l r).alternatives,
      Lays (fragment e) (block e) e.lengths e.labels) :
    Lays (fragment (.alternate l r)) (block (.alternate l r)) (Expr.alternate l r).lengths
      (Expr.alternate l r).labels := by
  have lengths : (Expr.alternate l r).lengths =
      LengthRange.choice ((Expr.alternate l r).alternatives.map Expr.lengths) :=
    Expr.fold_alternate LengthRange.algebra l r
  intro arena
  rw [fragment_alternate, block_alternate, lengths, Expr.labels_eq_sum,
    ← foldl_hull (Expr.alternatives_ne_nil _)]
  have hung : Yields (((Expr.alternate l r).alternatives.map fragment).foldlM
      (hang arena.states.size (arena.states.size + 1)) ⟨LengthRange.cap, some 0⟩)
      (arena.grown (paired ∅ []) 0) _ _ :=
    yields_hangs (fun e member => ⟨block_proper e, branches e member⟩) rfl
  refine (yields_addPair arena).bind (hung.bind (yields_pure rfl ?_))
  rw [Block.fork_states, ← foldl_insert_entriesFrom, Nat.zero_add]
  rfl

/-- The last operand of a sequence is joined to all the others. -/
theorem sequence_append (operands : List (Build Fragment)) (last : Build Fragment)
    (nonempty : operands ≠ []) :
    sequence (operands ++ [last]) = (do join (← sequence operands) (← last)) := by
  cases operands with
  | nil => exact absurd rfl nonempty
  | cons first operands => simp [sequence, List.foldlM_append]

/-- Building along the spine is the same work as building the left operand, then the right one, and
joining them. -/
theorem fragment_concat (l r : Expr) :
    fragment (.concat l r) = (do join (← fragment l) (← fragment r)) :=
  let joined (f g : Build Fragment) : Build Fragment := do join (← f) (← g)
  have single (f : Build Fragment) : sequence [f] = f := bind_pure f
  @Expr.fold_concat_eq _ algebra joined single sequence_append l r

/-- Building an expression lays its block out behind the states of the arena. -/
theorem fragment_lays (e : Expr) : Lays (fragment e) (block e) e.lengths e.labels := by
  induction e using Expr.branchInduction with
  | empty => exact lays_empty
  | atom a => exact lays_symbol a.chars
  | concat l r left right =>
    rw [fragment_concat, block_concat, Expr.lengths_concat]
    exact lays_append (block_proper l) left right
  | alternate l r branches => exact lays_alternate l r branches
  | repeated op e operand => exact lays_repeated (block_proper e) operand
  | counted e b operand => exact lays_counted (block_proper e) operand

end Spine

end Build

end FullMatch.Nfa
