import FullMatch.Proofs.Nfa.Size

/-!
# Shape of automata

The automaton of an expression is entered at its start alone and left at its accepting state alone,
and no state has edges of two kinds or of two targets (`ofExpr_singleEntryExit`). As the state that
accepts is always the exit, this is never what an expression is refused for.
-/

namespace FullMatch.Nfa

/-- Some edge leads from `p` to `q`. -/
def Joins (nfa : Nfa) (p q : Nat) : Prop :=
  q ∈ (nfa.state p).silent ∨ ∃ e ∈ (nfa.state p).edges, e.target = q

/-- The automaton has one way in and one way out, and each of its states has either silent edges or
labelled edges to a single target. -/
structure SingleEntryExit (nfa : Nfa) : Prop where
  start_lt : nfa.start < nfa.states.size
  accept_lt : nfa.accept < nfa.states.size
  joins_lt : ∀ {p q}, nfa.Joins p q → q < nfa.states.size
  start_ne_accept : nfa.start ≠ nfa.accept
  /-- No edge enters the start. -/
  unentered : ∀ p, ¬nfa.Joins p nfa.start
  /-- No edge leaves the accepting state. -/
  unleft : ∀ q, ¬nfa.Joins nfa.accept q
  acceptingCount_eq : nfa.acceptingCount = 1
  accepting_iff : ∀ q, (nfa.state q).accepting = true ↔ q = nfa.accept
  unmixed : ∀ q, (nfa.state q).edges = [] ∨ (nfa.state q).silent = ∅
  single_target : ∀ q, ∀ e ∈ (nfa.state q).edges, ∀ e' ∈ (nfa.state q).edges,
    e.target = e'.target

variable {e : Expr} {p q : Nat}

/-- An edge of the automaton of an expression stays inside, does not lead to the entry and does not
begin at the exit. -/
theorem ofBlock_joins (joins : (ofBlock e).Joins p q) :
    q < (block e).size ∧ q ≠ (block e).entry ∧ p ≠ (block e).exit := by
  have leaves : p ≠ (block e).exit := by
    rintro rfl
    rw [Joins, ofBlock_state_exit] at joins
    rcases joins with silent | ⟨_, labelled, -⟩
    · exact Std.ExtTreeSet.not_mem_empty silent
    · exact List.not_mem_nil labelled
  rcases ofBlock_state_cases e p with ⟨exit, -⟩ | inside | absent
  · exact absurd exit leaves
  · rcases joins with silent | ⟨t, labelled, rfl⟩
    · obtain ⟨-, present, other⟩ := inside.silent_inside q silent
      exact ⟨present, other, leaves⟩
    · obtain ⟨-, present, other⟩ := inside.edges_inside t labelled
      exact ⟨present, other, leaves⟩
  · rw [Joins, absent] at joins
    rcases joins with silent | ⟨_, labelled, -⟩
    · exact absurd silent Std.ExtTreeSet.not_mem_empty
    · exact absurd labelled List.not_mem_nil

/-- A state of the automaton of an expression has silent edges alone, or one labelled edge alone. -/
theorem ofBlock_unmixed (e : Expr) (q : Nat) :
    ((ofBlock e).state q).edges = [] ∨
      ((ofBlock e).state q).silent = ∅ ∧ ∃ t, ((ofBlock e).state q).edges = [t] := by
  rcases ofBlock_state_cases e q with ⟨-, exit⟩ | inside | absent
  · rw [exit]
    exact .inl rfl
  · exact inside.unmixed
  · rw [absent]
    exact .inl rfl

theorem ofBlock_singleEntryExit (e : Expr) : (ofBlock e).SingleEntryExit where
  start_lt := (ofBlock_wellFormed e).start_lt
  accept_lt := by
    rw [size_ofBlock]
    exact (block_proper e).exit_lt
  joins_lt joins := by
    rw [size_ofBlock]
    exact (ofBlock_joins joins).1
  start_ne_accept := (block_proper e).entry_ne_exit
  unentered p joins := (ofBlock_joins joins).2.1 rfl
  unleft q joins := (ofBlock_joins joins).2.2 rfl
  acceptingCount_eq := acceptingCount_ofBlock e
  accepting_iff := ofBlock_accepting_iff e
  unmixed q := (ofBlock_unmixed e q).imp_right And.left
  single_target q t edge t' edge' := by
    rcases ofBlock_unmixed e q with unlabelled | ⟨-, only, labelled⟩
    · rw [unlabelled] at edge
      exact absurd edge List.not_mem_nil
    · rw [labelled, List.mem_singleton] at edge edge'
      rw [edge, edge']

/-- Whatever the limits, an automaton that is built has one entry and one exit, and no expression is
refused an automaton for the states that accept. -/
theorem ofExpr_singleEntryExit (limits : Limits) (e : Expr) :
    (∀ nfa, ofExpr limits e = .ok nfa → nfa.SingleEntryExit) ∧
      ∀ fault, ofExpr limits e = .error fault → fault.message ≠ "Failed to build NFA" := by
  constructor
  · intro nfa built
    obtain rfl := eq_ofBlock built
    exact ofBlock_singleEntryExit e
  · intro fault failed
    have other : "Automaton too large" ≠ "Failed to build NFA" := by decide
    rcases crosses_of_ofExpr_eq_error failed with ⟨rfl, -⟩ | ⟨rfl, -⟩
    · exact other
    · exact other

/-- The automaton of `(a|b?)+` has one entry and one exit. -/
theorem singleEntryExit_of_repeated_choice :
    let e : Expr := .repeated .oneOrMore
      (.alternate (.literal 'a') (.repeated .optional (.literal 'b')))
    ∃ nfa, ofExpr .standard e = .ok nfa ∧ nfa.SingleEntryExit := by
  intro e
  have built : ofExpr .standard e = .ok (ofBlock e) := rfl
  exact ⟨ofBlock e, built, (ofExpr_singleEntryExit .standard e).1 _ built⟩

end FullMatch.Nfa
