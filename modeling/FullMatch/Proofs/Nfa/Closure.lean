import FullMatch.Proofs.Nfa.Thompson

/-!
# Sets of states and paths

The search for a closure ends by itself, with nothing left to visit (`searches_closure`), and what
it finds is the least set around the given one that no silent edge leaves. Closures and moves take
unions to unions, and so do whole runs: what is active behind a text is what paths with that text
reach, each from a single state (`closure_and_runs`).
-/

namespace FullMatch.Nfa

variable {nfa : Nfa} {set set' closed : StateSet} {q : Nat}

section Closed

/-- No silent edge leaves the set. -/
def SilentlyClosed (nfa : Nfa) (set : StateSet) : Prop :=
  ∀ p ∈ set, ∀ r ∈ (nfa.state p).silent, r ∈ set

theorem mem_closure_of_mem (member : q ∈ set) : q ∈ nfa.closure set :=
  mem_closeFrom_of_mem member

theorem silentlyClosed_closure (wf : nfa.WellFormed) (set : StateSet) :
    nfa.SilentlyClosed (nfa.closure set) := by
  intro p member r edge
  obtain ⟨q, start, silently⟩ := (mem_closure wf).mp member
  exact (mem_closure wf).mpr ⟨q, start, silently.trans (.silent edge (.refl nfa r))⟩

/-- A set that no silent edge leaves has the closures of its subsets inside. -/
theorem SilentlyClosed.closure_subset (wf : nfa.WellFormed) (isClosed : nfa.SilentlyClosed closed)
    (subset : ∀ q ∈ set, q ∈ closed) : ∀ q ∈ nfa.closure set, q ∈ closed := by
  intro q member
  obtain ⟨p, start, silently⟩ := (mem_closure wf).mp member
  exact silently.mem_of_closed isClosed (subset p start)

/-- `closed` is the least set around `set` that no silent edge leaves. -/
structure IsClosure (nfa : Nfa) (set closed : StateSet) : Prop where
  around : ∀ q ∈ set, q ∈ closed
  silentlyClosed : nfa.SilentlyClosed closed
  least : ∀ other, nfa.SilentlyClosed other → (∀ q ∈ set, q ∈ other) → ∀ q ∈ closed, q ∈ other

theorem isClosure_closure (wf : nfa.WellFormed) (set : StateSet) :
    nfa.IsClosure set (nfa.closure set) where
  around _ := mem_closure_of_mem
  silentlyClosed := silentlyClosed_closure wf set
  least _ isClosed subset := isClosed.closure_subset wf subset

theorem closure_closure (wf : nfa.WellFormed) (set : StateSet) :
    nfa.closure (nfa.closure set) = nfa.closure set := by
  refine Std.ExtTreeSet.ext_mem fun q => ⟨?_, mem_closure_of_mem⟩
  exact (silentlyClosed_closure wf set).closure_subset wf (fun q member => member) q

end Closed

section Runs

/-- A run from states that exist stays among them. -/
theorem lt_size_of_mem_foldl_step (wf : nfa.WellFormed) (present : ∀ q ∈ set, q < nfa.states.size)
    {text : List Char} (active : q ∈ text.foldl nfa.step (nfa.closure set)) :
    q < nfa.states.size := by
  obtain ⟨p, member, leads⟩ := (mem_foldl_step wf).mp active
  exact leads.lt_size wf (present p member)

/-- A run from more states has more states active. -/
theorem foldl_step_mono (wf : nfa.WellFormed) (subset : ∀ q ∈ set, q ∈ set') (text : List Char)
    (active : q ∈ text.foldl nfa.step (nfa.closure set)) :
    q ∈ text.foldl nfa.step (nfa.closure set') := by
  rw [mem_foldl_step wf] at active ⊢
  obtain ⟨p, member, leads⟩ := active
  exact ⟨p, subset p member, leads⟩

theorem closure_union (wf : nfa.WellFormed) (set set' : StateSet) :
    nfa.closure (set ∪ set') = nfa.closure set ∪ nfa.closure set' := by
  refine Std.ExtTreeSet.ext_mem fun q => ?_
  simp only [mem_closure wf, Std.ExtTreeSet.mem_union_iff, or_and_right, exists_or]

theorem moveOn_union (nfa : Nfa) (set set' : StateSet) (c : Char) :
    nfa.moveOn (set ∪ set') c = nfa.moveOn set c ∪ nfa.moveOn set' c := by
  refine Std.ExtTreeSet.ext_mem fun q => ?_
  simp only [mem_moveOn, Std.ExtTreeSet.mem_union_iff, or_and_right, exists_or]

/-- Two sets may run together. -/
theorem foldl_step_union (wf : nfa.WellFormed) (set set' : StateSet) (text : List Char) :
    text.foldl nfa.step (set ∪ set') = text.foldl nfa.step set ∪ text.foldl nfa.step set' := by
  induction text generalizing set set' with
  | nil => rfl
  | cons c text ih =>
    simp only [List.foldl_cons, step, moveOn_union, closure_union wf]
    exact ih _ _

/-- From any set the search for the closure ends, with the least set around the given one that no
silent edge leaves, and a run from there keeps the ends of the paths from the set. So closures are
their own closures, and closures and runs go with inclusion and with unions. -/
theorem closure_and_runs (wf : nfa.WellFormed) :
    (∀ set : StateSet,
      (∃ rounds ≤ set.size + nfa.states.size,
        nfa.Searches rounds set.toList set (nfa.closure set)) ∧
      nfa.IsClosure set (nfa.closure set) ∧
      (∀ (text : List Char) (q : Nat),
        q ∈ text.foldl nfa.step (nfa.closure set) ↔ ∃ p ∈ set, nfa.Leads p text q) ∧
      ((∀ q ∈ set, q < nfa.states.size) →
        ∀ text : List Char, ∀ q ∈ text.foldl nfa.step (nfa.closure set), q < nfa.states.size) ∧
      nfa.closure (nfa.closure set) = nfa.closure set) ∧
    (∀ set set' : StateSet, (∀ q ∈ set, q ∈ set') →
      (∀ q ∈ nfa.closure set, q ∈ nfa.closure set') ∧
        ∀ text : List Char, ∀ q ∈ text.foldl nfa.step (nfa.closure set),
          q ∈ text.foldl nfa.step (nfa.closure set')) ∧
    ∀ set set' : StateSet,
      nfa.closure (set ∪ set') = nfa.closure set ∪ nfa.closure set' ∧
        ∀ text : List Char, text.foldl nfa.step (nfa.closure (set ∪ set')) =
          text.foldl nfa.step (nfa.closure set) ∪ text.foldl nfa.step (nfa.closure set') := by
  refine ⟨fun set => ⟨searches_closure wf set, isClosure_closure wf set, ?paths, ?present,
    closure_closure wf set⟩, ?monotone, ?unions⟩
  case paths => exact fun text q => mem_foldl_step wf
  case present => exact fun present text q => lt_size_of_mem_foldl_step wf present
  case monotone =>
    intro set set' subset
    -- before any text, a run is where its closure is
    exact ⟨fun q => foldl_step_mono wf subset [], fun text q => foldl_step_mono wf subset text⟩
  case unions =>
    intro set set'
    refine ⟨closure_union wf set set', fun text => ?_⟩
    rw [closure_union wf, foldl_step_union wf]

/-- The automaton of `(a*)*` has silent cycles. Some path from its start reads `aa` up to its
accepting state, and every closure in it is its own closure. -/
theorem closure_and_runs_of_silent_cycles :
    let nfa := ofBlock (.repeated .zeroOrMore (.repeated .zeroOrMore (.literal 'a')))
    nfa.WellFormed ∧ (∃ p ∈ ({nfa.start} : StateSet), nfa.Leads p ['a', 'a'] nfa.accept) ∧
      ∀ set, nfa.closure (nfa.closure set) = nfa.closure set := by
  intro nfa
  have wf : nfa.WellFormed := ofBlock_wellFormed _
  have sets := (closure_and_runs wf).1
  have active : nfa.accept ∈ ['a', 'a'].foldl nfa.step (nfa.closure {nfa.start}) := by
    decide +kernel
  obtain ⟨-, -, paths, -⟩ := sets {nfa.start}
  exact ⟨wf, (paths ['a', 'a'] nfa.accept).mp active, fun set => (sets set).2.2.2.2⟩

end Runs

end FullMatch.Nfa
