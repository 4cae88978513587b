import FullMatch.Proofs.Nfa.Path
import Mathlib.Data.Finset.Card
import Mathlib.Data.Finset.Range

/-!
# Active sets and paths

The sets that a run keeps are exactly the ends of paths. The closure is found by a search with a
list of states still to visit (`Searches`): a state seen and no longer on the list has all its
silent targets seen, and the list together with the states not yet seen never outgrows the fuel, so
that a search is never cut short (`searches_closure`). From the closure it follows for whole texts
that the active set consists of the states that the start leads to (`mem_active`), and that a run
accepts if one of them does (`accepts_iff`).
-/

namespace FullMatch.Nfa

variable {nfa : Nfa}

section Discovery

variable {targets visit : List Nat} {seen : StateSet} {q : Nat}

/-- How many states there are that have not been seen. -/
def unseen (nfa : Nfa) (seen : StateSet) : Nat :=
  {q ∈ Finset.range nfa.states.size | q ∉ seen}.card

/-- Seeing one state more leaves fewer to be seen. -/
theorem unseen_insert_lt (present : q < nfa.states.size) (fresh : q ∉ seen) :
    nfa.unseen (seen.insert q) < nfa.unseen seen := by
  apply Finset.card_lt_card
  rw [Finset.ssubset_iff_of_subset]
  · exact ⟨q, by simp [present, fresh], by simp⟩
  · intro r
    simp only [Finset.mem_filter, Std.ExtTreeSet.mem_insert]
    exact fun ⟨inside, other⟩ => ⟨inside, fun known => other (.inr known)⟩

theorem unseen_le (nfa : Nfa) (seen : StateSet) : nfa.unseen seen ≤ nfa.states.size := by
  calc nfa.unseen seen
    _ ≤ (Finset.range nfa.states.size).card := Finset.card_filter_le _ _
    _ = nfa.states.size := Finset.card_range _

theorem mem_foldl_discover_seen :
    q ∈ (targets.foldl discover (visit, seen)).2 ↔ q ∈ seen ∨ q ∈ targets := by
  induction targets generalizing visit seen with
  | nil => simp
  | cons r targets ih =>
    rw [List.foldl_cons, discover]
    split
    · next known =>
      rw [Std.ExtTreeSet.contains_iff_mem] at known
      rw [ih, List.mem_cons]
      constructor
      · rintro (old | new)
        · exact .inl old
        · exact .inr (.inr new)
      · rintro (old | rfl | new)
        · exact .inl old
        · exact .inl known
        · exact .inr new
    · rw [ih, Std.ExtTreeSet.mem_insert, Std.LawfulEqCmp.compare_eq_iff_eq, List.mem_cons]
      grind

/-- The states still to visit grow by the targets that had not been seen. -/
theorem mem_foldl_discover_visit :
    q ∈ (targets.foldl discover (visit, seen)).1 ↔ q ∈ visit ∨ q ∈ targets ∧ q ∉ seen := by
  induction targets generalizing visit seen with
  | nil => simp
  | cons r targets ih =>
    rw [List.foldl_cons, discover]
    split
    · next known =>
      rw [Std.ExtTreeSet.contains_iff_mem] at known
      rw [ih, List.mem_cons]
      grind
    · next fresh =>
      rw [Std.ExtTreeSet.contains_iff_mem] at fresh
      rw [ih, Std.ExtTreeSet.mem_insert, Std.LawfulEqCmp.compare_eq_iff_eq, List.mem_cons,
        List.mem_cons]
      grind

/-- What a discovery adds to the list it takes from the states not yet seen. -/
theorem foldl_discover_measure (inside : ∀ r ∈ targets, r < nfa.states.size) :
    (targets.foldl discover (visit, seen)).1.length +
        nfa.unseen (targets.foldl discover (visit, seen)).2 ≤
      visit.length + nfa.unseen seen := by
  induction targets generalizing visit seen with
  | nil => exact Nat.le_refl _
  | cons r targets ih =>
    have later : ∀ s ∈ targets, s < nfa.states.size :=
      fun s member => inside s (List.mem_cons_of_mem r member)
    rw [List.foldl_cons, discover]
    split
    · exact ih later
    · next fresh =>
      rw [Std.ExtTreeSet.contains_iff_mem] at fresh
      have fewer : nfa.unseen (seen.insert r) < nfa.unseen seen :=
        unseen_insert_lt (inside r List.mem_cons_self) fresh
      have rest := @ih (r :: visit) (seen.insert r) later
      rw [List.length_cons] at rest
      exact rest.trans (by omega)

end Discovery

section Closure

variable {p q : Nat} {set : StateSet}

/-- A search under way: what is to be visited has been seen, and a state seen and not to be visited
has its silent targets seen. -/
structure Searching (nfa : Nfa) (visit : List Nat) (seen : StateSet) : Prop where
  visit_seen : ∀ q ∈ visit, q ∈ seen
  followed : ∀ p ∈ seen, p ∉ visit → ∀ r ∈ (nfa.state p).silent, r ∈ seen

/-- Following the silent edges of the state at the head of the list keeps the search going. -/
theorem Searching.follow {visit : List Nat} {seen : StateSet}
    (search : nfa.Searching (p :: visit) seen) :
    nfa.Searching ((nfa.state p).silent.toList.foldl discover (visit, seen)).1
      ((nfa.state p).silent.toList.foldl discover (visit, seen)).2 where
  visit_seen := by
    intro q listed
    rw [mem_foldl_discover_visit] at listed
    rw [mem_foldl_discover_seen]
    rcases listed with old | ⟨new, _⟩
    · exact .inl (search.visit_seen q (List.mem_cons_of_mem p old))
    · exact .inr new
  followed := by
    intro q known unlisted r edge
    rw [mem_foldl_discover_seen] at known ⊢
    rw [mem_foldl_discover_visit] at unlisted
    by_cases same : q = p
    · subst same
      exact .inr (Std.ExtTreeSet.mem_toList.mpr edge)
    · have old : q ∈ seen := by
        rcases known with old | new
        · exact old
        · by_contra fresh
          exact unlisted (.inr ⟨new, fresh⟩)
      have passed : q ∉ p :: visit := by
        rw [List.mem_cons]
        rintro (head | later)
        · exact same head
        · exact unlisted (.inl later)
      exact .inl (search.followed q old passed r edge)

/-- A set that is closed under silent edges is left by no silent path. -/
theorem Leads.mem_of_closed {seen : StateSet}
    (closed : ∀ p ∈ seen, ∀ r ∈ (nfa.state p).silent, r ∈ seen) (member : p ∈ seen)
    (silently : nfa.Leads p [] q) : q ∈ seen := by
  obtain ⟨n, path⟩ := silently
  induction n generalizing p with
  | zero => cases path; exact member
  | succ n ih =>
    cases path with
    | silent edge rest => exact ih (closed p member _ edge) rest

/-- A search that visits `rounds` states, one after the other, until none is left to visit. It
visits the first state listed, and lists those of its silent targets that had not been seen. -/
inductive Searches (nfa : Nfa) : (rounds : Nat) → (visit : List Nat) → (seen result : StateSet) →
    Prop where
  | done {seen : StateSet} : Searches nfa 0 [] seen seen
  | visit {rounds p : Nat} {visit : List Nat} {seen result : StateSet} {found : List Nat × StateSet}
      (follow : (nfa.state p).silent.toList.foldl discover (visit, seen) = found)
      (rest : Searches nfa rounds found.1 found.2 result) :
      Searches nfa (rounds + 1) (p :: visit) seen result

/-- With enough fuel, a search has nothing left to visit when it returns. -/
theorem searches_closeFrom (wf : nfa.WellFormed) {fuel : Nat} {visit : List Nat} {seen : StateSet}
    (enough : visit.length + nfa.unseen seen ≤ fuel) :
    ∃ rounds ≤ fuel, nfa.Searches rounds visit seen (nfa.closeFrom fuel visit seen) := by
  induction fuel generalizing visit seen with
  | zero =>
    obtain rfl : visit = [] := List.eq_nil_of_length_eq_zero (by omega)
    rw [closeFrom]
    exact ⟨0, Nat.le_refl 0, .done⟩
  | succ fuel ih =>
    cases visit with
    | nil =>
      rw [closeFrom]
      · exact ⟨0, Nat.zero_le _, .done⟩
      · nofun
    | cons p visit =>
      have inside : ∀ r ∈ (nfa.state p).silent.toList, r < nfa.states.size :=
        fun r edge => wf.silent_lt p r (Std.ExtTreeSet.mem_toList.mp edge)
      have measure := @foldl_discover_measure nfa _ visit seen inside
      rw [List.length_cons] at enough
      rw [closeFrom, Std.ExtTreeSet.foldl_eq_foldl_toList]
      obtain ⟨rounds, few, rest⟩ := ih (measure.trans (by omega))
      exact ⟨rounds + 1, Nat.succ_le_succ few, .visit rfl rest⟩

/-- A search that is finished has found all that silent paths reach from what it had seen. -/
theorem Searches.mem_iff {rounds : Nat} {visit : List Nat} {seen result : StateSet}
    (searches : nfa.Searches rounds visit seen result) (search : nfa.Searching visit seen) :
    q ∈ result ↔ ∃ p ∈ seen, nfa.Leads p [] q := by
  induction searches with
  | done =>
    constructor
    · intro member
      exact ⟨q, member, .refl nfa q⟩
    · rintro ⟨p, member, silently⟩
      exact silently.mem_of_closed (fun p known => search.followed p known List.not_mem_nil) member
  | @visit rounds p visit seen result found follow rest ih =>
    subst follow
    refine (ih search.follow).trans ?_
    constructor
    · rintro ⟨r, known, silently⟩
      rw [mem_foldl_discover_seen] at known
      rcases known with old | new
      · exact ⟨r, old, silently⟩
      · have edge := Std.ExtTreeSet.mem_toList.mp new
        exact ⟨p, search.visit_seen p List.mem_cons_self, silently.silent edge⟩
    · rintro ⟨r, known, silently⟩
      exact ⟨r, mem_foldl_discover_seen.mpr (.inl known), silently⟩

/-- The search for a closure visits no more states than there are members and states. -/
theorem searches_closure (wf : nfa.WellFormed) (set : StateSet) :
    ∃ rounds ≤ set.size + nfa.states.size,
      nfa.Searches rounds set.toList set (nfa.closure set) := by
  apply searches_closeFrom wf
  rw [Std.ExtTreeSet.length_toList]
  exact Nat.add_le_add_left (nfa.unseen_le set) set.size

/-- The closure of a set consists of the states that silent paths reach from it. -/
theorem mem_closure (wf : nfa.WellFormed) :
    q ∈ nfa.closure set ↔ ∃ p ∈ set, nfa.Leads p [] q := by
  have search : nfa.Searching set.toList set :=
    ⟨fun q listed => Std.ExtTreeSet.mem_toList.mp listed,
      fun p member unlisted => absurd (Std.ExtTreeSet.mem_toList.mpr member) unlisted⟩
  obtain ⟨_, -, searches⟩ := searches_closure wf set
  exact searches.mem_iff search

/-- A search keeps what it has seen, whatever its fuel. -/
theorem mem_closeFrom_of_mem {fuel : Nat} {visit : List Nat} {seen : StateSet}
    (member : q ∈ seen) : q ∈ nfa.closeFrom fuel visit seen := by
  induction fuel generalizing visit seen with
  | zero => simpa [closeFrom] using member
  | succ fuel ih =>
    cases visit with
    | nil => simpa [closeFrom] using member
    | cons p visit =>
      rw [closeFrom, Std.ExtTreeSet.foldl_eq_foldl_toList]
      exact ih (mem_foldl_discover_seen.mpr (.inl member))

theorem closure_empty (nfa : Nfa) : nfa.closure ∅ = ∅ := by
  rw [closure, Std.ExtTreeSet.toList_eq_nil_iff.mpr rfl]
  generalize (∅ : StateSet).size + nfa.states.size = fuel
  cases fuel with
  | zero => rfl
  | succ fuel => rfl

/-- Only the empty set has an empty closure. -/
theorem closure_eq_empty_iff : nfa.closure set = ∅ ↔ set = ∅ := by
  constructor
  · rw [Std.ExtTreeSet.eq_empty_iff_forall_not_mem, Std.ExtTreeSet.eq_empty_iff_forall_not_mem]
    exact fun nothing q member => nothing q (mem_closeFrom_of_mem member)
  · rintro rfl
    exact nfa.closure_empty

end Closure

section Runs

variable {p q : Nat} {set : StateSet} {c : Char} {text : List Char}

/-- The active set behind a text, starting from the closure of a set, consists of the states that
paths with that text reach from the set. -/
theorem mem_foldl_step (wf : nfa.WellFormed) :
    q ∈ text.foldl nfa.step (nfa.closure set) ↔ ∃ p ∈ set, nfa.Leads p text q := by
  induction text generalizing set with
  | nil => exact mem_closure wf
  | cons c text ih =>
    rw [List.foldl_cons, step, ih]
    simp only [mem_moveOn, mem_closure wf, Leads.cons_iff]
    constructor
    · rintro ⟨_, ⟨r, ⟨p, member, silently⟩, e, edge, label, rfl⟩, behind⟩
      exact ⟨p, member, r, silently, e, edge, label, behind⟩
    · rintro ⟨p, member, r, silently, e, edge, label, behind⟩
      exact ⟨_, ⟨r, ⟨p, member, silently⟩, e, edge, label, rfl⟩, behind⟩

/-- The active states behind a text. -/
def active (nfa : Nfa) (text : List Char) : StateSet :=
  text.foldl nfa.step nfa.initial

theorem active_append (nfa : Nfa) (text rest : List Char) :
    nfa.active (text ++ rest) = rest.foldl nfa.step (nfa.active text) :=
  List.foldl_append

/-- A character more is a step more. -/
theorem active_concat (nfa : Nfa) (text : List Char) (c : Char) :
    nfa.active (text ++ [c]) = nfa.step (nfa.active text) c :=
  nfa.active_append text [c]

/-- The active states behind a text are those that paths with that text reach from the start. -/
theorem mem_active (wf : nfa.WellFormed) :
    q ∈ nfa.active text ↔ nfa.Leads nfa.start text q := by
  rw [active, initial, mem_foldl_step wf]
  simp

/-- The start is active before any character. -/
theorem initial_ne_empty (nfa : Nfa) : nfa.initial ≠ ∅ := by
  rw [initial, Ne, closure_eq_empty_iff]
  exact Std.ExtTreeSet.ne_empty_of_mem (StateSet.mem_singleton.mpr rfl)

theorem moveOn_empty (nfa : Nfa) (c : Char) : nfa.moveOn ∅ c = ∅ := by
  rw [Std.ExtTreeSet.eq_empty_iff_forall_not_mem]
  simp [mem_moveOn]

theorem step_empty (nfa : Nfa) (c : Char) : nfa.step ∅ c = ∅ := by
  rw [step, moveOn_empty, closure_empty]

/-- A run that has no active states left never has any again. -/
theorem foldl_step_empty (nfa : Nfa) (text : List Char) : text.foldl nfa.step ∅ = ∅ := by
  induction text with
  | nil => rfl
  | cons c text ih => rw [List.foldl_cons, step_empty, ih]

/-- Stopping a run early, when no state is active, does not change its verdict. -/
theorem acceptsFrom_eq (nfa : Nfa) (set : StateSet) (text : List Char) :
    nfa.acceptsFrom set text = nfa.isAccepting (text.foldl nfa.step set) := by
  induction text generalizing set with
  | nil => rfl
  | cons c text ih =>
    rw [acceptsFrom, List.foldl_cons, ih]
    by_cases dead : nfa.step set c = ∅
    · rw [dead, foldl_step_empty]
      rfl
    · simp [Std.ExtTreeSet.isEmpty_eq_false_iff.mpr dead]

theorem accepts_eq (nfa : Nfa) (text : List Char) :
    nfa.accepts text = nfa.isAccepting (nfa.active text) :=
  nfa.acceptsFrom_eq nfa.initial text

/-- A text is accepted if it leads from the start to an accepting state. -/
theorem accepts_iff (wf : nfa.WellFormed) :
    nfa.accepts text = true ↔
      ∃ q, nfa.Leads nfa.start text q ∧ (nfa.state q).accepting = true := by
  rw [accepts_eq, isAccepting_iff]
  simp only [mem_active wf]

end Runs

end FullMatch.Nfa
