import FullMatch.Proofs.Dfa.Subset
import FullMatch.Proofs.Listing

/-!
# Limits on deterministic automata

The subset construction numbers only active sets that some text leads to, each of them once, and
counts only characters that lead on from them, each of them once (`Tally`). So it is given up only
if there are more of the ones or of the others than the limits allow
(`exceeded_of_ofNfa_eq_error`).
-/

namespace FullMatch.Dfa

variable {limits : Limits} {nfa : Nfa} {set : StateSet} {c : Char} {n : Nat} {fault : Fault}

/-- The active sets behind texts, but for the one without states. -/
def reachable (nfa : Nfa) : Set StateSet :=
  {set | set ≠ ∅ ∧ ∃ text, nfa.active text = set}

/-- The active sets behind texts, each with a character that leads on from it. -/
def reachableEdges (nfa : Nfa) : Set (StateSet × Char) :=
  {edge | edge.1 ∈ reachable nfa ∧ edge.2 ∈ alphabet nfa edge.1}

/-- Whether the deterministic automaton of the active sets has more states or transitions than
allowed. -/
def Limits.ExceededBy (limits : Limits) (nfa : Nfa) : Prop :=
  limits.states < (reachable nfa).encard ∨ limits.transitions < (reachableEdges nfa).encard

theorem initial_mem_reachable (nfa : Nfa) : nfa.initial ∈ reachable nfa :=
  ⟨nfa.initial_ne_empty, [], rfl⟩

/-- A character that leads on leads to an active set behind a longer text. -/
theorem step_mem_reachable (edge : (set, c) ∈ reachableEdges nfa) :
    nfa.step set c ∈ reachable nfa := by
  obtain ⟨⟨-, text, rfl⟩, leads⟩ := edge
  exact ⟨mem_alphabet_iff_step.mp leads, text ++ [c], nfa.active_concat text c⟩

namespace Found

variable {found found' : Found}

/-- Every set found is an active set behind some text. -/
def Reached (nfa : Nfa) (found : Found) : Prop :=
  ∀ (n : Nat) (set : StateSet), found.sets[n]? = some set → set ∈ reachable nfa

theorem reached_empty (nfa : Nfa) : empty.Reached nfa := by
  intro n set place
  simp [empty] at place

theorem Consistent.nodup (consistent : found.Consistent) : found.sets.toList.Nodup := by
  rw [List.nodup_iff_getElem?_ne_getElem?]
  intro i j before bound same
  rw [List.getElem?_eq_getElem bound, Array.getElem?_toList] at same
  have place : found.sets.toList[j]? = found.sets[j]? := Array.getElem?_toList
  rw [List.getElem?_eq_getElem bound] at place
  exact absurd (consistent.place_unique same place.symm) (Nat.ne_of_lt before)

theorem Reached.number (reached : found.Reached nfa) (member : set ∈ reachable nfa)
    (numbered : found.number limits set = .ok (n, found')) : found'.Reached nfa := by
  rcases number_cases numbered with ⟨-, rfl⟩ | ⟨-, -, -, rfl⟩
  · exact reached
  · intro m other place
    rw [Array.getElem?_push] at place
    split at place
    · cases place
      exact member
    · exact reached m other place

/-- A set gets no number only if there are more active sets than allowed. -/
theorem exceeded_of_number_eq_error (consistent : found.Consistent) (reached : found.Reached nfa)
    (member : set ∈ reachable nfa) (failed : found.number limits set = .error fault) :
    limits.ExceededBy nfa := by
  rw [number] at failed
  split at failed
  · cases failed
  · next fresh =>
    dsimp only at failed
    split at failed
    · cases failed
    · next full =>
      have unplaced : set ∉ found.sets.toList := by
        intro listed
        obtain ⟨n, place⟩ := List.mem_iff_getElem?.mp listed
        rw [Array.getElem?_toList, ← consistent, fresh] at place
        cases place
      have distinct : (set :: found.sets.toList).Nodup :=
        List.nodup_cons.mpr ⟨unplaced, consistent.nodup⟩
      refine .inl (lt_encard_of_nodup distinct ?_ ?_)
      · refine List.forall_mem_cons.mpr ⟨member, fun other listed => ?_⟩
        obtain ⟨n, place⟩ := List.mem_iff_getElem?.mp listed
        rw [Array.getElem?_toList] at place
        exact reached n other place
      · rw [List.length_cons, Array.length_toList]
        omega

end Found

variable {progress : Progress} {row : Row} {done : List Char} {edges : List (StateSet × Char)}

/-- The next character comes after those before it. -/
theorem lt_of_listed {d : Char} (listed : done ++ [c] <+: (alphabet nfa set).toList)
    (earlier : d ∈ done) : d < c := by
  have ascending := Std.ExtTreeSet.ordered_toList.sublist listed.sublist
  exact compareOfLessAndEq_eq_lt.mp
    ((List.pairwise_append.mp ascending).2.2 d earlier c List.mem_cons_self)

/-- The next character leads on, and it has not been led on before. -/
theorem next_of_listed (listed : done ++ [c] <+: (alphabet nfa set).toList) :
    c ∈ alphabet nfa set ∧ c ∉ done := by
  refine ⟨Std.ExtTreeSet.mem_toList.mp (listed.mem (by simp)), fun earlier => ?_⟩
  exact Char.lt_irrefl c (lt_of_listed listed earlier)

/-- The next character has no entry in the row under way. -/
theorem Arises.unled (arises : Arises limits nfa progress done row)
    (place : progress.found.sets[progress.rows.size]? = some set)
    (listed : done ++ [c] <+: (alphabet nfa set).toList) : row[c]? = none :=
  (arises.sound.2 set place).stops c (next_of_listed listed).2

/-- The construction finds active sets alone. -/
theorem Arises.reached (arises : Arises limits nfa progress done row) :
    progress.found.Reached nfa := by
  induction arises with
  | start numbered => exact (Found.reached_empty nfa).number (initial_mem_reachable nfa) numbered
  | lead before place listed room numbered ih =>
    exact ih.number (step_mem_reachable ⟨ih _ _ place, (next_of_listed listed).1⟩) numbered
  | finish before place ih => exact ih

/-- The transitions that have been made, each of them once: those of the rows finished, and those of
the row under way, which leads the characters `done`. -/
structure Tally (nfa : Nfa) (progress : Progress) (done : List Char)
    (edges : List (StateSet × Char)) : Prop where
  nodup : edges.Nodup
  length : edges.length = progress.transitions
  mem_iff : ∀ edge, edge ∈ edges ↔
    (∃ i, i < progress.rows.size ∧ progress.found.sets[i]? = some edge.1 ∧
      edge.2 ∈ alphabet nfa edge.1) ∨
    progress.found.sets[progress.rows.size]? = some edge.1 ∧ edge.2 ∈ done

/-- The next transition has not been made. -/
theorem Tally.fresh (tally : Tally nfa progress done edges)
    (consistent : progress.found.Consistent)
    (place : progress.found.sets[progress.rows.size]? = some set) (new : c ∉ done) :
    (set, c) ∉ edges := by
  rw [tally.mem_iff]
  rintro (⟨i, finished, place', -⟩ | ⟨-, earlier⟩)
  · exact absurd (consistent.place_unique place' place) (Nat.ne_of_lt finished)
  · exact new earlier

/-- One more transition has been made. -/
theorem Tally.lead {found found' : Found} {rows : Array Row} {transitions : Nat}
    (tally : Tally nfa ⟨found, rows, transitions⟩ done edges) (consistent : found.Consistent)
    (place : found.sets[rows.size]? = some set) (new : c ∉ done) (kept : found.Extends found') :
    Tally nfa ⟨found', rows, transitions + 1⟩ (done ++ [c]) ((set, c) :: edges) where
  nodup := List.nodup_cons.mpr ⟨tally.fresh consistent place new, tally.nodup⟩
  length := congrArg (· + 1) tally.length
  mem_iff edge := by
    have bound := (Array.getElem?_eq_some_iff.mp place).1
    have same {i : Nat} (before : i ≤ rows.size) : found'.sets[i]? = found.sets[i]? :=
      kept.getElem?_eq (by omega)
    rw [List.mem_cons, tally.mem_iff]
    dsimp only
    rw [same (Nat.le_refl _), place, List.mem_append, List.mem_singleton]
    constructor
    · rintro (rfl | ⟨i, finished, place', leads⟩ | ⟨current, earlier⟩)
      · exact .inr ⟨rfl, .inr rfl⟩
      · exact .inl ⟨i, finished, (same (Nat.le_of_lt finished)).trans place', leads⟩
      · exact .inr ⟨current, .inl earlier⟩
    · rintro (⟨i, finished, place', leads⟩ | ⟨current, earlier | last⟩)
      · exact .inr (.inl ⟨i, finished, (same (Nat.le_of_lt finished)).symm.trans place', leads⟩)
      · exact .inr (.inr ⟨current, earlier⟩)
      · exact .inl (Prod.ext (Option.some.inj current).symm last)

/-- The row under way is finished. -/
theorem Tally.finish {found : Found} {rows : Array Row} {transitions : Nat}
    (tally : Tally nfa ⟨found, rows, transitions⟩ (alphabet nfa set).toList edges)
    (place : found.sets[rows.size]? = some set) (row : Row) :
    Tally nfa ⟨found, rows.push row, transitions⟩ [] edges where
  nodup := tally.nodup
  length := tally.length
  mem_iff edge := by
    rw [tally.mem_iff]
    dsimp only
    rw [Array.size_push, place]
    constructor
    · rintro (⟨i, finished, place', leads⟩ | ⟨current, listed⟩)
      · exact .inl ⟨i, Nat.lt_succ_of_lt finished, place', leads⟩
      · obtain rfl := Option.some.inj current
        exact .inl ⟨rows.size, Nat.lt_add_one _, place, Std.ExtTreeSet.mem_toList.mp listed⟩
    · rintro (⟨i, finished, place', leads⟩ | ⟨-, none⟩)
      · rcases Nat.lt_succ_iff_lt_or_eq.mp finished with earlier | rfl
        · exact .inl ⟨i, earlier, place', leads⟩
        · rw [place] at place'
          obtain rfl := Option.some.inj place'
          exact .inr ⟨rfl, Std.ExtTreeSet.mem_toList.mpr leads⟩
      · exact absurd none List.not_mem_nil

theorem Arises.tally (arises : Arises limits nfa progress done row) :
    ∃ edges, Tally nfa progress done edges := by
  induction arises with
  | start numbered => exact ⟨[], List.nodup_nil, rfl, by simp⟩
  | lead before place listed room numbered ih =>
    obtain ⟨edges, tally⟩ := ih
    have sound := before.sound.1
    obtain ⟨-, -, kept, -⟩ := Found.number_spec sound.consistent sound.within numbered
    exact ⟨_, tally.lead sound.consistent place (next_of_listed listed).2 kept⟩
  | finish before place ih =>
    obtain ⟨edges, tally⟩ := ih
    exact ⟨edges, tally.finish place _⟩

/-- The transitions that have been made lead on from active sets. -/
theorem Arises.inside (arises : Arises limits nfa progress done row)
    (tally : Tally nfa progress done edges) : ∀ edge ∈ edges, edge ∈ reachableEdges nfa := by
  intro edge made
  rcases (tally.mem_iff edge).mp made with ⟨i, -, place, leads⟩ | ⟨place, earlier⟩
  · exact ⟨arises.reached i _ place, leads⟩
  · refine ⟨arises.reached _ _ place, mem_alphabet_iff_step.mpr fun dead => ?_⟩
    obtain ⟨n, -, behind⟩ := (arises.sound.2 _ place).leads _ earlier
    exact (arises.reached n _ behind).1 dead

/-- The construction has to be given up only if there are too many active sets or transitions. -/
theorem exceeded_of_blocked (blocked : Blocked limits nfa fault) : limits.ExceededBy nfa := by
  cases blocked with
  | start failed =>
    exact Found.exceeded_of_number_eq_error Found.consistent_empty (Found.reached_empty nfa)
      (initial_mem_reachable nfa) failed
  | unnumbered arises place listed failed =>
    have edge : (_, _) ∈ reachableEdges nfa :=
      ⟨arises.reached _ _ place, (next_of_listed listed).1⟩
    exact Found.exceeded_of_number_eq_error arises.sound.1.consistent arises.reached
      (step_mem_reachable edge) failed
  | full arises place listed crossed =>
    obtain ⟨leads, new⟩ := next_of_listed listed
    obtain ⟨edges, tally⟩ := arises.tally
    have distinct := List.nodup_cons.mpr
      ⟨tally.fresh arises.sound.1.consistent place new, tally.nodup⟩
    refine .inr (lt_encard_of_nodup distinct (List.forall_mem_cons.mpr ⟨?_, ?_⟩) ?_)
    · exact ⟨arises.reached _ _ place, leads⟩
    · exact arises.inside tally
    · rw [List.length_cons, tally.length]
      exact Nat.lt_succ_of_le crossed

/-- The construction is given up only if there are more active sets, or more characters that lead on
from them, than allowed. -/
theorem exceeded_of_ofNfa_eq_error (failed : ofNfa limits nfa = .error fault) :
    limits.ExceededBy nfa :=
  exceeded_of_blocked (blocked_of_ofNfa_eq_error failed)

end FullMatch.Dfa
