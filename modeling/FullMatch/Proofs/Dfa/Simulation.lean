import FullMatch.Nfa.Block
import FullMatch.Proofs.Dfa.Subset

/-!
# The deterministic automaton simulates

The state that a text leads to stands for the active set behind the text; when that set is empty,
the text meets a dead end on the way. One step of the one automaton answers one step of the other
(`Simulates`), and so whole texts get the same verdict from both (`ofNfa_simulates`).
-/

namespace FullMatch.Dfa

variable {limits : Limits} {nfa : Nfa} {dfa : Dfa}

/-- The state `q` stands for `set`. -/
def StandsFor (dfa : Dfa) (q : Nat) (set : StateSet) : Prop :=
  ∃ s, dfa.states[q]? = some s ∧ s.members = set

/-- Every step from a state that stands for an active set does what that set does. -/
structure Simulates (dfa : Dfa) (nfa : Nfa) : Prop where
  start : dfa.StandsFor dfa.start nfa.initial
  accepting : ∀ {q set}, dfa.StandsFor q set → dfa.isAccepting q = nfa.isAccepting set
  leads : ∀ {q set c}, dfa.StandsFor q set → nfa.step set c ≠ ∅ →
    ∃ r, dfa.next q c = some r ∧ dfa.StandsFor r (nfa.step set c)
  stops : ∀ {q set c}, dfa.StandsFor q set → nfa.step set c = ∅ → dfa.next q c = none

section Finished

variable {progress : Progress} {set : StateSet} {q : Nat}

/-- The states of a finished construction are the sets with their rows. -/
theorem states_ofProgress {s : State} :
    (ofProgress nfa progress).states[q]? = some s ↔
      ∃ set row, progress.found.sets[q]? = some set ∧ progress.rows[q]? = some row ∧
        s = ⟨set, nfa.isAccepting set, row⟩ := by
  rw [ofProgress, Array.getElem?_zipWith_eq_some]
  simp only [eq_comm]

theorem standsFor_of_place (finished : progress.rows.size = progress.found.sets.size)
    (place : progress.found.sets[q]? = some set) :
    (ofProgress nfa progress).StandsFor q set := by
  have bound := (Array.getElem?_eq_some_iff.mp place).1
  rw [← finished] at bound
  have row := Array.getElem?_eq_getElem bound
  exact ⟨_, states_ofProgress.mpr ⟨set, _, place, row, rfl⟩, rfl⟩

/-- A state of a finished construction has the row of the set that it stands for. -/
theorem row_of_standsFor (sound : progress.Sound limits nfa)
    (stands : (ofProgress nfa progress).StandsFor q set) :
    ∃ row, (ofProgress nfa progress).states[q]? = some ⟨set, nfa.isAccepting set, row⟩ ∧
      Leading nfa progress.found set (alphabet nfa set).toList row := by
  obtain ⟨s, present, rfl⟩ := stands
  obtain ⟨set, row, place, finished, rfl⟩ := states_ofProgress.mp present
  obtain ⟨set', place', leading⟩ := sound.rows_lead q row finished
  obtain rfl : set = set' := Option.some.inj (place.symm.trans place')
  exact ⟨row, present, leading⟩

theorem ofProgress_simulates (sound : progress.Sound limits nfa)
    (finished : progress.rows.size = progress.found.sets.size) :
    (ofProgress nfa progress).Simulates nfa where
  start := standsFor_of_place finished sound.start
  accepting := by
    intro q set stands
    obtain ⟨row, present, -⟩ := row_of_standsFor sound stands
    rw [isAccepting, present]
    rfl
  leads := by
    intro q set c stands something
    obtain ⟨row, present, leading⟩ := row_of_standsFor sound stands
    have listed : c ∈ (alphabet nfa set).toList :=
      Std.ExtTreeSet.mem_toList.mpr (mem_alphabet_iff_step.mpr something)
    obtain ⟨r, entry, place⟩ := leading.leads c listed
    refine ⟨r, ?_, standsFor_of_place finished place⟩
    rw [next, present]
    exact entry
  stops := by
    intro q set c stands nothing
    obtain ⟨row, present, leading⟩ := row_of_standsFor sound stands
    have unlisted : c ∉ (alphabet nfa set).toList := by
      rw [Std.ExtTreeSet.mem_toList, mem_alphabet_iff_step]
      exact not_not_intro nothing
    rw [next, present]
    exact leading.stops c unlisted

end Finished

namespace Simulates

variable {q : Nat} {set : StateSet} {text : List Char}

/-- A text that leaves states active leads to the state that stands for them. -/
theorem walk_some (simulates : dfa.Simulates nfa) (stands : dfa.StandsFor q set)
    (alive : text.foldl nfa.step set ≠ ∅) :
    ∃ r, dfa.walk q text = some r ∧ dfa.StandsFor r (text.foldl nfa.step set) := by
  induction text generalizing q set with
  | nil => exact ⟨q, rfl, stands⟩
  | cons c text ih =>
    rw [List.foldl_cons] at alive ⊢
    have something : nfa.step set c ≠ ∅ := by
      intro nothing
      rw [nothing, Nfa.foldl_step_empty] at alive
      exact alive rfl
    obtain ⟨r, step, stands'⟩ := simulates.leads stands something
    rw [walk, step]
    exact ih stands' alive

/-- A text that leaves no state active meets a dead end. -/
theorem walk_none (simulates : dfa.Simulates nfa) (stands : dfa.StandsFor q set) (begun : set ≠ ∅)
    (dead : text.foldl nfa.step set = ∅) : dfa.walk q text = none := by
  induction text generalizing q set with
  | nil => exact absurd dead begun
  | cons c text ih =>
    rw [List.foldl_cons] at dead
    by_cases nothing : nfa.step set c = ∅
    · rw [walk, simulates.stops stands nothing]
    · obtain ⟨r, step, stands'⟩ := simulates.leads stands nothing
      rw [walk, step]
      exact ih stands' nothing dead

/-- The state that a text leads to stands for the active set behind the text. -/
theorem of_walk (simulates : dfa.Simulates nfa) (walked : dfa.walk dfa.start text = some q) :
    nfa.active text ≠ ∅ ∧ dfa.StandsFor q (nfa.active text) := by
  by_cases dead : nfa.active text = ∅
  · rw [simulates.walk_none simulates.start nfa.initial_ne_empty dead] at walked
    cases walked
  · obtain ⟨r, walked', stands⟩ := simulates.walk_some simulates.start dead
    obtain rfl := Option.some.inj (walked.symm.trans walked')
    exact ⟨dead, stands⟩

/-- Both automata give a text the same verdict. -/
theorem accepts_eq (simulates : dfa.Simulates nfa) (text : List Char) :
    dfa.accepts text = nfa.accepts text := by
  rw [accepts, Nfa.accepts_eq]
  by_cases dead : nfa.active text = ∅
  · rw [simulates.walk_none simulates.start nfa.initial_ne_empty dead, dead]
    rfl
  · obtain ⟨q, walked, stands⟩ := simulates.walk_some simulates.start dead
    rw [walked]
    exact simulates.accepting stands

end Simulates

theorem simulates_ofNfa (built : ofNfa limits nfa = .ok dfa) : dfa.Simulates nfa := by
  obtain ⟨progress, arises, finished, rfl⟩ := ofNfa_spec built
  exact ofProgress_simulates arises.sound.1 finished

/-- Making an automaton deterministic keeps its lengths. -/
theorem lengths_ofNfa (built : ofNfa limits nfa = .ok dfa) : dfa.lengths = nfa.lengths := by
  obtain ⟨progress, -, -, rfl⟩ := ofNfa_spec built
  rfl

theorem accepts_ofNfa (built : ofNfa limits nfa = .ok dfa) (text : List Char) :
    dfa.accepts text = nfa.accepts text :=
  (simulates_ofNfa built).accepts_eq text

/-- While some state is active behind a text, the text leads to a state that has exactly the active
states as its members, and accepts if they do. When none is, the text meets a dead end. So both
automata give every text the same verdict. -/
theorem ofNfa_simulates (built : ofNfa limits nfa = .ok dfa) (text : List Char) :
    (nfa.active text ≠ ∅ → ∃ q s, dfa.walk dfa.start text = some q ∧ dfa.states[q]? = some s ∧
      s.members = nfa.active text ∧ dfa.isAccepting q = nfa.isAccepting (nfa.active text)) ∧
    (nfa.active text = ∅ → dfa.walk dfa.start text = none) ∧
    dfa.accepts text = nfa.accepts text := by
  have simulates := simulates_ofNfa built
  refine ⟨?_, ?_, simulates.accepts_eq text⟩
  · intro alive
    obtain ⟨q, walked, stands⟩ := simulates.walk_some simulates.start alive
    obtain ⟨s, present, members⟩ := stands
    exact ⟨q, s, walked, present, members, simulates.accepting ⟨s, present, members⟩⟩
  · exact simulates.walk_none simulates.start nfa.initial_ne_empty

/-- Three states and two transitions are enough for an automaton that accepts `ab` and stops at
`b`. -/
theorem ofNfa_simulates_concat :
    ∃ dfa, ofNfa ⟨3, 2⟩ (Nfa.ofBlock (.concat (.literal 'a') (.literal 'b'))) = .ok dfa ∧
      dfa.walk dfa.start ['b'] = none ∧ dfa.accepts ['a', 'b'] = true := by
  have built : ofNfa ⟨3, 2⟩ (Nfa.ofBlock (.concat (.literal 'a') (.literal 'b'))) = .ok _ := rfl
  have dead : (Nfa.ofBlock (.concat (.literal 'a') (.literal 'b'))).active ['b'] = ∅ := by
    decide +kernel
  refine ⟨_, built, (ofNfa_simulates built ['b']).2.1 dead, ?_⟩
  rw [(ofNfa_simulates built ['a', 'b']).2.2]
  decide +kernel

end FullMatch.Dfa
