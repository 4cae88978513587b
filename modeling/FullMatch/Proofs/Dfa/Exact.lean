import FullMatch.Proofs.Dfa.Limit
import FullMatch.Proofs.Dfa.Simulation
import FullMatch.Proofs.Nfa.Construction
import Mathlib.Data.Set.Finite.Lattice

/-!
# The automaton of the active sets

A construction that comes to its end has found every active set that some text leads to, each of
them once, and has made every transition between them, each of them once (`IsSubsetAutomaton`). So
the limits are exact: the construction comes to its end just when there are no more sets and
transitions than allowed, and the automaton that it ends with is the same whatever the limits are
(`ofNfa_within_limits`). For an automaton whose edges lead to states that exist, there are only
finitely many active sets.
-/

namespace FullMatch.Dfa

variable {limits limits' : Limits} {nfa : Nfa} {dfa dfa' : Dfa}

section Room

variable {found found' : Found} {set : StateSet} {row row' : Row} {chars : List Char}
  {progress progress' : Progress} {n fuel : Nat}

/-- A set that gets a number gets the same one if there is more room. -/
theorem Found.number_of_le (states : limits.states ≤ limits'.states)
    (numbered : found.number limits set = .ok (n, found')) :
    found.number limits' set = .ok (n, found') := by
  rw [number]
  rcases number_cases numbered with ⟨known, rfl⟩ | ⟨fresh, rfl, room, rfl⟩
  · rw [known]
  · rw [fresh]
    exact if_pos (Nat.lt_of_lt_of_le room states)

/-- A row that is filled is filled in the same way if there is more room. -/
theorem fillRow_of_le (states : limits.states ≤ limits'.states)
    (transitions : limits.transitions ≤ limits'.transitions)
    (filled : fillRow limits nfa set row progress chars = .ok (progress', row')) :
    fillRow limits' nfa set row progress chars = .ok (progress', row') := by
  induction chars generalizing progress row with
  | nil => exact filled
  | cons c chars ih =>
    rw [fillRow] at filled ⊢
    split at filled
    · next room =>
      rw [if_pos (Nat.lt_of_lt_of_le room transitions)]
      split at filled
      · next n found' numbered =>
        rw [Found.number_of_le states numbered]
        exact ih filled
      · cases filled
    · cases filled

/-- What exploring comes to, it comes to in the same way if there is more room. -/
theorem explore_of_le (states : limits.states ≤ limits'.states)
    (transitions : limits.transitions ≤ limits'.transitions)
    (explored : explore limits nfa fuel progress = .ok progress') :
    explore limits' nfa fuel progress = .ok progress' := by
  induction fuel generalizing progress with
  | zero => exact explored
  | succ fuel ih =>
    rw [explore] at explored ⊢
    split at explored
    · exact explored
    · split at explored
      · next filled =>
        rw [fillRow_of_le states transitions filled]
        exact ih explored
      · cases explored

/-- Once every set found has its row, further rounds have nothing to do. -/
theorem explore_add (more : Nat)
    (finished : ∀ progress', explore limits nfa fuel progress = .ok progress' →
      progress'.rows.size = progress'.found.sets.size) :
    explore limits nfa (fuel + more) progress = explore limits nfa fuel progress := by
  induction fuel generalizing progress with
  | zero =>
    have rowless := Array.getElem?_eq_none_iff.mpr (finished progress rfl).ge
    rw [Nat.zero_add]
    cases more with
    | zero => rfl
    | succ more =>
      show explore limits nfa (more + 1) progress = .ok progress
      rw [explore, rowless]
  | succ fuel ih =>
    rw [Nat.add_right_comm]
    rw [explore] at finished ⊢
    rw [explore]
    split
    · rfl
    · next set place =>
      rw [place] at finished
      dsimp only at finished
      split
      · next filled =>
        rw [filled] at finished
        exact ih finished
      · rfl

/-- An automaton that is built is built in the same way if there is more room. -/
theorem ofNfa_of_le (states : limits.states ≤ limits'.states)
    (transitions : limits.transitions ≤ limits'.transitions) (built : ofNfa limits nfa = .ok dfa) :
    ofNfa limits' nfa = .ok dfa := by
  rw [ofNfa] at built ⊢
  split at built
  · next n found numbered =>
    rw [Found.number_of_le states numbered]
    dsimp only
    cases explored : explore limits nfa limits.states ⟨found, #[], 0⟩ with
    | error fault =>
      rw [explored] at built
      cases built
    | ok progress =>
      have finished := explore_arises (.start numbered) (Nat.le_add_left limits.states 0)
      rw [explored] at finished built
      have explored' := explore_of_le states transitions explored
      have further := explore_add (limits'.states - limits.states) fun progress' same => by
        obtain rfl := Except.ok.inj (explored'.symm.trans same)
        exact finished.2
      rw [Nat.add_sub_cancel' states, explored'] at further
      rw [further]
      exact built
  · cases built

/-- Whatever the limits are, there is only one automaton to be built. -/
theorem ofNfa_unique (built : ofNfa limits nfa = .ok dfa) (built' : ofNfa limits' nfa = .ok dfa') :
    dfa' = dfa := by
  let wide : Limits :=
    ⟨max limits.states limits'.states, max limits.transitions limits'.transitions⟩
  have left : ofNfa wide nfa = .ok dfa :=
    ofNfa_of_le (Nat.le_max_left _ _) (Nat.le_max_left _ _) built
  have right : ofNfa wide nfa = .ok dfa' :=
    ofNfa_of_le (Nat.le_max_right _ _) (Nat.le_max_right _ _) built'
  exact Except.ok.inj (right.symm.trans left)

end Room

/-- The states of a deterministic automaton are the active sets of another automaton, each of them
once, and its transitions are the steps between them. -/
structure IsSubsetAutomaton (dfa : Dfa) (nfa : Nfa) : Prop where
  members_injective : Function.Injective fun q : Fin dfa.states.size => dfa.states[q].members
  range_members : Set.range (fun q : Fin dfa.states.size => dfa.states[q].members) = reachable nfa
  start : dfa.StandsFor dfa.start nfa.initial
  next_eq_some_iff : ∀ {q set c r}, dfa.StandsFor q set →
    (dfa.next q c = some r ↔ (set, c) ∈ reachableEdges nfa ∧ dfa.StandsFor r (nfa.step set c))
  isAccepting_iff : ∀ {q set}, dfa.StandsFor q set →
    (dfa.isAccepting q = true ↔ ∃ p ∈ set, (nfa.state p).accepting = true)
  transitionCount_eq : (dfa.transitionCount : ℕ∞) = (reachableEdges nfa).encard

section Finished

variable {progress : Progress} {done : List Char} {row : Row} {set : StateSet} {q r : Nat}

/-- Every transition made is an entry of a row finished or of the row under way. -/
theorem Arises.transitions_eq (arises : Arises limits nfa progress done row) :
    progress.transitions = (progress.rows.toList.map Std.ExtTreeMap.size).sum + row.size := by
  induction arises with
  | start numbered => rfl
  | @lead found found' rows transitions done row set c n before place listed room numbered ih =>
    rw [Std.ExtTreeMap.size_insert, Std.ExtTreeMap.contains_eq_isSome_getElem?,
      before.unled place listed]
    exact congrArg (· + 1) ih
  | finish before place ih =>
    dsimp only at ih ⊢
    rw [ih, Array.toList_push, List.map_append, List.sum_append]
    simp

theorem Arises.transitions_le (arises : Arises limits nfa progress done row) :
    progress.transitions ≤ limits.transitions := by
  induction arises with
  | start numbered => exact Nat.zero_le _
  | lead before place listed room numbered ih => exact room
  | finish before place ih => exact ih

/-- The transitions of a finished construction are the entries of its rows. -/
theorem transitionCount_ofProgress (finished : progress.rows.size = progress.found.sets.size) :
    (ofProgress nfa progress).transitionCount =
      (progress.rows.toList.map Std.ExtTreeMap.size).sum := by
  have rows : (ofProgress nfa progress).states.toList.map State.row = progress.rows.toList := by
    rw [ofProgress, Array.toList_zipWith, List.map_zipWith]
    have long : progress.rows.toList.length ≤ progress.found.sets.toList.length := by
      simp [finished]
    refine .trans ?_ (List.map_snd_zip long)
    rw [List.zip, List.map_zipWith]
  rw [← rows, List.map_map, transitionCount, ← Array.foldl_toList, List.sum_eq_foldl,
    List.foldl_map]
  rfl

theorem standsFor_iff : dfa.StandsFor q set ↔ ∃ present : q < dfa.states.size,
    dfa.states[q].members = set := by
  rw [StandsFor]
  simp only [Array.getElem?_eq_some_iff]
  constructor
  · rintro ⟨s, ⟨present, rfl⟩, members⟩
    exact ⟨present, members⟩
  · rintro ⟨present, members⟩
    exact ⟨_, ⟨present, rfl⟩, members⟩

theorem place_of_standsFor (stands : (ofProgress nfa progress).StandsFor q set) :
    progress.found.sets[q]? = some set := by
  obtain ⟨s, present, rfl⟩ := stands
  obtain ⟨set, row, place, -, rfl⟩ := states_ofProgress.mp present
  exact place

/-- At the end of the construction there is one state for every active set. -/
theorem Arises.mem_reachable_iff (arises : Arises limits nfa progress [] ∅)
    (finished : progress.rows.size = progress.found.sets.size) :
    set ∈ reachable nfa ↔ ∃ q, (ofProgress nfa progress).StandsFor q set := by
  constructor
  · rintro ⟨alive, text, rfl⟩
    have simulates := ofProgress_simulates arises.sound.1 finished
    obtain ⟨q, -, stands⟩ := simulates.walk_some simulates.start alive
    exact ⟨q, stands⟩
  · rintro ⟨q, stands⟩
    exact arises.reached q set (place_of_standsFor stands)

/-- At the end of the construction the transitions made are all that there are. -/
theorem Arises.encard_reachableEdges (arises : Arises limits nfa progress [] ∅)
    (finished : progress.rows.size = progress.found.sets.size) :
    (reachableEdges nfa).encard = progress.transitions := by
  obtain ⟨edges, tally⟩ := arises.tally
  have all : ∀ edge, edge ∈ edges ↔ edge ∈ reachableEdges nfa := by
    intro edge
    constructor
    · exact arises.inside tally edge
    · rintro ⟨active, leads⟩
      obtain ⟨q, stands⟩ := (arises.mem_reachable_iff finished).mp active
      have place := place_of_standsFor stands
      have present := (Array.getElem?_eq_some_iff.mp place).1
      exact (tally.mem_iff edge).mpr (.inl ⟨q, finished ▸ present, place, leads⟩)
  rw [encard_eq_length tally.nodup all, tally.length]

theorem Arises.isSubsetAutomaton (arises : Arises limits nfa progress [] ∅)
    (finished : progress.rows.size = progress.found.sets.size) :
    (ofProgress nfa progress).IsSubsetAutomaton nfa := by
  have simulates := ofProgress_simulates arises.sound.1 finished
  have once {q r : Nat} {set : StateSet} (first : (ofProgress nfa progress).StandsFor q set)
      (second : (ofProgress nfa progress).StandsFor r set) : q = r :=
    arises.sound.1.consistent.place_unique (place_of_standsFor first) (place_of_standsFor second)
  refine ⟨?_, ?_, simulates.start, ?_, ?_, ?_⟩
  · intro q r same
    exact Fin.ext (once (standsFor_iff.mpr ⟨q.2, same⟩) (standsFor_iff.mpr ⟨r.2, rfl⟩))
  · ext set
    rw [arises.mem_reachable_iff finished, Set.mem_range]
    simp only [standsFor_iff, Fin.exists_iff]
    rfl
  · intro q set c r stands
    constructor
    · intro next
      have alive : nfa.step set c ≠ ∅ := by
        intro dead
        rw [simulates.stops stands dead] at next
        cases next
      obtain ⟨r', next', stands'⟩ := simulates.leads stands alive
      obtain rfl := Option.some.inj (next.symm.trans next')
      exact ⟨⟨(arises.mem_reachable_iff finished).mpr ⟨q, stands⟩,
        mem_alphabet_iff_step.mpr alive⟩, stands'⟩
    · rintro ⟨⟨-, leads⟩, stands'⟩
      obtain ⟨r', next', stands''⟩ := simulates.leads stands (mem_alphabet_iff_step.mp leads)
      rw [once stands' stands'']
      exact next'
  · intro q set stands
    rw [simulates.accepting stands, Nfa.isAccepting_iff]
  · rw [arises.encard_reachableEdges finished, transitionCount_ofProgress finished,
      arises.transitions_eq]
    rfl

end Finished

section Finite

/-- There are no more active sets than sets of states. -/
theorem finite_reachable (wf : nfa.WellFormed) : (reachable nfa).Finite := by
  have inside : (fun set : StateSet => set.toList.toFinset) '' reachable nfa ⊆
      (Finset.range nfa.states.size).powerset := by
    rintro _ ⟨_, ⟨-, text, rfl⟩, rfl⟩
    rw [Finset.mem_coe, Finset.mem_powerset]
    intro q active
    rw [List.mem_toFinset, Std.ExtTreeSet.mem_toList, Nfa.mem_active wf] at active
    exact Finset.mem_range.mpr (active.lt_size wf wf.start_lt)
  refine Set.Finite.of_finite_image ((Finset.finite_toSet _).subset inside) ?_
  intro set _ set' _ same
  refine Std.ExtTreeSet.ext_mem fun q => ?_
  have members := Finset.ext_iff.mp same q
  rwa [List.mem_toFinset, List.mem_toFinset, Std.ExtTreeSet.mem_toList,
    Std.ExtTreeSet.mem_toList] at members

theorem finite_reachableEdges (wf : nfa.WellFormed) : (reachableEdges nfa).Finite := by
  have outgoing : ∀ set ∈ reachable nfa, ((set, ·) '' {c | c ∈ (alphabet nfa set).toList}).Finite :=
    fun set _ => ((alphabet nfa set).toList.finite_toSet).image _
  refine ((finite_reachable wf).biUnion outgoing).subset ?_
  rintro ⟨set, c⟩ ⟨active, leads⟩
  exact Set.mem_biUnion active ⟨c, Std.ExtTreeSet.mem_toList.mpr leads, rfl⟩

end Finite

/-- There are as many active sets as states. -/
theorem IsSubsetAutomaton.encard_reachable (subsets : dfa.IsSubsetAutomaton nfa) :
    (reachable nfa).encard = dfa.states.size := by
  rw [← subsets.range_members, ← Set.image_univ, subsets.members_injective.encard_image,
    Set.encard_univ, ENat.card_eq_coe_fintype_card, Fintype.card_fin]

/-- Every state stands for an active set behind some text. -/
theorem IsSubsetAutomaton.exists_active {q : Nat} (subsets : dfa.IsSubsetAutomaton nfa)
    (present : q < dfa.states.size) :
    ∃ text, nfa.active text ≠ ∅ ∧ dfa.StandsFor q (nfa.active text) := by
  have active : dfa.states[q].members ∈ reachable nfa := by
    rw [← subsets.range_members]
    exact ⟨⟨q, present⟩, rfl⟩
  obtain ⟨alive, text, same⟩ := active
  rw [← same] at alive
  exact ⟨text, alive, standsFor_iff.mpr ⟨present, same.symm⟩⟩

/-- An automaton that is built is the subset automaton, and it is within the limits. -/
theorem isSubsetAutomaton_of_ofNfa (built : ofNfa limits nfa = .ok dfa) :
    dfa.IsSubsetAutomaton nfa ∧ (reachable nfa).encard ≤ limits.states ∧
      (reachableEdges nfa).encard ≤ limits.transitions := by
  obtain ⟨progress, arises, finished, rfl⟩ := ofNfa_spec built
  have subsets := arises.isSubsetAutomaton finished
  refine ⟨subsets, ?_, ?_⟩
  · have size : (ofProgress nfa progress).states.size = progress.found.sets.size := by
      simp [ofProgress, finished]
    rw [subsets.encard_reachable, size]
    exact_mod_cast arises.sound.1.within
  · rw [arises.encard_reachableEdges finished]
    exact_mod_cast arises.transitions_le

/-- Only finitely many sets of states become active. The construction ends by itself: rounds beyond
the limit on states have nothing left to do. It ends with an automaton just when the active sets and
the transitions between them are within the limits; this is the automaton of these sets and
transitions, and it is the same within any limits. -/
theorem ofNfa_within_limits (limits : Limits) (wf : nfa.WellFormed) :
    ((reachable nfa).Finite ∧ (reachableEdges nfa).Finite) ∧
    (∀ n found rounds, Found.empty.number limits nfa.initial = .ok (n, found) →
      limits.states ≤ rounds → explore limits nfa rounds ⟨found, #[], 0⟩ =
        explore limits nfa limits.states ⟨found, #[], 0⟩) ∧
    ((∃ dfa, ofNfa limits nfa = .ok dfa) ↔
      (reachable nfa).encard ≤ limits.states ∧
        (reachableEdges nfa).encard ≤ limits.transitions) ∧
    ∀ dfa, ofNfa limits nfa = .ok dfa →
      dfa.IsSubsetAutomaton nfa ∧ ∀ limits' dfa', ofNfa limits' nfa = .ok dfa' → dfa' = dfa := by
  refine ⟨⟨finite_reachable wf, finite_reachableEdges wf⟩, ?_, ⟨?_, ?_⟩, ?_⟩
  · intro n found rounds numbered enough
    have finished := explore_arises (.start numbered) (Nat.le_add_left limits.states 0)
    obtain ⟨more, rfl⟩ := Nat.exists_eq_add_of_le enough
    refine explore_add more fun progress explored => ?_
    rw [explored] at finished
    exact finished.2
  · rintro ⟨dfa, built⟩
    exact (isSubsetAutomaton_of_ofNfa built).2
  · rintro ⟨states, transitions⟩
    cases built : ofNfa limits nfa with
    | ok dfa => exact ⟨dfa, rfl⟩
    | error fault =>
      rcases exceeded_of_ofNfa_eq_error built with many | many
      · exact absurd states (not_le.mpr many)
      · exact absurd transitions (not_le.mpr many)
  · intro dfa built
    exact ⟨(isSubsetAutomaton_of_ofNfa built).1, fun limits' dfa' => ofNfa_unique built⟩

/-- The automaton of `(a|b)*` is determinised within three states and six transitions, and there are
no fewer transitions. -/
theorem ofNfa_within_limits_of_starred_choice :
    let nfa := Nfa.ofBlock (.repeated .zeroOrMore (.alternate (.literal 'a') (.literal 'b')))
    nfa.WellFormed ∧ (∃ dfa, ofNfa ⟨3, 6⟩ nfa = .ok dfa ∧ dfa.IsSubsetAutomaton nfa) ∧
      ¬(reachableEdges nfa).encard ≤ 5 := by
  intro nfa
  have wf : nfa.WellFormed := Nfa.ofBlock_wellFormed _
  have built : (ofNfa ⟨3, 6⟩ nfa).isOk = true := by decide +kernel
  have failed : (ofNfa ⟨3, 5⟩ nfa).isOk = false := by decide +kernel
  cases ending : ofNfa ⟨3, 6⟩ nfa with
  | error fault =>
    rw [ending] at built
    cases built
  | ok dfa =>
    obtain ⟨-, -, limited, subset⟩ := ofNfa_within_limits ⟨3, 6⟩ wf
    refine ⟨wf, ⟨dfa, rfl, (subset dfa ending).1⟩, fun few => ?_⟩
    have sets := (limited.mp ⟨dfa, ending⟩).1
    obtain ⟨dfa', built'⟩ := (ofNfa_within_limits ⟨3, 5⟩ wf).2.2.1.mpr ⟨sets, few⟩
    rw [built'] at failed
    cases failed

end FullMatch.Dfa
