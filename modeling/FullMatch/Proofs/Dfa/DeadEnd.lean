import FullMatch.Proofs.Dfa.Exact
import FullMatch.Proofs.Nfa.Trim

/-!
# Dead ends

A run stops early when no state is active, or when no transition leads on. For an expression whose
classes stand for some character each, the automata are trim, so a run stops just when nothing that
could still follow would be accepted (`ofExpr_deadEnds`).
-/

namespace FullMatch.Dfa

variable {nfa : Nfa} {dfa : Dfa} {q : Nat} {set : StateSet} {text rest : List Char} {c : Char}

namespace Simulates

/-- A character has no transition just when it leaves no state active. -/
theorem next_eq_none_iff (simulates : dfa.Simulates nfa) (stands : dfa.StandsFor q set) :
    dfa.next q c = none ↔ nfa.step set c = ∅ := by
  constructor
  · intro missing
    by_contra alive
    obtain ⟨r, leads, -⟩ := simulates.leads stands alive
    cases missing.symm.trans leads
  · exact simulates.stops stands

/-- What would be accepted leads on to an accepting state. -/
theorem exists_accepting (simulates : dfa.Simulates nfa)
    (stands : dfa.StandsFor q (nfa.active text)) (accepted : nfa.accepts (text ++ rest) = true) :
    ∃ r, dfa.walk q rest = some r ∧ dfa.isAccepting r = true := by
  rw [Nfa.accepts_eq, Nfa.active_append] at accepted
  have alive : rest.foldl nfa.step (nfa.active text) ≠ ∅ := by
    intro dead
    rw [dead] at accepted
    cases accepted
  obtain ⟨r, walked, stands'⟩ := simulates.walk_some stands alive
  exact ⟨r, walked, (simulates.accepting stands').trans accepted⟩

end Simulates

/-- If every class in an expression stands for some character, every state of its automaton is on a
way from the start to the accepting state, and a text leaves states active just when some text
behind it is accepted. In the deterministic automaton, every state leads to an accepting one, and
behind a text the transition on a character is missing just when no accepted text goes on with
that character. -/
theorem ofExpr_deadEnds {limits : Nfa.Limits} {e : Expr}
    (built : Nfa.ofExpr limits e = .ok nfa) (inhabited : e.ClassesInhabited) :
    nfa.Trim ∧
    (∀ text, nfa.active text ≠ ∅ ↔ ∃ rest, nfa.accepts (text ++ rest) = true) ∧
    ∀ limits dfa, ofNfa limits nfa = .ok dfa →
      (∀ q < dfa.states.size, ∃ text r, dfa.walk q text = some r ∧ dfa.isAccepting r = true) ∧
      ∀ text q c, dfa.walk dfa.start text = some q →
        (dfa.next q c = none ↔ ∀ rest, dfa.accepts (text ++ c :: rest) = false) := by
  obtain rfl := Nfa.eq_ofBlock built
  have trim := Nfa.ofBlock_trim inhabited
  have accepting := (Nfa.ofBlock_accepting_iff e _).mpr rfl
  have lives (text : List Char) : (Nfa.ofBlock e).active text ≠ ∅ ↔
      ∃ rest, (Nfa.ofBlock e).accepts (text ++ rest) = true :=
    trim.active_ne_empty_iff (Nfa.ofBlock_wellFormed e) accepting
  refine ⟨trim, lives, fun limits dfa built => ?_⟩
  have simulates := simulates_ofNfa built
  constructor
  · intro q present
    obtain ⟨text, alive, stands⟩ := (isSubsetAutomaton_of_ofNfa built).1.exists_active present
    obtain ⟨rest, accepted⟩ := (lives text).mp alive
    exact ⟨rest, simulates.exists_accepting stands accepted⟩
  · intro text q c walked
    obtain ⟨-, stands⟩ := simulates.of_walk walked
    have goesOn := lives (text ++ [c])
    rw [Nfa.active_concat, Ne, ← simulates.next_eq_none_iff stands] at goesOn
    rw [← not_iff_not, goesOn, not_forall]
    simp only [simulates.accepts_eq, List.append_assoc, List.singleton_append, Bool.not_eq_false]

/-- The automata of `[ab]c*` are trim. They stop at `c`, as nothing that begins with it is accepted,
and go on behind `b`. -/
theorem ofExpr_deadEnds_of_class :
    let e : Expr := .concat (.atom (.charClass ⟨.ofList ['a', 'b'], false⟩))
      (.repeated .zeroOrMore (.literal 'c'))
    ∃ nfa dfa, Nfa.ofExpr .standard e = .ok nfa ∧ e.ClassesInhabited ∧
      ofNfa .standard nfa = .ok dfa ∧ nfa.Trim ∧ (∃ rest, nfa.accepts ('b' :: rest) = true) ∧
        dfa.walk dfa.start [] = some dfa.start ∧ ∀ rest, dfa.accepts ('c' :: rest) = false := by
  intro e
  have built : Nfa.ofExpr .standard e = .ok (Nfa.ofBlock e) := rfl
  have member : (Atom.charClass ⟨.ofList ['a', 'b'], false⟩).Reads 'a' :=
    Atom.mem_chars.mp (by decide)
  have inhabited : e.ClassesInhabited := ⟨⟨'a', member⟩, trivial⟩
  obtain ⟨trim, lives, deadEnds⟩ := ofExpr_deadEnds built inhabited
  have alive : (Nfa.ofBlock e).active ['b'] ≠ ∅ := by decide +kernel
  have ending : (ofNfa .standard (Nfa.ofBlock e)).map (fun dfa => dfa.next dfa.start 'c') =
      .ok none := by decide +kernel
  cases determinised : ofNfa .standard (Nfa.ofBlock e) with
  | error fault =>
    rw [determinised] at ending
    cases ending
  | ok dfa =>
    rw [determinised] at ending
    have missing : dfa.next dfa.start 'c' = none := Except.ok.inj ending
    exact ⟨_, dfa, built, inhabited, determinised, trim, (lives ['b']).mp alive, rfl,
      ((deadEnds .standard dfa determinised).2 [] dfa.start 'c' rfl).mp missing⟩

end FullMatch.Dfa
