import FullMatch.Proofs.Dfa.Limit
import FullMatch.Proofs.Grammar.Place
import FullMatch.Proofs.Nfa.Limit
import FullMatch.Proofs.Nfa.Thompson
import FullMatch.Proofs.Token.Place
import FullMatch.Regex

/-!
# Refused patterns

A pattern is refused by the first stage that cannot go on with it, and the report says which one
that is (`Refusal`). It names the pattern, says what is wrong, and points at a character of the
pattern that is to blame, or at its end (`Settings.refusal_of_compile`).
-/

namespace FullMatch

section Details

theorem append_ne_empty {s : String} (t : String) (nonempty : s ≠ "") : s ++ t ≠ "" :=
  fun whole => nonempty (String.append_eq_empty_iff.mp whole).1

theorem Token.ScanFault.details_ne_empty (fault : Token.ScanFault) : fault.details ≠ "" := by
  unfold details
  split <;> (repeat with_reducible apply append_ne_empty) <;> decide

theorem Grammar.Fault.details_ne_empty (fault : Grammar.Fault) : fault.details ≠ "" := by
  unfold details InvertedBounds.message
  split <;> (repeat with_reducible apply append_ne_empty) <;> decide

theorem Nfa.Fault.details_ne_empty (fault : Nfa.Fault) : fault.details ≠ "" := by
  unfold details
  split <;> (repeat with_reducible apply append_ne_empty) <;> decide

theorem Dfa.Fault.details_ne_empty (fault : Dfa.Fault) : fault.details ≠ "" := by
  unfold details
  split <;> (repeat with_reducible apply append_ne_empty) <;> decide

end Details

namespace Settings

variable {settings : Settings} {pattern : String} {fault : Fault} {e : Expr}

/-- A pattern that does not compile is refused by one of the stages. -/
theorem compile_eq_error (failed : settings.compile pattern = .error fault) :
    (∃ f, Token.scan pattern = .error f ∧ fault = .scan f) ∨
      (∃ tokens f, Token.scan pattern = .ok tokens ∧
        Grammar.read settings.maxRepeat tokens = .error f ∧ fault = .grammar f) ∨
      ∃ e, settings.parse pattern = .ok e ∧ settings.automaton e = .error fault := by
  rw [compile] at failed
  split at failed
  · next e parsed =>
    split at failed
    · cases failed
    · next fault' built =>
      obtain rfl := Except.error.inj failed
      exact .inr (.inr ⟨e, parsed, built⟩)
  · next fault' parsed =>
    obtain rfl := Except.error.inj failed
    rw [parse, parsePattern] at parsed
    split at parsed
    · next tokens cut =>
      cases isRead : Grammar.read settings.maxRepeat tokens with
      | ok e =>
        rw [isRead] at parsed
        cases parsed
      | error f =>
        rw [isRead] at parsed
        exact .inr (.inl ⟨tokens, f, cut, isRead, (Except.error.inj parsed).symm⟩)
    · next f cut => exact .inl ⟨f, cut, (Except.error.inj parsed).symm⟩

/-- An automaton is refused only if it is too large. -/
theorem exceeded_of_automaton_eq_error (failed : settings.automaton e = .error fault) :
    (∃ f, fault = .nfa f) ∧ settings.nfaLimits.ExceededBy (.ofBlock e) ∨
      (∃ f, fault = .dfa f) ∧ settings.strategy = .dfa ∧
        settings.dfaLimits.ExceededBy (.ofBlock e) := by
  rw [Settings.automaton] at failed
  split at failed
  · next nfa built =>
    obtain rfl := Nfa.eq_ofBlock built
    unfold Automaton.ofNfa at failed
    split at failed
    · cases failed
    · next strategy =>
      split at failed
      · cases failed
      · next f determinised =>
        exact .inr ⟨⟨f, (Except.error.inj failed).symm⟩, strategy,
          Dfa.exceeded_of_ofNfa_eq_error determinised⟩
  · next f built =>
    exact .inl ⟨⟨f, (Except.error.inj failed).symm⟩, Nfa.exceeded_of_ofExpr_eq_error built⟩

/-- What the report on a pattern that was refused says, whichever stage it was that refused it. -/
structure Refusal (settings : Settings) (pattern : String) (d : Diagnostic) : Prop where
  lex_iff : d.stage = .lex ↔ ∃ f, Token.scan pattern = .error f
  parse_iff : d.stage = .parse ↔ ∃ tokens f, Token.scan pattern = .ok tokens ∧
    Grammar.read settings.maxRepeat tokens = .error f
  build_iff : d.stage = .build ↔ ∃ e, settings.parse pattern = .ok e ∧
    (settings.nfaLimits.ExceededBy (.ofBlock e) ∨
      settings.strategy = .dfa ∧ settings.dfaLimits.ExceededBy (.ofBlock e))
  pattern_eq : d.pattern = pattern
  details_ne_empty : d.details ≠ ""
  position_le : d.position ≤ pattern.length
  lex_place : d.stage = .lex →
    pattern.toList[d.position]? = some '\\' ∨ pattern.toList[d.position]? = some '['
  parse_place : d.stage = .parse → d.position = pattern.length ∨
    ∃ tokens, Token.scan pattern = .ok tokens ∧ ∃ t ∈ tokens, d.position = t.position
  build_place : d.stage = .build → d.position = 0

theorem refusal_of_scan {f : Token.ScanFault} (failed : Token.scan pattern = .error f) :
    settings.Refusal pattern ((Fault.scan f).report pattern) := by
  have place := Token.char_of_scan_eq_error failed
  have noTokens {tokens : List Token} : Token.scan pattern ≠ .ok tokens := by
    rw [failed]
    nofun
  have bound : f.position ≤ pattern.length := by
    rw [← String.length_toList]
    rcases place with backslash | bracket
    · exact Nat.le_of_lt (List.getElem?_eq_some_iff.mp backslash).1
    · exact Nat.le_of_lt (List.getElem?_eq_some_iff.mp bracket).1
  refine ⟨iff_of_true rfl ⟨f, failed⟩, iff_of_false nofun ?_, iff_of_false nofun ?_, rfl,
    f.details_ne_empty, bound, fun _ => place, nofun, nofun⟩
  · rintro ⟨tokens, _, cut, _⟩
    exact noTokens cut
  · rintro ⟨e, parsed, _⟩
    obtain ⟨tokens, cut, _⟩ := parsePattern_eq_ok.mp parsed
    exact noTokens cut

theorem refusal_of_read {tokens : List Token} {f : Grammar.Fault}
    (cut : Token.scan pattern = .ok tokens)
    (failed : Grammar.read settings.maxRepeat tokens = .error f) :
    settings.Refusal pattern ((Fault.grammar f).report pattern) := by
  have place : f.position pattern.length = pattern.length ∨
      ∃ t ∈ tokens, f.position pattern.length = t.position := by
    rw [Grammar.Fault.position]
    rcases Grammar.place_of_read_eq_error failed with ending | ⟨t, member, here⟩
    · rw [ending]
      exact .inl rfl
    · rw [here]
      exact .inr ⟨t, member, rfl⟩
  have bound : f.position pattern.length ≤ pattern.length := by
    rcases place with ending | ⟨t, member, here⟩
    · exact Nat.le_of_eq ending
    · rw [here]
      exact Nat.le_of_lt (Token.position_lt_of_scan cut t member)
  refine ⟨iff_of_false nofun ?_, iff_of_true rfl ⟨tokens, f, cut, failed⟩, iff_of_false nofun ?_,
    rfl, f.details_ne_empty, bound, nofun, fun _ => ?_, nofun⟩
  · rintro ⟨_, failed'⟩
    cases cut.symm.trans failed'
  · rintro ⟨e, parsed, _⟩
    obtain ⟨tokens', cut', isRead⟩ := parsePattern_eq_ok.mp parsed
    obtain rfl := Except.ok.inj (cut.symm.trans cut')
    cases failed.symm.trans isRead
  · exact place.imp_right fun ⟨t, member, here⟩ => ⟨tokens, cut, t, member, here⟩

theorem refusal_of_automaton (parsed : settings.parse pattern = .ok e)
    (failed : settings.automaton e = .error fault) :
    settings.Refusal pattern (fault.report pattern) := by
  obtain ⟨tokens, cut, isRead⟩ := parsePattern_eq_ok.mp parsed
  have scans : ¬∃ f, Token.scan pattern = .error f := by
    rintro ⟨_, failed'⟩
    cases cut.symm.trans failed'
  have reads : ¬∃ tokens f, Token.scan pattern = .ok tokens ∧
      Grammar.read settings.maxRepeat tokens = .error f := by
    rintro ⟨tokens', _, cut', failed'⟩
    obtain rfl := Except.ok.inj (cut.symm.trans cut')
    cases isRead.symm.trans failed'
  rcases exceeded_of_automaton_eq_error failed with ⟨⟨f, rfl⟩, large⟩ | ⟨⟨f, rfl⟩, large⟩
  · exact ⟨iff_of_false nofun scans, iff_of_false nofun reads,
      iff_of_true rfl ⟨e, parsed, .inl large⟩, rfl, f.details_ne_empty, Nat.zero_le _, nofun, nofun,
      fun _ => rfl⟩
  · exact ⟨iff_of_false nofun scans, iff_of_false nofun reads,
      iff_of_true rfl ⟨e, parsed, .inr large⟩, rfl, f.details_ne_empty, Nat.zero_le _, nofun, nofun,
      fun _ => rfl⟩

/-- The report on a pattern that does not compile names the stage that refused it and the pattern,
and points at a character of the pattern that is to blame, or at its end. -/
theorem refusal_of_compile (failed : settings.compile pattern = .error fault) :
    settings.Refusal pattern (fault.report pattern) := by
  rcases compile_eq_error failed with ⟨f, uncut, rfl⟩ | ⟨tokens, f, cut, unread, rfl⟩ |
    ⟨e, parsed, unbuilt⟩
  · exact refusal_of_scan uncut
  · exact refusal_of_read cut unread
  · exact refusal_of_automaton parsed unbuilt

/-- The report on `a)` points at the parenthesis that closes nothing. -/
theorem refusal_of_unopened_group :
    ∃ fault, standard.compile "a)" = .error fault ∧ (fault.report "a)").position = 1 ∧
      standard.Refusal "a)" (fault.report "a)") := by
  have failed : standard.compile "a)" =
      .error (.grammar (.unopenedGroup ⟨.rightParen, ')', 1⟩)) := by
    have chars : "a)".toList = ['a', ')'] := String.toList_ofList
    rw [compile, parse, parsePattern, Token.scan, chars]
    rfl
  exact ⟨_, failed, rfl, refusal_of_compile failed⟩

end Settings

end FullMatch
