import FullMatch.Proofs.Dfa.Simulation
import FullMatch.Proofs.Grammar.Limit
import FullMatch.Proofs.Length.Accepted
import FullMatch.Regex

/-!
# Verdicts

Whatever automaton the settings ask for, it decides the language of the expression
(`decides_of_built`), and refusing texts by their length refuses none that the automaton accepts. So
a compiled pattern accepts what its expression denotes (`compile_accepts_iff`). Settings that
compile a pattern at all read the same expression, and so agree on every text
(`verdict_of_pattern`).
-/

namespace FullMatch

/-- An automaton accepts what an expression denotes, and comes with the lengths of that. -/
structure Automaton.Decides (automaton : Automaton) (e : Expr) : Prop where
  accepts_iff : ∀ text, automaton.accepts text = true ↔ e.Denotes text
  lengths_eq : automaton.lengths = e.lengths

/-- With or without a look at its length, a text gets the verdict of the automaton. -/
theorem Regex.accepts_iff {regex : Regex} {e : Expr} (decides : regex.automaton.Decides e)
    (text : String) : regex.accepts text = true ↔ e.Denotes text.toList := by
  rw [Regex.accepts, Bool.and_eq_true, decides.accepts_iff]
  constructor
  · exact fun accepted => accepted.2
  · intro denotes
    have admitted : regex.admitsLength text.length = true := by
      rw [admitsLength, decides.lengths_eq, ← String.length_toList]
      exact Expr.lengths_contains denotes
    refine ⟨?_, denotes⟩
    rw [admitted, Bool.or_true]

namespace Settings

variable {settings settings' : Settings} {pattern : String} {regex regex' : Regex} {e e' : Expr}

/-- The automaton that the settings ask for is that of the block of the expression, or what is made
of it by determinisation. -/
theorem eq_of_built {automaton : Automaton} (built : settings.automaton e = .ok automaton) :
    settings.strategy = .nfa ∧ automaton = .nfa (.ofBlock e) ∨
      settings.strategy = .dfa ∧
        ∃ d, Dfa.ofNfa settings.dfaLimits (.ofBlock e) = .ok d ∧ automaton = .dfa d := by
  rw [Settings.automaton] at built
  split at built
  · next nfa constructed =>
    obtain rfl := Nfa.eq_ofBlock constructed
    unfold Automaton.ofNfa at built
    split at built
    · next strategy => exact .inl ⟨strategy, (Except.ok.inj built).symm⟩
    · next strategy =>
      split at built
      · next d determinised =>
        exact .inr ⟨strategy, d, determinised, (Except.ok.inj built).symm⟩
      · cases built
  · cases built

/-- The strategy can be told from the automaton that it asked for. -/
theorem strategy_of_built {automaton : Automaton}
    (built : settings.automaton e = .ok automaton) : automaton.strategy = settings.strategy := by
  rcases eq_of_built built with ⟨strategy, rfl⟩ | ⟨strategy, d, -, rfl⟩ <;> exact strategy.symm

/-- The automaton that the settings ask for decides the language of the expression. -/
theorem decides_of_built {automaton : Automaton}
    (built : settings.automaton e = .ok automaton) : automaton.Decides e := by
  rcases eq_of_built built with ⟨-, rfl⟩ | ⟨-, d, determinised, rfl⟩
  · exact ⟨Nfa.accepts_ofBlock e, rfl⟩
  · refine ⟨fun text => ?_, Dfa.lengths_ofNfa determinised⟩
    rw [Automaton.accepts, Dfa.accepts_ofNfa determinised]
    exact Nfa.accepts_ofBlock e text

/-- A compiled pattern accepts the texts that its expression denotes. -/
theorem compile_accepts_iff (compiled : settings.compile pattern = .ok regex) :
    ∃ e, settings.parse pattern = .ok e ∧
      ∀ text : String, regex.accepts text = true ↔ e.Denotes text.toList := by
  obtain ⟨e, automaton, parsed, built, rfl⟩ := compile_eq_ok.mp compiled
  exact ⟨e, parsed, Regex.accepts_iff (decides_of_built built)⟩

/-- A compiled pattern keeps its text. -/
theorem pattern_of_compile (compiled : settings.compile pattern = .ok regex) :
    regex.pattern = pattern := by
  obtain ⟨e, automaton, -, -, rfl⟩ := compile_eq_ok.mp compiled
  rfl

/-- Settings that can read a pattern at all read the same expression. -/
theorem parse_unique (parsed : settings.parse pattern = .ok e)
    (parsed' : settings'.parse pattern = .ok e') : e = e' := by
  obtain ⟨tokens, scanned, read⟩ := parsePattern_eq_ok.mp parsed
  obtain ⟨tokens', scanned', read'⟩ := parsePattern_eq_ok.mp parsed'
  obtain rfl : tokens = tokens' := Except.ok.inj (scanned.symm.trans scanned')
  exact Grammar.read_unique read read'

/-- A look at the length of a text first neither makes nor breaks a compilation. -/
theorem compile_switched (compiled : settings.compile pattern = .ok regex) (on : Bool) :
    { settings with lengthPrefilter := on }.compile pattern =
      .ok { regex with lengthPrefilter := on } := by
  obtain ⟨e, automaton, parsed, built, rfl⟩ := compile_eq_ok.mp compiled
  exact compile_eq_ok.mpr ⟨e, automaton, parsed, built, rfl⟩

/-- Any settings under which a pattern compiles give a text the same verdict: whether it is in the
language of the expression that all of them read. A look at the length of a text first can be
switched on or off at will. -/
theorem verdict_of_pattern (compiled : settings.compile pattern = .ok regex)
    (compiled' : settings'.compile pattern = .ok regex') (text : String) :
    regex.accepts text = regex'.accepts text ∧
    (∃ e, settings.parse pattern = .ok e ∧ settings'.parse pattern = .ok e ∧
      (regex.accepts text = true ↔ e.Denotes text.toList)) ∧
    ∀ on, ∃ switched, { settings with lengthPrefilter := on }.compile pattern = .ok switched ∧
      switched.accepts text = regex.accepts text := by
  obtain ⟨e, parsed, verdict⟩ := compile_accepts_iff compiled
  obtain ⟨e', parsed', verdict'⟩ := compile_accepts_iff compiled'
  obtain rfl := parse_unique parsed parsed'
  refine ⟨?_, ⟨e, parsed, parsed', verdict text⟩, ?_⟩
  · rw [Bool.eq_iff_iff, verdict, verdict']
  · intro on
    have switched := compile_switched compiled on
    obtain ⟨e', parsed', verdict'⟩ := compile_accepts_iff switched
    obtain rfl := parse_unique parsed parsed'
    refine ⟨_, switched, ?_⟩
    rw [Bool.eq_iff_iff, verdict, verdict']

/-- With a deterministic automaton and a look at the length, or with neither, `a?b` accepts `ab`. -/
theorem verdict_of_optional :
    ∃ regex regex', standard.compile "a?b" = .ok regex ∧
      Settings.compile ⟨.nfa, false, 0, .standard, .standard⟩ "a?b" = .ok regex' ∧
      regex.accepts "ab" = true ∧ regex'.accepts "ab" = true := by
  let e : Expr := .concat (.repeated .optional (.literal 'a')) (.literal 'b')
  have parsed (limit : UInt32) : parsePattern limit "a?b" = .ok e := by
    have chars : "a?b".toList = ['a', '?', 'b'] := String.toList_ofList
    rw [parsePattern, Token.scan, chars]
    rfl
  have builds : (standard.automaton e).isOk = true := by decide +kernel
  cases built : standard.automaton e with
  | error fault =>
    rw [built] at builds
    cases builds
  | ok automaton =>
    have compiled := compile_eq_ok.mpr ⟨e, automaton, parsed _, built, rfl⟩
    have compiled' : Settings.compile ⟨.nfa, false, 0, .standard, .standard⟩ "a?b" =
        .ok ⟨"a?b", .nfa (.ofBlock e), false⟩ :=
      compile_eq_ok.mpr ⟨e, .nfa (.ofBlock e), parsed 0, rfl, rfl⟩
    have accepted : Regex.accepts ⟨"a?b", .nfa (.ofBlock e), false⟩ "ab" = true := by
      have chars : "ab".toList = ['a', 'b'] := String.toList_ofList
      rw [Regex.accepts, Bool.and_eq_true, Automaton.accepts, chars]
      exact ⟨rfl, by decide +kernel⟩
    have agree := (verdict_of_pattern compiled compiled' "ab").1
    exact ⟨_, _, compiled, compiled', agree.trans accepted, accepted⟩

end Settings

end FullMatch
