import FullMatch.Diagnostic
import FullMatch.Dfa.Subset
import FullMatch.Expr.Printer
import FullMatch.Grammar.Reader
import FullMatch.Nfa.Block
import FullMatch.Token.Scan

/-!
# Compiled patterns

`Settings.compile` takes pattern text through tokens, expression and automaton. The verdict on a
text is whether the whole text is in the language of the pattern; the settings decide which
automaton gives it and how large a pattern may be, and never the verdict itself.
-/

namespace FullMatch

/-- The automaton that gives the verdicts. -/
inductive Strategy where
  | dfa
  | nfa
  deriving DecidableEq

/-- The strategy as reports name it. -/
def Strategy.name : Strategy → String
  | .dfa => "dfa"
  | .nfa => "nfa"

/-- How to compile a pattern. -/
structure Settings where
  strategy : Strategy
  /-- Whether texts of impossible length are refused without a run. -/
  lengthPrefilter : Bool
  /-- The largest number in a repetition count. -/
  maxRepeat : UInt32
  nfaLimits : Nfa.Limits
  dfaLimits : Dfa.Limits
  deriving DecidableEq

namespace Settings

/-- The settings when nothing else is chosen. -/
def standard : Settings where
  strategy := .dfa
  lengthPrefilter := true
  maxRepeat := Grammar.defaultMaxRepeat
  nfaLimits := .standard
  dfaLimits := .standard

end Settings

/-- Why a pattern does not compile. -/
inductive Fault where
  | scan (fault : Token.ScanFault)
  | grammar (fault : Grammar.Fault)
  | nfa (fault : Nfa.Fault)
  | dfa (fault : Dfa.Fault)
  deriving DecidableEq

namespace Fault

/-- The report on `pattern`. Limits are crossed by a pattern as a whole, so those faults point at
its beginning. -/
def report (fault : Fault) (pattern : String) : Diagnostic :=
  match fault with
  | .scan f => .ofStage .lex f.message f.position pattern f.details
  | .grammar f => .ofStage .parse f.message (f.position pattern.length) pattern f.details
  | .nfa f => .ofStage .build f.message 0 pattern f.details
  | .dfa f => .ofStage .build f.message 0 pattern f.details

end Fault

/-- The expression that pattern text denotes, no repetition count being larger than `maxRepeat`. -/
def parsePattern (maxRepeat : UInt32) (pattern : String) : Except Fault Expr :=
  match Token.scan pattern with
  | .ok tokens => (Grammar.read maxRepeat tokens).mapError .grammar
  | .error fault => .error (.scan fault)

theorem parsePattern_eq_ok {maxRepeat : UInt32} {pattern : String} {e : Expr} :
    parsePattern maxRepeat pattern = .ok e ↔
      ∃ tokens, Token.scan pattern = .ok tokens ∧ Grammar.read maxRepeat tokens = .ok e := by
  rw [parsePattern]
  cases Token.scan pattern with
  | error fault => simp
  | ok tokens =>
    simp only [Except.ok.injEq, exists_eq_left']
    cases Grammar.read maxRepeat tokens with
    | error fault => exact iff_of_false nofun nofun
    | ok e' =>
      show Except.ok e' = Except.ok e ↔ Except.ok e' = Except.ok e
      rw [Except.ok.injEq, Except.ok.injEq]

theorem parsePattern_eq_error {maxRepeat : UInt32} {pattern : String} {fault : Grammar.Fault} :
    parsePattern maxRepeat pattern = .error (.grammar fault) ↔
      ∃ tokens, Token.scan pattern = .ok tokens ∧
        Grammar.read maxRepeat tokens = .error fault := by
  rw [parsePattern]
  cases Token.scan pattern with
  | error fault => simp
  | ok tokens =>
    simp only [Except.ok.injEq, exists_eq_left']
    cases Grammar.read maxRepeat tokens with
    | ok e => exact iff_of_false nofun nofun
    | error fault' =>
      show Except.error (Fault.grammar fault') = Except.error (.grammar fault) ↔
        Except.error fault' = Except.error fault
      rw [Except.error.injEq, Except.error.injEq, Fault.grammar.injEq]

/-- The automaton behind a compiled pattern. -/
inductive Automaton where
  | nfa (nfa : Nfa)
  | dfa (dfa : Dfa)

namespace Automaton

/-- The automaton that a strategy asks for. -/
def ofNfa (strategy : Strategy) (limits : Dfa.Limits) (nfa : Nfa) : Except Fault Automaton :=
  match strategy with
  | .nfa => .ok (.nfa nfa)
  | .dfa => match Dfa.ofNfa limits nfa with
    | .ok d => .ok (.dfa d)
    | .error fault => .error (.dfa fault)

/-- Whether the automaton accepts the whole text. -/
def accepts : Automaton → List Char → Bool
  | .nfa n => n.accepts
  | .dfa d => d.accepts

/-- The strategy that asks for such an automaton. -/
def strategy : Automaton → Strategy
  | .nfa _ => .nfa
  | .dfa _ => .dfa

/-- The lengths of the texts that the automaton can accept. -/
def lengths : Automaton → LengthRange
  | .nfa n => n.lengths
  | .dfa d => d.lengths

/-- How many states the automaton has. -/
def stateCount : Automaton → Nat
  | .nfa n => n.states.size
  | .dfa d => d.states.size

end Automaton

/-- A compiled pattern. -/
structure Regex where
  pattern : String
  automaton : Automaton
  lengthPrefilter : Bool

namespace Regex

/-- Whether a text of `n` characters can match at all. -/
def admitsLength (regex : Regex) (n : Nat) : Bool :=
  regex.automaton.lengths.contains n

/-- Whether the whole text matches. -/
def accepts (regex : Regex) (text : String) : Bool :=
  (!regex.lengthPrefilter || regex.admitsLength text.length) &&
    regex.automaton.accepts text.toList

end Regex

namespace Settings

/-- The expression that pattern text denotes under the settings. -/
def parse (settings : Settings) (pattern : String) : Except Fault Expr :=
  parsePattern settings.maxRepeat pattern

/-- The automaton of an expression under the settings. -/
def automaton (settings : Settings) (e : Expr) : Except Fault Automaton :=
  match Nfa.ofExpr settings.nfaLimits e with
  | .ok nfa => Automaton.ofNfa settings.strategy settings.dfaLimits nfa
  | .error fault => .error (.nfa fault)

/-- The compiled pattern, or why there is none. -/
def compile (settings : Settings) (pattern : String) : Except Fault Regex :=
  match settings.parse pattern with
  | .ok e =>
    match settings.automaton e with
    | .ok automaton => .ok ⟨pattern, automaton, settings.lengthPrefilter⟩
    | .error fault => .error fault
  | .error fault => .error fault

/-- A pattern compiles if it can be read and its automaton can be built. -/
theorem compile_eq_ok {settings : Settings} {pattern : String} {regex : Regex} :
    settings.compile pattern = .ok regex ↔
      ∃ e automaton, settings.parse pattern = .ok e ∧ settings.automaton e = .ok automaton ∧
        regex = ⟨pattern, automaton, settings.lengthPrefilter⟩ := by
  rw [compile]
  cases settings.parse pattern with
  | error fault => simp
  | ok e => cases built : settings.automaton e <;> simp [built, eq_comm]

end Settings

end FullMatch
