import FullMatch.Proofs.Token.Place
import FullMatch.Proofs.Token.Scan
import Mathlib.Algebra.Ring.Parity
import Mathlib.Data.List.DropRight

/-!
# Escapes and delimiters

What is wrong with a pattern that cannot be cut, read off its text without a scan. A character is
escaped if an odd number of backslashes stands in front of it (`Unescaped`), and a bracket or brace
opens something if everything opened before it has been closed (`Opens`). A scan fails just when
the text ends in an odd number of backslashes, or else when the last class that is opened is never
closed (`scan_fails_iff`).
-/

namespace FullMatch.Token

variable {context : Context} {start : Nat} {text whole : List Char} {c e : Char}
  {done : List Token} {pattern : String}

section Escapes

/-- How many backslashes a text ends with. -/
def backslashes (text : List Char) : Nat :=
  (text.rtakeWhile (· = '\\')).length

theorem backslashes_concat_backslash (text : List Char) :
    backslashes (text ++ ['\\']) = backslashes text + 1 := by
  simp [backslashes]

theorem backslashes_concat (text : List Char) (plain : c ≠ '\\') :
    backslashes (text ++ [c]) = 0 := by
  simp [backslashes, plain]

/-- A character stands at a place of a text, and no backslash takes it: backslashes pair up from the
left, so an even number of them stands in front of it. -/
def Unescaped (text : List Char) (c : Char) (i : Nat) : Prop :=
  text[i]? = some c ∧ Even (backslashes (text.take i))

/-- Behind an even number of backslashes, a character is unescaped. -/
theorem unescaped_iff (here : text[start]? = some c)
    (even : Even (backslashes (text.take start))) : Unescaped text e start ↔ e = c := by
  rw [Unescaped, here, Option.some.injEq, and_iff_left even, eq_comm]

theorem backslashes_take_succ_of_backslash (here : text[start]? = some '\\') :
    backslashes (text.take (start + 1)) = backslashes (text.take start) + 1 := by
  rw [List.take_add_one, here]
  exact backslashes_concat_backslash _

theorem backslashes_take_succ (here : text[start]? = some c) (plain : c ≠ '\\') :
    backslashes (text.take (start + 1)) = 0 := by
  rw [List.take_add_one, here]
  exact backslashes_concat _ plain

end Escapes

section Delimiters

/-- What encloses a part of a pattern: the brackets of a class, or the braces of a count. -/
inductive Delimiter where
  | bracket
  | brace

namespace Delimiter

/-- The character that opens the part. -/
def opening : Delimiter → Char
  | bracket => '['
  | brace => '\x7b'

/-- The character that closes the part. -/
def closing : Delimiter → Char
  | bracket => ']'
  | brace => '\x7d'

theorem opening_ne_backslash (d : Delimiter) : d.opening ≠ '\\' := by
  cases d <;> decide

theorem closing_ne_backslash (d : Delimiter) : d.closing ≠ '\\' := by
  cases d <;> decide

end Delimiter

variable {d d' : Delimiter} {i j j' : Nat}

/-- A class or a count is opened at a place: the character is unescaped, and whatever was opened
before it is closed before it. -/
def Opens (text : List Char) (d : Delimiter) (i : Nat) : Prop :=
  Unescaped text d.opening i ∧
    ∀ d' j, j < i → Opens text d' j → ∃ k, j < k ∧ k < i ∧ Unescaped text d'.closing k
termination_by i

/-- What was opened at `j` is not closed in front of `i`. -/
structure IsOpen (text : List Char) (d : Delimiter) (j i : Nat) : Prop where
  lt : j < i
  opens : Opens text d j
  unclosed : ∀ k, j < k → k < i → ¬Unescaped text d.closing k

/-- A class or a count is opened where nothing is open. -/
theorem opens_iff :
    Opens text d i ↔ Unescaped text d.opening i ∧ ∀ d' j, ¬IsOpen text d' j i := by
  rw [Opens]
  refine and_congr_right fun _ => ⟨fun closed d' j isOpen => ?_, fun none d' j lt opens => ?_⟩
  · obtain ⟨k, behind, lt, closes⟩ := closed d' j isOpen.lt isOpen.opens
    exact isOpen.unclosed k behind lt closes
  · by_contra unclosed
    exact none d' j ⟨lt, opens, fun k behind lt closes => unclosed ⟨k, behind, lt, closes⟩⟩

theorem IsOpen.not_opens_between (isOpen : IsOpen text d j i) (behind : j < j') (lt : j' < i) :
    ¬Opens text d' j' := fun opens =>
  (opens_iff.mp opens).2 d j
    ⟨behind, isOpen.opens, fun k after before => isOpen.unclosed k after (before.trans lt)⟩

/-- Only one thing is open at a time. -/
theorem IsOpen.unique (first : IsOpen text d j i) (second : IsOpen text d' j' i) :
    d = d' ∧ j = j' := by
  rcases Nat.lt_trichotomy j j' with behind | rfl | behind
  · exact absurd second.opens (first.not_opens_between behind second.lt)
  · have same : d.opening = d'.opening := Option.some.inj <|
      (opens_iff.mp first.opens).1.1.symm.trans (opens_iff.mp second.opens).1.1
    cases d <;> cases d' <;> first | exact ⟨rfl, rfl⟩ | cases same
  · exact absurd first.opens (second.not_opens_between behind first.lt)

/-- What is open behind a place was opened there, or was open before and is not closed there. -/
theorem isOpen_succ_iff :
    IsOpen text d j (i + 1) ↔
      j = i ∧ Opens text d i ∨ IsOpen text d j i ∧ ¬Unescaped text d.closing i := by
  constructor
  · rintro ⟨lt, opens, unclosed⟩
    rcases Nat.lt_succ_iff_lt_or_eq.mp lt with lt | rfl
    · exact .inr ⟨⟨lt, opens, fun k behind lt => unclosed k behind (Nat.lt_succ_of_lt lt)⟩,
        unclosed i lt (Nat.lt_succ_self i)⟩
    · exact .inl ⟨rfl, opens⟩
  · rintro (⟨rfl, opens⟩ | ⟨⟨lt, opens, unclosed⟩, here⟩)
    · exact ⟨Nat.lt_succ_self j, opens, fun k behind lt => by omega⟩
    · refine ⟨Nat.lt_succ_of_lt lt, opens, fun k behind lt => ?_⟩
      rcases Nat.lt_succ_iff_lt_or_eq.mp lt with lt | rfl
      · exact unclosed k behind lt
      · exact here

theorem Opens.isOpen (opens : Opens text d i) : IsOpen text d i (i + 1) :=
  isOpen_succ_iff.mpr (.inl ⟨rfl, opens⟩)

/-- Nothing is open behind what closes the one thing that was. -/
theorem IsOpen.not_isOpen_succ (isOpen : IsOpen text d j i) (closes : Unescaped text d.closing i) :
    ¬IsOpen text d' j' (i + 1) := by
  rw [isOpen_succ_iff]
  rintro (⟨-, opens⟩ | ⟨isOpen', unclosed⟩)
  · exact (opens_iff.mp opens).2 d j isOpen
  · obtain ⟨rfl, -⟩ := isOpen.unique isOpen'
    exact unclosed closes

end Delimiters

section Scans

/-- What a context says is open in front of a place is open there. -/
def Context.Stands (whole : List Char) (place : Nat) : Context → Prop
  | .outside => ∀ d j, ¬IsOpen whole d j place
  | .inClass opened _ => IsOpen whole .bracket opened place
  | .inBounds => ∃ opened, IsOpen whole .brace opened place

theorem stands_afterEscape :
    (context.afterEscape c).Stands whole start ↔ context.Stands whole start := by
  cases context with
  | outside | inClass | inBounds => exact Iff.rfl

/-- A place where nothing is opened and nothing that is open is closed leaves the context. -/
theorem Context.Stands.succ (stands : context.Stands whole start)
    (noOpening : ∀ d, ¬Opens whole d start)
    (noClosing : ∀ d j, IsOpen whole d j start → ¬Unescaped whole d.closing start) :
    context.Stands whole (start + 1) := by
  cases context with
  | outside =>
    intro d j isOpen
    rcases isOpen_succ_iff.mp isOpen with ⟨-, opens⟩ | ⟨isOpen, -⟩
    · exact noOpening d opens
    · exact stands d j isOpen
  | inClass opened previous =>
    exact isOpen_succ_iff.mpr (.inr ⟨stands, noClosing _ _ stands⟩)
  | inBounds =>
    obtain ⟨opened, isOpen⟩ := stands
    exact ⟨opened, isOpen_succ_iff.mpr (.inr ⟨isOpen, noClosing _ _ isOpen⟩)⟩

theorem eq_of_kindOutside_eq_leftBrace (opens : kindOutside c = .leftBrace) : c = '\x7b' := by
  unfold kindOutside at opens
  split at opens <;> first | rfl | cases opens

theorem eq_of_kindInBounds_eq_rightBrace (closes : kindInBounds c = .rightBrace) :
    c = '\x7d' := by
  unfold kindInBounds at closes
  split at closes
  · cases closes
  · split at closes <;> first | rfl | cases closes

/-- Behind a character that no backslash takes, the next context says what is open. -/
theorem Context.Stands.after {next : Option Char} (stands : context.Stands whole start)
    (unescaped : ∀ e, Unescaped whole e start ↔ e = c) :
    (context.after (context.kind start c next) start c).Stands whole (start + 1) := by
  cases context with
  | outside =>
    have opens {d : Delimiter} (same : d.opening = c) : Opens whole d start :=
      opens_iff.mpr ⟨(unescaped _).mpr same, stands⟩
    show (Context.outside.after (kindOutside c) start c).Stands whole (start + 1)
    by_cases bracket : kindOutside c = .leftBracket
    · obtain rfl := eq_of_kindOutside_eq_leftBracket bracket
      exact (opens (d := .bracket) rfl).isOpen
    by_cases brace : kindOutside c = .leftBrace
    · obtain rfl := eq_of_kindOutside_eq_leftBrace brace
      exact ⟨start, (opens (d := .brace) rfl).isOpen⟩
    rw [after_outside bracket brace]
    refine stands.succ (fun d opens => ?_) fun d j isOpen => absurd isOpen (stands d j)
    obtain rfl := (unescaped _).mp (opens_iff.mp opens).1
    cases d with
    | bracket => exact bracket rfl
    | brace => exact brace rfl
  | inClass opened previous =>
    show ((Context.inClass opened previous).after (kindInClass opened previous start next c)
      start c).Stands whole (start + 1)
    by_cases closes : kindInClass opened previous start next c = .rightBracket
    · obtain rfl := eq_of_kindInClass_eq_rightBracket closes
      exact fun d j => IsOpen.not_isOpen_succ stands ((unescaped _).mpr rfl)
    rw [after_inClass closes]
    have within : (Context.inClass opened c).Stands whole start := stands
    refine within.succ (fun d opens => (opens_iff.mp opens).2 _ _ stands)
      fun d j isOpen closing => ?_
    obtain ⟨rfl, -⟩ := isOpen.unique stands
    obtain rfl := (unescaped _).mp closing
    exact closes rfl
  | inBounds =>
    have ⟨opened, isOpen⟩ := stands
    show (Context.inBounds.after (kindInBounds c) start c).Stands whole (start + 1)
    by_cases closes : kindInBounds c = .rightBrace
    · obtain rfl := eq_of_kindInBounds_eq_rightBrace closes
      exact fun d j => isOpen.not_isOpen_succ ((unescaped _).mpr rfl)
    rw [after_inBounds closes]
    refine stands.succ (fun d opens => (opens_iff.mp opens).2 _ _ isOpen)
      fun d j isOpen' closing => ?_
    obtain ⟨rfl, -⟩ := isOpen'.unique isOpen
    obtain rfl := (unescaped _).mp closing
    exact closes rfl

/-- A scan has come to a place of the whole text: the backslashes in front of it are paired, and the
context says what is open. -/
structure Reached (whole : List Char) (place : Nat) (context : Context) : Prop where
  paired : Even (backslashes (whole.take place))
  stands : context.Stands whole place

namespace Reached

theorem zero (whole : List Char) : Reached whole 0 .outside where
  paired := Even.zero
  stands _ _ isOpen := Nat.not_lt_zero _ isOpen.lt

/-- A scan goes on behind a character that is no backslash. -/
theorem plain {next : Option Char} (reached : Reached whole start context)
    (here : whole[start]? = some c) (noBackslash : c ≠ '\\') :
    Reached whole (start + 1) (context.after (context.kind start c next) start c) where
  paired := by
    rw [backslashes_take_succ here noBackslash]
    exact Even.zero
  stands := reached.stands.after fun e => unescaped_iff here reached.paired

/-- A scan goes on behind a backslash and the character that it takes. -/
theorem escaped (reached : Reached whole start context) (here : whole[start]? = some '\\')
    (taken : whole[start + 1]? = some c) :
    Reached whole (start + 2) (context.afterEscape c) := by
  have unpaired : ¬Even (backslashes (whole.take (start + 1))) := by
    rw [backslashes_take_succ_of_backslash here, Nat.even_add_one, not_not]
    exact reached.paired
  have backslash (e : Char) : Unescaped whole e start ↔ e = '\\' :=
    unescaped_iff here reached.paired
  have none (e : Char) : ¬Unescaped whole e (start + 1) := fun unescaped => unpaired unescaped.2
  constructor
  case paired =>
    by_cases same : c = '\\'
    · subst same
      rw [backslashes_take_succ_of_backslash taken, Nat.even_add_one]
      exact unpaired
    · rw [backslashes_take_succ taken same]
      exact Even.zero
  case stands =>
    rw [stands_afterEscape]
    have stands : context.Stands whole (start + 1) := reached.stands.succ
      (fun d opens => d.opening_ne_backslash ((backslash _).mp (opens_iff.mp opens).1))
      fun d j _ closing => d.closing_ne_backslash ((backslash _).mp closing)
    exact stands.succ (fun d opens => none _ (opens_iff.mp opens).1) fun d j _ => none _

end Reached

/-- What a scan of a text returns: the backslash that the text ends in, if no other one takes it, or
else the class that is open at the end, or else tokens. -/
inductive Outcome (whole : List Char) : Except ScanFault (List Token) → Prop where
  | dangling {place : Nat} (unpaired : Odd (backslashes whole))
      (last : place + 1 = whole.length) : Outcome whole (.error (.danglingEscape place))
  | unclosed {opened : Nat} (paired : ¬Odd (backslashes whole))
      (isOpen : IsOpen whole .bracket opened whole.length) :
      Outcome whole (.error (.unclosedClass opened))
  | cut {ts : List Token} (paired : ¬Odd (backslashes whole))
      (closed : ∀ opened, ¬IsOpen whole .bracket opened whole.length) : Outcome whole (.ok ts)

/-- All of a text has been read. -/
theorem Reached.not_odd (reached : Reached whole whole.length context) :
    ¬Odd (backslashes whole) := by
  have paired := reached.paired
  rwa [List.take_length, ← Nat.not_odd_iff_even] at paired

theorem outcome_of_scanFrom (reached : Reached whole start context)
    (stands : StandsAt whole start text) (ends : start + text.length = whole.length) :
    Outcome whole (scanFrom context start done text) := by
  fun_induction scanFrom context start done text with
  | case1 start done opened previous =>
    obtain rfl : start = whole.length := ends
    exact .unclosed reached.not_odd reached.stands
  | case2 start done context outside =>
    obtain rfl : start = whole.length := ends
    refine .cut reached.not_odd fun opened isOpen => ?_
    have stands := reached.stands
    cases context with
    | outside => exact stands _ _ isOpen
    | inClass opened' previous => exact outside opened' previous rfl
    | inBounds =>
      obtain ⟨opened', isOpen'⟩ := stands
      cases (isOpen.unique isOpen').1
  | case3 context start done =>
    have last := backslashes_take_succ_of_backslash stands.head
    have whole_eq : whole.take (start + 1) = whole := by
      rw [show start + 1 = whole.length from ends, List.take_length]
    rw [whole_eq] at last
    exact .dangling (last ▸ reached.paired.add_one) ends
  | case4 context start done c rest ih =>
    rw [add_length_cons, add_length_cons] at ends
    exact ih (reached.escaped stands.head stands.tail.head) stands.tail.tail ends
  | case5 context start done c rest single escaped kind ih =>
    rw [add_length_cons] at ends
    exact ih (reached.plain stands.head (ne_backslash single escaped)) stands.tail ends

/-- The outcome of a scan is read off the text. -/
theorem outcome_of_scan (pattern : String) : Outcome pattern.toList (scan pattern) :=
  outcome_of_scanFrom (.zero _) (standsAt_zero _) (Nat.zero_add _)

end Scans

section Failures

/-- The place of the last bracket that opens a class. -/
def LastClass (text : List Char) (i : Nat) : Prop :=
  Opens text .bracket i ∧ ∀ j, i < j → ¬Opens text .bracket j

/-- A class is open at the end if it is the last one and no bracket closes it. -/
theorem isOpen_length_iff {i : Nat} :
    IsOpen text .bracket i text.length ↔
      LastClass text i ∧ ∀ k, i < k → ¬Unescaped text ']' k := by
  constructor
  · intro isOpen
    have inside {e : Char} {k : Nat} (unescaped : Unescaped text e k) : k < text.length :=
      (List.getElem?_eq_some_iff.mp unescaped.1).1
    refine ⟨⟨isOpen.opens, fun j behind opens => ?_⟩, fun k behind closes => ?_⟩
    · exact isOpen.not_opens_between behind (inside (opens_iff.mp opens).1) opens
    · exact isOpen.unclosed k behind (inside closes) closes
  · rintro ⟨⟨opens, -⟩, unclosed⟩
    exact ⟨(List.getElem?_eq_some_iff.mp (opens_iff.mp opens).1.1).1, opens,
      fun k behind _ => unclosed k behind⟩

/-- A pattern cannot be cut, with a message that points at a place. -/
def FailsWith (pattern message : String) (place : Nat) : Prop :=
  ∃ fault, scan pattern = .error fault ∧ fault.message = message ∧ fault.position = place

theorem failsWith_escape_iff {place : Nat} :
    FailsWith pattern "Invalid escape sequence" place ↔
      scan pattern = .error (.danglingEscape place) := by
  constructor
  · rintro ⟨fault, failed, message, rfl⟩
    cases fault with
    | danglingEscape => exact failed
    | unclosedClass => simp [ScanFault.message] at message
  · exact fun failed => ⟨_, failed, rfl, rfl⟩

theorem failsWith_class_iff {place : Nat} :
    FailsWith pattern "Unclosed character class" place ↔
      scan pattern = .error (.unclosedClass place) := by
  constructor
  · rintro ⟨fault, failed, message, rfl⟩
    cases fault with
    | danglingEscape => simp [ScanFault.message] at message
    | unclosedClass => exact failed
  · exact fun failed => ⟨_, failed, rfl, rfl⟩

/-- A pattern that ends in an odd number of backslashes cannot be cut because of the last one. Any
other pattern cannot be cut just when the last bracket that opens a class, outside any class and any
braces before it, is never closed, and because of that bracket. All else can be cut. -/
theorem scan_fails_iff (pattern : String) :
    (∀ place, FailsWith pattern "Invalid escape sequence" place ↔
      Odd (backslashes pattern.toList) ∧ place = pattern.length - 1) ∧
    (∀ place, FailsWith pattern "Unclosed character class" place ↔
      ¬Odd (backslashes pattern.toList) ∧ LastClass pattern.toList place ∧
        ∀ k, place < k → ¬Unescaped pattern.toList ']' k) ∧
    ((∃ ts, scan pattern = .ok ts) ↔
      ¬Odd (backslashes pattern.toList) ∧ ∀ i, LastClass pattern.toList i →
        ∃ k, i < k ∧ Unescaped pattern.toList ']' k) := by
  simp only [failsWith_escape_iff, failsWith_class_iff, ← isOpen_length_iff]
  have closed : (∀ i, LastClass pattern.toList i → ∃ k, i < k ∧ Unescaped pattern.toList ']' k) ↔
      ∀ i, ¬IsOpen pattern.toList .bracket i pattern.toList.length := by
    simp only [isOpen_length_iff, not_and, not_forall, not_not, exists_prop]
  rw [closed, ← String.length_toList]
  have outcome := outcome_of_scan pattern
  generalize scan pattern = result at outcome ⊢
  cases outcome with
  | @dangling place unpaired last =>
    refine ⟨fun place' => ?_, fun place' => ?_, ?_⟩
    · have same : place = place' ↔ place' = pattern.toList.length - 1 := by omega
      rw [Except.error.injEq, ScanFault.danglingEscape.injEq, and_iff_right unpaired, same]
    · exact iff_of_false nofun fun wrong => wrong.1 unpaired
    · exact iff_of_false nofun fun wrong => wrong.1 unpaired
  | @unclosed opened paired isOpen =>
    refine ⟨fun place => ?_, fun place => ?_, ?_⟩
    · exact iff_of_false nofun fun wrong => paired wrong.1
    · rw [Except.error.injEq, ScanFault.unclosedClass.injEq, and_iff_right paired]
      exact ⟨fun same => same ▸ isOpen, fun isOpen' => (isOpen.unique isOpen').2⟩
    · exact iff_of_false nofun fun wrong => wrong.2 opened isOpen
  | @cut ts paired closed =>
    refine ⟨fun place => ?_, fun place => ?_, ?_⟩
    · exact iff_of_false nofun fun wrong => paired wrong.1
    · exact iff_of_false nofun fun wrong => closed place wrong.2
    · exact iff_of_true ⟨ts, rfl⟩ ⟨paired, closed⟩

end Failures

end FullMatch.Token
