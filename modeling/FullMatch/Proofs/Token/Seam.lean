import FullMatch.Proofs.Token.Scan
import FullMatch.Token.Nesting

/-!
# Seams

What a text is cut into does not depend on where it stands (`scanFrom_shift`), nor on what stands
behind it if it is cut on its own: a class ends with its bracket, so only the braces of a
repetition count can be open at the end (`Cuts.scans`). Hence, behind a text without open braces,
another one is cut as if it stood alone, faults included (`scan_append`). Whether braces are open
can be told from the tokens: the last opening one is not closed (`scan_behind_neutral`).
-/

namespace FullMatch.Token

variable {context : Context} {start : Nat} {text : List Char} {ts us done : List Token}
  {c : Char} {pattern : String}

section Shift

/-- A token `k` characters further on. -/
def shift (k : Nat) (t : Token) : Token :=
  { t with position := t.position + k }

theorem map_shift_zero (ts : List Token) : ts.map (shift 0) = ts :=
  List.map_id'' (fun _ => rfl) ts

theorem unclosed_map_shift (k opened : Nat) (ts : List Token) :
    unclosed opened (ts.map (shift k)) = unclosed opened ts :=
  List.foldl_map

theorem deepest_map_shift (k opened : Nat) (ts : List Token) :
    deepest opened (ts.map (shift k)) = deepest opened ts := by
  induction ts generalizing opened with
  | nil => rfl
  | cons t ts ih => exact congrArg (max opened) (ih (t.opensTo opened))

/-- Groups are nested the same way further on. -/
theorem Nests.shift {n : Nat} (k : Nat) (nests : Nests n ts) : Nests n (ts.map (shift k)) where
  unclosed opened := (unclosed_map_shift k opened ts).trans (nests.unclosed opened)
  deepest opened := (deepest_map_shift k opened ts).trans (nests.deepest opened)

/-- A fault `k` characters further on. -/
def ScanFault.shift (k : Nat) : ScanFault → ScanFault
  | .danglingEscape position => .danglingEscape (position + k)
  | .unclosedClass opened => .unclosedClass (opened + k)

/-- A context `k` characters further on. -/
def Context.shift (k : Nat) : Context → Context
  | .inClass opened previous => .inClass (opened + k) previous
  | context => context

/-- What a scan returns, `k` characters further on. -/
def shiftScan (k : Nat) : Except ScanFault (List Token) → Except ScanFault (List Token)
  | .ok ts => .ok (ts.map (shift k))
  | .error fault => .error (fault.shift k)

/-- What a character in a class stands for depends on its distance from the bracket. -/
theorem kind_shift (k : Nat) (context : Context) (start : Nat) (c : Char) (next : Option Char) :
    (context.shift k).kind (start + k) c next = context.kind start c next := by
  cases context with
  | outside | inBounds => rfl
  | inClass opened previous =>
    have first : start + k = opened + k + 1 ↔ start = opened + 1 := by omega
    have second : start + k = opened + k + 2 ↔ start = opened + 2 := by omega
    have dash : isRangeDash (opened + k) previous (start + k) next =
        isRangeDash opened previous start next := by
      simp only [isRangeDash, second]
    simp only [Context.shift, Context.kind, kindInClass, first, dash]

theorem after_shift (k : Nat) (context : Context) (kind : Kind) (start : Nat) (c : Char) :
    (context.shift k).after kind (start + k) c = (context.after kind start c).shift k := by
  cases context <;> cases kind <;> rfl

theorem afterEscape_shift (k : Nat) (context : Context) (c : Char) :
    (context.shift k).afterEscape c = (context.afterEscape c).shift k := by
  cases context <;> rfl

/-- A text is cut the same way further on. -/
theorem scanFrom_shift (k : Nat) (context : Context) (start : Nat) (done : List Token)
    (text : List Char) :
    scanFrom (context.shift k) (start + k) (done.map (shift k)) text =
      shiftScan k (scanFrom context start done text) := by
  fun_induction scanFrom context start done text with
  | case1 => rfl
  | case2 start done context outside =>
    cases context with
    | inClass opened previous => exact absurd rfl (outside opened previous)
    | outside | inBounds => simp [Context.shift, scanFrom, shiftScan]
  | case3 => rfl
  | case4 context start done c rest ih =>
    rw [scanFrom, afterEscape_shift, ← ih, Nat.add_right_comm]
    rfl
  | case5 context start done c rest single escaped kind ih =>
    rw [scanFrom, kind_shift, after_shift, ← ih, Nat.add_right_comm]
    · rfl
    · exact single
    · exact escaped

end Shift

section Braces

/-- Whether a kind of token opens or closes the braces of a repetition count. -/
def Kind.isBrace : Kind → Bool
  | .leftBrace | .rightBrace => true
  | _ => false

theorem Kind.isBrace_eq_false {kind : Kind} (noOpening : kind ≠ .leftBrace)
    (noClosing : kind ≠ .rightBrace) : kind.isBrace = false := by
  cases kind <;> first | rfl | contradiction

/-- Whether the braces of a repetition count are open behind a token, given whether they are open
in front of it. -/
def bracesTo (opened : Bool) (t : Token) : Bool :=
  match t.kind with
  | .leftBrace => true
  | .rightBrace => false
  | _ => opened

/-- Any token but a brace leaves the braces alone. -/
theorem bracesTo_of_not_isBrace {opened : Bool} {t : Token} (other : t.kind.isBrace = false) :
    bracesTo opened t = opened := by
  unfold bracesTo
  split
  · next opening => simp [opening, Kind.isBrace] at other
  · next closing => simp [closing, Kind.isBrace] at other
  · rfl

/-- Whether the braces of a repetition count are open behind tokens, given whether they are open in
front. -/
def bracesOpen (opened : Bool) (ts : List Token) : Bool :=
  ts.foldl bracesTo opened

@[simp] theorem bracesOpen_nil (opened : Bool) : bracesOpen opened [] = opened := rfl

@[simp] theorem bracesOpen_cons (opened : Bool) (t : Token) (ts : List Token) :
    bracesOpen opened (t :: ts) = bracesOpen (bracesTo opened t) ts := rfl

@[simp] theorem bracesOpen_append (opened : Bool) (ts us : List Token) :
    bracesOpen opened (ts ++ us) = bracesOpen (bracesOpen opened ts) us :=
  List.foldl_append

/-- Tokens without braces leave the braces alone. -/
theorem bracesOpen_of_forall {opened : Bool} {ts : List Token}
    (others : ∀ t ∈ ts, t.kind.isBrace = false) : bracesOpen opened ts = opened := by
  induction ts with
  | nil => rfl
  | cons t ts ih =>
    obtain ⟨first, rest⟩ := List.forall_mem_cons.mp others
    rw [bracesOpen_cons, bracesTo_of_not_isBrace first, ih rest]

/-- Braces are open behind tokens that hold no brace at all, if they are open in front, or whose
last brace is an opening one. -/
theorem exists_of_bracesOpen {opened : Bool} {ts : List Token}
    (isOpen : bracesOpen opened ts = true) :
    (opened = true ∧ ∀ t ∈ ts, t.kind.isBrace = false) ∨
      ∃ before opening after, ts = before ++ opening :: after ∧ opening.kind = .leftBrace ∧
        ∀ t ∈ after, t.kind.isBrace = false := by
  induction ts generalizing opened with
  | nil => exact .inl ⟨isOpen, nofun⟩
  | cons t ts ih =>
    rcases ih isOpen with ⟨first, others⟩ | ⟨before, opening, after, rfl, last⟩
    · by_cases opens : t.kind = .leftBrace
      · exact .inr ⟨[], t, ts, rfl, opens, others⟩
      by_cases closes : t.kind = .rightBrace
      · rw [bracesTo, closes] at first
        cases first
      have other : t.kind.isBrace = false := Kind.isBrace_eq_false opens closes
      rw [bracesTo_of_not_isBrace other] at first
      exact .inl ⟨first, List.forall_mem_cons.mpr ⟨other, others⟩⟩
    · exact .inr ⟨t :: before, opening, after, rfl, last⟩

/-- The last opening brace among tokens, if there is one, has a closing one behind it. -/
def ClosesBraces (ts : List Token) : Prop :=
  ∀ before opening after, ts = before ++ opening :: after → opening.kind = .leftBrace →
    (∀ t ∈ after, t.kind ≠ .leftBrace) → ∃ t ∈ after, t.kind = .rightBrace

/-- No braces are open behind tokens just when the last opening one is closed. -/
theorem bracesOpen_eq_false_iff {ts : List Token} :
    bracesOpen false ts = false ↔ ClosesBraces ts := by
  constructor
  · rintro closed before opening after rfl opens last
    refine Classical.byContradiction fun never => ?_
    rw [not_exists] at never
    have others : ∀ t ∈ after, t.kind.isBrace = false := fun t member =>
      Kind.isBrace_eq_false (last t member) fun closing => never t ⟨member, closing⟩
    rw [bracesOpen_append, bracesOpen_cons, bracesOpen_of_forall others, bracesTo, opens] at closed
    cases closed
  · intro closes
    rw [← Bool.not_eq_true]
    intro isOpen
    rcases exists_of_bracesOpen isOpen with ⟨never, -⟩ |
      ⟨before, opening, after, split, opens, others⟩
    · cases never
    · have last : ∀ t ∈ after, t.kind ≠ .leftBrace := fun t member again => by
        cases again ▸ others t member
      obtain ⟨t, member, closing⟩ := closes before opening after split opens last
      cases closing ▸ others t member

instance : DecidablePred ClosesBraces := fun _ => decidable_of_iff _ bracesOpen_eq_false_iff

theorem bracesOpen_map_shift (k : Nat) (opened : Bool) (ts : List Token) :
    bracesOpen opened (ts.map (shift k)) = bracesOpen opened ts :=
  List.foldl_map

/-- Whether a context is inside braces. -/
def Context.isBraced : Context → Bool
  | .inBounds => true
  | .outside | .inClass .. => false

/-- The context outside classes that is inside braces or not. -/
def Context.ofBraces (opened : Bool) : Context :=
  if opened then .inBounds else .outside

theorem kindEscaped_not_isBrace (c : Char) : (kindEscaped c).isBrace = false := by
  unfold kindEscaped
  split <;> rfl

theorem kindInClass_not_isBrace (opened : Nat) (previous : Char) (position : Nat)
    (next : Option Char) (c : Char) :
    (kindInClass opened previous position next c).isBrace = false := by
  unfold kindInClass
  split
  · rfl
  · split <;> rfl
  · split <;> rfl
  · rfl

/-- An escaped brace opens and closes nothing. -/
theorem isBraced_afterEscape (context : Context) (c : Char) (start : Nat) :
    (context.afterEscape c).isBraced = bracesTo context.isBraced ⟨kindEscaped c, c, start⟩ := by
  rw [bracesTo_of_not_isBrace (kindEscaped_not_isBrace c)]
  cases context <;> rfl

/-- The tokens tell whether a scan stands inside braces. -/
theorem isBraced_after (context : Context) (start : Nat) (c : Char) (next : Option Char) :
    (context.after (context.kind start c next) start c).isBraced =
      bracesTo context.isBraced ⟨context.kind start c next, c, start⟩ := by
  cases context with
  | outside | inBounds =>
    generalize Context.kind _ start c next = kind
    cases kind <;> rfl
  | inClass opened previous =>
    rw [bracesTo_of_not_isBrace (kindInClass_not_isBrace opened previous start next c)]
    generalize Context.kind _ start c next = kind
    cases kind <;> rfl

end Braces

section Seam

/-- Nothing behind the last character tells what it stands for: if it is in a class, it is the
bracket that ends it. -/
theorem kind_eq_of_last {kind : Kind} (is : context.kind start c none = kind)
    (noClass : ∀ opened previous, context.after kind start c ≠ .inClass opened previous)
    (next : Option Char) : context.kind start c next = kind := by
  subst is
  cases context with
  | outside | inBounds => rfl
  | inClass opened previous =>
    by_cases closes : kindInClass opened previous start none c = .rightBracket
    · obtain rfl := eq_of_kindInClass_eq_rightBracket closes
      rfl
    · exact absurd (after_inClass closes) (noClass opened c)

/-- A text that is cut on its own is a piece. -/
theorem Cuts.scans (cuts : Cuts context start text ts) :
    Scans context (.ofBraces (bracesOpen context.isBraced ts)) start text ts := by
  induction cuts with
  | @nil context start noClass =>
    cases context with
    | inClass opened previous => exact absurd rfl (noClass opened previous)
    | outside | inBounds => exact .nil _ start
  | @escaped context start c text ts _ ih =>
    rw [bracesOpen_cons, ← isBraced_afterEscape context c start]
    exact (Scans.escape context start c).append ih
  | @plain context start c text ts noBackslash rest ih =>
    -- The next character, which only a dash in a class asks for, is in the text if there is one.
    have is (behind : List Char) :
        context.kind start c (text ++ behind).head? = context.kind start c text.head? := by
      cases rest with
      | nil _ noClass => exact kind_eq_of_last rfl noClass _
      | escaped | plain => rfl
    rw [bracesOpen_cons, ← isBraced_after context start c text.head?]
    exact .cons noBackslash is ih

/-- A pattern that is cut, and leaves no braces open, is a piece anywhere outside brackets and
braces. -/
theorem scans_of_scan (cut : scan pattern = .ok ts) (closed : bracesOpen false ts = false)
    (start : Nat) : Scans .outside .outside start pattern.toList (ts.map (shift start)) := by
  have further := scanFrom_shift start .outside 0 [] pattern.toList
  rw [← scan, cut, Nat.zero_add] at further
  obtain ⟨us, same, cuts⟩ := cuts_of_scanFrom further
  rw [List.map_nil, List.reverse_nil, List.nil_append] at same
  have closed' : bracesOpen false (ts.map (shift start)) = false := by
    rw [bracesOpen_map_shift, closed]
  rw [← same] at cuts
  show Scans .outside (.ofBraces false) start pattern.toList _
  rw [← closed']
  exact cuts.scans

/-- Behind a pattern that leaves no braces open, another one is cut as if it stood alone. -/
theorem scan_append (cut : scan pattern = .ok ts) (closed : bracesOpen false ts = false)
    (next : String) :
    scan (pattern ++ next) = (shiftScan pattern.length (scan next)).map (ts ++ ·) := by
  have first := scans_of_scan cut closed 0
  have further := scanFrom_shift pattern.length .outside 0 [] next.toList
  rw [List.map_nil, Nat.zero_add] at further
  rw [map_shift_zero] at first
  calc scan (pattern ++ next)
    _ = scanFrom .outside 0 [] (pattern.toList ++ next.toList) := by
      rw [scan, String.toList_append]
    _ = scanFrom .outside pattern.length ([] ++ ts.reverse) next.toList := by
      rw [first, Nat.zero_add, String.length_toList, List.append_nil, List.nil_append]
    _ = (scanFrom .outside pattern.length [] next.toList).map (ts ++ ·) := by
      rw [scanFrom_append, List.reverse_reverse]
    _ = (shiftScan pattern.length (scan next)).map (ts ++ ·) := congrArg _ further

/-- A text behind one that leaves no braces open is cut as if it stood alone: its tokens follow the
earlier ones, and what is wrong with it is wrong there, as many places on as the first text is
long. -/
theorem scan_behind_neutral (cut : scan pattern = .ok ts) (neutral : ClosesBraces ts)
    (next : String) :
    (∀ us, scan next = .ok us →
        scan (pattern ++ next) = .ok (ts ++ us.map (shift pattern.length))) ∧
      ∀ fault, scan next = .error fault → ∃ fault', scan (pattern ++ next) = .error fault' ∧
        fault'.message = fault.message ∧ fault'.position = fault.position + pattern.length := by
  have whole := scan_append cut (bracesOpen_eq_false_iff.mpr neutral) next
  constructor
  · intro us cut'
    rw [whole, cut']
    rfl
  · intro fault failed
    refine ⟨fault.shift pattern.length, ?_, ?_⟩
    · rw [whole, failed]
      rfl
    · cases fault with
      | danglingEscape | unclosedClass => exact ⟨rfl, rfl⟩

/-- Behind `a{2}[{]` no braces are open: those of the count are closed, and in the class there are
none. So `[b-c]` is cut there as it is alone, and the bracket in `d[` is unclosed there too. -/
theorem scan_behind_neutral_of_count :
    ∃ ts us, scan "a\x7b2\x7d[\x7b]" = .ok ts ∧ ClosesBraces ts ∧ scan "[b-c]" = .ok us ∧
      scan ("a\x7b2\x7d[\x7b]" ++ "[b-c]") = .ok (ts ++ us.map (shift 7)) ∧
      ∃ fault, scan ("a\x7b2\x7d[\x7b]" ++ "d[") = .error fault ∧
        fault.message = "Unclosed character class" ∧ fault.position = 8 := by
  let ts : List Token := [⟨.char, 'a', 0⟩, ⟨.leftBrace, '\x7b', 1⟩, ⟨.number, '2', 2⟩,
    ⟨.rightBrace, '\x7d', 3⟩, ⟨.leftBracket, '[', 4⟩, ⟨.char, '\x7b', 5⟩, ⟨.rightBracket, ']', 6⟩]
  let us : List Token := [⟨.leftBracket, '[', 0⟩, ⟨.char, 'b', 1⟩, ⟨.dash, '-', 2⟩, ⟨.char, 'c', 3⟩,
    ⟨.rightBracket, ']', 4⟩]
  have chars : "a\x7b2\x7d[\x7b]".toList = ['a', '\x7b', '2', '\x7d', '[', '\x7b', ']'] :=
    String.toList_ofList
  have length : "a\x7b2\x7d[\x7b]".length = 7 := by
    rw [← String.length_toList, chars]
    rfl
  have cut : scan "a\x7b2\x7d[\x7b]" = .ok ts := by
    rw [scan, chars]
    rfl
  have cut' : scan "[b-c]" = .ok us := by
    rw [scan, show "[b-c]".toList = ['[', 'b', '-', 'c', ']'] from String.toList_ofList]
    rfl
  have failed : scan "d[" = .error (.unclosedClass 1) := by
    rw [scan, show "d[".toList = ['d', '['] from String.toList_ofList]
    rfl
  have neutral : ClosesBraces ts := by decide
  have further := (scan_behind_neutral cut neutral "[b-c]").1 us cut'
  have further' := (scan_behind_neutral cut neutral "d[").2 _ failed
  rw [length] at further further'
  exact ⟨ts, us, cut, neutral, cut', further, further'⟩

end Seam

end FullMatch.Token
