import FullMatch.Expr.Printer
import FullMatch.Proofs.Grammar.Nesting
import FullMatch.Proofs.Token.Scan

/-!
# Spelling

Text spells a phrase when it is cut, wherever it stands outside brackets and braces, into tokens
that derive the phrase (`Spells`). What the printer writes for an atom spells the atom
(`spells_atom`), and text that spells a base goes on to spell its group and its repetitions
(`Spells.group`, `Spells.repeated`, `Spells.counted`). Texts that spell phrases are put together
with or without a bar between them (`Spells.barred`, `Spells.append`).
-/

namespace FullMatch

open Token (Nests Scans)
open Grammar (Derives IsBounds IsClass IsNumber Item Lists NamedBy Sized maxNumber
  not_isParen_of_isLiteral)

variable {limit : UInt32} {start m n : Nat} {text text' : List Char} {ts us : List Token} {e : Expr}
  {p q r : List Token → Prop}

/-- Wherever it stands outside brackets and braces, text is cut into tokens with a property, nested
to a depth. -/
def Spells (text : List Char) (depth : Nat) (p : List Token → Prop) : Prop :=
  ∀ start, ∃ ts, Scans .outside .outside start text ts ∧ Nests depth ts ∧ p ts

namespace Spells

theorem mono (spells : Spells text n p) (imp : ∀ ts, p ts → q ts) : Spells text n q := by
  intro start
  obtain ⟨ts, scans, nests, holds⟩ := spells start
  exact ⟨ts, scans, nests, imp ts holds⟩

theorem append (first : Spells text m p) (second : Spells text' n q)
    (both : ∀ ts us, p ts → q us → r (ts ++ us)) : Spells (text ++ text') (max m n) r := by
  intro start
  obtain ⟨ts, scans, nests, holds⟩ := first start
  obtain ⟨us, scans', nests', holds'⟩ := second (start + text.length)
  exact ⟨ts ++ us, scans.append scans', nests.append nests', both ts us holds holds'⟩

/-- Parentheses make a base of an expression. -/
theorem group (inner : Spells text n fun ts => Derives limit .expression ts e) :
    Spells ('(' :: (text ++ [')'])) (n + 1) fun ts => Derives limit .base ts e := by
  intro start
  obtain ⟨ts, scans, nests, derives⟩ := inner (start + 1)
  have opens : Scans .outside .outside start ['('] [⟨.leftParen, '(', start⟩] :=
    .outside (by decide) rfl nofun nofun
  have closes : Scans .outside .outside (start + 1 + text.length) [')']
      [⟨.rightParen, ')', start + 1 + text.length⟩] := .outside (by decide) rfl nofun nofun
  exact ⟨_, opens.append (scans.append closes), .group rfl nests rfl, .group rfl derives rfl⟩

end Spells

section Classes

theorem kindInClass_eq_char {c : Char} (plain : isClassOperatorChar c = false)
    (opened : Nat) (previous : Char) (position : Nat) (next : Option Char) :
    Token.kindInClass opened previous position next c = .char := by
  unfold Token.kindInClass
  split
  · cases plain
  · cases plain
  · cases plain
  · rfl

/-- How a character may be written as a member of a class. -/
inductive MemberText : List Char → Char → Prop where
  | plain {c : Char} (plain : isClassOperatorChar c = false) : MemberText [c] c
  | escaped {c : Char} (noWord : c ≠ 'w') (noDigit : c ≠ 'd') : MemberText ['\\', c] c

/-- The printer puts a backslash where one is needed. -/
theorem memberText_writeMember (c : Char) : MemberText (writeMember c []) c := by
  unfold writeMember writeEscaped
  split
  · next needed =>
    refine .escaped ?_ ?_
    · rintro rfl
      cases needed
    · rintro rfl
      cases needed
  · next plain => exact .plain (Bool.not_eq_true _ ▸ plain)

/-- A member of a class is one literal. -/
theorem MemberText.scans {c : Char} (member : MemberText text c) (opened : Nat) (previous : Char)
    (start : Nat) :
    ∃ kind : Token.Kind, kind.isLiteral = true ∧
      Scans (.inClass opened previous) (.inClass opened c) start text [⟨kind, c, start⟩] := by
  cases member with
  | plain plain =>
    have noBackslash : c ≠ '\\' := by
      rintro rfl
      cases plain
    exact ⟨.char, rfl, .single noBackslash (kindInClass_eq_char plain opened previous start) rfl⟩
  | escaped noWord noDigit =>
    refine ⟨Token.kindEscaped c, ?_, .escape _ start c⟩
    unfold Token.kindEscaped
    split <;> first | rfl | contradiction

/-- The members of a class are literals. -/
theorem scans_members (opened : Nat) (cs : List Char) (previous : Char) (start : Nat) :
    ∃ last ts, Scans (.inClass opened previous) (.inClass opened last) start
      (cs.foldr writeMember []) ts ∧ ts.map Token.value = cs ∧ ∀ t ∈ ts, t.isLiteral = true := by
  induction cs generalizing previous start with
  | nil => exact ⟨previous, [], .nil _ _, rfl, nofun⟩
  | cons c cs ih =>
    obtain ⟨kind, literal, scans⟩ := (memberText_writeMember c).scans opened previous start
    obtain ⟨last, ts, scans', values, literals⟩ := ih c (start + (writeMember c []).length)
    refine ⟨last, ⟨kind, c, start⟩ :: ts, ?_, by rw [List.map_cons, values],
      List.forall_mem_cons.mpr ⟨literal, literals⟩⟩
    rw [List.foldr_cons, writeMember, writeEscaped_eq]
    exact scans.append scans'

/-- Literals list themselves. -/
theorem lists_literals (literals : ∀ t ∈ ts, t.isLiteral = true) :
    Lists ts (ts.map fun t => .literal t.value) := by
  induction ts with
  | nil => exact .nil
  | cons t ts ih =>
    obtain ⟨literal, literals⟩ := List.forall_mem_cons.mp literals
    refine .literal literal ?_ (ih literals)
    cases ts with
    | nil => exact id
    | cons dash us =>
      cases us with
      | nil => exact id
      | cons last us =>
        rintro ⟨kind, -⟩
        have wrong := literals dash List.mem_cons_self
        rw [Token.isLiteral_eq_false kind nofun nofun] at wrong
        cases wrong

/-- A set is named by its members. -/
theorem namedBy_literals (members : CharSet) (values : ts.map Token.value = members.toList) :
    NamedBy members (ts.map fun t => .literal t.value) := by
  intro d
  rw [← Std.ExtTreeSet.mem_toList, ← values, List.mem_map]
  constructor
  · rintro ⟨t, member, rfl⟩
    exact ⟨_, List.mem_map.mpr ⟨t, member, rfl⟩, rfl⟩
  · rintro ⟨item, listed, names⟩
    obtain ⟨t, member, rfl⟩ := List.mem_map.mp listed
    exact ⟨t, member, names.symm⟩

/-- What stands between the brackets of a class is the class. -/
theorem scans_class (k : CharClass) (sized : Sized k.members) (start : Nat) :
    ∃ body, k.write [] = '[' :: (body ++ [']']) ∧ ∃ last ts,
      Scans (.inClass start '[') (.inClass start last) (start + 1) body ts ∧ IsClass ts k := by
  obtain ⟨members, negated⟩ := k
  have written :
      members.foldr writeMember [']'] = members.toList.foldr writeMember [] ++ [']'] := by
    rw [Std.ExtTreeSet.foldr_eq_foldr_toList, foldr_writeMember_eq]
  cases negated with
  | false =>
    obtain ⟨last, ts, scans, values, literals⟩ :=
      scans_members start members.toList '[' (start + 1)
    refine ⟨_, congrArg _ written, last, ts, scans, ?_⟩
    exact .plain (lists_literals literals) (namedBy_literals members values) sized
  | true =>
    have negates : Scans (.inClass start '[') (.inClass start '^') (start + 1) ['^']
        [⟨.caret, '^', start + 1⟩] := .single (by decide) (fun _ => if_pos rfl) rfl
    obtain ⟨last, ts, scans, values, literals⟩ :=
      scans_members start members.toList '^' (start + 1 + 1)
    refine ⟨'^' :: _, congrArg (fun text => '[' :: '^' :: text) written, last, _,
      negates.append scans, ?_⟩
    exact .negated rfl (lists_literals literals) (namedBy_literals members values) sized

/-- A class is cut into its brackets and what stands between them. -/
theorem scans_brackets {last : Char}
    (inner : Scans (.inClass start '[') (.inClass start last) (start + 1) text ts) :
    Scans .outside .outside start ('[' :: (text ++ [']'])) (⟨.leftBracket, '[', start⟩ ::
      (ts ++ [⟨.rightBracket, ']', start + 1 + text.length⟩])) := by
  have opens : Scans .outside (.inClass start '[') start ['['] [⟨.leftBracket, '[', start⟩] :=
    .single (by decide) (fun _ => rfl) rfl
  have closes : Scans (.inClass start last) .outside (start + 1 + text.length) [']']
      [⟨.rightBracket, ']', start + 1 + text.length⟩] := .single (by decide) (fun _ => rfl) rfl
  exact opens.append (inner.append closes)

/-- A class that keeps to the limits is read from its text. -/
theorem spells_class (k : CharClass) (sized : Sized k.members) :
    Spells (k.write []) 0 fun ts => Derives limit .base ts (.atom (.charClass k)) := by
  intro start
  obtain ⟨body, written, last, ts, scans, isClass⟩ := scans_class k sized start
  rw [written]
  exact ⟨_, scans_brackets scans, .of_flat (.cons rfl (isClass.flat.append (.singleton rfl))),
    .charClass rfl isClass rfl⟩

end Classes

section Atoms

/-- A character outside brackets and braces is a base. -/
theorem spells_single {c : Char} {kind : Token.Kind} (plain : c ≠ '\\')
    (is : Token.kindOutside c = kind) (noBracket : kind ≠ .leftBracket)
    (noBrace : kind ≠ .leftBrace) (noParen : kind.isParen = false)
    (derives : ∀ start, p [⟨kind, c, start⟩]) : Spells [c] 0 p := by
  intro start
  exact ⟨_, .outside plain is noBracket noBrace,
    .of_flat (List.forall_mem_singleton.mpr noParen), derives start⟩

/-- A backslash and a character are a base. -/
theorem spells_escaped {c : Char} (noParen : (Token.kindEscaped c).isParen = false)
    (derives : ∀ start, p [⟨Token.kindEscaped c, c, start⟩]) : Spells ['\\', c] 0 p := by
  intro start
  exact ⟨_, .escape .outside start c, .of_flat (List.forall_mem_singleton.mpr noParen),
    derives start⟩

theorem kindOutside_eq_char {c : Char} (plain : isOperatorChar c = false) :
    Token.kindOutside c = .char := by
  unfold Token.kindOutside
  split <;> first | rfl | cases plain

theorem spells_literal (c : Char) :
    Spells (writeLiteral c []) 0 fun ts => Derives limit .base ts (.literal c) := by
  unfold writeLiteral writeEscaped
  split
  · next needed =>
    have literal : (Token.kindEscaped c).isLiteral = true := by
      simp only [isOperatorChar, List.contains_eq_mem, List.mem_cons, List.not_mem_nil,
        or_false, decide_eq_true_eq] at needed
      rcases needed with rfl | rfl | rfl | rfl | rfl | rfl | rfl | rfl | rfl | rfl | rfl | rfl |
        rfl | rfl <;> rfl
    have noParen : (Token.kindEscaped c).isParen = false :=
      not_isParen_of_isLiteral (t := ⟨_, c, 0⟩) literal
    exact spells_escaped noParen fun start => .literal literal
  · next plain =>
    rw [Bool.not_eq_true] at plain
    have noBackslash : c ≠ '\\' := by
      rintro rfl
      cases plain
    exact spells_single noBackslash (kindOutside_eq_char plain) nofun nofun rfl
      fun start => .literal rfl

/-- Text on both sides of a bar. -/
theorem Spells.barred (left : Spells text m p) (right : Spells text' n q)
    (both : ∀ (ts : List Token) (bar : Token) (us : List Token), p ts → bar.kind = .pipe → q us →
      r (ts ++ bar :: us)) :
    Spells (text ++ '|' :: text') (max m n) r := by
  have bar : Spells ['|'] 0 fun ts => ∃ t : Token, ts = [t] ∧ t.kind = .pipe :=
    spells_single (by decide) rfl nofun nofun rfl fun start => ⟨_, rfl, rfl⟩
  have later : Spells ('|' :: text') (max 0 n) fun ts => ∃ (t : Token) (us : List Token),
      ts = t :: us ∧ t.kind = .pipe ∧ q us := by
    refine bar.append right ?_
    rintro ts us ⟨t, rfl, separates⟩ holds
    exact ⟨t, us, rfl, separates, holds⟩
  rw [Nat.zero_max] at later
  refine left.append later ?_
  rintro ts us holds ⟨t, us, rfl, separates, holds'⟩
  exact both ts t us holds separates holds'

/-- An atom that keeps to the limits is read from its text. -/
theorem spells_atom (a : Atom) (sized : ∀ k, a = .charClass k → Sized k.members) :
    Spells (a.write []) 0 fun ts => Derives limit .base ts (.atom a) := by
  cases a with
  | literal c => exact spells_literal c
  | anyChar => exact spells_single (by decide) rfl nofun nofun rfl fun start => .anyChar rfl
  | wordChar => exact spells_escaped rfl fun start => .wordChar rfl
  | digit => exact spells_escaped rfl fun start => .digit rfl
  | charClass k => exact spells_class k (sized k rfl)

end Atoms

section Counts

/-- Digits between braces are cut one by one. -/
theorem scans_digits (digits : List Char) (decimal : ∀ c ∈ digits, c.isDigit = true) (start : Nat) :
    ∃ ts, Scans .inBounds .inBounds start digits ts ∧ ts.map Token.value = digits ∧
      (∀ t ∈ ts, t.kind = .number) ∧ ∀ t ∈ ts.head?, t.position = start := by
  induction digits generalizing start with
  | nil => exact ⟨[], .nil _ _, rfl, nofun, nofun⟩
  | cons c digits ih =>
    obtain ⟨digit, decimal⟩ := List.forall_mem_cons.mp decimal
    obtain ⟨ts, scans, values, numbers, -⟩ := ih decimal (start + 1)
    have noBackslash : c ≠ '\\' := by
      rintro rfl
      cases digit
    have one : Scans .inBounds .inBounds start [c] [⟨.number, c, start⟩] :=
      .single noBackslash (fun _ => if_pos digit) rfl
    refine ⟨_, one.append scans, congrArg (c :: ·) values,
      List.forall_mem_cons.mpr ⟨rfl, numbers⟩, ?_⟩
    rintro t ⟨⟩
    rfl

/-- A number that is written in decimal is read back. -/
theorem scans_number (n : Nat) (counted : n ≤ maxNumber) (start : Nat) :
    ∃ ts, Scans .inBounds .inBounds start (Nat.toDigits 10 n) ts ∧ IsNumber ts n := by
  obtain ⟨ts, scans, values, numbers, -⟩ := scans_digits (Nat.toDigits 10 n)
    (fun c member => Nat.isDigit_of_mem_toDigits (by decide) (by decide) member) start
  refine ⟨ts, scans, ?_, numbers, ?_, counted⟩
  · rintro rfl
    exact Nat.toDigits_ne_nil values.symm
  · rw [values, Nat.ofDigitChars_ten_toDigits]

/-- Wherever it stands between braces, text is cut into the bounds of a count. -/
def SpellsBounds (text : List Char) (least : Nat) (most : Option Nat) : Prop :=
  ∀ start, ∃ ts, Scans .inBounds .inBounds start text ts ∧ IsBounds ts least most

theorem scans_comma (start : Nat) :
    Scans .inBounds .inBounds start [','] [⟨.comma, ',', start⟩] :=
  .single (by decide) (fun _ => rfl) rfl

/-- Two numbers with a comma between them are bounds, even if they are the same. -/
theorem spellsBounds_between (counted : m ≤ maxNumber) (counted' : n ≤ maxNumber) :
    SpellsBounds (Nat.toDigits 10 m ++ ',' :: Nat.toDigits 10 n) m (some n) := by
  intro start
  obtain ⟨ts, scans, number⟩ := scans_number m counted start
  obtain ⟨us, scans', number'⟩ :=
    scans_number n counted' (start + (Nat.toDigits 10 m).length + 1)
  exact ⟨_, scans.append ((scans_comma _).append scans'), .between number rfl number'⟩

/-- What stands between the braces of a count is its bounds. -/
theorem spellsBounds_write (b : Bounds) (counted : b.largest ≤ maxNumber) :
    ∃ body, b.write [] = '\x7b' :: (body ++ ['\x7d']) ∧ SpellsBounds body b.least b.most := by
  obtain ⟨least, most, ordered⟩ := b
  cases most with
  | none =>
    refine ⟨Nat.toDigits 10 least ++ [','], by simp [Bounds.write, writeNumber], fun start => ?_⟩
    obtain ⟨ts, scans, number⟩ := scans_number least counted start
    exact ⟨_, scans.append (scans_comma _), .atLeast number rfl⟩
  | some most =>
    have smaller : least ≤ maxNumber := Nat.le_trans (ordered most rfl) counted
    by_cases same : most = least
    · subst same
      refine ⟨Nat.toDigits 10 most, by simp [Bounds.write, writeNumber], fun start => ?_⟩
      obtain ⟨ts, scans, number⟩ := scans_number most counted start
      exact ⟨ts, scans, .exactly number⟩
    · exact ⟨Nat.toDigits 10 least ++ ',' :: Nat.toDigits 10 most,
        by simp [Bounds.write, writeNumber, same], spellsBounds_between smaller counted⟩

/-- Braces are cut off what stands between them. -/
theorem scans_braces (inner : Scans .inBounds .inBounds (start + 1) text ts) :
    Scans .outside .outside start ('\x7b' :: (text ++ ['\x7d']))
      (⟨.leftBrace, '\x7b', start⟩ ::
        (ts ++ [⟨.rightBrace, '\x7d', start + 1 + text.length⟩])) := by
  have opens : Scans .outside .inBounds start ['\x7b'] [⟨.leftBrace, '\x7b', start⟩] :=
    .single (by decide) (fun _ => rfl) rfl
  have closes : Scans .inBounds .outside (start + 1 + text.length) ['\x7d']
      [⟨.rightBrace, '\x7d', start + 1 + text.length⟩] := .single (by decide) (fun _ => rfl) rfl
  exact opens.append (inner.append closes)

/-- A base with bounds in braces behind it is a factor. -/
theorem Spells.braces {b : Bounds} (base : Spells text n fun ts => Derives limit .base ts e)
    (bounds : SpellsBounds text' b.least b.most) (allowed : b.largest ≤ limit.toNat) :
    Spells (text ++ '\x7b' :: (text' ++ ['\x7d'])) n
      fun ts => Derives limit .factor ts (.counted e b) := by
  intro start
  obtain ⟨ts, scans, nests, derives⟩ := base start
  obtain ⟨us, scans', bounds⟩ := bounds (start + text.length + 1)
  have flat : Nests 0 _ := .of_flat (.cons (t := ⟨.leftBrace, '\x7b', start + text.length⟩) rfl
    (bounds.flat.append (.singleton
      (t := ⟨.rightBrace, '\x7d', start + text.length + 1 + text'.length⟩) rfl)))
  rw [← Nat.max_eq_left (Nat.zero_le n)]
  exact ⟨_, scans.append (scans_braces scans'), nests.append flat,
    .counted derives rfl bounds rfl allowed⟩

/-- What a limit allows can be written. -/
theorem le_maxNumber_of_le (allowed : n ≤ limit.toNat) : n ≤ maxNumber :=
  Nat.le_trans allowed (Nat.le_sub_one_of_lt limit.toNat_lt)

/-- A base with a count behind it is a factor. -/
theorem Spells.counted {b : Bounds} (base : Spells text n fun ts => Derives limit .base ts e)
    (allowed : b.largest ≤ limit.toNat) :
    Spells (text ++ b.write []) n fun ts => Derives limit .factor ts (.counted e b) := by
  obtain ⟨body, written, bounds⟩ := spellsBounds_write b (le_maxNumber_of_le allowed)
  rw [written]
  exact base.braces bounds allowed

/-- A base with a postfix repetition behind it is a factor. -/
theorem Spells.repeated (op : RepeatOp) (base : Spells text n fun ts => Derives limit .base ts e) :
    Spells (text ++ [op.toChar]) n fun ts => Derives limit .factor ts (.repeated op e) := by
  have operator : Spells [op.toChar] 0 fun ts => ∃ t : Token, ts = [t] ∧ t.kind = op.kind := by
    cases op with
    | zeroOrMore | oneOrMore | optional =>
      exact spells_single (by decide) rfl nofun nofun rfl fun start => ⟨_, rfl, rfl⟩
  rw [← Nat.max_eq_left (Nat.zero_le n)]
  refine base.append operator ?_
  rintro ts us derives ⟨t, rfl, repeats⟩
  exact .repeated derives repeats

end Counts

end FullMatch
