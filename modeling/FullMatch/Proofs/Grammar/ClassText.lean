import FullMatch.Grammar.ClassText
import FullMatch.Proofs.Expr.Spelling
import FullMatch.Proofs.Grammar.ClassSoundness
import FullMatch.Proofs.Grammar.Completeness
import FullMatch.Proofs.Listing
import FullMatch.Regex
import Mathlib.Data.List.Induction

/-!
# Classes are read from their text

The text of items is cut into tokens that list them (`scans_items`), and a class whose tokens list
items is closed with the characters that they name (`read_of_lists`). So the text of a class is read
as the union of its items, unless that is too large (`parsePattern_classText`). A dash is an
operator only if no bracket `[` stands in front of it, with or without a backslash: behind `\[` it
is a member (`parsePattern_escapedRange`).
-/

namespace FullMatch

open Token (Scans)
open Grammar

variable {limit : UInt32} {groups : List Group} {level : Level} {opened start : Nat}
  {previous x y : Char} {text text' : List Char} {t opening closing : Token} {ts us : List Token}
  {item : Item} {items : List Item} {members : CharSet} {negated : Bool} {pattern : String}

section Scanning

/-- What a dash stands for between two members, of which it stands behind the first. -/
def dashKind (first : Char) : Token.Kind :=
  if first = '[' then .char else .dash

namespace MemberText

theorem exists_head (member : MemberText text x) : ∃ c, text.head? = some c ∧ c ≠ ']' := by
  cases member with
  | plain plain =>
    refine ⟨x, rfl, ?_⟩
    rintro rfl
    cases plain
  | escaped => exact ⟨'\\', rfl, by decide⟩

/-- A member `^` is written with a backslash, so it never ends right behind the bracket of its
class. -/
theorem not_negates (member : MemberText text x) (begun : opened < start) :
    ¬(start + text.length = opened + 2 ∧ x = '^') := by
  rintro ⟨second, rfl⟩
  cases member with
  | plain plain => cases plain
  | escaped =>
    rw [List.length_cons, List.length_singleton] at second
    omega

/-- Between two members a dash is an operator, unless the first one is a bracket `[`. -/
theorem kindInClass_dash (member : MemberText text x) (begun : opened < start)
    {next : Option Char} (follows : ∃ c, next = some c ∧ c ≠ ']') :
    Token.kindInClass opened x (start + text.length) next '-' = dashKind x := by
  obtain ⟨c, rfl, noBracket⟩ := follows
  have noCaret := member.not_negates begun
  have operates : Token.isRangeDash opened x (start + text.length) (some c) = true ↔ x ≠ '[' := by
    simp only [Token.isRangeDash, Option.any_some, Bool.and_eq_true, decide_eq_true_eq,
      Bool.not_eq_true', Bool.and_eq_false_iff, decide_eq_false_iff_not, ← not_and_or]
    exact ⟨fun range => range.1.1, fun other => ⟨⟨other, noCaret⟩, noBracket⟩⟩
  show (if Token.isRangeDash .. = true then Token.Kind.dash else .char) = _
  unfold dashKind
  by_cases bracket : x = '['
  · rw [if_pos bracket, if_neg fun range => operates.mp range bracket]
  · rw [if_neg bracket, if_pos (operates.mpr bracket)]

/-- Two members with a dash between them are three tokens. -/
theorem scans_dash (first : MemberText text x) (last : MemberText text' y)
    (begun : opened < start) (previous : Char) :
    ∃ kind kind' : Token.Kind, kind.isLiteral = true ∧ kind'.isLiteral = true ∧
      Scans (.inClass opened previous) (.inClass opened y) start (text ++ '-' :: text')
        [⟨kind, x, start⟩, ⟨dashKind x, '-', start + text.length⟩,
          ⟨kind', y, start + text.length + 1⟩] := by
  obtain ⟨kind, literal, scans⟩ := first.scans opened previous start
  obtain ⟨kind', literal', scans'⟩ := last.scans opened '-' (start + text.length + 1)
  have inside : dashKind x ≠ .rightBracket := by
    unfold dashKind
    split <;> nofun
  refine ⟨kind, kind', literal, literal', scans.append (.cons (by decide) (fun behind => ?_) ?_)⟩
  · obtain ⟨c, head, noBracket⟩ := last.exists_head
    refine first.kindInClass_dash begun ⟨c, ?_, noBracket⟩
    rw [List.head?_append, head, Option.some_or]
  · rw [Token.after_inClass inside]
    exact scans'

end MemberText

/-- The first of the tokens, if there is one, is no dash. -/
def NoDashAhead (ts : List Token) : Prop :=
  ∀ t ∈ ts.head?, t.kind ≠ .dash

theorem NoDashAhead.cons (noDash : t.kind ≠ .dash) (ts : List Token) : NoDashAhead (t :: ts) := by
  rintro t ⟨⟩
  exact noDash

theorem NoDashAhead.not_completesRange (noDash : NoDashAhead ts) : ¬CompletesRange ts := by
  cases ts with
  | nil => exact id
  | cons dash ts =>
    cases ts with
    | nil => exact id
    | cons last ts => exact fun completes => noDash dash rfl completes.1

theorem ne_dash_of_isLiteral (literal : t.isLiteral = true) : t.kind ≠ .dash := by
  intro dash
  cases (Token.isLiteral_eq_false dash nofun nofun).symm.trans literal

/-- The text of an item is cut into tokens that list it, in front of tokens that begin no range. -/
theorem scans_item (readable : item.Readable) (begun : opened < start) (previous : Char) :
    ∃ last us, Scans (.inClass opened previous) (.inClass opened last) start (item.write []) us ∧
      (∀ ts, NoDashAhead (us ++ ts)) ∧
      ∀ ts items, Lists ts items → NoDashAhead ts → Lists (us ++ ts) (item :: items) := by
  cases item with
  | literal c =>
    obtain ⟨kind, literal, scans⟩ := (memberText_writeMember c).scans opened previous start
    exact ⟨c, _, scans, .cons (ne_dash_of_isLiteral literal),
      fun ts items lists noDash => .literal literal noDash.not_completesRange lists⟩
  | range first last =>
    obtain ⟨noBracket, ordered, small⟩ := readable
    obtain ⟨kind, kind', literal, literal', scans⟩ :=
      (memberText_writeMember first).scans_dash (memberText_writeMember last) begun previous
    have text : (Item.range first last).write [] =
        writeMember first [] ++ '-' :: writeMember last [] := writeEscaped_eq ..
    have operator : dashKind first = .dash := if_neg noBracket
    rw [text]
    exact ⟨last, _, scans, .cons (ne_dash_of_isLiteral literal),
      fun ts items lists noDash => .range literal ⟨operator, literal'⟩ ordered small lists⟩
  | dash => cases readable
  | word =>
    exact ⟨'w', _, .escape _ start 'w', .cons nofun, fun ts items lists noDash => .word rfl lists⟩
  | digit =>
    exact ⟨'d', _, .escape _ start 'd', .cons nofun, fun ts items lists noDash => .digit rfl lists⟩

theorem foldr_write_eq (items : List Item) (rest : List Char) :
    items.foldr Item.write rest = items.foldr Item.write [] ++ rest := by
  induction items with
  | nil => rfl
  | cons item items ih =>
    rw [List.foldr_cons, List.foldr_cons, ih, Item.write_eq, Item.write_eq _ (List.foldr ..),
      List.append_assoc]

/-- The text of items is cut into tokens that list them. -/
theorem scans_items (readable : ∀ item ∈ items, item.Readable) (begun : opened < start)
    (previous : Char) :
    ∃ last ts, Scans (.inClass opened previous) (.inClass opened last) start
      (items.foldr Item.write []) ts ∧ NoDashAhead ts ∧ Lists ts items := by
  induction items generalizing previous start with
  | nil => exact ⟨previous, [], .nil _ _, nofun, .nil⟩
  | cons item items ih =>
    obtain ⟨own, readable⟩ := List.forall_mem_cons.mp readable
    obtain ⟨between, us, scans, noDash, listsOwn⟩ := scans_item own begun previous
    obtain ⟨last, ts, scans', noDash', lists⟩ :=
      ih readable (Nat.lt_add_right (item.write []).length begun) between
    rw [List.foldr_cons, Item.write_eq]
    exact ⟨last, us ++ ts, scans.append scans', noDash ts, listsOwn ts items lists noDash'⟩

end Scanning

section Reading

/-- What stands in front of the items of a class. -/
inductive Sign : Bool → List Token → Prop where
  | plain : Sign false []
  | negated {caret : Token} (negates : caret.kind = .caret) : Sign true [caret]

/-- A class without members whose sign has been read. -/
def Grammar.OpenClass.signed (opened : Nat) (negated : Bool) : OpenClass :=
  ⟨opened, negated, ∅, if negated then .nothing else .opening⟩

theorem Sign.feed (sign : Sign negated us) :
    Reader.feed limit ⟨groups, level, .inClass (.start opened)⟩ us =
      .ok ⟨groups, level, .inClass (.signed opened negated)⟩ := by
  cases sign with
  | plain => rfl
  | negated negates =>
    exact Reader.feed_of_step (Reader.step_inClass (OpenClass.push_caret negates rfl))

/-- Nothing waits for a range in front of the items. -/
theorem leftAlone_signed (opened : Nat) (negated : Bool) (ts : List Token) :
    (OpenClass.signed opened negated).pending.LeftAlone ts := by
  cases negated <;> trivial

/-- A class without members is refused when it is closed. -/
theorem Grammar.OpenClass.close_of_empty {c : OpenClass} (empty : c.settled.size = 0) :
    c.close = .error (.emptyClass c.opened) := by
  rw [← Std.ExtTreeSet.eq_empty_iff_size_eq_zero] at empty
  rw [close, empty]
  rfl

/-- A class with too many members is refused when it is closed. -/
theorem Grammar.OpenClass.close_of_large {c : OpenClass} (large : maxClassSize < c.settled.size) :
    c.close = .error (.classTooLarge c.opened) := by
  have inhabited : c.settled.isEmpty = false := by
    rw [Bool.eq_false_iff, ne_eq, Std.ExtTreeSet.isEmpty_iff,
      Std.ExtTreeSet.eq_empty_iff_size_eq_zero]
    exact Nat.ne_of_gt (Nat.zero_lt_of_lt large)
  rw [close, inhabited]
  exact if_pos large

/-- How a class ends depends on its members alone. -/
theorem close_of_named {c : OpenClass} (goes : OpenClass.GrowsBy (.signed opened negated) c items)
    (named : NamedBy members items) :
    c.close = OpenClass.close ⟨opened, negated, members, .nothing⟩ := by
  have settled : c.settled = members := by
    refine Std.ExtTreeSet.ext_mem fun d => ?_
    have fresh : (OpenClass.signed opened negated).settled = ∅ := by cases negated <;> rfl
    rw [goes.mem_settled, fresh, named]
    simp
  have place : c.opened = opened := goes.opened
  have sign : c.negated = negated := goes.negated
  rw [OpenClass.close, OpenClass.close, settled, place, sign]
  rfl

/-- Reading begins at an opening bracket and a sign with a class without members. -/
theorem read_of_sign (opens : opening.kind = .leftBracket) (sign : Sign negated us)
    (ts : List Token) :
    Grammar.read limit (opening :: (us ++ ts)) =
      (Reader.feed limit ⟨[], .start, .inClass (.signed opening.position negated)⟩ ts).bind
        Reader.finish := by
  have opened : Reader.start.step limit opening =
      .ok ⟨[], .start, .inClass (.start opening.position)⟩ := Reader.base_leftBracket opens
  rw [Grammar.read, Reader.feed_of_step opened, Reader.feed_append_of_feed sign.feed]
  cases Reader.feed limit ⟨[], .start, .inClass (.signed opening.position negated)⟩ ts <;> rfl

/-- One class is read as what it is closed as. -/
theorem read_of_lists (opens : opening.kind = .leftBracket) (sign : Sign negated us)
    (lists : Lists ts items) (closes : closing.kind = .rightBracket)
    (named : NamedBy members items) :
    Grammar.read limit (opening :: (us ++ ts ++ [closing])) =
      (OpenClass.close ⟨opening.position, negated, members, .nothing⟩).map
        fun k => .atom (.charClass k) := by
  obtain ⟨c, fed, grows⟩ : OpenClass.Goes limit [] .start (.signed opening.position negated) ts _ :=
    lists.feed (leftAlone_signed ..)
  rw [List.append_assoc, read_of_sign opens sign, Reader.feed_append_of_feed fed, Reader.feed,
    Reader.step_rightBracket closes, close_of_named grows named]
  cases OpenClass.close ⟨opening.position, negated, members, .nothing⟩ <;> rfl

end Reading

section Naming

/-- Items name a set together. -/
theorem exists_namedBy (items : List Item) : ∃ members, NamedBy members items := by
  induction items using List.reverseRecOn with
  | nil => exact ⟨∅, fun c => by simp⟩
  | append_singleton items item ih =>
    obtain ⟨members, named⟩ := ih
    obtain ⟨grown, isGrown⟩ :
        ∃ grown : CharSet, ∀ d, d ∈ grown ↔ d ∈ members ∨ item.Names d := by
      cases item with
      | literal c => exact ⟨_, fun d => mem_insert_literal⟩
      | range first last => exact ⟨_, fun d => CharSet.mem_insertRange⟩
      | dash => exact ⟨_, fun d => mem_insert_literal⟩
      | word => exact ⟨_, fun d => mem_union_word⟩
      | digit => exact ⟨_, fun d => mem_union_digit⟩
    exact ⟨grown, named.snoc isGrown⟩

/-- An item that can be read names a character. -/
theorem Grammar.Item.Readable.exists_names (readable : item.Readable) : ∃ c, item.Names c := by
  cases item with
  | literal c => exact ⟨c, rfl⟩
  | range first last => exact ⟨first, Char.le_refl first, readable.2.1⟩
  | dash => cases readable
  | word => exact ⟨'_', .inr (.inr (.inr rfl))⟩
  | digit => exact ⟨'0', Char.le_refl '0', by decide⟩

end Naming

section Patterns

/-- A pattern is cut into tokens that are refused, with a message that points at a place. -/
def Grammar.FailsWith (limit : UInt32) (pattern message : String) (place : Nat) : Prop :=
  ∃ fault, parsePattern limit pattern = .error (.grammar fault) ∧ fault.message = message ∧
    fault.position pattern.length = place

/-- A pattern that is one class is read as what the class is closed as. -/
theorem parsePattern_of_lists (limit : UInt32)
    (cut : Token.scan pattern = .ok (opening :: (us ++ ts ++ [closing])))
    (opens : opening.kind = .leftBracket) (sign : Sign negated us) (lists : Lists ts items)
    (closes : closing.kind = .rightBracket) (named : NamedBy members items) :
    parsePattern limit pattern =
      ((OpenClass.close ⟨opening.position, negated, members, .nothing⟩).map
        fun k => Expr.atom (.charClass k)).mapError .grammar := by
  rw [parsePattern, cut]
  exact congrArg (Except.mapError Fault.grammar) (read_of_lists opens sign lists closes named)

theorem scans_sign (negated : Bool) (opened : Nat) :
    ∃ previous us, Scans (.inClass opened '[') (.inClass opened previous) (opened + 1)
      (if negated then ['^'] else []) us ∧ Sign negated us := by
  cases negated with
  | false => exact ⟨'[', [], .nil _ _, .plain⟩
  | true =>
    have negates : Scans (.inClass opened '[') (.inClass opened '^') (opened + 1) ['^']
        [⟨.caret, '^', opened + 1⟩] := .single (by decide) (fun _ => if_pos rfl) rfl
    exact ⟨'^', _, negates, .negated rfl⟩

/-- The text of a class is cut into brackets, a sign and tokens that list its items. -/
theorem scan_classText (readable : ∀ item ∈ items, item.Readable) (negated : Bool) :
    ∃ us ts closing, Sign negated us ∧ Lists ts items ∧ closing.kind = .rightBracket ∧
      Token.scan (String.ofList (classText negated items)) =
        .ok (⟨.leftBracket, '[', 0⟩ :: (us ++ ts ++ [closing])) := by
  obtain ⟨previous, us, scans, sign⟩ := scans_sign negated 0
  have begun : 0 < 0 + 1 + (if negated then ['^'] else []).length := by omega
  obtain ⟨last, ts, scans', -, lists⟩ := scans_items readable begun previous
  rw [classText, foldr_write_eq, ← List.append_assoc]
  exact ⟨us, ts, _, sign, lists, rfl, (scans_brackets (scans.append scans')).scan⟩

/-- The text of a class is read as the set of all characters that its items name, negated if there
is a caret. A set that is too large is refused at the bracket. -/
theorem parsePattern_classText (limit : UInt32) (negated : Bool) (nonempty : items ≠ [])
    (readable : ∀ item ∈ items, item.Readable) :
    ∃ members : CharSet, (∀ c, c ∈ members ↔ ∃ item ∈ items, item.Names c) ∧
      (members.size ≤ maxClassSize →
        parsePattern limit (String.ofList (classText negated items)) =
          .ok (.atom (.charClass ⟨members, negated⟩))) ∧
      (maxClassSize < members.size →
        FailsWith limit (String.ofList (classText negated items))
          "Character class too large" 0) := by
  obtain ⟨members, named⟩ := exists_namedBy items
  obtain ⟨us, ts, closing, sign, lists, closes, cut⟩ := scan_classText readable negated
  let whole : OpenClass := ⟨0, negated, members, .nothing⟩
  have parsed : parsePattern limit (String.ofList (classText negated items)) =
      (whole.close.map fun k => Expr.atom (.charClass k)).mapError .grammar :=
    parsePattern_of_lists limit cut rfl sign lists closes named
  refine ⟨members, named, fun small => ?_, fun large => ?_⟩
  · obtain ⟨item, listed⟩ := List.exists_mem_of_ne_nil items nonempty
    obtain ⟨c, names⟩ := (readable item listed).exists_names
    have inhabited : 0 < members.size := CharSet.size_pos ((named c).mpr ⟨item, listed, names⟩)
    rw [parsed, OpenClass.close_eq_ok.mpr ⟨(⟨inhabited, small⟩ : Sized whole.settled), rfl⟩]
    rfl
  · rw [OpenClass.close_of_large (c := whole) large] at parsed
    exact ⟨_, parsed, rfl, rfl⟩

/-- `[^\]a-c\w]` is the text of a negated class with a bracket, a range and a shorthand. -/
theorem parsePattern_classText_of_shorthand :
    let items : List Item := [.literal ']', .range 'a' 'c', .word]
    items ≠ [] ∧ (∀ item ∈ items, item.Readable) ∧
      ∃ members : CharSet, (∀ c, c ∈ members ↔ ∃ item ∈ items, item.Names c) ∧
        parsePattern 0 "[^\\]a-c\\w]" = .ok (.atom (.charClass ⟨members, true⟩)) := by
  intro items
  have nonempty : items ≠ [] := List.cons_ne_nil _ _
  have readable : ∀ item ∈ items, item.Readable := by
    intro item listed
    simp only [items, List.mem_cons, List.not_mem_nil, or_false] at listed
    rcases listed with rfl | rfl | rfl
    · trivial
    · exact ⟨by decide, by decide, by decide⟩
    · trivial
  obtain ⟨members, named, parsed, -⟩ := parsePattern_classText 0 true nonempty readable
  have few : members.size ≤ (']' :: CharSet.wordChars.toList).length := by
    refine CharSet.size_le_length fun c member => ?_
    obtain ⟨item, listed, names⟩ := (named c).mp member
    simp only [items, List.mem_cons, List.not_mem_nil, or_false] at listed
    rw [List.mem_cons, Std.ExtTreeSet.mem_toList, CharSet.mem_wordChars]
    rcases listed with rfl | rfl | rfl
    · exact .inl names
    · exact .inr (.inr (.inl ⟨names.1, Char.le_trans names.2 (by decide)⟩))
    · exact .inr names
  have text : String.ofList (classText true items) = "[^\\]a-c\\w]" := by decide
  rw [text] at parsed
  exact ⟨nonempty, readable, members, named, parsed (Nat.le_trans few (by decide +kernel))⟩

/-- A range names no more characters than it spans numbers. -/
theorem size_le_rangeSpan (between : ∀ c ∈ members, x ≤ c ∧ c ≤ y) :
    members.size ≤ rangeSpan x y := by
  let numbers : List Nat := List.range' x.toNat (rangeSpan x y)
  have few : members.size ≤ (numbers.map Char.ofNat).length := by
    refine CharSet.size_le_length fun c member => List.mem_map.mpr ⟨c.toNat, ?_, c.ofNat_toNat⟩
    obtain ⟨lower, upper⟩ := between c member
    rw [Char.le_iff_toNat_le] at lower upper
    rw [List.mem_range'_1, rangeSpan]
    omega
  rwa [List.length_map, List.length_range'] at few

/-- What two members with a dash between them list. -/
def dashItems (first last : Char) : List Item :=
  if first = '[' then [.literal first, .literal '-', .literal last] else [.range first last]

theorem lists_dashItems {kind kind' : Token.Kind} {p q r : Nat} (literal : kind.isLiteral = true)
    (literal' : kind'.isLiteral = true) (ordered : x ≤ y) (small : rangeSpan x y ≤ maxClassSize) :
    Lists [⟨kind, x, p⟩, ⟨dashKind x, '-', q⟩, ⟨kind', y, r⟩] (dashItems x y) := by
  unfold dashKind dashItems
  split
  · have literals : ∀ t ∈ [⟨kind, x, p⟩, ⟨.char, '-', q⟩, ⟨kind', y, r⟩],
        Token.isLiteral t = true :=
      List.forall_mem_cons.mpr ⟨literal, List.forall_mem_cons.mpr ⟨rfl,
        List.forall_mem_singleton.mpr literal'⟩⟩
    exact lists_literals literals
  · exact .range literal ⟨rfl, literal'⟩ ordered small .nil

/-- Whether a character is listed by two members with a dash between them. -/
theorem mem_iff_of_dashItems (named : NamedBy members (dashItems x y)) (c : Char) :
    c ∈ members ↔ if x = '[' then c = '[' ∨ c = '-' ∨ c = y else x ≤ c ∧ c ≤ y := by
  rw [named, dashItems]
  split
  · next bracket => simp [Item.Names, bracket]
  · simp [Item.Names]

theorem sized_of_dashItems (named : NamedBy members (dashItems x y)) (ordered : x ≤ y)
    (small : rangeSpan x y ≤ maxClassSize) : Sized members := by
  have isMember := mem_iff_of_dashItems named
  by_cases bracket : x = '['
  · simp only [if_pos bracket] at isMember
    have inside : ∀ c ∈ members, c ∈ ['[', '-', y] :=
      fun c member => by simpa using (isMember c).mp member
    have few : members.size ≤ 3 := CharSet.size_le_length inside
    exact ⟨CharSet.size_pos ((isMember '[').mpr (.inl rfl)), Nat.le_trans few (by decide)⟩
  · simp only [if_neg bracket] at isMember
    have few := size_le_rangeSpan fun c member => (isMember c).mp member
    exact ⟨CharSet.size_pos ((isMember x).mpr ⟨Char.le_refl x, ordered⟩), Nat.le_trans few small⟩

/-- Two members behind backslashes, with a dash between them, are read as the range between them,
unless the first one is a bracket `[`: then the dash is a member like the two of them. -/
theorem parsePattern_escapedRange (limit : UInt32) (first : x ≠ 'w' ∧ x ≠ 'd')
    (last : y ≠ 'w' ∧ y ≠ 'd') (ordered : x ≤ y) (small : rangeSpan x y ≤ maxClassSize) :
    ∃ (kind kind' : Token.Kind) (members : CharSet),
      kind.isLiteral = true ∧ kind'.isLiteral = true ∧
      Token.scan (String.ofList ['[', '\\', x, '-', '\\', y, ']']) =
        .ok [⟨.leftBracket, '[', 0⟩, ⟨kind, x, 1⟩, ⟨if x = '[' then .char else .dash, '-', 3⟩,
          ⟨kind', y, 4⟩, ⟨.rightBracket, ']', 6⟩] ∧
      parsePattern limit (String.ofList ['[', '\\', x, '-', '\\', y, ']']) =
        .ok (.atom (.charClass ⟨members, false⟩)) ∧
      ∀ c, c ∈ members ↔ if x = '[' then c = '[' ∨ c = '-' ∨ c = y else x ≤ c ∧ c ≤ y := by
  have firstText : MemberText ['\\', x] x := .escaped first.1 first.2
  have lastText : MemberText ['\\', y] y := .escaped last.1 last.2
  have begun : 0 < 1 := Nat.one_pos
  obtain ⟨kind, kind', literal, literal', scans⟩ := firstText.scans_dash lastText begun '['
  have cut := (scans_brackets scans).scan
  have lists := lists_dashItems (p := 1) (q := 3) (r := 4) literal literal' ordered small
  obtain ⟨members, named⟩ := exists_namedBy (dashItems x y)
  have parsed := parsePattern_of_lists limit cut rfl .plain lists rfl named
  have sized : Sized (OpenClass.settled ⟨0, false, members, .nothing⟩) :=
    sized_of_dashItems named ordered small
  rw [OpenClass.close_eq_ok.mpr ⟨sized, rfl⟩] at parsed
  exact ⟨kind, kind', members, literal, literal', cut, parsed, mem_iff_of_dashItems named⟩

/-- `[\^-\~]` is the range from the caret, which would negate the class without its backslash. -/
theorem parsePattern_escapedRange_of_caret :
    ('^' ≠ 'w' ∧ '^' ≠ 'd') ∧ ('~' ≠ 'w' ∧ '~' ≠ 'd') ∧ '^' ≤ '~' ∧
      rangeSpan '^' '~' ≤ maxClassSize ∧
      ∃ members : CharSet, parsePattern 0 "[\\^-\\~]" = .ok (.atom (.charClass ⟨members, false⟩)) ∧
        ∀ c, c ∈ members ↔ '^' ≤ c ∧ c ≤ '~' := by
  have first : '^' ≠ 'w' ∧ '^' ≠ 'd' := by decide
  have last : '~' ≠ 'w' ∧ '~' ≠ 'd' := by decide
  have ordered : '^' ≤ '~' := by decide
  have small : rangeSpan '^' '~' ≤ maxClassSize := by decide
  obtain ⟨kind, kind', members, -, -, -, parsed, isMember⟩ :=
    parsePattern_escapedRange 0 first last ordered small
  exact ⟨first, last, ordered, small, members, parsed, isMember⟩

/-- `[\[-\a]` has no range from the bracket: the dash behind it is a member, and the underscore,
which lies between the two, is none. -/
theorem parsePattern_escapedRange_of_bracket :
    ('[' ≠ 'w' ∧ '[' ≠ 'd') ∧ ('a' ≠ 'w' ∧ 'a' ≠ 'd') ∧ '[' ≤ 'a' ∧
      rangeSpan '[' 'a' ≤ maxClassSize ∧
      (Token.scan "[\\[-\\a]").map (List.map Token.kind) =
        .ok [.leftBracket, .escaped, .char, .escaped, .rightBracket] ∧
      ∃ members : CharSet, parsePattern 0 "[\\[-\\a]" = .ok (.atom (.charClass ⟨members, false⟩)) ∧
        '[' ≤ '_' ∧ '_' ≤ 'a' ∧ '_' ∉ members := by
  have parsed : parsePattern 0 "[\\[-\\a]" = .ok _ := rfl
  exact ⟨by decide, by decide, by decide, by decide, rfl, _, parsed, by decide, by decide,
    by decide⟩

end Patterns

end FullMatch
