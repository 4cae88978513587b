import FullMatch.Proofs.Grammar.ClassText
import FullMatch.Proofs.Grammar.Completeness
import FullMatch.Proofs.Grammar.Seam

/-!
# Numbers in repetition counts

A run of digits is read as the number that it writes in decimal, however many digits there are and
whatever zeros lead it, unless the number is beyond what a count may hold
(`Grammar.feed_fresh_number`). So a base with a run of digits in braces behind it is read as that
many copies of the base exactly when the number is within the limit (`numbers_read_exactly`).
-/

namespace FullMatch

/-- Exactly `n` times. -/
def Bounds.exactly (n : Nat) : Bounds :=
  ⟨n, some n, fun _ same => Nat.le_of_eq (Option.some.inj same)⟩

namespace Grammar

open Token (bracesOpen nesting)

variable {limit : UInt32} {groups : List Group} {level : Level} {opened n : Nat} {e : Expr}
  {t opening closing : Token} {ts rest : List Token}

/-- A run of digits where no number has been begun is read as a whole, or refused at its first
digit. -/
theorem feed_fresh_number (counting : Counting) (fresh : counting.current = none)
    (digits : ∀ u ∈ t :: ts, u.kind = .number ∧ u.value.isDigit = true)
    (value : Nat.ofDigitChars 10 ((t :: ts).map Token.value) 0 = n) :
    Reader.feed limit ⟨groups, level, .bounds opened e counting⟩ (t :: ts ++ rest) =
      if n ≤ maxNumber then
        Reader.feed limit ⟨groups, level, .bounds opened e (counting.withCurrent ⟨t.position, n⟩)⟩
          rest
      else .error (.numberTooLarge t.position) := by
  have begins : (counting.current.map Count.start).getD t.position = t.position := by
    rw [fresh]
    rfl
  have written : Nat.ofDigitChars 10 ((t :: ts).map Token.value)
      (Count.valueOf counting.current) = n := by
    rw [fresh, ← value]
    rfl
  rw [Reader.feed_append, feed_number counting digits begins written]
  by_cases counted : n ≤ maxNumber
  · rw [if_pos counted, if_pos counted]
  · rw [if_neg counted, if_neg counted]

/-- A count that names one number is closed with it, or refused at the opening brace. -/
theorem closeBounds_exactly (r : Reader) (opened n : Nat) :
    r.closeBounds limit opened e n (some n) =
      if n ≤ limit.toNat then .ok (r.push (.counted e (.exactly n)))
      else .error (.boundTooLarge opened n limit) := by
  by_cases allowed : n ≤ limit.toNat
  · rw [if_pos allowed]
    exact Reader.closeBounds_eq_ok.mpr ⟨.exactly n, rfl, rfl, allowed, rfl⟩
  · rw [if_neg allowed, Reader.closeBounds]
    exact if_pos (Nat.lt_of_not_le allowed)

/-- Wherever a base stands in a pattern, a run of digits in braces behind it repeats it that many
times, or is refused: at the brace if the number is beyond the limit, and at the first digit if it
is beyond any limit. -/
theorem feed_exactly (opens : opening.kind = .leftBrace)
    (digits : ∀ u ∈ t :: ts, u.kind = .number ∧ u.value.isDigit = true)
    (value : Nat.ofDigitChars 10 ((t :: ts).map Token.value) 0 = n)
    (closes : closing.kind = .rightBrace) :
    Reader.feed limit ⟨groups, level, .base e⟩ (opening :: (t :: ts ++ closing :: rest)) =
      if n ≤ limit.toNat then
        Reader.feed limit ⟨groups, level.push (.counted e (.exactly n)), .ready⟩ rest
      else .error (if n ≤ maxNumber then .boundTooLarge opening.position n limit
        else .numberTooLarge t.position) := by
  rw [Reader.feed_of_step (Reader.step_leftBrace opens),
    feed_fresh_number (.least none) rfl digits value]
  by_cases counted : n ≤ maxNumber
  · rw [if_pos counted, if_pos counted, Reader.feed, Reader.step_rightBrace closes rfl,
      closeBounds_exactly]
    by_cases allowed : n ≤ limit.toNat
    · rw [if_pos allowed, if_pos allowed]
      rfl
    · rw [if_neg allowed, if_neg allowed]
  · have beyond : ¬n ≤ limit.toNat := fun allowed => counted (le_maxNumber_of_le allowed)
    rw [if_neg counted, if_neg beyond, if_neg counted]

end Grammar

section Patterns

open Token (Scans bracesOpen nesting)
open Grammar

variable {limit : UInt32} {p number : String} {ts : List Token} {e : Expr} {n : Nat}

/-- A run of digits in braces is cut into the braces and the digits. -/
theorem scan_exactly (cut : Token.scan p = .ok ts) (closed : bracesOpen false ts = false)
    (nonempty : number ≠ "") (decimal : ∀ c ∈ number.toList, c.isDigit = true) :
    ∃ t us closing, (t :: us).map Token.value = number.toList ∧ t.position = p.length + 1 ∧
      (∀ u ∈ t :: us, u.kind = .number ∧ u.value.isDigit = true) ∧ closing.kind = .rightBrace ∧
      Token.scan s!"{p}\x7b{number}\x7d" =
        .ok (ts ++ ⟨.leftBrace, '\x7b', p.length⟩ :: (t :: us ++ [closing])) := by
  obtain ⟨digits, scans, values, numbers, begins⟩ :=
    scans_digits number.toList decimal (p.length + 1)
  have first := Token.scans_of_scan cut closed 0
  rw [Token.map_shift_zero] at first
  have text : s!"{p}\x7b{number}\x7d" =
      .ofList (p.toList ++ '\x7b' :: (number.toList ++ ['\x7d'])) := by
    apply String.toList_inj.mp
    simp [toString]
  have braces : Scans .outside .outside p.length _ _ := scans_braces scans
  rw [← String.length_toList, ← Nat.zero_add p.toList.length] at braces
  have whole := (first.append braces).scan
  rw [← text, Nat.zero_add, String.length_toList] at whole
  cases digits with
  | nil => exact absurd (String.toList_eq_nil_iff.mp values.symm) nonempty
  | cons t us =>
    have decimals (u : Token) (member : u ∈ t :: us) : u.value.isDigit = true :=
      decimal _ (values ▸ List.mem_map_of_mem member)
    exact ⟨t, us, _, values, begins t rfl, fun u member => ⟨numbers u member, decimals u member⟩,
      rfl, whole⟩

/-- A base with a run of digits in braces behind it is read as that many copies of it, or refused
for the number. -/
theorem parsePattern_exactly (cut : Token.scan p = .ok ts) (base : Derives limit .base ts e)
    (shallow : nesting ts ≤ maxDepth) (nonempty : number ≠ "")
    (decimal : ∀ c ∈ number.toList, c.isDigit = true)
    (value : Nat.ofDigitChars 10 number.toList 0 = n) :
    parsePattern limit s!"{p}\x7b{number}\x7d" =
      if n ≤ limit.toNat then .ok (.counted e (.exactly n))
      else .error (.grammar (if n ≤ maxNumber then .boundTooLarge p.length n limit
        else .numberTooLarge (p.length + 1))) := by
  obtain ⟨t, us, closing, values, begins, digits, closes, cut'⟩ :=
    scan_exactly cut base.bracesOpen_eq nonempty decimal
  have fed : Reader.start.feed limit ts = .ok ⟨[], .start, .base e⟩ :=
    base.isRead (Token.faithful_of_scan cut) (.ready [] .start) shallow
  rw [← values] at value
  have opens : (⟨.leftBrace, '\x7b', p.length⟩ : Token).kind = .leftBrace := rfl
  rw [parsePattern, cut']
  change (Grammar.read limit _).mapError FullMatch.Fault.grammar = _
  rw [Grammar.read, Reader.feed_append_of_feed fed, feed_exactly opens digits value closes, begins]
  by_cases allowed : n ≤ limit.toNat
  · rw [if_pos allowed, if_pos allowed]
    rfl
  · rw [if_neg allowed, if_neg allowed]
    rfl

/-- A run of digits in a repetition count, of any length, is read as a whole, and reading goes on
right behind it, exactly when the number that it writes is at most 4294967295; otherwise its first
digit is reported. So a pattern of one base with a run of digits in braces behind it is read as that
many copies of the base exactly when the number is within the limit. -/
theorem numbers_read_exactly (limit : UInt32) :
    (∀ groups level opened e (counting : Counting) (first : Token) digits rest,
      counting.current = none →
      (∀ t ∈ first :: digits, t.kind = .number ∧ t.value.isDigit = true) →
        let n := Nat.ofDigitChars 10 ((first :: digits).map Token.value) 0
        Reader.feed limit ⟨groups, level, .bounds opened e counting⟩ (first :: digits ++ rest) =
          if n ≤ 4294967295 then
            Reader.feed limit
              ⟨groups, level, .bounds opened e (counting.withCurrent ⟨first.position, n⟩)⟩ rest
          else .error (.numberTooLarge first.position)) ∧
    ∀ p ts e, Token.scan p = .ok ts → Derives limit .base ts e → nesting ts ≤ maxDepth →
      ∀ number : String, number ≠ "" → (∀ c ∈ number.toList, c.isDigit = true) →
        let n := Nat.ofDigitChars 10 number.toList 0
        let pattern := s!"{p}\x7b{number}\x7d"
        (parsePattern limit pattern = .ok (.counted e (.exactly n)) ↔ n ≤ limit.toNat) ∧
        (limit.toNat < n → n ≤ 4294967295 →
          FailsWith limit pattern "Quantifier bound too large" p.length) ∧
        (4294967295 < n →
          FailsWith limit pattern "Invalid number in quantifier" (p.length + 1)) := by
  constructor
  · intro groups level opened e counting first digits rest fresh decimal
    exact feed_fresh_number counting fresh decimal rfl
  · intro p ts e cut base shallow number nonempty decimal n pattern
    have parsed : parsePattern limit pattern = _ :=
      parsePattern_exactly cut base shallow nonempty decimal rfl
    refine ⟨?_, ?_, ?_⟩
    · rw [parsed]
      by_cases allowed : n ≤ limit.toNat
      · rw [if_pos allowed]
        exact iff_of_true rfl allowed
      · rw [if_neg allowed]
        exact iff_of_false nofun allowed
    · intro beyond counted
      have small : n ≤ maxNumber := counted
      rw [if_neg (Nat.not_le_of_lt beyond), if_pos small] at parsed
      exact ⟨_, parsed, rfl, rfl⟩
    · intro large
      have beyond : ¬n ≤ maxNumber := Nat.not_le_of_lt large
      rw [if_neg fun allowed => beyond (le_maxNumber_of_le allowed), if_neg beyond] at parsed
      exact ⟨_, parsed, rfl, rfl⟩

/-- With counts up to 9, `a{007}` is `a` seven times, and `a{00010}` and `a{4294967296}` are
refused, each for its own reason; behind the brace, `07` is read as seven whatever follows. -/
theorem numbers_read_exactly_of_literal :
    (∀ rest, Reader.feed 9 ⟨[], .start, .bounds 1 (.literal 'a') (.least none)⟩
        (⟨.number, '0', 2⟩ :: [⟨.number, '7', 3⟩] ++ rest) =
      Reader.feed 9 ⟨[], .start, .bounds 1 (.literal 'a') (.least (some ⟨2, 7⟩))⟩ rest) ∧
      parsePattern 9 "a\x7b007\x7d" = .ok (.counted (.literal 'a') (.exactly 7)) ∧
      FailsWith 9 "a\x7b00010\x7d" "Quantifier bound too large" 1 ∧
      FailsWith 9 "a\x7b4294967296\x7d" "Invalid number in quantifier" 2 := by
  have cut : Token.scan "a" = .ok [⟨.char, 'a', 0⟩] := rfl
  have base : Derives 9 .base [⟨.char, 'a', 0⟩] (.literal 'a') := .literal rfl
  have shallow : nesting [⟨.char, 'a', 0⟩] ≤ maxDepth := by decide
  have read := (numbers_read_exactly 9).2 "a" _ _ cut base shallow
  have seven := (read "007" (by decide) (List.all_eq_true.mp (by decide))).1
  have ten := (read "00010" (by decide) (List.all_eq_true.mp (by decide))).2.1
  have large := (read "4294967296" (by decide) (List.all_eq_true.mp (by decide))).2.2
  refine ⟨fun rest => ?_, seven.mpr (by decide), ten (by decide) (by decide), large (by decide)⟩
  exact (numbers_read_exactly 9).1 [] .start 1 (.literal 'a') (.least none) ⟨.number, '0', 2⟩
    [⟨.number, '7', 3⟩] rest rfl (by decide)

end Patterns

end FullMatch
