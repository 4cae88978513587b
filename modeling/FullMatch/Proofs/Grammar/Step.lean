import FullMatch.Grammar.Derivation
import FullMatch.Grammar.Reader
import FullMatch.Token.Nesting

/-!
# Steps of the reader

What one token does to the base, the repetition count or the class in focus: an equation for each
step that goes on, and for each focus a list of all the steps that there are (`Reader.Based`,
`Reader.Counted`, `OpenClass.Pushed`), and all of them together (`Reader.Stepped`). The theory of
what is read and what it denotes rests on these and does not look into the steps again.
-/

namespace FullMatch.Grammar

variable {limit : UInt32} {groups : List Group} {level : Level} {r r' : Reader} {t : Token}
  {ts us : List Token} {e : Expr} {opened : Nat}

/-- What comes of a result that is passed on comes of a result. -/
theorem exists_of_map_eq_ok {α β : Type} {result : Except Fault α} {f : α → β} {b : β}
    (mapped : result.map f = .ok b) : ∃ a, result = .ok a ∧ f a = b := by
  cases result with
  | error fault => cases mapped
  | ok a => exact ⟨a, rfl, Except.ok.inj mapped⟩

namespace Reader

theorem feed_of_step (stepped : r.step limit t = .ok r') :
    r.feed limit (t :: ts) = r'.feed limit ts := by
  rw [feed, stepped]

theorem feed_append_of_feed (fed : r.feed limit ts = .ok r') :
    r.feed limit (ts ++ us) = r'.feed limit us := by
  rw [feed_append, fed]

/-- Tokens are read one at a time. -/
theorem feed_cons_eq_ok :
    r.feed limit (t :: ts) = .ok r' ↔
      ∃ next, r.step limit t = .ok next ∧ next.feed limit ts = .ok r' := by
  rw [feed]
  cases r.step limit t with
  | error fault => simp
  | ok next => simp

/-- What is read in two parts is read up to the second one. -/
theorem feed_append_eq_ok :
    r.feed limit (ts ++ us) = .ok r' ↔
      ∃ next, r.feed limit ts = .ok next ∧ next.feed limit us = .ok r' := by
  rw [feed_append]
  cases r.feed limit ts with
  | error fault => simp
  | ok next => simp

end Reader

section Bases

/-- Whether a kind of token repeats the base in front of it. -/
def isRepetition : Token.Kind → Bool
  | .star | .plus | .question | .leftBrace => true
  | _ => false

theorem isRepetition_iff {kind : Token.Kind} :
    isRepetition kind = true ↔ kind = .leftBrace ∨ ∃ op : RepeatOp, kind = op.kind := by
  constructor
  · intro repeats
    cases kind with
    | leftBrace => exact .inl rfl
    | star => exact .inr ⟨.zeroOrMore, rfl⟩
    | plus => exact .inr ⟨.oneOrMore, rfl⟩
    | question => exact .inr ⟨.optional, rfl⟩
    | _ => cases repeats
  · rintro (rfl | ⟨op, rfl⟩)
    · rfl
    · cases op <;> rfl

namespace Reader

/-- A postfix repetition takes the base in front of it. -/
theorem step_operator {op : RepeatOp} (repeats : t.kind = op.kind) (own : t.value = op.toChar) :
    step limit ⟨groups, level, .base e⟩ t = .ok ⟨groups, level.push (.repeated op e), .ready⟩ := by
  have operator : RepeatOp.ofChar? t.value = some op := by rw [own, RepeatOp.ofChar?_toChar]
  cases op with
  | zeroOrMore | oneOrMore | optional =>
    rw [RepeatOp.kind] at repeats
    simp [step, afterBase, repeats, operator, push]

/-- An opening brace begins the repetition count of the base in front of it. -/
theorem step_leftBrace (opens : t.kind = .leftBrace) :
    step limit ⟨groups, level, .base e⟩ t =
      .ok ⟨groups, level, .bounds t.position e (.least none)⟩ := by
  simp [step, afterBase, opens]

/-- A token that repeats nothing leaves the base in front of it as a factor. -/
theorem step_of_not_isRepetition (begins : isRepetition t.kind = false) :
    step limit ⟨groups, level, .base e⟩ t = base ⟨groups, level.push e, .ready⟩ t := by
  show afterBase _ e t = _
  unfold afterBase
  split
  · next kind => simp [kind, isRepetition] at begins
  · next kind => simp [kind, isRepetition] at begins
  · next kind => simp [kind, isRepetition] at begins
  · next kind => simp [kind, isRepetition] at begins
  · rfl

theorem base_literal (literal : t.isLiteral = true) :
    base ⟨groups, level, .ready⟩ t = .ok ⟨groups, level, .base (.literal t.value)⟩ := by
  rcases Token.isLiteral_iff.mp literal with kind | kind
  · simp [base, kind]
  · simp [base, kind]

theorem base_dot (kind : t.kind = .dot) :
    base ⟨groups, level, .ready⟩ t = .ok ⟨groups, level, .base (.atom .anyChar)⟩ := by
  simp [base, kind]

theorem base_word (kind : t.kind = .word) :
    base ⟨groups, level, .ready⟩ t = .ok ⟨groups, level, .base (.atom .wordChar)⟩ := by
  simp [base, kind]

theorem base_digit (kind : t.kind = .digit) :
    base ⟨groups, level, .ready⟩ t = .ok ⟨groups, level, .base (.atom .digit)⟩ := by
  simp [base, kind]

theorem base_leftBracket (kind : t.kind = .leftBracket) :
    base ⟨groups, level, .ready⟩ t = .ok ⟨groups, level, .inClass (.start t.position)⟩ := by
  simp [base, kind]

/-- An opening parenthesis begins a group if that is not too deep. -/
theorem base_leftParen (kind : t.kind = .leftParen) (room : groups.length < maxDepth) :
    base ⟨groups, level, .ready⟩ t = .ok ⟨⟨t.position, level⟩ :: groups, .start, .ready⟩ := by
  simp [base, kind, Nat.not_le.mpr room]

/-- A closing parenthesis makes a base of the innermost group. -/
theorem base_rightParen {group : Group} (kind : t.kind = .rightParen) :
    base ⟨group :: groups, level, .ready⟩ t = .ok ⟨groups, group.outer, .base level.close⟩ := by
  simp [base, kind]

theorem base_pipe (kind : t.kind = .pipe) :
    base ⟨groups, level, .ready⟩ t = .ok ⟨groups, level.branch, .ready⟩ := by
  simp [base, kind]

/-- What a token does that repeats nothing, behind what has been read of a branch. -/
inductive Based (groups : List Group) (level : Level) (t : Token) : Reader → Prop where
  /-- The token is a base. -/
  | single {e : Expr} (other : t.kind.isParen = false)
      (base : ∀ limit, Derives limit .base [t] e) : Based groups level t ⟨groups, level, .base e⟩
  | bracket (kind : t.kind = .leftBracket) :
      Based groups level t ⟨groups, level, .inClass (.start t.position)⟩
  | opens (kind : t.kind = .leftParen) (room : groups.length < maxDepth) :
      Based groups level t ⟨⟨t.position, level⟩ :: groups, .start, .ready⟩
  | closes {group : Group} {outer : List Group} (kind : t.kind = .rightParen)
      (innermost : groups = group :: outer) :
      Based groups level t ⟨outer, group.outer, .base level.close⟩
  | bar (kind : t.kind = .pipe) : Based groups level t ⟨groups, level.branch, .ready⟩

theorem based_of_base_eq_ok (based : base ⟨groups, level, .ready⟩ t = .ok r') :
    Based groups level t r' := by
  have single {e : Expr} {kind : Token.Kind} (is : t.kind = kind) (other : kind.isParen = false)
      (derives : ∀ limit, Derives limit .base [t] e)
      (same : Except.ok ⟨groups, level, .base e⟩ = (Except.ok r' : Except Fault Reader)) :
      Based groups level t r' := by
    obtain rfl := Except.ok.inj same
    exact .single (is ▸ other) derives
  unfold base at based
  split at based
  · next kind =>
    exact single kind rfl (fun _ => .literal (Token.isLiteral_iff.mpr (.inl kind))) based
  · next kind =>
    exact single kind rfl (fun _ => .literal (Token.isLiteral_iff.mpr (.inr kind))) based
  · next kind => exact single kind rfl (fun _ => .anyChar kind) based
  · next kind => exact single kind rfl (fun _ => .wordChar kind) based
  · next kind => exact single kind rfl (fun _ => .digit kind) based
  · next kind =>
    obtain rfl := Except.ok.inj based
    exact .bracket kind
  · next kind =>
    split at based
    · cases based
    · next room =>
      obtain rfl := Except.ok.inj based
      exact .opens kind (Nat.lt_of_not_le room)
  · next kind =>
    split at based
    · cases based
    · next group outer innermost =>
      obtain rfl := Except.ok.inj based
      exact .closes kind innermost
  · next kind =>
    obtain rfl := Except.ok.inj based
    exact .bar kind
  all_goals cases based

end Reader

end Bases

section Numbers

/-- The number that is being read, if any digit of it has been. -/
def Counting.current : Counting → Option Count
  | .least n => n
  | .most _ n => n

/-- The count with another number in place of the one that is being read. -/
def Counting.withCurrent : Counting → Count → Counting
  | least _, n => least (some n)
  | most m _, n => most m (some n)

theorem Counting.withCurrent_withCurrent (counting : Counting) (m n : Count) :
    (counting.withCurrent m).withCurrent n = counting.withCurrent n := by
  cases counting <;> rfl

theorem Counting.current_withCurrent (counting : Counting) (n : Count) :
    (counting.withCurrent n).current = some n := by
  cases counting <;> rfl

/-- The ends that a count names when it is closed, if it may be closed. -/
def Counting.ends : Counting → Option (Nat × Option Nat)
  | least n => n.map fun n => (n.value, some n.value)
  | most m n => some (m, n.map Count.value)

/-- The value of a number of which perhaps no digit has been read. -/
def Count.valueOf (n : Option Count) : Nat :=
  (n.map Count.value).getD 0

/-- A digit joins a number, unless that gets too large, and the number keeps its place. -/
theorem Count.push_eq {n : Option Count} {start value : Nat} (digit : t.value.isDigit = true)
    (begins : (n.map Count.start).getD t.position = start)
    (joined : Nat.ofDigitChars 10 [t.value] (Count.valueOf n) = value) :
    Count.push n t =
      if value ≤ maxNumber then .ok ⟨start, value⟩ else .error (.numberTooLarge start) := by
  have value : (n.map Count.value).getD 0 * 10 + digitValue t.value = value := by
    rw [← joined, Nat.ofDigitChars_cons, Nat.ofDigitChars_nil, digitValue, if_pos digit,
      Nat.mul_comm]
    rfl
  rw [push, begins, value]

/-- A digit joins a number that stays small enough, and keeps the place where it begins. -/
theorem Count.push_eq_ok {n : Option Count} {n' : Count} (digit : t.value.isDigit = true) :
    Count.push n t = .ok n' ↔
      n' = ⟨(n.map Count.start).getD t.position, Nat.ofDigitChars 10 [t.value] (Count.valueOf n)⟩ ∧
        n'.value ≤ maxNumber := by
  rw [push_eq digit rfl rfl]
  split
  · next counted =>
    rw [Except.ok.injEq]
    constructor
    · rintro rfl
      exact ⟨rfl, counted⟩
    · exact fun same => same.1.symm
  · next beyond =>
    constructor
    · nofun
    · rintro ⟨rfl, counted⟩
      exact absurd counted beyond

/-- A number keeps the place of its first digit. -/
theorem Count.start_of_push {n : Option Count} {n' : Count} (pushed : Count.push n t = .ok n') :
    n'.start = (n.map Count.start).getD t.position := by
  rw [push] at pushed
  split at pushed
  · obtain rfl := Except.ok.inj pushed
    rfl
  · cases pushed

/-- A digit in a repetition count joins the number that is being read. -/
theorem Reader.step_number {counting : Counting} (number : t.kind = .number) :
    Reader.step limit ⟨groups, level, .bounds opened e counting⟩ t =
      (Count.push counting.current t).map fun n =>
        ⟨groups, level, .bounds opened e (counting.withCurrent n)⟩ := by
  cases counting with
  | least n => simp [step, inBounds, number, Counting.current, Counting.withCurrent]
  | most least n => simp [step, inBounds, number, Counting.current, Counting.withCurrent]

/-- A comma behind the first number goes on with the second one. -/
theorem Reader.step_comma {n : Count} (comma : t.kind = .comma) :
    Reader.step limit ⟨groups, level, .bounds opened e (.least (some n))⟩ t =
      .ok ⟨groups, level, .bounds opened e (.most n.value none)⟩ := by
  simp [step, inBounds, comma]

/-- A brace closes a count with the ends that it names. -/
theorem Reader.step_rightBrace {counting : Counting} {least : Nat} {most : Option Nat}
    (closes : t.kind = .rightBrace) (ends : counting.ends = some (least, most)) :
    Reader.step limit ⟨groups, level, .bounds opened e counting⟩ t =
      Reader.closeBounds limit ⟨groups, level, .bounds opened e counting⟩ opened e least most := by
  rcases counting with (_ | n) | ⟨m, n⟩
  · cases ends
  · cases ends
    simp [step, inBounds, closes]
  · cases ends
    simp [step, inBounds, closes]

/-- A count is closed with the bounds that its numbers name, if they are not inverted and within the
limit. -/
theorem Reader.closeBounds_eq_ok {least : Nat} {most : Option Nat} :
    r.closeBounds limit opened e least most = .ok r' ↔
      ∃ b : Bounds, b.least = least ∧ b.most = most ∧ b.largest ≤ limit.toNat ∧
        r' = r.push (.counted e b) := by
  rw [closeBounds]
  split
  · next crossed =>
    constructor
    · nofun
    · rintro ⟨b, rfl, rfl, allowed, -⟩
      exact absurd crossed (Nat.not_lt.mpr allowed)
  · next allowed =>
    rw [Nat.not_lt] at allowed
    cases ends : Bounds.ofEnds least most with
    | ok b =>
      obtain ⟨rfl, rfl⟩ := Bounds.ofEnds_eq_ok.mp ends
      constructor
      · intro closed
        exact ⟨b, rfl, rfl, allowed, (Except.ok.inj closed).symm⟩
      · rintro ⟨b', least, most, -, rfl⟩
        have same := Bounds.ofEnds_eq_ok.mpr ⟨least, most⟩
        rw [ends, Except.ok.injEq] at same
        rw [same]
    | error inverted =>
      constructor
      · nofun
      · rintro ⟨b, least, most, -, -⟩
        have same := Bounds.ofEnds_eq_ok.mpr ⟨least, most⟩
        rw [ends] at same
        cases same

/-- What a token does in the repetition count of `e`. -/
inductive Reader.Counted (limit : UInt32) (groups : List Group) (level : Level) (opened : Nat)
    (e : Expr) (counting : Counting) (t : Token) : Reader → Prop where
  | digit {n : Count} (kind : t.kind = .number) (pushed : Count.push counting.current t = .ok n) :
      Counted limit groups level opened e counting t
        ⟨groups, level, .bounds opened e (counting.withCurrent n)⟩
  | comma {n : Count} (kind : t.kind = .comma) (first : counting = .least (some n)) :
      Counted limit groups level opened e counting t
        ⟨groups, level, .bounds opened e (.most n.value none)⟩
  | closes {b : Bounds} (kind : t.kind = .rightBrace)
      (ends : counting.ends = some (b.least, b.most)) (allowed : b.largest ≤ limit.toNat) :
      Counted limit groups level opened e counting t
        ⟨groups, level.push (.counted e b), .ready⟩

theorem Reader.counted_of_step_eq_ok {counting : Counting}
    (stepped : Reader.step limit ⟨groups, level, .bounds opened e counting⟩ t = .ok r') :
    Reader.Counted limit groups level opened e counting t r' := by
  by_cases number : t.kind = .number
  · rw [Reader.step_number number] at stepped
    obtain ⟨n, pushed, rfl⟩ := exists_of_map_eq_ok stepped
    exact .digit number pushed
  change Reader.inBounds limit _ opened e counting t = .ok r' at stepped
  unfold Reader.inBounds at stepped
  split at stepped
  · contradiction
  · contradiction
  · next kind =>
    obtain rfl := Except.ok.inj stepped
    exact .comma kind rfl
  · next kind =>
    obtain ⟨b, least, most, allowed, rfl⟩ := Reader.closeBounds_eq_ok.mp stepped
    exact .closes kind (by rw [least, most]; rfl) allowed
  · next kind =>
    obtain ⟨b, least, most, allowed, rfl⟩ := Reader.closeBounds_eq_ok.mp stepped
    exact .closes kind (by rw [least, most]; rfl) allowed
  all_goals cases stepped

end Numbers

section Classes

variable {members : CharSet} {d : Char}

theorem mem_insert_literal {c : Char} :
    d ∈ members.insert c ↔ d ∈ members ∨ (Item.literal c).Names d := by
  rw [CharSet.mem_insert, or_comm]
  rfl

theorem mem_union_word : d ∈ members ∪ .wordChars ↔ d ∈ members ∨ Item.word.Names d := by
  rw [Std.ExtTreeSet.mem_union_iff]
  exact or_congr_right (Atom.mem_chars (a := .wordChar))

theorem mem_union_digit : d ∈ members ∪ .digits ↔ d ∈ members ∨ Item.digit.Names d := by
  rw [Std.ExtTreeSet.mem_union_iff]
  exact or_congr_right (Atom.mem_chars (a := .digit))

/-- Whether tokens leave alone a literal that waits for a range, and the dash behind it. -/
def Pending.LeftAlone : Pending → List Token → Prop
  | opening, _ | nothing, _ => True
  | literal _, ts => ¬CompletesRange ts
  | dash _, ts => ∀ t ∈ ts.head?, t.isLiteral = false

theorem Pending.leftAlone_nil (pending : Pending) : pending.LeftAlone [] := by
  cases pending with
  | opening | nothing => trivial
  | literal first => exact id
  | dash first => exact nofun

/-- A token that stands in no range leaves alone what waits for one. -/
theorem Pending.leftAlone_cons {pending : Pending} (plain : t.isLiteral = false)
    (noDash : t.kind ≠ .dash) : pending.LeftAlone (t :: us) := by
  cases pending with
  | opening | nothing => trivial
  | literal first =>
    intro completes
    cases us with
    | nil => exact completes
    | cons last us => exact noDash completes.1
  | dash first =>
    rintro u next
    obtain rfl := Option.some.inj next
    exact plain

namespace OpenClass

variable {c c' : OpenClass} {k : CharClass}

/-- A literal settles what came before it, and waits for a range, unless it ends one. -/
theorem push_literal (literal : t.isLiteral = true) (noDash : ∀ first, c.pending ≠ .dash first) :
    c.push t = .ok { c with members := c.settled, pending := .literal t } := by
  rcases Token.isLiteral_iff.mp literal with kind | kind
  · cases pending : c.pending with
    | dash first => exact absurd pending (noDash first)
    | _ => simp [push, pending, kind]
  · cases pending : c.pending with
    | dash first => exact absurd pending (noDash first)
    | _ => simp [push, pending, kind]

/-- A literal behind a literal and a dash ends a range. -/
theorem push_last {first : Token} (literal : t.isLiteral = true)
    (pending : c.pending = .dash first) : c.push t = c.insertRange first t := by
  rcases Token.isLiteral_iff.mp literal with kind | kind
  · simp [push, pending, kind]
  · simp [push, pending, kind]

/-- A dash behind a literal waits for the end of a range. -/
theorem push_dash_of_literal {first : Token} (dash : t.kind = .dash)
    (pending : c.pending = .literal first) : c.push t = .ok { c with pending := .dash first } := by
  simp [push, pending, dash]

/-- A dash behind anything but a literal is a member. -/
theorem push_dash (dash : t.kind = .dash) (noLiteral : ∀ first, c.pending ≠ .literal first) :
    c.push t = .ok { c with members := c.settled.insert '-', pending := .nothing } := by
  cases pending : c.pending with
  | literal first => exact absurd pending (noLiteral first)
  | _ => simp [push, pending, dash]

theorem push_word (word : t.kind = .word) :
    c.push t = .ok { c with members := c.settled ∪ .wordChars, pending := .nothing } := by
  cases pending : c.pending <;> simp [push, pending, word]

theorem push_digit (digit : t.kind = .digit) :
    c.push t = .ok { c with members := c.settled ∪ .digits, pending := .nothing } := by
  cases pending : c.pending <;> simp [push, pending, digit]

/-- A caret right behind the opening bracket negates the class. -/
theorem push_caret (caret : t.kind = .caret) (pending : c.pending = .opening) :
    c.push t = .ok { c with negated := true, pending := .nothing } := by
  simp [push, pending, caret]

/-- The tokens that a class may go on with. -/
def Admits (c : OpenClass) (t : Token) : Prop :=
  t.kind = .caret ∧ c.pending = .opening ∨
    t.isLiteral = true ∨ t.kind = .dash ∨ t.kind = .word ∨ t.kind = .digit

/-- A range joins the members if it is neither inverted nor too large. -/
theorem insertRange_eq_ok {first last : Token} :
    c.insertRange first last = .ok c' ↔
      first.value ≤ last.value ∧ rangeSpan first.value last.value ≤ maxClassSize ∧
        c' = { c with
          members := c.members.insertRange first.value last.value
          pending := .nothing } := by
  rw [insertRange]
  split
  · next inverted =>
    constructor
    · nofun
    · rintro ⟨ordered, -⟩
      exact absurd ordered (Char.not_le.mpr inverted)
  · next ordered =>
    split
    · next large =>
      constructor
      · nofun
      · rintro ⟨-, small, -⟩
        exact absurd large (Nat.not_lt.mpr small)
    · next small =>
      rw [Except.ok.injEq]
      exact ⟨fun same => ⟨Char.not_lt.mp ordered, Nat.not_lt.mp small, same.symm⟩,
        fun same => same.2.2.symm⟩

/-- What a token does in a class that it does not close. -/
inductive Pushed (c : OpenClass) (t : Token) : OpenClass → Prop where
  | caret (kind : t.kind = .caret) (fresh : c.pending = .opening) :
      Pushed c t { c with negated := true, pending := .nothing }
  | literal (literal : t.isLiteral = true) (noDash : ∀ first, c.pending ≠ .dash first) :
      Pushed c t { c with members := c.settled, pending := .literal t }
  | range {first : Token} (literal : t.isLiteral = true) (waits : c.pending = .dash first)
      (ordered : first.value ≤ t.value) (small : rangeSpan first.value t.value ≤ maxClassSize) :
      Pushed c t { c with
        members := c.members.insertRange first.value t.value
        pending := .nothing }
  | dashOfLiteral {first : Token} (kind : t.kind = .dash) (waits : c.pending = .literal first) :
      Pushed c t { c with pending := .dash first }
  | dash (kind : t.kind = .dash) (noLiteral : ∀ first, c.pending ≠ .literal first) :
      Pushed c t { c with members := c.settled.insert '-', pending := .nothing }
  | word (kind : t.kind = .word) :
      Pushed c t { c with members := c.settled ∪ .wordChars, pending := .nothing }
  | digit (kind : t.kind = .digit) :
      Pushed c t { c with members := c.settled ∪ .digits, pending := .nothing }

theorem pushed_of_push_eq_ok (pushed : c.push t = .ok c') : c.Pushed t c' := by
  have range {first : Token} (literal : t.isLiteral = true) (waits : c.pending = .dash first)
      (joined : c.insertRange first t = .ok c') : c.Pushed t c' := by
    obtain ⟨ordered, small, rfl⟩ := insertRange_eq_ok.mp joined
    exact .range literal waits ordered small
  unfold push at pushed
  split at pushed
  · next fresh kind =>
    obtain rfl := Except.ok.inj pushed
    exact .caret kind fresh
  · next waits kind =>
    obtain rfl := Except.ok.inj pushed
    exact .dashOfLiteral kind waits
  · next waits kind => exact range (Token.isLiteral_iff.mpr (.inl kind)) waits pushed
  · next waits kind => exact range (Token.isLiteral_iff.mpr (.inr kind)) waits pushed
  · next kind noDash =>
    obtain rfl := Except.ok.inj pushed
    exact .literal (Token.isLiteral_iff.mpr (.inl kind)) noDash
  · next kind noDash =>
    obtain rfl := Except.ok.inj pushed
    exact .literal (Token.isLiteral_iff.mpr (.inr kind)) noDash
  · next kind noLiteral =>
    obtain rfl := Except.ok.inj pushed
    exact .dash kind noLiteral
  · next kind =>
    obtain rfl := Except.ok.inj pushed
    exact .word kind
  · next kind =>
    obtain rfl := Except.ok.inj pushed
    exact .digit kind
  · cases pushed

theorem admits_of_push (pushed : c.push t = .ok c') : c.Admits t := by
  cases pushed_of_push_eq_ok pushed with
  | caret kind fresh => exact .inl ⟨kind, fresh⟩
  | literal literal | range literal => exact .inr (.inl literal)
  | dashOfLiteral kind | dash kind => exact .inr (.inr (.inl kind))
  | word kind => exact .inr (.inr (.inr (.inl kind)))
  | digit kind => exact .inr (.inr (.inr (.inr kind)))

/-- A class is closed if it has members, but not too many. -/
theorem close_eq_ok : c.close = .ok k ↔ Sized c.settled ∧ k = ⟨c.settled, c.negated⟩ := by
  rw [close, Sized]
  split
  · next empty =>
    rw [Std.ExtTreeSet.isEmpty_iff] at empty
    rw [empty, Std.ExtTreeSet.size_empty]
    constructor
    · nofun
    · rintro ⟨⟨positive, -⟩, -⟩
      exact absurd positive (Nat.lt_irrefl 0)
  · next inhabited =>
    rw [Std.ExtTreeSet.isEmpty_iff, Std.ExtTreeSet.eq_empty_iff_size_eq_zero] at inhabited
    split
    · next large =>
      constructor
      · nofun
      · rintro ⟨⟨-, small⟩, -⟩
        exact absurd large (Nat.not_lt.mpr small)
    · next small =>
      rw [Except.ok.injEq]
      exact ⟨fun same => ⟨⟨Nat.pos_of_ne_zero inhabited, Nat.not_lt.mp small⟩, same.symm⟩,
        fun same => same.2.symm⟩

end OpenClass

/-- A token that does not close the class leaves the rest of the reader alone. -/
theorem Reader.step_inside {c : OpenClass} (inside : t.kind ≠ .rightBracket) :
    Reader.step limit ⟨groups, level, .inClass c⟩ t =
      (c.push t).map fun c => ⟨groups, level, .inClass c⟩ := by
  show Reader.inClass _ c t = _
  unfold inClass
  split
  · next closes => exact absurd closes inside
  · rfl

/-- A class goes on with a token. -/
theorem Reader.step_inClass {c c' : OpenClass} (pushed : c.push t = .ok c') :
    Reader.step limit ⟨groups, level, .inClass c⟩ t = .ok ⟨groups, level, .inClass c'⟩ := by
  have inside : t.kind ≠ .rightBracket := by
    intro closes
    rcases OpenClass.admits_of_push pushed with ⟨kind, -⟩ | literal | kind | kind | kind
    · cases closes.symm.trans kind
    · rcases Token.isLiteral_iff.mp literal with kind | kind
      · cases closes.symm.trans kind
      · cases closes.symm.trans kind
    · cases closes.symm.trans kind
    · cases closes.symm.trans kind
    · cases closes.symm.trans kind
  rw [step_inside inside, pushed]
  rfl

/-- The closing bracket makes a base of a class. -/
theorem Reader.step_rightBracket {c : OpenClass} (closes : t.kind = .rightBracket) :
    Reader.step limit ⟨groups, level, .inClass c⟩ t =
      c.close.map fun k => ⟨groups, level, .base (.atom (.charClass k))⟩ := by
  simp [step, inClass, closes]

end Classes

section Steps

namespace Reader

/-- What a token does to the reader, whatever the piece in focus is. -/
inductive Stepped (limit : UInt32) (groups : List Group) (level : Level) (t : Token) :
    Focus → Reader → Prop where
  | ready {r' : Reader} (based : Based groups level t r') :
      Stepped limit groups level t .ready r'
  | bounds {e : Expr} (opens : t.kind = .leftBrace) :
      Stepped limit groups level t (.base e)
        ⟨groups, level, .bounds t.position e (.least none)⟩
  | repeated {e : Expr} {op op' : RepeatOp} (repeats : t.kind = op.kind)
      (named : RepeatOp.ofChar? t.value = some op') :
      Stepped limit groups level t (.base e) ⟨groups, level.push (.repeated op' e), .ready⟩
  | factor {e : Expr} {r' : Reader} (begins : isRepetition t.kind = false)
      (based : Based groups (level.push e) t r') : Stepped limit groups level t (.base e) r'
  | counted {opened : Nat} {e : Expr} {counting : Counting} {r' : Reader}
      (counted : Counted limit groups level opened e counting t r') :
      Stepped limit groups level t (.bounds opened e counting) r'
  | pushed {c c' : OpenClass} (inside : t.kind ≠ .rightBracket) (pushed : c.Pushed t c') :
      Stepped limit groups level t (.inClass c) ⟨groups, level, .inClass c'⟩
  | closed {c : OpenClass} {k : CharClass} (closes : t.kind = .rightBracket)
      (closed : c.close = .ok k) :
      Stepped limit groups level t (.inClass c)
        ⟨groups, level, .base (.atom (.charClass k))⟩

/-- A faithful token is named for its kind. -/
theorem eq_of_named {op op' : RepeatOp} (own : t.Faithful) (repeats : t.kind = op.kind)
    (named : RepeatOp.ofChar? t.value = some op') : op' = op := by
  rw [own.operator op repeats, RepeatOp.ofChar?_toChar] at named
  exact (Option.some.inj named).symm

theorem stepped_operator {op : RepeatOp} (repeats : t.kind = op.kind)
    (stepped : step limit ⟨groups, level, .base e⟩ t = .ok r') :
    Stepped limit groups level t (.base e) r' := by
  cases op with
  | zeroOrMore | oneOrMore | optional =>
    have kind := repeats
    rw [RepeatOp.kind] at kind
    simp only [step, afterBase, kind] at stepped
    split at stepped
    · next named =>
      obtain rfl := Except.ok.inj stepped
      exact .repeated repeats named
    · simp [nextBase, base, kind] at stepped

/-- Whatever a step does is listed. -/
theorem stepped_of_step_eq_ok {focus : Focus}
    (stepped : step limit ⟨groups, level, focus⟩ t = .ok r') :
    Stepped limit groups level t focus r' := by
  cases focus with
  | ready => exact .ready (based_of_base_eq_ok stepped)
  | base e =>
    by_cases repeats : isRepetition t.kind = true
    · rcases isRepetition_iff.mp repeats with opens | ⟨op, repeats⟩
      · rw [step_leftBrace opens] at stepped
        obtain rfl := Except.ok.inj stepped
        exact .bounds opens
      · exact stepped_operator repeats stepped
    · rw [Bool.not_eq_true] at repeats
      rw [step_of_not_isRepetition repeats] at stepped
      exact .factor repeats (based_of_base_eq_ok stepped)
  | bounds opened e counting => exact .counted (counted_of_step_eq_ok stepped)
  | inClass c =>
    by_cases closes : t.kind = .rightBracket
    · rw [step_rightBracket closes] at stepped
      obtain ⟨k, closed, rfl⟩ := exists_of_map_eq_ok stepped
      exact .closed closes closed
    · rw [step_inside closes] at stepped
      obtain ⟨c', pushed, rfl⟩ := exists_of_map_eq_ok stepped
      exact .pushed closes (OpenClass.pushed_of_push_eq_ok pushed)

end Reader

end Steps

end FullMatch.Grammar
