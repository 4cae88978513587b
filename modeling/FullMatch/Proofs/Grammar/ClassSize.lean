import FullMatch.Proofs.Grammar.ClassText
import FullMatch.Proofs.Token.Layout

/-!
# How large a class may be

The tokens of a class list items (`lists_listed`) unless one of its ranges is too large, and then
the class is refused there (`exists_rangeTooLarge`). A range is measured by its numbers, of which
those of surrogates name no character: a class of too many characters is always refused, and one
that is refused as too large has too many characters unless a range goes across the surrogates
(`classTooLarge_iff`).
-/

namespace FullMatch

open Grammar

variable {limit : UInt32} {groups : List Group} {level : Level} {c : OpenClass} {first last : Char}
  {t opening closing : Token} {ts us body : List Token} {items : List Item}
  {members : CharSet} {negated : Bool} {pattern : String}

section Sizes

/-- The numbers up to `stop` are those up to `middle` and those from there. -/
theorem range'_split (start middle stop : Nat) (first : start ≤ middle) (second : middle ≤ stop) :
    List.range' start (stop - start) =
      List.range' start (middle - start) ++ List.range' middle (stop - middle) := by
  have parts := List.range'_append_1 (s := start) (m := middle - start) (n := stop - middle)
  rw [Nat.add_sub_cancel' first] at parts
  rw [parts]
  congr 1
  omega

/-- Below the surrogates, and above them, every number is that of a character. -/
theorem filter_isValidChar_range' {start count : Nat}
    (apart : start + count ≤ 0xD800 ∨ 0xDFFF < start ∧ start + count ≤ 0x110000) :
    (List.range' start count).filter Nat.isValidChar = List.range' start count := by
  rw [List.filter_eq_self]
  intro n member
  rw [List.mem_range'_1] at member
  rw [decide_eq_true_iff, Nat.isValidChar]
  omega

theorem filter_isValidChar_surrogates :
    (List.range' 0xD800 (0xE000 - 0xD800)).filter Nat.isValidChar = [] := by
  rw [List.filter_eq_nil_iff]
  intro n member
  rw [List.mem_range'_1] at member
  rw [decide_eq_true_iff, Nat.isValidChar]
  omega

/-- Of the numbers that a range spans, all but those of surrogates are numbers of characters. -/
theorem length_filter_isValidChar (ordered : first ≤ last) :
    ((List.range' first.toNat (rangeSpan first last)).filter Nat.isValidChar).length +
      (if SpansSurrogates first last then 2048 else 0) = rangeSpan first last := by
  have low : first.toNat.isValidChar := first.valid
  have high : last.toNat.isValidChar := last.valid
  rw [Char.le_iff_toNat_le] at ordered
  unfold Nat.isValidChar at low high
  unfold rangeSpan
  split
  · next spans =>
    obtain ⟨below, above⟩ := spans
    rw [range'_split first.toNat 0xD800 (last.toNat + 1) (by omega) (by omega),
      range'_split 0xD800 0xE000 (last.toNat + 1) (by omega) (by omega),
      List.filter_append, List.filter_append, filter_isValidChar_surrogates,
      filter_isValidChar_range' (by omega), filter_isValidChar_range' (by omega)]
    simp only [List.length_append, List.length_range', List.length_nil]
    omega
  · next apart =>
    rw [SpansSurrogates, not_and_or] at apart
    rw [filter_isValidChar_range' (by omega), List.length_range', Nat.add_zero]

/-- A range names as many characters as it spans numbers, but for the surrogates. -/
theorem size_of_range (ordered : first ≤ last) (between : ∀ c, c ∈ members ↔ first ≤ c ∧ c ≤ last) :
    members.size + (if SpansSurrogates first last then 2048 else 0) = rangeSpan first last := by
  let numbers : List Nat :=
    (List.range' first.toNat (rangeSpan first last)).filter Nat.isValidChar
  have valid (n : Nat) (member : n ∈ numbers) : (Char.ofNat n).toNat = n :=
    CharSet.toNat_ofNat_of_isValidChar (of_decide_eq_true (List.mem_filter.mp member).2)
  have size : members.size = (numbers.map Char.ofNat).length := by
    refine CharSet.size_eq_length ?_ fun c => ?_
    · refine (List.Nodup.filter _ (List.nodup_range' ..)).map_on fun m member n member' same => ?_
      rw [← valid m member, ← valid n member', same]
    · rw [between, Char.le_iff_toNat_le, Char.le_iff_toNat_le, List.mem_map]
      rw [Char.le_iff_toNat_le] at ordered
      have inRange (n : Nat) : n ∈ numbers ↔
          (first.toNat ≤ n ∧ n ≤ last.toNat) ∧ n.isValidChar := by
        rw [List.mem_filter, decide_eq_true_iff, List.mem_range'_1, rangeSpan]
        omega
      constructor
      · rintro ⟨n, member, rfl⟩
        rw [valid n member]
        exact ((inRange n).mp member).1
      · exact fun inside => ⟨c.toNat, (inRange c.toNat).mpr ⟨inside, c.valid⟩, c.ofNat_toNat⟩
  rw [size, List.length_map]
  exact length_filter_isValidChar ordered

end Sizes

section Listing

/-- A token that begins no range lists what it lists by itself. -/
theorem listed_cons (single : ¬(t.isLiteral = true ∧ CompletesRange ts)) :
    listed (t :: ts) = alone t ++ listed ts := by
  cases ts with
  | nil => rfl
  | cons dash ts =>
    cases ts with
    | nil => rfl
    | cons last ts => exact if_neg single

theorem listed_range {begins dash ends : Token} (literal : begins.isLiteral = true)
    (completes : CompletesRange (dash :: ends :: ts)) :
    listed (begins :: dash :: ends :: ts) = .range begins.value ends.value :: listed ts :=
  if_pos ⟨literal, completes⟩

/-- Induction that takes the three tokens of a range at once, and any other token by itself. -/
@[elab_as_elim]
theorem rangeInduction {motive : List Token → Prop} (nil : motive [])
    (range : ∀ begins dash ends ts, begins.isLiteral = true →
      CompletesRange (dash :: ends :: ts) → motive ts → motive (begins :: dash :: ends :: ts))
    (single : ∀ t ts, ¬(t.isLiteral = true ∧ CompletesRange ts) → motive ts → motive (t :: ts))
    (ts : List Token) : motive ts := by
  fun_induction listed ts with
  | case1 begins dash ends ts is ih => exact range begins dash ends ts is.1 is.2 ih
  | case2 begins dash ends ts no ih => exact single begins _ no ih
  | case3 t ts short ih =>
    refine single t ts ?_ ih
    rintro ⟨-, completes⟩
    cases ts with
    | nil => exact completes
    | cons dash ts =>
      cases ts with
      | nil => exact completes
      | cons ends ts => exact short _ _ _ rfl
  | case4 => exact nil

theorem range_not_mem_alone : Item.range first last ∉ alone t := by
  unfold alone
  split <;> simp

theorem literal_or_of_isClassMember (member : t.kind.isClassMember = true) :
    t.isLiteral = true ∨ t.kind = .dash ∨ t.kind = .word ∨ t.kind = .digit := by
  cases kind : t.kind with
  | char => exact .inl (Token.isLiteral_iff.mpr (.inl kind))
  | escaped => exact .inl (Token.isLiteral_iff.mpr (.inr kind))
  | dash => exact .inr (.inl rfl)
  | word => exact .inr (.inr (.inl rfl))
  | digit => exact .inr (.inr (.inr rfl))
  | _ => cases kind ▸ member

theorem alone_of_isLiteral (literal : t.isLiteral = true) : alone t = [.literal t.value] := by
  rcases Token.isLiteral_iff.mp literal with kind | kind
  · simp [alone, kind]
  · simp [alone, kind]

/-- A token that begins no range is an item of its own. -/
theorem lists_alone (member : t.kind.isClassMember = true)
    (single : ¬(t.isLiteral = true ∧ CompletesRange ts)) (rest : Lists ts items) :
    Lists (t :: ts) (alone t ++ items) := by
  rcases literal_or_of_isClassMember member with literal | dash | word | digit
  · rw [alone_of_isLiteral literal]
    exact .literal literal (fun completes => single ⟨literal, completes⟩) rest
  · simpa [alone, dash] using Lists.dash dash rest
  · simpa [alone, word] using Lists.word word rest
  · simpa [alone, digit] using Lists.digit digit rest

/-- Tokens list their items if the ranges are in order and not too large. -/
theorem lists_listed (inClass : ∀ t ∈ ts, t.kind.isClassMember = true)
    (fits : ∀ first last, .range first last ∈ listed ts →
      first ≤ last ∧ rangeSpan first last ≤ maxClassSize) : Lists ts (listed ts) := by
  induction ts using rangeInduction with
  | nil => exact .nil
  | range begins dash ends ts literal completes ih =>
    rw [listed_range literal completes] at fits ⊢
    obtain ⟨ordered, small⟩ := fits _ _ List.mem_cons_self
    refine .range literal completes ordered small (ih ?_ ?_)
    · exact fun t member => inClass t (by simp [member])
    · exact fun first last member => fits first last (List.mem_cons_of_mem _ member)
  | single t ts single ih =>
    rw [listed_cons single] at fits ⊢
    obtain ⟨member, inClass⟩ := List.forall_mem_cons.mp inClass
    exact lists_alone member single
      (ih inClass fun first last member => fits first last (List.mem_append_right _ member))

/-- A token that begins no range can be read in a class where it is an item of its own. -/
theorem exists_push_of_single (member : t.kind.isClassMember = true)
    (before : c.pending.LeftAlone (t :: ts))
    (single : ¬(t.isLiteral = true ∧ CompletesRange ts)) :
    ∃ c', c.push t = .ok c' ∧ c'.pending.LeftAlone ts := by
  rcases literal_or_of_isClassMember member with literal | dash | word | digit
  · exact ⟨_, OpenClass.push_literal literal (before.ne_dash literal),
      fun completes => single ⟨literal, completes⟩⟩
  · obtain ⟨c', pushed, -, behind⟩ := push_dash_growsBy dash before
    exact ⟨c', pushed, behind⟩
  · exact ⟨_, OpenClass.push_word word, trivial⟩
  · exact ⟨_, OpenClass.push_digit digit, trivial⟩

/-- A range in order is refused if it is too large. -/
theorem insertRange_of_large {begins ends : Token} (ordered : begins.value ≤ ends.value)
    (large : maxClassSize < rangeSpan begins.value ends.value) :
    c.insertRange begins ends = .error (.rangeTooLarge begins ends) := by
  rw [OpenClass.insertRange, if_neg (Char.not_lt.mpr ordered), if_pos large]

/-- Tokens of which a range is too large are refused for one that is. -/
theorem exists_rangeTooLarge (inClass : ∀ t ∈ ts, t.kind.isClassMember = true)
    (ordered : ∀ first last, .range first last ∈ listed ts → first ≤ last)
    (large : ∃ first last, .range first last ∈ listed ts ∧ maxClassSize < rangeSpan first last)
    (before : c.pending.LeftAlone ts) :
    ∃ begins ends, Reader.feed limit ⟨groups, level, .inClass c⟩ ts =
      .error (.rangeTooLarge begins ends) := by
  induction ts using rangeInduction generalizing c with
  | nil =>
    obtain ⟨first, last, member, -⟩ := large
    cases member
  | range begins dash ends ts literal completes ih =>
    rw [listed_range literal completes] at ordered large
    have inOrder := ordered _ _ List.mem_cons_self
    rw [feed_range literal completes before]
    by_cases small : rangeSpan begins.value ends.value ≤ maxClassSize
    · rw [OpenClass.insertRange_eq_ok.mpr ⟨inOrder, small, rfl⟩]
      refine ih (fun t member => inClass t (by simp [member]))
        (fun first last member => ordered first last (List.mem_cons_of_mem _ member)) ?_ trivial
      obtain ⟨first, last, member, large⟩ := large
      rcases List.mem_cons.mp member with same | member
      · cases same
        exact absurd small (Nat.not_le.mpr large)
      · exact ⟨first, last, member, large⟩
    · rw [insertRange_of_large inOrder (Nat.not_le.mp small)]
      exact ⟨begins, ends, rfl⟩
  | single t ts single ih =>
    rw [listed_cons single] at ordered large
    obtain ⟨member, inClass⟩ := List.forall_mem_cons.mp inClass
    obtain ⟨c', pushed, behind⟩ := exists_push_of_single member before single
    rw [Reader.feed_of_step (Reader.step_inClass pushed)]
    refine ih inClass
      (fun first last member => ordered first last (List.mem_append_right _ member)) ?_ behind
    obtain ⟨first, last, member, large⟩ := large
    rcases List.mem_append.mp member with own | member
    · exact absurd own range_not_mem_alone
    · exact ⟨first, last, member, large⟩

end Listing

section Patterns

/-- A list that ends where a kind of token comes first has only one part in front of it. -/
theorem eq_of_append_closing {front back : List Token} {other : Token} {kind : Token.Kind}
    (same : body ++ [closing] = front ++ other :: back) (unlike : ∀ t ∈ body, t.kind ≠ kind)
    (is : other.kind = kind) : body = front := by
  rcases List.eq_nil_or_concat back with rfl | ⟨back, last, rfl⟩
  · exact (List.append_inj' same rfl).1
  · rw [List.concat_eq_append, ← List.cons_append, ← List.append_assoc] at same
    have parts := (List.append_inj' same rfl).1
    exact absurd is (unlike other (by rw [parts]; simp))

/-- Between its brackets, a class holds a sign and members. -/
theorem exists_sign_of_scan (cut : Token.scan pattern = .ok (opening :: (body ++ [closing])))
    (opens : opening.kind = .leftBracket) (inside : ∀ t ∈ body, t.kind ≠ .rightBracket) :
    ∃ negated us ts, body = us ++ ts ∧ Sign negated us ∧
      ∀ t ∈ ts, t.kind.isClassMember = true := by
  obtain ⟨front, other, back, same, closes, isBody⟩ :=
    (Token.laidOut_of_scan cut).classes [] opening _ rfl opens
  obtain rfl := eq_of_append_closing same inside closes
  cases body with
  | nil => exact ⟨false, [], [], rfl, .plain, nofun⟩
  | cons t ts =>
    rcases isBody.head t rfl with negates | member
    · exact ⟨true, [t], ts, rfl, .negated negates, isBody.tail⟩
    · exact ⟨false, [], t :: ts, rfl, .plain, List.forall_mem_cons.mpr ⟨member, isBody.tail⟩⟩

/-- A sign lists nothing. -/
theorem Sign.listed_append (sign : Sign negated us) (ts : List Token) :
    listed (us ++ ts) = listed ts := by
  cases sign with
  | plain => rfl
  | negated negates =>
    have noLiteral := Token.isLiteral_eq_false negates nofun nofun
    rw [List.singleton_append, listed_cons fun single => by simp [noLiteral] at single]
    simp [alone, negates]

/-- A class with a range that is too large is refused for such a range. -/
theorem parsePattern_of_largeRange (limit : UInt32)
    (cut : Token.scan pattern = .ok (opening :: (us ++ ts ++ [closing])))
    (opens : opening.kind = .leftBracket) (sign : Sign negated us)
    (inClass : ∀ t ∈ ts, t.kind.isClassMember = true)
    (ordered : ∀ first last, .range first last ∈ listed ts → first ≤ last)
    (large : ∃ first last, .range first last ∈ listed ts ∧ maxClassSize < rangeSpan first last) :
    ∃ begins ends, parsePattern limit pattern =
      .error (.grammar (.rangeTooLarge begins ends)) := by
  obtain ⟨begins, ends, refused⟩ : ∃ begins ends, Reader.feed limit
      ⟨[], .start, .inClass (.signed opening.position negated)⟩ ts =
        .error (.rangeTooLarge begins ends) :=
    exists_rangeTooLarge inClass ordered large (leftAlone_signed ..)
  have failed : Grammar.read limit (opening :: (us ++ ts ++ [closing])) =
      .error (.rangeTooLarge begins ends) := by
    rw [List.append_assoc, read_of_sign opens sign, Reader.feed_append, refused]
    rfl
  refine ⟨begins, ends, ?_⟩
  rw [parsePattern, cut]
  exact congrArg (Except.mapError Fault.grammar) failed

/-- A class whose ranges are small enough fails for its size just when it has too many members. -/
theorem failsWith_iff_of_lists
    (cut : Token.scan pattern = .ok (opening :: (us ++ ts ++ [closing])))
    (opens : opening.kind = .leftBracket) (sign : Sign negated us) (lists : Lists ts items)
    (closes : closing.kind = .rightBracket) (named : NamedBy members items) :
    (∃ place, FailsWith limit pattern "Character class too large" place) ↔
      maxClassSize < members.size := by
  let whole : OpenClass := ⟨opening.position, negated, members, .nothing⟩
  have parsed : parsePattern limit pattern =
      (whole.close.map fun k => Expr.atom (.charClass k)).mapError .grammar :=
    parsePattern_of_lists limit cut opens sign lists closes named
  constructor
  · rintro ⟨place, fault, failed, message, -⟩
    by_contra small
    rcases Nat.eq_zero_or_pos members.size with empty | inhabited
    · rw [parsed, OpenClass.close_of_empty (c := whole) empty] at failed
      cases failed
      have wrong : "Empty character class" = "Character class too large" := message
      exact absurd wrong (by decide)
    · have sized : Sized whole.settled := ⟨inhabited, Nat.not_lt.mp small⟩
      rw [parsed, OpenClass.close_eq_ok.mpr ⟨sized, rfl⟩] at failed
      cases failed
  · intro large
    rw [OpenClass.close_of_large (c := whole) large] at parsed
    exact ⟨_, _, parsed, rfl, rfl⟩

/-- A range that does not go across the surrogates names all that it spans. -/
theorem rangeSpan_le_size (named : NamedBy members items) (listing : .range first last ∈ items)
    (ordered : first ≤ last) (apart : ¬SpansSurrogates first last) :
    rangeSpan first last ≤ members.size := by
  let range : CharSet := CharSet.insertRange ∅ first last
  have between (c : Char) : c ∈ range ↔ first ≤ c ∧ c ≤ last := by
    simp [range, CharSet.mem_insertRange]
  rw [← size_of_range ordered between, if_neg apart, Nat.add_zero]
  exact CharSet.size_le_size fun c member => (named c).mpr ⟨_, listing, (between c).mp member⟩

/-- A class whose ranges are in order is refused as too large if it has too many members, or if a
range spans too many numbers. The two come to the same unless a range goes across the numbers of the
surrogates. -/
theorem classTooLarge_iff (limit : UInt32)
    (cut : Token.scan pattern = .ok (opening :: (body ++ [closing])))
    (opens : opening.kind = .leftBracket) (closes : closing.kind = .rightBracket)
    (inside : ∀ t ∈ body, t.kind ≠ .rightBracket)
    (ordered : ∀ first last, .range first last ∈ listed body → first ≤ last) :
    ∃ members : CharSet, (∀ c, c ∈ members ↔ ∃ item ∈ listed body, item.Names c) ∧
      ((∃ place, FailsWith limit pattern "Character class too large" place) ↔
        maxClassSize < members.size ∨
          ∃ first last, .range first last ∈ listed body ∧
            maxClassSize < rangeSpan first last) ∧
      ((∀ first last, .range first last ∈ listed body → ¬SpansSurrogates first last) →
        ((∃ place, FailsWith limit pattern "Character class too large" place) ↔
          maxClassSize < members.size)) := by
  obtain ⟨members, named⟩ := exists_namedBy (listed body)
  obtain ⟨negated, us, ts, rfl, sign, inClass⟩ := exists_sign_of_scan cut opens inside
  rw [sign.listed_append] at ordered named ⊢
  have fails : (∃ place, FailsWith limit pattern "Character class too large" place) ↔
      maxClassSize < members.size ∨
        ∃ first last, .range first last ∈ listed ts ∧ maxClassSize < rangeSpan first last := by
    by_cases large : ∃ first last, .range first last ∈ listed ts ∧
        maxClassSize < rangeSpan first last
    · obtain ⟨begins, ends, refused⟩ :=
        parsePattern_of_largeRange limit cut opens sign inClass ordered large
      exact iff_of_true ⟨_, _, refused, rfl, rfl⟩ (.inr large)
    · have lists : Lists ts (listed ts) := lists_listed inClass fun first last member =>
        ⟨ordered first last member, Nat.not_lt.mp fun tooLarge => large ⟨_, _, member, tooLarge⟩⟩
      rw [failsWith_iff_of_lists cut opens sign lists closes named, or_iff_left large]
  refine ⟨members, named, fails, fun apart => fails.trans (or_iff_left_of_imp ?_)⟩
  rintro ⟨first, last, member, large⟩
  exact Nat.lt_of_lt_of_le large
    (rangeSpan_le_size named member (ordered first last member) (apart first last member))

/-- `[a-cb-d]` names four characters, two of them twice, and is not too large. -/
theorem classTooLarge_iff_of_overlap :
    let body : List Token := [⟨.char, 'a', 1⟩, ⟨.dash, '-', 2⟩, ⟨.char, 'c', 3⟩, ⟨.char, 'b', 4⟩,
      ⟨.dash, '-', 5⟩, ⟨.char, 'd', 6⟩]
    Token.scan "[a-cb-d]" = .ok (⟨.leftBracket, '[', 0⟩ :: (body ++ [⟨.rightBracket, ']', 7⟩])) ∧
      (∀ t ∈ body, t.kind ≠ .rightBracket) ∧
      (∀ first last, .range first last ∈ listed body → first ≤ last) ∧
      ¬∃ place, FailsWith 0 "[a-cb-d]" "Character class too large" place := by
  intro body
  have cut : Token.scan "[a-cb-d]" =
      .ok (⟨.leftBracket, '[', 0⟩ :: (body ++ [⟨.rightBracket, ']', 7⟩])) := rfl
  have inside : ∀ t ∈ body, t.kind ≠ .rightBracket := by decide
  have items : listed body = [.range 'a' 'c', .range 'b' 'd'] := rfl
  have ranges (first last : Char) (member : .range first last ∈ listed body) :
      first = 'a' ∧ last = 'c' ∨ first = 'b' ∧ last = 'd' := by simpa [items] using member
  have ordered (first last : Char) (member : .range first last ∈ listed body) :
      first ≤ last := by
    rcases ranges first last member with ⟨rfl, rfl⟩ | ⟨rfl, rfl⟩ <;> decide
  have apart (first last : Char) (member : .range first last ∈ listed body) :
      ¬SpansSurrogates first last := by
    rcases ranges first last member with ⟨rfl, rfl⟩ | ⟨rfl, rfl⟩ <;> decide
  obtain ⟨members, named, -, fails⟩ := classTooLarge_iff 0 cut rfl rfl inside ordered
  refine ⟨cut, inside, ordered, fun refused => ?_⟩
  have large := (fails apart).mp refused
  have few : members.size ≤ rangeSpan 'a' 'd' := by
    refine size_le_rangeSpan fun c member => ?_
    obtain ⟨item, member, names⟩ := (named c).mp member
    rw [items, List.mem_cons, List.mem_singleton] at member
    rcases member with rfl | rfl
    · exact ⟨names.1, Char.le_trans names.2 (by decide)⟩
    · exact ⟨Char.le_trans (by decide) names.1, names.2⟩
  exact absurd large (Nat.not_lt.mpr (Nat.le_trans few (by decide)))

/-- The range from `Ā` to `𐄀` spans 65,537 numbers, 2,048 of them those of surrogates, and is
refused, although it names no more than 63,489 characters. -/
theorem classTooLarge_of_surrogates :
    FailsWith 0 "[Ā-𐄀]" "Character class too large" 1 ∧
      ∃ members : CharSet, (∀ c, c ∈ members ↔ 'Ā' ≤ c ∧ c ≤ '𐄀') ∧
        members.size = 63489 ∧ members.size ≤ maxClassSize := by
  let members : CharSet := CharSet.insertRange ∅ 'Ā' '𐄀'
  have between (c : Char) : c ∈ members ↔ 'Ā' ≤ c ∧ c ≤ '𐄀' := by
    simp [members, CharSet.mem_insertRange]
  have span := size_of_range (by decide) between
  have size : members.size = 63489 := by
    rw [if_pos (by decide)] at span
    exact Nat.add_right_cancel span
  exact ⟨⟨_, rfl, rfl, rfl⟩, members, between, size, by rw [size]; decide⟩

end Patterns

end FullMatch
