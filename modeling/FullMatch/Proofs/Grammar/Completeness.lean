import FullMatch.Proofs.Grammar.Nesting
import FullMatch.Proofs.Grammar.Step

/-!
# What derives is read

Behind a phrase of the grammar the reader stands where the phrase leads: a base is in focus, a
factor has joined the branch in progress, and the level of an expression closes to it
(`Derives.isRead`). So tokens that derive an expression, with groups no deeper than allowed, are
read as that expression (`read_of_derives`).
-/

namespace FullMatch.Grammar

open Token (deepest nesting)

namespace Reader

variable {limit : UInt32} {r r' : Reader} {groups : List Group} {level : Level} {t : Token}
  {ts us : List Token} {e : Expr}

/-- The reader with a base in focus taken as a factor. -/
def settled (r : Reader) : Reader :=
  match r.focus with
  | .base e => r.push e
  | _ => r

/-- The reader stands between two factors, and has read `groups` and `level` once a base in focus is
taken as a factor. -/
def SettlesTo (r : Reader) (groups : List Group) (level : Level) : Prop :=
  r.settled = ⟨groups, level, .ready⟩

theorem SettlesTo.ready (groups : List Group) (level : Level) :
    SettlesTo ⟨groups, level, .ready⟩ groups level :=
  rfl

theorem SettlesTo.base (groups : List Group) (level : Level) (e : Expr) :
    SettlesTo ⟨groups, level, .base e⟩ groups (level.push e) :=
  rfl

theorem SettlesTo.cases (settles : r.SettlesTo groups level) :
    r = ⟨groups, level, .ready⟩ ∨
      ∃ level' e, r = ⟨groups, level', .base e⟩ ∧ level'.push e = level := by
  obtain ⟨groups', level', focus⟩ := r
  rw [SettlesTo] at settles
  cases focus with
  | ready => exact .inl settles
  | base e =>
    cases settles
    exact .inr ⟨level', e, rfl, rfl⟩
  | bounds opened e counting => cases settles
  | inClass c => cases settles

/-- A token that repeats nothing begins a factor or ends the branch, whether or not a base is in
focus. -/
theorem SettlesTo.step (settles : r.SettlesTo groups level) (begins : isRepetition t.kind = false) :
    r.step limit t = Reader.base ⟨groups, level, .ready⟩ t := by
  rcases settles.cases with rfl | ⟨level', e, rfl, rfl⟩
  · rfl
  · exact step_of_not_isRepetition begins

theorem SettlesTo.feed_cons (settles : r.SettlesTo groups level)
    (begins : isRepetition t.kind = false)
    (based : Reader.base ⟨groups, level, .ready⟩ t = .ok r') :
    r.feed limit (t :: ts) = r'.feed limit ts :=
  feed_of_step ((settles.step begins).trans based)

theorem SettlesTo.finish (settles : r.SettlesTo groups level) :
    r.finish = Reader.close ⟨groups, level, .ready⟩ := by
  rcases settles.cases with rfl | ⟨level', e, rfl, rfl⟩
  · rfl
  · rfl

end Reader

variable {limit : UInt32} {r r' : Reader} {groups : List Group} {level : Level} {t : Token}
  {ts us : List Token} {e : Expr} {opened n : Nat}

section Counts

theorem le_ofDigitChars (digits : List Char) (n : Nat) : n ≤ Nat.ofDigitChars 10 digits n := by
  induction digits generalizing n with
  | nil => exact Nat.le_refl n
  | cons c digits ih =>
    rw [Nat.ofDigitChars_cons]
    exact Nat.le_trans (by omega) (ih _)

/-- Digits are read as the number that they write together. If it is too large, the place of its
first digit is reported, whatever stands behind the digit that makes it so. -/
theorem feed_number {start : Nat} (counting : Counting)
    (digits : ∀ u ∈ t :: ts, u.kind = .number ∧ u.value.isDigit = true)
    (begins : (counting.current.map Count.start).getD t.position = start)
    (value : Nat.ofDigitChars 10 ((t :: ts).map Token.value) (Count.valueOf counting.current) =
      n) :
    Reader.feed limit ⟨groups, level, .bounds opened e counting⟩ (t :: ts) =
      if n ≤ maxNumber then
        .ok ⟨groups, level, .bounds opened e (counting.withCurrent ⟨start, n⟩)⟩
      else .error (.numberTooLarge start) := by
  induction ts generalizing t counting with
  | nil =>
    obtain ⟨⟨number, digit⟩, -⟩ := List.forall_mem_cons.mp digits
    rw [Reader.feed, Reader.step_number number, Count.push_eq digit begins value]
    by_cases counted : n ≤ maxNumber
    · rw [if_pos counted, if_pos counted]
      rfl
    · rw [if_neg counted, if_neg counted]
      rfl
  | cons u ts ih =>
    obtain ⟨⟨number, digit⟩, digits⟩ := List.forall_mem_cons.mp digits
    rw [List.map_cons, Nat.ofDigitChars_cons] at value
    rw [Reader.feed, Reader.step_number number, Count.push_eq digit begins rfl]
    by_cases counted : Nat.ofDigitChars 10 [t.value] (Count.valueOf counting.current) ≤ maxNumber
    · rw [if_pos counted]
      have rest := @ih u (counting.withCurrent
        ⟨start, Nat.ofDigitChars 10 [t.value] (Count.valueOf counting.current)⟩) digits
      rw [Counting.current_withCurrent, Counting.withCurrent_withCurrent] at rest
      exact rest rfl value
    · -- A number that is too large already does not get smaller by the digits behind.
      have large : ¬n ≤ maxNumber := fun small =>
        counted (Nat.le_trans (le_ofDigitChars _ _) (Nat.le_trans (Nat.le_of_eq value) small))
      rw [if_neg counted, if_neg large]
      rfl

/-- A number is read where none has been begun. -/
theorem IsNumber.feed (number : IsNumber ts n) (faithful : ∀ t ∈ ts, t.Faithful)
    (counting : Counting) (fresh : counting.current = none) :
    ∃ start, Reader.feed limit ⟨groups, level, .bounds opened e counting⟩ ts =
      .ok ⟨groups, level, .bounds opened e (counting.withCurrent ⟨start, n⟩)⟩ := by
  obtain ⟨t, rest, rfl⟩ := List.exists_cons_of_ne_nil number.nonempty
  have digits (u : Token) (member : u ∈ t :: rest) : u.kind = .number ∧ u.value.isDigit = true :=
    ⟨number.digits u member, (faithful u member).number (number.digits u member)⟩
  have value : Nat.ofDigitChars 10 ((t :: rest).map Token.value) (Count.valueOf counting.current) =
      n := by
    rw [fresh, number.value]
    rfl
  refine ⟨t.position, ?_⟩
  have begins : (counting.current.map Count.start).getD t.position = t.position := by
    rw [fresh]
    rfl
  rw [feed_number counting digits begins value, if_pos number.counted]

/-- What stands between the braces of a repetition count is read as its bounds. -/
theorem IsBounds.feed {b : Bounds} {least : Nat} {most : Option Nat}
    (bounds : IsBounds ts least most) (faithful : ∀ t ∈ ts, t.Faithful)
    (ends : b.least = least ∧ b.most = most) (closes : t.kind = .rightBrace)
    (allowed : b.largest ≤ limit.toNat) :
    Reader.feed limit ⟨groups, level, .bounds opened e (.least none)⟩ (ts ++ [t]) =
      .ok ⟨groups, level.push (.counted e b), .ready⟩ := by
  have closed (r : Reader) :
      r.closeBounds limit opened e least most = .ok (r.push (.counted e b)) :=
    Reader.closeBounds_eq_ok.mpr ⟨b, ends.1, ends.2, allowed, rfl⟩
  cases bounds with
  | exactly number =>
    obtain ⟨start, fed⟩ := number.feed faithful (.least none) rfl
    rw [Reader.feed_append_of_feed fed]
    exact Reader.feed_of_step ((Reader.step_rightBrace closes rfl).trans (closed _))
  | atLeast number separates =>
    obtain ⟨faithful, -⟩ := List.forall_mem_append.mp faithful
    obtain ⟨start, fed⟩ := number.feed faithful (.least none) rfl
    rw [List.append_assoc, Reader.feed_append_of_feed fed, List.singleton_append]
    refine (Reader.feed_of_step (Reader.step_comma separates)).trans ?_
    exact Reader.feed_of_step ((Reader.step_rightBrace closes rfl).trans (closed _))
  | between first separates second =>
    obtain ⟨faithful, faithful'⟩ := List.forall_mem_append.mp faithful
    obtain ⟨-, faithful'⟩ := List.forall_mem_cons.mp faithful'
    obtain ⟨start, fed⟩ := first.feed faithful (.least none) rfl
    rw [List.append_assoc, Reader.feed_append_of_feed fed, List.cons_append]
    refine (Reader.feed_of_step (Reader.step_comma separates)).trans ?_
    obtain ⟨start', fed'⟩ := second.feed faithful' (.most least none) rfl
    rw [Reader.feed_append_of_feed fed']
    exact Reader.feed_of_step ((Reader.step_rightBrace closes rfl).trans (closed _))

end Counts

section Classes

variable {c : OpenClass} {items : List Item} {k : CharClass}

/-- A class that has grown by the characters that items name. -/
structure OpenClass.GrowsBy (c c' : OpenClass) (items : List Item) : Prop where
  opened : c'.opened = c.opened
  negated : c'.negated = c.negated
  mem_settled : ∀ d, d ∈ c'.settled ↔ d ∈ c.settled ∨ ∃ item ∈ items, item.Names d

namespace OpenClass.GrowsBy

theorem refl (c : OpenClass) : c.GrowsBy c [] where
  opened := rfl
  negated := rfl
  mem_settled d := by simp

theorem cons {c' c'' : OpenClass} {item : Item} (first : c.GrowsBy c' [item])
    (rest : c'.GrowsBy c'' items) : c.GrowsBy c'' (item :: items) where
  opened := rest.opened.trans first.opened
  negated := rest.negated.trans first.negated
  mem_settled d := by
    rw [rest.mem_settled, first.mem_settled]
    simp [or_assoc]

/-- A class with other members, of which none waits for a range. -/
theorem of_members {members : CharSet} {item : Item}
    (grown : ∀ d, d ∈ members ↔ d ∈ c.settled ∨ item.Names d) :
    c.GrowsBy { c with members := members, pending := .nothing } [item] where
  opened := rfl
  negated := rfl
  mem_settled d := by
    show d ∈ members ↔ _
    rw [grown]
    simp

end OpenClass.GrowsBy

/-- A literal does not leave alone a dash that waits for one. -/
theorem Pending.LeftAlone.ne_dash {pending : Pending} (alone : pending.LeftAlone (t :: ts))
    (literal : t.isLiteral = true) (first : Token) : pending ≠ .dash first := by
  rintro rfl
  have other := alone t rfl
  rw [literal] at other
  cases other

/-- A literal that begins no range is a member. -/
theorem push_literal_growsBy (c : OpenClass) (t : Token) :
    c.GrowsBy { c with members := c.settled, pending := .literal t } [.literal t.value] where
  opened := rfl
  negated := rfl
  mem_settled d := by
    show d ∈ c.settled.insert t.value ↔ _
    rw [mem_insert_literal]
    simp

/-- A dash that is an item of its own is a member, whether or not a literal stands in front. -/
theorem push_dash_growsBy (dash : t.kind = .dash) (alone : c.pending.LeftAlone (t :: ts)) :
    ∃ c', c.push t = .ok c' ∧ c.GrowsBy c' [.dash] ∧ c'.pending.LeftAlone ts := by
  by_cases waiting : ∃ first, c.pending = .literal first
  · obtain ⟨first, pending⟩ := waiting
    refine ⟨_, OpenClass.push_dash_of_literal dash pending, ⟨rfl, rfl, fun d => ?_⟩, ?_⟩
    · have settled : c.settled = c.members.insert first.value := by
        rw [OpenClass.settled, pending]
      show d ∈ (c.members.insert first.value).insert '-' ↔ _
      rw [mem_insert_literal, settled]
      simp [Item.Names]
    · rw [pending] at alone
      show ∀ u ∈ ts.head?, u.isLiteral = false
      intro last next
      cases ts with
      | nil => cases next
      | cons u ts =>
        obtain rfl := Option.some.inj next
        exact Bool.eq_false_iff.mpr fun literal => alone ⟨dash, literal⟩
  · exact ⟨_, OpenClass.push_dash dash (not_exists.mp waiting),
      .of_members fun d => mem_insert_literal, trivial⟩

/-- The class behind tokens that list items. -/
def OpenClass.Goes (limit : UInt32) (groups : List Group) (level : Level) (c : OpenClass)
    (ts : List Token) (items : List Item) : Prop :=
  ∃ c', Reader.feed limit ⟨groups, level, .inClass c⟩ ts = .ok ⟨groups, level, .inClass c'⟩ ∧
    c.GrowsBy c' items

/-- An item of one token, and then the others. -/
theorem OpenClass.Goes.cons {c' : OpenClass} {item : Item} (pushed : c.push t = .ok c')
    (first : c.GrowsBy c' [item]) (rest : c'.Goes limit groups level ts items) :
    c.Goes limit groups level (t :: ts) (item :: items) := by
  obtain ⟨c'', fed, grows⟩ := rest
  exact ⟨c'', (Reader.feed_of_step (Reader.step_inClass pushed)).trans fed, first.cons grows⟩

/-- The three tokens of a range are read as the range. -/
theorem feed_range {first dash last : Token} (literal : first.isLiteral = true)
    (completes : CompletesRange (dash :: last :: ts))
    (alone : c.pending.LeftAlone (first :: dash :: last :: ts)) :
    Reader.feed limit ⟨groups, level, .inClass c⟩ (first :: dash :: last :: ts) =
      (OpenClass.insertRange ⟨c.opened, c.negated, c.settled, .dash first⟩ first last).bind
        fun c' => Reader.feed limit ⟨groups, level, .inClass c'⟩ ts := by
  have inside : last.kind ≠ .rightBracket := by
    intro closes
    cases (Token.isLiteral_eq_false closes nofun nofun).symm.trans completes.2
  have pushed := OpenClass.push_literal literal (alone.ne_dash literal)
  rw [Reader.feed_of_step (Reader.step_inClass pushed), Reader.feed_of_step
    (Reader.step_inClass (OpenClass.push_dash_of_literal completes.1 rfl)), Reader.feed,
    Reader.step_inside inside, OpenClass.push_last completes.2 rfl]
  cases OpenClass.insertRange ⟨c.opened, c.negated, c.settled, .dash first⟩ first last <;> rfl

/-- Items are read as what they name. -/
theorem Lists.feed (lists : Lists ts items) (alone : c.pending.LeftAlone ts) :
    c.Goes limit groups level ts items := by
  induction lists generalizing c with
  | nil => exact ⟨c, rfl, .refl c⟩
  | literal literal alone' _ ih =>
    exact .cons (OpenClass.push_literal literal (alone.ne_dash literal))
      (push_literal_growsBy c _) (ih alone')
  | @range first dash last ts items literal completes ordered small _ ih =>
    let ended : OpenClass :=
      ⟨c.opened, c.negated, c.settled.insertRange first.value last.value, .nothing⟩
    have grows : c.GrowsBy ended [.range first.value last.value] :=
      .of_members fun d => CharSet.mem_insertRange
    obtain ⟨c', fed, rest⟩ := ih (c := ended) trivial
    refine ⟨c', ?_, grows.cons rest⟩
    rw [feed_range literal completes alone, OpenClass.insertRange_eq_ok.mpr ⟨ordered, small, rfl⟩]
    exact fed
  | dash dash _ ih =>
    obtain ⟨c', pushed, grows, alone'⟩ := push_dash_growsBy dash alone
    exact .cons pushed grows (ih alone')
  | word word _ ih =>
    exact .cons (OpenClass.push_word word) (.of_members fun d => mem_union_word) (ih trivial)
  | digit digit _ ih =>
    exact .cons (OpenClass.push_digit digit) (.of_members fun d => mem_union_digit) (ih trivial)

/-- A class that has grown by items alone is closed as the class that they list. -/
theorem OpenClass.Goes.close {members : CharSet} (goes : c.Goes limit groups level ts items)
    (fresh : c.settled = ∅) (named : NamedBy members items) (sized : Sized members)
    (closes : t.kind = .rightBracket) :
    Reader.feed limit ⟨groups, level, .inClass c⟩ (ts ++ [t]) =
      .ok ⟨groups, level, .base (.atom (.charClass ⟨members, c.negated⟩))⟩ := by
  obtain ⟨c', fed, grows⟩ := goes
  have settled : c'.settled = members := by
    refine Std.ExtTreeSet.ext_mem fun d => ?_
    rw [grows.mem_settled, fresh, named]
    simp
  have closed : c'.close = .ok ⟨members, c.negated⟩ := by
    rw [OpenClass.close_eq_ok, settled, grows.negated]
    exact ⟨sized, rfl⟩
  rw [Reader.feed_append_of_feed fed]
  apply Reader.feed_of_step
  rw [Reader.step_rightBracket closes, closed]
  rfl

/-- What stands between the brackets of a class is read as the class. -/
theorem IsClass.feed (isClass : IsClass ts k) (closes : t.kind = .rightBracket) :
    Reader.feed limit ⟨groups, level, .inClass (.start opened)⟩ (ts ++ [t]) =
      .ok ⟨groups, level, .base (.atom (.charClass k))⟩ := by
  cases isClass with
  | plain lists named sized =>
    have goes : OpenClass.Goes limit groups level (.start opened) ts _ := lists.feed trivial
    exact goes.close rfl named sized closes
  | negated negates lists named sized =>
    let negative : OpenClass := ⟨opened, true, ∅, .nothing⟩
    have goes : OpenClass.Goes limit groups level negative _ _ := lists.feed trivial
    rw [List.cons_append,
      Reader.feed_of_step (Reader.step_inClass (OpenClass.push_caret negates rfl))]
    exact goes.close rfl named sized closes

end Classes

/-- What reading a phrase comes to, by its category. -/
def IsRead (limit : UInt32) (c : Category) (ts : List Token) (e : Expr) : Prop :=
  ∀ {r : Reader} {groups : List Group} {level : Level}, r.SettlesTo groups level →
    deepest groups.length ts ≤ maxDepth →
    match c with
    | .expression => level = .start → ∃ r' level', r.feed limit ts = .ok r' ∧
        r'.SettlesTo groups level' ∧ level'.close = e
    | .term => level.term = none → ∃ r' term, r.feed limit ts = .ok r' ∧
        r'.SettlesTo groups ⟨level.branches, term⟩ ∧ term.getD .empty = e
    | .factors => level.term = none → ∃ r', r.feed limit ts = .ok r' ∧
        r'.SettlesTo groups ⟨level.branches, some e⟩
    | .factor => ∃ r', r.feed limit ts = .ok r' ∧ r'.SettlesTo groups (level.push e)
    | .base => r.feed limit ts = .ok ⟨groups, level, .base e⟩

/-- A phrase is read as what it denotes. -/
theorem Derives.isRead {c : Category} (derives : Derives limit c ts e)
    (faithful : ∀ t ∈ ts, t.Faithful) : IsRead limit c ts e := by
  -- Each part of a phrase is read from where the part in front of it settles; that a part closes
  -- all the groups it opens keeps the bound on the depth for the parts behind it.
  induction derives with
  | branch _ ih =>
    rintro r groups level settles depth rfl
    obtain ⟨r', term, fed, settles', rfl⟩ := ih faithful settles depth rfl
    exact ⟨r', _, fed, settles', rfl⟩
  | alternate left separates _ ihl ihr =>
    obtain ⟨faithful, faithful'⟩ := List.forall_mem_append.mp faithful
    obtain ⟨-, faithful'⟩ := List.forall_mem_cons.mp faithful'
    intro r groups level settles depth fresh
    rw [Token.deepest_append, left.balanced, deepest, opensTo_of_kind separates rfl,
      Nat.max_le, Nat.max_le] at depth
    obtain ⟨r₁, level₁, fed, settles₁, rfl⟩ := ihl faithful settles depth.1 fresh
    obtain ⟨r', term, fed', settles', rfl⟩ :=
      ihr faithful' (.ready groups level₁.branch) depth.2.2 rfl
    refine ⟨r', _, ?_, settles', rfl⟩
    rw [Reader.feed_append_of_feed fed,
      settles₁.feed_cons (separates ▸ rfl) (Reader.base_pipe separates), fed']
  | empty =>
    intro r groups level settles depth fresh
    refine ⟨r, none, rfl, ?_, rfl⟩
    rw [← fresh]
    exact settles
  | nonempty _ ih =>
    intro r groups level settles depth fresh
    obtain ⟨r', fed, settles'⟩ := ih faithful settles depth fresh
    exact ⟨r', _, fed, settles', rfl⟩
  | single _ ih =>
    intro r groups level settles depth fresh
    obtain ⟨r', fed, settles'⟩ := ih faithful settles depth
    refine ⟨r', fed, ?_⟩
    rw [Level.push, fresh] at settles'
    exact settles'
  | concat left _ ihl ihr =>
    obtain ⟨faithful, faithful'⟩ := List.forall_mem_append.mp faithful
    intro r groups level settles depth fresh
    rw [Token.deepest_append, left.balanced, Nat.max_le] at depth
    obtain ⟨r₁, fed, settles₁⟩ := ihl faithful settles depth.1 fresh
    obtain ⟨r', fed', settles'⟩ := ihr faithful' settles₁ depth.2
    refine ⟨r', ?_, settles'⟩
    rw [Reader.feed_append_of_feed fed, fed']
  | bare _ ih =>
    intro r groups level settles depth
    exact ⟨_, ih faithful settles depth, .base groups level _⟩
  | repeated base repeats ih =>
    obtain ⟨faithful, own⟩ := List.forall_mem_append.mp faithful
    intro r groups level settles depth
    rw [Token.deepest_append, Nat.max_le] at depth
    refine ⟨_, ?_, .ready groups _⟩
    rw [Reader.feed_append_of_feed (ih faithful settles depth.1)]
    exact Reader.feed_of_step
      (Reader.step_operator repeats ((own _ List.mem_cons_self).operator _ repeats))
  | counted _ opens bounds closes allowed ih =>
    obtain ⟨faithful, faithful'⟩ := List.forall_mem_append.mp faithful
    obtain ⟨-, faithful'⟩ := List.forall_mem_cons.mp faithful'
    obtain ⟨faithful', -⟩ := List.forall_mem_append.mp faithful'
    intro r groups level settles depth
    rw [Token.deepest_append, Nat.max_le] at depth
    refine ⟨_, ?_, .ready groups _⟩
    rw [Reader.feed_append_of_feed (ih faithful settles depth.1),
      Reader.feed_of_step (Reader.step_leftBrace opens)]
    exact bounds.feed faithful' ⟨rfl, rfl⟩ closes allowed
  | @literal t literal =>
    intro r groups level settles depth
    have begins : isRepetition t.kind = false := by
      rcases Token.isLiteral_iff.mp literal with kind | kind
      · exact kind ▸ rfl
      · exact kind ▸ rfl
    exact settles.feed_cons begins (Reader.base_literal literal)
  | anyChar kind =>
    intro r groups level settles depth
    exact settles.feed_cons (kind ▸ rfl) (Reader.base_dot kind)
  | wordChar kind =>
    intro r groups level settles depth
    exact settles.feed_cons (kind ▸ rfl) (Reader.base_word kind)
  | digit kind =>
    intro r groups level settles depth
    exact settles.feed_cons (kind ▸ rfl) (Reader.base_digit kind)
  | @group opening ts closing e opens inner closes ih =>
    obtain ⟨-, faithful⟩ := List.forall_mem_cons.mp faithful
    obtain ⟨faithful, -⟩ := List.forall_mem_append.mp faithful
    intro r groups level settles depth
    rw [deepest, Token.opensTo_leftParen opens, Token.deepest_append, Nat.max_le, Nat.max_le]
      at depth
    -- `deepest` counts the group that the parenthesis opens, so there is room for it.
    have room : groups.length < maxDepth :=
      Nat.lt_of_succ_le (Nat.le_trans (Token.le_deepest _ ts) depth.2.1)
    obtain ⟨r', level', fed, settles', rfl⟩ :=
      ih faithful (.ready (⟨opening.position, level⟩ :: groups) .start) depth.2.1 rfl
    rw [settles.feed_cons (opens ▸ rfl) (Reader.base_leftParen opens room),
      Reader.feed_append_of_feed fed,
      settles'.feed_cons (closes ▸ rfl) (Reader.base_rightParen closes)]
    rfl
  | charClass opens inner closes =>
    intro r groups level settles depth
    rw [settles.feed_cons (opens ▸ rfl) (Reader.base_leftBracket opens)]
    exact inner.feed closes

/-- Tokens that derive an expression, with groups no deeper than allowed, are read as it. -/
theorem read_of_derives (derives : Derives limit .expression ts e)
    (faithful : ∀ t ∈ ts, t.Faithful) (depth : nesting ts ≤ maxDepth) : read limit ts = .ok e := by
  obtain ⟨r, level, fed, settles, rfl⟩ := derives.isRead faithful (.ready [] .start) depth rfl
  rw [read, Reader.start, fed]
  show r.finish = _
  rw [settles.finish]
  rfl

end FullMatch.Grammar
