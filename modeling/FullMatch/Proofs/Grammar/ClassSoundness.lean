import FullMatch.Proofs.Grammar.Step

/-!
# Classes that are read

Inside brackets the tokens read so far list items that name the members, but for a literal, or a
literal and a dash, that wait for a range (`OpenClass.ReadsBody`). What the tokens list is said for
whatever comes behind them, so the tokens that wait may still turn into a range. A class that is
closed is then what its tokens list (`OpenClass.Reads.close`).
-/

namespace FullMatch.Grammar

variable {t : Token} {us ts : List Token}

/-- The tokens are those that wait for a range. -/
def Pending.Holds : Pending → List Token → Prop
  | opening, ts | nothing, ts => ts = []
  | literal first, ts => ts = [first] ∧ first.isLiteral = true
  | dash first, ts => ∃ t, ts = [first, t] ∧ first.isLiteral = true ∧ t.kind = .dash

/-- What the tokens that wait list if no range comes. -/
def Pending.items : Pending → List Item
  | opening | nothing => []
  | literal first => [.literal first.value]
  | dash first => [.literal first.value, .dash]

variable {c c' : OpenClass} {items later : List Item} {item : Item} {pending : Pending}
  {held body : List Token} {members members' : CharSet}

/-- Left alone, the tokens that wait are items of their own. -/
theorem Pending.Holds.lists (holds : pending.Holds held) (alone : pending.LeftAlone us)
    (lists : Lists us later) : Lists (held ++ us) (pending.items ++ later) := by
  cases pending with
  | opening | nothing =>
    obtain rfl := holds
    exact lists
  | literal first =>
    obtain ⟨rfl, literal⟩ := holds
    exact .literal literal alone lists
  | dash first =>
    obtain ⟨t, rfl, literal, dash⟩ := holds
    refine .literal literal ?_ (.dash dash lists)
    cases us with
    | nil => exact id
    | cons last us =>
      rintro ⟨-, literal'⟩
      rw [alone last rfl] at literal'
      cases literal'

theorem NamedBy.snoc (named : NamedBy members items)
    (grown : ∀ d, d ∈ members' ↔ d ∈ members ∨ item.Names d) :
    NamedBy members' (items ++ [item]) := by
  intro d
  rw [grown, named d]
  simp only [List.mem_append, List.mem_singleton]
  constructor
  · rintro (⟨earlier, member, names⟩ | names)
    · exact ⟨earlier, .inl member, names⟩
    · exact ⟨item, .inr rfl, names⟩
  · rintro ⟨earlier, member | rfl, names⟩
    · exact .inl ⟨earlier, member, names⟩
    · exact .inr names

/-- The members settled are named by the items so far and the tokens that wait. -/
theorem NamedBy.settled (named : NamedBy c.members items) :
    NamedBy c.settled (items ++ c.pending.items) := by
  rw [OpenClass.settled]
  cases c.pending with
  | opening | nothing =>
    rw [Pending.items, List.append_nil]
    exact named
  | literal first => exact named.snoc fun _ => mem_insert_literal
  | dash first =>
    have literal : NamedBy (c.members.insert first.value) (items ++ [.literal first.value]) :=
      named.snoc fun _ => mem_insert_literal
    have both : NamedBy ((c.members.insert first.value).insert '-')
        (items ++ [.literal first.value] ++ [.dash]) := literal.snoc fun _ => mem_insert_literal
    rwa [List.append_assoc] at both

/-- The tokens list items, but for some that wait for a range, whatever comes behind them. -/
structure OpenClass.ReadsBody (c : OpenClass) (body : List Token) (items : List Item)
    (held : List Token) : Prop where
  holds : c.pending.Holds held
  named : NamedBy c.members items
  lists : ∀ us later, Lists (held ++ us) later → Lists (body ++ us) (items ++ later)

namespace OpenClass.ReadsBody

theorem start (opened : Nat) (negated : Bool) (pending : Pending)
    (holds : pending.Holds []) : ReadsBody ⟨opened, negated, ∅, pending⟩ [] [] [] where
  holds := holds
  named d := by simp
  lists us later lists := lists

/-- What has been read lists items, once the tokens that wait are left alone. -/
theorem listsSettled (reads : c.ReadsBody body items held) (alone : c.pending.LeftAlone us)
    (lists : Lists us later) : Lists (body ++ us) (items ++ (c.pending.items ++ later)) :=
  reads.lists us _ (reads.holds.lists alone lists)

/-- A token that is an item of its own settles the tokens that wait. -/
theorem push_item (item : Item) (reads : c.ReadsBody body items held)
    (alone : ∀ us, c.pending.LeftAlone (t :: us))
    (grown : ∀ d, d ∈ members ↔ d ∈ c.settled ∨ item.Names d)
    (lists : ∀ us later, Lists us later → Lists (t :: us) (item :: later)) :
    ReadsBody { c with members := members, pending := .nothing } (body ++ [t])
      (items ++ c.pending.items ++ [item]) [] where
  holds := rfl
  named := reads.named.settled.snoc grown
  lists us later rest := by
    have settled := reads.listsSettled (alone us) (lists us later rest)
    simpa using settled

/-- A range ends with the token behind the dash that waits. -/
theorem push_last {first : Token} (reads : c.ReadsBody body items held)
    (pending : c.pending = .dash first) (literal : t.isLiteral = true)
    (ordered : first.value ≤ t.value)
    (small : rangeSpan first.value t.value ≤ maxClassSize) :
    ReadsBody
      { c with
        members := c.members.insertRange first.value t.value
        pending := .nothing }
      (body ++ [t]) (items ++ [.range first.value t.value]) [] := by
  have holds := reads.holds
  rw [pending] at holds
  obtain ⟨dash, rfl, begins, kind⟩ := holds
  refine ⟨rfl, reads.named.snoc fun d => CharSet.mem_insertRange, fun us later rest => ?_⟩
  have range := reads.lists (t :: us) (.range first.value t.value :: later)
    (.range begins ⟨kind, literal⟩ ordered small rest)
  simpa using range

/-- A literal that ends no range waits for a range of its own. -/
theorem push_literal (reads : c.ReadsBody body items held)
    (noDash : ∀ first, c.pending ≠ .dash first) (literal : t.isLiteral = true) :
    ReadsBody { c with members := c.settled, pending := .literal t } (body ++ [t])
      (items ++ c.pending.items) [t] where
  holds := ⟨rfl, literal⟩
  named := reads.named.settled
  lists us later rest := by
    -- A literal behind a literal is no dash, so the first one begins no range.
    have alone : c.pending.LeftAlone (t :: us) := by
      cases pending : c.pending with
      | opening | nothing => trivial
      | literal first =>
        intro completes
        cases us with
        | nil => exact completes
        | cons last us =>
          rw [Token.isLiteral_eq_false completes.1 nofun nofun] at literal
          cases literal
      | dash first => exact absurd pending (noDash first)
    have settled := reads.listsSettled alone rest
    simpa using settled

/-- A dash behind a literal waits with it. -/
theorem push_dash {first : Token} (reads : c.ReadsBody body items held)
    (pending : c.pending = .literal first) (dash : t.kind = .dash) :
    ReadsBody { c with pending := .dash first } (body ++ [t]) items (held ++ [t]) where
  holds := by
    have holds := reads.holds
    rw [pending] at holds
    obtain ⟨rfl, literal⟩ := holds
    exact ⟨t, rfl, literal, dash⟩
  named := reads.named
  lists us later rest := by
    rw [List.append_assoc] at rest ⊢
    exact reads.lists (t :: us) later rest

/-- A token more is an item more, or it waits for a range. -/
theorem push (reads : c.ReadsBody body items held) (pushed : c.Pushed t c')
    (follows : t.kind ≠ .caret) :
    ∃ items' held', c'.ReadsBody (body ++ [t]) items' held' ∧ c'.negated = c.negated ∧
      c'.pending ≠ .opening := by
  cases pushed with
  | caret kind _ => exact absurd kind follows
  | literal literal noDash => exact ⟨_, _, reads.push_literal noDash literal, rfl, nofun⟩
  | range literal waits ordered small =>
    exact ⟨_, _, reads.push_last waits literal ordered small, rfl, nofun⟩
  | dashOfLiteral kind waits => exact ⟨_, _, reads.push_dash waits kind, rfl, nofun⟩
  | dash kind noLiteral =>
    have alone (us : List Token) : c.pending.LeftAlone (t :: us) := by
      cases pending : c.pending with
      | opening | nothing => trivial
      | literal first => exact absurd pending (noLiteral first)
      | dash first =>
        rintro u next
        obtain rfl := Option.some.inj next
        exact Token.isLiteral_eq_false kind nofun nofun
    exact ⟨_, _, reads.push_item .dash alone (fun d => mem_insert_literal)
      fun us later rest => .dash kind rest, rfl, nofun⟩
  | word kind =>
    have alone (us : List Token) : c.pending.LeftAlone (t :: us) :=
      Pending.leftAlone_cons (Token.isLiteral_eq_false kind nofun nofun) (kind ▸ nofun)
    exact ⟨_, _, reads.push_item .word alone (fun d => mem_union_word)
      fun us later rest => .word kind rest, rfl, nofun⟩
  | digit kind =>
    have alone (us : List Token) : c.pending.LeftAlone (t :: us) :=
      Pending.leftAlone_cons (Token.isLiteral_eq_false kind nofun nofun) (kind ▸ nofun)
    exact ⟨_, _, reads.push_item .digit alone (fun d => mem_union_digit)
      fun us later rest => .digit kind rest, rfl, nofun⟩

/-- A class that is closed lists what it has as members. -/
theorem close (reads : c.ReadsBody body items held) :
    Lists body (items ++ c.pending.items) ∧ NamedBy c.settled (items ++ c.pending.items) := by
  have lists := reads.listsSettled c.pending.leftAlone_nil .nil
  rw [List.append_nil, List.append_nil] at lists
  exact ⟨lists, reads.named.settled⟩

end OpenClass.ReadsBody

/-- The tokens are what has been read behind the opening bracket of a class. -/
inductive OpenClass.Reads : OpenClass → List Token → Prop where
  | start (opened : Nat) : Reads (.start opened) []
  | plain {c : OpenClass} {body held : List Token} {items : List Item}
      (reads : c.ReadsBody body items held) (begun : c.pending ≠ .opening)
      (positive : c.negated = false) : Reads c body
  | negated {c : OpenClass} {caret : Token} {body held : List Token} {items : List Item}
      (negates : caret.kind = .caret) (reads : c.ReadsBody body items held)
      (begun : c.pending ≠ .opening) (negative : c.negated = true) : Reads c (caret :: body)

/-- A caret is pushed only right behind the opening bracket. -/
theorem OpenClass.Pushed.of_caret (pushed : c.Pushed t c') (caret : t.kind = .caret) :
    c.pending = .opening ∧ c' = { c with negated := true, pending := .nothing } := by
  cases pushed with
  | caret _ fresh => exact ⟨fresh, rfl⟩
  | literal literal | range literal =>
    rw [Token.isLiteral_eq_false caret nofun nofun] at literal
    cases literal
  | dashOfLiteral kind | dash kind | word kind | digit kind => cases caret.symm.trans kind

theorem OpenClass.Reads.push (reads : c.Reads ts) (pushed : c.Pushed t c') :
    c'.Reads (ts ++ [t]) := by
  cases reads with
  | start opened =>
    by_cases caret : t.kind = .caret
    · obtain ⟨-, rfl⟩ := pushed.of_caret caret
      exact .negated caret (.start opened true .nothing rfl) nofun rfl
    · have reads := ReadsBody.start opened false .opening rfl
      obtain ⟨items, held, reads, positive, begun⟩ := reads.push pushed caret
      exact .plain reads begun positive
  | plain reads begun positive =>
    have noCaret : t.kind ≠ .caret := fun caret => begun (pushed.of_caret caret).1
    obtain ⟨items, held, reads, same, begun⟩ := reads.push pushed noCaret
    exact .plain reads begun (same.trans positive)
  | negated negates reads begun negative =>
    have noCaret : t.kind ≠ .caret := fun caret => begun (pushed.of_caret caret).1
    obtain ⟨items, held, reads, same, begun⟩ := reads.push pushed noCaret
    exact .negated negates reads begun (same.trans negative)

theorem OpenClass.Reads.close {k : CharClass} (reads : c.Reads ts) (closed : c.close = .ok k) :
    IsClass ts k := by
  obtain ⟨sized, rfl⟩ := OpenClass.close_eq_ok.mp closed
  cases reads with
  | start opened =>
    have reads := (ReadsBody.start opened false .opening rfl).close
    exact .plain reads.1 reads.2 sized
  | plain reads begun positive =>
    rw [positive]
    exact .plain reads.close.1 reads.close.2 sized
  | negated negates reads begun negative =>
    rw [negative]
    exact .negated negates reads.close.1 reads.close.2 sized

end FullMatch.Grammar
