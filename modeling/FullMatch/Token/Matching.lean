import FullMatch.Token.Nesting

/-!
# Parentheses and their partners

Tokens are balanced if each parenthesis in them has a partner, and a group is open behind tokens if
no closing parenthesis with balanced tokens in front of it follows the opening one (`OpenAt`). Read
from the front, tokens leave open a stack of groups, with balanced tokens between their opening
parentheses (`LeavesOpen`); these are the open ones, and no others (`openAt_append_iff`).
-/

namespace FullMatch.Token

/-- Tokens in which every parenthesis has a partner. -/
inductive Balanced : List Token → Prop where
  | nil : Balanced []
  | cons {t : Token} {ts : List Token} (other : t.kind.isParen = false) (rest : Balanced ts) :
      Balanced (t :: ts)
  | group {opening closing : Token} {ts us : List Token} (opens : opening.kind = .leftParen)
      (inner : Balanced ts) (closes : closing.kind = .rightParen) (rest : Balanced us) :
      Balanced (opening :: (ts ++ closing :: us))

/-- Tokens close a group that is opened right in front of them. -/
def CloseGroup (ts : List Token) : Prop :=
  ∃ inner closing rest, ts = inner ++ closing :: rest ∧ Balanced inner ∧
    closing.kind = .rightParen

/-- The token at a place opens a group that is not closed behind it. -/
def OpenAt (ts : List Token) (i : Nat) : Prop :=
  ∃ front opening back, ts = front ++ opening :: back ∧ front.length = i ∧
    opening.kind = .leftParen ∧ ¬CloseGroup back

/-- Tokens, and the opening parentheses of the groups that they leave open, the innermost first. -/
inductive LeavesOpen : List Token → List Token → Prop where
  | nil {ts : List Token} (balanced : Balanced ts) : LeavesOpen ts []
  | cons {opening : Token} {ts us openings : List Token} (outer : LeavesOpen ts openings)
      (opens : opening.kind = .leftParen) (inner : Balanced us) :
      LeavesOpen (ts ++ opening :: us) (opening :: openings)

variable {t opening : Token} {ts us front back openings : List Token} {i : Nat}

namespace Balanced

theorem append (first : Balanced ts) (second : Balanced us) : Balanced (ts ++ us) := by
  induction first with
  | nil => exact second
  | cons other _ ih => exact .cons other ih
  | group opens inner closes _ _ ih =>
    rw [List.cons_append, List.append_assoc, List.cons_append]
    exact .group opens inner closes ih

/-- Balanced tokens leave as many groups open as are open in front of them. -/
theorem unclosed (balanced : Balanced ts) (opened : Nat) : Token.unclosed opened ts = opened := by
  induction balanced generalizing opened with
  | nil => rfl
  | cons other _ ih => rw [unclosed_cons, opensTo_of_not_isParen other, ih]
  | group opens _ closes _ inner rest =>
    rw [unclosed_cons, opensTo_leftParen opens, unclosed_append, inner, unclosed_cons,
      opensTo_rightParen closes, Nat.add_sub_cancel, rest]

/-- Balanced tokens close no group that is opened in front of them. -/
theorem not_closeGroup (balanced : Balanced ts) : ¬CloseGroup ts := by
  rintro ⟨inner, closing, rest, rfl, balanced', closes⟩
  -- With no group and with one open in front, the same number would be open behind.
  have outermost := balanced.unclosed 0
  have inGroup := balanced.unclosed 1
  rw [unclosed_append, balanced'.unclosed, unclosed_cons, opensTo_rightParen closes]
    at outermost inGroup
  exact absurd (outermost.symm.trans inGroup) (by decide)

end Balanced

theorem CloseGroup.append (closed : CloseGroup ts) (us : List Token) : CloseGroup (ts ++ us) := by
  obtain ⟨inner, closing, rest, rfl, balanced, closes⟩ := closed
  exact ⟨inner, closing, rest ++ us, by simp, balanced, closes⟩

/-- A group that is opened in balanced tokens is closed in them. -/
theorem Balanced.closeGroup (balanced : Balanced (front ++ opening :: back))
    (opens : opening.kind = .leftParen) : CloseGroup back := by
  generalize whole : front ++ opening :: back = ts at balanced
  induction balanced generalizing front back with
  | nil => simp at whole
  | @cons t ts other rest ih =>
    cases front with
    | nil =>
      obtain ⟨rfl, -⟩ := List.cons.inj whole
      rw [opens] at other
      cases other
    | cons u front => exact ih (List.cons.inj whole).2
  | @group opening' closing ts us opens' inner closes rest ihInner ihRest =>
    cases front with
    | nil => exact ⟨ts, closing, us, (List.cons.inj whole).2, inner, closes⟩
    | cons u front =>
      rcases List.append_eq_append_iff.mp (List.cons.inj whole).2 with
        ⟨vs, rfl, behind⟩ | ⟨vs, rfl, behind⟩
      · cases vs with
        | nil =>
          obtain ⟨rfl, -⟩ := List.cons.inj behind
          cases opens.symm.trans closes
        | cons v vs =>
          obtain ⟨rfl, rfl⟩ := List.cons.inj behind
          exact (ihInner rfl).append _
      · cases vs with
        | nil =>
          obtain ⟨rfl, -⟩ := List.cons.inj behind
          cases opens.symm.trans closes
        | cons v vs => exact ihRest (List.cons.inj behind).2.symm

/-- Tokens that end in an open group close no group but those they close in front of it. -/
theorem CloseGroup.of_append (closed : CloseGroup (ts ++ opening :: us))
    (opens : opening.kind = .leftParen) (behind : Balanced us) : CloseGroup ts := by
  obtain ⟨inner, closing, rest, whole, balanced, closes⟩ := closed
  rcases List.append_eq_append_iff.mp whole with ⟨vs, rfl, cut⟩ | ⟨vs, rfl, cut⟩
  · cases vs with
    | nil =>
      obtain ⟨rfl, -⟩ := List.cons.inj cut
      cases opens.symm.trans closes
    | cons v vs =>
      -- The group would have to be closed in front of `closing`, but nothing behind it closes it.
      obtain ⟨rfl, rfl⟩ := List.cons.inj cut
      exact absurd ((balanced.closeGroup opens).append _) behind.not_closeGroup
  · cases vs with
    | nil =>
      obtain ⟨rfl, -⟩ := List.cons.inj cut
      cases opens.symm.trans closes
    | cons v vs =>
      obtain ⟨rfl, -⟩ := List.cons.inj cut
      exact ⟨inner, closing, vs, rfl, balanced, closes⟩

theorem OpenAt.lt_length (openAt : OpenAt ts i) : i < ts.length := by
  obtain ⟨front, opening, back, rfl, rfl, -⟩ := openAt
  simp

/-- No group is open behind balanced tokens. -/
theorem Balanced.not_openAt (balanced : Balanced ts) : ¬OpenAt ts i := by
  rintro ⟨front, opening, back, rfl, -, opens, leftOpen⟩
  exact leftOpen (balanced.closeGroup opens)

/-- Behind an opening parenthesis and balanced tokens, its group is open, and those that were open
in front of it. -/
theorem openAt_append_iff (opens : opening.kind = .leftParen) (inner : Balanced us) :
    OpenAt (ts ++ opening :: us) i ↔ i = ts.length ∨ OpenAt ts i := by
  constructor
  · rintro ⟨front, opening', back, whole, rfl, opens', leftOpen⟩
    rcases List.append_eq_append_iff.mp whole with ⟨vs, rfl, cut⟩ | ⟨vs, rfl, cut⟩
    · cases vs with
      | nil => exact .inl (by simp)
      | cons v vs =>
        obtain ⟨-, rfl⟩ := List.cons.inj cut
        exact absurd (inner.closeGroup opens') leftOpen
    · cases vs with
      | nil => exact .inl (by simp)
      | cons v vs =>
        obtain ⟨rfl, rfl⟩ := List.cons.inj cut
        exact .inr ⟨front, _, vs, rfl, rfl, opens', fun closed => leftOpen (closed.append _)⟩
  · rintro (rfl | ⟨front, opening', back, rfl, rfl, opens', leftOpen⟩)
    · exact ⟨ts, opening, us, rfl, rfl, opens, inner.not_closeGroup⟩
    · refine ⟨front, opening', back ++ opening :: us, by simp, rfl, opens', ?_⟩
      exact fun closed => leftOpen (closed.of_append opens inner)

namespace LeavesOpen

/-- Balanced tokens change nothing. -/
theorem append (leaves : LeavesOpen ts openings) (behind : Balanced us) :
    LeavesOpen (ts ++ us) openings := by
  cases leaves with
  | nil balanced => exact .nil (balanced.append behind)
  | cons outer opens inner =>
    rw [List.append_assoc, List.cons_append]
    exact .cons outer opens (inner.append behind)

/-- A closing parenthesis closes the innermost group. -/
theorem close (leaves : LeavesOpen ts (opening :: openings)) (closes : t.kind = .rightParen) :
    LeavesOpen (ts ++ [t]) openings := by
  cases leaves with
  | cons outer opens inner =>
    rw [List.append_assoc, List.cons_append]
    exact outer.append (.group opens inner closes .nil)

/-- Behind tokens that leave no group open, none is open. -/
theorem not_openAt (leaves : LeavesOpen ts []) : ¬OpenAt ts i := by
  cases leaves with
  | nil balanced => exact balanced.not_openAt

/-- The innermost group that is left open is opened behind all others. -/
theorem innermost (leaves : LeavesOpen ts (opening :: openings)) :
    ∃ front back, ts = front ++ opening :: back ∧ OpenAt ts front.length ∧
      ∀ i, OpenAt ts i → i ≤ front.length := by
  cases leaves with
  | @cons _ front back _ _ opens inner =>
    refine ⟨front, back, rfl, (openAt_append_iff opens inner).mpr (.inl rfl), fun i openAt => ?_⟩
    rcases (openAt_append_iff opens inner).mp openAt with rfl | before
    · exact Nat.le_refl _
    · exact Nat.le_of_lt before.lt_length

end LeavesOpen

end FullMatch.Token
