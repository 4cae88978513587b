import FullMatch.Proofs.Grammar.Nesting
import FullMatch.Proofs.Grammar.Step

/-!
# Depth of groups

A step opens and closes groups as its token does (`Reader.Grouped`), and a group that is too deep is
refused where it is opened. So no tokens that are read are nested too deeply
(`Reader.deepest_le_of_feed`).
-/

namespace FullMatch.Grammar

open Token (deepest)

variable {limit : UInt32} {r r' : Reader} {groups : List Group} {level : Level} {t : Token}
  {ts : List Token} {e : Expr} {opened : Nat}

/-- What a token does to the groups that are open. -/
inductive Reader.Grouped (groups : List Group) (t : Token) : List Group → Prop where
  | same (other : t.kind.isParen = false) : Grouped groups t groups
  | opens {outer : Level} (kind : t.kind = .leftParen) (room : groups.length < maxDepth) :
      Grouped groups t (⟨t.position, outer⟩ :: groups)
  | closes {group : Group} {outer : List Group} (kind : t.kind = .rightParen)
      (innermost : groups = group :: outer) : Grouped groups t outer

/-- A parenthesis that opens a group finds room for it. -/
theorem Reader.Grouped.room {groups' : List Group} (grouped : Reader.Grouped groups t groups')
    (opens : t.kind = .leftParen) : groups.length < maxDepth := by
  cases grouped with
  | same other =>
    rw [opens] at other
    cases other
  | opens _ room => exact room
  | closes closes _ => cases opens.symm.trans closes

theorem grouped_of_based (based : Reader.Based groups level t r') :
    Reader.Grouped groups t r'.groups := by
  cases based with
  | single other _ => exact .same other
  | bracket kind | bar kind => exact .same (kind ▸ rfl)
  | opens kind room => exact .opens kind room
  | closes kind innermost => exact .closes kind innermost

/-- A step opens a group, closes the innermost one, or leaves the groups alone, as its token
does. -/
theorem Reader.grouped_of_step_eq_ok (stepped : r.step limit t = .ok r') :
    Reader.Grouped r.groups t r'.groups := by
  obtain ⟨groups, level, focus⟩ := r
  cases Reader.stepped_of_step_eq_ok stepped with
  | ready based | factor _ based => exact grouped_of_based based
  | bounds opens => exact .same (opens ▸ rfl)
  | repeated repeats _ => exact .same (repeats ▸ kind_not_isParen _)
  | counted counted =>
    cases counted with
    | digit kind | comma kind | closes kind => exact .same (kind ▸ rfl)
  | pushed _ pushed =>
    refine .same ?_
    cases pushed with
    | literal literal | range literal => exact not_isParen_of_isLiteral literal
    | caret kind | dashOfLiteral kind | dash kind | word kind | digit kind => exact kind ▸ rfl
  | closed closes _ => exact .same (closes ▸ rfl)

/-- The groups behind a token are those that it leaves open, and none of them is too deep. -/
def OpensGroups (r r' : Reader) (t : Token) : Prop :=
  r'.groups.length = t.opensTo r.groups.length ∧
    (r.groups.length ≤ maxDepth → r'.groups.length ≤ maxDepth)

/-- A step opens and closes groups as the token does. -/
theorem Reader.step_opensGroups (stepped : r.step limit t = .ok r') : OpensGroups r r' t := by
  have grouped := Reader.grouped_of_step_eq_ok stepped
  rw [OpensGroups]
  generalize r.groups = groups, r'.groups = groups' at grouped ⊢
  cases grouped with
  | same other =>
    rw [Token.opensTo_of_not_isParen other]
    exact ⟨rfl, id⟩
  | opens kind room =>
    rw [Token.opensTo_leftParen kind]
    exact ⟨rfl, fun _ => room⟩
  | closes kind innermost =>
    rw [Token.opensTo_rightParen kind, innermost, List.length_cons, Nat.add_sub_cancel]
    exact ⟨rfl, Nat.le_of_succ_le⟩

/-- No more groups are open behind tokens that are read than may be. -/
theorem Reader.groups_le_of_feed (room : r.groups.length ≤ maxDepth)
    (fed : r.feed limit ts = .ok r') : r'.groups.length ≤ maxDepth := by
  induction ts generalizing r with
  | nil =>
    obtain rfl := Except.ok.inj fed
    exact room
  | cons t ts ih =>
    obtain ⟨next, stepped, fed⟩ := Reader.feed_cons_eq_ok.mp fed
    exact ih ((Reader.step_opensGroups stepped).2 room) fed

/-- Tokens that are read never open a group too deep. -/
theorem Reader.deepest_le_of_feed (room : r.groups.length ≤ maxDepth)
    (fed : r.feed limit ts = .ok r') : deepest r.groups.length ts ≤ maxDepth := by
  induction ts generalizing r with
  | nil => exact room
  | cons t ts ih =>
    obtain ⟨next, stepped, fed⟩ := Reader.feed_cons_eq_ok.mp fed
    obtain ⟨groups, stays⟩ := Reader.step_opensGroups stepped
    rw [deepest, ← groups]
    exact Nat.max_le.mpr ⟨room, ih (stays room) fed⟩

end FullMatch.Grammar
