import FullMatch.Token.Basic

/-!
# Nesting of groups

How many groups are open behind tokens, and how many are open at most on the way. Only parentheses
open and close groups; a closing one without an opening one closes nothing.
-/

namespace FullMatch.Token

/-- Whether a kind of token opens or closes a group. -/
def Kind.isParen : Kind → Bool
  | .leftParen | .rightParen => true
  | _ => false

/-- Tokens without parentheses. -/
def Flat (ts : List Token) : Prop :=
  ∀ t ∈ ts, t.kind.isParen = false

/-- How many groups are open behind a token, `opened` of them being open in front of it. -/
def opensTo (opened : Nat) (t : Token) : Nat :=
  match t.kind with
  | .leftParen => opened + 1
  | .rightParen => opened - 1
  | _ => opened

/-- How many groups are open behind tokens, `opened` of them being open in front. -/
def unclosed (opened : Nat) (ts : List Token) : Nat :=
  ts.foldl opensTo opened

/-- The largest number of groups open at once, `opened` of them being open in front. -/
def deepest (opened : Nat) : List Token → Nat
  | [] => opened
  | t :: ts => max opened (deepest (t.opensTo opened) ts)

/-- How deep the groups of a sequence of tokens are nested. -/
def nesting (ts : List Token) : Nat :=
  deepest 0 ts

variable {opened : Nat} {t : Token} {ts us : List Token}

theorem opensTo_leftParen (opening : t.kind = .leftParen) : t.opensTo opened = opened + 1 := by
  rw [opensTo, opening]

theorem opensTo_rightParen (closing : t.kind = .rightParen) : t.opensTo opened = opened - 1 := by
  rw [opensTo, closing]

/-- Any token but a parenthesis leaves the groups alone. -/
theorem opensTo_of_not_isParen (other : t.kind.isParen = false) : t.opensTo opened = opened := by
  unfold opensTo
  split
  · next opening => simp [opening, Kind.isParen] at other
  · next closing => simp [closing, Kind.isParen] at other
  · rfl

@[simp] theorem unclosed_nil : unclosed opened [] = opened := rfl

@[simp] theorem unclosed_cons : unclosed opened (t :: ts) = unclosed (t.opensTo opened) ts := rfl

@[simp] theorem unclosed_append :
    unclosed opened (ts ++ us) = unclosed (unclosed opened ts) us :=
  List.foldl_append

theorem le_deepest (opened : Nat) (ts : List Token) : opened ≤ deepest opened ts := by
  cases ts with
  | nil => exact Nat.le_refl opened
  | cons t ts => exact Nat.le_max_left _ _

theorem deepest_append :
    deepest opened (ts ++ us) = max (deepest opened ts) (deepest (unclosed opened ts) us) := by
  induction ts generalizing opened with
  | nil => exact (Nat.max_eq_right (le_deepest opened us)).symm
  | cons t ts ih => rw [List.cons_append, deepest, ih, deepest, unclosed_cons, Nat.max_assoc]

theorem Flat.cons (first : t.kind.isParen = false) (rest : Flat ts) : Flat (t :: ts) :=
  List.forall_mem_cons.mpr ⟨first, rest⟩

theorem Flat.append (first : Flat ts) (second : Flat us) : Flat (ts ++ us) :=
  List.forall_mem_append.mpr ⟨first, second⟩

theorem Flat.singleton (other : t.kind.isParen = false) : Flat [t] :=
  .cons other nofun

/-- Tokens without parentheses leave the groups alone. -/
theorem Flat.unclosed (flat : Flat ts) : Token.unclosed opened ts = opened := by
  induction ts with
  | nil => rfl
  | cons t ts ih =>
    obtain ⟨first, rest⟩ := List.forall_mem_cons.mp flat
    rw [unclosed_cons, opensTo_of_not_isParen first, ih rest]

theorem Flat.deepest (flat : Flat ts) : Token.deepest opened ts = opened := by
  induction ts with
  | nil => rfl
  | cons t ts ih =>
    obtain ⟨first, rest⟩ := List.forall_mem_cons.mp flat
    rw [Token.deepest, opensTo_of_not_isParen first, ih rest, Nat.max_self]

/-- Tokens that close what they open, their groups being nested to a depth. -/
structure Nests (depth : Nat) (ts : List Token) : Prop where
  unclosed : ∀ opened, Token.unclosed opened ts = opened
  deepest : ∀ opened, Token.deepest opened ts = opened + depth

namespace Nests

variable {m n : Nat}

theorem of_flat (flat : Flat ts) : Nests 0 ts where
  unclosed _ := flat.unclosed
  deepest _ := flat.deepest

theorem append (first : Nests m ts) (second : Nests n us) : Nests (max m n) (ts ++ us) where
  unclosed opened := by rw [unclosed_append, first.unclosed, second.unclosed]
  deepest opened := by
    rw [deepest_append, first.deepest, first.unclosed, second.deepest, Nat.add_max_add_left]

/-- Parentheses around tokens nest them one level deeper. -/
theorem group {opening closing : Token} (opens : opening.kind = .leftParen) (inner : Nests n ts)
    (closes : closing.kind = .rightParen) : Nests (n + 1) (opening :: (ts ++ [closing])) where
  unclosed opened := by
    rw [unclosed_cons, opensTo_leftParen opens, unclosed_append, inner.unclosed, unclosed_cons,
      opensTo_rightParen closes, unclosed_nil, Nat.add_sub_cancel]
  deepest opened := by
    rw [Token.deepest, opensTo_leftParen opens, deepest_append, inner.deepest, inner.unclosed,
      Token.deepest, Token.deepest, opensTo_rightParen closes]
    omega

end Nests

end FullMatch.Token
