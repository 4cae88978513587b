import FullMatch.CharSet

/-!
# Expressions

The tree that a pattern denotes. Concatenation and alternation are binary; a long run of either
leans to the left, so that a literal text of any length is one left spine.

`Bounds` carries the proof that a counted repetition is not inverted, and `CharClass` holds the
members as a set, so the order and the number of times they were written leave no trace.
-/

namespace FullMatch

/-- The postfix repetitions. -/
inductive RepeatOp where
  | zeroOrMore
  | oneOrMore
  | optional
  deriving DecidableEq

namespace RepeatOp

/-- The repetition that an operator character stands for. -/
def ofChar? : Char → Option RepeatOp
  | '*' => some .zeroOrMore
  | '+' => some .oneOrMore
  | '?' => some .optional
  | _ => none

/-- The character that a repetition is written with. -/
def toChar : RepeatOp → Char
  | .zeroOrMore => '*'
  | .oneOrMore => '+'
  | .optional => '?'

theorem ofChar?_toChar (op : RepeatOp) : ofChar? op.toChar = some op := by
  cases op <;> rfl

/-- Whether the operand may be left out. -/
def skips : RepeatOp → Bool
  | .zeroOrMore | .optional => true
  | .oneOrMore => false

/-- Whether the operand may be taken again. -/
def loops : RepeatOp → Bool
  | .zeroOrMore | .oneOrMore => true
  | .optional => false

end RepeatOp

/-- How often a counted repetition takes its operand; without a `most` there is no upper end. -/
structure Bounds where
  least : Nat
  most : Option Nat
  least_le_most : ∀ m ∈ most, least ≤ m
  deriving DecidableEq

/-- Bounds whose upper end lies below the lower one. -/
structure InvertedBounds where
  least : Nat
  most : Nat
  deriving DecidableEq

/-- What is wrong with inverted bounds, in words. -/
def InvertedBounds.message (b : InvertedBounds) : String :=
  s!"max < min ({b.most} < {b.least}): max must be >= min"

namespace Bounds

/-- At least `least` times. -/
def atLeast (least : Nat) : Bounds :=
  ⟨least, none, nofun⟩

/-- The bounds with the given ends, unless they are inverted. -/
def ofEnds (least : Nat) : Option Nat → Except InvertedBounds Bounds
  | none => .ok (atLeast least)
  | some most =>
    if h : least ≤ most then .ok ⟨least, some most, fun _ hm => Option.some.inj hm ▸ h⟩
    else .error ⟨least, most⟩

/-- Bounds are those with the given ends exactly when their ends are these. -/
theorem ofEnds_eq_ok {least : Nat} {most : Option Nat} {b : Bounds} :
    ofEnds least most = .ok b ↔ b.least = least ∧ b.most = most := by
  obtain ⟨least', most', ordered⟩ := b
  cases most with
  | none =>
    rw [ofEnds, atLeast, Except.ok.injEq, mk.injEq]
    simp only [eq_comm]
  | some m =>
    rw [ofEnds]
    split
    · rw [Except.ok.injEq, mk.injEq]
      simp only [eq_comm]
    · next inverted =>
      constructor
      · nofun
      · rintro ⟨rfl, rfl⟩
        exact absurd (ordered m rfl) inverted

/-- The larger of the numbers written in the bounds. -/
def largest (b : Bounds) : Nat :=
  b.most.getD b.least

/-- How many copies of the operand an automaton lays out: `most`, or one more than `least` when
the last copy loops. -/
def copies (b : Bounds) : Nat :=
  b.most.getD (b.least + 1)

theorem copies_of_most_eq_none {b : Bounds} (unbounded : b.most = none) :
    b.copies = b.least + 1 := by
  rw [copies, unbounded]
  rfl

theorem copies_of_most_eq_some {b : Bounds} {m : Nat} (bounded : b.most = some m) :
    b.copies = m := by
  rw [copies, bounded]
  rfl

theorem least_le_copies (b : Bounds) : b.least ≤ b.copies := by
  cases most : b.most with
  | none =>
    rw [copies_of_most_eq_none most]
    exact Nat.le_succ b.least
  | some m =>
    rw [copies_of_most_eq_some most]
    exact b.least_le_most m most

end Bounds

/-- A bracketed class: the characters written in it, and whether it stands for the others. -/
structure CharClass where
  members : CharSet
  negated : Bool
  deriving DecidableEq

/-- The characters that a class stands for. -/
def CharClass.chars (c : CharClass) : CharSet :=
  if c.negated then c.members.complement else c.members

/-- The expressions that read exactly one character. -/
inductive Atom where
  | literal (c : Char)
  | anyChar
  | wordChar
  | digit
  | charClass (c : CharClass)
  deriving DecidableEq

/-- The characters that an atom reads. -/
def Atom.chars : Atom → CharSet
  | .literal c => .ofList [c]
  | .anyChar => .ascii
  | .wordChar => .wordChars
  | .digit => .digits
  | .charClass c => c.chars

/-- A pattern, read. -/
inductive Expr where
  /-- Reads nothing. -/
  | empty
  | atom (a : Atom)
  | concat (left right : Expr)
  | alternate (left right : Expr)
  | repeated (op : RepeatOp) (e : Expr)
  | counted (e : Expr) (b : Bounds)
  deriving Inhabited

namespace Expr

/-- Whether two expressions are the same tree. -/
def same : Expr → Expr → Bool
  | .empty, .empty => true
  | .atom a, .atom a' => a = a'
  | .concat l r, .concat l' r' => same r r' && same l l'
  | .alternate l r, .alternate l' r' => same r r' && same l l'
  | .repeated op e, .repeated op' e' => op = op' && same e e'
  | .counted e b, .counted e' b' => b = b' && same e e'
  | _, _ => false

theorem same_iff {e e' : Expr} : same e e' = true ↔ e = e' := by
  induction e generalizing e' with
  | empty => cases e' <;> simp [same]
  | atom a => cases e' <;> simp [same]
  | concat l r ihl ihr => cases e' <;> simp [same, ihl, ihr, and_comm]
  | alternate l r ihl ihr => cases e' <;> simp [same, ihl, ihr, and_comm]
  | repeated op e ih => cases e' <;> simp [same, ih]
  | counted e b ih => cases e' <;> simp [same, ih, and_comm]

instance : DecidableEq Expr := fun _ _ => decidable_of_iff _ same_iff

/-- The expression that reads one given character. -/
def literal (c : Char) : Expr :=
  .atom (.literal c)

end Expr

end FullMatch
