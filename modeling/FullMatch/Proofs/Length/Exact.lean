import FullMatch.Proofs.Length.Accepted

/-!
# Lengths are counted exactly

The least and the greatest length of an automaton are put together from those of the parts that it
lays out. Each unit of length takes two states, and the states of a part are states of the whole, so
with a limit of 64 bits on the states no sum and no product on the way is cut off. There is no
greatest length just when a repetition without an upper end is laid out (`lengths_exact`).
-/

namespace FullMatch

namespace Expr

/-- The automaton of an expression lays out a part of it, because no repetition around the part is
limited to taking nothing. -/
inductive LaidOutIn (part : Expr) : Expr → Prop where
  | here : LaidOutIn part part
  | left {l r : Expr} (inside : LaidOutIn part l) : LaidOutIn part (.concat l r)
  | right {l r : Expr} (inside : LaidOutIn part r) : LaidOutIn part (.concat l r)
  | firstBranch {l r : Expr} (inside : LaidOutIn part l) : LaidOutIn part (.alternate l r)
  | secondBranch {l r : Expr} (inside : LaidOutIn part r) : LaidOutIn part (.alternate l r)
  | repeated {op : RepeatOp} {e : Expr} (inside : LaidOutIn part e) :
      LaidOutIn part (.repeated op e)
  | counted {e : Expr} {b : Bounds} (taken : b.most ≠ some 0) (inside : LaidOutIn part e) :
      LaidOutIn part (.counted e b)

/-- A repetition without an upper end. -/
def Endless : Expr → Prop
  | .repeated op _ => op.loops = true
  | .counted _ b => b.most = none
  | _ => False

/-- No sum or product is cut off where the lengths of an expression are put together from those of
its operands. -/
def Uncut : Expr → Prop
  | .concat l r => l.lengths.least + r.lengths.least ≤ LengthRange.cap ∧
      ∀ i j, l.lengths.greatest = some i → r.lengths.greatest = some j → i + j ≤ LengthRange.cap
  | .counted e b => e.lengths.least * b.least ≤ LengthRange.cap ∧
      ∀ i n, e.lengths.greatest = some i → b.most = some n → i * n ≤ LengthRange.cap
  | _ => True

variable {e l r part : Expr} {b : Bounds} {op : RepeatOp} {m : Nat}

section Unbounded

theorem longest_concat_eq_none :
    (Expr.concat l r).longest = none ↔ l.longest = none ∨ r.longest = none := by
  simp only [Option.eq_none_iff_forall_ne_some, ne_eq, longest_concat_eq_some]
  grind

theorem longest_alternate_eq_none :
    (Expr.alternate l r).longest = none ↔ l.longest = none ∨ r.longest = none := by
  simp only [Option.eq_none_iff_forall_ne_some, ne_eq, longest_alternate_eq_some]
  grind

theorem longest_repeated_eq_none :
    (Expr.repeated op e).longest = none ↔ op.loops = true ∨ e.longest = none := by
  cases op <;> simp [longest, RepeatOp.loops]

/-- A counted repetition that takes its operand at all has no end if it or its operand has none. -/
theorem longest_counted_eq_none :
    (Expr.counted e b).longest = none ↔
      b.most = none ∨ b.most ≠ some 0 ∧ e.longest = none := by
  rw [longest]
  cases b.most with
  | none => simp
  | some n =>
    by_cases never : n = 0
    · simp [never]
    · cases e.longest <;> simp [never]

theorem Endless.longest_eq_none (endless : part.Endless) : part.longest = none := by
  cases part with
  | repeated op e => exact longest_repeated_eq_none.mpr (.inl endless)
  | counted e b => exact longest_counted_eq_none.mpr (.inl endless)
  | _ => cases endless

/-- Longest texts without an end in a part that is laid out have no end in the whole. -/
theorem LaidOutIn.longest_eq_none (inside : part.LaidOutIn e) (endless : part.longest = none) :
    e.longest = none := by
  induction inside with
  | here => exact endless
  | left _ ih => exact longest_concat_eq_none.mpr (.inl ih)
  | right _ ih => exact longest_concat_eq_none.mpr (.inr ih)
  | firstBranch _ ih => exact longest_alternate_eq_none.mpr (.inl ih)
  | secondBranch _ ih => exact longest_alternate_eq_none.mpr (.inr ih)
  | repeated _ ih => exact longest_repeated_eq_none.mpr (.inr ih)
  | counted taken _ ih => exact longest_counted_eq_none.mpr (.inr ⟨taken, ih⟩)

theorem exists_endless (unbounded : e.longest = none) :
    ∃ part : Expr, part.LaidOutIn e ∧ part.Endless := by
  induction e with
  | empty => cases unbounded
  | atom a => cases unbounded
  | concat l r left right =>
    rcases longest_concat_eq_none.mp unbounded with inLeft | inRight
    · obtain ⟨part, inside, endless⟩ := left inLeft
      exact ⟨part, .left inside, endless⟩
    · obtain ⟨part, inside, endless⟩ := right inRight
      exact ⟨part, .right inside, endless⟩
  | alternate l r left right =>
    rcases longest_alternate_eq_none.mp unbounded with inLeft | inRight
    · obtain ⟨part, inside, endless⟩ := left inLeft
      exact ⟨part, .firstBranch inside, endless⟩
    · obtain ⟨part, inside, endless⟩ := right inRight
      exact ⟨part, .secondBranch inside, endless⟩
  | repeated op e operand =>
    rcases longest_repeated_eq_none.mp unbounded with loops | inOperand
    · exact ⟨.repeated op e, .here, loops⟩
    · obtain ⟨part, inside, endless⟩ := operand inOperand
      exact ⟨part, .repeated inside, endless⟩
  | counted e b operand =>
    rcases longest_counted_eq_none.mp unbounded with endless | ⟨taken, inOperand⟩
    · exact ⟨.counted e b, .here, endless⟩
    · obtain ⟨part, inside, endless⟩ := operand inOperand
      exact ⟨part, .counted taken inside, endless⟩

/-- The longest texts have no end just when a repetition without an upper end is laid out. -/
theorem longest_eq_none_iff :
    e.longest = none ↔ ∃ part : Expr, part.LaidOutIn e ∧ part.Endless := by
  constructor
  · exact exists_endless
  · rintro ⟨part, inside, endless⟩
    exact inside.longest_eq_none endless.longest_eq_none

end Unbounded

end Expr

namespace Nfa

open LengthRange (cap)

variable {limits : Limits} {e part : Expr} {nfa : Nfa}

/-- The states of a part that is laid out are states of the whole. -/
theorem size_block_le_of_laidOutIn (inside : part.LaidOutIn e) :
    (block part).size ≤ (block e).size := by
  induction inside with
  | here => exact Nat.le_refl _
  | left _ ih =>
    rw [block_concat]
    exact Nat.le_add_right_of_le ih
  | right _ ih =>
    rw [block_concat]
    exact Nat.le_add_left_of_le ih
  | @firstBranch l r _ ih =>
    have both := size_block_alternate_ge l r
    omega
  | @secondBranch l r _ ih =>
    have both := size_block_alternate_ge l r
    omega
  | repeated _ ih => exact Nat.le_add_right_of_le ih
  | @counted e b taken _ ih =>
    have copied : 0 < b.copies := by
      cases most : b.most with
      | none =>
        rw [Bounds.copies_of_most_eq_none most]
        exact Nat.succ_pos b.least
      | some n =>
        rw [Bounds.copies_of_most_eq_some most]
        refine Nat.pos_of_ne_zero fun never => taken ?_
        rw [most, never]
    calc (block part).size
      _ ≤ (block e).size := ih
      _ ≤ b.copies * (block e).size := Nat.le_mul_of_pos_left _ copied
      _ ≤ 2 + b.copies * (block e).size := Nat.le_add_left _ _

/-- Where the states are counted in 64 bits, no sum and no product of lengths is cut off. -/
theorem uncut_of_size_le (room : (block e).size ≤ cap) : e.Uncut := by
  have shortest := two_mul_shortest_le e
  cases e with
  | concat l r =>
    have left : (block l).size ≤ cap :=
      Nat.le_trans (size_block_le_of_laidOutIn (.left .here)) room
    have right : (block r).size ≤ cap :=
      Nat.le_trans (size_block_le_of_laidOutIn (.right .here)) room
    rw [Expr.Uncut, lengths_eq_of_size_le left, lengths_eq_of_size_le right]
    rw [Expr.shortest] at shortest
    refine ⟨by dsimp only; omega, fun i j boundL boundR => ?_⟩
    have longest := two_mul_longest_le (Expr.longest_concat_eq_some.mpr ⟨i, j, boundL, boundR, rfl⟩)
    omega
  | counted e b =>
    by_cases never : b.most = some 0
    · -- Nothing is laid out of the operand, so its lengths may be cut off; but they have no say.
      have none : b.least = 0 := Nat.eq_zero_of_le_zero (b.least_le_most 0 never)
      rw [Expr.Uncut, none]
      refine ⟨Nat.zero_le _, fun i n _ most => ?_⟩
      obtain rfl : 0 = n := Option.some.inj (never.symm.trans most)
      exact Nat.zero_le _
    · have operand : (block e).size ≤ cap :=
        Nat.le_trans (size_block_le_of_laidOutIn (.counted never .here)) room
      rw [Expr.Uncut, lengths_eq_of_size_le operand]
      rw [Expr.shortest] at shortest
      refine ⟨by dsimp only; omega, fun i n bound most => ?_⟩
      have taken : n ≠ 0 := by
        rintro rfl
        exact never most
      have longest := two_mul_longest_le
        (Expr.longest_counted_eq_some.mpr (.inr ⟨n, i, most, taken, bound, rfl⟩))
      omega
  | _ => trivial

/-- With a limit of 64 bits on the states, the lengths of an automaton are those of the shortest and
the longest texts over all natural numbers, and nothing was cut off on the way to them. Each unit of
length takes two states. There is no greatest length just when a repetition without an upper end is
laid out. -/
theorem lengths_exact (built : ofExpr limits e = .ok nfa) (word : limits.states < UInt64.size) :
    nfa.lengths = ⟨e.shortest, e.longest⟩ ∧
    (∀ part : Expr, part.LaidOutIn e →
      part.lengths = ⟨part.shortest, part.longest⟩ ∧ part.Uncut) ∧
    2 * nfa.lengths.least ≤ nfa.states.size ∧
    (∀ m, nfa.lengths.greatest = some m → 2 * m ≤ nfa.states.size) ∧
    (nfa.lengths.greatest = none ↔ ∃ part : Expr, part.LaidOutIn e ∧ part.Endless) := by
  have room := size_block_le_cap built word
  have lengths := lengths_eq built word
  obtain rfl := eq_ofBlock built
  rw [lengths, size_ofBlock]
  refine ⟨rfl, ?_, two_mul_shortest_le e, fun m => two_mul_longest_le, Expr.longest_eq_none_iff⟩
  intro part inside
  have roomPart := Nat.le_trans (size_block_le_of_laidOutIn inside) room
  exact ⟨lengths_eq_of_size_le roomPart, uncut_of_size_le roomPart⟩

/-- `(a*){0}b{2,3}` accepts two or three characters: its star is not laid out. -/
theorem lengths_exact_of_skipped_star :
    let e : Expr := .concat
      (.counted (.repeated .zeroOrMore (.literal 'a')) ⟨0, some 0, by decide⟩)
      (.counted (.literal 'b') ⟨2, some 3, by decide⟩)
    ∃ nfa, ofExpr .standard e = .ok nfa ∧ Limits.standard.states < UInt64.size ∧
      nfa.lengths = ⟨2, some 3⟩ ∧ 2 * 3 ≤ nfa.states.size ∧
        ¬∃ part : Expr, part.LaidOutIn e ∧ part.Endless := by
  intro e
  have built : ofExpr .standard e = .ok (ofBlock e) := rfl
  have word : Limits.standard.states < UInt64.size := by decide
  obtain ⟨lengths, -, -, greatest, endless⟩ := lengths_exact built word
  have bounded : (ofBlock e).lengths.greatest = some 3 := rfl
  refine ⟨ofBlock e, built, word, lengths, greatest 3 bounded, ?_⟩
  rw [← endless, bounded]
  exact Option.some_ne_none 3

end Nfa

end FullMatch
