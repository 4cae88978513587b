import FullMatch.Length
import FullMatch.Proofs.Length.Extent
import FullMatch.Proofs.Nfa.Cost
import FullMatch.Proofs.Nfa.Thompson

/-!
# Lengths of accepted texts

The interval that comes with an automaton is that of `Expr.shortest` and `Expr.longest`, cut off at
the largest number of 64 bits. So no accepted text lies outside of it. A text of length `n` takes
`2 * n` states, so with a limit of 64 bits on the states nothing is cut off, and both ends of the
interval are lengths of accepted texts (`lengths_sound_and_attained`).
-/

namespace FullMatch

namespace LengthRange

variable {r s : LengthRange} {b : Bounds} {op : RepeatOp} {n m : Nat}

theorem contains_iff :
    r.contains n = true ↔ r.least ≤ n ∧ ∀ m, r.greatest = some m → n ≤ m := by
  rw [contains]
  cases r.greatest with
  | none => simp
  | some m => simp

theorem upTo_eq_some : upTo n = some m ↔ n = m ∧ m ≤ cap := by
  rw [upTo]
  split
  · next counted =>
    rw [Option.some.injEq]
    omega
  · next beyond =>
    constructor
    · nofun
    · omega

theorem append_greatest_eq_some :
    (r.append s).greatest = some m ↔
      ∃ i j, r.greatest = some i ∧ s.greatest = some j ∧ i + j = m ∧ m ≤ cap := by
  simp [append, Option.bind_eq_some_iff, upTo_eq_some]

theorem hull_greatest_eq_some :
    (r.hull s).greatest = some m ↔
      ∃ i j, r.greatest = some i ∧ s.greatest = some j ∧ max i j = m := by
  simp [hull, Option.bind_eq_some_iff]

theorem repeated_greatest_eq_some :
    (r.repeated op).greatest = some m ↔ op.loops = false ∧ r.greatest = some m := by
  cases op <;> simp [repeated, RepeatOp.loops]

theorem times_greatest_eq_some :
    (r.times b).greatest = some m ↔ b.most = some 0 ∧ m = 0 ∨
      ∃ n i, b.most = some n ∧ n ≠ 0 ∧ r.greatest = some i ∧ i * n = m ∧ m ≤ cap := by
  rw [times]
  cases b.most with
  | none => simp
  | some n =>
    by_cases never : n = 0
    · simp [never, eq_comm]
    · simp [never, Option.bind_eq_some_iff, upTo_eq_some]

end LengthRange

namespace Expr

open LengthRange (cap)

variable {e : Expr} {m : Nat} {text : List Char}

/-- The least length is the shortest one, or the cap beyond it. -/
theorem lengths_least (e : Expr) : e.lengths.least = min e.shortest cap := by
  induction e with
  | empty => rfl
  | atom a => rfl
  | concat l r left right =>
    rw [lengths_concat, LengthRange.append, left, right, shortest]
    dsimp only
    omega
  | alternate l r left right =>
    rw [lengths_alternate, LengthRange.hull, left, right, shortest]
    dsimp only
    omega
  | repeated op e operand =>
    show (e.lengths.repeated op).least = _
    rw [LengthRange.repeated, operand, shortest]
    split
    · rw [Nat.zero_min]
    · rfl
  | counted e b operand =>
    show (e.lengths.times b).least = _
    rw [LengthRange.times, operand, shortest]
    dsimp only
    by_cases never : b.least = 0
    · rw [never, Nat.mul_zero, Nat.mul_zero]
    · have positive : 0 < b.least := Nat.pos_of_ne_zero never
      have grown := Nat.le_mul_of_pos_right cap positive
      have grown' := Nat.le_mul_of_pos_right e.shortest positive
      rcases Nat.le_total e.shortest cap with counted | beyond
      · rw [Nat.min_eq_left counted]
      · rw [Nat.min_eq_right beyond]
        omega

/-- The greatest length is the longest one, unless that is beyond the cap. -/
theorem lengths_greatest_eq_some :
    e.lengths.greatest = some m ↔ e.longest = some m ∧ m ≤ cap := by
  induction e generalizing m with
  | empty =>
    show some 0 = some m ↔ some 0 = some m ∧ m ≤ cap
    rw [Option.some.injEq]
    omega
  | atom a =>
    show some 1 = some m ↔ some 1 = some m ∧ m ≤ cap
    have counted : 1 ≤ cap := by decide
    rw [Option.some.injEq]
    omega
  | concat l r left right =>
    rw [lengths_concat, LengthRange.append_greatest_eq_some, longest_concat_eq_some]
    simp only [left, right]
    constructor
    · rintro ⟨i, j, ⟨boundL, _⟩, ⟨boundR, _⟩, rfl, counted⟩
      exact ⟨⟨i, j, boundL, boundR, rfl⟩, counted⟩
    · rintro ⟨⟨i, j, boundL, boundR, rfl⟩, counted⟩
      exact ⟨i, j, ⟨boundL, by omega⟩, ⟨boundR, by omega⟩, rfl, counted⟩
  | alternate l r left right =>
    rw [lengths_alternate, LengthRange.hull_greatest_eq_some, longest_alternate_eq_some]
    simp only [left, right]
    constructor
    · rintro ⟨i, j, ⟨boundL, countedL⟩, ⟨boundR, countedR⟩, rfl⟩
      exact ⟨⟨i, j, boundL, boundR, rfl⟩, by omega⟩
    · rintro ⟨⟨i, j, boundL, boundR, rfl⟩, counted⟩
      exact ⟨i, j, ⟨boundL, by omega⟩, ⟨boundR, by omega⟩, rfl⟩
  | repeated op e operand =>
    show (e.lengths.repeated op).greatest = some m ↔ _
    rw [LengthRange.repeated_greatest_eq_some, longest_repeated_eq_some, operand, and_assoc]
  | counted e b operand =>
    show (e.lengths.times b).greatest = some m ↔ _
    rw [LengthRange.times_greatest_eq_some, longest_counted_eq_some]
    simp only [operand]
    constructor
    · rintro (⟨never, rfl⟩ | ⟨n, i, often, taken, ⟨bound, _⟩, rfl, counted⟩)
      · exact ⟨.inl ⟨never, rfl⟩, Nat.zero_le _⟩
      · exact ⟨.inr ⟨n, i, often, taken, bound, rfl⟩, counted⟩
    · rintro ⟨⟨never, rfl⟩ | ⟨n, i, often, taken, bound, rfl⟩, counted⟩
      · exact .inl ⟨never, rfl⟩
      · have grown := Nat.le_mul_of_pos_right i (Nat.pos_of_ne_zero taken)
        exact .inr ⟨n, i, often, taken, ⟨bound, by omega⟩, rfl, counted⟩

/-- The length of a text that an expression stands for lies in its interval. -/
theorem lengths_contains (denotes : e.Denotes text) : e.lengths.contains text.length = true := by
  rw [LengthRange.contains_iff]
  constructor
  · rw [lengths_least]
    exact Nat.le_trans (Nat.min_le_left _ _) (shortest_le_length denotes)
  · intro m bounded
    exact length_le_longest (lengths_greatest_eq_some.mp bounded).1 denotes

end Expr

namespace Nfa

open LengthRange (cap)

variable {limits : Limits} {e : Expr} {nfa : Nfa} {m : Nat}

/-- An alternation takes at least the states of its two branches. -/
theorem size_block_alternate_ge (l r : Expr) :
    (block l).size + (block r).size ≤ (block (.alternate l r)).size := by
  have left : (block l).size ≤ 2 + (l.alternatives.map fun e => (block e).size).sum := by
    cases l with
    | alternate l r => rw [size_block_alternate]
    | _ => simp [Expr.alternatives, Expr.alternativesOnto]
  rw [size_block_alternate, Expr.alternatives_alternate, List.map_append, List.sum_append,
    List.map_singleton, List.sum_singleton]
  omega

/-- Each character of a shortest text takes a pair of states. -/
theorem two_mul_shortest_le (e : Expr) : 2 * e.shortest ≤ (block e).size := by
  induction e with
  | empty => exact Nat.zero_le _
  | atom a => exact Nat.le_refl 2
  | concat l r left right =>
    rw [block_concat, Block.append, Expr.shortest]
    dsimp only
    omega
  | alternate l r left right =>
    have both := size_block_alternate_ge l r
    rw [Expr.shortest]
    omega
  | repeated op e operand =>
    show 2 * (if op.skips then 0 else e.shortest) ≤ (block e).size + 2
    split
    · omega
    · omega
  | counted e b operand =>
    have copied : 2 * e.shortest * b.least ≤ (block e).size * b.copies :=
      Nat.mul_le_mul operand b.least_le_copies
    show 2 * (e.shortest * b.least) ≤ 2 + b.copies * (block e).size
    rw [Nat.mul_assoc, Nat.mul_comm (block e).size] at copied
    omega

/-- Each character of a longest text takes a pair of states. -/
theorem two_mul_longest_le (bounded : e.longest = some m) : 2 * m ≤ (block e).size := by
  induction e generalizing m with
  | empty =>
    obtain rfl := Option.some.inj bounded
    exact Nat.zero_le _
  | atom a =>
    obtain rfl := Option.some.inj bounded
    exact Nat.le_refl 2
  | concat l r left right =>
    obtain ⟨i, j, boundL, boundR, rfl⟩ := Expr.longest_concat_eq_some.mp bounded
    have statesL := left boundL
    have statesR := right boundR
    rw [block_concat, Block.append]
    dsimp only
    omega
  | alternate l r left right =>
    obtain ⟨i, j, boundL, boundR, rfl⟩ := Expr.longest_alternate_eq_some.mp bounded
    have statesL := left boundL
    have statesR := right boundR
    have both := size_block_alternate_ge l r
    omega
  | repeated op e operand =>
    have states := operand (Expr.longest_repeated_eq_some.mp bounded).2
    show 2 * m ≤ (block e).size + 2
    omega
  | counted e b operand =>
    show 2 * m ≤ 2 + b.copies * (block e).size
    rcases Expr.longest_counted_eq_some.mp bounded with ⟨_, rfl⟩ | ⟨n, i, often, _, bound, rfl⟩
    · exact Nat.zero_le _
    · have copied : 2 * i * n ≤ (block e).size * n := Nat.mul_le_mul_right n (operand bound)
      rw [Bounds.copies_of_most_eq_some often, Nat.mul_comm n, ← Nat.mul_assoc]
      omega

/-- If the states of an expression are counted in 64 bits, its interval is not cut off. -/
theorem lengths_eq_of_size_le (room : (block e).size ≤ cap) :
    e.lengths = ⟨e.shortest, e.longest⟩ := by
  have shortest := two_mul_shortest_le e
  have least : e.lengths.least = e.shortest := by
    rw [Expr.lengths_least]
    omega
  have greatest : e.lengths.greatest = e.longest := by
    ext m
    rw [Expr.lengths_greatest_eq_some]
    constructor
    · exact fun bounded => bounded.1
    · intro bounded
      have longest := two_mul_longest_le bounded
      exact ⟨bounded, by omega⟩
  rw [← least, ← greatest]

/-- With a limit of 64 bits on the states, so many of them are counted. -/
theorem size_block_le_cap (built : ofExpr limits e = .ok nfa) (word : limits.states < UInt64.size) :
    (block e).size ≤ cap :=
  Nat.le_trans (size_block_le built) (Nat.le_sub_one_of_lt word)

/-- With a limit of 64 bits on the states, the interval of an automaton is not cut off. -/
theorem lengths_eq (built : ofExpr limits e = .ok nfa) (word : limits.states < UInt64.size) :
    nfa.lengths = ⟨e.shortest, e.longest⟩ := by
  have room := size_block_le_cap built word
  obtain rfl := eq_ofBlock built
  exact lengths_eq_of_size_le room

/-- Every accepted text has a length within the interval of the automaton. If the limit on the
states is a number of 64 bits and every class stands for some character, both ends of the interval
are lengths of accepted texts. -/
theorem lengths_sound_and_attained (built : ofExpr limits e = .ok nfa) :
    (∀ text, nfa.accepts text = true →
      nfa.lengths.least ≤ text.length ∧
        ∀ m, nfa.lengths.greatest = some m → text.length ≤ m) ∧
    (limits.states < UInt64.size → e.ClassesInhabited →
      (∃ text, nfa.accepts text = true ∧ text.length = nfa.lengths.least) ∧
        ∀ m, nfa.lengths.greatest = some m →
          ∃ text, nfa.accepts text = true ∧ text.length = m) := by
  constructor
  · intro text accepted
    obtain rfl := eq_ofBlock built
    have denotes := (accepts_ofBlock e text).mp accepted
    exact LengthRange.contains_iff.mp (Expr.lengths_contains denotes)
  · intro word inhabited
    rw [lengths_eq built word]
    obtain rfl := eq_ofBlock built
    simp only [accepts_ofBlock]
    exact ⟨Expr.exists_shortest inhabited, fun m => Expr.exists_longest inhabited⟩

/-- `(a|b?){2}` accepts the empty text, two characters, and nothing longer. -/
theorem lengths_of_counted_choice :
    let e : Expr :=
      .counted (.alternate (.literal 'a') (.repeated .optional (.literal 'b')))
        ⟨2, some 2, fun _ same => Nat.le_of_eq (Option.some.inj same)⟩
    ∃ nfa, ofExpr .standard e = .ok nfa ∧
      (∃ text, nfa.accepts text = true ∧ text.length = 0) ∧
      (∃ text, nfa.accepts text = true ∧ text.length = 2) ∧
      ∀ text, nfa.accepts text = true → text.length ≤ 2 := by
  intro e
  have built : ofExpr .standard e = .ok (ofBlock e) := rfl
  have word : Limits.standard.states < UInt64.size := by decide
  obtain ⟨sound, attained⟩ := lengths_sound_and_attained built
  obtain ⟨least, greatest⟩ := attained word ⟨trivial, trivial⟩
  exact ⟨ofBlock e, built, least, greatest 2 rfl,
    fun text accepted => (sound text accepted).2 2 rfl⟩

end Nfa

end FullMatch
