import FullMatch.Expr.Language

/-!
# Shortest and longest texts

How long the texts of an expression can be, by plain recursion on the tree and over all natural
numbers. No text of an expression is shorter than `Expr.shortest` or longer than `Expr.longest`, and
there are texts that are exactly so long unless a class without characters stands in the way.
-/

namespace FullMatch

namespace Power

variable {language : List Char → Prop} {k n : Nat} {text : List Char}

theorem mul_le_length (bound : ∀ text, language text → n ≤ text.length)
    (power : Power language k text) : n * k ≤ text.length := by
  induction k generalizing text with
  | zero => exact Nat.zero_le _
  | succ k ih =>
    obtain ⟨first, rest, rfl, member, power⟩ := power
    have head := bound first member
    have tail := ih power
    rw [List.length_append, Nat.mul_add_one]
    omega

theorem length_le_mul (bound : ∀ text, language text → text.length ≤ n)
    (power : Power language k text) : text.length ≤ n * k := by
  induction k generalizing text with
  | zero =>
    obtain rfl : text = [] := power
    exact Nat.zero_le _
  | succ k ih =>
    obtain ⟨first, rest, rfl, member, power⟩ := power
    have head := bound first member
    have tail := ih power
    rw [List.length_append, Nat.mul_add_one]
    omega

/-- A text taken `k` times over. -/
theorem exists_length (member : language text) (k : Nat) :
    ∃ whole, Power language k whole ∧ whole.length = text.length * k := by
  induction k with
  | zero => exact ⟨[], rfl, rfl⟩
  | succ k ih =>
    obtain ⟨rest, power, length⟩ := ih
    refine ⟨text ++ rest, ⟨text, rest, rfl, member, power⟩, ?_⟩
    rw [List.length_append, length, Nat.mul_add_one, Nat.add_comm]

end Power

namespace Expr

/-- The length of the shortest texts. -/
def shortest : Expr → Nat
  | .empty => 0
  | .atom _ => 1
  | .concat l r => l.shortest + r.shortest
  | .alternate l r => min l.shortest r.shortest
  | .repeated op e => if op.skips then 0 else e.shortest
  | .counted e b => e.shortest * b.least

/-- The length of the longest texts, if there is an end to them. -/
def longest : Expr → Option Nat
  | .empty => some 0
  | .atom _ => some 1
  | .concat l r => do return (← l.longest) + (← r.longest)
  | .alternate l r => do return max (← l.longest) (← r.longest)
  | .repeated op e => if op.loops then none else e.longest
  | .counted e b => do
    let n ← b.most
    if n = 0 then some 0 else return (← e.longest) * n

/-- Every class in the expression stands for some character. -/
def ClassesInhabited : Expr → Prop
  | .empty => True
  | .atom (.charClass k) => ∃ c, (Atom.charClass k).Reads c
  | .atom _ => True
  | .concat l r => l.ClassesInhabited ∧ r.ClassesInhabited
  | .alternate l r => l.ClassesInhabited ∧ r.ClassesInhabited
  | .repeated _ e => e.ClassesInhabited
  | .counted e _ => e.ClassesInhabited

variable {e l r : Expr} {b : Bounds} {op : RepeatOp} {m : Nat} {text : List Char}

theorem longest_concat_eq_some :
    (Expr.concat l r).longest = some m ↔
      ∃ i j, l.longest = some i ∧ r.longest = some j ∧ i + j = m := by
  simp [longest, Option.bind_eq_some_iff]

theorem longest_alternate_eq_some :
    (Expr.alternate l r).longest = some m ↔
      ∃ i j, l.longest = some i ∧ r.longest = some j ∧ max i j = m := by
  simp [longest, Option.bind_eq_some_iff]

theorem longest_repeated_eq_some :
    (Expr.repeated op e).longest = some m ↔ op.loops = false ∧ e.longest = some m := by
  cases op <;> simp [longest, RepeatOp.loops]

/-- A counted repetition is bounded if it never takes its operand, or if both it and its operand
are. -/
theorem longest_counted_eq_some :
    (Expr.counted e b).longest = some m ↔
      b.most = some 0 ∧ m = 0 ∨
        ∃ n i, b.most = some n ∧ n ≠ 0 ∧ e.longest = some i ∧ i * n = m := by
  rw [longest]
  cases b.most with
  | none => simp
  | some n =>
    by_cases never : n = 0
    · simp [never, eq_comm]
    · simp [never, Option.bind_eq_some_iff]

/-- No text is shorter than the shortest. -/
theorem shortest_le_length (denotes : e.Denotes text) : e.shortest ≤ text.length := by
  induction e generalizing text with
  | empty => exact Nat.zero_le _
  | atom a =>
    obtain ⟨c, _, rfl⟩ := denotes
    exact Nat.le_refl 1
  | concat l r left right =>
    obtain ⟨first, rest, rfl, inLeft, inRight⟩ := denotes
    rw [List.length_append]
    exact Nat.add_le_add (left inLeft) (right inRight)
  | alternate l r left right =>
    rcases denotes with inLeft | inRight
    · exact Nat.le_trans (Nat.min_le_left _ _) (left inLeft)
    · exact Nat.le_trans (Nat.min_le_right _ _) (right inRight)
  | repeated op e operand =>
    obtain ⟨k, allowed, power⟩ := denotes
    have taken := Power.mul_le_length (fun _ member => operand member) power
    cases op with
    | zeroOrMore => exact Nat.zero_le _
    | oneOrMore => exact Nat.le_trans (Nat.le_mul_of_pos_right _ allowed) taken
    | optional => exact Nat.zero_le _
  | counted e b operand =>
    obtain ⟨k, ⟨enough, _⟩, power⟩ := denotes
    have taken := Power.mul_le_length (fun _ member => operand member) power
    exact Nat.le_trans (Nat.mul_le_mul_left _ enough) taken

/-- No text is longer than the longest. -/
theorem length_le_longest (bounded : e.longest = some m) (denotes : e.Denotes text) :
    text.length ≤ m := by
  induction e generalizing text m with
  | empty =>
    obtain rfl : text = [] := denotes
    exact Nat.zero_le _
  | atom a =>
    obtain ⟨c, _, rfl⟩ := denotes
    obtain rfl := Option.some.inj bounded
    exact Nat.le_refl 1
  | concat l r left right =>
    obtain ⟨i, j, boundL, boundR, rfl⟩ := longest_concat_eq_some.mp bounded
    obtain ⟨first, rest, rfl, inLeft, inRight⟩ := denotes
    rw [List.length_append]
    exact Nat.add_le_add (left boundL inLeft) (right boundR inRight)
  | alternate l r left right =>
    obtain ⟨i, j, boundL, boundR, rfl⟩ := longest_alternate_eq_some.mp bounded
    rcases denotes with inLeft | inRight
    · exact Nat.le_trans (left boundL inLeft) (Nat.le_max_left i j)
    · exact Nat.le_trans (right boundR inRight) (Nat.le_max_right i j)
  | repeated op e operand =>
    obtain ⟨once, boundE⟩ := longest_repeated_eq_some.mp bounded
    obtain ⟨k, allowed, power⟩ := denotes
    have taken := Power.length_le_mul (fun _ member => operand boundE member) power
    cases op with
    | zeroOrMore => cases once
    | oneOrMore => cases once
    | optional =>
      have single : m * k ≤ m * 1 := Nat.mul_le_mul_left m allowed
      rw [Nat.mul_one] at single
      exact Nat.le_trans taken single
  | counted e b operand =>
    obtain ⟨k, ⟨_, most⟩, power⟩ := denotes
    rcases longest_counted_eq_some.mp bounded with ⟨never, rfl⟩ | ⟨n, i, often, _, boundE, rfl⟩
    · obtain rfl : k = 0 := Nat.eq_zero_of_le_zero (most 0 never)
      obtain rfl : text = [] := power
      exact Nat.le_refl 0
    · have taken := Power.length_le_mul (fun _ member => operand boundE member) power
      exact Nat.le_trans taken (Nat.mul_le_mul_left i (most n often))

/-- The classes of a branch are classes of the alternation. -/
theorem inhabited_of_mem_alternatives {branch : Expr} (inhabited : e.ClassesInhabited)
    (member : branch ∈ e.alternatives) : branch.ClassesInhabited := by
  induction e with
  | alternate l r ihl _ =>
    rw [alternatives_alternate, List.mem_append, List.mem_singleton] at member
    rcases member with left | rfl
    · exact ihl inhabited.1 left
    · exact inhabited.2
  | _ =>
    obtain rfl := List.mem_singleton.mp member
    exact inhabited

theorem exists_reads {a : Atom} (inhabited : (Expr.atom a).ClassesInhabited) : ∃ c, a.Reads c := by
  cases a with
  | literal c => exact ⟨c, rfl⟩
  | anyChar => exact ⟨'0', by simp [Atom.Reads]⟩
  | wordChar => exact ⟨'0', by simp [Atom.Reads]⟩
  | digit => exact ⟨'0', by simp [Atom.Reads]⟩
  | charClass k => exact inhabited

/-- Some text is as short as the shortest. -/
theorem exists_shortest (inhabited : e.ClassesInhabited) :
    ∃ text, e.Denotes text ∧ text.length = e.shortest := by
  induction e with
  | empty => exact ⟨[], rfl, rfl⟩
  | atom a =>
    obtain ⟨c, reads⟩ := exists_reads inhabited
    exact ⟨[c], ⟨c, reads, rfl⟩, rfl⟩
  | concat l r left right =>
    obtain ⟨first, inLeft, lengthL⟩ := left inhabited.1
    obtain ⟨rest, inRight, lengthR⟩ := right inhabited.2
    refine ⟨first ++ rest, ⟨first, rest, rfl, inLeft, inRight⟩, ?_⟩
    rw [List.length_append, lengthL, lengthR, shortest]
  | alternate l r left right =>
    obtain ⟨first, inLeft, lengthL⟩ := left inhabited.1
    obtain ⟨second, inRight, lengthR⟩ := right inhabited.2
    rcases Nat.le_total l.shortest r.shortest with shorter | shorter
    · exact ⟨first, .inl inLeft, by rw [lengthL, shortest, Nat.min_eq_left shorter]⟩
    · exact ⟨second, .inr inRight, by rw [lengthR, shortest, Nat.min_eq_right shorter]⟩
  | repeated op e operand =>
    obtain ⟨text, member, length⟩ := operand inhabited
    obtain ⟨whole, power, total⟩ := Power.exists_length member 1
    cases op with
    | zeroOrMore => exact ⟨[], ⟨0, trivial, rfl⟩, rfl⟩
    | oneOrMore =>
      refine ⟨whole, ⟨1, Nat.le_refl 1, power⟩, ?_⟩
      rw [total, Nat.mul_one, length]
      rfl
    | optional => exact ⟨[], ⟨0, Nat.zero_le 1, rfl⟩, rfl⟩
  | counted e b operand =>
    obtain ⟨text, member, length⟩ := operand inhabited
    obtain ⟨whole, power, total⟩ := Power.exists_length member b.least
    refine ⟨whole, ⟨b.least, ⟨Nat.le_refl _, b.least_le_most⟩, power⟩, ?_⟩
    rw [total, length, shortest]

/-- Some text is as long as the longest. -/
theorem exists_longest (inhabited : e.ClassesInhabited) (bounded : e.longest = some m) :
    ∃ text, e.Denotes text ∧ text.length = m := by
  induction e generalizing m with
  | empty => exact ⟨[], rfl, Option.some.inj bounded⟩
  | atom a =>
    obtain ⟨c, reads⟩ := exists_reads inhabited
    exact ⟨[c], ⟨c, reads, rfl⟩, Option.some.inj bounded⟩
  | concat l r left right =>
    obtain ⟨i, j, boundL, boundR, rfl⟩ := longest_concat_eq_some.mp bounded
    obtain ⟨first, inLeft, lengthL⟩ := left inhabited.1 boundL
    obtain ⟨rest, inRight, lengthR⟩ := right inhabited.2 boundR
    refine ⟨first ++ rest, ⟨first, rest, rfl, inLeft, inRight⟩, ?_⟩
    rw [List.length_append, lengthL, lengthR]
  | alternate l r left right =>
    obtain ⟨i, j, boundL, boundR, rfl⟩ := longest_alternate_eq_some.mp bounded
    obtain ⟨first, inLeft, lengthL⟩ := left inhabited.1 boundL
    obtain ⟨second, inRight, lengthR⟩ := right inhabited.2 boundR
    rcases Nat.le_total i j with longer | longer
    · exact ⟨second, .inr inRight, by rw [lengthR, Nat.max_eq_right longer]⟩
    · exact ⟨first, .inl inLeft, by rw [lengthL, Nat.max_eq_left longer]⟩
  | repeated op e operand =>
    obtain ⟨once, boundE⟩ := longest_repeated_eq_some.mp bounded
    obtain ⟨text, member, length⟩ := operand inhabited boundE
    obtain ⟨whole, power, total⟩ := Power.exists_length member 1
    refine ⟨whole, ⟨1, RepeatOp.allows_succ_iff.mpr (.inr rfl), power⟩, ?_⟩
    rw [total, Nat.mul_one, length]
  | counted e b operand =>
    rcases longest_counted_eq_some.mp bounded with ⟨never, rfl⟩ | ⟨n, i, often, _, boundE, rfl⟩
    · refine ⟨[], ⟨0, ⟨b.least_le_most 0 never, ?_⟩, rfl⟩, rfl⟩
      exact fun m _ => Nat.zero_le m
    · obtain ⟨text, member, length⟩ := operand inhabited boundE
      obtain ⟨whole, power, total⟩ := Power.exists_length member n
      refine ⟨whole, ⟨n, ⟨b.least_le_most n often, ?_⟩, power⟩, ?_⟩
      · intro m most
        exact Nat.le_of_eq (Option.some.inj (often.symm.trans most))
      · rw [total, length]

end Expr

end FullMatch
