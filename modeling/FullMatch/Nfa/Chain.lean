import FullMatch.Nfa.Block
import Mathlib.Algebra.GroupWithZero.Nat

/-!
# Chains of blocks

A chain of blocks is laid out in one pass over the list. Here it is shown to be the same as laying
out two blocks one after the other, again and again (`Block.chain_append`), so the block of a
concatenation is that of its left operand and then that of its right one (`block_concat`).
-/

namespace FullMatch.Nfa.Block

/-- Two blocks one after the other, the exit of the first leading to the entry of the second. -/
def append (a b : Block) : Block where
  size := a.size + b.size
  entry := a.entry
  exit := a.size + b.exit
  states base x :=
    a.states base (.into {base + a.size + b.entry}) ++ b.states (base + a.size) x

theorem totalSize_eq (blocks : List Block) : totalSize blocks = (blocks.map size).sum := by
  have folded (n : Nat) : blocks.foldl (fun n b => n + b.size) n = n + (blocks.map size).sum := by
    induction blocks generalizing n with
    | nil => simp
    | cons b blocks ih => simp [ih, Nat.add_assoc]
  rw [totalSize, folded, Nat.zero_add]

/-- The pieces laid out before stay where they are. -/
theorem chainOnto_eq (done : List (List State)) (base : Nat) (x : Exit) (blocks : List Block) :
    chainOnto done base x blocks = chainOnto [] base x blocks ++ done := by
  induction blocks generalizing done base with
  | nil => rfl
  | cons b blocks ih =>
    cases blocks with
    | nil => rfl
    | cons next blocks => rw [chainOnto, chainOnto, ih, ih [_], List.append_assoc]; rfl

/-- The last block comes last, and the block in front of it leads to its entry. -/
theorem chainOnto_append (base : Nat) (x : Exit) (blocks : List Block) (b : Block)
    (nonempty : blocks ≠ []) :
    chainOnto [] base x (blocks ++ [b]) =
      b.states (base + totalSize blocks) x ::
        chainOnto [] base (.into {base + totalSize blocks + b.entry}) blocks := by
  induction blocks generalizing base with
  | nil => exact absurd rfl nonempty
  | cons a blocks ih =>
    cases blocks with
    | nil => simp [chainOnto, totalSize]
    | cons next blocks =>
      simp only [List.cons_append, chainOnto] at ih ⊢
      rw [chainOnto_eq, ih _ (by simp), chainOnto_eq [_]]
      simp [totalSize_eq, Nat.add_assoc]

theorem chain_singleton (b : Block) : chain [b] = b := by
  simp [chain, chainOnto, totalSize]

/-- A longer chain is a chain with one block behind it. -/
theorem chain_append (blocks : List Block) (b : Block) (nonempty : blocks ≠ []) :
    chain (blocks ++ [b]) = (chain blocks).append b := by
  have heads : (blocks ++ [b]).head? = blocks.head? := by
    rw [List.head?_append, List.head?_eq_some_head nonempty, Option.some_or]
  simp [chain, append, heads, chainOnto_append _ _ _ b nonempty, totalSize_eq, Nat.add_assoc]

end FullMatch.Nfa.Block

namespace FullMatch.Nfa

/-- The block of a concatenation is that of its operands one after the other. -/
theorem block_concat (l r : Expr) : block (.concat l r) = (block l).append (block r) :=
  Expr.fold_concat_eq Block.chain_singleton Block.chain_append l r

end FullMatch.Nfa
