import FullMatch.Expr.Spine

/-!
# Language of an expression

The texts that an expression stands for, said without any automaton. It is what compiled patterns
are measured against.
-/

namespace FullMatch

/-- Whether an atom reads a character, said without a set. -/
def Atom.Reads : Atom → Char → Prop
  | .literal c, d => d = c
  | .anyChar, d => d.toNat < 128
  | .wordChar, d => '0' ≤ d ∧ d ≤ '9' ∨ 'a' ≤ d ∧ d ≤ 'z' ∨ 'A' ≤ d ∧ d ≤ 'Z' ∨ d = '_'
  | .digit, d => '0' ≤ d ∧ d ≤ '9'
  | .charClass k, d => if k.negated then d.toNat < 128 ∧ d ∉ k.members else d ∈ k.members

/-- The set of an atom holds the characters that it reads. -/
theorem Atom.mem_chars {a : Atom} {c : Char} : c ∈ a.chars ↔ a.Reads c := by
  cases a with
  | literal d => simpa [chars, Reads] using eq_comm
  | anyChar => exact CharSet.mem_ascii
  | wordChar => exact CharSet.mem_wordChars
  | digit => exact CharSet.mem_digits
  | charClass k =>
    simp only [chars, Reads, CharClass.chars]
    split
    · rw [CharSet.mem_complement, CharSet.mem_ascii]
    · exact Iff.rfl

/-- How often a postfix repetition may take its operand. -/
def RepeatOp.Allows : RepeatOp → Nat → Prop
  | .zeroOrMore, _ => True
  | .oneOrMore, k => 1 ≤ k
  | .optional, k => k ≤ 1

theorem RepeatOp.allows_zero_iff {op : RepeatOp} : op.Allows 0 ↔ op.skips = true := by
  cases op <;> simp [Allows, skips]

theorem RepeatOp.allows_succ_iff {op : RepeatOp} {k : Nat} :
    op.Allows (k + 1) ↔ op.loops = true ∨ k = 0 := by
  cases op <;> simp [Allows, loops]

/-- How often a counted repetition may take its operand. -/
def Bounds.Allows (b : Bounds) (k : Nat) : Prop :=
  b.least ≤ k ∧ ∀ m ∈ b.most, k ≤ m

/-- The texts made of `k` texts of a language, one after another. -/
def Power (language : List Char → Prop) : (k : Nat) → List Char → Prop
  | 0, text => text = []
  | k + 1, text => ∃ first rest, text = first ++ rest ∧ language first ∧ Power language k rest

/-- The texts that an expression stands for. -/
def Expr.Denotes : Expr → List Char → Prop
  | .empty, text => text = []
  | .atom a, text => ∃ c, a.Reads c ∧ text = [c]
  | .concat l r, text => ∃ first rest, text = first ++ rest ∧ l.Denotes first ∧ r.Denotes rest
  | .alternate l r, text => l.Denotes text ∨ r.Denotes text
  | .repeated op e, text => ∃ k, op.Allows k ∧ Power e.Denotes k text
  | .counted e b, text => ∃ k, b.Allows k ∧ Power e.Denotes k text

/-- An expression stands for the texts of the branches of its alternation. -/
theorem Expr.denotes_iff_alternatives {e : Expr} {text : List Char} :
    e.Denotes text ↔ ∃ branch ∈ e.alternatives, branch.Denotes text := by
  induction e with
  | alternate l r ihl _ =>
    rw [alternatives_alternate, Denotes, ihl]
    simp only [List.mem_append, List.mem_singleton]
    constructor
    · rintro (⟨branch, member, denotes⟩ | denotes)
      · exact ⟨branch, .inl member, denotes⟩
      · exact ⟨r, .inr rfl, denotes⟩
    · rintro ⟨branch, member | rfl, denotes⟩
      · exact .inl ⟨branch, member, denotes⟩
      · exact .inr denotes
  | _ => simp [alternatives, alternativesOnto]

end FullMatch
