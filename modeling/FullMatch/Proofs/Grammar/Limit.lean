import FullMatch.Grammar.Reader

/-!
# Limit on repetition counts

The limit on repetition counts is looked at only where a count is closed. Raising it keeps every
step that succeeds, and so every expression that is read (`read_of_le`). Hence two limits under
which the same tokens can be read give the same expression (`read_unique`).
-/

namespace FullMatch.Grammar

namespace Reader

variable {limit limit' : UInt32} {r r' : Reader}

theorem closeBounds_of_le (raised : limit ≤ limit') {opened least : Nat} {e : Expr}
    {most : Option Nat} (closed : r.closeBounds limit opened e least most = .ok r') :
    r.closeBounds limit' opened e least most = .ok r' := by
  rw [closeBounds] at closed ⊢
  have room : limit.toNat ≤ limit'.toNat := UInt32.le_iff_toNat_le.mp raised
  by_cases crossed : limit.toNat < most.getD least
  · rw [if_pos crossed] at closed
    cases closed
  · rw [if_neg crossed] at closed
    rw [if_neg (by omega)]
    exact closed

/-- Only the closing brace of a count looks at the limit. -/
theorem inBounds_of_le (raised : limit ≤ limit') {opened : Nat} {e : Expr} {counting : Counting}
    {t : Token} (read : r.inBounds limit opened e counting t = .ok r') :
    r.inBounds limit' opened e counting t = .ok r' := by
  unfold inBounds at read ⊢
  split at read
  · exact read
  · exact read
  · exact read
  · exact closeBounds_of_le raised read
  · exact closeBounds_of_le raised read
  all_goals cases read

theorem step_of_le (raised : limit ≤ limit') {t : Token} (stepped : r.step limit t = .ok r') :
    r.step limit' t = .ok r' := by
  rw [step] at stepped ⊢
  cases focus : r.focus with
  | ready => rwa [focus] at stepped
  | base e => rwa [focus] at stepped
  | bounds opened e counting =>
    rw [focus] at stepped
    exact inBounds_of_le raised stepped
  | inClass c => rwa [focus] at stepped

theorem feed_of_le (raised : limit ≤ limit') {tokens : List Token}
    (fed : r.feed limit tokens = .ok r') : r.feed limit' tokens = .ok r' := by
  induction tokens generalizing r with
  | nil => exact fed
  | cons t tokens ih =>
    rw [feed] at fed ⊢
    split at fed
    · next between stepped =>
      rw [step_of_le raised stepped]
      exact ih fed
    · cases fed

end Reader

variable {limit limit' : UInt32} {tokens : List Token} {e e' : Expr}

/-- Raising the limit loses no expression. -/
theorem read_of_le (raised : limit ≤ limit') (done : read limit tokens = .ok e) :
    read limit' tokens = .ok e := by
  rw [read] at done ⊢
  split at done
  · next r fed =>
    rw [Reader.feed_of_le raised fed]
    exact done
  · cases done

/-- Whatever limits they are read under, tokens denote one expression. -/
theorem read_unique (done : read limit tokens = .ok e) (done' : read limit' tokens = .ok e') :
    e = e' := by
  rcases UInt32.le_total limit limit' with raised | raised
  · exact Except.ok.inj ((read_of_le raised done).symm.trans done')
  · exact Except.ok.inj (done.symm.trans (read_of_le raised done'))

end FullMatch.Grammar
