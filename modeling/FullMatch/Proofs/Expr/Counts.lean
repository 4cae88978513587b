import FullMatch.Proofs.Expr.Reprint
import FullMatch.Proofs.Grammar.Limit

/-!
# Repetition counts that are read

The limit on repetition counts takes patterns out and changes none. A phrase stays a phrase under
every limit that the counts in its expression keep to (`Grammar.Derives.of_counts_le`), so a pattern
is read under a limit exactly when it is read under the highest one and none of its counts is beyond
the limit (`parsePattern_filters`).
-/

namespace FullMatch

/-- The bounds of the counted repetitions in an expression, in the order in which they are
written. -/
def Expr.counts : Expr → List Bounds
  | .empty | .atom _ => []
  | .concat l r | .alternate l r => l.counts ++ r.counts
  | .repeated _ e => e.counts
  | .counted e b => e.counts ++ [b]

variable {limit limit' : UInt32} {pattern : String} {ts : List Token} {e : Expr}

namespace Grammar

/-- The highest limit on repetition counts that can be set. -/
def highestLimit : UInt32 :=
  .ofNat maxNumber

theorem le_highestLimit (limit : UInt32) : limit ≤ highestLimit := by
  rw [UInt32.le_iff_toNat_le, highestLimit]
  exact Nat.le_of_lt_succ limit.toNat_lt

/-- The counts of an expression that keeps to a limit are within it. -/
theorem Admits.largest_le (admits : Admits limit e) :
    ∀ b ∈ e.counts, b.largest ≤ limit.toNat := by
  induction e with
  | empty | atom => exact nofun
  | concat l r left right | alternate l r left right =>
    exact List.forall_mem_append.mpr ⟨left admits.1, right admits.2⟩
  | repeated op e ih => exact ih admits
  | counted e b ih =>
    exact List.forall_mem_append.mpr ⟨ih admits.1, List.forall_mem_singleton.mpr admits.2⟩

/-- A phrase is a phrase under any limit that its counts are within. -/
theorem Derives.of_counts_le {c : Category} (derives : Derives limit c ts e)
    (within : ∀ b ∈ e.counts, b.largest ≤ limit'.toNat) : Derives limit' c ts e := by
  induction derives with
  | branch _ ih => exact .branch (ih within)
  | alternate _ separates _ left right =>
    obtain ⟨first, second⟩ := List.forall_mem_append.mp within
    exact .alternate (left first) separates (right second)
  | empty => exact .empty
  | nonempty _ ih => exact .nonempty (ih within)
  | single _ ih => exact .single (ih within)
  | concat _ _ left right =>
    obtain ⟨first, second⟩ := List.forall_mem_append.mp within
    exact .concat (left first) (right second)
  | bare _ ih => exact .bare (ih within)
  | repeated _ repeats ih => exact .repeated (ih within) repeats
  | counted _ opens bounds closes _ ih =>
    obtain ⟨inner, own⟩ := List.forall_mem_append.mp within
    exact .counted (ih inner) opens bounds closes (own _ (List.mem_singleton_self _))
  | literal literal => exact .literal literal
  | anyChar kind => exact .anyChar kind
  | wordChar kind => exact .wordChar kind
  | digit kind => exact .digit kind
  | group opens _ closes ih => exact .group opens (ih within) closes
  | charClass opens inner closes => exact .charClass opens inner closes

/-- Tokens are read under a limit exactly when they are read under a higher one as an expression
whose counts are within the limit. -/
theorem read_eq_ok_iff_counts_le (faithful : ∀ t ∈ ts, t.Faithful) (raised : limit ≤ limit') :
    read limit ts = .ok e ↔
      read limit' ts = .ok e ∧ ∀ b ∈ e.counts, b.largest ≤ limit.toNat := by
  constructor
  · intro done
    exact ⟨read_of_le raised done, (derives_of_read faithful done).1.admits.largest_le⟩
  · rintro ⟨done, within⟩
    obtain ⟨derives, depth⟩ := derives_of_read faithful done
    exact read_of_derives (derives.of_counts_le within) faithful depth

end Grammar

open Grammar (highestLimit le_highestLimit)

/-- A pattern is read under a limit exactly when it is read under a higher one as an expression
whose counts are within the limit. -/
theorem parsePattern_eq_ok_iff_counts_le (raised : limit ≤ limit') :
    parsePattern limit pattern = .ok e ↔
      parsePattern limit' pattern = .ok e ∧ ∀ b ∈ e.counts, b.largest ≤ limit.toNat := by
  simp only [parsePattern_eq_ok]
  constructor
  · rintro ⟨ts, cut, done⟩
    obtain ⟨done, within⟩ :=
      (Grammar.read_eq_ok_iff_counts_le (Token.faithful_of_scan cut) raised).mp done
    exact ⟨⟨ts, cut, done⟩, within⟩
  · rintro ⟨⟨ts, cut, done⟩, within⟩
    exact ⟨ts, cut,
      (Grammar.read_eq_ok_iff_counts_le (Token.faithful_of_scan cut) raised).mpr ⟨done, within⟩⟩

/-- A limit on repetition counts only filters: a pattern is read under it as an expression exactly
when it is read so under the highest limit and each count in the expression is within the limit. So
a higher limit keeps every pattern that is read, and what it is read as. -/
theorem parsePattern_filters (limit : UInt32) (pattern : String) :
    (∀ e, parsePattern limit pattern = .ok e ↔
      parsePattern highestLimit pattern = .ok e ∧ ∀ b ∈ e.counts, b.largest ≤ limit.toNat) ∧
    ∀ limit', limit ≤ limit' → ∀ e, parsePattern limit pattern = .ok e →
      parsePattern limit' pattern = .ok e := by
  refine ⟨fun e => parsePattern_eq_ok_iff_counts_le (le_highestLimit limit), ?_⟩
  intro limit' raised e parsed
  exact ((parsePattern_eq_ok_iff_counts_le raised).mp parsed).1

/-- With counts up to 4, `(a{2,3}|b{4,})c{1}` is read as it is with counts up to 9, and with counts
up to 3 it is not read at all. -/
theorem parsePattern_filters_of_nested :
    ∃ e, parsePattern 4 "(a\x7b2,3\x7d|b\x7b4,\x7d)c\x7b1\x7d" = .ok e ∧
      parsePattern 9 "(a\x7b2,3\x7d|b\x7b4,\x7d)c\x7b1\x7d" = .ok e ∧
      e.counts.map Bounds.largest = [3, 4, 1] ∧
      ∀ e', parsePattern 3 "(a\x7b2,3\x7d|b\x7b4,\x7d)c\x7b1\x7d" ≠ .ok e' := by
  let e : Expr := .concat
    (.alternate (.counted (.literal 'a') ⟨2, some 3, by decide⟩)
      (.counted (.literal 'b') (.atLeast 4)))
    (.counted (.literal 'c') ⟨1, some 1, by decide⟩)
  let pattern := "(a\x7b2,3\x7d|b\x7b4,\x7d)c\x7b1\x7d"
  have parsed : parsePattern 4 pattern = .ok e := by
    have chars : pattern.toList = ['(', 'a', '\x7b', '2', ',', '3', '\x7d', '|', 'b', '\x7b', '4',
      ',', '\x7d', ')', 'c', '\x7b', '1', '\x7d'] := String.toList_ofList
    rw [parsePattern, Token.scan, chars]
    rfl
  have raised := (parsePattern_filters 4 pattern).2 9 (by decide) e parsed
  refine ⟨e, parsed, raised, rfl, fun e' parsed' => ?_⟩
  obtain ⟨highest, within⟩ := ((parsePattern_filters 3 pattern).1 e').mp parsed'
  obtain ⟨highest', -⟩ := ((parsePattern_filters 4 pattern).1 e).mp parsed
  obtain rfl := Except.ok.inj (highest'.symm.trans highest)
  exact absurd (within (.atLeast 4) (by decide)) (by decide)

end FullMatch
