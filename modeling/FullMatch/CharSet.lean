import Std.Data.ExtTreeSet

/-!
# Character sets

Finite sets of characters, equal as soon as they have the same members, and listed in code point
order. The sets that a pattern names without listing them (`.`, `\w`, `\d`) and the complement
that `[^…]` takes all speak of ASCII. Each set comes with what its members are.
-/

namespace FullMatch

/-- Characters are in the order of their numbers. -/
theorem Char.le_iff_toNat_le {c d : Char} : c ≤ d ↔ c.toNat ≤ d.toNat :=
  UInt32.le_iff_toNat_le

/-- A finite set of characters. -/
abbrev CharSet := Std.ExtTreeSet Char

namespace CharSet

theorem mem_insert {set : CharSet} {c d : Char} : d ∈ set.insert c ↔ d = c ∨ d ∈ set := by
  rw [Std.ExtTreeSet.mem_insert, Std.LawfulEqCmp.compare_eq_iff_eq, eq_comm]

/-- `set` together with the characters numbered `low` to `high`, both included. The numbers of
surrogates name no character and add nothing. -/
def insertRange (set : CharSet) (low high : Char) : CharSet :=
  (List.range' low.toNat (high.toNat + 1 - low.toNat)).foldl
    (fun set n => if n.isValidChar then set.insert (Char.ofNat n) else set) set

theorem toNat_ofNat_of_isValidChar {n : Nat} (h : n.isValidChar) : (Char.ofNat n).toNat = n := by
  rw [Char.ofNat, dif_pos h]
  rfl

theorem mem_foldl_insert {c : Char} (numbers : List Nat) (set : CharSet) :
    c ∈ numbers.foldl
        (fun set n => if n.isValidChar then set.insert (Char.ofNat n) else set) set ↔
      c ∈ set ∨ c.toNat ∈ numbers := by
  induction numbers generalizing set with
  | nil => simp
  | cons n numbers ih =>
    rw [List.foldl_cons, ih, List.mem_cons]
    split
    · next valid =>
      have same : Char.ofNat n = c ↔ c.toNat = n := by
        constructor
        · rintro rfl; exact toNat_ofNat_of_isValidChar valid
        · rintro rfl; exact Char.ofNat_toNat c
      rw [Std.ExtTreeSet.mem_insert, Std.LawfulEqCmp.compare_eq_iff_eq, same]
      grind
    · next invalid =>
      have : c.toNat ≠ n := by rintro rfl; exact invalid c.valid
      grind

/-- A range adds the characters between its ends. -/
theorem mem_insertRange {set : CharSet} {low high c : Char} :
    c ∈ set.insertRange low high ↔ c ∈ set ∨ low ≤ c ∧ c ≤ high := by
  rw [insertRange, mem_foldl_insert, List.mem_range'_1, Char.le_iff_toNat_le,
    Char.le_iff_toNat_le]
  refine or_congr Iff.rfl ?_
  omega

/-- The characters that `.` stands for. -/
def ascii : CharSet :=
  insertRange ∅ '\x00' '\x7f'

theorem mem_ascii {c : Char} : c ∈ ascii ↔ c.toNat < 128 := by
  rw [ascii, mem_insertRange, Char.le_iff_toNat_le, Char.le_iff_toNat_le]
  simp [Std.ExtTreeSet.not_mem_empty]
  omega

/-- The characters that `\d` stands for. -/
def digits : CharSet :=
  insertRange ∅ '0' '9'

theorem mem_digits {c : Char} : c ∈ digits ↔ '0' ≤ c ∧ c ≤ '9' := by
  simp [digits, mem_insertRange]

/-- The characters that `\w` stands for: letters, digits and the underscore. -/
def wordChars : CharSet :=
  (insertRange (insertRange digits 'a' 'z') 'A' 'Z').insert '_'

theorem mem_wordChars {c : Char} :
    c ∈ wordChars ↔ '0' ≤ c ∧ c ≤ '9' ∨ 'a' ≤ c ∧ c ≤ 'z' ∨ 'A' ≤ c ∧ c ≤ 'Z' ∨ c = '_' := by
  simp [wordChars, mem_insertRange, mem_digits]
  grind

/-- The ASCII characters outside `set`. -/
def complement (set : CharSet) : CharSet :=
  ascii.filter fun c => !set.contains c

theorem mem_complement {set : CharSet} {c : Char} : c ∈ set.complement ↔ c ∈ ascii ∧ c ∉ set := by
  simp [complement, Std.ExtTreeSet.mem_filter, ← Bool.not_eq_true]

end CharSet

end FullMatch
