import FullMatch.CharSet
import Mathlib.Data.Set.Card

/-!
# Sets listed once

How many members a set has, read off a list that names no member twice: exactly as many as the list
if it names them all (`encard_eq_length`), and more than a number if the list is longer than it
(`lt_encard_of_nodup`). The size of a set of characters is read off a list in the same way
(`CharSet.size_eq_length`).
-/

namespace FullMatch

variable {α : Type} {s : Set α} {members : List α} {n : Nat}

/-- A set has as many members as a list that names each of them once. -/
theorem encard_eq_length (nodup : members.Nodup) (listed : ∀ a, a ∈ members ↔ a ∈ s) :
    s.encard = members.length := by
  classical
  have same : s = (members.toFinset : Set α) := by
    ext a
    rw [← listed, List.coe_toFinset]
    rfl
  rw [same, Set.encard_coe_eq_coe_finsetCard, List.toFinset_card_of_nodup nodup]

/-- A set has more members than a number if a longer list names some of them once. -/
theorem lt_encard_of_nodup (nodup : members.Nodup) (inside : ∀ a ∈ members, a ∈ s)
    (long : n < members.length) : (n : ℕ∞) < s.encard := by
  calc (n : ℕ∞)
    _ < (members.length : ℕ∞) := by exact_mod_cast long
    _ = {a | a ∈ members}.encard := (encard_eq_length nodup fun a => Iff.rfl).symm
    _ ≤ s.encard := Set.encard_le_encard inside

/-- A set of characters lists none of them twice. -/
theorem CharSet.nodup_toList (chars : CharSet) : chars.toList.Nodup := by
  refine Std.ExtTreeSet.distinct_toList.imp ?_
  rintro c _ distinct rfl
  exact distinct Std.ReflCmp.compare_self

/-- A set has no more characters than a list that names them all. -/
theorem CharSet.size_le_length {chars : CharSet} {list : List Char}
    (listed : ∀ c ∈ chars, c ∈ list) : chars.size ≤ list.length := by
  rw [← Std.ExtTreeSet.length_toList]
  refine (List.subperm_of_subset chars.nodup_toList fun c member => ?_).length_le
  exact listed c (Std.ExtTreeSet.mem_toList.mp member)

/-- A set has as many characters as a list that names each of them once. -/
theorem CharSet.size_eq_length {chars : CharSet} {list : List Char} (nodup : list.Nodup)
    (listed : ∀ c, c ∈ list ↔ c ∈ chars) : chars.size = list.length := by
  rw [← Std.ExtTreeSet.length_toList]
  refine ((List.perm_ext_iff_of_nodup chars.nodup_toList nodup).mpr fun c => ?_).length_eq
  rw [Std.ExtTreeSet.mem_toList, listed]

theorem CharSet.size_le_size {chars others : CharSet} (inside : ∀ c ∈ chars, c ∈ others) :
    chars.size ≤ others.size := by
  rw [← Std.ExtTreeSet.length_toList (t := others)]
  exact size_le_length fun c member => Std.ExtTreeSet.mem_toList.mpr (inside c member)

theorem CharSet.size_pos {chars : CharSet} {c : Char} (member : c ∈ chars) : 0 < chars.size := by
  rw [Nat.pos_iff_ne_zero, ne_eq, ← Std.ExtTreeSet.eq_empty_iff_size_eq_zero]
  rintro rfl
  exact Std.ExtTreeSet.not_mem_empty member

end FullMatch
