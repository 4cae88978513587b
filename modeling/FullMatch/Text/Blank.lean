/-!
# Blank characters

The characters of the Unicode property `White_Space`, and text without those at its ends.
-/

namespace FullMatch.Text

/-- The ranges of the property, by code point. -/
def blankRanges : List (Nat × Nat) :=
  [(0x09, 0x0D), (0x20, 0x20), (0x85, 0x85), (0xA0, 0xA0), (0x1680, 0x1680), (0x2000, 0x200A),
    (0x2028, 0x2029), (0x202F, 0x202F), (0x205F, 0x205F), (0x3000, 0x3000)]

/-- Whether a character is white space. -/
def isBlank (c : Char) : Bool :=
  blankRanges.any fun (low, high) => low ≤ c.toNat && c.toNat ≤ high

/-- The characters of the property, one by one. -/
def whiteSpace : List Char :=
  ['\t', '\n', '\x0b', '\x0c', '\r', ' ', '\u0085', '\u00a0', '\u1680', '\u2000', '\u2001',
    '\u2002', '\u2003', '\u2004', '\u2005', '\u2006', '\u2007', '\u2008', '\u2009', '\u200a',
    '\u2028', '\u2029', '\u202f', '\u205f', '\u3000']

/-- The text without blank characters at either end. -/
def trim (text : List Char) : List Char :=
  ((text.dropWhile isBlank).reverse.dropWhile isBlank).reverse

variable {before word after : List Char} {c : Char}

/-- The ranges cover the characters of the property and no others. -/
theorem isBlank_iff : isBlank c = true ↔ c ∈ whiteSpace := by
  have points : c ∈ whiteSpace ↔ c.toNat ∈ whiteSpace.map Char.toNat := by
    refine ⟨List.mem_map_of_mem, fun listed => ?_⟩
    obtain ⟨d, member, same⟩ := List.mem_map.mp listed
    exact Char.toNat_inj.mp same ▸ member
  rw [points]
  simp only [whiteSpace, List.map_cons, List.map_nil, Char.reduceToNat, List.mem_cons,
    List.not_mem_nil, or_false, isBlank, blankRanges, List.any_cons, List.any_nil, Bool.or_false,
    Bool.or_eq_true, Bool.and_eq_true, decide_eq_true_eq]
  omega

/-- What is cut off at the ends of a text is blank. -/
theorem exists_append_trim (text : List Char) :
    ∃ before after, text = before ++ trim text ++ after ∧
      (∀ c ∈ before, isBlank c = true) ∧ ∀ c ∈ after, isBlank c = true := by
  have front := text.takeWhile_append_dropWhile (p := isBlank)
  have back := (text.dropWhile isBlank).reverse.takeWhile_append_dropWhile (p := isBlank)
  refine ⟨text.takeWhile isBlank, ((text.dropWhile isBlank).reverse.takeWhile isBlank).reverse,
    ?_, ?_, ?_⟩
  · rw [trim, List.append_assoc, ← List.reverse_append, back, List.reverse_reverse, front]
  · exact List.all_eq_true.mp List.all_takeWhile
  · intro c cut
    exact List.all_eq_true.mp List.all_takeWhile c (List.mem_reverse.mp cut)

/-- A word without blanks is what remains between blanks. -/
theorem trim_append (front : ∀ c ∈ before, isBlank c = true)
    (back : ∀ c ∈ after, isBlank c = true) (solid : ∀ c ∈ word, ¬ isBlank c = true)
    (nonempty : word ≠ []) : trim (before ++ word ++ after) = word := by
  have begins (rest : List Char) : (word ++ rest).dropWhile isBlank = word ++ rest := by
    obtain ⟨c, letters, rfl⟩ := List.exists_cons_of_ne_nil nonempty
    exact List.dropWhile_cons_of_neg (solid c List.mem_cons_self)
  have ends : word.reverse.dropWhile isBlank = word.reverse := by
    obtain ⟨c, letters, last⟩ := List.exists_cons_of_ne_nil (mt List.reverse_eq_nil_iff.mp nonempty)
    rw [last]
    refine List.dropWhile_cons_of_neg (solid c (List.mem_reverse.mp ?_))
    rw [last]
    exact List.mem_cons_self
  rw [trim, List.append_assoc, List.dropWhile_append_of_pos front, begins, List.reverse_append,
    List.dropWhile_append_of_pos fun c cut => back c (List.mem_reverse.mp cut), ends,
    List.reverse_reverse]

/-- Blanks are not letters of either case. -/
theorem toLower_of_isBlank (blank : isBlank c = true) : c.toLower = c := by
  refine dif_neg ?_
  rintro ⟨low, high⟩
  have least : 65 ≤ c.toNat := low
  have greatest : c.toNat ≤ 90 := high
  simp only [isBlank, blankRanges, List.any_cons, List.any_nil, Bool.or_eq_true,
    Bool.and_eq_true, decide_eq_true_eq, Bool.or_false] at blank
  omega

end FullMatch.Text
