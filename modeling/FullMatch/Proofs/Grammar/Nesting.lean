import FullMatch.Grammar.Derivation
import FullMatch.Token.Nesting

/-!
# Nesting of phrases

Only groups hold parentheses, and each group closes what it opens (`Derives.nests`). So behind a
phrase as many groups are open as in front of it (`Derives.balanced`).
-/

namespace FullMatch.Grammar

open Token (Flat Nests)

variable {ts : List Token} {k : CharClass} {items : List Item} {n : Nat} {most : Option Nat}

/-- Whether a kind of token may stand between the brackets of a class. -/
def isMember : Token.Kind → Bool
  | .char | .escaped | .caret | .dash | .word | .digit => true
  | _ => false

theorem isMember_of_isLiteral {t : Token} (literal : t.isLiteral = true) :
    isMember t.kind = true := by
  rcases Token.isLiteral_iff.mp literal with kind | kind
  · rw [kind]
    rfl
  · rw [kind]
    rfl

theorem not_isParen_of_isMember {kind : Token.Kind} (member : isMember kind = true) :
    kind.isParen = false := by
  cases kind <;> first | rfl | cases member

theorem not_isParen_of_isLiteral {t : Token} (literal : t.isLiteral = true) :
    t.kind.isParen = false :=
  not_isParen_of_isMember (isMember_of_isLiteral literal)

theorem IsNumber.flat (number : IsNumber ts n) : Flat ts := by
  intro t member
  rw [number.digits t member]
  rfl

theorem IsBounds.flat (bounds : IsBounds ts n most) : Flat ts := by
  cases bounds with
  | exactly number => exact number.flat
  | atLeast number separates =>
    refine number.flat.append (.singleton ?_)
    rw [separates]
    rfl
  | between least separates most =>
    refine least.flat.append (.cons ?_ most.flat)
    rw [separates]
    rfl

theorem Lists.isMember (lists : Lists ts items) : ∀ t ∈ ts, isMember t.kind = true := by
  induction lists with
  | nil => exact nofun
  | literal literal _ _ ih => exact List.forall_mem_cons.mpr ⟨isMember_of_isLiteral literal, ih⟩
  | range first completes _ _ _ ih =>
    obtain ⟨dash, last⟩ := completes
    exact List.forall_mem_cons.mpr ⟨isMember_of_isLiteral first,
      List.forall_mem_cons.mpr ⟨dash ▸ rfl,
        List.forall_mem_cons.mpr ⟨isMember_of_isLiteral last, ih⟩⟩⟩
  | dash kind _ ih | word kind _ ih | digit kind _ ih =>
    exact List.forall_mem_cons.mpr ⟨kind ▸ rfl, ih⟩

theorem IsClass.isMember (isClass : IsClass ts k) : ∀ t ∈ ts, isMember t.kind = true := by
  cases isClass with
  | plain lists _ _ => exact lists.isMember
  | negated negates lists _ _ => exact List.forall_mem_cons.mpr ⟨negates ▸ rfl, lists.isMember⟩

theorem IsClass.flat (isClass : IsClass ts k) : Flat ts :=
  fun t member => not_isParen_of_isMember (isClass.isMember t member)

variable {limit : UInt32} {c : Category} {e : Expr} {opened : Nat}

/-- A token that is neither kind of parenthesis leaves the groups alone. -/
theorem opensTo_of_kind {t : Token} {kind : Token.Kind} (is : t.kind = kind)
    (other : kind.isParen = false) : t.opensTo opened = opened :=
  Token.opensTo_of_not_isParen (is ▸ other)

/-- A token that is neither kind of parenthesis nests nothing. -/
theorem nests_singleton {t : Token} {kind : Token.Kind} (is : t.kind = kind)
    (other : kind.isParen = false) : Nests 0 [t] :=
  .of_flat (.singleton (is ▸ other))

theorem kind_not_isParen (op : RepeatOp) : op.kind.isParen = false := by
  cases op <;> rfl

/-- A phrase closes the groups that it opens. -/
theorem Derives.nests (derives : Derives limit c ts e) : ∃ n, Nests n ts := by
  induction derives with
  | branch _ ih | nonempty _ ih | single _ ih | bare _ ih => exact ih
  | alternate _ separates _ left right =>
    obtain ⟨m, left⟩ := left
    obtain ⟨n, right⟩ := right
    exact ⟨_, left.append ((nests_singleton separates rfl).append right)⟩
  | empty => exact ⟨0, .of_flat nofun⟩
  | concat _ _ left right =>
    obtain ⟨m, left⟩ := left
    obtain ⟨n, right⟩ := right
    exact ⟨_, left.append right⟩
  | repeated _ repeats ih =>
    obtain ⟨n, base⟩ := ih
    exact ⟨_, base.append (nests_singleton repeats (kind_not_isParen _))⟩
  | counted _ opens bounds closes _ ih =>
    obtain ⟨n, base⟩ := ih
    have count := (Nests.of_flat bounds.flat).append (nests_singleton closes rfl)
    exact ⟨_, base.append ((nests_singleton opens rfl).append count)⟩
  | literal literal => exact ⟨0, .of_flat (.singleton (not_isParen_of_isLiteral literal))⟩
  | anyChar kind | wordChar kind | digit kind => exact ⟨0, nests_singleton kind rfl⟩
  | group opens _ closes ih =>
    obtain ⟨n, inner⟩ := ih
    exact ⟨_, .group opens inner closes⟩
  | charClass opens inner closes =>
    have members := (Nests.of_flat inner.flat).append (nests_singleton closes rfl)
    exact ⟨_, (nests_singleton opens rfl).append members⟩

/-- Behind a phrase as many groups are open as in front of it. -/
theorem Derives.balanced (derives : Derives limit c ts e) : Token.unclosed opened ts = opened := by
  obtain ⟨n, nests⟩ := derives.nests
  exact nests.unclosed opened

end FullMatch.Grammar
