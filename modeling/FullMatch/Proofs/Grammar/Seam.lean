import FullMatch.Proofs.Grammar.Nesting
import FullMatch.Proofs.Token.Seam

/-!
# Phrases along a text

A phrase does not know where it stands (`Derives.shift`), and it leaves no braces open
(`Derives.bracesOpen_eq`).
-/

namespace FullMatch.Grammar

open Token (bracesOpen bracesTo)

variable {limit : UInt32} {c : Category} {t : Token} {ts : List Token} {e : Expr}
  {items : List Item} {n : Nat} {most : Option Nat} {k : CharClass} {opened : Bool}

section Shift

theorem IsNumber.shift (d : Nat) (number : IsNumber ts n) :
    IsNumber (ts.map (Token.shift d)) n where
  nonempty := mt List.map_eq_nil_iff.mp number.nonempty
  digits := List.forall_mem_map.mpr number.digits
  value := by
    rw [List.map_map]
    exact number.value
  counted := number.counted

theorem IsBounds.shift (d : Nat) (bounds : IsBounds ts n most) :
    IsBounds (ts.map (Token.shift d)) n most := by
  cases bounds with
  | exactly number => exact .exactly (number.shift d)
  | atLeast number separates =>
    rw [List.map_append]
    exact .atLeast (number.shift d) separates
  | between least separates most =>
    rw [List.map_append]
    exact .between (least.shift d) separates (most.shift d)

theorem completesRange_map_shift (d : Nat) :
    CompletesRange (ts.map (Token.shift d)) ↔ CompletesRange ts := by
  match ts with
  | [] | [_] | _ :: _ :: _ => exact Iff.rfl

theorem Lists.shift (d : Nat) (lists : Lists ts items) :
    Lists (ts.map (Token.shift d)) items := by
  induction lists with
  | nil => exact .nil
  | literal literal alone _ ih =>
    exact .literal literal (mt (completesRange_map_shift d).mp alone) ih
  | range literal completes ordered small _ ih =>
    exact .range literal completes ordered small ih
  | dash kind _ ih => exact .dash kind ih
  | word kind _ ih => exact .word kind ih
  | digit kind _ ih => exact .digit kind ih

theorem IsClass.shift (d : Nat) (isClass : IsClass ts k) :
    IsClass (ts.map (Token.shift d)) k := by
  cases isClass with
  | plain lists named sized => exact .plain (lists.shift d) named sized
  | negated negates lists named sized => exact .negated negates (lists.shift d) named sized

/-- A phrase is the same phrase further on. -/
theorem Derives.shift (d : Nat) (derives : Derives limit c ts e) :
    Derives limit c (ts.map (Token.shift d)) e := by
  induction derives with
  | branch _ ih => exact .branch ih
  | alternate _ separates _ left right =>
    rw [List.map_append]
    exact .alternate left separates right
  | empty => exact .empty
  | nonempty _ ih => exact .nonempty ih
  | single _ ih => exact .single ih
  | concat _ _ left right =>
    rw [List.map_append]
    exact .concat left right
  | bare _ ih => exact .bare ih
  | repeated _ repeats ih =>
    rw [List.map_append]
    exact .repeated ih repeats
  | counted _ opens bounds closes allowed ih =>
    rw [List.map_append, List.map_cons, List.map_append]
    exact .counted ih opens (bounds.shift d) closes allowed
  | @literal t literal => exact .literal (t := t.shift d) literal
  | anyChar kind => exact .anyChar kind
  | wordChar kind => exact .wordChar kind
  | digit kind => exact .digit kind
  | group opens _ closes ih =>
    rw [List.map_cons, List.map_append]
    exact .group opens ih closes
  | charClass opens inner closes =>
    rw [List.map_cons, List.map_append]
    exact .charClass opens (inner.shift d) closes

end Shift

section Braces

theorem bracesTo_of_kind {kind : Token.Kind} (is : t.kind = kind) (other : kind.isBrace = false) :
    bracesTo opened t = opened :=
  Token.bracesTo_of_not_isBrace (is ▸ other)

theorem bracesTo_rightBrace (closes : t.kind = .rightBrace) : bracesTo opened t = false := by
  rw [bracesTo, closes]

theorem not_isBrace_of_isMember {kind : Token.Kind} (member : isMember kind = true) :
    kind.isBrace = false := by
  cases kind <;> first | rfl | cases member

theorem kind_not_isBrace (op : RepeatOp) : op.kind.isBrace = false := by
  cases op <;> rfl

/-- Behind a phrase that begins outside braces no braces are open. -/
theorem Derives.bracesOpen_eq (derives : Derives limit c ts e) : bracesOpen false ts = false := by
  induction derives with
  | branch _ ih | nonempty _ ih | single _ ih | bare _ ih => exact ih
  | alternate _ separates _ left right =>
    rw [Token.bracesOpen_append, left, Token.bracesOpen_cons, bracesTo_of_kind separates rfl, right]
  | empty => rfl
  | concat _ _ left right => rw [Token.bracesOpen_append, left, right]
  | repeated _ repeats ih =>
    rw [Token.bracesOpen_append, ih, Token.bracesOpen_cons,
      bracesTo_of_kind repeats (kind_not_isBrace _), Token.bracesOpen_nil]
  | counted _ _ _ closes _ _ =>
    -- Whatever the count, its last token closes the braces.
    rw [Token.bracesOpen_append, Token.bracesOpen_cons, Token.bracesOpen_append,
      Token.bracesOpen_cons, bracesTo_rightBrace closes, Token.bracesOpen_nil]
  | literal literal =>
    exact Token.bracesTo_of_not_isBrace (not_isBrace_of_isMember (isMember_of_isLiteral literal))
  | anyChar kind | wordChar kind | digit kind => exact bracesTo_of_kind kind rfl
  | group opens _ closes ih =>
    rw [Token.bracesOpen_cons, bracesTo_of_kind opens rfl, Token.bracesOpen_append, ih,
      Token.bracesOpen_cons, bracesTo_of_kind closes rfl, Token.bracesOpen_nil]
  | @charClass opening ts closing k opens inner closes =>
    have members : bracesOpen false ts = false := Token.bracesOpen_of_forall
      fun t member => not_isBrace_of_isMember (inner.isMember t member)
    rw [Token.bracesOpen_cons, bracesTo_of_kind opens rfl, Token.bracesOpen_append, members,
      Token.bracesOpen_cons, bracesTo_of_kind closes rfl, Token.bracesOpen_nil]

end Braces

end FullMatch.Grammar
