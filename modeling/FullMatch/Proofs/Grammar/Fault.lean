import FullMatch.Proofs.Grammar.Step

/-!
# Faults of the reader

What is wrong where the reader stops: with a token behind those that have been read
(`Reader.Refuses`), or with the end of the pattern (`Reader.Breaks`). There is one constructor for
each fault, with what makes it one. A read that fails has read the tokens in front of the fault
(`stop_of_read_eq_error`), so what holds of all faults is proved by cases on these two.
-/

namespace FullMatch.Grammar

variable {limit : UInt32} {r r' : Reader} {c : OpenClass} {t : Token} {ts : List Token} {e : Expr}
  {opened least : Nat} {most : Option Nat} {counting : Counting} {fault : Fault}

/-- A base may come next, or the branch may end. -/
def Focus.AwaitsBase : Focus → Prop
  | ready | base _ => True
  | bounds .. | inClass _ => False

/-- Whether a kind of token begins no base, and neither divides nor groups what is read. -/
def isStray : Token.Kind → Bool
  | .star | .plus | .question | .rightBracket | .dash | .leftBrace | .rightBrace | .number
  | .comma => true
  | _ => false

/-- A fault that is passed on comes of a fault. -/
theorem eq_error_of_map {α β : Type} {result : Except Fault α} {f : α → β}
    (mapped : result.map f = .error fault) : result = .error fault := by
  cases result with
  | error fault' => exact congrArg _ (Except.error.inj mapped)
  | ok a => cases mapped

namespace Reader

/-- What is wrong with a token. -/
inductive Refuses (limit : UInt32) (r : Reader) (t : Token) : Fault → Prop where
  | unopenedGroup (awaits : r.focus.AwaitsBase) (closes : t.kind = .rightParen)
      (outermost : r.groups = []) : Refuses limit r t (.unopenedGroup t)
  | tooDeep (awaits : r.focus.AwaitsBase) (opens : t.kind = .leftParen)
      (full : maxDepth ≤ r.groups.length) : Refuses limit r t (.tooDeep t.position)
  | anchor (awaits : r.focus.AwaitsBase) (anchors : t.kind = .caret ∨ t.kind = .dollar) :
      Refuses limit r t (.anchor t)
  | unexpected (awaits : r.focus.AwaitsBase) (stray : isStray t.kind = true) :
      Refuses limit r t (.unexpected t)
  | numberExpected {opened : Nat} {e : Expr} {counting : Counting}
      (within : r.focus = .bounds opened e counting) (noDigit : counting.current = none) :
      Refuses limit r t (.numberExpected (some t))
  | numberTooLarge {opened : Nat} {e : Expr} {counting : Counting}
      (within : r.focus = .bounds opened e counting) (digit : t.kind = .number)
      (large : maxNumber < Count.valueOf counting.current * 10 + Count.digitValue t.value) :
      Refuses limit r t (.numberTooLarge ((counting.current.map Count.start).getD t.position))
  | unclosedBounds {opened : Nat} {e : Expr} {counting : Counting} {n : Count}
      (within : r.focus = .bounds opened e counting) (number : counting.current = some n)
      (noDigit : t.kind ≠ .number) (noBrace : t.kind ≠ .rightBrace) :
      Refuses limit r t (.unclosedBounds opened (some t))
  | boundTooLarge {opened least : Nat} {most : Option Nat} {e : Expr} {counting : Counting}
      (within : r.focus = .bounds opened e counting) (closes : t.kind = .rightBrace)
      (ends : counting.ends = some (least, most)) (large : limit.toNat < most.getD least) :
      Refuses limit r t (.boundTooLarge opened (most.getD least) limit)
  | invertedBounds {opened least : Nat} {most : Option Nat} {e : Expr} {counting : Counting}
      {bounds : InvertedBounds} (within : r.focus = .bounds opened e counting)
      (closes : t.kind = .rightBrace) (ends : counting.ends = some (least, most))
      (inverted : Bounds.ofEnds least most = .error bounds) :
      Refuses limit r t (.invertedBounds opened bounds)
  | invertedRange {c : OpenClass} {first : Token} (within : r.focus = .inClass c)
      (waits : c.pending = .dash first) (literal : t.isLiteral = true)
      (inverted : t.value < first.value) : Refuses limit r t (.invertedRange first t)
  | rangeTooLarge {c : OpenClass} {first : Token} (within : r.focus = .inClass c)
      (waits : c.pending = .dash first) (literal : t.isLiteral = true)
      (large : maxClassSize < rangeSpan first.value t.value) :
      Refuses limit r t (.rangeTooLarge first t)
  | unexpectedMember {c : OpenClass} (within : r.focus = .inClass c)
      (inside : t.kind ≠ .rightBracket) (foreign : ¬c.Admits t) :
      Refuses limit r t (.unexpectedMember t)
  | emptyClass {c : OpenClass} (within : r.focus = .inClass c) (closes : t.kind = .rightBracket)
      (empty : c.settled = ∅) : Refuses limit r t (.emptyClass c.opened)
  | classTooLarge {c : OpenClass} (within : r.focus = .inClass c)
      (closes : t.kind = .rightBracket) (large : maxClassSize < c.settled.size) :
      Refuses limit r t (.classTooLarge c.opened)

/-- What is wrong with the end of the pattern. -/
inductive Breaks (r : Reader) : Fault → Prop where
  | unclosedGroup {group : Group} {outer : List Group} (awaits : r.focus.AwaitsBase)
      (innermost : r.groups = group :: outer) : Breaks r (.unclosedGroup group.opened)
  | numberExpected {opened : Nat} {e : Expr} {counting : Counting}
      (within : r.focus = .bounds opened e counting) (noDigit : counting.current = none) :
      Breaks r (.numberExpected none)
  | unclosedBounds {opened : Nat} {e : Expr} {counting : Counting} {n : Count}
      (within : r.focus = .bounds opened e counting) (number : counting.current = some n) :
      Breaks r (.unclosedBounds opened none)
  | unclosedClass {c : OpenClass} (within : r.focus = .inClass c) :
      Breaks r (.unclosedClass c.opened)

theorem refuses_of_base (failed : r'.base t = .error fault) (awaits : r.focus.AwaitsBase)
    (same : r'.groups = r.groups) : r.Refuses limit t fault := by
  unfold base at failed
  split at failed
  case h_7 opens =>
    split at failed
    · next full =>
      obtain rfl := Except.error.inj failed
      exact .tooDeep awaits opens (same ▸ full)
    · cases failed
  case h_8 closes =>
    split at failed
    · next outermost =>
      obtain rfl := Except.error.inj failed
      exact .unopenedGroup awaits closes (same ▸ outermost)
    · cases failed
  case h_10 caret =>
    obtain rfl := Except.error.inj failed
    exact .anchor awaits (.inl caret)
  case h_11 dollar =>
    obtain rfl := Except.error.inj failed
    exact .anchor awaits (.inr dollar)
  case h_12 =>
    obtain rfl := Except.error.inj failed
    refine .unexpected awaits ?_
    cases kind : t.kind <;> first | rfl | contradiction
  all_goals cases failed

theorem refuses_of_afterBase (failed : r.afterBase e t = .error fault)
    (within : r.focus = .base e) : r.Refuses limit t fault := by
  have factor (failed : (r.push e).base t = .error fault) : r.Refuses limit t fault :=
    refuses_of_base failed (within ▸ trivial) rfl
  unfold afterBase at failed
  split at failed
  · cases failed
  · split at failed
    · cases failed
    · exact factor failed
  · split at failed
    · cases failed
    · exact factor failed
  · split at failed
    · cases failed
    · exact factor failed
  · exact factor failed

theorem refuses_of_push {n : Option Count} (failed : Count.push n t = .error fault)
    (within : r.focus = .bounds opened e counting) (current : counting.current = n)
    (digit : t.kind = .number) : r.Refuses limit t fault := by
  subst current
  unfold Count.push at failed
  dsimp only at failed
  split at failed
  · cases failed
  · next large =>
    obtain rfl := Except.error.inj failed
    exact .numberTooLarge within digit (Nat.lt_of_not_le large)

theorem refuses_of_closeBounds {r' : Reader}
    (failed : r'.closeBounds limit opened e least most = .error fault)
    (within : r.focus = .bounds opened e counting) (closes : t.kind = .rightBrace)
    (ends : counting.ends = some (least, most)) : r.Refuses limit t fault := by
  unfold closeBounds at failed
  dsimp only at failed
  split at failed
  · next large =>
    obtain rfl := Except.error.inj failed
    exact .boundTooLarge within closes ends large
  · split at failed
    · cases failed
    · next inverted =>
      obtain rfl := Except.error.inj failed
      exact .invertedBounds within closes ends inverted

theorem refuses_of_inBounds (failed : r.inBounds limit opened e counting t = .error fault)
    (within : r.focus = .bounds opened e counting) : r.Refuses limit t fault := by
  unfold inBounds at failed
  split at failed
  · next digit => exact refuses_of_push (eq_error_of_map failed) within rfl digit
  · next digit => exact refuses_of_push (eq_error_of_map failed) within rfl digit
  · cases failed
  · next closes => exact refuses_of_closeBounds failed within closes rfl
  · next closes => exact refuses_of_closeBounds failed within closes rfl
  · obtain rfl := Except.error.inj failed
    exact .numberExpected within rfl
  · obtain rfl := Except.error.inj failed
    exact .numberExpected within rfl
  · next noDigit noComma noBrace =>
    obtain rfl := Except.error.inj failed
    exact .unclosedBounds within rfl noDigit noBrace
  · next noDigit noBrace =>
    obtain rfl := Except.error.inj failed
    exact .unclosedBounds within rfl noDigit noBrace

theorem refuses_of_insertRange {first : Token} (failed : c.insertRange first t = .error fault)
    (within : r.focus = .inClass c) (waits : c.pending = .dash first)
    (literal : t.isLiteral = true) : r.Refuses limit t fault := by
  unfold OpenClass.insertRange at failed
  split at failed
  · next inverted =>
    obtain rfl := Except.error.inj failed
    exact .invertedRange within waits literal inverted
  · split at failed
    · next large =>
      obtain rfl := Except.error.inj failed
      exact .rangeTooLarge within waits literal large
    · cases failed

theorem refuses_of_pushClass (failed : c.push t = .error fault) (within : r.focus = .inClass c)
    (inside : t.kind ≠ .rightBracket) : r.Refuses limit t fault := by
  unfold OpenClass.push at failed
  split at failed
  case h_3 waits char =>
    exact refuses_of_insertRange failed within waits (Token.isLiteral_iff.mpr (.inl char))
  case h_4 waits escaped =>
    exact refuses_of_insertRange failed within waits (Token.isLiteral_iff.mpr (.inr escaped))
  case h_10 noChar noEscaped noDash noWord noDigit noCaret _ _ _ =>
    obtain rfl := Except.error.inj failed
    refine .unexpectedMember within inside ?_
    rintro (⟨caret, opening⟩ | literal | dash | word | digit)
    · exact noCaret opening caret
    · exact (Token.isLiteral_iff.mp literal).elim noChar noEscaped
    · exact noDash dash
    · exact noWord word
    · exact noDigit digit
  all_goals cases failed

theorem refuses_of_close (failed : c.close = .error fault) (within : r.focus = .inClass c)
    (closes : t.kind = .rightBracket) : r.Refuses limit t fault := by
  unfold OpenClass.close at failed
  dsimp only at failed
  split at failed
  · next empty =>
    obtain rfl := Except.error.inj failed
    exact .emptyClass within closes (Std.ExtTreeSet.isEmpty_iff.mp empty)
  · split at failed
    · next large =>
      obtain rfl := Except.error.inj failed
      exact .classTooLarge within closes large
    · cases failed

/-- Whatever a token is refused with is listed. -/
theorem refuses_of_step_eq_error (failed : r.step limit t = .error fault) :
    r.Refuses limit t fault := by
  obtain ⟨groups, level, focus⟩ := r
  cases focus with
  | ready => exact refuses_of_base failed trivial rfl
  | base e => exact refuses_of_afterBase failed rfl
  | bounds opened e counting => exact refuses_of_inBounds failed rfl
  | inClass c =>
    by_cases closes : t.kind = .rightBracket
    · rw [step_rightBracket closes] at failed
      exact refuses_of_close (eq_error_of_map failed) rfl closes
    · rw [step_inside closes] at failed
      exact refuses_of_pushClass (eq_error_of_map failed) rfl closes

theorem breaks_of_close (failed : r'.close = .error fault) (awaits : r.focus.AwaitsBase)
    (same : r'.groups = r.groups) : r.Breaks fault := by
  unfold close at failed
  split at failed
  · cases failed
  · next innermost =>
    obtain rfl := Except.error.inj failed
    exact .unclosedGroup awaits (same ▸ innermost)

/-- Whatever the end of the pattern is refused with is listed. -/
theorem breaks_of_finish_eq_error (failed : r.finish = .error fault) : r.Breaks fault := by
  obtain ⟨groups, level, focus⟩ := r
  cases focus with
  | ready => exact breaks_of_close failed trivial rfl
  | base e => exact breaks_of_close failed trivial rfl
  | bounds opened e counting =>
    rcases counting with (_ | n) | ⟨least, _ | n⟩
    · obtain rfl := Except.error.inj failed
      exact .numberExpected rfl rfl
    · obtain rfl := Except.error.inj failed
      exact .unclosedBounds rfl rfl
    · obtain rfl := Except.error.inj failed
      exact .numberExpected rfl rfl
    · obtain rfl := Except.error.inj failed
      exact .unclosedBounds rfl rfl
  | inClass c =>
    obtain rfl := Except.error.inj failed
    exact .unclosedClass rfl

/-- Tokens that cannot be read can be read as far as the one that is refused. -/
theorem refuses_of_feed_eq_error (failed : r.feed limit ts = .error fault) :
    ∃ before t after r', ts = before ++ t :: after ∧ r.feed limit before = .ok r' ∧
      r'.Refuses limit t fault := by
  induction ts generalizing r with
  | nil => cases failed
  | cons t ts ih =>
    rw [feed] at failed
    cases stepped : r.step limit t with
    | error fault' =>
      rw [stepped] at failed
      obtain rfl := Except.error.inj failed
      exact ⟨[], t, ts, r, rfl, rfl, refuses_of_step_eq_error stepped⟩
    | ok next =>
      rw [stepped] at failed
      obtain ⟨before, u, after, r', rfl, fed, refuses⟩ := ih failed
      exact ⟨t :: before, u, after, r', rfl, (feed_of_step stepped).trans fed, refuses⟩

end Reader

/-- A read that fails stops at a token, or at the end of the pattern. -/
theorem stop_of_read_eq_error (failed : read limit ts = .error fault) :
    (∃ before t after r, ts = before ++ t :: after ∧ Reader.start.feed limit before = .ok r ∧
      r.Refuses limit t fault) ∨
    ∃ r, Reader.start.feed limit ts = .ok r ∧ r.Breaks fault := by
  rw [read] at failed
  cases fed : Reader.start.feed limit ts with
  | error fault' =>
    rw [fed] at failed
    obtain rfl := Except.error.inj failed
    exact .inl (Reader.refuses_of_feed_eq_error fed)
  | ok r =>
    rw [fed] at failed
    exact .inr ⟨r, rfl, Reader.breaks_of_finish_eq_error failed⟩

end FullMatch.Grammar
