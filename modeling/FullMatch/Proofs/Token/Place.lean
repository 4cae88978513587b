import FullMatch.Token.Scan

/-!
# Places of tokens

A token points at a character of the pattern, and a scan that fails points at the backslash or at
the bracket that is to blame.
-/

namespace FullMatch.Token

variable {context : Context} {start : Nat} {text whole : List Char} {ts done : List Token}
  {fault : ScanFault} {pattern : String} {c : Char}

/-- Only an opening bracket begins a class. -/
theorem eq_of_kindOutside_eq_leftBracket (opens : kindOutside c = .leftBracket) : c = '[' := by
  unfold kindOutside at opens
  split at opens <;> first | rfl | cases opens

/-- A text stands in the whole from a place on. -/
def StandsAt (whole : List Char) (start : Nat) (text : List Char) : Prop :=
  ∀ (i : Nat) (c : Char), text[i]? = some c → whole[start + i]? = some c

theorem StandsAt.head (stands : StandsAt whole start (c :: text)) : whole[start]? = some c :=
  stands 0 c rfl

theorem StandsAt.tail (stands : StandsAt whole start (c :: text)) :
    StandsAt whole (start + 1) text := by
  intro i d present
  have later := stands (i + 1) d present
  rwa [Nat.add_comm i, ← Nat.add_assoc] at later

theorem StandsAt.lt_length (stands : StandsAt whole start (c :: text)) : start < whole.length :=
  (List.getElem?_eq_some_iff.mp stands.head).1

/-- A text ends in the same place when its first character is left out. -/
theorem add_length_cons (start : Nat) (c : Char) (text : List Char) :
    start + (c :: text).length = start + 1 + text.length := by
  rw [List.length_cons, Nat.add_assoc, Nat.add_comm 1]

/-- The class that a context stands in was opened by a bracket. -/
def Context.Opened (whole : List Char) : Context → Prop
  | .inClass opened _ => whole[opened]? = some '['
  | .outside | .inBounds => True

theorem opened_afterEscape (opened : context.Opened whole) :
    (context.afterEscape c).Opened whole := by
  cases context with
  | inClass => exact opened
  | outside | inBounds => trivial

theorem opened_after {next : Option Char} (opened : context.Opened whole)
    (place : whole[start]? = some c) :
    (context.after (context.kind start c next) start c).Opened whole := by
  cases context with
  | inClass place' previous =>
    generalize (Context.inClass place' previous).kind start c next = kind
    cases kind with
    | rightBracket => trivial
    | _ => exact opened
  | outside =>
    show (Context.outside.after (kindOutside c) start c).Opened whole
    cases opens : kindOutside c with
    | leftBracket => exact eq_of_kindOutside_eq_leftBracket opens ▸ place
    | _ => trivial
  | inBounds =>
    generalize Context.inBounds.kind start c next = kind
    cases kind <;> trivial

/-- The tokens that a text is cut into are at places of the whole. -/
theorem position_lt_of_scanFrom (cut : scanFrom context start done text = .ok ts)
    (stands : StandsAt whole start text) (earlier : ∀ t ∈ done, t.position < whole.length) :
    ∀ t ∈ ts, t.position < whole.length := by
  fun_induction scanFrom context start done text with
  | case1 => cases cut
  | case2 start done context outside =>
    obtain rfl := Except.ok.inj cut
    simpa using earlier
  | case3 => cases cut
  | case4 context start done c rest ih =>
    exact ih cut stands.tail.tail (List.forall_mem_cons.mpr ⟨stands.lt_length, earlier⟩)
  | case5 context start done c rest single escaped kind ih =>
    exact ih cut stands.tail (List.forall_mem_cons.mpr ⟨stands.lt_length, earlier⟩)

/-- A text that cannot be cut ends behind a backslash, or in a class that a bracket opens. -/
theorem char_of_scanFrom_eq_error (failed : scanFrom context start done text = .error fault)
    (stands : StandsAt whole start text) (opened : context.Opened whole) :
    whole[fault.position]? = some '\\' ∨ whole[fault.position]? = some '[' := by
  fun_induction scanFrom context start done text with
  | case1 start done opened' previous =>
    obtain rfl := Except.error.inj failed
    exact .inr opened
  | case2 start done context outside => cases failed
  | case3 context start done =>
    obtain rfl := Except.error.inj failed
    exact .inl stands.head
  | case4 context start done c rest ih =>
    exact ih failed stands.tail.tail (opened_afterEscape opened)
  | case5 context start done c rest single escaped kind ih =>
    exact ih failed stands.tail (opened_after opened stands.head)

theorem standsAt_zero (text : List Char) : StandsAt text 0 text := by
  intro i c present
  rwa [Nat.zero_add]

/-- Every token begins at a character of the pattern. -/
theorem position_lt_of_scan (cut : scan pattern = .ok ts) :
    ∀ t ∈ ts, t.position < pattern.length := by
  rw [← String.length_toList]
  exact position_lt_of_scanFrom cut (standsAt_zero _) nofun

/-- A scan that fails points at a backslash or at an opening bracket. -/
theorem char_of_scan_eq_error (failed : scan pattern = .error fault) :
    pattern.toList[fault.position]? = some '\\' ∨ pattern.toList[fault.position]? = some '[' :=
  char_of_scanFrom_eq_error failed (standsAt_zero _) trivial

end FullMatch.Token
