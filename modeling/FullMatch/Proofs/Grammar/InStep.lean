import FullMatch.Proofs.Grammar.Fault
import FullMatch.Proofs.Token.Layout

/-!
# The reader in step with the scan

Tokens that are cut from a pattern lead the reader from focus to focus as they lead from site to
site (`Focus.Agrees`): a class or a repetition count is in focus just where the scan stood in one.
So no token is foreign to the class in focus, and no class is in focus at the end. What a reader of
arbitrary tokens reports there is never reported of a pattern (`read_in_step`).
-/

namespace FullMatch.Grammar

open Token (Kind LaidOut Leads Path Site laidOut_of_scan path_of_scan scan)

variable {limit : UInt32} {groups : List Group} {level : Level} {r r' : Reader} {c : OpenClass}
  {t : Token} {ts : List Token} {e : Expr} {site next final : Site} {fault : Fault}
  {pattern : String}

section Agreement

/-- The piece in focus is the one that the scan stood in behind the same tokens. -/
inductive Focus.Agrees : Focus → Site → Prop where
  | ready : Agrees .ready .outside
  | base (e : Expr) : Agrees (.base e) .outside
  | bounds (opened : Nat) (e : Expr) (counting : Counting) :
      Agrees (.bounds opened e counting) .inBraces
  | opening {c : OpenClass} (fresh : c.pending = .opening) : Agrees (.inClass c) .opening
  | inClass {c : OpenClass} {site : Site} (within : site.inClass = true)
      (begun : site ≠ .opening) : Agrees (.inClass c) site

theorem Focus.Agrees.within (agrees : Focus.Agrees (.inClass c) site) : site.inClass = true := by
  cases agrees with
  | opening => rfl
  | inClass within _ => exact within

/-- A token that opens nothing leaves the scan outside. -/
theorem eq_outside_of_leads {kind : Kind} (outside : kind.isOutside = true)
    (leads : Leads .outside kind next) : next = .outside := by
  cases leads with
  | outside => rfl
  | opens | opensBraces => cases outside
  | member within | closes within => cases within
  | dash behind => rcases behind with behind | behind <;> cases behind

/-- A token that is a base of its own opens nothing. -/
theorem isOutside_of_derives (base : Derives limit .base [t] e) : t.kind.isOutside = true := by
  generalize alone : [t] = ts at base
  cases base with
  | literal literal =>
    obtain ⟨rfl, -⟩ := List.cons.inj alone
    rcases Token.isLiteral_iff.mp literal with kind | kind
    · exact kind ▸ rfl
    · exact kind ▸ rfl
  | anyChar kind | wordChar kind | digit kind =>
    obtain ⟨rfl, -⟩ := List.cons.inj alone
    exact kind ▸ rfl
  | group | charClass => simp at alone

/-- Where a base may come next, the reader opens what the scan does. -/
theorem based_agrees (leads : Leads .outside t.kind next)
    (based : Reader.Based groups level t r') : r'.focus.Agrees next := by
  cases based with
  | single _ base =>
    rw [eq_outside_of_leads (isOutside_of_derives (base 0)) leads]
    exact .base _
  | bracket opens =>
    rw [opens] at leads
    cases leads with
    | outside outside => cases outside
    | opens => exact .opening rfl
    | member _ member _ => cases member
  | closes closes _ =>
    rw [eq_outside_of_leads (closes ▸ rfl) leads]
    exact .base _
  | opens kind _ | bar kind =>
    rw [eq_outside_of_leads (kind ▸ rfl) leads]
    exact .ready

/-- In a repetition count, the reader closes what the scan does. -/
theorem counted_agrees {opened : Nat} {counting : Counting} (leads : Leads .inBraces t.kind next)
    (counted : Reader.Counted limit groups level opened e counting t r') :
    r'.focus.Agrees next := by
  cases counted with
  | digit kind _ | comma kind _ =>
    rw [kind] at leads
    cases leads with
    | counts => exact .bounds ..
    | member within _ _ => cases within
  | closes kind _ _ =>
    rw [kind] at leads
    cases leads with
    | closesBraces => exact .ready
    | counts within => cases within
    | member within _ _ => cases within

/-- A class goes on behind any token but its bracket. -/
theorem inClass_of_leads (within : site.inClass = true) (inside : t.kind ≠ .rightBracket)
    (leads : Leads site t.kind next) : next.inClass = true ∧ next ≠ .opening := by
  generalize t.kind = kind at inside leads
  cases leads with
  | outside | opens | opensBraces | counts | closesBraces => cases within
  | negates | member | dash => exact ⟨rfl, nofun⟩
  | closes => exact absurd rfl inside

/-- A token leads the reader where it leads the scan. -/
theorem Focus.Agrees.step (agrees : r.focus.Agrees site) (leads : Leads site t.kind next)
    (stepped : r.step limit t = .ok r') : r'.focus.Agrees next := by
  obtain ⟨groups, level, focus⟩ := r
  cases Reader.stepped_of_step_eq_ok stepped with
  | ready based =>
    cases agrees
    exact based_agrees leads based
  | bounds opens =>
    cases agrees
    rw [opens] at leads
    cases leads with
    | outside outside => cases outside
    | opensBraces => exact .bounds ..
    | member within _ _ => cases within
  | @repeated _ op _ repeats _ =>
    cases agrees
    have outside : t.kind.isOutside = true := by
      rw [repeats]
      cases op <;> rfl
    rw [eq_outside_of_leads outside leads]
    exact .ready
  | factor _ based =>
    cases agrees
    exact based_agrees leads based
  | counted counted =>
    cases agrees
    exact counted_agrees leads counted
  | pushed inside _ =>
    obtain ⟨within, begun⟩ := inClass_of_leads agrees.within inside leads
    exact .inClass within begun
  | closed closes _ =>
    have within : site.inClass = true := agrees.within
    rw [closes] at leads
    cases leads with
    | outside | closes => exact .base _
    | member _ member _ => cases member
    | counts => cases within

/-- Tokens lead the reader where they lead the scan. -/
theorem Focus.Agrees.feed (agrees : r.focus.Agrees site) (path : Path site ts final)
    (fed : r.feed limit ts = .ok r') : r'.focus.Agrees final := by
  induction path generalizing r with
  | nil =>
    obtain rfl := Except.ok.inj fed
    exact agrees
  | cons leads _ ih =>
    obtain ⟨next, stepped, fed⟩ := Reader.feed_cons_eq_ok.mp fed
    exact ih (agrees.step leads stepped) fed

/-- A token that the scan of a class went on with may stand in the class in focus. -/
theorem Focus.Agrees.admits (agrees : Focus.Agrees (.inClass c) site)
    (leads : Leads site t.kind next) (inside : t.kind ≠ .rightBracket) : c.Admits t := by
  have within := agrees.within
  generalize is : t.kind = kind at inside leads
  cases leads with
  | outside | opens | opensBraces | counts | closesBraces => cases within
  | closes => exact absurd rfl inside
  | negates =>
    cases agrees with
    | opening fresh => exact .inl ⟨is, fresh⟩
    | inClass _ begun => exact absurd rfl begun
  | dash => exact .inr (.inr (.inl is))
  | member _ member noDash =>
    cases kind with
    | char => exact .inr (.inl (Token.isLiteral_iff.mpr (.inl is)))
    | escaped => exact .inr (.inl (Token.isLiteral_iff.mpr (.inr is)))
    | dash => exact absurd rfl noDash
    | word => exact .inr (.inr (.inr (.inl is)))
    | digit => exact .inr (.inr (.inr (.inr is)))
    | _ => cases member

end Agreement

section Guards

/-- No token of a pattern is foreign to the class that it stands in. -/
theorem ne_unexpectedMember_of_scan (cut : scan pattern = .ok ts)
    (failed : read limit ts = .error fault) (u : Token) : fault ≠ .unexpectedMember u := by
  rintro rfl
  obtain ⟨final, path, -⟩ := path_of_scan cut
  rcases stop_of_read_eq_error failed with ⟨before, t, after, r, rfl, fed, refuses⟩ |
    ⟨r, -, breaks⟩
  · obtain ⟨site, front, back⟩ := path.exists_of_append
    have agrees : r.focus.Agrees site := Focus.Agrees.ready.feed front fed
    cases refuses with
    | unexpectedMember within inside foreign =>
      cases back with
      | cons leads _ => exact foreign ((within ▸ agrees).admits leads inside)
  · cases breaks

/-- Every class of a pattern is closed. -/
theorem ne_unclosedClass_of_scan (cut : scan pattern = .ok ts)
    (failed : read limit ts = .error fault) (opened : Nat) : fault ≠ .unclosedClass opened := by
  rintro rfl
  obtain ⟨final, path, closed⟩ := path_of_scan cut
  rcases stop_of_read_eq_error failed with ⟨_, _, _, _, _, _, refuses⟩ | ⟨r, fed, breaks⟩
  · cases refuses
  · have agrees : r.focus.Agrees final := Focus.Agrees.ready.feed path fed
    cases breaks with
    | unclosedClass within => cases closed.symm.trans (within ▸ agrees).within

/-- A base is read only when there is a token. -/
theorem ne_unexpectedEnd_of_read (failed : read limit ts = .error fault) :
    fault ≠ .unexpectedEnd := by
  rintro rfl
  rcases stop_of_read_eq_error failed with ⟨_, _, _, _, _, _, refuses⟩ | ⟨_, _, breaks⟩
  · cases refuses
  · cases breaks

theorem Fault.exists_of_message_eq_unclosedClass
    (message : fault.message = "Unclosed character class") :
    ∃ opened, fault = .unclosedClass opened := by
  unfold Fault.message at message
  cases fault with
  | unclosedClass opened => exact ⟨opened, rfl⟩
  | unexpected | unexpectedMember =>
    have start := congrArg (fun text => text.toList.take 3) message
    simp at start
  | _ => simp at message

theorem Fault.exists_of_message_eq_unexpectedMember {found : String}
    (message : fault.message = "Unexpected token in character class" ++ found) :
    ∃ t, fault = .unexpectedMember t := by
  have start := congrArg (fun text => text.toList.take 18) message
  unfold Fault.message at start
  cases fault with
  | unexpectedMember t => exact ⟨t, rfl⟩
  | _ => simp at start

theorem Fault.eq_of_message_eq_unexpectedEnd
    (message : fault.message = "Unexpected end of pattern") : fault = .unexpectedEnd := by
  unfold Fault.message at message
  cases fault with
  | unexpectedEnd => rfl
  | unexpected | unexpectedMember =>
    have start := congrArg (fun text => text.toList.take 12) message
    simp at start
  | _ => simp at message

/-- The tokens of a pattern keep to the layout of classes and repetition counts. So reading them
never fails because of a class that is not closed, or of a token that cannot stand in one; and
reading any tokens at all never fails because a base is missing at the end. -/
theorem read_in_step :
    (∀ pattern ts, scan pattern = .ok ts →
      LaidOut ts ∧ ∀ limit fault, read limit ts = .error fault →
        fault.message ≠ "Unclosed character class" ∧
        ∀ found, fault.message ≠ "Unexpected token in character class" ++ found) ∧
    ∀ limit us fault, read limit us = .error fault →
      fault.message ≠ "Unexpected end of pattern" := by
  constructor
  · intro pattern ts cut
    refine ⟨laidOut_of_scan cut, fun limit fault failed => ?_⟩
    refine ⟨fun message => ?_, fun found message => ?_⟩
    · obtain ⟨opened, unclosed⟩ := Fault.exists_of_message_eq_unclosedClass message
      exact ne_unclosedClass_of_scan cut failed opened unclosed
    · obtain ⟨t, foreign⟩ := Fault.exists_of_message_eq_unexpectedMember message
      exact ne_unexpectedMember_of_scan cut failed t foreign
  · intro limit us fault failed message
    exact ne_unexpectedEnd_of_read failed (Fault.eq_of_message_eq_unexpectedEnd message)

/-- The tokens of `[^a-c\d]{1,x` can be read up to the `x`, where a number is missing. -/
theorem read_in_step_of_open_count :
    ∃ ts fault, scan "[^a-c\\d]\x7b1,x" = .ok ts ∧ read defaultMaxRepeat ts = .error fault ∧
      LaidOut ts ∧ fault.message ≠ "Unclosed character class" ∧
      (∀ found, fault.message ≠ "Unexpected token in character class" ++ found) ∧
      fault.message ≠ "Unexpected end of pattern" := by
  let ts : List Token := [⟨.leftBracket, '[', 0⟩, ⟨.caret, '^', 1⟩, ⟨.char, 'a', 2⟩,
    ⟨.dash, '-', 3⟩, ⟨.char, 'c', 4⟩, ⟨.digit, 'd', 5⟩, ⟨.rightBracket, ']', 7⟩,
    ⟨.leftBrace, '\x7b', 8⟩, ⟨.number, '1', 9⟩, ⟨.comma, ',', 10⟩, ⟨.char, 'x', 11⟩]
  have cut : scan "[^a-c\\d]\x7b1,x" = .ok ts := by
    rw [scan, String.toList_ofList]
    rfl
  have failed : read defaultMaxRepeat ts = .error (.numberExpected (some ⟨.char, 'x', 11⟩)) := rfl
  obtain ⟨laidOut, guarded⟩ := read_in_step.1 _ ts cut
  obtain ⟨closed, admitted⟩ := guarded _ _ failed
  exact ⟨ts, _, cut, failed, laidOut, closed, admitted, read_in_step.2 _ ts _ failed⟩

/-- Tokens that no pattern is cut into may leave a class open. -/
example : read defaultMaxRepeat [⟨.leftBracket, '[', 0⟩] = .error (.unclosedClass 0) := rfl

end Guards

end FullMatch.Grammar
