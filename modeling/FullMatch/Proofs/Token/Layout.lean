import FullMatch.Proofs.Token.Place
import FullMatch.Proofs.Token.Scan

/-!
# Layout of tokens

The tokens that a pattern is cut into tell where the scan stood without the text: each one leads
from one site to the next (`Leads`), and the tokens of a whole pattern lead from the outside to a
site that is in no class (`path_of_scan`). So the tokens of a class and of a repetition count can
be told by their neighbours alone (`LaidOut`): a class is closed and holds members only, a dash
stands between two members, and digits and commas come from repetition counts.
-/

namespace FullMatch.Token

variable {context : Context} {start : Nat} {text : List Char} {ts us before after : List Token}
  {t : Token} {c : Char} {kind : Kind} {pattern : String}

section Sites

/-- Whether a kind of token names characters of a class, or the range between its neighbours. -/
def Kind.isClassMember : Kind → Bool
  | .char | .escaped | .dash | .word | .digit => true
  | _ => false

/-- Whether a kind of token may stand within braces. -/
def Kind.isInBraces : Kind → Bool
  | .number | .comma | .char | .escaped | .word | .digit => true
  | _ => false

/-- Whether a kind of token may stand outside and leaves the scan there. -/
def Kind.isOutside : Kind → Bool
  | .leftBracket | .leftBrace | .dash | .number | .comma => false
  | _ => true

/-- Where a scan stands, as far as the tokens in front tell. -/
inductive Site where
  | outside
  /-- Behind the bracket that opens a class. -/
  | opening
  /-- Behind the caret that negates a class. -/
  | negated
  /-- Behind a member of a class. -/
  | member
  /-- Behind a dash of a class, which another member follows. -/
  | dash
  | inBraces
  deriving DecidableEq

/-- Whether a site is in a class. -/
def Site.inClass : Site → Bool
  | opening | negated | member | dash => true
  | outside | inBraces => false

/-- The site behind a token. -/
inductive Leads : Site → Kind → Site → Prop where
  | outside {kind : Kind} (outside : kind.isOutside = true) : Leads .outside kind .outside
  | opens : Leads .outside .leftBracket .opening
  | negates : Leads .opening .caret .negated
  | member {site : Site} {kind : Kind} (within : site.inClass = true)
      (member : kind.isClassMember = true) (noDash : kind ≠ .dash) : Leads site kind .member
  | dash {site : Site} (behind : site = .member ∨ site = .dash) : Leads site .dash .dash
  | closes {site : Site} (within : site.inClass = true) (noDash : site ≠ .dash) :
      Leads site .rightBracket .outside
  | opensBraces : Leads .outside .leftBrace .inBraces
  | counts {kind : Kind} (within : kind.isInBraces = true) : Leads .inBraces kind .inBraces
  | closesBraces : Leads .inBraces .rightBrace .outside

/-- The site behind tokens. -/
inductive Path : Site → List Token → Site → Prop where
  | nil (site : Site) : Path site [] site
  | cons {site next final : Site} {t : Token} {ts : List Token} (leads : Leads site t.kind next)
      (rest : Path next ts final) : Path site (t :: ts) final

/-- A path leads through a site wherever its tokens are parted. -/
theorem Path.exists_of_append {site final : Site} (path : Path site (ts ++ us) final) :
    ∃ between, Path site ts between ∧ Path between us final := by
  induction ts generalizing site with
  | nil => exact ⟨site, .nil site, path⟩
  | cons t ts ih =>
    cases path with
    | cons leads rest =>
      obtain ⟨between, front, back⟩ := ih rest
      exact ⟨between, .cons leads front, back⟩

end Sites

section Scans

/-- A scan at `start`, with the text in front of it, is at a site. -/
inductive SitsAt (start : Nat) (text : List Char) : Context → Site → Prop where
  | outside : SitsAt start text .outside .outside
  | opening {opened : Nat} (first : start = opened + 1) :
      SitsAt start text (.inClass opened '[') .opening
  | negated {opened : Nat} (second : start = opened + 2) :
      SitsAt start text (.inClass opened '^') .negated
  | member {opened : Nat} {previous : Char} (behind : opened + 1 < start) :
      SitsAt start text (.inClass opened previous) .member
  | dash {opened : Nat} {previous : Char} (behind : opened + 1 < start)
      (next : ∃ c, text.head? = some c ∧ c ≠ ']') :
      SitsAt start text (.inClass opened previous) .dash
  | inBraces : SitsAt start text .inBounds .inBraces

theorem kindEscaped_isOutside (c : Char) : (kindEscaped c).isOutside = true := by
  unfold kindEscaped
  split <;> rfl

theorem kindEscaped_isInBraces (c : Char) : (kindEscaped c).isInBraces = true := by
  unfold kindEscaped
  split <;> rfl

theorem kindEscaped_isClassMember (c : Char) : (kindEscaped c).isClassMember = true := by
  unfold kindEscaped
  split <;> rfl

theorem kindEscaped_ne_dash (c : Char) : kindEscaped c ≠ .dash := by
  unfold kindEscaped
  split <;> nofun

/-- Behind an escaped character a scan is at the next site. -/
theorem SitsAt.escape {site : Site} {text' : List Char} (sits : SitsAt start text' context site) :
    ∃ next, Leads site (kindEscaped c) next ∧
      SitsAt (start + 2) text (context.afterEscape c) next := by
  have member {opened : Nat} (within : site.inClass = true) (behind : opened + 1 < start + 2) :
      ∃ next, Leads site (kindEscaped c) next ∧ SitsAt (start + 2) text (.inClass opened c) next :=
    ⟨.member, .member within (kindEscaped_isClassMember c) (kindEscaped_ne_dash c), .member behind⟩
  cases sits with
  | outside => exact ⟨.outside, .outside (kindEscaped_isOutside c), .outside⟩
  | opening first => exact member rfl (by omega)
  | negated second => exact member rfl (by omega)
  | member behind => exact member rfl (by omega)
  | dash behind _ => exact member rfl (by omega)
  | inBraces => exact ⟨.inBraces, .counts (kindEscaped_isInBraces c), .inBraces⟩

/-- What a character of a class stands for: the bracket that closes it, the caret right behind the
opening one, a dash with something behind it, or itself. -/
inductive ClassKind (opened : Nat) (previous : Char) (start : Nat) (next : Option Char) :
    Char → Kind → Prop where
  | closes : ClassKind opened previous start next ']' .rightBracket
  | negates (first : start = opened + 1) : ClassKind opened previous start next '^' .caret
  | dash (range : isRangeDash opened previous start next = true) :
      ClassKind opened previous start next '-' .dash
  | char (c : Char) : ClassKind opened previous start next c .char

theorem classKind_kindInClass (opened : Nat) (previous : Char) (start : Nat) (next : Option Char)
    (c : Char) :
    ClassKind opened previous start next c (kindInClass opened previous start next c) := by
  unfold kindInClass
  split
  · exact .closes
  · split
    · next first => exact .negates first
    · exact .char _
  · split
    · next range => exact .dash range
    · exact .char _
  · exact .char _

/-- Behind a character of a class a scan is at the next site. -/
theorem SitsAt.inClass {opened : Nat} {previous : Char} {site : Site}
    (sits : SitsAt start (c :: text) (.inClass opened previous) site)
    (stands : ClassKind opened previous start text.head? c kind) :
    ∃ next, Leads site kind next ∧
      SitsAt (start + 1) text ((Context.inClass opened previous).after kind start c) next := by
  have within : site.inClass = true ∧ opened < start := by
    cases sits with
    | opening first => exact ⟨rfl, by omega⟩
    | negated second => exact ⟨rfl, by omega⟩
    | member behind => exact ⟨rfl, by omega⟩
    | dash behind _ => exact ⟨rfl, by omega⟩
  cases stands with
  | closes =>
    refine ⟨.outside, .closes within.1 ?_, .outside⟩
    rintro rfl
    cases sits with
    | dash _ next =>
      obtain ⟨c, here, noBracket⟩ := next
      exact noBracket (Option.some.inj here).symm
  | negates first =>
    cases sits with
    | opening => exact ⟨.negated, .negates, .negated (by omega)⟩
    | negated second => omega
    | member behind => omega
    | dash behind _ => omega
  | dash range =>
    simp only [isRangeDash, Bool.and_eq_true, decide_eq_true_eq, Bool.not_eq_true',
      Bool.and_eq_false_iff, decide_eq_false_iff_not, Option.any_eq_true] at range
    obtain ⟨⟨noBracket, noCaret⟩, next⟩ := range
    cases sits with
    | opening => exact absurd rfl noBracket
    | negated second => exact (noCaret.elim (· second) (· rfl)).elim
    | member behind => exact ⟨.dash, .dash (.inl rfl), .dash (by omega) next⟩
    | dash behind _ => exact ⟨.dash, .dash (.inr rfl), .dash (by omega) next⟩
  | char => exact ⟨.member, .member within.1 rfl nofun, .member (by omega)⟩

theorem kindOutside_isOutside (noBracket : kindOutside c ≠ .leftBracket)
    (noBrace : kindOutside c ≠ .leftBrace) : (kindOutside c).isOutside = true := by
  unfold kindOutside at noBracket noBrace ⊢
  split <;> first | rfl | contradiction

theorem kindInBounds_isInBraces (noBrace : kindInBounds c ≠ .rightBrace) :
    (kindInBounds c).isInBraces = true := by
  unfold kindInBounds at noBrace ⊢
  split
  · rfl
  · split <;> first | rfl | contradiction

/-- Behind a character that is no backslash a scan is at the next site. -/
theorem SitsAt.plain {site : Site} (sits : SitsAt start (c :: text) context site) :
    ∃ next, Leads site (context.kind start c text.head?) next ∧
      SitsAt (start + 1) text (context.after (context.kind start c text.head?) start c) next := by
  cases context with
  | outside =>
    cases sits
    show ∃ next, Leads .outside (kindOutside c) next ∧
      SitsAt (start + 1) text (Context.outside.after (kindOutside c) start c) next
    by_cases bracket : kindOutside c = .leftBracket
    · rw [bracket, eq_of_kindOutside_eq_leftBracket bracket]
      exact ⟨.opening, .opens, .opening rfl⟩
    by_cases brace : kindOutside c = .leftBrace
    · rw [brace]
      exact ⟨.inBraces, .opensBraces, .inBraces⟩
    rw [after_outside bracket brace]
    exact ⟨.outside, .outside (kindOutside_isOutside bracket brace), .outside⟩
  | inClass opened previous => exact sits.inClass (classKind_kindInClass ..)
  | inBounds =>
    cases sits
    show ∃ next, Leads .inBraces (kindInBounds c) next ∧
      SitsAt (start + 1) text (Context.inBounds.after (kindInBounds c) start c) next
    by_cases closes : kindInBounds c = .rightBrace
    · rw [closes]
      exact ⟨.outside, .closesBraces, .outside⟩
    rw [after_inBounds closes]
    exact ⟨.inBraces, .counts (kindInBounds_isInBraces closes), .inBraces⟩

/-- The tokens of a text lead out of every class. -/
theorem Cuts.path {site : Site} (cuts : Cuts context start text ts)
    (sits : SitsAt start text context site) :
    ∃ final, Path site ts final ∧ final.inClass = false := by
  induction cuts generalizing site with
  | nil start noClass =>
    refine ⟨site, .nil site, ?_⟩
    cases sits with
    | outside | inBraces => rfl
    | opening | negated | member | dash => exact (noClass _ _ rfl).elim
  | escaped _ ih =>
    obtain ⟨next, leads, sits⟩ := sits.escape
    obtain ⟨final, path, closed⟩ := ih sits
    exact ⟨final, .cons leads path, closed⟩
  | plain _ _ ih =>
    obtain ⟨next, leads, sits⟩ := sits.plain
    obtain ⟨final, path, closed⟩ := ih sits
    exact ⟨final, .cons leads path, closed⟩

theorem path_of_scan (cut : scan pattern = .ok ts) :
    ∃ final, Path .outside ts final ∧ final.inClass = false :=
  (cuts_of_scan cut).path .outside

end Scans

section Layout

/-- Tokens end behind an opening one that nothing has closed yet. -/
def EndsWithin (opening closing : Kind) (ts : List Token) : Prop :=
  ∃ front t body, ts = front ++ t :: body ∧ t.kind = opening ∧ ∀ u ∈ body, u.kind ≠ closing

/-- Tokens end with a member of a class. -/
def EndsWithMember (ts : List Token) : Prop :=
  ∃ t ∈ ts.getLast?, t.kind.isClassMember = true

theorem endsWithin_concat {opening closing : Kind} (opens : t.kind = opening) :
    EndsWithin opening closing (ts ++ [t]) :=
  ⟨ts, t, [], rfl, opens, nofun⟩

theorem EndsWithin.concat {opening closing : Kind} (within : EndsWithin opening closing ts)
    (inside : t.kind ≠ closing) : EndsWithin opening closing (ts ++ [t]) := by
  obtain ⟨front, u, body, rfl, opens, unclosed⟩ := within
  refine ⟨front, u, body ++ [t], by simp, opens, ?_⟩
  exact List.forall_mem_append.mpr ⟨unclosed, List.forall_mem_singleton.mpr inside⟩

theorem endsWithMember_concat (member : t.kind.isClassMember = true) :
    EndsWithMember (ts ++ [t]) :=
  ⟨t, List.getLast?_concat, member⟩

/-- What the tokens in front of a site are like. -/
def Site.Follows (ts : List Token) : Site → Prop
  | outside => True
  | opening | negated => EndsWithin .leftBracket .rightBracket ts
  | member | dash => EndsWithin .leftBracket .rightBracket ts ∧ EndsWithMember ts
  | inBraces => EndsWithin .leftBrace .rightBrace ts

theorem Site.Follows.within {site : Site} (follows : site.Follows ts)
    (inClass : site.inClass = true) : EndsWithin .leftBracket .rightBracket ts := by
  cases site with
  | outside | inBraces => cases inClass
  | opening | negated => exact follows
  | member | dash => exact follows.1

/-- A token is in front of the site that it leads to. -/
theorem Site.Follows.step {site next : Site} (follows : site.Follows ts)
    (leads : Leads site t.kind next) : next.Follows (ts ++ [t]) := by
  generalize is : t.kind = kind at leads
  cases leads with
  | outside | closes | closesBraces => trivial
  | opens | opensBraces => exact endsWithin_concat is
  | negates => exact EndsWithin.concat follows (is ▸ nofun)
  | member within member noDash =>
    subst is
    refine ⟨(follows.within within).concat ?_, endsWithMember_concat member⟩
    intro closes
    rw [closes] at member
    cases member
  | dash behind =>
    have within : site.inClass = true := by rcases behind with rfl | rfl <;> rfl
    exact ⟨(follows.within within).concat (is ▸ nofun), endsWithMember_concat (is ▸ rfl)⟩
  | counts within =>
    refine EndsWithin.concat follows ?_
    rintro closes
    rw [← is, closes] at within
    cases within

theorem Path.follows {site final : Site} (path : Path site us final) (follows : site.Follows ts) :
    final.Follows (ts ++ us) := by
  induction path generalizing ts with
  | nil => rwa [List.append_nil]
  | cons leads _ ih =>
    rw [List.append_cons]
    exact ih (follows.step leads)

/-- A class that has begun with a member or a caret holds members only, up to its bracket. -/
theorem Path.members {site final : Site} (path : Path site ts final)
    (inClass : site.inClass = true) (begun : site ≠ .opening) (closed : final.inClass = false) :
    ∃ body closing rest, ts = body ++ closing :: rest ∧ closing.kind = .rightBracket ∧
      ∀ t ∈ body, t.kind.isClassMember = true := by
  induction path with
  | nil => cases inClass.symm.trans closed
  | @cons site next final t ts leads _ ih =>
    have goesOn (member : t.kind.isClassMember = true) (inClass : next.inClass = true)
        (begun : next ≠ .opening) : ∃ body closing rest, t :: ts = body ++ closing :: rest ∧
          closing.kind = .rightBracket ∧ ∀ t ∈ body, t.kind.isClassMember = true := by
      obtain ⟨body, closing, rest, rfl, closes, members⟩ := ih inClass begun closed
      exact ⟨t :: body, closing, rest, rfl, closes, List.forall_mem_cons.mpr ⟨member, members⟩⟩
    generalize is : t.kind = kind at leads
    cases leads with
    | outside | opens | opensBraces | counts | closesBraces => cases inClass
    | negates => exact absurd rfl begun
    | member _ member _ => exact goesOn (is ▸ member) rfl nofun
    | dash => exact goesOn (is ▸ rfl) rfl nofun
    | closes => exact ⟨[], t, ts, rfl, is, nofun⟩

/-- What may stand between the brackets of a class. -/
structure IsClassBody (body : List Token) : Prop where
  /-- Only the first token may be a caret. -/
  head : ∀ t ∈ body.head?, t.kind = .caret ∨ t.kind.isClassMember = true
  tail : ∀ t ∈ body.tail, t.kind.isClassMember = true

/-- A class that is opened is closed. -/
theorem Path.classBody {final : Site} (path : Path .opening ts final)
    (closed : final.inClass = false) :
    ∃ body closing rest, ts = body ++ closing :: rest ∧ closing.kind = .rightBracket ∧
      IsClassBody body := by
  cases path with
  | nil => cases closed
  | @cons _ next _ t ts leads rest =>
    have goesOn (head : t.kind = .caret ∨ t.kind.isClassMember = true)
        (inClass : next.inClass = true) (begun : next ≠ .opening) :
        ∃ body closing rest, t :: ts = body ++ closing :: rest ∧ closing.kind = .rightBracket ∧
          IsClassBody body := by
      obtain ⟨body, closing, after, rfl, closes, members⟩ := rest.members inClass begun closed
      refine ⟨t :: body, closing, after, rfl, closes, ?_, members⟩
      rintro t ⟨⟩
      exact head
    generalize is : t.kind = kind at leads
    cases leads with
    | negates => exact goesOn (.inl is) rfl nofun
    | member _ member _ => exact goesOn (.inr (is ▸ member)) rfl nofun
    | dash behind => rcases behind with behind | behind <;> cases behind
    | closes => exact ⟨[], t, ts, rfl, is, nofun, nofun⟩

/-- A member stands behind a dash. -/
theorem Path.head_of_dash {final : Site} (path : Path .dash ts final)
    (closed : final.inClass = false) : ∃ t ∈ ts.head?, t.kind.isClassMember = true := by
  cases path with
  | nil => cases closed
  | @cons _ _ _ t _ leads _ =>
    refine ⟨t, rfl, ?_⟩
    generalize t.kind = kind at leads
    cases leads with
    | member _ member _ => exact member
    | dash => rfl
    | closes _ noDash => exact absurd rfl noDash

/-- Braces hold what may stand in them, up to the closing one or the end. -/
theorem Path.braces {final : Site} (path : Path .inBraces ts final) :
    ∃ body rest, ts = body ++ rest ∧ (∀ t ∈ body, t.kind.isInBraces = true) ∧
      ∀ t ∈ rest.head?, t.kind = .rightBrace := by
  generalize within : Site.inBraces = site at path
  induction path with
  | nil => exact ⟨[], [], rfl, nofun, nofun⟩
  | @cons _ _ _ t ts leads _ ih =>
    subst within
    generalize is : t.kind = kind at leads
    cases leads with
    | counts within =>
      obtain ⟨body, rest, rfl, counts, closes⟩ := ih rfl
      exact ⟨t :: body, rest, rfl, List.forall_mem_cons.mpr ⟨is ▸ within, counts⟩, closes⟩
    | closesBraces =>
      refine ⟨[], t :: ts, rfl, nofun, ?_⟩
      rintro t ⟨⟩
      exact is
    | member within | closes within => cases within
    | dash behind => rcases behind with behind | behind <;> cases behind

/-- Where the tokens of classes and of repetition counts stand. -/
structure LaidOut (ts : List Token) : Prop where
  /-- A class that is opened is closed, with nothing but its members between. -/
  classes : ∀ before t after, ts = before ++ t :: after → t.kind = .leftBracket →
    ∃ body closing rest, after = body ++ closing :: rest ∧ closing.kind = .rightBracket ∧
      IsClassBody body
  /-- A dash stands in a class, between two of its members. -/
  dashes : ∀ before t after, ts = before ++ t :: after → t.kind = .dash →
    EndsWithin .leftBracket .rightBracket before ∧ EndsWithMember before ∧
      ∃ u ∈ after.head?, u.kind.isClassMember = true
  /-- Braces that are opened go on to their closing one, or to the end. -/
  braces : ∀ before t after, ts = before ++ t :: after → t.kind = .leftBrace →
    ∃ body rest, after = body ++ rest ∧ (∀ u ∈ body, u.kind.isInBraces = true) ∧
      ∀ u ∈ rest.head?, u.kind = .rightBrace
  /-- Digits and commas stand in braces. -/
  counts : ∀ before t after, ts = before ++ t :: after → t.kind = .number ∨ t.kind = .comma →
    EndsWithin .leftBrace .rightBrace before

/-- Tokens that lead out of every class are laid out. -/
theorem Path.laidOut {final : Site} (path : Path .outside ts final)
    (closed : final.inClass = false) : LaidOut ts := by
  have parted {before after : List Token} {t : Token} (split : ts = before ++ t :: after) :
      ∃ site next, site.Follows before ∧ Leads site t.kind next ∧ Path next after final := by
    subst split
    obtain ⟨site, front, back⟩ := path.exists_of_append
    have atStart : Site.outside.Follows [] := trivial
    cases back with
    | cons leads rest => exact ⟨site, _, front.follows atStart, leads, rest⟩
  constructor
  case classes =>
    intro before t after split opens
    obtain ⟨site, next, -, leads, rest⟩ := parted split
    rw [opens] at leads
    cases leads with
    | opens => exact rest.classBody closed
    | outside outside => cases outside
    | member _ member _ => cases member
    | counts within => cases within
  case dashes =>
    intro before t after split dash
    obtain ⟨site, next, follows, leads, rest⟩ := parted split
    rw [dash] at leads
    cases leads with
    | dash behind =>
      have follows : EndsWithin .leftBracket .rightBracket before ∧ EndsWithMember before := by
        rcases behind with rfl | rfl <;> exact follows
      exact ⟨follows.1, follows.2, rest.head_of_dash closed⟩
    | outside outside => cases outside
    | member _ _ noDash => exact absurd rfl noDash
    | counts within => cases within
  case braces =>
    intro before t after split opens
    obtain ⟨site, next, -, leads, rest⟩ := parted split
    rw [opens] at leads
    cases leads with
    | opensBraces => exact rest.braces
    | outside outside => cases outside
    | member _ member _ => cases member
    | counts within => cases within
  case counts =>
    intro before t after split counts
    obtain ⟨site, next, follows, leads, rest⟩ := parted split
    generalize t.kind = kind at leads counts
    cases leads with
    | counts => exact follows
    | outside outside => rcases counts with rfl | rfl <;> cases outside
    | member _ member _ => rcases counts with rfl | rfl <;> cases member
    | opens | negates | dash | closes | opensBraces | closesBraces =>
      rcases counts with counts | counts <;> cases counts

/-- The tokens of a pattern are laid out. -/
theorem laidOut_of_scan (cut : scan pattern = .ok ts) : LaidOut ts := by
  obtain ⟨final, path, closed⟩ := path_of_scan cut
  exact path.laidOut closed

end Layout

end FullMatch.Token
