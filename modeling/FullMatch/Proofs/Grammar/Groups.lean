import FullMatch.Proofs.Grammar.Depth
import FullMatch.Proofs.Grammar.Fault
import FullMatch.Regex
import FullMatch.Token.Matching
import Mathlib.Data.Set.Card

/-!
# Groups that faults blame

The groups that the reader holds open are those that the tokens read so far leave open
(`Reader.Tracks`). So a fault of groups blames the token that is the cause: the opening parenthesis
of the innermost group that is never closed, the closing parenthesis in front of which every group
is closed, or the first opening parenthesis that stands in too many open groups
(`groups_blamed`).
-/

namespace FullMatch.Grammar

open Token (LeavesOpen OpenAt)

variable {limit : UInt32} {r r' : Reader} {groups groups' : List Group} {t : Token}
  {ts us openings : List Token} {opened : Nat} {fault : Fault}

section Tracking

/-- The number of groups that are open behind tokens is that of their opening parentheses. -/
theorem encard_openAt (leaves : LeavesOpen ts openings) :
    {i | OpenAt ts i}.encard = openings.length := by
  induction leaves with
  | nil balanced =>
    have none : {i | OpenAt _ i} = ∅ := Set.eq_empty_of_forall_notMem fun i => balanced.not_openAt
    rw [none, Set.encard_empty]
    rfl
  | @cons opening ts us openings outer opens inner ih =>
    have all : {i | OpenAt (ts ++ opening :: us) i} = insert ts.length {i | OpenAt ts i} :=
      Set.ext fun i => Token.openAt_append_iff opens inner
    have fresh : ts.length ∉ {i | OpenAt ts i} := fun openAt => absurd openAt.lt_length (by simp)
    rw [all, Set.encard_insert_of_notMem fresh, ih, List.length_cons]
    rfl

/-- The groups in hand are those that tokens leave open. -/
def Tracks (groups : List Group) (ts : List Token) : Prop :=
  ∃ openings, LeavesOpen ts openings ∧ groups.map Group.opened = openings.map Token.position

theorem Tracks.encard (tracks : Tracks groups ts) :
    {i | OpenAt ts i}.encard = groups.length := by
  obtain ⟨openings, leaves, opened⟩ := tracks
  rw [encard_openAt leaves, ← List.length_map (f := Token.position), ← opened, List.length_map]

theorem Tracks.grouped (tracks : Tracks groups ts) (grouped : Reader.Grouped groups t groups') :
    Tracks groups' (ts ++ [t]) := by
  obtain ⟨openings, leaves, opened⟩ := tracks
  cases grouped with
  | same other => exact ⟨openings, leaves.append (.cons other .nil), opened⟩
  | opens kind _ =>
    refine ⟨t :: openings, .cons leaves kind .nil, ?_⟩
    rw [List.map_cons, List.map_cons, opened]
  | closes kind innermost =>
    subst innermost
    cases openings with
    | nil => cases opened
    | cons opening openings => exact ⟨openings, leaves.close kind, (List.cons.inj opened).2⟩

theorem Tracks.feed (tracks : Tracks r.groups ts) (fed : r.feed limit us = .ok r') :
    Tracks r'.groups (ts ++ us) := by
  induction us generalizing r ts with
  | nil =>
    obtain rfl := Except.ok.inj fed
    rwa [List.append_nil]
  | cons u us ih =>
    obtain ⟨next, stepped, fed⟩ := Reader.feed_cons_eq_ok.mp fed
    have rest := ih (tracks.grouped (Reader.grouped_of_step_eq_ok stepped)) fed
    rwa [List.append_assoc] at rest

theorem tracks_of_feed (fed : Reader.start.feed limit ts = .ok r) : Tracks r.groups ts := by
  have start : Tracks Reader.start.groups [] := ⟨[], .nil .nil, rfl⟩
  exact start.feed fed

end Tracking

section Blame

/-- A group that is never closed is the innermost one of those. -/
theorem innermost_of_read (failed : read limit ts = .error (.unclosedGroup opened)) :
    (∃ r, Reader.start.feed limit ts = .ok r) ∧
    ∃ front opening back, ts = front ++ opening :: back ∧ opening.position = opened ∧
      OpenAt ts front.length ∧ ∀ i, OpenAt ts i → i ≤ front.length := by
  rcases stop_of_read_eq_error failed with ⟨_, _, _, _, _, _, refuses⟩ | ⟨r, fed, breaks⟩
  · cases refuses
  · refine ⟨⟨r, fed⟩, ?_⟩
    obtain ⟨openings, leaves, tracks⟩ := tracks_of_feed fed
    cases breaks with
    | unclosedGroup _ innermost =>
      rw [innermost] at tracks
      cases openings with
      | nil => cases tracks
      | cons opening openings =>
        obtain ⟨front, back, whole, openAt, last⟩ := leaves.innermost
        exact ⟨front, opening, back, whole, (List.cons.inj tracks).1.symm, openAt, last⟩

/-- A parenthesis that closes nothing has only closed groups in front of it. -/
theorem closed_of_read (failed : read limit ts = .error (.unopenedGroup t)) :
    ∃ before after, ts = before ++ t :: after ∧ t.kind = .rightParen ∧
      ∀ i, ¬OpenAt before i := by
  rcases stop_of_read_eq_error failed with ⟨before, t, after, r, rfl, fed, refuses⟩ | ⟨_, _, breaks⟩
  · obtain ⟨openings, leaves, tracks⟩ := tracks_of_feed fed
    cases refuses with
    | unopenedGroup _ closes outermost =>
      rw [outermost] at tracks
      cases openings with
      | nil => exact ⟨before, after, rfl, closes, fun i => leaves.not_openAt⟩
      | cons opening openings => cases tracks
  · cases breaks

/-- An opening parenthesis that has been read stood in fewer groups than may be open. -/
theorem lt_maxDepth_of_feed (fed : Reader.start.feed limit (ts ++ t :: us) = .ok r)
    (opens : t.kind = .leftParen) : {i | OpenAt ts i}.encard < maxDepth := by
  obtain ⟨next, fed, rest⟩ := Reader.feed_append_eq_ok.mp fed
  obtain ⟨_, stepped, -⟩ := Reader.feed_cons_eq_ok.mp rest
  rw [(tracks_of_feed fed).encard]
  exact_mod_cast (Reader.grouped_of_step_eq_ok stepped).room opens

/-- A parenthesis that opens a group too deep is the first one that stands in as many open groups as
there may be. -/
theorem first_of_read (failed : read limit ts = .error (.tooDeep opened)) :
    ∃ before t after, ts = before ++ t :: after ∧ t.kind = .leftParen ∧ t.position = opened ∧
      {i | OpenAt before i}.encard = maxDepth ∧
      ∀ front u back, before = front ++ u :: back → u.kind = .leftParen →
        {i | OpenAt front i}.encard < maxDepth := by
  rcases stop_of_read_eq_error failed with ⟨before, t, after, r, rfl, fed, refuses⟩ | ⟨_, _, breaks⟩
  · have tracks := tracks_of_feed fed
    cases refuses with
    | tooDeep _ opens full =>
      have depth : r.groups.length ≤ maxDepth := Reader.groups_le_of_feed (Nat.zero_le _) fed
      refine ⟨before, t, after, rfl, opens, rfl, ?_, ?_⟩
      · rw [tracks.encard, Nat.le_antisymm depth full]
      · rintro front u back rfl opens
        exact lt_maxDepth_of_feed fed opens
  · cases breaks

theorem Fault.exists_of_message_eq_unclosedGroup
    (message : fault.message = "Missing closing parenthesis") :
    ∃ opened, fault = .unclosedGroup opened := by
  unfold Fault.message at message
  cases fault with
  | unclosedGroup opened => exact ⟨opened, rfl⟩
  | unexpected | unexpectedMember =>
    have start := congrArg (fun text => text.toList.take 1) message
    simp at start
  | _ => simp at message

theorem Fault.exists_of_message_eq_unopenedGroup
    (message : fault.message = "Unexpected token at end of pattern") :
    ∃ t, fault = .unopenedGroup t := by
  unfold Fault.message at message
  cases fault with
  | unopenedGroup t => exact ⟨t, rfl⟩
  | unexpected | unexpectedMember =>
    have start := congrArg (fun text => text.toList.take 18) message
    simp at start
  | _ => simp at message

theorem Fault.exists_of_message_eq_tooDeep (message : fault.message = "Pattern nested too deeply") :
    ∃ opened, fault = .tooDeep opened := by
  unfold Fault.message at message
  cases fault with
  | tooDeep opened => exact ⟨opened, rfl⟩
  | unexpected | unexpectedMember =>
    have start := congrArg (fun text => text.toList.take 1) message
    simp at start
  | _ => simp at message

/-- A fault of groups blames the cause. If a parenthesis is missing, all tokens have been read, and
the innermost group that is still open is named. A token at the end is a closing parenthesis, and
every group in front of it is closed. Groups are nested too deeply at the first opening parenthesis
that stands in as many open groups as there may be. -/
theorem groups_blamed {pattern : String}
    (failed : parsePattern limit pattern = .error (.grammar fault)) :
    ∃ ts, Token.scan pattern = .ok ts ∧
      (fault.message = "Missing closing parenthesis" →
        (∃ r, Reader.start.feed limit ts = .ok r) ∧
        fault.position pattern.length = pattern.length ∧
        ∃ front opening back, ts = front ++ opening :: back ∧ OpenAt ts front.length ∧
          (∀ i, OpenAt ts i → i ≤ front.length) ∧
          fault.details = s!"No matching ')' for opening '(' at position {opening.position}") ∧
      (fault.message = "Unexpected token at end of pattern" →
        ∃ before t after, ts = before ++ t :: after ∧ t.kind = .rightParen ∧
          fault.position pattern.length = t.position ∧ ∀ i, ¬OpenAt before i) ∧
      (fault.message = "Pattern nested too deeply" →
        ∃ before t after, ts = before ++ t :: after ∧ t.kind = .leftParen ∧
          fault.position pattern.length = t.position ∧
          {i | OpenAt before i}.encard = maxDepth ∧
          ∀ front u back, before = front ++ u :: back → u.kind = .leftParen →
            {i | OpenAt front i}.encard < maxDepth) := by
  obtain ⟨ts, cut, failed⟩ := parsePattern_eq_error.mp failed
  refine ⟨ts, cut, fun message => ?_, fun message => ?_, fun message => ?_⟩
  · obtain ⟨opened, rfl⟩ := Fault.exists_of_message_eq_unclosedGroup message
    obtain ⟨consumed, front, opening, back, whole, rfl, openAt, last⟩ := innermost_of_read failed
    exact ⟨consumed, rfl, front, opening, back, whole, openAt, last, rfl⟩
  · obtain ⟨t, rfl⟩ := Fault.exists_of_message_eq_unopenedGroup message
    obtain ⟨before, after, whole, closes, closed⟩ := closed_of_read failed
    exact ⟨before, t, after, whole, closes, rfl, closed⟩
  · obtain ⟨opened, rfl⟩ := Fault.exists_of_message_eq_tooDeep message
    obtain ⟨before, t, after, whole, opens, rfl, full, first⟩ := first_of_read failed
    exact ⟨before, t, after, whole, opens, rfl, full, first⟩

/-- In `((a)|\((b`, the group that is opened last is not closed. In `(a)b)c`, the second closing
parenthesis has only a closed group in front of it. The last one of 257 opening parentheses is one
too many. -/
theorem groups_blamed_of_runs :
    (∃ ts, Token.scan "((a)|\\((b" = .ok ts ∧
      (∃ r, Reader.start.feed 0 ts = .ok r) ∧
      ∃ front opening back, ts = front ++ opening :: back ∧ OpenAt ts front.length ∧
        (∀ i, OpenAt ts i → i ≤ front.length) ∧
        "No matching ')' for opening '(' at position 7" =
          s!"No matching ')' for opening '(' at position {opening.position}") ∧
    (∃ ts, Token.scan "(a)b)c" = .ok ts ∧
      ∃ before t after, ts = before ++ t :: after ∧ t.kind = .rightParen ∧ t.position = 4 ∧
        ∀ i, ¬OpenAt before i) ∧
    ∃ ts, Token.scan (String.ofList (List.replicate 257 '(')) = .ok ts ∧
      ∃ before t after, ts = before ++ t :: after ∧ t.kind = .leftParen ∧ t.position = 256 ∧
        {i | OpenAt before i}.encard = maxDepth := by
  refine ⟨?_, ?_, ?_⟩
  · have failed : parsePattern 0 "((a)|\\((b" = .error (.grammar (.unclosedGroup 7)) := by
      have chars : "((a)|\\((b".toList = ['(', '(', 'a', ')', '|', '\\', '(', '(', 'b'] :=
        String.toList_ofList
      rw [parsePattern, Token.scan, chars]
      rfl
    obtain ⟨ts, cut, unclosed, -⟩ := groups_blamed failed
    obtain ⟨consumed, -, innermost⟩ := unclosed rfl
    exact ⟨ts, cut, consumed, innermost⟩
  · have failed : parsePattern 0 "(a)b)c" =
        .error (.grammar (.unopenedGroup ⟨.rightParen, ')', 4⟩)) := by
      have chars : "(a)b)c".toList = ['(', 'a', ')', 'b', ')', 'c'] := String.toList_ofList
      rw [parsePattern, Token.scan, chars]
      rfl
    obtain ⟨ts, cut, -, unopened, -⟩ := groups_blamed failed
    obtain ⟨before, t, after, whole, closes, place, closed⟩ := unopened rfl
    exact ⟨ts, cut, before, t, after, whole, closes, place.symm, closed⟩
  · have failed : parsePattern 0 (String.ofList (List.replicate 257 '(')) =
        .error (.grammar (.tooDeep 256)) := by
      rw [parsePattern, Token.scan, String.toList_ofList]
      decide +kernel
    obtain ⟨ts, cut, -, -, tooDeep⟩ := groups_blamed failed
    obtain ⟨before, t, after, whole, opens, place, full, -⟩ := tooDeep rfl
    exact ⟨ts, cut, before, t, after, whole, opens, place.symm, full⟩

end Blame

end FullMatch.Grammar
