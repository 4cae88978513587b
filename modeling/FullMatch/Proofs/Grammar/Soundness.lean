import FullMatch.Proofs.Grammar.ClassSoundness
import FullMatch.Proofs.Grammar.Completeness
import FullMatch.Proofs.Grammar.Depth

/-!
# What is read derives

At every token the reader stands for phrases of the grammar: those of each open group, and the piece
in focus, make up the tokens read so far (`Reader.Reads`). A step keeps that (`Reader.Reads.step`),
so a pattern that is read derives its expression, and exactly the derivable ones, with groups no
deeper than allowed, are read (`read_eq_ok_iff`).
-/

namespace FullMatch.Grammar

open Token (nesting)

variable {limit : UInt32} {r r' : Reader} {groups : List Group} {level level' : Level} {t : Token}
  {ts us vs : List Token} {e : Expr} {opened : Nat}

section Counts

variable {counting : Counting} {n : Option Count} {n' : Count}

/-- The tokens are the digits that have been read of a number. -/
def ReadsNumber : Option Count → List Token → Prop
  | none, ts => ts = []
  | some n, ts => IsNumber ts n.value

theorem ReadsNumber.push (reads : ReadsNumber n ts) (number : t.kind = .number)
    (own : t.Faithful) (pushed : Count.push n t = .ok n') : IsNumber (ts ++ [t]) n'.value := by
  obtain ⟨rfl, counted⟩ := (Count.push_eq_ok (own.number number)).mp pushed
  have value : Count.valueOf n = Nat.ofDigitChars 10 (ts.map Token.value) 0 := by
    cases n with
    | none =>
      obtain rfl := reads
      rfl
    | some n => exact reads.value
  have digits : ∀ u ∈ ts, u.kind = .number := by
    cases n with
    | none =>
      obtain rfl := reads
      exact nofun
    | some n => exact reads.digits
  refine ⟨by simp, ?_, ?_, counted⟩
  · exact List.forall_mem_append.mpr ⟨digits, List.forall_mem_singleton.mpr number⟩
  · rw [List.map_append, Nat.ofDigitChars_append, ← value]
    rfl

/-- The tokens are what has been read between the braces of a repetition count. -/
def Counting.Reads : Counting → List Token → Prop
  | least n, ts => ReadsNumber n ts
  | most m n, ts => ∃ us comma vs, ts = us ++ comma :: vs ∧ IsNumber us m ∧ comma.kind = .comma ∧
      ReadsNumber n vs

theorem Counting.Reads.push (reads : counting.Reads ts) (number : t.kind = .number)
    (own : t.Faithful) (pushed : Count.push counting.current t = .ok n') :
    (counting.withCurrent n').Reads (ts ++ [t]) := by
  cases counting with
  | least n => exact ReadsNumber.push reads number own pushed
  | most m n =>
    obtain ⟨us, comma, vs, rfl, least, separates, reads⟩ := reads
    exact ⟨us, comma, vs ++ [t], by simp, least, separates, reads.push number own pushed⟩

/-- What has been read of a repetition count that may be closed is its bounds. -/
theorem Counting.Reads.bounds {least : Nat} {most : Option Nat} (reads : counting.Reads ts)
    (ends : counting.ends = some (least, most)) : IsBounds ts least most := by
  rcases counting with (_ | n) | ⟨m, n⟩
  · cases ends
  · cases ends
    exact .exactly reads
  · cases ends
    obtain ⟨us, comma, vs, rfl, first, separates, second⟩ := reads
    cases n with
    | none =>
      obtain rfl := second
      exact .atLeast first separates
    | some n => exact .between first separates second

end Counts

section Readers

/-- The tokens are what has been read of a branch. -/
def ReadsTerm (limit : UInt32) : Option Expr → List Token → Prop
  | none, ts => ts = []
  | some e, ts => Derives limit .factors ts e

/-- The tokens are what has been read of an alternation. -/
def Level.Reads (limit : UInt32) (level : Level) (ts : List Token) : Prop :=
  match level.branches with
  | none => ReadsTerm limit level.term ts
  | some branches => ∃ us bar vs, ts = us ++ bar :: vs ∧ Derives limit .expression us branches ∧
      bar.kind = .pipe ∧ ReadsTerm limit level.term vs

theorem ReadsTerm.derives {term : Option Expr} (reads : ReadsTerm limit term ts) :
    Derives limit .term ts (term.getD .empty) := by
  cases term with
  | none =>
    obtain rfl := reads
    exact .empty
  | some e => exact .nonempty reads

theorem ReadsTerm.push {term : Option Expr} (reads : ReadsTerm limit term ts)
    (factor : Derives limit .factor us e) :
    ReadsTerm limit (Level.push ⟨none, term⟩ e).term (ts ++ us) := by
  cases term with
  | none =>
    obtain rfl := reads
    exact .single factor
  | some term => exact .concat reads factor

namespace Level.Reads

theorem start : Level.start.Reads limit [] :=
  rfl

theorem push (reads : level.Reads limit ts) (factor : Derives limit .factor us e) :
    (level.push e).Reads limit (ts ++ us) := by
  obtain ⟨branches, term⟩ := level
  cases branches with
  | none => exact ReadsTerm.push reads factor
  | some branches =>
    obtain ⟨vs, bar, ws, rfl, left, separates, reads⟩ := reads
    exact ⟨vs, bar, ws ++ us, by simp, left, separates, reads.push factor⟩

/-- What has been read of an alternation is an expression. -/
theorem close (reads : level.Reads limit ts) : Derives limit .expression ts level.close := by
  obtain ⟨branches, term⟩ := level
  cases branches with
  | none => exact .branch (ReadsTerm.derives reads)
  | some branches =>
    obtain ⟨us, bar, vs, rfl, left, separates, reads⟩ := reads
    exact .alternate left separates reads.derives

theorem branch (reads : level.Reads limit ts) (separates : t.kind = .pipe) :
    level.branch.Reads limit (ts ++ [t]) :=
  ⟨ts, t, [], rfl, reads.close, separates, rfl⟩

end Level.Reads

/-- The tokens are what has been read in groups that are open, and of the level inside them. -/
inductive ReadsGroups (limit : UInt32) : List Group → Level → List Token → Prop where
  | nil {level : Level} {ts : List Token} (reads : level.Reads limit ts) :
      ReadsGroups limit [] level ts
  | cons {group : Group} {groups : List Group} {level : Level} {opening : Token}
      {ts us : List Token} (outer : ReadsGroups limit groups group.outer ts)
      (opens : opening.kind = .leftParen) (reads : level.Reads limit us) :
      ReadsGroups limit (group :: groups) level (ts ++ opening :: us)

/-- The tokens are what has been read of the piece in focus. -/
def Focus.Reads (limit : UInt32) : Focus → List Token → Prop
  | ready, ts => ts = []
  | base e, ts => Derives limit .base ts e
  | bounds _ e counting, ts => ∃ us opening vs, ts = us ++ opening :: vs ∧
      Derives limit .base us e ∧ opening.kind = .leftBrace ∧ counting.Reads vs
  | inClass c, ts => ∃ opening us, ts = opening :: us ∧ opening.kind = .leftBracket ∧ c.Reads us

/-- The tokens are what has been read. -/
def Reader.Reads (limit : UInt32) (r : Reader) (ts : List Token) : Prop :=
  ∃ us vs, ts = us ++ vs ∧ ReadsGroups limit r.groups r.level us ∧ r.focus.Reads limit vs

namespace ReadsGroups

/-- The innermost level may grow. -/
theorem grow (reads : ReadsGroups limit groups level ts)
    (grown : ∀ us, level.Reads limit us → level'.Reads limit (us ++ vs)) :
    ReadsGroups limit groups level' (ts ++ vs) := by
  cases reads with
  | nil reads => exact .nil (grown _ reads)
  | cons outer opens reads =>
    rw [List.append_assoc, List.cons_append]
    exact .cons outer opens (grown _ reads)

theorem push (reads : ReadsGroups limit groups level ts) (factor : Derives limit .factor us e) :
    ReadsGroups limit groups (level.push e) (ts ++ us) :=
  reads.grow fun _ reads => reads.push factor

theorem branch (reads : ReadsGroups limit groups level ts) (separates : t.kind = .pipe) :
    ReadsGroups limit groups level.branch (ts ++ [t]) :=
  reads.grow fun _ reads => reads.branch separates

end ReadsGroups

/-- Behind a branch a base begins, a group closes to one, or another branch begins. -/
theorem base_reads (reads : ReadsGroups limit groups level ts)
    (based : Reader.Based groups level t r') : r'.Reads limit (ts ++ [t]) := by
  cases based with
  | single _ base => exact ⟨ts, [t], rfl, reads, base limit⟩
  | bracket kind => exact ⟨ts, [t], rfl, reads, t, [], rfl, kind, .start t.position⟩
  | opens kind _ => exact ⟨ts ++ [t], [], by simp, .cons reads kind .start, rfl⟩
  | closes kind innermost =>
    subst innermost
    cases reads with
    | cons outer opens inner => exact ⟨_, _, by simp, outer, .group opens inner.close kind⟩
  | bar kind => exact ⟨ts ++ [t], [], by simp, reads.branch kind, rfl⟩

/-- The reader has read one token more. -/
theorem Reader.Reads.step (reads : r.Reads limit ts) (own : t.Faithful)
    (stepped : r.step limit t = .ok r') : r'.Reads limit (ts ++ [t]) := by
  obtain ⟨groups, level, focus⟩ := r
  obtain ⟨us, vs, rfl, outer, reads⟩ := reads
  rw [List.append_assoc]
  cases Reader.stepped_of_step_eq_ok stepped with
  | ready based =>
    obtain rfl := reads
    exact base_reads outer based
  | bounds opens => exact ⟨us, vs ++ [t], rfl, outer, vs, t, [], rfl, reads, opens, rfl⟩
  | repeated repeats named =>
    obtain rfl := Reader.eq_of_named own repeats named
    exact ⟨_, [], (List.append_nil _).symm, outer.push (.repeated reads repeats), rfl⟩
  | factor _ based =>
    -- The base in focus is a factor as it is, and the token stands behind that.
    rw [← List.append_assoc]
    exact base_reads (outer.push (.bare reads)) based
  | @counted opened e counting _ counted =>
    obtain ⟨vs, opening, ws, rfl, base, opens, reads⟩ := reads
    have goesOn {counting' : Counting} (reads : counting'.Reads (ws ++ [t])) :
        Reader.Reads limit ⟨groups, level, .bounds opened e counting'⟩
          (us ++ (vs ++ opening :: ws ++ [t])) :=
      ⟨us, _, rfl, outer, vs, opening, ws ++ [t], by simp, base, opens, reads⟩
    cases counted with
    | digit kind pushed => exact goesOn (reads.push kind own pushed)
    | comma kind first =>
      subst first
      exact goesOn ⟨ws, t, [], rfl, reads, kind, rfl⟩
    | closes kind ends allowed =>
      refine ⟨_, [], (List.append_nil _).symm, ?_, rfl⟩
      rw [List.append_assoc, List.cons_append]
      exact outer.push (.counted base opens (reads.bounds ends) kind allowed)
  | pushed _ pushed =>
    obtain ⟨opening, vs, rfl, opens, reads⟩ := reads
    exact ⟨us, _, rfl, outer, opening, vs ++ [t], by simp, opens, reads.push pushed⟩
  | closed closes closed =>
    obtain ⟨opening, vs, rfl, opens, reads⟩ := reads
    exact ⟨us, _, rfl, outer, .charClass opens (reads.close closed) closes⟩

theorem Reader.Reads.feed (reads : r.Reads limit ts) (faithful : ∀ u ∈ us, u.Faithful)
    (fed : r.feed limit us = .ok r') : r'.Reads limit (ts ++ us) := by
  induction us generalizing r ts with
  | nil =>
    obtain rfl := Except.ok.inj fed
    rwa [List.append_nil]
  | cons u us ih =>
    obtain ⟨own, faithful⟩ := List.forall_mem_cons.mp faithful
    obtain ⟨next, stepped, fed⟩ := Reader.feed_cons_eq_ok.mp fed
    have rest := ih (reads.step own stepped) faithful fed
    rwa [List.append_assoc] at rest

/-- When the tokens are at an end, what has been read is an expression. -/
theorem Reader.Reads.finish (reads : r.Reads limit ts) (finished : r.finish = .ok e) :
    Derives limit .expression ts e := by
  have closed {groups : List Group} {level : Level} {us : List Token}
      (reads : ReadsGroups limit groups level us)
      (closed : Reader.close ⟨groups, level, .ready⟩ = .ok e) : Derives limit .expression us e := by
    cases reads with
    | nil reads =>
      obtain rfl := Except.ok.inj closed
      exact reads.close
    | cons _ _ _ => cases closed
  obtain ⟨groups, level, focus⟩ := r
  obtain ⟨us, vs, rfl, outer, reads⟩ := reads
  cases focus with
  | ready =>
    obtain rfl := reads
    rw [List.append_nil]
    exact closed outer finished
  | base e => exact closed (outer.push (.bare reads)) finished
  | bounds opened e counting =>
    rcases counting with (_ | n) | ⟨least, _ | n⟩ <;> cases finished
  | inClass c => cases finished

end Readers

/-- Tokens that are read derive what they are read as, with groups no deeper than allowed. -/
theorem derives_of_read (faithful : ∀ t ∈ ts, t.Faithful) (isRead : read limit ts = .ok e) :
    Derives limit .expression ts e ∧ nesting ts ≤ maxDepth := by
  rw [read] at isRead
  cases fed : Reader.start.feed limit ts with
  | error fault =>
    rw [fed] at isRead
    cases isRead
  | ok r =>
    rw [fed] at isRead
    have reads : Reader.start.Reads limit [] := ⟨[], [], rfl, .nil .start, rfl⟩
    exact ⟨(reads.feed faithful fed).finish isRead,
      Reader.deepest_le_of_feed (Nat.zero_le _) fed⟩

/-- Reading accepts exactly the tokens that derive an expression, with groups no deeper than
allowed, and reads them as that expression. -/
theorem read_eq_ok_iff (faithful : ∀ t ∈ ts, t.Faithful) :
    read limit ts = .ok e ↔ Derives limit .expression ts e ∧ nesting ts ≤ maxDepth :=
  ⟨derives_of_read faithful, fun ⟨derives, depth⟩ => read_of_derives derives faithful depth⟩

/-- The tokens of `(a|b){2,}` derive what they are read as. -/
theorem derives_repeated_choice :
    let tokens : List Token := [⟨.leftParen, '(', 0⟩, ⟨.char, 'a', 1⟩, ⟨.pipe, '|', 2⟩,
      ⟨.char, 'b', 3⟩, ⟨.rightParen, ')', 4⟩, ⟨.leftBrace, '\x7b', 5⟩, ⟨.number, '2', 6⟩,
      ⟨.comma, ',', 7⟩, ⟨.rightBrace, '\x7d', 8⟩]
    (∀ t ∈ tokens, t.Faithful) ∧ nesting tokens ≤ maxDepth ∧
      Derives 2 .expression tokens
        (.counted (.alternate (.literal 'a') (.literal 'b')) (.atLeast 2)) := by
  intro tokens
  have faithful : ∀ t ∈ tokens, t.Faithful := by decide
  obtain ⟨derives, depth⟩ := (read_eq_ok_iff faithful).mp (rfl : read 2 tokens = .ok _)
  exact ⟨faithful, depth, derives⟩

end FullMatch.Grammar
