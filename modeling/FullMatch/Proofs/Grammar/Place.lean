import FullMatch.Proofs.Grammar.Fault

/-!
# Places of grammar faults

Whatever the reader remembers in order to report it later is a token, or stands where a token begins
(`Focus.Placed`). So a fault points at a token that has been read, or at the end of the pattern, and
shows no other tokens (`placed_of_read_eq_error`).
-/

namespace FullMatch.Grammar

variable {limit : UInt32} {r r' : Reader} {c c' : OpenClass} {t : Token} {ts : List Token}
  {counting : Counting} {fault : Fault} {P : Token → Prop}

/-- A token with a property begins at a place. -/
def Begins (P : Token → Prop) (position : Nat) : Prop :=
  ∃ t, P t ∧ t.position = position

/-- A literal that waits for a range has a property. -/
def Pending.Placed (P : Token → Prop) : Pending → Prop
  | opening | nothing => True
  | literal t | dash t => P t

/-- A number that is being read begins where a token with a property does. -/
def Counting.Placed (P : Token → Prop) (counting : Counting) : Prop :=
  ∀ n ∈ counting.current, Begins P n.start

/-- What is remembered for a report on the piece in focus is tokens with a property, or where they
begin. -/
def Focus.Placed (P : Token → Prop) : Focus → Prop
  | ready | base _ => True
  | bounds opened _ counting => Begins P opened ∧ counting.Placed P
  | inClass c => Begins P c.opened ∧ c.pending.Placed P

/-- The tokens whose characters a fault shows in its wording. -/
def Fault.shown : Fault → List Token
  | unopenedGroup t | anchor t | unexpected t | unexpectedMember t => [t]
  | numberExpected found => found.toList
  | invertedRange first last | rangeTooLarge first last => [first, last]
  | _ => []

/-- A fault points at a token with a property, or at the end, and shows only such tokens. -/
structure Fault.Placed (P : Token → Prop) (fault : Fault) : Prop where
  place : ∀ position ∈ fault.place, Begins P position
  shown : ∀ t ∈ fault.shown, P t

theorem placed_of_eq {position : Nat} (place : fault.place = some position)
    (begins : Begins P position) (shown : ∀ t ∈ fault.shown, P t) : fault.Placed P := by
  refine ⟨fun position' points => ?_, shown⟩
  rw [place] at points
  exact Option.some.inj points ▸ begins

/-- A digit begins a number, or joins one that has begun. -/
theorem Counting.Placed.start (placed : counting.Placed P) (here : P t) :
    Begins P ((counting.current.map Count.start).getD t.position) := by
  cases current : counting.current with
  | none => exact ⟨t, here, rfl⟩
  | some n => exact placed n current

/-- A token is refused because of something remembered, or for itself. -/
theorem placed_of_refuses (refuses : r.Refuses limit t fault) (placed : r.focus.Placed P)
    (here : P t) : fault.Placed P := by
  have itself : Begins P t.position := ⟨t, here, rfl⟩
  cases refuses with
  | unopenedGroup | anchor | unexpected | numberExpected | unexpectedMember =>
    exact placed_of_eq rfl itself (List.forall_mem_singleton.mpr here)
  | tooDeep | unclosedBounds => exact placed_of_eq rfl itself nofun
  | numberTooLarge within =>
    rw [within] at placed
    exact placed_of_eq rfl (placed.2.start here) nofun
  | boundTooLarge within | invertedBounds within | emptyClass within | classTooLarge within =>
    rw [within] at placed
    exact placed_of_eq rfl placed.1 nofun
  | invertedRange within waits | rangeTooLarge within waits =>
    rw [within] at placed
    have first := placed.2
    rw [waits] at first
    exact placed_of_eq rfl ⟨_, first, rfl⟩
      (List.forall_mem_cons.mpr ⟨first, List.forall_mem_singleton.mpr here⟩)

/-- The end of the pattern is refused where it is, and no token is shown. -/
theorem placed_of_breaks (breaks : r.Breaks fault) : fault.place = none ∧ fault.shown = [] := by
  cases breaks <;> exact ⟨rfl, rfl⟩

theorem based_placed {groups : List Group} {level : Level} (here : P t)
    (based : Reader.Based groups level t r') : r'.focus.Placed P := by
  cases based with
  | single | opens | closes | bar => trivial
  | bracket => exact ⟨⟨t, here, rfl⟩, trivial⟩

theorem counted_placed {groups : List Group} {level : Level} {opened : Nat} {e : Expr}
    (placed : Focus.Placed P (.bounds opened e counting)) (here : P t)
    (counted : Reader.Counted limit groups level opened e counting t r') :
    r'.focus.Placed P := by
  cases counted with
  | digit _ pushed =>
    refine ⟨placed.1, fun n' current => ?_⟩
    rw [Counting.current_withCurrent] at current
    obtain rfl := Option.some.inj current
    rw [Count.start_of_push pushed]
    exact placed.2.start here
  | comma => exact ⟨placed.1, nofun⟩
  | closes => trivial

theorem pushed_placed (waits : c.pending.Placed P) (here : P t)
    (pushed : c.Pushed t c') : c'.opened = c.opened ∧ c'.pending.Placed P := by
  cases pushed with
  | caret | range | dash | word | digit => exact ⟨rfl, trivial⟩
  | literal => exact ⟨rfl, here⟩
  | dashOfLiteral _ first => exact ⟨rfl, by rwa [first] at waits⟩

/-- A step remembers only its token, beside what was remembered before. -/
theorem Focus.Placed.step (placed : r.focus.Placed P) (here : P t)
    (stepped : r.step limit t = .ok r') : r'.focus.Placed P := by
  obtain ⟨groups, level, focus⟩ := r
  cases Reader.stepped_of_step_eq_ok stepped with
  | ready based | factor _ based => exact based_placed here based
  | bounds => exact ⟨⟨t, here, rfl⟩, nofun⟩
  | repeated | closed => trivial
  | counted counted => exact counted_placed placed here counted
  | pushed _ pushed =>
    obtain ⟨opened, waits⟩ := pushed_placed placed.2 here pushed
    exact ⟨opened ▸ placed.1, waits⟩

theorem Focus.Placed.feed (placed : r.focus.Placed P) (here : ∀ t ∈ ts, P t)
    (fed : r.feed limit ts = .ok r') : r'.focus.Placed P := by
  induction ts generalizing r with
  | nil =>
    obtain rfl := Except.ok.inj fed
    exact placed
  | cons t ts ih =>
    obtain ⟨first, here⟩ := List.forall_mem_cons.mp here
    obtain ⟨next, stepped, fed⟩ := Reader.feed_cons_eq_ok.mp fed
    exact ih (placed.step first stepped) here fed

/-- A fault points at one of the tokens, or at the end of the pattern, and shows no others. -/
theorem placed_of_read_eq_error (failed : read limit ts = .error fault) :
    fault.Placed (· ∈ ts) := by
  rcases stop_of_read_eq_error failed with ⟨before, t, after, r, rfl, fed, refuses⟩ |
    ⟨r, -, breaks⟩
  · have start : Focus.Placed (· ∈ before ++ t :: after) Reader.start.focus := trivial
    have placed : r.focus.Placed (· ∈ before ++ t :: after) :=
      start.feed (fun u member => List.mem_append_left _ member) fed
    exact placed_of_refuses refuses placed (List.mem_append_right _ List.mem_cons_self)
  · obtain ⟨place, shown⟩ := placed_of_breaks breaks
    constructor
    · intro position points
      rw [place] at points
      cases points
    · intro t member
      rw [shown] at member
      cases member

/-- A fault points at one of the tokens, or at the end of the pattern. -/
theorem place_of_read_eq_error (failed : read limit ts = .error fault) :
    fault.place = none ∨ ∃ t ∈ ts, fault.place = some t.position := by
  cases place : fault.place with
  | none => exact .inl rfl
  | some position =>
    obtain ⟨t, member, rfl⟩ := (placed_of_read_eq_error failed).place position place
    exact .inr ⟨t, member, rfl⟩

end FullMatch.Grammar
