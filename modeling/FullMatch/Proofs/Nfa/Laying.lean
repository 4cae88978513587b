import FullMatch.Nfa.Arena
import FullMatch.Proofs.Nfa.Construction

/-!
# Laying blocks out in place

What work on an arena leaves there when no limit stops it. Each step changes one state where it
stands or adds to the end, so an arena is followed as a list of states behind those it began with
(`Arena.grown`). Work that builds a part lays out a block (`Build.Lays`). Whoever takes the part as
an operand then changes nothing but the exit of that block: it does in place what the layout of the
larger block says from the start.
-/

namespace FullMatch.Nfa

namespace Arena

variable {arena : Arena} {states states' : List State} {n m : Nat}

/-- The arena with more states behind its own, and more labelled edges. -/
def grown (arena : Arena) (states : List State) (labels : Nat) : Arena :=
  { arena with
    states := arena.states ++ states.toArray
    transitions := arena.transitions + labels }

theorem grown_grown :
    (arena.grown states n).grown states' m = arena.grown (states ++ states') (n + m) := by
  simp [grown, Nat.add_assoc]

theorem size_grown : (arena.grown states n).states.size = arena.states.size + states.length := by
  simp [grown]

end Arena

namespace Build

section Yields

variable {α β : Type} {arena arena' between : Arena} {f : Build α} {g : α → Build β} {a a' : α}
  {b : β}

/-- Unless a limit stops it, the work makes one arena of another and returns a value. -/
def Yields (f : Build α) (arena arena' : Arena) (a : α) : Prop :=
  ∀ result, f.run arena = .ok result → result = (a, arena')

theorem yields_pure (value : a = a') (same : arena = arena') :
    Yields (pure a) arena arena' a' := by
  subst value same
  intro result done
  exact (Except.ok.inj done).symm

theorem Yields.bind (first : Yields f arena between a) (second : Yields (g a) between arena' b) :
    Yields (f >>= g) arena arena' b := by
  intro result done
  rw [StateT.run_bind] at done
  cases ran : f.run arena with
  | error fault =>
    rw [ran] at done
    cases done
  | ok mid =>
    rw [ran] at done
    obtain rfl := first mid ran
    exact second result done

end Yields

section Steps

variable {arena : Arena} {before after : List State} {s : State} {n q r : Nat}

theorem yields_addState (arena : Arena) (accepting : Bool) :
    Yields (addState accepting) arena (arena.grown [⟨[], ∅, accepting⟩] 0) arena.states.size := by
  intro result done
  change (if _ then _ else _) = _ at done
  split at done
  · cases done
  · rw [← Except.ok.inj done, Arena.grown, Array.push_eq_append]
    rfl

theorem yields_addPair (arena : Arena) :
    Yields addPair arena (arena.grown [.dead, Exit.final.state] 0)
      (arena.states.size, arena.states.size + 1) := by
  refine (yields_addState _ false).bind ((yields_addState _ true).bind (yields_pure ?_ ?_))
  · rw [Arena.size_grown]
    rfl
  · rw [Arena.grown_grown]
    rfl

theorem modify_append_cons {α : Type} (before after : List α) (x : α) (h : α → α) :
    (before ++ x :: after).modify before.length h = before ++ h x :: after := by
  induction before with
  | nil => rfl
  | cons y before ih =>
    rw [List.cons_append, List.length_cons, List.modify_succ_cons, ih, List.cons_append]

/-- A state is changed where it stands. -/
theorem yields_change {h : State → State} (before : List State)
    (place : q = arena.states.size + before.length) :
    Yields (change q h) (arena.grown (before ++ s :: after) n)
      (arena.grown (before ++ h s :: after) n) () := by
  intro result done
  obtain rfl := Except.ok.inj done
  have moved : (arena.states ++ (before ++ s :: after).toArray).modify q h =
      arena.states ++ (before ++ h s :: after).toArray := by
    have behind : q = (arena.states.toList ++ before).length := by simp [place]
    apply Array.toList_inj.mp
    simp only [Array.toList_modify, Array.toList_append, ← List.append_assoc]
    rw [behind, modify_append_cons]
  simp [Arena.grown, moved]

theorem yields_link (before : List State) (place : q = arena.states.size + before.length) :
    Yields (link q r) (arena.grown (before ++ s :: after) n)
      (arena.grown (before ++ { s with silent := s.silent.insert r } :: after) n) () :=
  yields_change before place

theorem yields_linkIf {wanted : Bool} (before : List State)
    (place : q = arena.states.size + before.length) :
    Yields (linkIf wanted q r) (arena.grown (before ++ s :: after) n)
      (arena.grown (before ++
        { s with silent := if wanted then s.silent.insert r else s.silent } :: after) n) () := by
  cases wanted with
  | false => exact yields_pure rfl rfl
  | true => exact yields_link before place

theorem yields_countEdge (arena : Arena) : Yields countEdge arena (arena.grown [] 1) () := by
  intro result done
  change (if _ then _ else _) = _ at done
  split at done
  · cases done
  · rw [← Except.ok.inj done, Arena.grown, Array.append_empty]

theorem yields_addEdge {label : CharSet} (before : List State)
    (place : q = arena.states.size + before.length) :
    Yields (addEdge q label r) (arena.grown (before ++ s :: after) n)
      (arena.grown (before ++ { s with edges := s.edges ++ [⟨label, r⟩] } :: after)
        (n + label.size)) () := by
  have counted (chars : List Char) (n : Nat) :
      Yields (chars.forM fun _ => countEdge) (arena.grown (before ++ s :: after) n)
        (arena.grown (before ++ s :: after) (n + chars.length)) () := by
    induction chars generalizing n with
    | nil => exact yields_pure rfl rfl
    | cons c chars ih =>
      refine (yields_countEdge _).bind ?_
      rw [Arena.grown_grown, List.append_nil, List.length_cons, Nat.add_comm chars.length,
        ← Nat.add_assoc]
      exact ih (n + 1)
  rw [← Std.ExtTreeSet.length_toList]
  exact (counted label.toList n).bind (yields_change before place)

end Steps

section Exits

variable {arena : Arena} {b : Block} {x x' : Exit} {base n q r : Nat} {after : List State}

/-- The exit of a block is changed where it stands. -/
theorem yields_change_exit {h : State → State} (proper : b.Proper) (before after : List State)
    (changed : h x.state = x'.state) (place : q = arena.states.size + before.length + b.exit) :
    Yields (change q h) (arena.grown (before ++ b.states base x ++ after) n)
      (arena.grown (before ++ b.states base x' ++ after) n) () := by
  obtain ⟨front, back, states, exit, -, -⟩ := proper.laid_out base
  have around (s : State) : before ++ (front ++ s :: back) ++ after =
      (before ++ front) ++ s :: (back ++ after) := by simp
  rw [states, states, around, around, ← changed]
  refine yields_change _ ?_
  rw [List.length_append, exit, place, Nat.add_assoc]

theorem yields_link_exit (proper : b.Proper) (before : List State)
    (place : q = arena.states.size + before.length + b.exit) :
    Yields (link q r) (arena.grown (before ++ b.states base x ++ after) n)
      (arena.grown (before ++ b.states base { x with silent := x.silent.insert r } ++ after) n)
      () :=
  yields_change_exit proper before after rfl place

theorem yields_linkIf_exit {wanted : Bool} (proper : b.Proper) (before : List State)
    (place : q = arena.states.size + before.length + b.exit) :
    Yields (linkIf wanted q r) (arena.grown (before ++ b.states base x ++ after) n)
      (arena.grown (before ++ b.states base
        { x with silent := if wanted then x.silent.insert r else x.silent } ++ after) n) () := by
  cases wanted with
  | false => exact yields_pure rfl rfl
  | true => exact yields_link_exit proper before place

theorem yields_demote_exit (proper : b.Proper) (before : List State)
    (place : q = arena.states.size + before.length + b.exit) :
    Yields (demote q) (arena.grown (before ++ b.states base x ++ after) n)
      (arena.grown (before ++ b.states base { x with accepting := false } ++ after) n) () :=
  yields_change_exit proper before after rfl place

theorem yields_change_last {h : State → State} (proper : b.Proper) (before : List State)
    (changed : h x.state = x'.state) (place : q = arena.states.size + before.length + b.exit) :
    Yields (change q h) (arena.grown (before ++ b.states base x) n)
      (arena.grown (before ++ b.states base x') n) () := by
  rw [← List.append_nil (before ++ b.states base x), ← List.append_nil (before ++ b.states base x')]
  exact yields_change_exit proper before [] changed place

theorem yields_link_last (proper : b.Proper) (before : List State)
    (place : q = arena.states.size + before.length + b.exit) :
    Yields (link q r) (arena.grown (before ++ b.states base x) n)
      (arena.grown (before ++ b.states base { x with silent := x.silent.insert r }) n) () :=
  yields_change_last proper before rfl place

theorem yields_demote_last (proper : b.Proper) (before : List State)
    (place : q = arena.states.size + before.length + b.exit) :
    Yields (demote q) (arena.grown (before ++ b.states base x) n)
      (arena.grown (before ++ b.states base { x with accepting := false }) n) () :=
  yields_change_last proper before rfl place

end Exits

section Lays

variable {f g : Build Fragment} {b c : Block} {lengths lengths' : LengthRange}
  {labels labels' : Nat}

/-- Unless a limit stops it, the work lays a block out behind the states of an arena, with an exit
that accepts, and returns its ends and the lengths of its texts. -/
def Lays (f : Build Fragment) (b : Block) (lengths : LengthRange) (labels : Nat) : Prop :=
  ∀ arena, Yields f arena (arena.grown (b.states arena.states.size .final) labels)
    ⟨arena.states.size + b.entry, arena.states.size + b.exit, lengths⟩

/-- The block comes behind whatever is in the arena already. -/
theorem Lays.behind (lays : Lays f b lengths labels) (arena : Arena) (states : List State)
    (n : Nat) :
    Yields f (arena.grown states n)
      (arena.grown (states ++ b.states (arena.states.size + states.length) .final) (n + labels))
      ⟨arena.states.size + states.length + b.entry, arena.states.size + states.length + b.exit,
        lengths⟩ := by
  have laid := lays (arena.grown states n)
  rwa [Arena.grown_grown, Arena.size_grown] at laid

theorem lays_empty : Lays empty .empty (.exactly 0) 0 := by
  intro arena
  refine (yields_addPair arena).bind ?_
  exact (yields_link [] rfl).bind (yields_pure rfl rfl)

theorem lays_symbol (label : CharSet) :
    Lays (symbol label) (.symbol label) (.exactly 1) label.size := by
  intro arena
  refine (yields_addPair arena).bind ?_
  refine (yields_addEdge [] rfl).bind (yields_pure rfl ?_)
  rw [Nat.zero_add]
  rfl

/-- A part joined to another is the two blocks, one behind the other. -/
theorem lays_append (proper : b.Proper) (first : Lays f b lengths labels)
    (second : Lays g c lengths' labels') :
    Lays (do join (← f) (← g)) (b.append c) (lengths.append lengths') (labels + labels') := by
  intro arena
  refine (first arena).bind ?_
  refine (second.behind arena _ _).bind ?_
  rw [proper.length_states]
  refine (yields_link_exit proper [] rfl).bind ?_
  refine (yields_demote_exit proper [] rfl).bind (yields_pure ?_ rfl)
  simp [Block.append, Nat.add_assoc]

end Lays

section Repetition

variable {f : Build Fragment} {b : Block} {op : RepeatOp} {lengths : LengthRange} {labels : Nat}

theorem insert_openings (op : RepeatOp) (b : Block) (base : Nat) :
    (if op.skips then ({base + b.entry} : StateSet).insert (base + b.size + 1)
      else {base + b.entry}) = b.openings op base := by
  rw [Block.openings]
  split
  · refine Std.ExtTreeSet.ext_mem fun q => ?_
    rw [StateSet.mem_insert, StateSet.mem_pair, StateSet.mem_singleton, or_comm]
  · rfl

theorem insert_closings (op : RepeatOp) (b : Block) (base : Nat) :
    (if op.loops then ({base + b.size + 1} : StateSet).insert (base + b.entry)
      else {base + b.size + 1}) = b.closings op base := by
  rw [Block.closings]
  split
  · refine Std.ExtTreeSet.ext_mem fun q => ?_
    rw [StateSet.mem_insert, StateSet.mem_pair, StateSet.mem_singleton]
  · rfl

/-- A part under a postfix repetition is its block with a pair of states behind it. -/
theorem lays_repeated (proper : b.Proper) (lays : Lays f b lengths labels) :
    Lays (repeated op f) (b.repeated op) (lengths.repeated op) labels := by
  intro arena
  have entry (x : Exit) : arena.states.size + b.size =
      arena.states.size + (b.states arena.states.size x).length := by
    rw [proper.length_states]
  refine (lays arena).bind ?_
  refine (yields_addPair _).bind ?_
  rw [Arena.grown_grown, Arena.size_grown, proper.length_states]
  refine (yields_link _ (entry _)).bind ?_
  refine (yields_link_exit proper [] rfl).bind ?_
  refine (yields_demote_exit proper [] rfl).bind ?_
  refine (yields_linkIf _ (entry _)).bind ?_
  refine (yields_linkIf_exit proper [] rfl).bind (yields_pure rfl ?_)
  change _ = arena.grown (b.states _ (.into (b.closings op arena.states.size)) ++
    [.ofSilent (b.openings op arena.states.size), Exit.final.state]) labels
  rw [← insert_openings, ← insert_closings]
  rfl

end Repetition

end Build

end FullMatch.Nfa
