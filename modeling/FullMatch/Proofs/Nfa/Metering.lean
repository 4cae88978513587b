import FullMatch.Proofs.Nfa.Arena

/-!
# What building asks for

Building an expression in an arena asks for states and labelled edges one by one, in the order in
which counting the expression charges for them (`Build.fragment_charged`). So the automaton built in
place is that of the block, and a limit that is crossed is reported by the same fault
(`buildExpr_eq`).
-/

namespace FullMatch.Nfa

namespace Charge

theorem andThen_ok (c : Charge) : c.andThen .ok = c := by
  funext u
  rw [andThen]
  cases c u <;> rfl

theorem times_one (c : Charge) : c.times 1 = c :=
  andThen_ok c

theorem times_andThen_times (c : Charge) (n m : Nat) :
    (c.times n).andThen (c.times m) = c.times (n + m) := by
  funext u
  induction n generalizing u with
  | zero =>
    rw [Nat.zero_add]
    rfl
  | succ n ih =>
    rw [Nat.add_right_comm, times, andThen, times]
    cases c u with
    | ok u' => exact ih u'
    | error fault => rfl

end Charge

namespace Usage

/-- A single state. -/
def state (limits : Limits) : Charge := fun u =>
  if u.states + 1 ≤ limits.states then .ok { u with states := u.states + 1 }
  else .error (.tooManyStates limits.states)

theorem pair_eq (limits : Limits) : pair limits = (state limits).andThen (state limits) := by
  funext u
  rw [pair, Charge.andThen, state]
  by_cases one : u.states + 1 ≤ limits.states
  · simp [state, one, Nat.add_assoc]
  · have two : ¬u.states + 2 ≤ limits.states := by omega
    simp [one, two]

theorem edges_succ (limits : Limits) (n : Nat) :
    edges limits (n + 1) = (edges limits 1).andThen (edges limits n) := by
  funext u
  rw [edges, Charge.andThen, edges]
  by_cases one : u.transitions + 1 ≤ limits.transitions
  · simp [edges, one, Nat.add_assoc, Nat.add_comm 1]
  · have more : ¬u.transitions + (n + 1) ≤ limits.transitions := by omega
    simp [one, more]

end Usage

/-- The states and labelled edges in an arena. -/
def Arena.usage (arena : Arena) : Usage :=
  ⟨arena.states.size, arena.transitions⟩

namespace Build

variable {α β : Type} {limits : Limits} {f : Build α} {g : α → Build β} {c d : Charge}
  {part : Build Fragment}

/-- From within the limits, the work asks for what a charge adds, and stops where the charge
does. -/
def Charged (limits : Limits) (f : Build α) (c : Charge) : Prop :=
  ∀ arena : Arena, arena.limits = limits → arena.usage.Within limits →
    match f.run arena with
    | .ok (_, arena') =>
      c arena.usage = .ok arena'.usage ∧ arena'.limits = limits ∧ arena'.usage.Within limits
    | .error fault => c arena.usage = .error fault

theorem charged_pure (a : α) : Charged limits (pure a) .ok :=
  fun _ kept within => ⟨rfl, kept, within⟩

theorem Charged.bind (first : Charged limits f c) (second : ∀ a, Charged limits (g a) d) :
    Charged limits (f >>= g) (c.andThen d) := by
  intro arena kept within
  have charged := first arena kept within
  rw [StateT.run_bind, Charge.andThen]
  cases ran : f.run arena with
  | error fault =>
    rw [ran] at charged
    rw [charged]
    rfl
  | ok result =>
    rw [ran] at charged
    obtain ⟨asked, kept', within'⟩ := charged
    rw [asked]
    exact second result.1 result.2 kept' within'

/-- Work that asks for nothing may follow. -/
theorem Charged.thenFree (first : Charged limits f c) (second : ∀ a, Charged limits (g a) .ok) :
    Charged limits (f >>= g) c := by
  have charged := first.bind second
  rwa [Charge.andThen_ok] at charged

/-- Work that asks for nothing may come before. -/
theorem Charged.free {f : Build Unit} {g : Unit → Build β} (first : Charged limits f .ok)
    (second : Charged limits (g ()) d) : Charged limits (f >>= g) d :=
  first.bind fun _ => second

section Steps

theorem charged_change (q : Nat) (h : State → State) : Charged limits (change q h) .ok := by
  intro arena kept within
  have same : ({ arena with states := arena.states.modify q h } : Arena).usage = arena.usage := by
    simp [Arena.usage]
  exact ⟨congrArg _ same.symm, kept, same ▸ within⟩

theorem charged_link (p q : Nat) : Charged limits (link p q) .ok :=
  charged_change p _

theorem charged_demote (q : Nat) : Charged limits (demote q) .ok :=
  charged_change q _

theorem charged_linkIf (wanted : Bool) (p q : Nat) : Charged limits (linkIf wanted p q) .ok := by
  cases wanted with
  | false => exact charged_pure ()
  | true => exact charged_link p q

theorem charged_join (left right : Fragment) : Charged limits (join left right) .ok :=
  (charged_link _ _).free ((charged_demote _).free (charged_pure _))

theorem charged_addState (accepting : Bool) :
    Charged limits (addState accepting) (Usage.state limits) := by
  rintro arena rfl ⟨-, transitions⟩
  rw [StateT.run, addState, Usage.state]
  by_cases full : arena.limits.states ≤ arena.states.size
  · have crossed : ¬arena.usage.states + 1 ≤ arena.limits.states :=
      Nat.not_le_of_lt (Nat.lt_succ_of_le full)
    simp only [if_pos full, if_neg crossed]
  · have room : arena.usage.states + 1 ≤ arena.limits.states := Nat.lt_of_not_le full
    simp only [if_neg full, if_pos room]
    refine ⟨?_, trivial, ?_, transitions⟩
    · simp [Arena.usage]
    · simpa [Arena.usage] using room

theorem charged_addPair : Charged limits addPair (Usage.pair limits) := by
  rw [Usage.pair_eq]
  exact (charged_addState false).bind fun _ => (charged_addState true).thenFree fun _ =>
    charged_pure _

theorem charged_countEdge : Charged limits countEdge (Usage.edges limits 1) := by
  rintro arena rfl ⟨states, -⟩
  rw [StateT.run, countEdge, Usage.edges]
  by_cases full : arena.limits.transitions ≤ arena.transitions
  · have crossed : ¬arena.usage.transitions + 1 ≤ arena.limits.transitions :=
      Nat.not_le_of_lt (Nat.lt_succ_of_le full)
    simp only [if_pos full, if_neg crossed]
  · have room : arena.usage.transitions + 1 ≤ arena.limits.transitions := Nat.lt_of_not_le full
    simp only [if_neg full, if_pos room]
    exact ⟨rfl, trivial, states, room⟩

theorem charged_addEdge (p : Nat) (label : CharSet) (q : Nat) :
    Charged limits (addEdge p label q) (Usage.edges limits label.size) := by
  have counted (chars : List Char) :
      Charged limits (chars.forM fun _ => countEdge) (Usage.edges limits chars.length) := by
    induction chars with
    | nil =>
      intro arena kept within
      exact ⟨if_pos within.2, kept, within⟩
    | cons c chars ih =>
      rw [List.length_cons, Usage.edges_succ]
      exact charged_countEdge.bind fun _ => ih
  rw [← Std.ExtTreeSet.length_toList]
  exact (counted label.toList).thenFree fun _ => charged_change p _

end Steps

section Copies

theorem charged_takeCopies (charged : Charged limits part c) (exit : Nat) (mayLeave : Bool)
    (n : Nat) (done : Copies) :
    Charged limits (takeCopies part exit mayLeave n done) (c.times n) := by
  induction n generalizing done with
  | zero => exact charged_pure done
  | succ n ih =>
    have once : Charged limits (takeCopy part done) c := charged.thenFree fun copy =>
      (charged_link _ _).free ((charged_demote _).free (charged_pure _))
    exact (charged_linkIf _ _ _).free (once.bind fun done => ih done)

theorem charged_takeRest (charged : Charged limits part c) (exit : Nat) (bounds : Bounds)
    (needed : Copies) :
    Charged limits (takeRest part exit bounds needed)
      (c.times (bounds.copies - bounds.least)) := by
  rw [takeRest]
  cases bounded : bounds.most with
  | some most =>
    rw [Bounds.copies_of_most_eq_some bounded]
    exact (charged_takeCopies charged exit true _ needed).thenFree fun last =>
      (charged_link _ _).free (charged_pure last)
  | none =>
    rw [Bounds.copies_of_most_eq_none bounded, Nat.add_sub_cancel_left, Charge.times_one]
    exact charged.thenFree fun copy =>
      (charged_link _ _).free ((charged_link _ _).free ((charged_link _ _).free
        ((charged_link _ _).free ((charged_demote _).free (charged_pure _)))))

theorem charged_counted (charged : Charged limits part c) (bounds : Bounds) :
    Charged limits (counted bounds part)
      ((Usage.pair limits).andThen (c.times bounds.copies)) := by
  rw [← Nat.add_sub_cancel' bounds.least_le_copies, ← Charge.times_andThen_times]
  refine charged_addPair.bind fun pair => ?_
  refine (charged_takeCopies charged pair.2 false _ _).bind fun needed => ?_
  exact (charged_takeRest charged pair.2 bounds needed).thenFree fun last => charged_pure _

end Copies

theorem charged_repeated (charged : Charged limits part c) (op : RepeatOp) :
    Charged limits (repeated op part) (c.andThen (Usage.pair limits)) :=
  charged.bind fun _ => charged_addPair.thenFree fun _ =>
    (charged_link _ _).free ((charged_link _ _).free ((charged_demote _).free
      ((charged_linkIf _ _ _).free ((charged_linkIf _ _ _).free (charged_pure _)))))

theorem charged_hangs {es : List Expr}
    (branches : ∀ e ∈ es, Charged limits (fragment e) (charge limits e)) (entry exit : Nat)
    (lengths : LengthRange) :
    Charged limits ((es.map fragment).foldlM (hang entry exit) lengths)
      (.all (es.map (charge limits))) := by
  induction es generalizing lengths with
  | nil => exact charged_pure lengths
  | cons e es ih =>
    have hung : Charged limits (hang entry exit lengths (fragment e)) (charge limits e) :=
      (branches e List.mem_cons_self).thenFree fun _ => (charged_link _ _).free
        ((charged_link _ _).free ((charged_demote _).free (charged_pure _)))
    exact hung.bind fun lengths =>
      ih (fun e' member => branches e' (List.mem_cons_of_mem e member)) lengths

/-- Building an expression asks for what the expression is charged. -/
theorem fragment_charged (limits : Limits) (e : Expr) :
    Charged limits (fragment e) (charge limits e) := by
  induction e using Expr.branchInduction with
  | empty => exact charged_addPair.thenFree fun _ => (charged_link _ _).free (charged_pure _)
  | atom a =>
    exact charged_addPair.bind fun _ => (charged_addEdge _ _ _).thenFree fun _ => charged_pure _
  | concat l r left right =>
    rw [fragment_concat, charge_concat]
    exact left.bind fun left => right.thenFree fun right => charged_join left right
  | alternate l r branches =>
    rw [fragment_alternate, charge_alternate]
    exact charged_addPair.bind fun _ =>
      (charged_hangs branches _ _ _).thenFree fun _ => charged_pure _
  | repeated op e operand => exact charged_repeated operand op
  | counted e b operand => exact charged_counted operand b

end Build

/-- Building in place gives the automaton of the block, or the same fault. -/
theorem buildExpr_eq (limits : Limits) (e : Expr) : buildExpr limits e = ofExpr limits e := by
  have charged := Build.fragment_charged limits e (.empty limits) rfl
    ⟨Nat.zero_le _, Nat.zero_le _⟩
  rw [buildExpr, ofExpr]
  cases ran : (Build.fragment e).run (.empty limits) with
  | error fault =>
    rw [ran] at charged
    have refused : charge limits e .zero = .error fault := charged
    rw [refused]
  | ok result =>
    rw [ran] at charged
    have accepted : charge limits e .zero = .ok result.2.usage := charged.1
    rw [accepted, Build.fragment_lays e _ result ran]
    simp [Arena.grown, Arena.empty, ofBlock]

end FullMatch.Nfa
