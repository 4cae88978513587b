import FullMatch.Proofs.Dfa.Limit
import FullMatch.Proofs.Dfa.Simulation
import Mathlib.Data.List.Shortlex

/-!
# The order of the states

Sets are explored by number, and the characters that lead on from a set in ascending order. So when
a set is found, all that has been explored before leads to sets found before (`Discovers`). The text
along the transitions that find a state (`Access`) is therefore the least one that leads there, with
shorter texts before longer ones and texts of one length in the order of their characters; and the
states are numbered in the order of these texts (`ofNfa_shortlex`).
-/

namespace FullMatch.Dfa

variable {limits : Limits} {nfa : Nfa} {dfa : Dfa}

/-- Whether `c` from `p` is explored before `c'` from `p'`. -/
def Earlier (p : Nat) (c : Char) (p' : Nat) (c' : Char) : Prop :=
  p < p' ∨ p = p' ∧ c < c'

theorem Earlier.asymm {p p' : Nat} {c c' : Char} (earlier : Earlier p c p' c') :
    ¬Earlier p' c' p c := by
  rintro (less' | ⟨rfl, less'⟩)
  · rcases earlier with less | ⟨rfl, -⟩
    · exact Nat.lt_asymm less less'
    · exact Nat.lt_irrefl _ less'
  · rcases earlier with less | ⟨-, less⟩
    · exact Nat.lt_irrefl _ less
    · exact Char.lt_asymm less less'

/-- Whether `c` from `p` is what finds `q`: all that is explored earlier leads to states
before `q`. -/
structure Discovers (next : Nat → Char → Option Nat) (p : Nat) (c : Char) (q : Nat) : Prop where
  lt : p < q
  leads : next p c = some q
  earlier : ∀ {p' c' q'}, next p' c' = some q' → Earlier p' c' p c → q' < q

section Construction

variable {progress : Progress} {rows : Array Row} {row : Row} {set : StateSet}
  {done : List Char} {c d : Char} {n p q : Nat}

/-- Where `c` leads from `p`, as the rows finished and the row under way have it. -/
def entry (rows : Array Row) (row : Row) (p : Nat) (c : Char) : Option Nat :=
  (rows.push row)[p]?.bind fun row => row[c]?

theorem entry_eq_some_iff : entry rows row p c = some q ↔
    (∃ finished, rows[p]? = some finished ∧ finished[c]? = some q) ∨
      p = rows.size ∧ row[c]? = some q := by
  rw [entry, Array.getElem?_push]
  by_cases last : p = rows.size
  · simp [last]
  · simp [last, Option.bind_eq_some_iff]

/-- The row under way leads one more character. -/
theorem entry_insert (unled : row[c]? = none) :
    entry rows (row.insert c n) p d = some q ↔
      entry rows row p d = some q ∨ p = rows.size ∧ d = c ∧ q = n := by
  rw [entry_eq_some_iff, entry_eq_some_iff, getElem?_insert, or_assoc]
  refine or_congr_right ?_
  by_cases same : c = d
  · subst same
    simp [unled, eq_comm]
  · simp [same, Ne.symm same]

/-- Finishing the row under way leads nothing on. -/
theorem entry_push : entry (rows.push row) ∅ = entry rows row := by
  funext p c
  refine Option.ext fun q => ?_
  rw [entry_eq_some_iff, entry, Option.bind_eq_some_iff]
  simp

/-- What finds a set still does when one more character is led on. -/
theorem Discovers.insert (discovers : Discovers (entry rows row) p d q) (unled : row[c]? = none)
    (before : Earlier p d rows.size c) : Discovers (entry rows (row.insert c n)) p d q where
  lt := discovers.lt
  leads := (entry_insert unled).mpr (.inl discovers.leads)
  earlier leads earlier := by
    rcases (entry_insert unled).mp leads with leads | ⟨rfl, rfl, -⟩
    · exact discovers.earlier leads earlier
    · exact absurd earlier before.asymm

/-- A set that gets its number behind the next character is found by it. -/
theorem Discovers.next (unled : row[c]? = none) (lt : rows.size < n)
    (known : ∀ {p d q}, entry rows row p d = some q → q < n) :
    Discovers (entry rows (row.insert c n)) rows.size c n where
  lt := lt
  leads := (entry_insert unled).mpr (.inr ⟨rfl, rfl, rfl⟩)
  earlier leads earlier := by
    rcases (entry_insert unled).mp leads with leads | ⟨rfl, rfl, -⟩
    · exact known leads
    · exact absurd earlier earlier.asymm

/-- All that has been led on leads to sets found, and it has been explored before the next
character. -/
theorem Arises.of_entry (arises : Arises limits nfa progress done row)
    (place : progress.found.sets[progress.rows.size]? = some set)
    (listed : done ++ [c] <+: (alphabet nfa set).toList)
    (leads : entry progress.rows row p d = some q) :
    q < progress.found.sets.size ∧ Earlier p d progress.rows.size c := by
  obtain ⟨sound, leading⟩ := arises.sound
  rcases entry_eq_some_iff.mp leads with ⟨row', finished, leads⟩ | ⟨last, leads⟩
  · obtain ⟨set', -, leading'⟩ := sound.rows_lead p row' finished
    have behind := (leading'.of_getElem? leads).2
    exact ⟨(Array.getElem?_eq_some_iff.mp behind).1,
      .inl (Array.getElem?_eq_some_iff.mp finished).1⟩
  · obtain ⟨earlier, behind⟩ := (leading set place).of_getElem? leads
    exact ⟨(Array.getElem?_eq_some_iff.mp behind).1, .inr ⟨last, lt_of_listed listed earlier⟩⟩

/-- All through the construction, every set but the first has been found by what leads to it. -/
theorem Arises.discovers (arises : Arises limits nfa progress done row) (later : 0 < q)
    (known : q < progress.found.sets.size) :
    ∃ p c, Discovers (entry progress.rows row) p c q := by
  induction arises generalizing q with
  | start numbered =>
    rcases Found.number_cases numbered with ⟨nothing, -⟩ | ⟨-, -, -, rfl⟩
    · simp [Found.empty] at nothing
    · rw [Array.size_push] at known
      exact absurd known (Nat.not_lt.mpr later)
  | @lead found found' rows transitions done row set c n before place listed room numbered ih =>
    have unled := before.unled place listed
    by_cases old : q < found.sets.size
    · obtain ⟨p, d, discovers⟩ := ih later old
      have explored := (before.of_entry place listed discovers.leads).2
      exact ⟨p, d, discovers.insert unled explored⟩
    · rcases Found.number_cases numbered with ⟨-, rfl⟩ | ⟨-, rfl, -, rfl⟩
      · exact absurd known old
      · rw [Array.size_push] at known
        obtain rfl : q = found.sets.size :=
          Nat.le_antisymm (Nat.le_of_lt_succ known) (Nat.not_lt.mp old)
        have bound := (Array.getElem?_eq_some_iff.mp place).1
        exact ⟨rows.size, c, .next unled bound fun leads => (before.of_entry place listed leads).1⟩
  | finish before place ih =>
    rw [entry_push]
    exact ih later known

theorem next_ofProgress (finished : progress.rows.size = progress.found.sets.size) :
    (ofProgress nfa progress).next = entry progress.rows ∅ := by
  funext p c
  refine Option.ext fun q => ?_
  rw [entry_eq_some_iff, next, Option.bind_eq_some_iff]
  simp only [states_ofProgress]
  constructor
  · rintro ⟨-, ⟨set, row, -, present, rfl⟩, leads⟩
    exact .inl ⟨row, present, leads⟩
  · rintro (⟨row, present, leads⟩ | ⟨-, leads⟩)
    · have bound := (Array.getElem?_eq_some_iff.mp present).1
      rw [finished] at bound
      exact ⟨_, ⟨_, row, Array.getElem?_eq_getElem bound, present, rfl⟩, leads⟩
    · simp at leads

end Construction

section Text

variable {text other : List Char}

/-- The last character of a text is one more step. -/
theorem walk_concat (dfa : Dfa) (q : Nat) (text : List Char) (c : Char) :
    dfa.walk q (text ++ [c]) = (dfa.walk q text).bind (dfa.next · c) := by
  induction text generalizing q with
  | nil =>
    rw [List.nil_append, walk]
    cases step : dfa.next q c <;> simp [walk, step]
  | cons d text ih =>
    rw [List.cons_append, walk, walk]
    cases dfa.next q d with
    | none => rfl
    | some r => exact ih r

/-- Texts that are in order stay so, whatever is added to each of them. -/
theorem shortlex_concat (c d : Char) (before : List.Shortlex (· < ·) text other) :
    List.Shortlex (· < ·) (text ++ [c]) (other ++ [d]) := by
  rcases List.shortlex_def.mp before with shorter | ⟨same, less⟩
  · exact .of_length_lt (by simpa using shorter)
  · refine .of_lex (by simpa using same) ?_
    clear before
    induction less with
    | nil => cases same
    | cons _ ih => exact .cons (ih (Nat.succ.inj same))
    | rel less => exact .rel less

end Text

/-- The text along the transitions that find the states, from the first one on. -/
inductive Access (dfa : Dfa) : Nat → List Char → Prop where
  | start : dfa.Access 0 []
  | step {p text c q} (before : dfa.Access p text) (discovers : Discovers dfa.next p c q) :
      dfa.Access q (text ++ [c])

/-- Whether `text` leads to `q`, and is the least text that does: shorter texts are less than longer
ones, and texts of one length are compared by code points. -/
def LeastAccess (dfa : Dfa) (q : Nat) (text : List Char) : Prop :=
  dfa.walk dfa.start text = some q ∧
    ∀ other, dfa.walk dfa.start other = some q → other = text ∨ List.Shortlex (· < ·) text other

/-- There is only one least text that leads to a state. -/
theorem LeastAccess.unique {q : Nat} {text text' : List Char} (least : dfa.LeastAccess q text)
    (least' : dfa.LeastAccess q text') : text = text' := by
  rcases least.2 text' least'.1 with same | less
  · exact same.symm
  · rcases least'.2 text least.1 with same | less'
    · exact same
    · exact absurd less' (Std.Asymm.asymm _ _ less)

namespace Access

variable {p q r : Nat} {text other first rest : List Char}

theorem walk_eq (access : dfa.Access q text) : dfa.walk 0 text = some q := by
  induction access with
  | start => rfl
  | step before discovers ih =>
    rw [walk_concat, ih]
    exact discovers.leads

/-- A state on the way to another one is not after it. -/
theorem le_of_walk (access : dfa.Access q (first ++ rest)) (walked : dfa.walk 0 first = some p) :
    p ≤ q := by
  generalize whole : first ++ rest = text at access
  induction access generalizing rest with
  | start =>
    obtain ⟨rfl, rfl⟩ := List.append_eq_nil_iff.mp whole
    exact (Option.some.inj walked).ge
  | step before discovers ih =>
    induction rest using List.reverseRecOn with
    | nil =>
      rw [List.append_nil] at whole
      rw [whole, (before.step discovers).walk_eq] at walked
      exact (Option.some.inj walked).ge
    | append_singleton rest d =>
      rw [← List.append_assoc] at whole
      exact (ih (List.append_inj_left' whole rfl)).trans discovers.lt.le

/-- No text that leads to `q`, or to a state after it, is less than the one along the transitions
that find `q`. -/
theorem least (access : dfa.Access q text) (walked : dfa.walk 0 other = some r) (le : q ≤ r) :
    other = text ∨ List.Shortlex (· < ·) text other := by
  -- The last step of the other text is not explored before what finds `q`, so it is not made from a
  -- state before the one that `q` is found from.
  induction other using List.reverseRecOn generalizing q r text with
  | nil =>
    obtain rfl := Option.some.inj walked
    cases access with
    | start => exact .inl rfl
    | step _ discovers => exact absurd (discovers.lt.trans_le le) (Nat.not_lt_zero _)
  | append_singleton other c ih =>
    rw [walk_concat, Option.bind_eq_some_iff] at walked
    obtain ⟨p', walked, leads⟩ := walked
    cases access with
    | start => exact .inr (.of_length_lt (by simp))
    | @step p text d q access discovers =>
      have order : ¬Earlier p' c p d := fun earlier =>
        absurd (discovers.earlier leads earlier) (Nat.not_lt.mpr le)
      rw [Earlier, not_or, not_lt] at order
      rcases ih access walked order.1 with rfl | less
      · obtain rfl := Option.some.inj (walked.symm.trans access.walk_eq)
        have compared : c < d ∨ c = d ∨ d < c := Std.Trichotomous.rel_or_eq_or_rel_swap
        rcases compared with less | rfl | less
        · exact absurd ⟨rfl, less⟩ order.2
        · exact .inl rfl
        · exact .inr (.append_left ((List.shortlex_singleton_iff _ _).mpr less) _)
      · exact .inr (shortlex_concat d c less)

end Access

section Built

variable {q : Nat} {text : List Char}

/-- Every state but the first is found by what leads to it. -/
theorem discovers_of_ofNfa (built : ofNfa limits nfa = .ok dfa) (later : 0 < q)
    (present : q < dfa.states.size) : ∃ p c, Discovers dfa.next p c q := by
  obtain ⟨progress, arises, finished, rfl⟩ := ofNfa_spec built
  rw [next_ofProgress finished]
  refine arises.discovers later ?_
  simpa [ofProgress, finished] using present

theorem access_of_ofNfa (built : ofNfa limits nfa = .ok dfa) (present : q < dfa.states.size) :
    ∃ text, dfa.Access q text := by
  induction q using Nat.strongRecOn with
  | ind q ih =>
    rcases Nat.eq_zero_or_pos q with rfl | later
    · exact ⟨[], .start⟩
    · obtain ⟨p, c, discovers⟩ := discovers_of_ofNfa built later present
      obtain ⟨text, access⟩ := ih p discovers.lt (discovers.lt.trans present)
      exact ⟨text ++ [c], access.step discovers⟩

theorem start_ofNfa (built : ofNfa limits nfa = .ok dfa) : dfa.start = 0 := by
  obtain ⟨progress, -, -, rfl⟩ := ofNfa_spec built
  rfl

/-- Texts lead to states that exist. -/
theorem lt_size_of_walk (built : ofNfa limits nfa = .ok dfa)
    (walked : dfa.walk dfa.start text = some q) : q < dfa.states.size := by
  obtain ⟨-, s, present, -⟩ := (simulates_ofNfa built).of_walk walked
  exact (Array.getElem?_eq_some_iff.mp present).1

/-- The text along the transitions that find a state is the least one that leads there. -/
theorem leastAccess_of_access (built : ofNfa limits nfa = .ok dfa) (access : dfa.Access q text) :
    dfa.LeastAccess q text := by
  rw [LeastAccess, start_ofNfa built]
  exact ⟨access.walk_eq, fun other walked => access.least walked (Nat.le_refl q)⟩

theorem access_of_leastAccess (built : ofNfa limits nfa = .ok dfa)
    (least : dfa.LeastAccess q text) : dfa.Access q text := by
  obtain ⟨text', access⟩ := access_of_ofNfa built (lt_size_of_walk built least.1)
  rw [least.unique (leastAccess_of_access built access)]
  exact access

end Built

/-- The first state is where an automaton starts. Some text leads to each state, and so does a least
one; and the states are numbered in the order of their least texts. No state on the way along such a
text comes after the state at its end. -/
theorem ofNfa_shortlex (built : ofNfa limits nfa = .ok dfa) :
    dfa.start = 0 ∧
    (∀ q < dfa.states.size, ∃ text, dfa.LeastAccess q text) ∧
    (∀ q r text other, q < r → dfa.LeastAccess q text → dfa.LeastAccess r other →
      List.Shortlex (· < ·) text other) ∧
    ∀ p q first rest, dfa.LeastAccess q (first ++ rest) → dfa.walk dfa.start first = some p →
      p ≤ q := by
  have start := start_ofNfa built
  refine ⟨start, ?_, ?_, ?_⟩
  · intro q present
    obtain ⟨text, access⟩ := access_of_ofNfa built present
    exact ⟨text, leastAccess_of_access built access⟩
  · intro q r text other before least least'
    have access := access_of_leastAccess built least
    have access' := access_of_leastAccess built least'
    rcases access.least access'.walk_eq before.le with rfl | less
    · obtain rfl := Option.some.inj (access.walk_eq.symm.trans access'.walk_eq)
      exact absurd before (Nat.lt_irrefl q)
    · exact less
  · intro p q first rest least walked
    rw [start] at walked
    exact (access_of_leastAccess built least).le_of_walk walked

/-- In the automaton of `ab|b`, whose states are numbered as `a`, `b` and `ab` lead to them, the
state behind `b` comes before the one behind `ab`, and so does its least text. -/
theorem ofNfa_shortlex_of_choice :
    ∃ dfa, ofNfa ⟨4, 3⟩ (Nfa.ofBlock
        (.alternate (.concat (.literal 'a') (.literal 'b')) (.literal 'b'))) = .ok dfa ∧
      dfa.walk dfa.start ['b'] = some 2 ∧ dfa.walk dfa.start ['a', 'b'] = some 3 ∧
      ∃ text other, dfa.LeastAccess 2 text ∧ dfa.LeastAccess 3 other ∧
        List.Shortlex (· < ·) text other := by
  have ending : (ofNfa ⟨4, 3⟩ (Nfa.ofBlock
      (.alternate (.concat (.literal 'a') (.literal 'b')) (.literal 'b')))).map
        (fun dfa => (dfa.states.size, dfa.walk dfa.start ['b'], dfa.walk dfa.start ['a', 'b'])) =
      .ok (4, some 2, some 3) := by decide +kernel
  cases built : ofNfa ⟨4, 3⟩ (Nfa.ofBlock
      (.alternate (.concat (.literal 'a') (.literal 'b')) (.literal 'b'))) with
  | error fault =>
    rw [built] at ending
    cases ending
  | ok dfa =>
    rw [built] at ending
    simp only [Except.map, Except.ok.injEq, Prod.mk.injEq] at ending
    obtain ⟨size, second, third⟩ := ending
    obtain ⟨-, least, ascending, -⟩ := ofNfa_shortlex built
    obtain ⟨text, text_least⟩ := least 2 (by omega)
    obtain ⟨other, other_least⟩ := least 3 (by omega)
    exact ⟨dfa, rfl, second, third, text, other, text_least, other_least,
      ascending 2 3 text other (by decide) text_least other_least⟩

end FullMatch.Dfa
