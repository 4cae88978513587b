import FullMatch.Dfa.Subset
import FullMatch.Proofs.Nfa.Simulation

/-!
# Subset construction under way

What the construction goes through, one character after the other, is said once (`Arises`), and so
is where it has to give up (`Blocked`). What holds all through the construction follows by induction
on its course. First of all (`Progress.Sound`): the numbers and the places of the sets found agree,
there are no more sets than the limit, and every row finished leads, for each character of its set's
alphabet, to the set behind that character. Exploring ends when every set found has its row, since
each round finishes one row and there are never more sets than rounds.
-/

namespace FullMatch.Dfa

variable {limits : Limits} {nfa : Nfa}

/-- Looking up behind an insertion, with equal keys in place of keys that compare as equal. -/
theorem getElem?_insert {α β : Type} [Ord α] [Std.TransOrd α] [Std.LawfulEqOrd α] [DecidableEq α]
    (entries : Std.ExtTreeMap α β) (k a : α) (v : β) :
    (entries.insert k v)[a]? = if k = a then some v else entries[a]? := by
  rw [Std.ExtTreeMap.getElem?_insert]
  simp only [Std.LawfulEqCmp.compare_eq_iff_eq]

/-- Exactly the characters of its alphabet lead from a set to anywhere. -/
theorem mem_alphabet_iff_step {set : StateSet} {c : Char} :
    c ∈ alphabet nfa set ↔ nfa.step set c ≠ ∅ := by
  rw [mem_alphabet, Nfa.step, Ne, Nfa.closure_eq_empty_iff,
    Std.ExtTreeSet.eq_empty_iff_forall_not_mem]
  constructor
  · rintro ⟨q, member, e, edge, label⟩ nothing
    exact nothing e.target (Nfa.mem_moveOn.mpr ⟨q, member, e, edge, label, rfl⟩)
  · intro something
    obtain ⟨_, moved⟩ := not_forall_not.mp something
    obtain ⟨q, member, e, edge, label, -⟩ := Nfa.mem_moveOn.mp moved
    exact ⟨q, member, e, edge, label⟩

namespace Found

variable {found found' : Found} {set : StateSet} {n : Nat}

/-- A set is looked up under the number of its place. -/
def Consistent (found : Found) : Prop :=
  ∀ (set : StateSet) (n : Nat),
    found.numbers[set.toList]? = some n ↔ found.sets[n]? = some set

/-- The sets found have kept their places. -/
def Extends (found found' : Found) : Prop :=
  ∀ (n : Nat) (set : StateSet), found.sets[n]? = some set → found'.sets[n]? = some set

theorem Extends.refl (found : Found) : found.Extends found :=
  fun _ _ place => place

theorem Extends.trans {found'' : Found} (first : found.Extends found')
    (second : found'.Extends found'') : found.Extends found'' :=
  fun n set place => second n set (first n set place)

theorem consistent_empty : empty.Consistent := by
  intro set n
  simp [empty]

/-- No set is found twice. -/
theorem Consistent.place_unique (consistent : found.Consistent) {m : Nat}
    (first : found.sets[m]? = some set) (second : found.sets[n]? = some set) : m = n := by
  rw [← consistent] at first second
  exact Option.some.inj (first.symm.trans second)

/-- Numbering a set finds the number that it has, or gives it the next one if there is room. -/
theorem number_cases (numbered : found.number limits set = .ok (n, found')) :
    found.numbers[set.toList]? = some n ∧ found' = found ∨
      found.numbers[set.toList]? = none ∧ n = found.sets.size ∧ n < limits.states ∧
        found' = ⟨found.sets.push set, found.numbers.insert set.toList n⟩ := by
  rw [number] at numbered
  split at numbered
  · next known =>
    cases numbered
    exact .inl ⟨known, rfl⟩
  · next fresh =>
    dsimp only at numbered
    split at numbered
    · next room =>
      cases numbered
      exact .inr ⟨fresh, rfl, room, rfl⟩
    · cases numbered

/-- The first set gets the number zero. -/
theorem number_empty (numbered : empty.number limits set = .ok (n, found)) : n = 0 := by
  rcases number_cases numbered with ⟨known, _⟩ | ⟨_, last, _⟩
  · simp [empty] at known
  · exact last

/-- Giving the next number to a set that has none keeps numbers and places in agreement. -/
theorem Consistent.push (consistent : found.Consistent)
    (fresh : found.numbers[set.toList]? = none) :
    Consistent ⟨found.sets.push set, found.numbers.insert set.toList found.sets.size⟩ := by
  intro other n
  rw [getElem?_insert, Array.getElem?_push]
  simp only [Std.ExtTreeSet.toList_inj]
  by_cases same : set = other
  · subst same
    have unplaced : found.sets[n]? ≠ some set := by
      rw [Ne, ← consistent, fresh]
      nofun
    rw [if_pos rfl, Option.some.injEq]
    by_cases last : n = found.sets.size
    · rw [if_pos last]
      exact iff_of_true last.symm rfl
    · rw [if_neg last]
      exact iff_of_false (Ne.symm last) unplaced
  · rw [if_neg same]
    by_cases last : n = found.sets.size
    · have unplaced : found.numbers[other.toList]? ≠ some n := by
        rw [Ne, consistent, last]
        simp
      rw [if_pos last, Option.some.injEq]
      exact iff_of_false unplaced same
    · rw [if_neg last]
      exact consistent other n

/-- Numbering a set finds it a place, within the limit, and leaves the other sets in theirs. -/
theorem number_spec (consistent : found.Consistent) (within : found.sets.size ≤ limits.states)
    (numbered : found.number limits set = .ok (n, found')) :
    found'.Consistent ∧ found'.sets.size ≤ limits.states ∧ found.Extends found' ∧
      found'.sets[n]? = some set := by
  rcases number_cases numbered with ⟨known, rfl⟩ | ⟨fresh, rfl, room, rfl⟩
  · exact ⟨consistent, within, .refl found', (consistent set n).mp known⟩
  · refine ⟨consistent.push fresh, ?_, ?_, Array.getElem?_push_size⟩
    · rw [Array.size_push]
      exact room
    · intro m other place
      have bound := (Array.getElem?_eq_some_iff.mp place).1
      rw [Array.getElem?_push, if_neg bound.ne]
      exact place

/-- The sets found before keep their places, and no other set takes them. -/
theorem Extends.getElem?_eq (kept : found.Extends found') (bound : n < found.sets.size) :
    found'.sets[n]? = found.sets[n]? := by
  rw [Array.getElem?_eq_getElem bound]
  exact kept n _ (Array.getElem?_eq_getElem bound)

theorem Extends.size_le (kept : found.Extends found') : found.sets.size ≤ found'.sets.size := by
  by_contra shrunk
  have bound : found'.sets.size < found.sets.size := by omega
  have place := kept found'.sets.size found.sets[found'.sets.size] (Array.getElem?_eq_getElem bound)
  simp at place

end Found

/-- A row leads exactly the characters listed to the sets behind them. -/
structure Leading (nfa : Nfa) (found : Found) (set : StateSet) (chars : List Char) (row : Row) :
    Prop where
  leads : ∀ c ∈ chars, ∃ n, row[c]? = some n ∧ found.sets[n]? = some (nfa.step set c)
  stops : ∀ c, c ∉ chars → row[c]? = none

namespace Leading

variable {found found' : Found} {set : StateSet} {chars : List Char} {row : Row}

theorem empty (nfa : Nfa) (found : Found) (set : StateSet) : Leading nfa found set [] ∅ where
  leads := by simp
  stops := by simp

theorem extend (leading : Leading nfa found set chars row) (kept : found.Extends found') :
    Leading nfa found' set chars row where
  leads := by
    intro c listed
    obtain ⟨n, entry, place⟩ := leading.leads c listed
    exact ⟨n, entry, kept n _ place⟩
  stops := leading.stops

/-- What a row leads on is listed, and leads to the set behind it. -/
theorem of_getElem? {c : Char} {n : Nat} (leading : Leading nfa found set chars row)
    (entry : row[c]? = some n) : c ∈ chars ∧ found.sets[n]? = some (nfa.step set c) := by
  have listed : c ∈ chars := by
    by_contra unlisted
    rw [leading.stops c unlisted] at entry
    cases entry
  obtain ⟨m, entry', place⟩ := leading.leads c listed
  obtain rfl := Option.some.inj (entry.symm.trans entry')
  exact ⟨listed, place⟩

/-- A row that also leads `c` on. -/
theorem insert {c : Char} {n : Nat} (leading : Leading nfa found set chars row)
    (place : found.sets[n]? = some (nfa.step set c)) :
    Leading nfa found set (chars ++ [c]) (row.insert c n) where
  leads := by
    intro d listed
    rw [getElem?_insert]
    by_cases same : c = d
    · subst same
      exact ⟨n, if_pos rfl, place⟩
    · rw [if_neg same]
      have before : d ∈ chars := by
        rcases List.mem_append.mp listed with old | new
        · exact old
        · exact absurd (List.mem_singleton.mp new).symm same
      exact leading.leads d before
  stops := by
    intro d unlisted
    rw [List.mem_append, List.mem_singleton, not_or] at unlisted
    rw [getElem?_insert, if_neg (Ne.symm unlisted.2)]
    exact leading.stops d unlisted.1

end Leading

namespace Progress

/-- What holds all through the construction. -/
structure Sound (limits : Limits) (nfa : Nfa) (progress : Progress) : Prop where
  consistent : progress.found.Consistent
  within : progress.found.sets.size ≤ limits.states
  start : progress.found.sets[0]? = some nfa.initial
  rows_le : progress.rows.size ≤ progress.found.sets.size
  rows_lead : ∀ (i : Nat) (row : Row), progress.rows[i]? = some row →
    ∃ set, progress.found.sets[i]? = some set ∧
      Leading nfa progress.found set (alphabet nfa set).toList row

variable {progress progress' : Progress} {set : StateSet} {row row' : Row}

/-- Numbering one more set leaves the construction sound. -/
theorem Sound.number {found found' : Found} {rows : Array Row} {transitions transitions' n : Nat}
    (sound : Sound limits nfa ⟨found, rows, transitions⟩)
    (numbered : found.number limits set = .ok (n, found')) :
    Sound limits nfa ⟨found', rows, transitions'⟩ := by
  obtain ⟨consistent, within, kept, -⟩ := Found.number_spec sound.consistent sound.within numbered
  refine ⟨consistent, within, kept 0 _ sound.start, sound.rows_le.trans kept.size_le, ?_⟩
  intro i row finished
  obtain ⟨set, place, leading⟩ := sound.rows_lead i row finished
  exact ⟨set, kept i set place, leading.extend kept⟩

/-- The row of the next set is finished. -/
theorem Sound.push (sound : progress.Sound limits nfa)
    (place : progress.found.sets[progress.rows.size]? = some set)
    (leading : Leading nfa progress.found set (alphabet nfa set).toList row) :
    Sound limits nfa ⟨progress.found, progress.rows.push row, progress.transitions⟩ where
  consistent := sound.consistent
  within := sound.within
  start := sound.start
  rows_le := by
    rw [Array.size_push]
    exact (Array.getElem?_eq_some_iff.mp place).1
  rows_lead := by
    intro i other finished
    rw [Array.getElem?_push] at finished
    split at finished
    · next last =>
      cases finished
      rw [last]
      exact ⟨set, place, leading⟩
    · exact sound.rows_lead i other finished

end Progress

variable {progress : Progress} {set : StateSet} {row : Row} {done chars : List Char}

/-- The construction comes to `progress`, while the row under way leads the characters `done`. -/
inductive Arises (limits : Limits) (nfa : Nfa) : Progress → (done : List Char) → Row → Prop where
  /-- The first set has been found. -/
  | start {n found} (numbered : Found.empty.number limits nfa.initial = .ok (n, found)) :
      Arises limits nfa ⟨found, #[], 0⟩ [] ∅
  /-- The row under way leads one more character. -/
  | lead {found found' rows transitions done row set c n}
      (before : Arises limits nfa ⟨found, rows, transitions⟩ done row)
      (place : found.sets[rows.size]? = some set)
      (listed : done ++ [c] <+: (alphabet nfa set).toList)
      (room : transitions < limits.transitions)
      (numbered : found.number limits (nfa.step set c) = .ok (n, found')) :
      Arises limits nfa ⟨found', rows, transitions + 1⟩ (done ++ [c]) (row.insert c n)
  /-- The row under way is finished. -/
  | finish {found rows transitions row set}
      (before : Arises limits nfa ⟨found, rows, transitions⟩ (alphabet nfa set).toList row)
      (place : found.sets[rows.size]? = some set) :
      Arises limits nfa ⟨found, rows.push row, transitions⟩ [] ∅

/-- The construction comes to a point at which it has to be given up. -/
inductive Blocked (limits : Limits) (nfa : Nfa) : Fault → Prop where
  /-- There is no number for the first set. -/
  | start {fault} (failed : Found.empty.number limits nfa.initial = .error fault) :
      Blocked limits nfa fault
  /-- There is no number for the set behind the next character. -/
  | unnumbered {found rows transitions done row set c fault}
      (arises : Arises limits nfa ⟨found, rows, transitions⟩ done row)
      (place : found.sets[rows.size]? = some set)
      (listed : done ++ [c] <+: (alphabet nfa set).toList)
      (failed : found.number limits (nfa.step set c) = .error fault) :
      Blocked limits nfa fault
  /-- The next character would make one transition too many. -/
  | full {found rows transitions done row set c}
      (arises : Arises limits nfa ⟨found, rows, transitions⟩ done row)
      (place : found.sets[rows.size]? = some set)
      (listed : done ++ [c] <+: (alphabet nfa set).toList)
      (crossed : limits.transitions ≤ transitions) :
      Blocked limits nfa (.tooManyTransitions limits.transitions)

/-- All through the construction, the row under way leads the characters before the next one to the
sets behind them. -/
theorem Arises.sound (arises : Arises limits nfa progress done row) :
    progress.Sound limits nfa ∧
      ∀ set, progress.found.sets[progress.rows.size]? = some set →
        Leading nfa progress.found set done row := by
  induction arises with
  | start numbered =>
    obtain ⟨consistent, within, -, place⟩ :=
      Found.number_spec Found.consistent_empty (Nat.zero_le _) numbered
    rw [Found.number_empty numbered] at place
    exact ⟨⟨consistent, within, place, Nat.zero_le _, by simp⟩, fun set _ => .empty nfa _ set⟩
  | lead before place listed room numbered ih =>
    obtain ⟨sound, leading⟩ := ih
    obtain ⟨-, -, kept, behind⟩ := Found.number_spec sound.consistent sound.within numbered
    refine ⟨sound.number numbered, fun set' place' => ?_⟩
    obtain rfl := Option.some.inj ((kept _ _ place).symm.trans place')
    exact ((leading _ place).extend kept).insert behind
  | finish before place ih =>
    obtain ⟨sound, leading⟩ := ih
    exact ⟨sound.push place (leading _ place), fun set _ => .empty nfa _ set⟩

/-- Filling a row takes the construction to where the row can be finished, or it is given up. -/
theorem fillRow_arises (arises : Arises limits nfa progress done row)
    (place : progress.found.sets[progress.rows.size]? = some set)
    (all : done ++ chars = (alphabet nfa set).toList) :
    match fillRow limits nfa set row progress chars with
    | .ok (progress', row') => Arises limits nfa progress' (alphabet nfa set).toList row' ∧
        progress'.rows = progress.rows ∧ progress'.found.sets[progress.rows.size]? = some set
    | .error fault => Blocked limits nfa fault := by
  induction chars generalizing progress row done with
  | nil =>
    rw [fillRow]
    rw [List.append_nil] at all
    exact ⟨all ▸ arises, rfl, place⟩
  | cons c chars ih =>
    obtain ⟨found, rows, transitions⟩ := progress
    rw [List.append_cons] at all
    have listed : done ++ [c] <+: (alphabet nfa set).toList := ⟨chars, all⟩
    rw [fillRow]
    by_cases room : transitions < limits.transitions
    · rw [if_pos room]
      have sound := arises.sound.1
      cases numbered : found.number limits (nfa.step set c) with
      | error fault => exact .unnumbered arises place listed numbered
      | ok result =>
        obtain ⟨n, found'⟩ := result
        obtain ⟨-, -, kept, -⟩ := Found.number_spec sound.consistent sound.within numbered
        exact ih (arises.lead place listed room numbered) (kept _ _ place) all
    · rw [if_neg room]
      exact .full arises place listed (Nat.le_of_not_lt room)

/-- With enough fuel, exploring finishes the row of every set found, or it is given up. -/
theorem explore_arises {fuel : Nat} (arises : Arises limits nfa progress [] ∅)
    (enough : limits.states ≤ progress.rows.size + fuel) :
    match explore limits nfa fuel progress with
    | .ok progress' => Arises limits nfa progress' [] ∅ ∧
        progress'.rows.size = progress'.found.sets.size
    | .error fault => Blocked limits nfa fault := by
  have sound := arises.sound.1
  induction fuel generalizing progress with
  | zero =>
    have within := sound.within
    have rows_le := sound.rows_le
    rw [explore]
    exact ⟨arises, by omega⟩
  | succ fuel ih =>
    rw [explore]
    cases place : progress.found.sets[progress.rows.size]? with
    | none =>
      have rows_ge := Array.getElem?_eq_none_iff.mp place
      exact ⟨arises, Nat.le_antisymm sound.rows_le rows_ge⟩
    | some set =>
      have filling := fillRow_arises arises place (List.nil_append _)
      dsimp only
      cases filled : fillRow limits nfa set ∅ progress (alphabet nfa set).toList with
      | error fault =>
        rw [filled] at filling
        exact filling
      | ok result =>
        obtain ⟨⟨found, rows, transitions⟩, row⟩ := result
        rw [filled] at filling
        dsimp only
        obtain ⟨arises', rows', place'⟩ := filling
        obtain rfl : rows = progress.rows := rows'
        have further := arises'.finish place'
        refine ih further ?_ further.sound.1
        rw [Array.size_push]
        omega

/-- The construction comes to its end with a row for every set found, or it is given up. -/
theorem ofNfa_arises (limits : Limits) (nfa : Nfa) :
    match ofNfa limits nfa with
    | .ok dfa => ∃ progress, Arises limits nfa progress [] ∅ ∧
        progress.rows.size = progress.found.sets.size ∧ dfa = ofProgress nfa progress
    | .error fault => Blocked limits nfa fault := by
  rw [ofNfa]
  cases numbered : Found.empty.number limits nfa.initial with
  | error fault => exact .start numbered
  | ok result =>
    obtain ⟨n, found⟩ := result
    have exploring := explore_arises (.start numbered) (Nat.le_add_left limits.states 0)
    dsimp only
    cases explored : explore limits nfa limits.states ⟨found, #[], 0⟩ with
    | error fault =>
      rw [explored] at exploring
      exact exploring
    | ok progress =>
      rw [explored] at exploring
      exact ⟨progress, exploring.1, exploring.2, rfl⟩

/-- The automaton is that of a construction that has come to its end. -/
theorem ofNfa_spec {dfa : Dfa} (built : ofNfa limits nfa = .ok dfa) :
    ∃ progress, Arises limits nfa progress [] ∅ ∧
      progress.rows.size = progress.found.sets.size ∧ dfa = ofProgress nfa progress := by
  have coming := ofNfa_arises limits nfa
  rwa [built] at coming

theorem blocked_of_ofNfa_eq_error {fault : Fault} (failed : ofNfa limits nfa = .error fault) :
    Blocked limits nfa fault := by
  have coming := ofNfa_arises limits nfa
  rwa [failed] at coming

end FullMatch.Dfa
