import FullMatch.Expr.Language
import FullMatch.Proofs.Nfa.Construction
import FullMatch.Proofs.Nfa.Simulation

/-!
# Blocks recognize their expressions

A block recognizes a language if every text of the language leads from its entry to its exit, and if
no path that begins at the entry gets out of the block but through the exit, behind a text of the
language (`Block.Recognizes`). Every way to build a block does to the languages of its parts what
the expression says, so the block of an expression recognizes what the expression denotes
(`block_recognizes`), and its automaton accepts exactly that (`accepts_iff_denotes`).
-/

namespace FullMatch.Nfa

variable {nfa : Nfa}

/-- A path of at most `n` edges goes on from `exit`, behind a text of the language. -/
def Through (nfa : Nfa) (language : List Char → Prop) (exit q n : Nat) (text : List Char) : Prop :=
  ∃ m first rest, m ≤ n ∧ text = first ++ rest ∧ language first ∧ nfa.Path m exit rest q

namespace Through

variable {language language' : List Char → Prop} {exit exit' q n n' : Nat} {text : List Char}

/-- A path goes on from where it is, behind the empty text. -/
theorem here (path : nfa.Path n exit text q) : nfa.Through (· = []) exit q n text :=
  ⟨n, [], text, Nat.le_refl n, rfl, rfl, path⟩

theorem weaken (through : nfa.Through language exit q n text) (longer : n ≤ n')
    (larger : ∀ first, language first → language' first) :
    nfa.Through language' exit q n' text := by
  obtain ⟨m, first, rest, shorter, split, member, path⟩ := through
  exact ⟨m, first, rest, shorter.trans longer, split, larger first member, path⟩

/-- Getting through two exits in turn. -/
theorem trans (through : nfa.Through language exit q n text)
    (further : ∀ m rest, m ≤ n → nfa.Path m exit rest q →
      nfa.Through language' exit' q m rest) :
    nfa.Through
      (fun text => ∃ first rest, text = first ++ rest ∧ language first ∧ language' rest)
      exit' q n text := by
  obtain ⟨m, first, rest, shorter, rfl, member, path⟩ := through
  obtain ⟨m', first', rest', shorter', rfl, member', path'⟩ := further m rest shorter path
  refine ⟨m', first ++ first', rest', shorter'.trans shorter, ?_, ?_, path'⟩
  · rw [List.append_assoc]
  · exact ⟨first, first', rfl, member, member'⟩

end Through

namespace Block

/-- Whether a state is none of the block's, or its exit. -/
def Outside (b : Block) (base q : Nat) : Prop :=
  q < base ∨ base + b.size ≤ q ∨ q = base + b.exit

/-- The block leads from entry to exit with the texts of a language, and with no others. -/
structure Recognizes (b : Block) (language : List Char → Prop) : Prop where
  complete : ∀ {nfa : Nfa} {base x text}, nfa.Stands base (b.states base x) → language text →
    nfa.Leads (base + b.entry) text (base + b.exit)
  sound : ∀ {nfa : Nfa} {base x n text q}, nfa.Stands base (b.states base x) →
    b.Outside base q → nfa.Path n (base + b.entry) text q →
      nfa.Through language (base + b.exit) q n text

theorem recognizes_empty : empty.Recognizes (· = []) where
  complete := by
    rintro nfa base x text stands rfl
    have entry : nfa.state (base + empty.entry) = .ofSilent {base + 1} := stands.head
    have edge : base + 1 ∈ (nfa.state (base + empty.entry)).silent := by
      rw [entry]
      exact StateSet.mem_singleton.mpr rfl
    exact .silent edge (.refl nfa (base + 1))
  sound := by
    intro nfa base x n text q stands outside path
    have entry : nfa.state (base + empty.entry) = .ofSilent {base + 1} := stands.head
    have leaves : base + empty.entry ≠ q := by
      simp only [Outside, empty] at outside ⊢
      omega
    obtain ⟨m, r, rfl, edge, rest⟩ := path.through_silent (by rw [entry]; rfl) leaves
    rw [entry] at edge
    obtain rfl := StateSet.mem_singleton.mp edge
    exact (Through.here rest).weaken (Nat.le_succ m) fun _ nothing => nothing

theorem recognizes_symbol (label : CharSet) :
    (symbol label).Recognizes fun text => ∃ c ∈ label, text = [c] where
  complete := by
    rintro nfa base x text stands ⟨c, member, rfl⟩
    have entry : nfa.state (base + (symbol label).entry) = .ofEdge label (base + 1) := stands.head
    have edge : ⟨label, base + 1⟩ ∈ (nfa.state (base + (symbol label).entry)).edges := by
      rw [entry]
      exact List.mem_singleton.mpr rfl
    exact .read edge member (.refl nfa (base + 1))
  sound := by
    intro nfa base x n text q stands outside path
    have entry : nfa.state (base + (symbol label).entry) = .ofEdge label (base + 1) := stands.head
    cases path with
    | refl =>
      simp only [Outside, symbol] at outside
      omega
    | silent edge rest =>
      rw [entry] at edge
      exact absurd edge Std.ExtTreeSet.not_mem_empty
    | read edge member rest =>
      rw [entry] at edge
      obtain rfl := List.mem_singleton.mp edge
      exact ⟨_, [_], _, Nat.le_succ _, rfl, ⟨_, member, rfl⟩, rest⟩

/-- Of two blocks one after the other, the exit of the first leads to the entry of the second. -/
theorem append_stands {a b : Block} {base : Nat} {x : Exit} (proper : a.Proper)
    (stands : nfa.Stands base ((a.append b).states base x)) :
    nfa.Stands base (a.states base (.into {base + a.size + b.entry})) ∧
      nfa.Stands (base + a.size) (b.states (base + a.size) x) ∧
        nfa.state (base + a.exit) = .ofSilent {base + a.size + b.entry} := by
  have standsA : nfa.Stands base (a.states base (.into {base + a.size + b.entry})) := stands.left
  have standsB := stands.right
  rw [proper.length_states] at standsB
  exact ⟨standsA, standsB, proper.state_exit standsA⟩

theorem recognizes_append {a b : Block} {first second : List Char → Prop} (proper : a.Proper)
    (left : a.Recognizes first) (right : b.Recognizes second) :
    (a.append b).Recognizes fun text =>
      ∃ begin rest, text = begin ++ rest ∧ first begin ∧ second rest where
  complete := by
    rintro nfa base x text stands ⟨begin, rest, rfl, inFirst, inSecond⟩
    obtain ⟨standsA, standsB, link⟩ := append_stands proper stands
    have edge : base + a.size + b.entry ∈ (nfa.state (base + a.exit)).silent := by
      rw [link]
      exact StateSet.mem_singleton.mpr rfl
    have leads := (left.complete standsA inFirst).trans
      (.silent edge (right.complete standsB inSecond))
    rwa [Nat.add_assoc] at leads
  sound := by
    intro nfa base x n text q stands outside path
    obtain ⟨standsA, standsB, link⟩ := append_stands proper stands
    have exitA := proper.exit_lt
    have outsideA : a.Outside base q := by
      simp only [Outside, append] at outside ⊢
      omega
    have outsideB : b.Outside (base + a.size) q := by
      simp only [Outside, append] at outside ⊢
      omega
    have leaves : base + a.exit ≠ q := by
      simp only [Outside, append] at outside
      omega
    show nfa.Through _ (base + (a.size + b.exit)) q n text
    rw [← Nat.add_assoc]
    refine (left.sound standsA outsideA path).trans ?_
    intro m rest _ path'
    obtain ⟨m', r, rfl, edge, path''⟩ := path'.through_silent (by rw [link]; rfl) leaves
    rw [link] at edge
    obtain rfl := StateSet.mem_singleton.mp edge
    exact (right.sound standsB outsideB path'').weaken (Nat.le_succ m') fun _ member => member

section Fork

variable {es : List Expr} {base : Nat} {x : Exit} {text : List Char}

/-- Side by side, every branch leads from one of the entries to an exit. -/
theorem leads_sideBySide (proper : ∀ e ∈ es, (block e).Proper)
    (branches : ∀ e ∈ es, (block e).Recognizes e.Denotes)
    (stands : nfa.Stands base (sideBySide x base (es.map block)))
    (denoted : ∃ e ∈ es, e.Denotes text) :
    ∃ entry ∈ entriesFrom base (es.map block), ∃ exit,
      nfa.state exit = x.state ∧ nfa.Leads entry text exit := by
  induction es generalizing base with
  | nil => simp at denoted
  | cons e es ih =>
    have here : nfa.Stands base ((block e).states base x) := stands.left
    have later := stands.right
    rw [(proper e List.mem_cons_self).length_states] at later
    obtain ⟨e', member, denotes⟩ := denoted
    rcases List.mem_cons.mp member with rfl | other
    · refine ⟨_, List.mem_cons_self, _, (proper e' List.mem_cons_self).state_exit here, ?_⟩
      exact (branches e' List.mem_cons_self).complete here denotes
    · obtain ⟨entry, listed, rest⟩ := ih (fun f known => proper f (List.mem_cons_of_mem e known))
        (fun f known => branches f (List.mem_cons_of_mem e known)) later ⟨e', other, denotes⟩
      exact ⟨entry, List.mem_cons_of_mem _ listed, rest⟩

/-- Side by side, a path that gets out gets through an exit, behind a text of a branch. -/
theorem through_sideBySide (proper : ∀ e ∈ es, (block e).Proper)
    (branches : ∀ e ∈ es, (block e).Recognizes e.Denotes)
    (stands : nfa.Stands base (sideBySide x base (es.map block))) {entry q n : Nat}
    (listed : entry ∈ entriesFrom base (es.map block))
    (outside : q < base ∨ base + totalSize (es.map block) ≤ q) (path : nfa.Path n entry text q) :
    ∃ exit, exit ≠ q ∧ nfa.state exit = x.state ∧
      nfa.Through (fun text => ∃ e ∈ es, e.Denotes text) exit q n text := by
  induction es generalizing base with
  | nil => exact absurd listed List.not_mem_nil
  | cons e es ih =>
    have properE := proper e List.mem_cons_self
    have here : nfa.Stands base ((block e).states base x) := stands.left
    have later := stands.right
    rw [properE.length_states] at later
    rw [List.map_cons, totalSize_cons] at outside
    rcases List.mem_cons.mp listed with rfl | other
    · have exit := properE.exit_lt
      refine ⟨base + (block e).exit, by omega, properE.state_exit here, ?_⟩
      have outsideE : (block e).Outside base q := by
        simp only [Outside]
        omega
      have through := (branches e List.mem_cons_self).sound here outsideE path
      exact through.weaken (Nat.le_refl n) fun _ denotes => ⟨e, List.mem_cons_self, denotes⟩
    · obtain ⟨exit, inner, state, through⟩ :=
        ih (fun f known => proper f (List.mem_cons_of_mem e known))
          (fun f known => branches f (List.mem_cons_of_mem e known)) later other (by omega)
      refine ⟨exit, inner, state, through.weaken (Nat.le_refl n) ?_⟩
      rintro _ ⟨f, known, denotes⟩
      exact ⟨f, List.mem_cons_of_mem e known, denotes⟩

theorem recognizes_fork (proper : ∀ e ∈ es, (block e).Proper)
    (branches : ∀ e ∈ es, (block e).Recognizes e.Denotes) :
    (fork (es.map block)).Recognizes fun text => ∃ e ∈ es, e.Denotes text where
  complete := by
    intro nfa base x text stands denoted
    rw [fork_states] at stands
    obtain ⟨entry, listed, exit, exits, leads⟩ :=
      leads_sideBySide proper branches stands.tail.tail denoted
    have enter : entry ∈ (nfa.state base).silent := by
      rw [stands.head]
      exact mem_branches.mpr listed
    have leave : base + 1 ∈ (nfa.state exit).silent := by
      rw [exits]
      exact StateSet.mem_singleton.mpr rfl
    have whole := Leads.silent enter (leads.trans (.silent leave (.refl nfa (base + 1))))
    rwa [List.append_nil] at whole
  sound := by
    intro nfa base x n text q stands outside path
    rw [fork_states] at stands
    have bounds : q < base ∨ q = base + 1 ∨ base + 2 + totalSize (es.map block) ≤ q := by
      simp only [Outside, fork] at outside
      omega
    obtain ⟨m, entry, rfl, edge, path⟩ :=
      path.through_silent (by simp only [fork, Nat.add_zero]; rw [stands.head]; rfl)
        (by simp only [fork]; omega)
    simp only [fork, Nat.add_zero] at edge
    rw [stands.head] at edge
    obtain ⟨exit, leaves, exits, through⟩ := through_sideBySide proper branches stands.tail.tail
      (mem_branches.mp edge) (by omega) path
    obtain ⟨k, first, rest, shorter, rfl, denotes, path⟩ := through
    obtain ⟨k', r, rfl, edge, path⟩ := path.through_silent (by rw [exits]; rfl) leaves
    rw [exits] at edge
    obtain rfl := StateSet.mem_singleton.mp edge
    exact ⟨k', first, rest, by omega, rfl, denotes, path⟩

end Fork

section Repetition

variable {op : RepeatOp} {b : Block} {language : List Char → Prop} {base : Nat} {x : Exit}
  {text : List Char}

theorem repeated_stands_entry (proper : b.Proper)
    (stands : nfa.Stands base ((b.repeated op).states base x)) :
    nfa.state (base + b.size) = .ofSilent (b.openings op base) := by
  have behind := stands.right
  rw [proper.length_states] at behind
  exact behind.head

/-- The exit of a repeated operand leads to the end of the repetition by taking the operand again
as often as that is allowed. -/
theorem leads_behind_operand (proper : b.Proper) (operand : b.Recognizes language)
    (stands : nfa.Stands base ((b.repeated op).states base x)) {k : Nat}
    (allowed : op.loops = true ∨ k = 0) (power : Power language k text) :
    nfa.Leads (base + b.exit) text (base + b.size + 1) := by
  have inner : nfa.Stands base (b.states base (.into (b.closings op base))) := stands.left
  induction k generalizing text with
  | zero =>
    obtain rfl : text = [] := power
    have edge : base + b.size + 1 ∈ (nfa.state (base + b.exit)).silent := by
      rw [proper.state_exit inner]
      exact mem_closings.mpr (.inr rfl)
    exact .silent edge (.refl nfa _)
  | succ k ih =>
    obtain ⟨first, rest, rfl, member, power⟩ := power
    have loops : op.loops = true := by
      rcases allowed with loops | last
      · exact loops
      · exact absurd last (Nat.succ_ne_zero k)
    have edge : base + b.entry ∈ (nfa.state (base + b.exit)).silent := by
      rw [proper.state_exit inner]
      exact mem_closings.mpr (.inl ⟨loops, rfl⟩)
    exact .silent edge ((operand.complete inner member).trans (ih (.inl loops) power))

/-- A path that gets out of a repetition from the exit of its operand has taken the operand again as
often as that is allowed. Every round leaves a shorter path. -/
theorem through_behind_operand (proper : b.Proper) (operand : b.Recognizes language)
    (stands : nfa.Stands base ((b.repeated op).states base x)) {n q : Nat}
    (outside : (b.repeated op).Outside base q) (path : nfa.Path n (base + b.exit) text q) :
    nfa.Through (fun text => ∃ k, (op.loops = true ∨ k = 0) ∧ Power language k text)
      (base + b.size + 1) q n text := by
  have inner : nfa.Stands base (b.states base (.into (b.closings op base))) := stands.left
  have exit := proper.exit_lt
  simp only [Outside, repeated] at outside
  induction n using Nat.strong_induction_on generalizing text with
  | _ n ih =>
    obtain ⟨m, r, rfl, edge, path⟩ :=
      path.through_silent (by rw [proper.state_exit inner]; rfl) (by omega)
    rw [proper.state_exit inner] at edge
    rcases mem_closings.mp edge with ⟨loops, rfl⟩ | rfl
    · have outsideB : b.Outside base q := by
        simp only [Outside]
        omega
      have rounds := (operand.sound inner outsideB path).trans fun k rest shorter path =>
        ih k (Nat.lt_succ_of_le shorter) path
      refine rounds.weaken (Nat.le_succ m) ?_
      rintro _ ⟨first, rest, rfl, member, k, _, power⟩
      exact ⟨k + 1, .inl loops, first, rest, rfl, member, power⟩
    · refine (Through.here path).weaken (Nat.le_succ m) ?_
      rintro _ rfl
      exact ⟨0, .inr rfl, rfl⟩

theorem recognizes_repeated (proper : b.Proper) (operand : b.Recognizes language) :
    (b.repeated op).Recognizes fun text => ∃ k, op.Allows k ∧ Power language k text where
  complete := by
    rintro nfa base x text stands ⟨k, allowed, power⟩
    have entry := repeated_stands_entry proper stands
    have inner : nfa.Stands base (b.states base (.into (b.closings op base))) := stands.left
    show nfa.Leads (base + b.size) text (base + b.size + 1)
    cases k with
    | zero =>
      obtain rfl : text = [] := power
      have edge : base + b.size + 1 ∈ (nfa.state (base + b.size)).silent := by
        rw [entry]
        exact mem_openings.mpr (.inr ⟨RepeatOp.allows_zero_iff.mp allowed, rfl⟩)
      exact .silent edge (.refl nfa _)
    | succ k =>
      obtain ⟨first, rest, rfl, member, power⟩ := power
      have edge : base + b.entry ∈ (nfa.state (base + b.size)).silent := by
        rw [entry]
        exact mem_openings.mpr (.inl rfl)
      have behind := leads_behind_operand proper operand stands
        (RepeatOp.allows_succ_iff.mp allowed) power
      exact .silent edge ((operand.complete inner member).trans behind)
  sound := by
    intro nfa base x n text q stands outside path
    have entry := repeated_stands_entry proper stands
    have inner : nfa.Stands base (b.states base (.into (b.closings op base))) := stands.left
    have bounds := outside
    simp only [Outside, repeated] at bounds
    show nfa.Through _ (base + b.size + 1) q n text
    obtain ⟨m, r, rfl, edge, path⟩ : ∃ m r, n = m + 1 ∧
        r ∈ (nfa.state (base + b.size)).silent ∧ nfa.Path m r text q :=
      path.through_silent (by simp only [repeated]; rw [entry]; rfl)
        (by simp only [repeated]; omega)
    rw [entry] at edge
    rcases mem_openings.mp edge with rfl | ⟨skips, rfl⟩
    · have outsideB : b.Outside base q := by
        have exit := proper.exit_lt
        simp only [Outside]
        omega
      have rounds := (operand.sound inner outsideB path).trans fun k rest _ path =>
        through_behind_operand proper operand stands outside path
      refine rounds.weaken (Nat.le_succ m) ?_
      rintro _ ⟨first, rest, rfl, member, k, allowed, power⟩
      exact ⟨k + 1, RepeatOp.allows_succ_iff.mpr allowed, first, rest, rfl, member, power⟩
    · refine (Through.here path).weaken (Nat.le_succ m) ?_
      rintro _ rfl
      exact ⟨0, RepeatOp.allows_zero_iff.mpr skips, rfl⟩

end Repetition

section Count

variable {bounds : Bounds} {b : Block} {language : List Char → Prop} {base taken : Nat} {x : Exit}
  {text : List Char}

/-- The state in which `taken` copies of a counted block have been read. -/
def cursor (b : Block) (base : Nat) : (taken : Nat) → Nat
  | 0 => base
  | i + 1 => base + 2 + i * b.size + b.exit

theorem counted_stands_copy (proper : b.Proper)
    (stands : nfa.Stands base ((counted bounds b).states base x)) {i : Nat}
    (present : i < bounds.copies) :
    nfa.Stands (base + 2 + i * b.size) (copyStates bounds b base i) := by
  rw [counted_states] at stands
  exact stands_copyStates proper stands.tail.tail present

/-- A cursor leads to where the repetition may go on. -/
theorem state_cursor (proper : b.Proper)
    (stands : nfa.Stands base ((counted bounds b).states base x)) (within : taken ≤ bounds.copies) :
    nfa.state (b.cursor base taken) = .ofSilent (continuation bounds b base taken) := by
  cases taken with
  | zero =>
    rw [counted_states] at stands
    exact stands.head
  | succ i => exact proper.state_exit (counted_stands_copy proper stands within)

/-- Getting out of a counted repetition means leaving its cursors. -/
theorem cursor_ne_of_outside (proper : b.Proper) {q : Nat}
    (outside : (counted bounds b).Outside base q) (within : taken ≤ bounds.copies) :
    b.cursor base taken ≠ q := by
  simp only [Outside, counted] at outside
  cases taken with
  | zero =>
    simp only [cursor]
    omega
  | succ i =>
    have exit := proper.exit_lt
    have room : (i + 1) * b.size ≤ bounds.copies * b.size := Nat.mul_le_mul_right b.size within
    rw [Nat.add_one_mul] at room
    simp only [cursor]
    omega

/-- Reading one more copy leads from its entry to the next cursor. -/
theorem leads_copy (proper : b.Proper) (operand : b.Recognizes language)
    (stands : nfa.Stands base ((counted bounds b).states base x)) {i : Nat}
    (present : i < bounds.copies) (member : language text) :
    nfa.Leads (b.copyEntry (base + 2) i) text (b.cursor base (i + 1)) :=
  operand.complete (counted_stands_copy proper stands present) member

/-- A path that gets out of a counted repetition from the entry of a copy gets to the next
cursor. -/
theorem through_copy (proper : b.Proper) (operand : b.Recognizes language)
    (stands : nfa.Stands base ((counted bounds b).states base x)) {i n q : Nat}
    (present : i < bounds.copies) (outside : (counted bounds b).Outside base q)
    (path : nfa.Path n (b.copyEntry (base + 2) i) text q) :
    nfa.Through language (b.cursor base (i + 1)) q n text := by
  have room : (i + 1) * b.size ≤ bounds.copies * b.size := Nat.mul_le_mul_right b.size present
  rw [Nat.add_one_mul] at room
  have outsideCopy : b.Outside (base + 2 + i * b.size) q := by
    simp only [Outside, counted] at outside ⊢
    omega
  exact operand.sound (counted_stands_copy proper stands present) outsideCopy path

/-- From each cursor, every number of further copies that makes up an allowed total leads to the
end. When the copies are used up, the last one is read again. -/
theorem leads_from_cursor (proper : b.Proper) (operand : b.Recognizes language)
    (stands : nfa.Stands base ((counted bounds b).states base x)) (within : taken ≤ bounds.copies)
    {k : Nat} (allowed : bounds.Allows (taken + k)) (power : Power language k text) :
    nfa.Leads (b.cursor base taken) text (base + 1) := by
  have silent : (nfa.state (b.cursor base taken)).silent = continuation bounds b base taken := by
    rw [state_cursor proper stands within]
    rfl
  induction k generalizing text taken with
  | zero =>
    obtain rfl : text = [] := power
    have edge : base + 1 ∈ (nfa.state (b.cursor base taken)).silent := by
      rw [silent]
      exact mem_continuation.mpr (.inr (.inl ⟨allowed.1, rfl⟩))
    exact .silent edge (.refl nfa _)
  | succ k ih =>
    obtain ⟨first, rest, rfl, member, power⟩ := power
    by_cases more : taken < bounds.copies
    · have edge : b.copyEntry (base + 2) taken ∈ (nfa.state (b.cursor base taken)).silent := by
        rw [silent]
        exact mem_continuation.mpr (.inl ⟨more, rfl⟩)
      have allowed' : bounds.Allows (taken + 1 + k) := by
        rwa [Nat.add_assoc, Nat.add_comm 1 k]
      have behind := ih more allowed' power (by rw [state_cursor proper stands more]; rfl)
      exact .silent edge ((leads_copy proper operand stands more member).trans behind)
    · have unbounded : bounds.most = none := by
        cases most : bounds.most with
        | none => rfl
        | some m =>
          have total := allowed.2 m most
          have copies := Bounds.copies_of_most_eq_some most
          omega
      have copies := Bounds.copies_of_most_eq_none unbounded
      obtain rfl : taken = bounds.least + 1 := by omega
      have edge : b.copyEntry (base + 2) bounds.least ∈
          (nfa.state (b.cursor base (bounds.least + 1))).silent := by
        rw [silent]
        exact mem_continuation.mpr (.inr (.inr ⟨unbounded, Nat.lt_add_one _, rfl⟩))
      have allowed' : bounds.Allows (bounds.least + 1 + k) :=
        ⟨by omega, fun m bounded => absurd bounded (by simp [unbounded])⟩
      have behind := ih within allowed' power silent
      exact .silent edge ((leads_copy proper operand stands within member).trans behind)

/-- A path that gets out of a counted repetition from a cursor has read copies that make up an
allowed total. Every copy leaves a shorter path. -/
theorem through_from_cursor (proper : b.Proper) (operand : b.Recognizes language)
    (stands : nfa.Stands base ((counted bounds b).states base x)) {n q : Nat}
    (outside : (counted bounds b).Outside base q) (within : taken ≤ bounds.copies)
    (path : nfa.Path n (b.cursor base taken) text q) :
    nfa.Through (fun text => ∃ k, bounds.Allows (taken + k) ∧ Power language k text)
      (base + 1) q n text := by
  induction n using Nat.strong_induction_on generalizing text taken with
  | _ n ih =>
    have state := state_cursor proper stands within
    have leaves := cursor_ne_of_outside proper outside within
    obtain ⟨m, r, rfl, edge, path⟩ := path.through_silent (by rw [state]; rfl) leaves
    rw [state] at edge
    -- Reading copy `i` next and going on from the cursor behind it.
    have round {i : Nat} (present : i < bounds.copies)
        (path : nfa.Path m (b.copyEntry (base + 2) i) text q)
        (allowed : ∀ k, bounds.Allows (i + 1 + k) → bounds.Allows (taken + (k + 1))) :
        nfa.Through (fun text => ∃ k, bounds.Allows (taken + k) ∧ Power language k text)
          (base + 1) q (m + 1) text := by
      have rounds := (through_copy proper operand stands present outside path).trans
        fun k rest shorter path => ih k (Nat.lt_succ_of_le shorter) present path
      refine rounds.weaken (Nat.le_succ m) ?_
      rintro _ ⟨first, rest, rfl, member, k, total, power⟩
      exact ⟨k + 1, allowed k total, first, rest, rfl, member, power⟩
    rcases mem_continuation.mp edge with ⟨more, rfl⟩ | ⟨enough, rfl⟩ | ⟨unbounded, further, rfl⟩
    · refine round more path fun k total => ?_
      rwa [Nat.add_assoc, Nat.add_comm 1 k] at total
    · refine (Through.here path).weaken (Nat.le_succ m) ?_
      rintro _ rfl
      refine ⟨0, ⟨enough, fun most bounded => ?_⟩, rfl⟩
      rwa [Bounds.copies_of_most_eq_some bounded] at within
    · have copies := Bounds.copies_of_most_eq_none unbounded
      refine round (by omega) path fun k _ => ?_
      exact ⟨by omega, fun most bounded => absurd bounded (by simp [unbounded])⟩

theorem recognizes_counted (proper : b.Proper) (operand : b.Recognizes language) :
    (counted bounds b).Recognizes fun text => ∃ k, bounds.Allows k ∧ Power language k text where
  complete := by
    rintro nfa base x text stands ⟨k, allowed, power⟩
    have total : bounds.Allows (0 + k) := by rwa [Nat.zero_add]
    exact leads_from_cursor proper operand stands (Nat.zero_le _) total power
  sound := by
    intro nfa base x n text q stands outside path
    have through := through_from_cursor proper operand stands outside (Nat.zero_le _) path
    simp only [Nat.zero_add] at through
    exact through

end Count

end Block

/-- The block of an expression recognizes what the expression denotes. -/
theorem block_recognizes (e : Expr) : (block e).Recognizes e.Denotes := by
  induction e using Expr.branchInduction with
  | empty => exact Block.recognizes_empty
  | atom a =>
    have recognizes := Block.recognizes_symbol a.chars
    simp only [Atom.mem_chars] at recognizes
    exact recognizes
  | concat l r left right =>
    rw [block_concat]
    exact Block.recognizes_append (block_proper l) left right
  | alternate l r branches =>
    rw [block_alternate]
    have recognizes := Block.recognizes_fork (fun e _ => block_proper e) branches
    simp only [← Expr.denotes_iff_alternatives] at recognizes
    exact recognizes
  | repeated op e operand => exact Block.recognizes_repeated (block_proper e) operand
  | counted e b operand => exact Block.recognizes_counted (block_proper e) operand

/-- The automaton of an expression accepts exactly the texts that the expression denotes. -/
theorem accepts_ofBlock (e : Expr) (text : List Char) :
    (ofBlock e).accepts text = true ↔ e.Denotes text := by
  have stands := ofBlock_stands e
  rw [accepts_iff (ofBlock_wellFormed e)]
  constructor
  · rintro ⟨q, ⟨n, path⟩, accepts⟩
    obtain rfl := (ofBlock_accepting_iff e q).mp accepts
    have outside : (block e).Outside 0 (block e).exit := .inr (.inr (Nat.zero_add _).symm)
    have through := (block_recognizes e).sound stands outside (by rwa [Nat.zero_add])
    obtain ⟨m, first, rest, _, rfl, denotes, path⟩ := through
    rw [Nat.zero_add] at path
    obtain ⟨_, rfl⟩ := path.of_no_edges (by rw [ofBlock_state_exit]) (by rw [ofBlock_state_exit])
    rwa [List.append_nil]
  · intro denotes
    have leads := (block_recognizes e).complete stands denotes
    simp only [Nat.zero_add] at leads
    exact ⟨(block e).exit, leads, (ofBlock_accepting_iff e _).mpr rfl⟩

/-- Within the limits, the automaton of an expression is that of its block. -/
theorem eq_ofBlock {limits : Limits} {e : Expr} {nfa : Nfa} (built : ofExpr limits e = .ok nfa) :
    nfa = ofBlock e := by
  rw [ofExpr] at built
  split at built
  · rw [sealExit] at built
    split at built
    · exact (Except.ok.inj built).symm
    · cases built
  · cases built

/-- Whatever the limits within which it is built, the automaton of an expression accepts exactly the
texts that the expression denotes. -/
theorem accepts_iff_denotes {limits : Limits} {e : Expr} {nfa : Nfa}
    (built : ofExpr limits e = .ok nfa) (text : List Char) :
    nfa.accepts text = true ↔ e.Denotes text := by
  obtain rfl := eq_ofBlock built
  exact accepts_ofBlock e text

/-- `(a|b?){1,}` denotes `ab`, since its automaton is built within the default limits and accepts
that text. -/
theorem denotes_of_accepting_automaton :
    let e : Expr :=
      .counted (.alternate (.literal 'a') (.repeated .optional (.literal 'b'))) (.atLeast 1)
    ∃ nfa, ofExpr .standard e = .ok nfa ∧ nfa.accepts ['a', 'b'] = true ∧
      e.Denotes ['a', 'b'] := by
  intro e
  have built : ofExpr .standard e = .ok (ofBlock e) := rfl
  have accepted : (ofBlock e).accepts ['a', 'b'] = true := by decide +kernel
  exact ⟨ofBlock e, built, accepted, (accepts_iff_denotes built ['a', 'b']).mp accepted⟩

end FullMatch.Nfa
