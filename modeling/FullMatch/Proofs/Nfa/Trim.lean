import FullMatch.Proofs.Length.Extent
import FullMatch.Proofs.Nfa.Thompson

/-!
# Trim automata

If every class in an expression stands for some character, every state of its block is on a way from
the entry to the exit (`block_trim`): each way to build a block from smaller ones keeps that. So
every state of its automaton is on a way from the start to the accepting state (`ofBlock_trim`), and
a text leaves states active just when some text behind it is accepted (`active_ne_empty_iff`).
-/

namespace FullMatch.Nfa

variable {nfa : Nfa} {p p' q r r' : Nat}

/-- Some text leads from `p` to `q`. -/
def Reaches (nfa : Nfa) (p q : Nat) : Prop :=
  ∃ text, nfa.Leads p text q

namespace Reaches

theorem refl (nfa : Nfa) (q : Nat) : nfa.Reaches q q :=
  ⟨[], .refl nfa q⟩

theorem trans (first : nfa.Reaches p q) (second : nfa.Reaches q r) : nfa.Reaches p r := by
  obtain ⟨text, leads⟩ := first
  obtain ⟨text', leads'⟩ := second
  exact ⟨text ++ text', leads.trans leads'⟩

theorem silent (edge : q ∈ (nfa.state p).silent) : nfa.Reaches p q :=
  ⟨[], .silent edge (.refl nfa q)⟩

end Reaches

/-- The state `q` is on a way from `p` to `r`. -/
structure Between (nfa : Nfa) (p q r : Nat) : Prop where
  reached : nfa.Reaches p q
  leaves : nfa.Reaches q r

namespace Between

/-- A way through a state may begin further back and end further on. -/
theorem extend (between : nfa.Between p q r) (before : nfa.Reaches p' p)
    (behind : nfa.Reaches r r') : nfa.Between p' q r' :=
  ⟨before.trans between.reached, between.leaves.trans behind⟩

theorem through (between : nfa.Between p q r) : nfa.Reaches p r :=
  between.reached.trans between.leaves

/-- A way between two neighbours goes through both of them. -/
theorem pair (way : nfa.Reaches p (p + 1)) (low : p ≤ q) (high : q < p + 2) :
    nfa.Between p q (p + 1) := by
  have either : q = p ∨ q = p + 1 := by omega
  rcases either with rfl | rfl
  · exact ⟨.refl nfa q, way⟩
  · exact ⟨way, .refl nfa (p + 1)⟩

end Between

namespace Block

variable {a b : Block} {base : Nat} {x : Exit}

/-- Wherever the block is laid out, each of its states is on a way from the entry to the exit. -/
def Trim (b : Block) : Prop :=
  ∀ {nfa : Nfa} {base x q}, nfa.Stands base (b.states base x) → base ≤ q → q < base + b.size →
    nfa.Between (base + b.entry) q (base + b.exit)

/-- A trim block can be passed through. -/
theorem Trim.through (trim : b.Trim) (proper : b.Proper)
    (stands : nfa.Stands base (b.states base x)) :
    nfa.Reaches (base + b.entry) (base + b.exit) := by
  have entry := proper.entry_lt
  exact (trim stands (Nat.le_add_right base b.entry) (by omega)).through

theorem trim_empty : empty.Trim := by
  intro nfa base x q stands low high
  have entry : nfa.state base = .ofSilent {base + 1} := stands.head
  have edge : base + 1 ∈ (nfa.state base).silent := by
    rw [entry]
    exact StateSet.mem_singleton.mpr rfl
  exact .pair (.silent edge) low high

/-- A symbol that can be read is trim. -/
theorem trim_symbol {label : CharSet} {c : Char} (member : c ∈ label) : (symbol label).Trim := by
  intro nfa base x q stands low high
  have entry : nfa.state base = .ofEdge label (base + 1) := stands.head
  have edge : ⟨label, base + 1⟩ ∈ (nfa.state base).edges := by
    rw [entry]
    exact List.mem_singleton.mpr rfl
  exact .pair ⟨[c], .read edge member (.refl nfa (base + 1))⟩ low high

theorem trim_append (properA : a.Proper) (properB : b.Proper) (first : a.Trim) (second : b.Trim) :
    (a.append b).Trim := by
  intro nfa base x q stands low high
  obtain ⟨standsA, standsB, link⟩ := append_stands properA stands
  have edge : base + a.size + b.entry ∈ (nfa.state (base + a.exit)).silent := by
    rw [link]
    exact StateSet.mem_singleton.mpr rfl
  simp only [append, ← Nat.add_assoc] at high ⊢
  by_cases inFirst : q < base + a.size
  · have behind := (Reaches.silent edge).trans (second.through properB standsB)
    exact (first standsA low inFirst).extend (.refl nfa _) behind
  · have before := (first.through properA standsA).trans (.silent edge)
    exact (second standsB (Nat.le_of_not_lt inFirst) high).extend before (.refl nfa _)

section Fork

variable {blocks : List Block}

/-- Side by side, each state is on a way from one of the entries to an exit. -/
theorem between_sideBySide (proper : ∀ b ∈ blocks, b.Proper) (trim : ∀ b ∈ blocks, b.Trim)
    (stands : nfa.Stands base (sideBySide x base blocks)) (low : base ≤ q)
    (high : q < base + totalSize blocks) :
    ∃ entry ∈ entriesFrom base blocks, ∃ exit,
      nfa.state exit = x.state ∧ nfa.Between entry q exit := by
  induction blocks generalizing base with
  | nil =>
    simp only [totalSize, List.foldl_nil] at high
    omega
  | cons b blocks ih =>
    obtain ⟨properB, proper⟩ := List.forall_mem_cons.mp proper
    obtain ⟨trimB, trim⟩ := List.forall_mem_cons.mp trim
    have here : nfa.Stands base (b.states base x) := stands.left
    have later := stands.right
    rw [properB.length_states] at later
    rw [totalSize_cons, ← Nat.add_assoc] at high
    by_cases first : q < base + b.size
    · exact ⟨_, List.mem_cons_self, _, properB.state_exit here, trimB here low first⟩
    · obtain ⟨entry, listed, between⟩ := ih proper trim later (Nat.le_of_not_lt first) high
      exact ⟨entry, List.mem_cons_of_mem _ listed, between⟩

theorem trim_fork (nonempty : blocks ≠ []) (proper : ∀ b ∈ blocks, b.Proper)
    (trim : ∀ b ∈ blocks, b.Trim) : (fork blocks).Trim := by
  intro nfa base x q stands low high
  rw [fork_states] at stands
  -- Each state of a branch is on a way from the common entry to the common exit.
  have branch {q : Nat} (low : base + 2 ≤ q) (high : q < base + 2 + totalSize blocks) :
      nfa.Between base q (base + 1) := by
    obtain ⟨entry, listed, exit, exits, between⟩ :=
      between_sideBySide proper trim stands.tail.tail low high
    have enter : entry ∈ (nfa.state base).silent := by
      rw [stands.head]
      exact mem_branches.mpr listed
    have leave : base + 1 ∈ (nfa.state exit).silent := by
      rw [exits]
      exact StateSet.mem_singleton.mpr rfl
    exact between.extend (.silent enter) (.silent leave)
  simp only [fork, Nat.add_zero] at high ⊢
  by_cases outer : q < base + 2
  · have some : 0 < totalSize blocks := by
      obtain ⟨b, rest, rfl⟩ := List.exists_cons_of_ne_nil nonempty
      have entry := (proper b List.mem_cons_self).entry_lt
      rw [totalSize_cons]
      omega
    exact .pair (branch (Nat.le_refl _) (Nat.lt_add_of_pos_right some)).through low outer
  · exact branch (Nat.le_of_not_lt outer) (by omega)

end Fork

section Repetition

variable {op : RepeatOp}

theorem trim_repeated (proper : b.Proper) (operand : b.Trim) : (b.repeated op).Trim := by
  intro nfa base x q stands low high
  have inner : nfa.Stands base (b.states base (.into (b.closings op base))) := stands.left
  have enter : base + b.entry ∈ (nfa.state (base + b.size)).silent := by
    rw [repeated_stands_entry proper stands]
    exact mem_openings.mpr (.inl rfl)
  have leave : base + b.size + 1 ∈ (nfa.state (base + b.exit)).silent := by
    rw [proper.state_exit inner]
    exact mem_closings.mpr (.inr rfl)
  have across {q : Nat} (between : nfa.Between (base + b.entry) q (base + b.exit)) :
      nfa.Between (base + b.size) q (base + b.size + 1) :=
    between.extend (.silent enter) (.silent leave)
  show nfa.Between (base + b.size) q (base + b.size + 1)
  by_cases inside : q < base + b.size
  · exact across (operand inner low inside)
  · have way := (across ⟨.refl nfa _, operand.through proper inner⟩).through
    exact .pair way (Nat.le_of_not_lt inside) high

end Repetition

section Count

variable {bounds : Bounds} {taken : Nat}

/-- While there are more copies, each cursor leads through the next copy to the next cursor. -/
theorem cursor_reaches (proper : b.Proper) (operand : b.Trim)
    (stands : nfa.Stands base ((counted bounds b).states base x)) (more : taken < bounds.copies) :
    nfa.Reaches (b.cursor base taken) (b.copyEntry (base + 2) taken) ∧
      nfa.Reaches (b.copyEntry (base + 2) taken) (b.cursor base (taken + 1)) := by
  have enter : b.copyEntry (base + 2) taken ∈ (nfa.state (b.cursor base taken)).silent := by
    rw [state_cursor proper stands (Nat.le_of_lt more)]
    exact mem_continuation.mpr (.inl ⟨more, rfl⟩)
  exact ⟨.silent enter, operand.through proper (counted_stands_copy proper stands more)⟩

/-- Every cursor is reached from the entry. -/
theorem reaches_cursor (proper : b.Proper) (operand : b.Trim)
    (stands : nfa.Stands base ((counted bounds b).states base x)) (within : taken ≤ bounds.copies) :
    nfa.Reaches base (b.cursor base taken) := by
  induction taken with
  | zero => exact .refl nfa base
  | succ taken ih =>
    obtain ⟨enter, pass⟩ := cursor_reaches proper operand stands within
    exact (ih (Nat.le_of_succ_le within)).trans (enter.trans pass)

/-- Every cursor leads to the exit, the last one in a single step. -/
theorem cursor_reaches_exit (proper : b.Proper) (operand : b.Trim)
    (stands : nfa.Stands base ((counted bounds b).states base x)) (within : taken ≤ bounds.copies) :
    nfa.Reaches (b.cursor base taken) (base + 1) := by
  induction within using Nat.decreasingInduction with
  | self =>
    apply Reaches.silent
    rw [state_cursor proper stands (Nat.le_refl _)]
    exact mem_continuation.mpr (.inr (.inl ⟨bounds.least_le_copies, rfl⟩))
  | of_succ taken more ih =>
    obtain ⟨enter, pass⟩ := cursor_reaches proper operand stands more
    exact (enter.trans pass).trans ih

/-- Behind the first two states, every state of a counted block is in one of the copies. -/
theorem exists_copy (proper : b.Proper) (low : base + 2 ≤ q)
    (high : q < base + 2 + bounds.copies * b.size) :
    ∃ i < bounds.copies, base + 2 + i * b.size ≤ q ∧ q < base + 2 + i * b.size + b.size := by
  obtain ⟨n, rfl⟩ := Nat.exists_eq_add_of_le low
  have positive : 0 < b.size := Nat.zero_lt_of_lt proper.entry_lt
  have before : n / b.size * b.size ≤ n := Nat.div_mul_le_self n b.size
  have behind : n < n / b.size * b.size + b.size := Nat.lt_div_mul_add positive
  refine ⟨n / b.size, ?_, by omega, by omega⟩
  rw [Nat.div_lt_iff_lt_mul positive]
  omega

theorem trim_counted (proper : b.Proper) (operand : b.Trim) : (counted bounds b).Trim := by
  intro nfa base x q stands low high
  simp only [counted, Nat.add_zero, ← Nat.add_assoc] at high ⊢
  by_cases outer : q < base + 2
  · exact .pair (cursor_reaches_exit proper operand stands (Nat.zero_le _)) low outer
  · obtain ⟨i, present, above, below⟩ := exists_copy proper (Nat.le_of_not_lt outer) high
    have between := operand (counted_stands_copy proper stands present) above below
    have enter := (cursor_reaches proper operand stands present).1
    exact between.extend
      ((reaches_cursor proper operand stands (Nat.le_of_lt present)).trans enter)
      (cursor_reaches_exit proper operand stands present)

end Count

end Block

section Automaton

variable {e : Expr} {text : List Char}

/-- If every class stands for some character, the block of an expression is trim. -/
theorem block_trim (inhabited : e.ClassesInhabited) : (block e).Trim := by
  induction e using Expr.branchInduction with
  | empty => exact Block.trim_empty
  | atom a =>
    obtain ⟨c, reads⟩ := Expr.exists_reads inhabited
    exact Block.trim_symbol (Atom.mem_chars.mpr reads)
  | concat l r left right =>
    rw [block_concat]
    exact Block.trim_append (block_proper l) (block_proper r) (left inhabited.1) (right inhabited.2)
  | alternate l r branches =>
    rw [block_alternate]
    apply Block.trim_fork
    · simp [Expr.alternatives_ne_nil]
    · simp only [List.forall_mem_map]
      exact fun e _ => block_proper e
    · simp only [List.forall_mem_map]
      exact fun e branch => branches e branch (Expr.inhabited_of_mem_alternatives inhabited branch)
  | repeated op e operand => exact Block.trim_repeated (block_proper e) (operand inhabited)
  | counted e b operand => exact Block.trim_counted (block_proper e) (operand inhabited)

/-- Every state is on a way from the start to the accepting state. -/
def Trim (nfa : Nfa) : Prop :=
  ∀ q < nfa.states.size, nfa.Between nfa.start q nfa.accept

/-- If every class stands for some character, the automaton of an expression is trim. -/
theorem ofBlock_trim (inhabited : e.ClassesInhabited) : (ofBlock e).Trim := by
  intro q present
  rw [size_ofBlock] at present
  have between := block_trim inhabited (ofBlock_stands e) (Nat.zero_le q) (by omega)
  rw [Nat.zero_add, Nat.zero_add] at between
  exact between

/-- In a trim automaton, a text leaves states active just when some text behind it is accepted. -/
theorem Trim.active_ne_empty_iff (trim : nfa.Trim) (wf : nfa.WellFormed)
    (accepting : (nfa.state nfa.accept).accepting = true) :
    nfa.active text ≠ ∅ ↔ ∃ rest, nfa.accepts (text ++ rest) = true := by
  constructor
  · intro alive
    rw [Ne, Std.ExtTreeSet.eq_empty_iff_forall_not_mem, not_forall_not] at alive
    obtain ⟨q, active⟩ := alive
    have leads := (mem_active wf).mp active
    obtain ⟨-, rest, leaves⟩ := trim q (leads.lt_size wf wf.start_lt)
    exact ⟨rest, (accepts_iff wf).mpr ⟨nfa.accept, leads.trans leaves, accepting⟩⟩
  · rintro ⟨rest, accepted⟩ dead
    rw [accepts_eq, active_append, dead, foldl_step_empty] at accepted
    cases accepted

end Automaton

end FullMatch.Nfa
