import FullMatch.Nfa.Basic

/-!
# Paths

What an automaton does, said without sets of active states: a path follows edges one by one, and
spells the characters that its labelled edges read. `Leads` forgets how many edges there are. A
path is counted because a loop can only be unwound along a shorter one.
-/

namespace FullMatch.Nfa

/-- Every edge leads to a state that exists. -/
structure WellFormed (nfa : Nfa) : Prop where
  start_lt : nfa.start < nfa.states.size
  silent_lt : ∀ p, ∀ r ∈ (nfa.state p).silent, r < nfa.states.size
  target_lt : ∀ p, ∀ e ∈ (nfa.state p).edges, e.target < nfa.states.size

/-- A path of `n` edges from one state to another, reading `text` on the way. -/
inductive Path (nfa : Nfa) : (n : Nat) → Nat → (text : List Char) → Nat → Prop where
  | refl {q} : Path nfa 0 q [] q
  | silent {n p r q text} (edge : r ∈ (nfa.state p).silent) (rest : Path nfa n r text q) :
      Path nfa (n + 1) p text q
  | read {n p q c text} {e : Edge} (edge : e ∈ (nfa.state p).edges) (label : c ∈ e.label)
      (rest : Path nfa n e.target text q) :
      Path nfa (n + 1) p (c :: text) q

/-- Some path from `p` to `q` reads `text`. -/
def Leads (nfa : Nfa) (p : Nat) (text : List Char) (q : Nat) : Prop :=
  ∃ n, nfa.Path n p text q

variable {nfa : Nfa}

namespace Path

variable {n m : Nat} {p q r : Nat} {text rest : List Char}

/-- One path behind another reads one text behind the other. -/
theorem trans (first : nfa.Path n p text q) (second : nfa.Path m q rest r) :
    nfa.Path (n + m) p (text ++ rest) r := by
  induction first with
  | refl => simpa using second
  | silent edge _ ih =>
    rw [Nat.add_right_comm]
    exact .silent edge (ih second)
  | read edge label _ ih =>
    rw [Nat.add_right_comm]
    exact .read edge label (ih second)

/-- A path that goes on from a state without labelled edges begins with a silent edge. -/
theorem through_silent (path : nfa.Path n p text q) (unlabelled : (nfa.state p).edges = [])
    (leaves : p ≠ q) :
    ∃ m r, n = m + 1 ∧ r ∈ (nfa.state p).silent ∧ nfa.Path m r text q := by
  cases path with
  | refl => exact absurd rfl leaves
  | silent edge rest => exact ⟨_, _, rfl, edge, rest⟩
  | read edge label rest => simp [unlabelled] at edge

/-- A path from a state without any edges stays there. -/
theorem of_no_edges (path : nfa.Path n p text q) (unlabelled : (nfa.state p).edges = [])
    (mute : (nfa.state p).silent = ∅) : p = q ∧ text = [] := by
  cases path with
  | refl => exact ⟨rfl, rfl⟩
  | silent edge rest => simp [mute] at edge
  | read edge label rest => simp [unlabelled] at edge

end Path

namespace Leads

variable {p q r : Nat} {text rest : List Char} {c : Char}

theorem refl (nfa : Nfa) (q : Nat) : nfa.Leads q [] q :=
  ⟨0, .refl⟩

theorem silent (edge : r ∈ (nfa.state p).silent) (tail : nfa.Leads r text q) :
    nfa.Leads p text q := by
  obtain ⟨n, path⟩ := tail
  exact ⟨n + 1, .silent edge path⟩

theorem read {e : Edge} (edge : e ∈ (nfa.state p).edges) (label : c ∈ e.label)
    (tail : nfa.Leads e.target text q) : nfa.Leads p (c :: text) q := by
  obtain ⟨n, path⟩ := tail
  exact ⟨n + 1, .read edge label path⟩

theorem trans (first : nfa.Leads p text q) (second : nfa.Leads q rest r) :
    nfa.Leads p (text ++ rest) r := by
  obtain ⟨n, path⟩ := first
  obtain ⟨m, path'⟩ := second
  exact ⟨n + m, path.trans path'⟩

/-- Reading `c :: text` takes silent edges to a labelled edge that reads `c`, and reads `text`
behind it. -/
theorem cons_iff :
    nfa.Leads p (c :: text) q ↔
      ∃ r, nfa.Leads p [] r ∧
        ∃ e ∈ (nfa.state r).edges, c ∈ e.label ∧ nfa.Leads e.target text q := by
  constructor
  · rintro ⟨n, path⟩
    induction n generalizing p with
    | zero => cases path
    | succ n ih =>
      cases path with
      | silent edge rest =>
        obtain ⟨r, before, reading⟩ := ih rest
        exact ⟨r, before.silent edge, reading⟩
      | read edge label rest => exact ⟨p, refl nfa p, _, edge, label, _, rest⟩
  · rintro ⟨r, before, e, edge, label, behind⟩
    exact before.trans (behind.read edge label)

/-- A text leads to states that exist. -/
theorem lt_size (wf : nfa.WellFormed) (present : p < nfa.states.size)
    (leads : nfa.Leads p text q) : q < nfa.states.size := by
  obtain ⟨n, path⟩ := leads
  induction path with
  | refl => exact present
  | silent edge rest ih => exact ih (wf.silent_lt _ _ edge)
  | read edge label rest ih => exact ih (wf.target_lt _ _ edge)

end Leads

end FullMatch.Nfa
