import FullMatch.Proofs.Token.Place
import FullMatch.Proofs.Token.Scan

/-!
# Nothing is lost

The tokens of a pattern lie over its text one behind the other, each over the character that it
keeps or over a backslash and that character. So the text can be put together again from its tokens
and its length (`rebuild`), and two patterns of one length with the same tokens are the same
(`scan_lossless`).
-/

namespace FullMatch.Token

variable {context : Context} {start stop : Nat} {text whole : List Char} {t : Token}
  {ts : List Token} {pattern : String}

/-- Where the first token of some begins, or the end of a text of `length` characters. -/
def nextPlace (length : Nat) (ts : List Token) : Nat :=
  (ts.head?.map Token.position).getD length

/-- A token lies over its character, which is no backslash, or over a backslash and its character,
and ends at `stop`. -/
def SpansTo (text : List Char) (t : Token) (stop : Nat) : Prop :=
  stop = t.position + 1 ∧ text[t.position]? = some t.value ∧ t.value ≠ '\\' ∨
    stop = t.position + 2 ∧ text[t.position]? = some '\\' ∧ text[t.position + 1]? = some t.value

/-- The text of `length` characters that was cut into tokens: each is written as its character,
behind a backslash if the next one is two places on. -/
def rebuild (length : Nat) : List Token → List Char
  | [] => []
  | t :: ts =>
    if nextPlace length ts - t.position = 2 then '\\' :: t.value :: rebuild length ts
    else t.value :: rebuild length ts

namespace Cuts

/-- The first token begins where its text does. -/
theorem nextPlace_eq (cuts : Cuts context start text ts) (ends : start + text.length = stop) :
    nextPlace stop ts = start := by
  cases cuts with
  | nil => exact ends.symm
  | escaped | plain => rfl

theorem le_position (cuts : Cuts context start text ts) : ∀ t ∈ ts, start ≤ t.position := by
  induction cuts with
  | nil => exact nofun
  | escaped _ ih | plain _ _ ih =>
    exact List.forall_mem_cons.mpr
      ⟨Nat.le_refl _, fun t member => Nat.le_trans (Nat.le_add_right _ _) (ih t member)⟩

/-- Tokens begin one behind the other. -/
theorem increasing (cuts : Cuts context start text ts) :
    ts.Pairwise fun t u => t.position < u.position := by
  induction cuts with
  | nil => exact .nil
  | escaped rest ih =>
    exact .cons (fun u member => Nat.lt_of_succ_lt (rest.le_position u member)) ih
  | plain _ rest ih => exact .cons (fun u member => rest.le_position u member) ih

/-- Each token lies over its part of the text, and ends where the next one begins or, if there is
none, where the text ends. -/
theorem spansTo (cuts : Cuts context start text ts) (stands : StandsAt whole start text)
    (ends : start + text.length = stop) {before after : List Token}
    (split : ts = before ++ t :: after) : t.SpansTo whole (nextPlace stop after) := by
  induction cuts generalizing before with
  | nil => simp at split
  | @escaped context start c text ts rest ih =>
    rw [add_length_cons, add_length_cons] at ends
    cases before with
    | nil =>
      obtain ⟨rfl, rfl⟩ := List.cons.inj split
      rw [rest.nextPlace_eq ends]
      exact .inr ⟨rfl, stands.head, stands.tail.head⟩
    | cons _ before => exact ih stands.tail.tail ends (List.cons.inj split).2
  | @plain context start c text ts noBackslash rest ih =>
    rw [add_length_cons] at ends
    cases before with
    | nil =>
      obtain ⟨rfl, rfl⟩ := List.cons.inj split
      rw [rest.nextPlace_eq ends]
      exact .inl ⟨rfl, stands.head, noBackslash⟩
    | cons _ before => exact ih stands.tail ends (List.cons.inj split).2

/-- The text is put together again from the tokens that it was cut into. -/
theorem rebuild_eq (cuts : Cuts context start text ts) (ends : start + text.length = stop) :
    rebuild stop ts = text := by
  induction cuts with
  | nil => rfl
  | @escaped context start c text ts rest ih =>
    rw [add_length_cons, add_length_cons] at ends
    rw [rebuild, rest.nextPlace_eq ends, if_pos (Nat.add_sub_cancel_left start 2), ih ends]
  | @plain context start c text ts noBackslash rest ih =>
    rw [add_length_cons] at ends
    have width : start + 1 - start ≠ 2 := by omega
    rw [rebuild, rest.nextPlace_eq ends, if_neg width, ih ends]

end Cuts

theorem rebuild_of_scan (cut : scan pattern = .ok ts) :
    rebuild pattern.length ts = pattern.toList :=
  (cuts_of_scan cut).rebuild_eq (by rw [Nat.zero_add, String.length_toList])

/-- The tokens of a pattern lie over its text without a gap: the first one begins at its start, and
each ends where the next one begins, the last one at the end of the pattern. So they stand in the
order of their places, and with the length of the pattern they tell its text. -/
theorem scan_lossless (cut : scan pattern = .ok ts) :
    (∀ t ∈ ts.head?, t.position = 0) ∧
      (∀ before t after, ts = before ++ t :: after →
        t.SpansTo pattern.toList (nextPlace pattern.length after)) ∧
      (ts.Pairwise fun t u => t.position < u.position) ∧
      rebuild pattern.length ts = pattern.toList ∧
      ∀ other : String, other.length = pattern.length → scan other = .ok ts → other = pattern := by
  have cuts := cuts_of_scan cut
  have ends : 0 + pattern.toList.length = pattern.length := by
    rw [Nat.zero_add, String.length_toList]
  refine ⟨fun t first => ?_, fun before t after => cuts.spansTo (standsAt_zero _) ends,
    cuts.increasing, rebuild_of_scan cut, fun other same cut' => ?_⟩
  · have place := cuts.nextPlace_eq ends
    rwa [nextPlace, first] at place
  · rw [← String.toList_inj, ← rebuild_of_scan cut, ← rebuild_of_scan cut', same]

/-- A dot behind a backslash and one in a class make the same token but for its place. The places in
`\.[.\]]` show that a backslash stood in front of the first dot and of the first bracket `]`. -/
theorem scan_lossless_of_dots :
    ∃ ts, scan "\\.[.\\]]" = .ok ts ∧
      ts.map (fun t => (t.kind, t.value)) = [(.char, '.'), (.leftBracket, '['), (.char, '.'),
        (.escaped, ']'), (.rightBracket, ']')] ∧
      rebuild 7 ts = ['\\', '.', '[', '.', '\\', ']', ']'] ∧
      ∀ other : String, other.length = 7 → scan other = .ok ts → other = "\\.[.\\]]" := by
  let ts : List Token := [⟨.char, '.', 0⟩, ⟨.leftBracket, '[', 2⟩, ⟨.char, '.', 3⟩,
    ⟨.escaped, ']', 4⟩, ⟨.rightBracket, ']', 6⟩]
  have chars : "\\.[.\\]]".toList = ['\\', '.', '[', '.', '\\', ']', ']'] := String.toList_ofList
  have length : "\\.[.\\]]".length = 7 := by
    rw [← String.length_toList, chars]
    rfl
  have cut : scan "\\.[.\\]]" = .ok ts := by
    rw [scan, chars]
    rfl
  obtain ⟨-, -, -, rebuilt, unique⟩ := scan_lossless cut
  rw [length] at rebuilt unique
  exact ⟨ts, cut, rfl, rebuilt.trans chars, unique⟩

end FullMatch.Token
