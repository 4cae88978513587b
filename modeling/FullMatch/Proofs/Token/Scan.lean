import FullMatch.Grammar.Derivation
import FullMatch.Token.Scan

/-!
# Scanning piece by piece

Text that is cut the same way whatever follows it is a piece (`Scans`); pieces that lead from one
context to the next make up a longer piece (`Scans.append`). The course of a scan that succeeds is
`Cuts`: what holds of its tokens is proved by induction on it, one case for each way to make a token
(`cuts_of_scan`). So a token carries the character that its kind stands for (`faithful_of_scan`).
-/

namespace FullMatch.Token

variable {context context' context'' : Context} {start : Nat} {text text' : List Char}
  {ts us done : List Token} {c : Char} {kind : Kind} {pattern : String}

theorem scanFrom_cons (plain : c ≠ '\\') (is : context.kind start c text.head? = kind) :
    scanFrom context start done (c :: text) =
      scanFrom (context.after kind start c) (start + 1) (⟨kind, c, start⟩ :: done) text := by
  subst is
  rw [scanFrom]
  · exact fun same _ => plain same
  · exact fun _ _ same _ => plain same

/-- The text, from a place and in a context, is cut into the tokens and leads to another context,
whatever stands behind it. -/
def Scans (context context' : Context) (start : Nat) (text : List Char) (ts : List Token) : Prop :=
  ∀ done rest, scanFrom context start done (text ++ rest) =
    scanFrom context' (start + text.length) (ts.reverse ++ done) rest

namespace Scans

theorem nil (context : Context) (start : Nat) : Scans context context start [] [] :=
  fun _ _ => rfl

theorem append (first : Scans context context' start text ts)
    (second : Scans context' context'' (start + text.length) text' us) :
    Scans context context'' start (text ++ text') (ts ++ us) := by
  intro done rest
  rw [List.append_assoc, first, second, List.length_append, Nat.add_assoc, List.reverse_append,
    List.append_assoc]

/-- A character that is no backslash, and that stands for the same whatever comes next. -/
theorem single (plain : c ≠ '\\') (is : ∀ next, context.kind start c next = kind)
    (leads : context.after kind start c = context') :
    Scans context context' start [c] [⟨kind, c, start⟩] := by
  intro done rest
  rw [List.singleton_append, scanFrom_cons plain (is _), leads]
  rfl

/-- One character more in front, which stands for the same whatever stands behind the text. -/
theorem cons (plain : c ≠ '\\')
    (is : ∀ behind, context.kind start c (text ++ behind).head? = kind)
    (tail : Scans (context.after kind start c) context' (start + 1) text ts) :
    Scans context context' start (c :: text) (⟨kind, c, start⟩ :: ts) := by
  intro done behind
  rw [List.cons_append, scanFrom_cons plain (is behind), tail, List.length_cons, Nat.add_assoc,
    Nat.add_comm 1, List.reverse_cons, List.append_assoc]
  rfl

/-- A character outside brackets and braces that opens none of them. -/
theorem outside (plain : c ≠ '\\') (is : kindOutside c = kind) (noBracket : kind ≠ .leftBracket)
    (noBrace : kind ≠ .leftBrace) :
    Scans .outside .outside start [c] [⟨kind, c, start⟩] := by
  refine .single plain (fun _ => is) ?_
  cases kind with
  | leftBracket => exact absurd rfl noBracket
  | leftBrace => exact absurd rfl noBrace
  | _ => rfl

/-- A backslash takes the next character with it. -/
theorem escape (context : Context) (start : Nat) (c : Char) :
    Scans context (context.afterEscape c) start ['\\', c] [⟨kindEscaped c, c, start⟩] :=
  fun _ _ => rfl

/-- A pattern that is one piece is cut into its tokens. -/
theorem scan (scans : Scans .outside .outside 0 text ts) :
    Token.scan (String.ofList text) = .ok ts := by
  have cut := scans [] []
  rw [List.append_nil, List.append_nil] at cut
  rw [Token.scan, String.toList_ofList, cut, scanFrom, List.reverse_reverse]
  intro opened previous within
  cases within

end Scans

theorem eq_of_kindInClass_eq_rightBracket {opened position : Nat} {previous : Char}
    {next : Option Char}
    (closes : kindInClass opened previous position next c = .rightBracket) : c = ']' := by
  unfold kindInClass at closes
  split at closes
  · rfl
  · split at closes <;> cases closes
  · split at closes <;> cases closes
  · cases closes

/-- A scan stays outside behind any token that opens nothing. -/
theorem after_outside (noBracket : kind ≠ .leftBracket) (noBrace : kind ≠ .leftBrace) :
    Context.outside.after kind start c = .outside := by
  cases kind <;> first | rfl | contradiction

/-- Braces go on behind any token but the closing one. -/
theorem after_inBounds (inside : kind ≠ .rightBrace) :
    Context.inBounds.after kind start c = .inBounds := by
  cases kind <;> first | rfl | contradiction

/-- A class goes on behind any token but its bracket. -/
theorem after_inClass {opened : Nat} {previous : Char} (inside : kind ≠ .rightBracket) :
    (Context.inClass opened previous).after kind start c = .inClass opened c := by
  cases kind <;> first | rfl | contradiction

theorem faithful_escaped (c : Char) (position : Nat) :
    Token.Faithful ⟨kindEscaped c, c, position⟩ := by
  unfold kindEscaped
  split <;> exact Token.faithful_iff.mpr ⟨nofun, nofun, nofun, nofun⟩

theorem faithful_of_kind (context : Context) (position : Nat) (c : Char) (next : Option Char) :
    Token.Faithful ⟨context.kind position c next, c, position⟩ := by
  rw [Token.faithful_iff]
  cases context with
  | outside =>
    simp only [Context.kind]
    unfold kindOutside
    split <;> simp
  | inClass opened previous =>
    simp only [Context.kind]
    unfold kindInClass
    split
    · simp
    · split <;> simp
    · split <;> simp
    · simp
  | inBounds =>
    simp only [Context.kind]
    unfold kindInBounds
    split
    · next digit => simp [digit]
    · split <;> simp

/-- A text, from a place and in a context, is cut into tokens, and no class is open behind it. -/
inductive Cuts : Context → Nat → List Char → List Token → Prop where
  | nil {context : Context} (start : Nat)
      (noClass : ∀ opened previous, context ≠ .inClass opened previous) : Cuts context start [] []
  | escaped {context : Context} {start : Nat} {c : Char} {text : List Char} {ts : List Token}
      (rest : Cuts (context.afterEscape c) (start + 2) text ts) :
      Cuts context start ('\\' :: c :: text) (⟨kindEscaped c, c, start⟩ :: ts)
  | plain {context : Context} {start : Nat} {c : Char} {text : List Char} {ts : List Token}
      (noBackslash : c ≠ '\\')
      (rest : Cuts (context.after (context.kind start c text.head?) start c) (start + 1) text ts) :
      Cuts context start (c :: text) (⟨context.kind start c text.head?, c, start⟩ :: ts)

/-- A character that is neither a backslash at the end nor one with a character behind it is none
at all. -/
theorem ne_backslash (single : c = '\\' → text = [] → False)
    (escaped : ∀ d rest, c = '\\' → text = d :: rest → False) : c ≠ '\\' := by
  rintro rfl
  cases text with
  | nil => exact single rfl rfl
  | cons d rest => exact escaped d rest rfl rfl

/-- A scan that succeeds cuts its text into the tokens that come behind the earlier ones. -/
theorem cuts_of_scanFrom (cut : scanFrom context start done text = .ok ts) :
    ∃ us, ts = done.reverse ++ us ∧ Cuts context start text us := by
  fun_induction scanFrom context start done text with
  | case1 => cases cut
  | case2 start done context outside =>
    obtain rfl := Except.ok.inj cut
    exact ⟨[], (List.append_nil _).symm, .nil start outside⟩
  | case3 => cases cut
  | case4 context start done c rest ih =>
    obtain ⟨us, rfl, cuts⟩ := ih cut
    exact ⟨_ :: us, by rw [List.reverse_cons, List.append_assoc]; rfl, .escaped cuts⟩
  | case5 context start done c rest single escaped kind ih =>
    obtain ⟨us, rfl, cuts⟩ := ih cut
    exact ⟨_ :: us, by rw [List.reverse_cons, List.append_assoc]; rfl,
      .plain (ne_backslash single escaped) cuts⟩

theorem cuts_of_scan (cut : scan pattern = .ok ts) : Cuts .outside 0 pattern.toList ts := by
  obtain ⟨us, rfl, cuts⟩ := cuts_of_scanFrom cut
  exact cuts

theorem Cuts.faithful (cuts : Cuts context start text ts) : ∀ t ∈ ts, t.Faithful := by
  induction cuts with
  | nil => exact nofun
  | escaped _ ih => exact List.forall_mem_cons.mpr ⟨faithful_escaped _ _, ih⟩
  | plain _ _ ih => exact List.forall_mem_cons.mpr ⟨faithful_of_kind _ _ _ _, ih⟩

theorem Cuts.value_mem (cuts : Cuts context start text ts) : ∀ t ∈ ts, t.value ∈ text := by
  induction cuts with
  | nil => exact nofun
  | escaped _ ih =>
    refine List.forall_mem_cons.mpr ⟨List.mem_cons_of_mem _ List.mem_cons_self, fun t member => ?_⟩
    exact List.mem_cons_of_mem _ (List.mem_cons_of_mem _ (ih t member))
  | plain _ _ ih =>
    exact List.forall_mem_cons.mpr
      ⟨List.mem_cons_self, fun t member => List.mem_cons_of_mem _ (ih t member)⟩

/-- A token carries a character of its pattern. -/
theorem value_mem_of_scan (cut : scan pattern = .ok ts) : ∀ t ∈ ts, t.value ∈ pattern.toList :=
  (cuts_of_scan cut).value_mem

/-- A token that is cut from text carries the character that its kind stands for. -/
theorem faithful_of_scan (cut : scan pattern = .ok ts) : ∀ t ∈ ts, t.Faithful :=
  (cuts_of_scan cut).faithful

end FullMatch.Token
