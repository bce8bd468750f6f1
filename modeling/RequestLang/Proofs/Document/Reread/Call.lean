import RequestLang.Proofs.Document.Lexemes
import RequestLang.Proofs.Token.Lexeme

/-! Reading the lexemes of canonical texts back: texts, calls and their arguments. -/
namespace RequestLang
open Lexeme

/-- The quotes of a literal do not belong to its value. -/
theorem inner_quoteChars (cs : List Char) :
    Text.Quoted.decode (Text.Quoted.inner 1 (quoteChars cs)) = cs := by
  have hinner (q : Char) (es : List Char) : Text.Quoted.inner 1 (q :: es ++ [q]) = es := by
    simp [Text.Quoted.inner]
  unfold quoteChars
  split
  · rw [hinner, Text.Quoted.decode_encode (.inr rfl)]
  · rw [hinner, Text.Quoted.decode_encode (.inl rfl)]

theorem literal_quoted (v : String) (k : Nat) :
    (⟨.string, quoteText v, k⟩ : Token).literal.value = v := by
  simp [Token.literal, quoteText, inner_quoteChars]

@[simp] theorem textValue_quoted (b ts : List Token) (v : String) (k n : Nat) (what : String) :
    Cursor.textValue ⟨b, ⟨.string, quoteText v, k⟩ :: ts, n⟩ what =
      .ok (v, ⟨⟨.string, quoteText v, k⟩ :: b, ts, n⟩) := by
  rw [Cursor.textValue, Cursor.expect_cons _ _ _ _ (by simp [Token.isString])]
  simp [literal_quoted]

section
attribute [local simp] mark op word quoted blank lineEnd Token.isIgnorable Token.isPunct Token.isOp
  Token.isString

namespace Argument

theorem readWithin_of_isIgnorable {t : Token} (ht : t.isIgnorable) (m : Nat) (b ts : List Token)
    (n : Nat) : readWithin m ⟨b, t :: ts, n⟩ = readWithin m ⟨t :: b, ts, n⟩ := by
  cases m with
  | zero => rfl
  | succ m => rw [readWithin, readWithin, Cursor.skip_cons, if_pos ht]

/-- Arguments up to the closing parenthesis. -/
theorem readWithin_lexemes (args : List Argument) {m : Nat} (hm : args.length < m) {us : List Token}
    (hus : Spells us (List.intercalate [mark ",", blank 1] (args.map lexemes) ++ [mark ")"]))
    (b ts : List Token) (n : Nat) :
    ∃ b', readWithin m ⟨b, us ++ ts, n⟩ = .ok (args, ⟨b', ts, n⟩) := by
  induction args generalizing m b us with
  | nil =>
    obtain ⟨m, rfl⟩ := Nat.exists_eq_succ_of_ne_zero (Nat.ne_of_gt hm)
    obtain ⟨k, rfl⟩ := spells_singleton.mp hus
    simp [readWithin]
  | cons a args ih =>
    obtain ⟨m, rfl⟩ := Nat.exists_eq_succ_of_ne_zero (Nat.ne_zero_of_lt hm)
    obtain ⟨name, value⟩ := a
    cases args with
    | nil =>
      cases name with
      | none =>
        simp only [List.map_cons, List.map_nil, List.intercalate_singleton, lexemes, List.cons_append,
          List.nil_append, spells_cons, spells_nil] at hus
        obtain ⟨k₁, _, rfl, k₂, _, rfl, rfl⟩ := hus
        simp [readWithin, readName, isNamed]
      | some name =>
        simp only [List.map_cons, List.map_nil, List.intercalate_singleton, lexemes, List.cons_append,
          List.nil_append, spells_cons, spells_nil] at hus
        obtain ⟨k₁, _, rfl, k₂, _, rfl, k₃, _, rfl, k₄, _, rfl, rfl⟩ := hus
        simp [readWithin, readName, isNamed]
    | cons a' args =>
      rw [List.map_cons, List.map_cons, List.intercalate_cons_cons, List.append_assoc, List.append_assoc,
        ← List.map_cons] at hus
      obtain ⟨us₁, _, rfl, hus₁, hrest⟩ := spells_append.mp hus
      obtain ⟨_, us₂, rfl, hsep, hus₂⟩ := spells_append.mp hrest
      simp only [spells_cons, spells_nil] at hsep
      obtain ⟨k₁, _, rfl, k₂, _, rfl, rfl⟩ := hsep
      cases name with
      | none =>
        obtain ⟨k₃, rfl⟩ := spells_singleton.mp hus₁
        simp [readWithin, readName, isNamed]
        rw [readWithin_of_isIgnorable (by rfl)]
        obtain ⟨b', hb'⟩ := ih (Nat.lt_of_succ_lt_succ hm) hus₂ _
        exact ⟨b', by rw [hb']; rfl⟩
      | some name =>
        simp only [lexemes, spells_cons, spells_nil] at hus₁
        obtain ⟨k₃, _, rfl, k₄, _, rfl, k₅, _, rfl, rfl⟩ := hus₁
        simp [readWithin, readName, isNamed]
        rw [readWithin_of_isIgnorable (by rfl)]
        obtain ⟨b', hb'⟩ := ih (Nat.lt_of_succ_lt_succ hm) hus₂ _
        exact ⟨b', by rw [hb']; rfl⟩

end Argument

theorem length_le_intercalate {α : Type} (sep : List α) {xs : List (List α)} (h : ∀ x ∈ xs, x ≠ []) :
    xs.length ≤ (List.intercalate sep xs).length := by
  induction xs with
  | nil => simp
  | cons x xs ih =>
    have hx : 0 < x.length := List.length_pos_iff.mpr (h x (by simp))
    cases xs with
    | nil => simpa using Nat.succ_le_of_lt hx
    | cons y ys =>
      have := ih fun z hz => h z (by simp [hz])
      simp only [List.intercalate_cons_cons, List.length_append, List.length_cons] at this ⊢
      omega

/-- A call is read back if its arguments make what it was written for. -/
theorem readCall_call {α : Type} {make : Token → List Argument → Except Fault α} {name : String}
    {args : List Argument} {x : α} (hmake : ∀ k, make ⟨.identifier, name, k⟩ args = .ok x)
    {us : List Token} (hus : Spells us (call (word name) (args.map Argument.lexemes)))
    (b ts : List Token) (n : Nat) :
    ∃ b', Cursor.readCall ⟨b, us ++ ts, n⟩ make = .ok (x, ⟨b', ts, n⟩) := by
  rw [call, List.cons_append, List.cons_append, spells_cons] at hus
  obtain ⟨k₁, _, rfl, hrest⟩ := hus
  obtain ⟨k₂, us, rfl, hargs⟩ := spells_cons.mp hrest
  have hlen : args.length < (us ++ ts).length + 1 := by
    have hne : ∀ x ∈ args.map Argument.lexemes, x ≠ [] := by
      intro x hx
      obtain ⟨a, -, rfl⟩ := List.mem_map.mp hx
      unfold Argument.lexemes
      split <;> simp
    have := length_le_intercalate [mark ",", blank 1] hne
    rw [List.length_append, hargs.length, List.length_append]
    rw [List.length_map] at this
    omega
  obtain ⟨b', hb'⟩ := Argument.readWithin_lexemes args hlen hargs
    (⟨.punctuation, "(", k₂⟩ :: ⟨.identifier, name, k₁⟩ :: b) ts n
  refine ⟨b', ?_⟩
  rw [List.length_append] at hb'
  simp only [List.cons_append]
  rw [Cursor.readCall, Cursor.expect_cons _ _ _ _ (by rfl)]
  simp [Argument.readAll, Cursor.expectPunct_cons, hb', hmake]

theorem Auth.ofArguments_arguments (a : Auth) (k : Nat) :
    ofArguments ⟨.identifier, a.callName, k⟩ a.arguments = .ok a := by
  cases a with
  | basic | digest | ntlm =>
    simp [ofArguments, callName, arguments, Argument.plain, Argument.pickRequired, Argument.pick]
  | hawk id key algorithm =>
    cases algorithm <;>
      simp [ofArguments, callName, arguments, Argument.plain, Argument.pickRequired, Argument.pick]
  | aws accessId secretKey service region sessionToken =>
    cases service <;> cases region <;> cases sessionToken <;>
      simp [ofArguments, callName, arguments, Argument.named, Argument.pickRequired, Argument.pick]
  | azure flow =>
    cases flow with
    | secret tenant client secret scope =>
      cases scope <;>
        simp [ofArguments, callName, arguments, Argument.named, Argument.pickRequired, Argument.pick]
    | certificate tenant client path password scope =>
      cases password <;> cases scope <;>
        simp [ofArguments, callName, arguments, Argument.named, Argument.pickRequired, Argument.pick]
    | cli scope =>
      cases scope <;> simp [ofArguments, callName, arguments, Argument.named, Argument.pick]
    | device scope =>
      cases scope <;> simp [ofArguments, callName, arguments, Argument.named, Argument.pick]

theorem Certificate.ofArguments_arguments (c : Certificate) (k : Nat) :
    ofArguments ⟨.identifier, c.callName, k⟩ c.arguments = .ok c := by
  cases c with
  | pem certificate key =>
    cases key <;>
      simp [ofArguments, callName, arguments, Argument.named, Argument.pickRequired, Argument.pick]
  | p12 file password =>
    cases password <;>
      simp [ofArguments, callName, arguments, Argument.named, Argument.pickRequired, Argument.pick]

end

end RequestLang
