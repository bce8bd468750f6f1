import RequestLang.Document.Clause
import RequestLang.Proofs.Token.Scanned

/-! Texts that differ in their comments: tokens, and what a cursor sees of them. -/
namespace RequestLang

/-- Steps that both fail, or give results that belong together. -/
inductive Tracks {ε α β : Type} (R : α → β → Prop) : Except ε α → Except ε β → Prop
  | ok {a : α} {b : β} (h : R a b) : Tracks R (.ok a) (.ok b)
  | error (e f : ε) : Tracks R (.error e) (.error f)

namespace Tracks
variable {ε α β α' β' : Type} {R : α → β → Prop} {S : α' → β' → Prop}

theorem bind {x : Except ε α} {y : Except ε β} {f : α → Except ε α'} {g : β → Except ε β'} (h : Tracks R x y)
    (hf : ∀ a b, R a b → Tracks S (f a) (g b)) : Tracks S (x >>= f) (y >>= g) := by
  cases h with
  | ok h => exact hf _ _ h
  | error e f => exact .error e f

theorem mono {R' : α → β → Prop} {x : Except ε α} {y : Except ε β} (h : Tracks R x y) (hR : ∀ a b, R a b → R' a b) :
    Tracks R' x y := by
  cases h with
  | ok h => exact .ok (hR _ _ h)
  | error e f => exact .error e f

end Tracks

/-- The same token, or two comments of the same sort. -/
structure Token.Kin (t u : Token) : Prop where
  kind : t.kind = u.kind
  block : t.isBlockComment = u.isBlockComment
  text (h : t.kind ≠ .comment) : t.text = u.text

namespace Token.Kin
variable {t u : Token}

/-- Looking into tokens of a kind does not look into comments. -/
theorem ofKind (h : t.Kin u) {kind : TokenKind} (hkind : kind ≠ .comment) (p : String → Bool) :
    (t.kind == kind && p t.text) = (u.kind == kind && p u.text) := by
  rw [← h.kind]
  by_cases ht : t.kind = .comment
  · rw [ht, beq_eq_false_iff_ne.mpr hkind.symm, Bool.false_and, Bool.false_and]
  · rw [h.text ht]

theorem isPunct (h : t.Kin u) (s : String) : t.isPunct s = u.isPunct s := h.ofKind (by decide) (· == s)

theorem isOp (h : t.Kin u) (s : String) : t.isOp s = u.isOp s := h.ofKind (by decide) (· == s)

theorem isKeyword (h : t.Kin u) (s : String) : t.isKeyword s = u.isKeyword s := h.ofKind (by decide) (· == s)

theorem isString (h : t.Kin u) : t.isString = u.isString := by rw [Token.isString, Token.isString, h.kind]

theorem isIgnorable (h : t.Kin u) : t.isIgnorable = u.isIgnorable := by
  rw [Token.isIgnorable, Token.isIgnorable, h.kind]

theorem isOperand (h : t.Kin u) : JsonTerm.isOperand t = JsonTerm.isOperand u := by
  rw [JsonTerm.isOperand, JsonTerm.isOperand, h.kind]

theorem isArithmetic (h : t.Kin u) : JsonTerm.isArithmetic t = JsonTerm.isArithmetic u :=
  h.ofKind (by decide) (["+", "-", "*", "/", "%", "**"].contains ·)

theorem literal (h : t.Kin u) (ht : t.kind ≠ .comment) : t.literal = u.literal := by
  rw [Token.literal, Token.literal, h.kind, h.text ht]

end Token.Kin

namespace Cursor

/-- The tokens of two texts ahead, which are the same but for the comments. -/
structure Kin (c d : Cursor) : Prop where
  ahead : List.Forall₂ Token.Kin c.ahead d.ahead
  left : Scanned c.ahead
  right : Scanned d.ahead

/-- Results with the cursors behind them. -/
def Paired {α β : Type} (R : α → β → Prop) (a : α × Cursor) (b : β × Cursor) : Prop := R a.1 b.1 ∧ a.2.Kin b.2

namespace Kin
variable {c d : Cursor}

theorem length (h : c.Kin d) : c.ahead.length = d.ahead.length := h.ahead.length_eq

theorem drop (h : c.Kin d) (n : Nat) (b b' : List Token) (size size' : Nat) :
    (⟨b, c.ahead.drop n, size⟩ : Cursor).Kin ⟨b', d.ahead.drop n, size'⟩ :=
  ⟨List.forall₂_drop n h.ahead, Scanned.of_append ((List.take_append_drop n c.ahead).symm ▸ h.left),
    Scanned.of_append ((List.take_append_drop n d.ahead).symm ▸ h.right)⟩

theorem advance (h : c.Kin d) : c.advance.Kin d.advance := by
  obtain ⟨b, ts, n⟩ := c
  obtain ⟨b', us, n'⟩ := d
  obtain ⟨hahead, hleft, hright⟩ := h
  dsimp only at hahead hleft hright
  cases hahead with
  | nil => exact ⟨.nil, hleft, hright⟩
  | cons _ htail => exact ⟨htail, hleft.cons.2.2, hright.cons.2.2⟩

theorem dropWhile {ts us : List Token} {p : Token → Bool} (hp : ∀ t u, t.Kin u → p t = p u)
    (h : List.Forall₂ Token.Kin ts us) : List.Forall₂ Token.Kin (ts.dropWhile p) (us.dropWhile p) := by
  induction h with
  | nil => exact .nil
  | cons htu htail ih =>
    rw [List.dropWhile_cons, List.dropWhile_cons, hp _ _ htu]
    split
    · exact ih
    · exact .cons htu htail

theorem takeWhile {ts us : List Token} {p : Token → Bool} (hp : ∀ t u, t.Kin u → p t = p u)
    (h : List.Forall₂ Token.Kin ts us) : List.Forall₂ Token.Kin (ts.takeWhile p) (us.takeWhile p) := by
  induction h with
  | nil => exact .nil
  | cons htu _ ih =>
    rw [List.takeWhile_cons, List.takeWhile_cons, hp _ _ htu]
    split
    · exact .cons htu ih
    · exact .nil

theorem skipWhile (h : c.Kin d) {p : Token → Bool} (hp : ∀ t u, t.Kin u → p t = p u) :
    (c.skipWhile p).Kin (d.skipWhile p) := by
  refine ⟨dropWhile hp h.ahead, ?_, ?_⟩
  · exact Scanned.of_append ((List.takeWhile_append_dropWhile (p := p) (l := c.ahead)).symm ▸ h.left)
  · exact Scanned.of_append ((List.takeWhile_append_dropWhile (p := p) (l := d.ahead)).symm ▸ h.right)

theorem skip (h : c.Kin d) : c.skip.Kin d.skip := h.skipWhile fun _ _ htu => htu.isIgnorable

theorem skipInline (h : c.Kin d) : c.skipInline.Kin d.skipInline :=
  h.skipWhile fun _ _ htu => by rw [htu.kind, htu.block]

theorem find? {ts us : List Token} {p : Token → Bool} (hp : ∀ t u, t.Kin u → p t = p u)
    (h : List.Forall₂ Token.Kin ts us) : Option.Rel Token.Kin (ts.find? p) (us.find? p) := by
  induction h with
  | nil => exact .none
  | cons htu _ ih =>
    rw [List.find?_cons, List.find?_cons, hp _ _ htu]
    split
    · exact .some htu
    · exact ih

theorem head? {ts us : List Token} (h : List.Forall₂ Token.Kin ts us) : Option.Rel Token.Kin ts.head? us.head? := by
  cases h with
  | nil => exact .none
  | cons htu _ => exact .some htu

theorem tail {ts us : List Token} (h : List.Forall₂ Token.Kin ts us) : List.Forall₂ Token.Kin ts.tail us.tail := by
  cases h with
  | nil => exact .nil
  | cons _ htail => exact htail

theorem token? (h : c.Kin d) : Option.Rel Token.Kin c.token? d.token? := head? h.ahead

theorem next? (h : c.Kin d) : Option.Rel Token.Kin c.next? d.next? := head? (tail h.ahead)

theorem nextSignificant? (h : c.Kin d) : Option.Rel Token.Kin c.nextSignificant? d.nextSignificant? :=
  find? (fun _ _ htu => by rw [htu.isIgnorable]) (tail h.ahead)

/-- A test that does not look into comments comes out the same. -/
theorem test {x y : Option Token} (h : Option.Rel Token.Kin x y) {p : Token → Bool} (hp : ∀ t u, t.Kin u → p t = p u) :
    (x.map p).getD false = (y.map p).getD false := by
  cases h with
  | none => rfl
  | some htu => exact hp _ _ htu

theorem isPunct (h : c.Kin d) (s : String) : c.isPunct s = d.isPunct s :=
  test h.token? fun _ _ htu => htu.isPunct s

theorem isKeyword (h : c.Kin d) (s : String) : c.isKeyword s = d.isKeyword s :=
  test h.token? fun _ _ htu => htu.isKeyword s

theorem opensHeader (h : c.Kin d) : c.opensHeader = d.opensHeader :=
  test h.nextSignificant? fun _ _ htu => htu.isPunct ":"

theorem atEnd (h : c.Kin d) : c.atEnd = d.atEnd := by
  rw [Cursor.atEnd, Cursor.atEnd, Bool.eq_iff_iff, List.isEmpty_iff_length_eq_zero, List.isEmpty_iff_length_eq_zero, h.length]

/-- What stands at a cursor after blanks and comments is no comment. -/
theorem kind_of_skip {c : Cursor} {t : Token} (h : c.skip.token? = some t) : t.kind ≠ .comment := by
  rw [skip_token?] at h
  have := List.find?_some h
  rintro hk
  simp [Token.isIgnorable, hk] at this

theorem expect (h : c.Kin d) {p : Token → Bool} (hp : ∀ t u, t.Kin u → p t = p u) (what : String) :
    Tracks (fun t u => t.Kin u ∧ c.token? = some t ∧ p t) (c.expect p what) (d.expect p what) := by
  rw [Cursor.expect, Cursor.expect]
  have htoken := h.token?
  generalize c.token? = x, d.token? = y at htoken ⊢
  cases htoken with
  | none => exact .error _ _
  | some htu =>
    dsimp only
    rw [← hp _ _ htu]
    split
    · exact .ok ⟨htu, rfl, ‹_›⟩
    · exact .error _ _

theorem expectPunct (h : c.Kin d) (mark what : String) : Tracks Kin (c.expectPunct mark what) (d.expectPunct mark what) :=
  (h.expect (fun _ _ htu => htu.isPunct mark) what).bind fun _ _ _ => .ok h.advance

theorem textValue (h : c.Kin d) (what : String) : Tracks (Paired Eq) (c.textValue what) (d.textValue what) := by
  refine (h.expect (fun t u htu => by rw [htu.isString, htu.kind]) what).bind fun t u htu => .ok ⟨?_, h.advance⟩
  obtain ⟨hkin, -, ht⟩ := htu
  have hcomment : t.kind ≠ .comment := by
    intro hk
    simp [Token.isString, hk] at ht
  rw [hkin.kind, hkin.text hcomment, hkin.literal hcomment]

end Kin
end Cursor

section Paired
variable {ε α α' β β' : Type} {R : α → α' → Prop} {S : β → β' → Prop}

/-- After results that belong together, with the cursors behind them. -/
theorem Tracks.paired {x : Except ε (α × Cursor)} {y : Except ε (α' × Cursor)} {f : α × Cursor → Except ε β}
    {g : α' × Cursor → Except ε β'} (h : Tracks (Cursor.Paired R) x y)
    (hf : ∀ a b c d, R a b → c.Kin d → Tracks S (f (a, c)) (g (b, d))) : Tracks S (x >>= f) (y >>= g) :=
  h.bind fun a b hab => hf a.1 b.1 a.2 b.2 hab.1 hab.2

/-- After equal values. -/
theorem Tracks.value {x y : Except ε (α × Cursor)} {f : α × Cursor → Except ε β} {g : α × Cursor → Except ε β'}
    (h : Tracks (Cursor.Paired Eq) x y) (hf : ∀ a c d, c.Kin d → Tracks S (f (a, c)) (g (a, d))) :
    Tracks S (x >>= f) (y >>= g) :=
  h.paired fun a _ c d hab hcd => hab ▸ hf a c d hcd

end Paired

end RequestLang
