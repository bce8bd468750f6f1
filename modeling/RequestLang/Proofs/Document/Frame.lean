import RequestLang.Document.Reader
import RequestLang.Proofs.Steps

/-! Readers move over the tokens and leave them as they are. -/
namespace RequestLang
namespace Cursor

/-- All tokens, those already read and those ahead. -/
def all (c : Cursor) : List Token := c.behind.reverse ++ c.ahead

/-- One cursor comes from another by stepping over tokens. -/
def Reaches (c c' : Cursor) : Prop :=
  ∃ run, c.ahead = run ++ c'.ahead ∧ c'.behind = run.reverse ++ c.behind ∧ c'.size = c.size

variable {c c' c₁ : Cursor}

namespace Reaches

@[grind .] theorem refl (c : Cursor) : c.Reaches c := ⟨[], rfl, rfl, rfl⟩

@[grind →] theorem trans (h : c.Reaches c₁) (h' : c₁.Reaches c') : c.Reaches c' := by
  obtain ⟨run, hahead, hbehind, hsize⟩ := h
  obtain ⟨run', hahead', hbehind', hsize'⟩ := h'
  refine ⟨run ++ run', ?_, ?_, hsize'.trans hsize⟩
  · rw [hahead, hahead', List.append_assoc]
  · rw [hbehind', hbehind, List.reverse_append, List.append_assoc]

theorem all (h : c.Reaches c') : c'.all = c.all := by
  obtain ⟨run, hahead, hbehind, -⟩ := h
  rw [Cursor.all, Cursor.all, hahead, hbehind, List.reverse_append, List.reverse_reverse, List.append_assoc]

end Reaches

theorem reaches_skipWhile (p : Token → Bool) (c : Cursor) : c.Reaches (c.skipWhile p) :=
  ⟨c.ahead.takeWhile p, List.takeWhile_append_dropWhile.symm, rfl, rfl⟩

theorem reaches_advance (c : Cursor) : c.Reaches c.advance := by
  obtain ⟨b, ts, n⟩ := c
  cases ts with
  | nil => exact .refl _
  | cons t ts => exact ⟨[t], rfl, rfl, rfl⟩

theorem reaches_skip (c : Cursor) : c.Reaches c.skip := c.reaches_skipWhile _

theorem reaches_skipInline (c : Cursor) : c.Reaches c.skipInline := c.reaches_skipWhile _

namespace Reaches

@[grind →] theorem of_advance (h : c.advance.Reaches c') : c.Reaches c' := c.reaches_advance.trans h

@[grind →] theorem of_skip (h : c.skip.Reaches c') : c.Reaches c' := c.reaches_skip.trans h

@[grind →] theorem of_skipInline (h : c.skipInline.Reaches c') : c.Reaches c' := c.reaches_skipInline.trans h

@[grind .] theorem advance (h : c.Reaches c') : c.Reaches c'.advance := h.trans c'.reaches_advance

theorem advance_advance (h : c.Reaches c') : c.advance.Reaches c'.advance := by
  obtain ⟨b, ts, n⟩ := c
  obtain ⟨b', ts', n'⟩ := c'
  obtain ⟨run, hahead, hbehind, hsize⟩ := h
  dsimp only at hahead hbehind hsize
  subst hahead hbehind hsize
  cases run with
  | nil => exact .refl _
  | cons t run => exact advance ⟨run, rfl, by simp [Cursor.advance], rfl⟩

@[grind .] theorem skip (h : c.Reaches c') : c.Reaches c'.skip := h.trans c'.reaches_skip

@[grind .] theorem skipInline (h : c.Reaches c') : c.Reaches c'.skipInline := h.trans c'.reaches_skipInline

end Reaches

theorem expect_eq_ok {p : Token → Bool} {what : String} {t : Token} :
    c.expect p what = .ok t ↔ c.token? = some t ∧ p t := by
  unfold expect
  cases c.token? with
  | none => simp
  | some u =>
    by_cases hu : p u
    · simp only [hu, if_true, Except.ok.injEq, Option.some.injEq]
      exact ⟨fun h => ⟨h, h ▸ hu⟩, And.left⟩
    · simp only [hu, if_false, reduceCtorEq, Option.some.injEq, false_iff, not_and, Bool.false_eq_true]
      rintro rfl
      exact hu

theorem expectPunct_eq_ok {s what : String} :
    c.expectPunct s what = .ok c' ↔ c.isPunct s ∧ c' = c.advance := by
  rw [expectPunct, bind_eq_ok]
  constructor
  · rintro ⟨t, ht, h⟩
    obtain ⟨ht, hp⟩ := expect_eq_ok.mp ht
    exact ⟨by simpa [isPunct, ht] using hp, (Except.ok.inj h).symm⟩
  · rintro ⟨hp, rfl⟩
    cases ht : c.token? with
    | none => simp [isPunct, ht] at hp
    | some t => exact ⟨t, expect_eq_ok.mpr ⟨ht, by simpa [isPunct, ht] using hp⟩, rfl⟩

@[grind →] theorem reaches_expectPunct {s what : String} (h : c.expectPunct s what = .ok c') : c.Reaches c' := by
  obtain ⟨_, -, h⟩ := bind_eq_ok.mp h
  cases h
  exact c.reaches_advance

/-- A value takes one token. -/
theorem textValue_eq_ok {what v : String} : c.textValue what = .ok (v, c') ↔
    ∃ t, c.token? = some t ∧ (t.isString ∨ t.kind = .placeholder) ∧
      v = (if t.kind = .placeholder then t.text else t.literal.value) ∧ c' = c.advance := by
  simp only [textValue, bind_eq_ok, expect_eq_ok, pure_eq_ok, Except.ok.injEq, Prod.mk.injEq, Bool.or_eq_true,
    beq_iff_eq]
  constructor
  · rintro ⟨t, ⟨ht, hkind⟩, rfl, rfl⟩
    exact ⟨t, ht, hkind, rfl, rfl⟩
  · rintro ⟨t, ht, hkind, rfl, rfl⟩
    exact ⟨t, ⟨ht, hkind⟩, rfl, rfl⟩

@[grind →] theorem reaches_textValue {what v : String} (h : c.textValue what = .ok (v, c')) : c.Reaches c' := by
  obtain ⟨_, -, -, -, rfl⟩ := textValue_eq_ok.mp h
  exact c.reaches_advance

end Cursor
open Cursor
variable {c c' : Cursor}

attribute [local grind =] bind_eq_ok pure_eq_ok throw_eq_error

theorem Argument.reaches_readName (c : Cursor) : c.Reaches (readName c).2 := by
  unfold readName
  split <;> grind

@[grind →] theorem Argument.reaches_of_readName (h : (readName c).2.Reaches c') : c.Reaches c' :=
  (reaches_readName c).trans h

@[grind →] theorem Argument.reaches_readWithin {n : Nat} {args : List Argument}
    (h : readWithin n c = .ok (args, c')) : c.Reaches c' := by
  induction n generalizing c args c' with
  | zero => cases h
  | succ n ih =>
    simp only [readWithin] at h
    grind

@[grind →] theorem Argument.reaches_readAll {args : List Argument} (h : readAll c = .ok (args, c')) :
    c.Reaches c' := by
  simp only [readAll] at h
  grind

@[grind →] theorem Cursor.reaches_readCall {α : Type} {make : Token → List Argument → Except Fault α} {x : α}
    (h : c.readCall make = .ok (x, c')) : c.advance.Reaches c' := by
  simp only [Cursor.readCall] at h
  grind

namespace PayloadTerm

@[grind →] theorem reaches_readMime {sep : String} {mime : Option String} (h : readMime sep c = .ok (mime, c')) :
    c.Reaches c' := by
  simp only [readMime] at h
  grind

theorem reaches_chunksWithin (n : Nat) (c : Cursor) : c.Reaches (chunksWithin n c).2 := by
  induction n generalizing c with
  | zero => exact .refl c
  | succ n ih =>
    simp only [chunksWithin]
    cases c.skip.token? with
    | none => exact c.reaches_skip
    | some t =>
      dsimp only
      split
      · exact c.reaches_skip.trans (c.skip.reaches_advance.trans (ih _))
      · exact c.reaches_skip

@[grind →] theorem reaches_of_chunksWithin {n : Nat} (h : (chunksWithin n c).2.Reaches c') : c.Reaches c' :=
  (reaches_chunksWithin n c).trans h

@[grind →] theorem reaches_readRaw {p : PayloadTerm} (h : readRaw c = .ok (p, c')) : c.Reaches c' := by
  simp only [readRaw] at h
  grind

@[grind →] theorem reaches_partsWithin {n : Nat} {parts : List PartTerm} (h : partsWithin n c = .ok (parts, c')) :
    c.Reaches c' := by
  induction n generalizing c parts c' with
  | zero => simp only [partsWithin] at h; grind
  | succ n ih =>
    simp only [partsWithin] at h
    grind

end PayloadTerm

namespace JsonTerm

@[grind →] theorem reaches_readArithmetic {t : JsonTerm} (h : readArithmetic c = .ok (t, c')) : c.Reaches c' := by
  simp only [readArithmetic] at h
  split at h
  · cases h
  · obtain ⟨-, rfl⟩ := Prod.mk.inj (Except.ok.inj h)
    exact ⟨_, (List.take_append_drop _ _).symm, rfl, rfl⟩

theorem reaches_read_aux (n : Nat) :
    (∀ {c c' t}, readWithin n c = .ok (t, c') → c.Reaches c') ∧
    (∀ {c c' ms}, readMembers n c = .ok (ms, c') → c.Reaches c') ∧
    (∀ {c c' ts}, readItems n c = .ok (ts, c') → c.Reaches c') := by
  induction n with
  | zero => simp [readWithin, readMembers, readItems]
  | succ n ih =>
    obtain ⟨ih₁, ih₂, ih₃⟩ := ih
    refine ⟨fun {c c' t} h => ?_, fun {c c' ms} h => ?_, fun {c c' ts} h => ?_⟩
    · simp only [readWithin] at h
      grind
    · simp only [readMembers] at h
      grind
    · simp only [readItems] at h
      grind

@[grind →] theorem reaches_read {t : JsonTerm} (h : read c = .ok (t, c')) : c.Reaches c' :=
  (reaches_read_aux _).1 h

end JsonTerm

namespace PayloadTerm

@[grind →] theorem reaches_readBody {call : String} {p : PayloadTerm} (h : readBody call c = .ok (p, c')) :
    c.Reaches c' := by
  simp only [readBody] at h
  grind

@[grind →] theorem reaches_read {p : PayloadTerm} (h : read c = .ok (p, c')) : c.advance.Reaches c' := by
  simp only [read] at h
  grind

end PayloadTerm

@[grind →] theorem Cursor.reaches_barePath {path : String} (h : c.barePath = .ok (path, c')) : c.Reaches c' := by
  unfold Cursor.barePath at h
  split at h
  · exact Cursor.reaches_textValue h
  · dsimp only at h
    split at h
    · cases h
    · obtain ⟨-, rfl⟩ := Prod.mk.inj (Except.ok.inj h)
      exact ⟨_, (List.prefix_iff_eq_append.mp (List.takeWhile_prefix _)).symm, rfl, rfl⟩

namespace Clause

/-- A clause takes its first token and goes on from there. -/
@[grind →] theorem reaches_read {kind : ClauseKind} {x : Clause} (h : read kind c = .ok (x, c')) :
    c.advance.Reaches c' := by
  cases kind <;> simp only [read, readQuery, readHeader, readOutput, readScript] at h <;> grind

theorem eq_payload_of_read {kind : ClauseKind} {p : PayloadTerm} (h : read kind c = .ok (.payload p, c')) :
    kind = .payload := by
  cases kind with
  | payload => rfl
  | script =>
    obtain ⟨block, -, h⟩ := bind_eq_ok.mp h
    dsimp only at h
    split at h <;> cases h
  | auth | certificate | redirect =>
    obtain ⟨⟨a, c₁⟩, -, h⟩ := bind_eq_ok.mp h
    cases h
  | query =>
    obtain ⟨⟨k, c₁⟩, -, h⟩ := bind_eq_ok.mp h
    obtain ⟨t, -, h⟩ := bind_eq_ok.mp h
    obtain ⟨⟨v, c₂⟩, -, h⟩ := bind_eq_ok.mp h
    cases h
  | header =>
    obtain ⟨t, -, h⟩ := bind_eq_ok.mp h
    obtain ⟨⟨v, c₂⟩, -, h⟩ := bind_eq_ok.mp h
    cases h
  | output =>
    obtain ⟨⟨path, c₁⟩, -, h⟩ := bind_eq_ok.mp h
    obtain ⟨c₂, -, h⟩ := bind_eq_ok.mp h
    cases h

end Clause

namespace Request

/-- A base may also stand behind the closing parenthesis of the name. -/
theorem readBase_eq_ok {r r' : Request} (h : (do
      let c ← c.expectPunct ")" "')'"
      if r.base.isNone && c.skipInline.isPunct ":" then
        let (base, c) ← c.skipInline.advance.skipInline.textValue "base request name"
        pure ({ r with base := some base }, c)
      else pure (r, c.skipInline)) = Except.ok (r', c')) :
    c.Reaches c' ∧ ∃ base, r' = { r with base } := by
  obtain ⟨c₁, h₁, h⟩ := bind_eq_ok.mp h
  have hclose : c.Reaches c₁.skipInline := (reaches_expectPunct h₁).skipInline
  split at h
  · obtain ⟨⟨base, c₂⟩, h₂, h⟩ := bind_eq_ok.mp h
    obtain ⟨rfl, rfl⟩ := Prod.mk.inj (Except.ok.inj h)
    exact ⟨hclose.trans (reaches_textValue h₂).of_skipInline.of_advance, some base, rfl⟩
  · obtain ⟨rfl, rfl⟩ := Prod.mk.inj (Except.ok.inj h)
    exact ⟨hclose, r.base, rfl⟩

/-- A name takes one token somewhere behind the tag. -/
theorem readName_eq_ok {r r' : Request} (h : r.readName c = .ok (r', c')) :
    ∃ name base c₁, c.advance.Reaches c₁ ∧ c₁.textValue "request name" = .ok (name, c₁.advance) ∧
      c₁.advance.Reaches c' ∧ r.name = none ∧
      r' = { r with
        name := some name, base, spans := { r.spans with name := some ⟨c₁.offset, c₁.advance.lastEnd⟩ } } := by
  simp only [readName] at h
  split at h
  · simp at h
  rename_i hnamed
  obtain ⟨c₁, h₁, h⟩ := bind_eq_ok.mp h
  obtain ⟨⟨name, c₂⟩, h₂, h⟩ := bind_eq_ok.mp h
  obtain ⟨-, -, -, -, rfl⟩ := textValue_eq_ok.mp h₂
  have hname : c.advance.Reaches c₁.skip := (reaches_expectPunct h₁).of_skipInline.skip
  have hnew : r.name = none := by simpa using hnamed
  split at h
  · obtain ⟨⟨base, c₃⟩, h₃, h⟩ := bind_eq_ok.mp h
    obtain ⟨hbase, base', rfl⟩ := readBase_eq_ok h
    exact ⟨name, base', c₁.skip, hname, h₂,
      (reaches_textValue h₃).of_skip.of_advance.of_skip.trans hbase.of_skip, hnew, rfl⟩
  · obtain ⟨hbase, base', rfl⟩ := readBase_eq_ok h
    exact ⟨name, base', c₁.skip, hname, h₂, hbase.of_skip, hnew, rfl⟩

/-- A tag gives a name, sets a flag or adds to the other tags. -/
theorem readTag_eq_ok {r r' : Request} {t : Token} (h : r.readTag t c = .ok (r', c')) :
    (t.text = "@name" ∧ r.readName c = .ok (r', c')) ∨
      (c' = c.advance ∧ ∃ flags, r' = { r with flags }) ∨
      ∃ value, t.text ∉ ["@name", "@clear", "@insecure", "@no-parent-script"] ∧ c.advance.Reaches c' ∧ r' = { r with
        tags := r.tags ++ [(String.ofList (t.text.toList.dropWhile (· == '@')), value)]
        spans := { r.spans with tags := r.spans.tags ++ [⟨t.start, c'.lastEnd⟩] } } := by
  unfold readTag at h
  split at h
  · exact .inl ⟨‹_›, h⟩
  · obtain ⟨rfl, rfl⟩ := Prod.mk.inj (Except.ok.inj h)
    exact .inr (.inl ⟨rfl, _, rfl⟩)
  · obtain ⟨rfl, rfl⟩ := Prod.mk.inj (Except.ok.inj h)
    exact .inr (.inl ⟨rfl, _, rfl⟩)
  · obtain ⟨rfl, rfl⟩ := Prod.mk.inj (Except.ok.inj h)
    exact .inr (.inl ⟨rfl, _, rfl⟩)
  · rename_i hname hclear hinsecure hparent
    dsimp only at h
    split at h
    · simp at h
    · obtain ⟨⟨value, c₁⟩, h₁, h⟩ := bind_eq_ok.mp h
      obtain ⟨c₂, h₂, h⟩ := bind_eq_ok.mp h
      obtain ⟨rfl, rfl⟩ := Prod.mk.inj (Except.ok.inj h)
      exact .inr (.inr ⟨value, by simpa using ⟨hname, hclear, hinsecure, hparent⟩,
        (reaches_textValue h₁).of_skip.of_advance.trans (reaches_expectPunct h₂).of_skip, rfl⟩)

@[grind →] theorem reaches_readTag {r r' : Request} {t : Token} (h : r.readTag t c = .ok (r', c')) :
    c.advance.Reaches c' := by
  obtain ⟨-, h⟩ | ⟨rfl, -⟩ | ⟨-, -, hvalue, -⟩ := readTag_eq_ok h
  · obtain ⟨-, -, c₁, h₁, -, h₂, -⟩ := readName_eq_ok h
    exact h₁.trans h₂.of_advance
  · exact .refl _
  · exact hvalue

@[grind →] theorem reaches_readTags {n : Nat} {r r' : Request} (h : readTags n r c = .ok (r', c')) :
    c.Reaches c' := by
  induction n generalizing r c with
  | zero => simp only [readTags] at h; grind
  | succ n ih => simp only [readTags] at h; grind

/-- The URL takes one token, the current one or one behind a method. -/
theorem readTarget_eq_ok {r r' : Request} (h : r.readTarget c = .ok (r', c')) :
    ∃ method url c₁, c.Reaches c₁ ∧ c₁.textValue "URL" = .ok (url, c') ∧ c' = c₁.advance ∧
      r' = { r with method, url, spans := { r.spans with url := ⟨c₁.offset, c'.lastEnd⟩ } } := by
  have hurl (method : Option Method) {c₁ : Cursor} (hreach : c.Reaches c₁) (h : (do
      let (url, c) ← c₁.textValue "URL"
      pure ({ r with method, url, spans := { r.spans with url := ⟨c₁.offset, c.lastEnd⟩ } }, c)) =
        Except.ok (r', c')) :
      ∃ method url c₁, c.Reaches c₁ ∧ c₁.textValue "URL" = .ok (url, c') ∧ c' = c₁.advance ∧
        r' = { r with method, url, spans := { r.spans with url := ⟨c₁.offset, c'.lastEnd⟩ } } := by
    obtain ⟨⟨url, c₂⟩, h₂, h⟩ := bind_eq_ok.mp h
    obtain ⟨rfl, rfl⟩ := Prod.mk.inj (Except.ok.inj h)
    obtain ⟨-, -, -, -, rfl⟩ := textValue_eq_ok.mp h₂
    exact ⟨method, url, c₁, hreach, h₂, rfl, rfl⟩
  unfold readTarget at h
  split at h
  · split at h
    · split at h
      · exact hurl _ c.reaches_advance.skipInline h
      · simp at h
    · exact hurl r.method (.refl c) h
  · simp at h

/-- A clause that is read, and what follows it. -/
theorem readClauses_eq_ok {n : Nat} {r r' : Request} (h : readClauses (n + 1) r c = .ok (r', c')) :
    (ClauseKind.at? c.skip = none ∧ r' = r ∧ c' = c.skip) ∨
      ∃ kind x c₁, ClauseKind.at? c.skip = some kind ∧ r.repeated? kind = none ∧
        Clause.read kind c.skip = .ok (x, c₁) ∧
        (kind = .script ∧ r' = r.add x ⟨c.skip.offset, c₁.lastEnd⟩ ∧ c' = c₁ ∨
          kind ≠ .script ∧ readClauses n (r.add x ⟨c.skip.offset, c₁.lastEnd⟩) c₁ = .ok (r', c')) := by
  simp only [readClauses] at h
  cases hat : ClauseKind.at? c.skip with
  | none =>
    simp only [hat] at h
    obtain ⟨rfl, rfl⟩ := Prod.mk.inj (Except.ok.inj h)
    exact .inl ⟨rfl, rfl, rfl⟩
  | some kind =>
    simp only [hat] at h
    refine .inr ?_
    cases hrep : r.repeated? kind with
    | some clause => simp [hrep] at h
    | none =>
      simp only [hrep] at h
      obtain ⟨⟨x, c₁⟩, h₁, h⟩ := bind_eq_ok.mp h
      refine ⟨kind, x, c₁, rfl, hrep, h₁, ?_⟩
      dsimp only at h
      split at h
      · obtain ⟨rfl, rfl⟩ := Prod.mk.inj (Except.ok.inj h)
        exact .inl ⟨‹_›, rfl, rfl⟩
      · exact .inr ⟨‹_›, h⟩

@[grind →] theorem reaches_readClauses {n : Nat} {r r' : Request} (h : readClauses n r c = .ok (r', c')) :
    c.Reaches c' := by
  induction n generalizing r c with
  | zero => simp only [readClauses] at h; grind
  | succ n ih =>
    obtain ⟨-, -, rfl⟩ | ⟨kind, x, c₁, -, -, h₁, ⟨-, -, rfl⟩ | ⟨-, h₂⟩⟩ := readClauses_eq_ok h
    · exact c.reaches_skip
    · exact (Clause.reaches_read h₁).of_advance.of_skip
    · exact (Clause.reaches_read h₁).of_advance.of_skip.trans (ih h₂)

/-- The stages of reading a request. -/
theorem read_eq_ok {source : Option String} {r : Request} (h : read source c = .ok (r, c')) :
    ∃ r₁ r₂ r₃ c₁ c₂,
      readTags (c.ahead.length + 1) { description := c.leadingComments?, source } c = .ok (r₁, c₁) ∧
      r₁.readTarget c₁ = .ok (r₂, c₂) ∧ readClauses (c₂.ahead.length + 1) r₂ c₂ = .ok (r₃, c') ∧
      r = { r₃ with spans := { r₃.spans with whole := ⟨c.offset, c'.lastEnd⟩ } } := by
  obtain ⟨⟨r₁, c₁⟩, h₁, h⟩ := bind_eq_ok.mp h
  obtain ⟨⟨r₂, c₂⟩, h₂, h⟩ := bind_eq_ok.mp h
  obtain ⟨⟨r₃, c₃⟩, h₃, h⟩ := bind_eq_ok.mp h
  obtain ⟨rfl, rfl⟩ := Prod.mk.inj (Except.ok.inj h)
  exact ⟨r₁, r₂, r₃, c₁, c₂, h₁, h₂, h₃, rfl⟩

@[grind →] theorem reaches_read {source : Option String} {r : Request} (h : read source c = .ok (r, c')) :
    c.Reaches c' := by
  obtain ⟨r₁, r₂, r₃, c₁, c₂, h₁, h₂, h₃, -⟩ := read_eq_ok h
  obtain ⟨-, -, c₃, hurl, -, rfl, -⟩ := readTarget_eq_ok h₂
  exact (reaches_readTags h₁).trans (hurl.advance.trans (reaches_readClauses h₃))

end Request

@[grind →] theorem Import.reaches_read {i : Import} (h : Import.read c = .ok (i, c')) :
    c.advance.Reaches c' ∧ i.span = ⟨c.offset, c'.lastEnd⟩ := by
  simp only [Import.read] at h
  grind

namespace VariableBody

/-- The arguments that are read, one token each. -/
theorem argumentsWithin_eq_ok {n : Nat} {args : List String} (h : argumentsWithin (n + 1) c = .ok (args, c')) :
    ∃ t, c.skip.token? = some t ∧
      (t.isPunct ")" ∧ args = [] ∧ c' = c.skip.advance ∨
        ∃ value rest c₁, t.isPunct ")" = false ∧ args = value :: rest ∧
          ((t.kind = .string ∨ t.kind = .tripleString) ∧ value = t.literal.value ∨
            (t.kind = .number ∨ t.kind = .identifier ∨ t.kind = .placeholder) ∧ value = t.text) ∧
          c₁ = (if c.skip.advance.skip.isPunct "," then c.skip.advance.skip.advance else c.skip.advance.skip) ∧
          argumentsWithin n c₁ = .ok (rest, c')) := by
  simp only [argumentsWithin] at h
  cases ht : c.skip.token? with
  | none => simp [ht] at h
  | some t =>
    refine ⟨t, rfl, ?_⟩
    simp only [ht] at h
    split at h
    · obtain ⟨rfl, rfl⟩ := Prod.mk.inj (Except.ok.inj h)
      exact .inl ⟨‹_›, rfl, rfl⟩
    · rename_i hnot
      rw [Bool.not_eq_true] at hnot
      right
      split at h
      · obtain ⟨rest, hread, hargs⟩ := making_eq_ok.mp h
        exact ⟨_, rest, _, hnot, hargs, .inl ⟨.inl ‹_›, rfl⟩, rfl, hread⟩
      · obtain ⟨rest, hread, hargs⟩ := making_eq_ok.mp h
        exact ⟨_, rest, _, hnot, hargs, .inl ⟨.inr ‹_›, rfl⟩, rfl, hread⟩
      · obtain ⟨rest, hread, hargs⟩ := making_eq_ok.mp h
        exact ⟨_, rest, _, hnot, hargs, .inr ⟨.inl ‹_›, rfl⟩, rfl, hread⟩
      · obtain ⟨rest, hread, hargs⟩ := making_eq_ok.mp h
        exact ⟨_, rest, _, hnot, hargs, .inr ⟨.inr (.inl ‹_›), rfl⟩, rfl, hread⟩
      · obtain ⟨rest, hread, hargs⟩ := making_eq_ok.mp h
        exact ⟨_, rest, _, hnot, hargs, .inr ⟨.inr (.inr ‹_›), rfl⟩, rfl, hread⟩
      · simp at h

theorem reaches_argumentsWithin {n : Nat} {args : List String} (h : argumentsWithin n c = .ok (args, c')) :
    c.Reaches c' := by
  induction n generalizing c args with
  | zero => cases h
  | succ n ih =>
    obtain ⟨t, -, ⟨-, -, rfl⟩ | ⟨value, rest, c₁, -, -, -, hc₁, hread⟩⟩ := argumentsWithin_eq_ok h
    · exact c.reaches_skip.advance
    · have hnext : c.Reaches c₁ := by
        rw [hc₁]
        split
        · exact c.reaches_skip.advance.skip.advance
        · exact c.reaches_skip.advance.skip
      exact hnext.trans (ih hread)

/-- The three forms of a variable's text. -/
theorem read_eq_ok {x : VariableBody} (h : read c = .ok (x, c')) :
    ∃ t, c.token? = some t ∧
      ((t.kind = .identifier ∧ t.text.startsWith "$" ∧
          ∃ args, argumentsWithin (c.advance.advance.ahead.length + 1) c.advance.advance = .ok (args, c') ∧
            x = .call (String.ofList (t.text.toList.drop 1)) args) ∨
        (∃ u, c.next? = some u ∧ u.isString ∧ x = .template u.literal.value ∧ c' = c.advance.advance) ∨
        ∃ term, JsonTerm.read c = .ok (term, c') ∧ x = .value term) := by
  cases ht : c.token? with
  | none => simp [read, ht] at h
  | some t =>
    refine ⟨t, rfl, ?_⟩
    simp only [read, ht] at h
    split at h
    · rename_i hcall
      obtain ⟨⟨args, c₁⟩, h₁, h⟩ := bind_eq_ok.mp h
      obtain ⟨rfl, rfl⟩ := Prod.mk.inj (Except.ok.inj h)
      exact .inl ⟨hcall.1, hcall.2.1, args, h₁, rfl⟩
    · cases hu : c.next? with
      | none =>
        simp only [hu] at h
        exact .inr (.inr (making_eq_ok.mp h))
      | some u =>
        simp only [hu] at h
        split at h
        · rename_i htemplate
          obtain ⟨rfl, rfl⟩ := Prod.mk.inj (Except.ok.inj h)
          exact .inr (.inl ⟨u, rfl, htemplate.2.2, rfl, rfl⟩)
        · exact .inr (.inr (making_eq_ok.mp h))

theorem reaches_read {x : VariableBody} (h : read c = .ok (x, c')) : c.Reaches c' := by
  obtain ⟨t, -, ⟨-, -, args, hargs, -⟩ | ⟨u, -, -, -, rfl⟩ | ⟨term, hterm, -⟩⟩ := read_eq_ok h
  · exact (reaches_argumentsWithin hargs).of_advance.of_advance
  · exact c.reaches_advance.advance
  · exact JsonTerm.reaches_read hterm

end VariableBody

/-- The parts of a variable and the places where they are read. -/
theorem Variable.read_eq_ok {v : Variable} (h : Variable.read c = .ok (v, c')) :
    ∃ t c₁, c.advance.skip.token? = some t ∧ t.kind = .identifier ∧ t.text.startsWith "$" = false ∧
      v.name = t.text ∧ (∃ u, c.advance.skip.advance.skip.token? = some u ∧ u.isOp "=") ∧
      VariableBody.read c.advance.skip.advance.skip.advance.skip = .ok (v.body, c₁) ∧
      c₁.skip.isPunct ";" ∧ c' = c₁.skip.advance ∧ v.span = ⟨c.offset, c'.lastEnd⟩ := by
  obtain ⟨t, h₁, h⟩ := bind_eq_ok.mp h
  obtain ⟨u, h₂, h⟩ := bind_eq_ok.mp h
  obtain ⟨⟨body, c₁⟩, h₃, h⟩ := bind_eq_ok.mp h
  obtain ⟨c₂, h₄, h⟩ := bind_eq_ok.mp h
  obtain ⟨rfl, rfl⟩ := Prod.mk.inj (Except.ok.inj h)
  obtain ⟨ht, hname⟩ := Cursor.expect_eq_ok.mp h₁
  obtain ⟨hu, heq⟩ := Cursor.expect_eq_ok.mp h₂
  obtain ⟨hclose, rfl⟩ := Cursor.expectPunct_eq_ok.mp h₄
  simp only [Bool.and_eq_true, beq_iff_eq, Bool.not_eq_true'] at hname
  exact ⟨t, c₁, ht, hname.1, hname.2, rfl, ⟨u, hu, heq⟩, h₃, hclose, rfl, rfl⟩

theorem Variable.reaches_read {v : Variable} (h : Variable.read c = .ok (v, c')) :
    c.advance.Reaches c' ∧ v.span = ⟨c.offset, c'.lastEnd⟩ := by
  obtain ⟨t, c₁, -, -, -, -, -, hbody, -, rfl, hspan⟩ := Variable.read_eq_ok h
  exact ⟨(VariableBody.reaches_read hbody).of_skip.of_advance.of_skip.of_advance.of_skip.skip.advance, hspan⟩

/-- A file is read from the tokens of its text. -/
theorem Document.parse_eq_ok {text : String} {source : Option String} {d : Document}
    (h : parse text source = .ok d) : ∃ tokens, Lexer.tokenize (Text.normalizeLineEndings text) = .ok tokens ∧
      ofTokens source (Text.normalizeLineEndings text) tokens = .ok d := by
  simp only [parse] at h
  split at h
  · cases h
  rename_i tokens htokens
  split at h
  · cases h
  rename_i doc hread
  cases h
  exact ⟨tokens, htokens, hread⟩

end RequestLang
