import RequestLang.Proofs.Text.Place
import RequestLang.Proofs.Token.Faults

/-! Readers blame faults on spans of the text, so that every syntax error points into it. -/
namespace RequestLang
open Lexer Cursor

variable {α : Type} {s : String} {c c' : Cursor}

namespace Cursor

theorem blames_expect (hc : c.Along s) (p : Token → Bool) (what : String) : Blames s (c.expect p what) := by
  unfold expect
  split
  · split
    · exact .ok _
    · exact .error (hc.lies_here _)
  · exact .error (hc.lies_here _)

theorem blames_expectPunct (hc : c.Along s) (mark what : String) : Blames s (c.expectPunct mark what) :=
  (blames_expect hc _ _).bind fun _ _ => .ok _

theorem blames_textValue (hc : c.Along s) (what : String) : Blames s (c.textValue what) :=
  (blames_expect hc _ _).bind fun _ _ => .ok _

theorem blames_barePath (hc : c.Along s) : Blames s c.barePath := by
  unfold barePath
  refine .ite (fun _ => blames_textValue hc _) fun _ => ?_
  exact .ite (fun _ => .error (hc.lies_end _)) fun _ => .ok _

end Cursor

namespace Argument

theorem blames_readWithin (hc : c.Along s) (n : Nat) : Blames s (readWithin n c) := by
  induction n generalizing c with
  | zero => exact .error (hc.lies_end _)
  | succ n ih =>
    unfold readWithin
    refine .ite (fun _ => .ok _) fun _ => ?_
    have hname := hc.skip.reaches (reaches_readName c.skip)
    refine (blames_textValue hname _).bind ?_
    rintro ⟨v, c₁⟩ hv
    have hc₁ := (hname.reaches (reaches_textValue hv)).skip
    refine .ite (fun _ => ?_) fun _ => .ite (fun _ => .ok _) fun _ => .ite (fun _ => ?_) fun _ => ?_
    · exact (ih hc₁.advance).bind fun _ _ => .ok _
    · exact .error (hc₁.lies_end _)
    · exact .error (hc₁.lies_here _)

theorem blames_readAll (hc : c.Along s) : Blames s (readAll c) :=
  (blames_expectPunct hc _ _).bind fun _ h => blames_readWithin (hc.reaches (reaches_expectPunct h)) _

theorem blames_pickRequired {call : Token} (hcall : call.span.Lies s) (args : List Argument) (name : String) (place : Nat) :
    Blames s (pickRequired args call name place) := by
  unfold pickRequired
  split
  · exact .ok _
  · exact .error hcall

end Argument

theorem Auth.blames_ofArguments {call : Token} (hcall : call.span.Lies s) (args : List Argument) :
    Blames s (Auth.ofArguments call args) := by
  have hpick (name : String) (place : Nat) : Blames s (Argument.pickRequired args call name place) :=
    Argument.blames_pickRequired hcall args name place
  unfold Auth.ofArguments
  dsimp only
  split
  case h_8 | h_9 => exact .ok _
  case h_6 | h_7 =>
    exact (hpick _ _).bind fun _ _ => (hpick _ _).bind fun _ _ => (hpick _ _).bind fun _ _ => .ok _
  all_goals exact (hpick _ _).bind fun _ _ => (hpick _ _).bind fun _ _ => .ok _

theorem Certificate.blames_ofArguments {call : Token} (hcall : call.span.Lies s) (args : List Argument) :
    Blames s (Certificate.ofArguments call args) := by
  unfold Certificate.ofArguments
  refine .ite (fun _ => ?_) fun _ => ?_
  · exact (Argument.blames_pickRequired hcall args _ _).bind fun _ _ => .ok _
  · exact (Argument.blames_pickRequired hcall args _ _).bind fun _ _ => .ok _

theorem Cursor.blames_readCall {make : Token → List Argument → Except Fault α} (hc : c.Along s)
    (hmake : ∀ call args, call.span.Lies s → Blames s (make call args)) : Blames s (c.readCall make) := by
  refine (blames_expect hc _ _).bind fun call hcall => ?_
  refine (Argument.blames_readAll hc.advance.skip).bind ?_
  rintro ⟨args, c₁⟩ _
  exact (hmake call args (hc.lies_current (expect_eq_ok.mp hcall).1)).bind fun _ _ => .ok _

namespace JsonTerm

theorem blames_readArithmetic (hc : c.Along s) : Blames s (readArithmetic c) := by
  unfold readArithmetic
  dsimp only
  refine .ite (fun _ => .error ?_) fun _ => .ok _
  have hreach : c.Reaches (⟨(c.ahead.take (arithmeticRun 0 true c.ahead).1).reverse ++ c.behind,
      c.ahead.drop (arithmeticRun 0 true c.ahead).1, c.size⟩ : Cursor) :=
    ⟨_, (List.take_append_drop _ _).symm, rfl, rfl⟩
  exact hc.lies_offset (hc.reaches hreach) hreach _

theorem blames_read_aux (n : Nat) : ∀ {c : Cursor}, c.Along s →
    Blames s (readWithin n c) ∧ Blames s (readMembers n c) ∧ Blames s (readItems n c) := by
  induction n with
  | zero => exact fun hc => ⟨.error (hc.lies_end _), .error (hc.lies_end _), .error (hc.lies_end _)⟩
  | succ n ih =>
    refine fun {c} hc => ⟨?_, ?_, ?_⟩
    · unfold readWithin
      dsimp only
      split
      · exact .error (hc.skip.lies_end _)
      · refine .ite (fun _ => blames_readArithmetic hc.skip) fun _ => ?_
        refine .ite (fun _ => (ih hc.skip.advance).2.1.bind fun _ _ => .ok _) fun _ => ?_
        refine .ite (fun _ => (ih hc.skip.advance).2.2.bind fun _ _ => .ok _) fun _ => ?_
        split
        case h_6 => exact .error (hc.skip.lies_here _)
        all_goals exact .ok _
    · unfold readMembers
      refine .ite (fun _ => .ok _) fun _ => ?_
      refine (blames_expect hc.skip _ _).bind fun key _ => ?_
      refine (blames_expectPunct hc.skip.advance.skip _ _).bind fun c₁ h₁ => ?_
      have hc₁ := hc.skip.advance.skip.reaches (reaches_expectPunct h₁)
      refine (ih hc₁).1.bind ?_
      rintro ⟨value, c₂⟩ h₂
      have hc₂ := (hc₁.reaches ((reaches_read_aux n).1 h₂)).skip
      refine .ite (fun _ => (ih hc₂.advance).2.1.bind fun _ _ => .ok _) fun _ => ?_
      exact (blames_expectPunct hc₂ _ _).bind fun _ _ => .ok _
    · unfold readItems
      refine .ite (fun _ => .ok _) fun _ => ?_
      refine (ih hc.skip).1.bind ?_
      rintro ⟨value, c₁⟩ h₁
      have hc₁ := (hc.skip.reaches ((reaches_read_aux n).1 h₁)).skip
      refine .ite (fun _ => (ih hc₁.advance).2.2.bind fun _ _ => .ok _) fun _ => ?_
      exact (blames_expectPunct hc₁ _ _).bind fun _ _ => .ok _

theorem blames_read (hc : c.Along s) : Blames s (read c) := (blames_read_aux _ hc).1

end JsonTerm

namespace PayloadTerm

theorem blames_readMime (hc : c.Along s) (separator : String) : Blames s (readMime separator c) := by
  unfold readMime
  refine .ite (fun _ => ?_) fun _ => .ok _
  exact (blames_textValue hc.skipInline.advance.skipInline _).bind fun _ _ => .ok _

theorem blames_readRaw (hc : c.Along s) : Blames s (readRaw c) := by
  have hchunks := hc.reaches (reaches_chunksWithin (c.ahead.length + 1) c)
  unfold readRaw
  refine .ite (fun _ => .error (hchunks.lies_here _)) fun _ => ?_
  exact (blames_readMime hchunks _).bind fun _ _ => .ok _

theorem blames_partsWithin (hc : c.Along s) (n : Nat) : Blames s (partsWithin n c) := by
  induction n generalizing c with
  | zero => exact .ok _
  | succ n ih =>
    unfold partsWithin
    refine .ite (fun _ => .ok _) fun _ => ?_
    refine (blames_textValue hc.skip _).bind ?_
    rintro ⟨name, c₁⟩ h₁
    have hc₁ := (hc.skip.reaches (reaches_textValue h₁)).skip
    refine (blames_expect hc₁ _ _).bind fun mark _ => ?_
    refine (blames_textValue hc₁.advance.skip _).bind ?_
    rintro ⟨source, c₂⟩ h₂
    have hc₂ := hc₁.advance.skip.reaches (reaches_textValue h₂)
    refine (blames_readMime hc₂ _).bind ?_
    rintro ⟨mime, c₃⟩ h₃
    have hc₃ := (hc₂.reaches (reaches_readMime h₃)).skip
    exact .ite (fun _ => (ih hc₃.advance).bind fun _ _ => .ok _) fun _ => .ok _

theorem blames_readBody (hc : c.Along s) (call : String) : Blames s (readBody call c) := by
  unfold readBody
  dsimp only
  split
  · exact (JsonTerm.blames_read hc).bind fun _ _ => .ok _
  · exact (JsonTerm.blames_read hc).bind fun _ _ => .ok _
  · exact .ite (fun _ => (JsonTerm.blames_read hc).bind fun _ _ => .ok _) fun _ => blames_readRaw hc
  · exact blames_readRaw hc
  · refine (blames_textValue hc _).bind ?_
    rintro ⟨path, c₁⟩ h₁
    exact (blames_readMime (hc.reaches (reaches_textValue h₁)) _).bind fun _ _ => .ok _
  · exact (blames_partsWithin hc _).bind fun _ _ => .ok _

theorem blames_read (hc : c.Along s) : Blames s (read c) := by
  refine (blames_expect hc _ _).bind fun call _ => ?_
  refine .ite (fun _ => ?_) fun _ => ?_
  · refine (blames_textValue hc.advance.skipInline _).bind ?_
    rintro ⟨path, c₁⟩ h₁
    exact (blames_readMime (hc.advance.skipInline.reaches (reaches_textValue h₁)) _).bind fun _ _ => .ok _
  · refine (blames_expectPunct hc.advance.skip _ _).bind fun c₁ h₁ => ?_
    have hc₁ := (hc.advance.skip.reaches (reaches_expectPunct h₁)).skip
    refine (blames_readBody hc₁ _).bind ?_
    rintro ⟨payload, c₂⟩ h₂
    exact (blames_expectPunct (hc₁.reaches (reaches_readBody h₂)).skip _ _).bind fun _ _ => .ok _

end PayloadTerm

namespace Clause

theorem blames_read (hc : c.Along s) (kind : ClauseKind) : Blames s (read kind c) := by
  cases kind with
  | auth => exact (blames_readCall hc fun _ _ h => Auth.blames_ofArguments h _).bind fun _ _ => .ok _
  | certificate => exact (blames_readCall hc fun _ _ h => Certificate.blames_ofArguments h _).bind fun _ _ => .ok _
  | query =>
    refine (blames_textValue hc.advance.skipInline _).bind ?_
    rintro ⟨key, c₁⟩ h₁
    have hc₁ := (hc.advance.skipInline.reaches (reaches_textValue h₁)).skipInline
    refine (blames_expect hc₁ _ _).bind fun equal _ => ?_
    exact (blames_textValue hc₁.advance.skipInline _).bind fun _ _ => .ok _
  | header =>
    refine (blames_expect hc _ _).bind fun key _ => ?_
    exact (blames_textValue hc.advance.skip.advance.skipInline _).bind fun _ _ => .ok _
  | payload => exact (PayloadTerm.blames_read hc).bind fun _ _ => .ok _
  | output =>
    refine (blames_textValue hc.advance.advance.skip _).bind ?_
    rintro ⟨path, c₁⟩ h₁
    have hc₁ := hc.advance.advance.skip.reaches (reaches_textValue h₁)
    exact (blames_expectPunct hc₁.skip _ _).bind fun _ _ => .ok _
  | redirect => exact (blames_barePath hc.advance.skipInline).bind fun _ _ => .ok _
  | script =>
    refine (blames_expect hc.advance.skipInline _ _).bind fun block _ => ?_
    dsimp only
    split
    · exact .ok _
    · exact .ok _

end Clause

namespace Request

theorem blames_readName (hc : c.Along s) (r : Request) : Blames s (r.readName c) := by
  unfold readName
  refine .ite (fun _ => .error (hc.lies_here _)) fun _ => ?_
  refine (blames_expectPunct hc.advance.skipInline _ _).bind fun c₁ h₁ => ?_
  have hc₁ := (hc.advance.skipInline.reaches (reaches_expectPunct h₁)).skip
  refine (blames_textValue hc₁ _).bind ?_
  rintro ⟨name, c₂⟩ h₂
  have hc₂ := (hc₁.reaches (reaches_textValue h₂)).skip
  -- behind the parenthesis a base may follow, unless one stands inside
  have hbase (r : Request) {c : Cursor} (hc : c.Along s) {f : String × Cursor → Except Fault (Request × Cursor)}
      (hf : ∀ p, Blames s (f p)) : Blames s (do
      let c ← c.expectPunct ")" "')'"
      if r.base.isNone && c.skipInline.isPunct ":" then
        c.skipInline.advance.skipInline.textValue "base request name" >>= f
      else return (r, c.skipInline)) := by
    refine (blames_expectPunct hc _ _).bind fun c₁ h₁ => .ite (fun _ => ?_) fun _ => .ok _
    have hc₁ := (hc.reaches (reaches_expectPunct h₁)).skipInline.advance.skipInline
    exact (blames_textValue hc₁ _).bind fun p _ => hf p
  dsimp only
  split
  · refine (blames_textValue hc₂.advance.skip _).bind ?_
    rintro ⟨base, c₃⟩ h₃
    exact hbase _ (hc₂.advance.skip.reaches (reaches_textValue h₃)).skip fun _ => .ok _
  · exact hbase _ hc₂ fun _ => .ok _

theorem blames_readTag (hc : c.Along s) (r : Request) {t : Token} (ht : t.span.Lies s) : Blames s (r.readTag t c) := by
  unfold readTag
  split
  · exact blames_readName hc r
  · exact .ok _
  · exact .ok _
  · exact .ok _
  · refine .ite (fun _ => .error ht) fun _ => ?_
    refine (blames_textValue hc.advance.advance.skip _).bind ?_
    rintro ⟨value, c₁⟩ h₁
    have hc₁ := (hc.advance.advance.skip.reaches (reaches_textValue h₁)).skip
    exact (blames_expectPunct hc₁ _ _).bind fun _ _ => .ok _

theorem blames_readTags (hc : c.Along s) (n : Nat) (r : Request) : Blames s (readTags n r c) := by
  induction n generalizing r c with
  | zero => exact .ok _
  | succ n ih =>
    unfold readTags
    split
    · rename_i t ht
      refine .ite (fun _ => ?_) fun _ => .ok _
      refine (blames_readTag hc r (hc.lies_current ht)).bind ?_
      rintro ⟨r₁, c₁⟩ h₁
      exact ih (hc.reaches (reaches_readTag h₁).of_advance).skip r₁
    · exact .ok _

theorem blames_readTarget (hc : c.Along s) (r : Request) : Blames s (r.readTarget c) := by
  unfold readTarget
  split
  · dsimp only
    split
    · split
      · exact (blames_textValue hc.advance.skipInline _).bind fun _ _ => .ok _
      · exact .error (hc.lies_here _)
    · exact (blames_textValue hc _).bind fun _ _ => .ok _
  · exact .error (hc.lies_end _)

theorem blames_readClauses (hc : c.Along s) (n : Nat) (r : Request) : Blames s (readClauses n r c) := by
  induction n generalizing r c with
  | zero => exact .ok _
  | succ n ih =>
    unfold readClauses
    dsimp only
    split
    · exact .ok _
    · split
      · exact .error (hc.skip.lies_here _)
      · refine (Clause.blames_read hc.skip _).bind ?_
        rintro ⟨x, c₁⟩ h₁
        refine .ite (fun _ => .ok _) fun _ => ?_
        exact ih (hc.skip.reaches (Clause.reaches_read h₁).of_advance) _

theorem blames_read (hc : c.Along s) (source : Option String) : Blames s (read source c) := by
  refine (blames_readTags hc _ _).bind ?_
  rintro ⟨r₁, c₁⟩ h₁
  have hc₁ := hc.reaches (reaches_readTags h₁)
  refine (blames_readTarget hc₁ r₁).bind ?_
  rintro ⟨r₂, c₂⟩ h₂
  obtain ⟨-, -, c₃, hreach, -, rfl, -⟩ := readTarget_eq_ok h₂
  exact (blames_readClauses (hc₁.reaches hreach.advance) _ r₂).bind fun _ _ => .ok _

end Request

theorem Import.blames_read (hc : c.Along s) : Blames s (Import.read c) :=
  (blames_textValue hc.advance.skip _).bind fun _ _ => .ok _

namespace VariableBody

theorem blames_argumentsWithin (hc : c.Along s) (n : Nat) : Blames s (argumentsWithin n c) := by
  induction n generalizing c with
  | zero => exact .error (hc.lies_end _)
  | succ n ih =>
    have hgap := hc.skip.advance.skip
    have hnext : (if c.skip.advance.skip.isPunct "," then c.skip.advance.skip.advance else c.skip.advance.skip).Along s := by
      split
      · exact hgap.advance
      · exact hgap
    unfold argumentsWithin
    dsimp only
    split
    · refine .ite (fun _ => .ok _) fun _ => ?_
      split
      case h_6 => exact .error (hc.skip.lies_here _)
      all_goals exact (ih hnext).bind fun _ _ => .ok _
    · exact .error (hc.skip.lies_end _)

theorem blames_read (hc : c.Along s) : Blames s (read c) := by
  unfold read
  split
  · dsimp only
    refine .ite (fun _ => (blames_argumentsWithin hc.advance.advance _).bind fun _ _ => .ok _) fun _ => ?_
    split
    · exact .ite (fun _ => .ok _) fun _ => (JsonTerm.blames_read hc).bind fun _ _ => .ok _
    · exact (JsonTerm.blames_read hc).bind fun _ _ => .ok _
  · exact .error (hc.lies_end _)

end VariableBody

theorem Variable.blames_read (hc : c.Along s) : Blames s (Variable.read c) := by
  refine (blames_expect hc.advance.skip _ _).bind fun name _ => ?_
  refine (blames_expect hc.advance.skip.advance.skip _ _).bind fun equal _ => ?_
  have hbody := hc.advance.skip.advance.skip.advance.skip
  refine (VariableBody.blames_read hbody).bind ?_
  rintro ⟨body, c₁⟩ h₁
  have hc₁ := (hbody.reaches (VariableBody.reaches_read h₁)).skip
  exact (blames_expectPunct hc₁ _ _).bind fun _ _ => .ok _

namespace Document

theorem blames_readWithin (hc : c.Along s) (source : Option String) (n : Nat) (d : Document) :
    Blames s (readWithin source n d c) := by
  induction n generalizing d c with
  | zero => exact .ok _
  | succ n ih =>
    unfold readWithin
    dsimp only
    split
    · rename_i t ht
      refine .ite (fun _ => ?_) fun _ => .ite (fun _ => ?_) fun _ => .ite (fun _ => ?_) fun _ => ?_
      · refine (Import.blames_read hc.skip).bind ?_
        rintro ⟨i, c₁⟩ h₁
        exact ih (hc.skip.reaches (Import.reaches_read h₁).1.of_advance) _
      · refine (Variable.blames_read hc.skip).bind ?_
        rintro ⟨v, c₁⟩ h₁
        exact ih (hc.skip.reaches (Variable.reaches_read h₁).1.of_advance) _
      · refine (Request.blames_read hc.skip source).bind ?_
        rintro ⟨r, c₁⟩ h₁
        exact ih (hc.skip.reaches (Request.reaches_read h₁)) _
      · exact .error (hc.skip.lies_current ht)
    · exact .ok _

/-- A text that is not read is blamed at a span of it, and the error gives the place where that starts. -/
theorem lies_of_parse {text : String} {source : Option String} {e : SyntaxError} (h : parse text source = .error e) :
    e.span.Lies (Text.normalizeLineEndings text) ∧
      e.place = Text.placeOf (Text.normalizeLineEndings text) e.span.start := by
  simp only [parse] at h
  split at h
  · rename_i f hf
    cases h
    exact ⟨blames_tokenize _ f hf, rfl⟩
  rename_i tokens htokens
  split at h
  · rename_i f hf
    cases h
    have hstart : (Cursor.ofTokens (Text.normalizeLineEndings text) tokens).Along (Text.normalizeLineEndings text) :=
      ⟨htokens, rfl⟩
    exact ⟨blames_readWithin hstart source _ {} f hf, rfl⟩
  · cases h

/-- A syntax error points into the text, between characters, and gives line and column of the point
where its span starts; such points are in the order of their lines and columns. -/
theorem error_points {text : String} {source : Option String} {e : SyntaxError} (h : parse text source = .error e) :
    let s := Text.normalizeLineEndings text
    e.span.Lies s ∧ e.span.stop ≤ Text.byteSize s.toList ∧
      (∀ front, front <+: s.toList → Text.byteSize front = e.span.start →
        e.place.line = front.count '\n' + 1 ∧ e.place.column = (front.reverse.takeWhile (· ≠ '\n')).length + 1) ∧
      ∀ p q, Text.IsBoundary s.toList p → Text.IsBoundary s.toList q →
        ((Text.placeOf s p).key < (Text.placeOf s q).key ↔ p < q) ∧ (Text.placeOf s p = Text.placeOf s q ↔ p = q) := by
  intro s
  obtain ⟨hlies, hplace⟩ := lies_of_parse h
  refine ⟨hlies, hlies.stops.le, fun front hfront hsize => ?_, fun p q hp hq => ⟨Text.key_placeOf_lt hp hq, ?_⟩⟩
  · rw [hplace, ← hsize, Text.placeOf_of_isPrefix hfront, Text.Place.reached_eq]
    exact ⟨rfl, rfl⟩
  · refine ⟨fun hsame => ?_, congrArg _⟩
    have hle := (Text.key_placeOf_lt hp hq).not
    have hge := (Text.key_placeOf_lt hq hp).not
    rw [hsame] at hle hge
    exact Nat.le_antisymm (Nat.not_lt.mp (hge.mp (lt_irrefl _))) (Nat.not_lt.mp (hle.mp (lt_irrefl _)))

/-- A comma is missing before a line end, behind characters of several bytes. -/
theorem error_points_gap :
    let text := "GET \"x\"\r\nbasicauth(\"é\" // 😀\r\n\r\n  \"p\")"
    ∃ e, parse text none = .error e ∧ e.span = ⟨30, 31⟩ ∧ e.place = ⟨2, 19⟩ ∧
      e.span.Lies (Text.normalizeLineEndings text) := by
  intro text
  have hread : (match parse text none with
      | .error e => some (e.span, e.place)
      | .ok _ => none) = some (⟨30, 31⟩, ⟨2, 19⟩) := by decide +kernel
  split at hread
  · rename_i e he
    obtain ⟨hspan, hplace⟩ := Prod.mk.inj (Option.some.inj hread)
    exact ⟨e, he, hspan, hplace, (error_points he).1⟩
  · cases hread

end Document
end RequestLang
