import RequestLang.Proofs.Document.Kin.Document
import RequestLang.Proofs.Loading.Imports
import RequestLang.Proofs.Text.Place

/-! Comments while loading. Other comments with the same placeholders in them leave the same properties behind, under
requests of the same names. -/
namespace RequestLang
open Lexer Lexeme

namespace Lexeme

/-- The lexeme with line feeds alone at its line ends. -/
def normalized (l : Lexeme) : Lexeme := ⟨l.kind, String.ofList (Text.normalizeChars l.text.toList)⟩

/-- The lexemes that a text falls into, with its line ends as they stand. -/
structure CutInto (text : String) (ls : List Lexeme) : Prop where
  joined : chars ls = text.toList
  tokens : (tokenize (Text.normalizeLineEndings text)).toOption.map (List.map Token.lexeme) = some (ls.map normalized)

/-- The same lexeme, or two comments of the same sort. They leave no placeholder open, and the same ones stand in
both. -/
structure Recommented (l m : Lexeme) : Prop where
  kind : l.kind = m.kind
  block : l.token.isBlockComment = m.token.isBlockComment
  text (h : l.kind ≠ .comment) : l.text = m.text
  left (h : l.kind = .comment) : Segment.Closed l.text.toList
  right (h : l.kind = .comment) : Segment.Closed m.text.toList
  holes : Segment.bodies l.text.toList = Segment.bodies m.text.toList

/-- No placeholder is open where a comment begins. -/
def Clear (ls : List Lexeme) : Prop :=
  ∀ front l rest, ls = front ++ l :: rest → l.kind = .comment → Segment.Closed (chars front)

/-- It is enough that no lexeme leaves a placeholder open. -/
theorem Clear.of_closed {ls : List Lexeme} (h : ∀ l ∈ ls, Segment.Closed l.text.toList) : Clear ls := by
  rintro front l rest rfl -
  have hfront : ∀ l ∈ front, Segment.Closed l.text.toList := fun l hl => h l (List.mem_append_left _ hl)
  clear h
  induction front with
  | nil => exact .nil
  | cons l front ih =>
    rw [List.forall_mem_cons] at hfront
    exact hfront.1.append (ih hfront.2)

theorem Recommented.refl {l : Lexeme} (h : l.kind ≠ .comment) : Recommented l l :=
  ⟨rfl, rfl, fun _ => rfl, fun hk => absurd hk h, fun hk => absurd hk h, rfl⟩

/-- Comments without braces can stand for each other. -/
theorem Recommented.of_plain {l m : Lexeme} (hl : l.kind = .comment) (hm : m.kind = .comment)
    (hblock : l.token.isBlockComment = m.token.isBlockComment) (hleft : '\x7b' ∉ l.text.toList)
    (hright : '\x7b' ∉ m.text.toList) : Recommented l m where
  kind := hl.trans hm.symm
  block := hblock
  text h := absurd hl h
  left _ := .plain hleft
  right _ := .plain hright
  holes := by rw [Segment.bodies_plain hleft, Segment.bodies_plain hright]

/-- Every text that has tokens falls into lexemes. -/
theorem exists_cutInto {text : String} {ts : List Token} (h : tokenize (Text.normalizeLineEndings text) = .ok ts) :
    ∃ ls, CutInto text ls := by
  have htext : Text.normalizeChars text.toList = textOf ts := by
    rw [textOf_of_scan h, Text.normalizeLineEndings, String.toList_ofList]
  -- each token is traced back to the piece of the text that it was before its line ends were changed
  have hsplit (us : List Token) (cs : List Char) (hcs : Text.normalizeChars cs = textOf us) :
      ∃ ls : List Lexeme, chars ls = cs ∧ ls.map normalized = us.map Token.lexeme := by
    induction us generalizing cs with
    | nil =>
      obtain rfl := Text.eq_nil_of_normalizeChars hcs
      exact ⟨[], rfl, rfl⟩
    | cons u us ih =>
      obtain ⟨as, bs, rfl, has, hbs⟩ := Text.exists_append_of_normalizeChars hcs
      obtain ⟨ls, rfl, hls⟩ := ih bs hbs
      refine ⟨⟨u.kind, String.ofList as⟩ :: ls, by simp, ?_⟩
      rw [List.map_cons, List.map_cons, hls, normalized, String.toList_ofList, has, String.ofList_toList]
      rfl
  obtain ⟨ls, hchars, hls⟩ := hsplit ts _ htext
  exact ⟨ls, hchars, by rw [h, hls]; rfl⟩

theorem isBlockComment_normalized (l : Lexeme) : l.normalized.token.isBlockComment = l.token.isBlockComment := by
  have hslash : "/*".toList = ['/', '*'] := rfl
  have hopen : ['/', '*'] <+: Text.normalizeChars l.text.toList ↔ ['/', '*'] <+: l.text.toList :=
    Text.prefix_normalizeChars (by simp)
  rw [Token.isBlockComment, Token.isBlockComment, Bool.eq_iff_iff, Bool.and_eq_true, Bool.and_eq_true,
    String.startsWith_string_iff, String.startsWith_string_iff]
  simp only [token, normalized, String.toList_ofList, hslash, hopen]

theorem Recommented.token {l m : Lexeme} (h : Recommented l m) {t u : Token} (ht : t.lexeme = l.normalized)
    (hu : u.lexeme = m.normalized) : t.Kin u := by
  have hkind : t.kind = l.kind := congrArg Lexeme.kind ht
  refine ⟨?_, ?_, fun hcomment => ?_⟩
  · rw [hkind, h.kind]
    exact (congrArg Lexeme.kind hu).symm
  · have hblock := h.block
    rw [← l.isBlockComment_normalized, ← m.isBlockComment_normalized, ← ht, ← hu] at hblock
    exact hblock
  · have htext : l.normalized.text = m.normalized.text := by rw [normalized, normalized, h.text (hkind ▸ hcomment)]
    rw [← ht, ← hu] at htext
    exact htext

end Lexeme

namespace Document

theorem ofTokens_kin {ts us : List Token} (h : List.Forall₂ Token.Kin ts us) (hts : Scanned ts) (hus : Scanned us)
    (source : Option String) (text text' : String) : Tracks Kin (ofTokens source text ts) (ofTokens source text' us) := by
  rw [ofTokens, ofTokens, ← h.length_eq]
  exact readWithin_kin source _ ⟨rfl, .nil, .nil⟩ (c := Cursor.ofTokens text ts) (d := Cursor.ofTokens text' us) ⟨h, hts, hus⟩

theorem parseNamed_kin {text text' : String} {ts us : List Token}
    (hts : tokenize (Text.normalizeLineEndings text) = .ok ts) (hus : tokenize (Text.normalizeLineEndings text') = .ok us)
    (h : List.Forall₂ Token.Kin ts us) (source : Option String) :
    Tracks Kin (parseNamed text source) (parseNamed text' source) := by
  have hread := ofTokens_kin h ⟨0, _, Text.not_mem_normalizeLineEndings text, hts⟩
    ⟨0, _, Text.not_mem_normalizeLineEndings text', hus⟩ source (Text.normalizeLineEndings text)
    (Text.normalizeLineEndings text')
  rw [parseNamed, parseNamed, parse, parse, hts, hus]
  dsimp only
  generalize ofTokens source (Text.normalizeLineEndings text) ts = x,
    ofTokens source (Text.normalizeLineEndings text') us = y at hread ⊢
  cases hread with
  | ok h => exact .ok h
  | error e f => exact .error _ _

end Document

namespace Loading
open Resolve
variable {fs : Files}

theorem loadImports_kin (load : Document → String → Option String → List String → Resolve Loaded) (importer : Option String)
    {imports imports' : List Import} (h : imports.map Import.path = imports'.map Import.path) (visited : List String) :
    loadImports fs load importer imports visited = loadImports fs load importer imports' visited := by
  induction imports generalizing imports' visited with
  | nil =>
    obtain rfl : imports' = [] := List.map_eq_nil_iff.mp h.symm
    rfl
  | cons i rest ih =>
    obtain ⟨j, rest', rfl, hpath, hrest⟩ := List.map_eq_cons_iff.mp h.symm
    simp only [loadImports, ih hrest.symm, hpath]

theorem define_kin {v w : Variable} (h : v.Kin w) : Matches Eq v.define w.define := by
  rw [Variable.define, Variable.define, h.name]
  exact h.value.bind fun value _ hv => hv ▸ .refl _

theorem forM_define_kin {vs ws : List Variable} (h : List.Forall₂ Variable.Kin vs ws) :
    Matches Eq (vs.forM Variable.define) (ws.forM Variable.define) := by
  induction h with
  | nil => exact .refl _
  | cons hvw _ ih => exact (define_kin hvw).bind fun _ _ _ => ih

/-- What is loaded has requests of the same names, and the same files were visited. -/
def LoadKin (l l' : Loaded) : Prop := List.Forall₂ Request.Kin l.1 l'.1 ∧ l.2 = l'.2

theorem loadDocument_kin {a b : Document} (h : a.Kin b) {text text' : String}
    (hholes : Segment.bodies text.toList = Segment.bodies text'.toList) (n : Nat) (source : Option String)
    (visited : List String) :
    Matches LoadKin (loadDocument fs n a text source visited) (loadDocument fs n b text' source visited) := by
  cases n with
  | zero => exact .throw _ _
  | succ n =>
    have hmine (r : Resolver) : r.mine text = r.mine text' := by rw [Resolver.mine, Resolver.mine, hholes]
    simp only [loadDocument, loadImports_kin _ _ h.imports, hmine]
    refine .after _ fun imported => .after _ fun _ => (forM_define_kin h.vars).bind fun _ _ _ => .pure ⟨?_, rfl⟩
    have hsame : List.Forall₂ Request.Kin imported.1 imported.1 := List.forall₂_same.mpr fun _ _ => ⟨rfl, rfl, rfl, rfl, rfl⟩
    exact List.rel_append h.requests hsame

theorem map_name_kin {rs ss : List Request} (h : List.Forall₂ Request.Kin rs ss) :
    rs.map Request.name = ss.map Request.name := by
  induction h with
  | nil => rfl
  | cons hrs _ ih => rw [List.map_cons, List.map_cons, hrs.name, ih]

/-- Texts with the same tokens but for the comments, and with the same placeholders, load alike. -/
theorem loadContent_kin {text text' : String} {ts us : List Token}
    (hts : tokenize (Text.normalizeLineEndings text) = .ok ts) (hus : tokenize (Text.normalizeLineEndings text') = .ok us)
    (h : List.Forall₂ Token.Kin ts us) (hholes : Segment.bodies text.toList = Segment.bodies text'.toList)
    (source : Option String) :
    Matches (fun rs ss => rs.map Request.name = ss.map Request.name) (loadContent fs text source)
      (loadContent fs text' source) := by
  rw [loadContent, loadContent]
  refine .bind (R := Document.Kin) ?_ fun a b hab => ?_
  · have hparse := Document.parseNamed_kin hts hus h source
    generalize Document.parseNamed text source = x, Document.parseNamed text' source = y at hparse ⊢
    cases hparse with
    | ok h => exact .pure h
    | error e f => exact .throw e f
  · refine (loadDocument_kin hab hholes _ source _).bind fun loaded loaded' hload => ?_
    have hnames := map_name_kin hload.1
    dsimp only
    rw [checkNames_congr hnames]
    exact .after _ fun _ => .pure hnames

theorem bodies_recommented {ls ms : List Lexeme} (h : List.Forall₂ Recommented ls ms) (hclear : Clear ls) :
    Segment.bodies (chars ls) = Segment.bodies (chars ms) := by
  -- `front` is what stands between the last comment and here
  have hfront (front : List Char) (hclear : ∀ before l rest, ls = before ++ l :: rest → l.kind = .comment →
      Segment.Closed (front ++ chars before)) :
      Segment.bodies (front ++ chars ls) = Segment.bodies (front ++ chars ms) := by
    clear * - h hclear
    induction h generalizing front with
    | nil => rfl
    | @cons l m ls ms hlm _ ih =>
      rw [chars_cons, chars_cons]
      by_cases hl : l.kind = .comment
      · have hbefore : Segment.Closed front := by simpa using hclear [] l ls rfl hl
        have hrest := ih [] fun before l' rest hsplit hl' => by
          have hwhole := hclear (l :: before) l' rest (by rw [hsplit]; rfl) hl'
          rw [chars_cons, ← List.append_assoc] at hwhole
          exact (hbefore.append (hlm.left hl)).of_append hwhole
        rw [List.nil_append, List.nil_append] at hrest
        rw [hbefore, hbefore, hlm.left hl, hlm.right hl, hlm.holes, hrest]
      · rw [hlm.text hl, ← List.append_assoc, ← List.append_assoc]
        refine ih (front ++ m.text.toList) fun before l' rest hsplit hl' => ?_
        have hwhole := hclear (l :: before) l' rest (by rw [hsplit]; rfl) hl'
        rwa [chars_cons, hlm.text hl, ← List.append_assoc] at hwhole
  exact hfront [] hclear

/-- Comments count for the placeholders that stand in them, and for nothing else. -/
theorem loadContent_recommented {text text' : String} {ls ms : List Lexeme} (hcut : CutInto text ls)
    (hcut' : CutInto text' ms) (h : List.Forall₂ Recommented ls ms) (hclear : Clear ls) (fs : Files)
    (source : Option String) (r : Resolver) :
    SameEnd (fun rs ss => rs.map Request.name = ss.map Request.name) (on (loadContent fs text source) r)
      (on (loadContent fs text' source) r) := by
  obtain ⟨ts, hts, hspell⟩ := exists_ok_of_map hcut.tokens
  obtain ⟨us, hus, hspell'⟩ := exists_ok_of_map hcut'.tokens
  refine loadContent_kin hts hus ?_ ?_ source r
  · have hlexemes : List.Forall₂ (fun a b => ∀ t u : Token, t.lexeme = a → u.lexeme = b → t.Kin u)
        (ls.map normalized) (ms.map normalized) := by
      rw [List.forall₂_map_left_iff, List.forall₂_map_right_iff]
      refine h.imp fun l m hlm => ?_
      exact fun t u ht hu => hlm.token ht hu
    rw [← hspell, ← hspell', List.forall₂_map_left_iff, List.forall₂_map_right_iff] at hlexemes
    exact hlexemes.imp fun t u htu => htu t u rfl rfl
  · rw [← hcut.joined, ← hcut'.joined]
    exact bodies_recommented h hclear

/-- A default in a comment counts whatever else the comment says, and other comments do not. -/
theorem loadContent_recommented_default :
    let text := "# \x7b\x7ba=1\x7d\x7d\r\nGET \"http://\x7b\x7ba\x7d\x7d\" /* old */\n"
    let text' := "# see \x7b\x7ba=1\x7d\x7d above\r\nGET \"http://\x7b\x7ba\x7d\x7d\" /**/\n"
    let request : List Lexeme := [⟨.newline, "\r\n"⟩, ⟨.identifier, "GET"⟩, ⟨.whitespace, " "⟩,
      ⟨.string, "\"http://\x7b\x7ba\x7d\x7d\""⟩, ⟨.whitespace, " "⟩]
    let ls := ⟨.comment, "# \x7b\x7ba=1\x7d\x7d"⟩ :: request ++ [⟨.comment, "/* old */"⟩, ⟨.newline, "\n"⟩]
    let ms := ⟨.comment, "# see \x7b\x7ba=1\x7d\x7d above"⟩ :: request ++ [⟨.comment, "/**/"⟩, ⟨.newline, "\n"⟩]
    let r : Resolver := { surroundings := ⟨fun _ => none, fun _ => none, 0⟩, draws := ⟨id, 0⟩ }
    CutInto text ls ∧ CutInto text' ms ∧ List.Forall₂ Recommented ls ms ∧ Clear ls ∧
      (on (loadContent ⟨[], []⟩ text none) r).1.toOption.map List.length = some 1 ∧
      ((on (loadContent ⟨[], []⟩ text none) r).2.lookup "a").toOption = some (some "1") ∧
      SameEnd (fun rs ss => rs.map Request.name = ss.map Request.name) (on (loadContent ⟨[], []⟩ text none) r)
        (on (loadContent ⟨[], []⟩ text' none) r) := by
  intro text text' request ls ms r
  have hcut : CutInto text ls := ⟨by decide +kernel, by decide +kernel⟩
  have hcut' : CutInto text' ms := ⟨by decide +kernel, by decide +kernel⟩
  have hholed (before body after : List Char) (hbefore : '\x7b' ∉ before)
      (hbody : Text.through? ['\x7d', '\x7d'] (body ++ ['\x7d', '\x7d']) = some (body.length + 2))
      (hafter : '\x7b' ∉ after) : Segment.Closed (before ++ (Segment.hole body).chars ++ after) :=
    ((Segment.Closed.plain hbefore).append (.hole hbody)).append (.plain hafter)
  have hnote : Segment.Closed "# \x7b\x7ba=1\x7d\x7d".toList :=
    hholed ['#', ' '] ['a', '=', '1'] [] (by decide) (by decide) (by decide)
  have hnote' : Segment.Closed "# see \x7b\x7ba=1\x7d\x7d above".toList :=
    hholed "# see ".toList ['a', '=', '1'] " above".toList (by decide) (by decide) (by decide)
  have hurl : Segment.Closed "\"http://\x7b\x7ba\x7d\x7d\"".toList :=
    hholed "\"http://".toList ['a'] ['"'] (by decide) (by decide) (by decide)
  have hrequest : List.Forall₂ Recommented request request := by
    refine List.forall₂_same.mpr fun l hl => .refl ?_
    revert l
    decide
  have hold : Recommented ⟨.comment, "/* old */"⟩ ⟨.comment, "/**/"⟩ :=
    .of_plain rfl rfl (by decide +kernel) (by decide) (by decide)
  have hfirst : Recommented ⟨.comment, "# \x7b\x7ba=1\x7d\x7d"⟩ ⟨.comment, "# see \x7b\x7ba=1\x7d\x7d above"⟩ :=
    ⟨rfl, by decide +kernel, fun h => absurd rfl h, fun _ => hnote, fun _ => hnote', by decide +kernel⟩
  have h : List.Forall₂ Recommented ls ms :=
    .cons hfirst (List.rel_append hrequest (.cons hold (.cons (.refl (by decide)) .nil)))
  have hclear : Clear ls := .of_closed <| by
    simp only [ls, request, List.cons_append, List.nil_append, List.forall_mem_cons]
    refine ⟨hnote, .plain ?_, .plain ?_, .plain ?_, hurl, .plain ?_, .plain ?_, .plain ?_, by simp⟩ <;> decide
  exact ⟨hcut, hcut', h, hclear, by decide +kernel, by decide +kernel,
    loadContent_recommented hcut hcut' h hclear _ none r⟩

end Loading
end RequestLang
