import RequestLang.Proofs.Document.Loops
import RequestLang.Proofs.Token.Faults

/-! Slices of the text. What a reader cuts out of the text begins and ends between characters, and it is
what the tokens there say. -/
namespace RequestLang
open Lexer Lexeme Cursor JsonTerm

/-- The span holds this piece of the text and cuts no character. -/
structure Span.Holds (s : String) (span : Span) (piece : List Char) : Prop where
  lies : span.Lies s
  textIn : span.textIn s = String.ofList piece

theorem Span.holds_append {s : String} {front piece back : List Char} (h : s.toList = front ++ (piece ++ back)) :
    Span.Holds s ⟨Text.byteSize front, Text.byteSize (front ++ piece)⟩ piece := by
  refine ⟨⟨⟨front, h ▸ List.prefix_append .., rfl⟩, ⟨front ++ piece, ?_, rfl⟩, ?_⟩, ?_⟩
  · rw [h, ← List.append_assoc]
    exact List.prefix_append ..
  · exact Text.byteSize_le_of_isPrefix (List.prefix_append ..)
  · rw [Span.textIn, h, Text.slice_append]

namespace Cursor
variable {s : String} {c c' : Cursor}

/-- A piece of the current token. -/
theorem Along.holds_token (hc : c.Along s) {t : Token} (ht : c.token? = some t) {front piece back : List Char}
    (htext : t.text.toList = front ++ (piece ++ back)) :
    Span.Holds s ⟨t.start + Text.byteSize front, t.stop - Text.byteSize back⟩ piece := by
  obtain ⟨ts, hts⟩ := token?_eq_some ht
  have hs : s.toList = (textOf c.behind.reverse ++ front) ++ (piece ++ (back ++ textOf ts)) := by
    rw [← hc.text, all, hts, textOf_append, textOf_cons, htext]
    simp only [List.append_assoc]
  have hstart : t.start = Text.byteSize (textOf c.behind.reverse) := by
    have hoffset := hc.offset_eq
    rwa [offset, ht] at hoffset
  have hholds := Span.holds_append hs
  have hfront : t.start + Text.byteSize front = Text.byteSize (textOf c.behind.reverse ++ front) := by
    rw [hstart, Text.byteSize_append]
  have hback : t.stop - Text.byteSize back = Text.byteSize (textOf c.behind.reverse ++ front ++ piece) := by
    rw [Token.stop, htext, hstart]
    simp only [Text.byteSize_append]
    omega
  rwa [← hfront, ← hback] at hholds

theorem settled_of_run {run : List Token} (hrun : c'.behind = run.reverse ++ c.behind)
    (hsolid : ∃ t ∈ run, t.isIgnorable = false) :
    c'.settled = c.behind.reverse ++ (run.reverse.dropWhile (·.isIgnorable)).reverse := by
  have hne : (run.reverse.dropWhile (·.isIgnorable)).isEmpty = false := by
    obtain ⟨t, ht, hsolid⟩ := hsolid
    rw [List.isEmpty_eq_false_iff, Ne, List.dropWhile_eq_nil_iff]
    exact fun hall => Bool.false_ne_true (hsolid.symm.trans (hall t (List.mem_reverse.mpr ht)))
  rw [settled, hrun, List.dropWhile_append, if_neg (by simp [hne]), List.reverse_append]

theorem Along.offset_le_lastEnd (hc : c.Along s) (hreach : c.Reaches c') {run : List Token}
    (hrun : c'.behind = run.reverse ++ c.behind) (hsolid : ∃ t ∈ run, t.isIgnorable = false) : c.offset ≤ c'.lastEnd := by
  rw [hc.offset_eq, (hc.reaches hreach).lastEnd_eq, settled_of_run hrun hsolid]
  exact width_le_of_prefix (List.prefix_append ..)

/-- The tokens from one place to another, without the gap at their end. -/
theorem Along.holds_run (hc : c.Along s) (hreach : c.Reaches c') {run : List Token}
    (hrun : c'.behind = run.reverse ++ c.behind) :
    Span.Holds s ⟨c.offset, max c'.lastEnd c.offset⟩ (runText run) := by
  have hc' := hc.reaches hreach
  have htext : runText run = textOf (run.reverse.dropWhile (·.isIgnorable)).reverse := by
    rw [runText, textOf, chars, List.flatMap_map]
    rfl
  by_cases hsolid : ∃ t ∈ run, t.isIgnorable = false
  · have hle := hc.offset_le_lastEnd hreach hrun hsolid
    have hsettled := settled_of_run hrun hsolid
    obtain ⟨after, hafter⟩ := c'.settled_prefix.trans c'.behind_prefix_all
    have hsplit : s.toList = textOf c.behind.reverse ++ (runText run ++ textOf after) := by
      rw [← hc'.text, ← hafter, hsettled, textOf_append, textOf_append, List.append_assoc, htext]
    have hlast : c'.lastEnd = Text.byteSize (textOf c.behind.reverse ++ runText run) := by
      rw [hc'.lastEnd_eq, hsettled, width, textOf_append, htext]
    rw [Nat.max_eq_left hle, hlast, hc.offset_eq]
    exact Span.holds_append hsplit
  · -- nothing was read but a gap
    have hgap : run.reverse.dropWhile (·.isIgnorable) = [] :=
      List.dropWhile_eq_nil_iff.mpr fun t ht => by
        by_contra hmeans
        exact hsolid ⟨t, List.mem_reverse.mp ht, Bool.eq_false_of_not_eq_true hmeans⟩
    have hle : c'.lastEnd ≤ c.offset := by
      rw [hc'.lastEnd_eq, settled, hrun, List.dropWhile_append, hgap, List.isEmpty_nil, if_pos rfl, hc.offset_eq]
      exact width_le_of_prefix c.settled_prefix
    have hsplit : s.toList = textOf c.behind.reverse ++ ([] ++ textOf c.ahead) := by
      rw [← hc.text, all, textOf_append, List.nil_append]
    rw [htext, hgap, Nat.max_eq_right hle, hc.offset_eq]
    simpa [width] using Span.holds_append hsplit

end Cursor

namespace JsonTerm

/-- A gap leaves it open whether an operand is wanted. -/
theorem arithmeticSteps_of_gap {st st' : Nat × Bool} {ls : List Lexeme} (hgap : ∀ l ∈ ls, l.isIgnorable)
    (h : arithmeticSteps st ls = some st') : st' = st := by
  induction ls with
  | nil => exact (Option.some.inj h).symm
  | cons l ls ih =>
    obtain ⟨st₁, hstep, hrest⟩ := Option.bind_eq_some_iff.mp h
    have hl := hgap l List.mem_cons_self
    have hsame : st₁ = st := by
      unfold arithmeticStep at hstep
      simp only [Lexeme.isIgnorable, Token.isIgnorable, Lexeme.token] at hl
      grind
    exact ih (fun m hm => hgap m (List.mem_cons_of_mem _ hm)) (hsame ▸ hrest)

theorem exists_solid_of_readArithmetic {c c' : Cursor} {t : JsonTerm} (h : readArithmetic c = .ok (t, c')) :
    ∃ u ∈ c.ahead.take (arithmeticRun 0 true c.ahead).1, u.isIgnorable = false := by
  by_contra hgap
  obtain ⟨-, hsteps, -⟩ := arithmeticSteps_of_run (s := (0, true)) (Eq.refl (arithmeticRun 0 true c.ahead))
  have hend : (arithmeticRun 0 true c.ahead).2 = (0, true) := by
    refine arithmeticSteps_of_gap (fun l hl => ?_) hsteps
    obtain ⟨u, hu, rfl⟩ := List.mem_map.mp hl
    by_contra hsolid
    exact hgap ⟨u, hu, Bool.eq_false_of_not_eq_true hsolid⟩
  simp only [readArithmetic, hend] at h
  simp at h

end JsonTerm

/-- What readers slice: arithmetic, a path up to the end of its line, the text between quotes and the name of
a function. -/
inductive Cursor.Slices (c : Cursor) : Span → List Char → Prop
  | arithmetic {t c'} (h : readArithmetic c = .ok (t, c')) :
    Slices c (c.spanTo c') (runText (c.ahead.take (arithmeticRun 0 true c.ahead).1))
  | path {p : Token → Bool} (hp : p = fun t => t.kind != .newline && t.kind != .comment) :
    Slices c ⟨c.offset, max (c.skipWhile p).lastEnd c.offset⟩ (runText (c.ahead.takeWhile p))
  | quoted {t} (ht : c.token? = some t) (hkind : t.kind = .string) :
    Slices c ⟨t.start + 1, t.stop - 1⟩ (Text.Quoted.inner 1 t.text.toList)
  | fenced {t} (ht : c.token? = some t) (hkind : t.kind = .tripleString) :
    Slices c ⟨t.start + 3, t.stop - 3⟩ (Text.Quoted.inner 3 t.text.toList)
  | function {t} (ht : c.token? = some t) (hname : t.text.startsWith "$") :
    Slices c ⟨t.start + 1, t.stop⟩ (t.text.toList.drop 1)

namespace Cursor
variable {s : String} {c c' : Cursor}

theorem Along.holds_slices {span : Span} {piece : List Char} (hc : c.Along s) (h : c.Slices span piece) :
    span.Holds s piece := by
  have hmem {t : Token} (ht : c.token? = some t) : t ∈ c.all := by
    obtain ⟨ts, hts⟩ := token?_eq_some ht
    exact List.mem_append_right _ (hts ▸ List.mem_cons_self)
  have hcut {t : Token} (ht : c.token? = some t) (hkind : t.kind ≠ .punctuation) :
      ∃ rest, Lexeme.Cuts t.lexeme rest := by
    obtain ⟨rest, h⟩ := cut_of_scan hc.tokens (hmem ht)
    exact ⟨rest, h.resolve_right fun hs => hkind hs.1⟩
  cases h with
  | arithmetic h =>
    obtain ⟨u, hu, hsolid⟩ := exists_solid_of_readArithmetic h
    have hreach := reaches_readArithmetic h
    simp only [readArithmetic] at h
    split at h
    · cases h
    obtain ⟨-, rfl⟩ := Prod.mk.inj (Except.ok.inj h)
    have hholds := hc.holds_run hreach rfl
    have hle := hc.offset_le_lastEnd hreach rfl ⟨u, hu, hsolid⟩
    rwa [Nat.max_eq_left hle] at hholds
  | path hp => exact hc.holds_run (reaches_skipWhile _ c) rfl
  | @quoted t ht hkind =>
    obtain ⟨rest, hcut⟩ := hcut ht (by simp [hkind])
    obtain ⟨q, body, hq, htext⟩ := hcut.string_closed hkind
    have htoken : t.text.toList = [q] ++ (body ++ [q]) := htext
    have hholds := hc.holds_token ht htoken
    have hinner : Text.Quoted.inner 1 t.text.toList = body := by simp [htoken, Text.Quoted.inner]
    rwa [byteSize_of_quote hq, ← hinner] at hholds
  | @fenced t ht hkind =>
    obtain ⟨rest, hcut⟩ := hcut ht (by simp [hkind])
    obtain ⟨q, body, hq, htext, hbody⟩ := hcut.tripleString hkind
    obtain ⟨piece, rfl⟩ := Text.append_mark_of_through? hbody
    have htoken : t.text.toList = [q, q, q] ++ (piece ++ [q, q, q]) := htext
    have hholds := hc.holds_token ht htoken
    have hinner : Text.Quoted.inner 3 t.text.toList = piece := by simp [htoken, Text.Quoted.inner]
    have hsize : Text.byteSize [q, q, q] = 3 := by rcases hq with rfl | rfl <;> rfl
    rwa [hsize, ← hinner] at hholds
  | @function t ht hname =>
    obtain ⟨name, htext⟩ : ['$'] <+: t.text.toList := by simpa [String.startsWith_string_iff] using hname
    have hholds := hc.holds_token ht (show t.text.toList = ['$'] ++ (name ++ []) by rw [← htext, List.append_nil])
    rwa [← htext]

end Cursor

/-- What a file consists of, read from one cursor to another. -/
inductive Cursor.Entry (c c' : Cursor) : Prop
  | ofImport {v} (h : Import.read c = .ok (v, c')) : Entry c c'
  | ofVariable {v} (h : Variable.read c = .ok (v, c')) : Entry c c'
  | ofRequest {source v} (h : Request.read source c = .ok (v, c')) : Entry c c'

theorem Cursor.Entry.passes {c c' : Cursor} (h : c.Entry c') : c.Passes c' := by
  cases h with
  | ofImport h => exact Import.passes_read h
  | ofVariable h => exact Variable.passes_read h
  | ofRequest h => exact Request.passes_read h

/-- A step of a reader that succeeds. -/
inductive Cursor.Step : Cursor → Cursor → Prop
  | advance (c) : Step c c.advance
  | skip (c) : Step c c.skip
  | skipInline (c) : Step c c.skipInline
  | mark {c c' mark what} (h : c.expectPunct mark what = .ok c') : Step c c'
  | text {c c' what v} (h : c.textValue what = .ok (v, c')) : Step c c'
  | path {c c' v} (h : c.barePath = .ok (v, c')) : Step c c'
  | argumentName (c) : Step c (Argument.readName c).2
  | arguments {c c' args} (h : Argument.readAll c = .ok (args, c')) : Step c c'
  | call {α c c'} {make : Token → List Argument → Except Fault α} {x} (h : c.readCall make = .ok (x, c')) : Step c c'
  | mime {c c' separator v} (h : PayloadTerm.readMime separator c = .ok (v, c')) : Step c c'
  | raw {c c' v} (h : PayloadTerm.readRaw c = .ok (v, c')) : Step c c'
  | body {c c' call v} (h : PayloadTerm.readBody call c = .ok (v, c')) : Step c c'
  | payload {c c' v} (h : PayloadTerm.read c = .ok (v, c')) : Step c c'
  | arithmetic {c c' v} (h : readArithmetic c = .ok (v, c')) : Step c c'
  | term {c c' v} (h : JsonTerm.read c = .ok (v, c')) : Step c c'
  | clause {c c' kind v} (h : Clause.read kind c = .ok (v, c')) : Step c c'
  | tag {c c' t v} {r : Request} (h : r.readTag t c = .ok (v, c')) : Step c c'
  | target {c c' v} {r : Request} (h : r.readTarget c = .ok (v, c')) : Step c c'
  | variableBody {c c' v} (h : VariableBody.read c = .ok (v, c')) : Step c c'
  | entry {c c'} (h : c.Entry c') : Step c c'

theorem Cursor.Step.reaches {c c' : Cursor} (h : c.Step c') : c.Reaches c' := by
  cases h with
  | advance => exact c.reaches_advance
  | skip => exact c.reaches_skip
  | skipInline => exact c.reaches_skipInline
  | mark h => exact reaches_expectPunct h
  | text h => exact reaches_textValue h
  | path h => exact reaches_barePath h
  | argumentName => exact Argument.reaches_readName c
  | arguments h => exact Argument.reaches_readAll h
  | call h => exact (reaches_readCall h).of_advance
  | mime h => exact PayloadTerm.reaches_readMime h
  | raw h => exact PayloadTerm.reaches_readRaw h
  | body h => exact PayloadTerm.reaches_readBody h
  | payload h => exact (PayloadTerm.reaches_read h).of_advance
  | arithmetic h => exact reaches_readArithmetic h
  | term h => exact JsonTerm.reaches_read h
  | clause h => exact (Clause.reaches_read h).of_advance
  | tag h => exact (Request.reaches_readTag h).of_advance
  | target h =>
    obtain ⟨-, -, c₁, hreach, -, rfl, -⟩ := Request.readTarget_eq_ok h
    exact hreach.advance
  | variableBody h => exact VariableBody.reaches_read h
  | entry h => exact h.passes.reaches

/-- The loops of the readers take tokens and end, and the bounds that the readers are given let them run to
their ends. -/
structure LoopsEnd : Prop where
  document (source : Option String) :
    (Document.turn source).Drives Prod.fst fun d c => Document.readWithin source (c.ahead.length + 1) d c
  tags : Request.tagTurn.Drives id fun r c => Request.readTags (c.ahead.length + 1) r c
  clauses : Request.clauseTurn.Drives id fun r c => Request.readClauses (c.ahead.length + 1) r c
  callArguments : Argument.turn.Drives id fun xs c => gathered xs (Argument.readWithin (c.ahead.length + 1) c)
  functionArguments :
    VariableBody.turn.Drives id fun xs c => gathered xs (VariableBody.argumentsWithin (c.ahead.length + 1) c)
  chunks : PayloadTerm.chunkTurn.Drives id fun xs c => gathered xs (.ok (PayloadTerm.chunksWithin (c.ahead.length + 1) c))
  parts : PayloadTerm.partTurn.Drives id fun xs c => gathered xs (PayloadTerm.partsWithin (c.ahead.length + 1) c)
  members : memberTurn.Drives id fun xs c => gathered xs (readMembers (2 * c.ahead.length + 2) c)
  items : itemTurn.Drives id fun xs c => gathered xs (readItems (2 * c.ahead.length + 2) c)
  values (n : Nat) (c : Cursor) : 2 * c.ahead.length < n → JsonTerm.readWithin n c = JsonTerm.read c

theorem loopsEnd : LoopsEnd where
  document := Document.turn_drives
  tags := Request.tagTurn_drives
  clauses := Request.clauseTurn_drives
  callArguments := Argument.turn_drives
  functionArguments := VariableBody.turn_drives
  chunks := PayloadTerm.chunkTurn_drives
  parts := PayloadTerm.partTurn_drives
  members := memberTurn_drives
  items := itemTurn_drives
  values _ _ := readWithin_eq_read

namespace Document

/-- Reading ends on every sequence of tokens. Readers stay between where they were and the last token, and what
is read whole or in a turn of a loop takes a token. What they slice of a text that has these tokens lies in it. -/
theorem reading_ends (s : String) (tokens : List Token) :
    let start := Cursor.ofTokens s tokens
    (∀ c, start.Reaches c → c.index ≤ tokens.length ∧ c.token? = tokens[c.index]?) ∧
      (∀ c c', start.Reaches c → c.Step c' → start.Reaches c' ∧ c.index ≤ c'.index ∧ c'.index ≤ tokens.length) ∧
      (∀ c c' : Cursor, c.Entry c' → c.index < c'.index) ∧
      LoopsEnd ∧
      (tokenize s = .ok tokens → ∀ c span piece, start.Reaches c → c.Slices span piece → span.Holds s piece) ∧
      ∀ source, ∃ x, (turn source).Ends {} start x ∧ ofTokens source s tokens = Prod.fst <$> x := by
  intro start
  have hindex {c : Cursor} (hreach : start.Reaches c) : c.index ≤ tokens.length ∧ c.token? = tokens[c.index]? := by
    have hall : c.all = tokens := hreach.all
    refine ⟨?_, hall ▸ c.token?_eq⟩
    rw [← hall, ← c.index_add]
    exact Nat.le_add_right ..
  refine ⟨fun c => hindex, fun c c' hc hstep => ?_, fun c c' h => h.passes.index_lt, loopsEnd, fun htokens => ?_,
    fun source => (turn_drives source).ends {} start⟩
  · have hc' := hc.trans hstep.reaches
    exact ⟨hc', hstep.reaches.index_le, (hindex hc').1⟩
  · intro c span piece hreach hslice
    have hstart : start.Along s := ⟨htokens, rfl⟩
    exact (hstart.reaches hreach).holds_slices hslice

/-- A text that breaks off inside a term, behind an import that is read. -/
theorem reading_ends_cut_off :
    let s := "import \"a\"\n\"x\"\njson([1, (2"
    ∃ tokens, tokenize s = .ok tokens ∧ (∃ c i, Import.read (Cursor.ofTokens s tokens) = .ok (i, c) ∧
        0 < c.index ∧ c.index ≤ tokens.length) ∧
      Span.Holds s ⟨8, 9⟩ ['a'] ∧ ∃ f, (turn none).Ends {} (Cursor.ofTokens s tokens) (.error f) ∧
        ofTokens none s tokens = .error f := by
  intro s
  have hread : (tokenize s).toOption.map (fun tokens =>
      ((Import.read (Cursor.ofTokens s tokens)).toOption.isSome, (ofTokens none s tokens).toOption.isSome,
        (Cursor.ofTokens s tokens).advance.skip.token?)) = some (true, false, some ⟨.string, "\"a\"", 7⟩) := by
    decide +kernel
  obtain ⟨tokens, htokens, hfacts⟩ := exists_ok_of_map hread
  simp only [Prod.mk.injEq] at hfacts
  obtain ⟨hsome, hnone, htoken⟩ := hfacts
  obtain ⟨-, hsteps, hentries, -, hslices, hruns⟩ := reading_ends s tokens
  cases hfirst : Import.read (Cursor.ofTokens s tokens) with
  | error g => simp [hfirst, Except.toOption] at hsome
  | ok y =>
    obtain ⟨i, c⟩ := y
    cases hwhole : ofTokens none s tokens with
    | ok d => simp [hwhole, Except.toOption] at hnone
    | error f =>
      have hentry : (Cursor.ofTokens s tokens).Entry c := .ofImport hfirst
      obtain ⟨x, hends, hx⟩ := hruns none
      refine ⟨tokens, htokens, ⟨c, i, hfirst, hentries _ _ hentry, (hsteps _ _ (.refl _) (.entry hentry)).2.2⟩, ?_,
        f, ?_, hwhole⟩
      · exact hslices htokens _ _ _ (Reaches.refl _).advance.skip (.quoted htoken rfl)
      · rw [hwhole] at hx
        cases x with
        | error g =>
          cases hx
          exact hends
        | ok y => cases hx

end Document
end RequestLang
