import RequestLang.Document.Reader
import RequestLang.Proofs.Steps

/-! The file that a text stands in. It is written into every request and changes nothing else of what
the text says. -/
namespace RequestLang

namespace Request

/-- The same request in another file. -/
def placed (source : Option String) (r : Request) : Request := { r with source }

variable (source : Option String) (r : Request) (c : Cursor)

theorem readName_placed : (r.placed source).readName c = Prod.map (placed source) id <$> r.readName c := by
  simp only [readName, placed, map_bind, apply_ite (Prod.map (placed source) id <$> ·), pure_bind, map_pure, Prod.map_apply, throw_eq_error, error_bind, map_error, id]

theorem readTag_placed (t : Token) : (r.placed source).readTag t c = Prod.map (placed source) id <$> r.readTag t c := by
  unfold readTag
  split
  · exact readName_placed source r c
  · rfl
  · rfl
  · rfl
  · dsimp only
    split
    · rfl
    · simp only [placed, map_bind, map_pure, Prod.map_apply, id]

theorem readTags_placed (n : Nat) : readTags n (r.placed source) c = Prod.map (placed source) id <$> readTags n r c := by
  induction n generalizing r c with
  | zero => rfl
  | succ n ih =>
    unfold readTags
    split
    · split
      · rw [readTag_placed, map_bind, bind_map_left]
        exact bind_congr fun e => ih e.1 e.2.skip
      · rfl
    · rfl

theorem readTarget_placed : (r.placed source).readTarget c = Prod.map (placed source) id <$> r.readTarget c := by
  unfold readTarget
  split
  · dsimp only
    split
    · split
      · simp only [placed, map_bind, map_pure, Prod.map_apply, id, pure_bind]
      · rfl
    · simp only [placed, map_bind, map_pure, Prod.map_apply, id, pure_bind]
  · rfl

theorem add_placed (clause : Clause) (span : Span) : (r.placed source).add clause span = (r.add clause span).placed source := by
  cases clause <;> rfl

theorem readClauses_placed (n : Nat) :
    readClauses n (r.placed source) c = Prod.map (placed source) id <$> readClauses n r c := by
  induction n generalizing r c with
  | zero => rfl
  | succ n ih =>
    unfold readClauses
    dsimp only
    split
    · rfl
    · rename_i kind hkind
      have hrepeated : (r.placed source).repeated? kind = r.repeated? kind := by cases kind <;> rfl
      rw [hrepeated]
      split
      · rfl
      · rw [map_bind]
        refine bind_congr fun e => ?_
        rw [add_placed]
        split
        · rfl
        · exact ih _ e.2

theorem read_placed : read source c = Prod.map (placed source) id <$> read none c := by
  have hblank : ({ description := c.leadingComments?, source := source } : Request) =
      placed source { description := c.leadingComments? } := rfl
  simp only [read, hblank, readTags_placed, readTarget_placed, readClauses_placed, bind_map_left, map_bind,
    Prod.map_fst, Prod.map_snd, id]
  rfl

end Request

def Document.placed (source : Option String) (doc : Document) : Document :=
  { doc with requests := doc.requests.map (·.placed source) }

def SyntaxError.placed (file : Option String) (e : SyntaxError) : SyntaxError := { e with file }

namespace Document

theorem readWithin_placed (source : Option String) (n : Nat) (doc : Document) (c : Cursor) :
    readWithin source n (doc.placed source) c = placed source <$> readWithin none n doc c := by
  induction n generalizing doc c with
  | zero => rfl
  | succ n ih =>
    unfold readWithin
    dsimp only
    split
    · split
      · rw [map_bind]
        exact bind_congr fun e => ih { doc with imports := doc.imports ++ [e.1] } e.2
      split
      · rw [map_bind]
        exact bind_congr fun e => ih { doc with vars := doc.vars ++ [e.1] } e.2
      split
      · rw [Request.read_placed, map_bind, bind_map_left]
        refine bind_congr fun e => ?_
        have hmore : ({ doc with requests := doc.requests ++ [e.1] } : Document).placed source =
            { doc.placed source with requests := (doc.placed source).requests ++ [e.1.placed source] } := by
          simp [placed]
        exact hmore ▸ ih { doc with requests := doc.requests ++ [e.1] } e.2
      · rfl
    · rfl

/-- A text says the same wherever it stands, but for the file that its requests name and that its
errors point to. -/
theorem parse_placed (text : String) (source : Option String) :
    (parse text source).mapError (SyntaxError.placed none) = (parse text none).map (placed source) := by
  unfold parse
  dsimp only
  cases Lexer.tokenize (Text.normalizeLineEndings text) with
  | error f => rfl
  | ok tokens =>
    have hread := readWithin_placed source (tokens.length + 1) {} (Cursor.ofTokens (Text.normalizeLineEndings text) tokens)
    have hblank : ({} : Document).placed source = {} := rfl
    rw [hblank] at hread
    dsimp only [ofTokens]
    rw [hread]
    cases readWithin none (tokens.length + 1) {} (Cursor.ofTokens (Text.normalizeLineEndings text) tokens) <;> rfl

end Document
end RequestLang
