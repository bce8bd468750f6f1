import RequestLang.Proofs.Document.Read.Term
import RequestLang.Proofs.Document.Script

/-! Payloads, scripts, requests and documents that are read from a text are legible. -/
namespace RequestLang
open Lexer Lexeme Cursor
variable {c c' : Cursor}

namespace PayloadTerm

theorem legible_chunksWithin (n : Nat) (hc : c.Sound) : ∀ l ∈ (chunksWithin n c).1, l.Legible := by
  induction n generalizing c with
  | zero => exact fun _ hl => absurd hl List.not_mem_nil
  | succ n ih =>
    have hskip : c.skip.Sound := hc.reaches c.reaches_skip
    simp only [chunksWithin]
    cases ht : c.skip.token? with
    | none => exact fun _ hl => absurd hl List.not_mem_nil
    | some t =>
      obtain ⟨ts, hts⟩ := token?_eq_some ht
      dsimp only
      split
      · intro l hl
        rcases List.mem_cons.mp hl with rfl | hl
        · exact legible_literal (hts ▸ hskip.ahead)
        · exact ih (hskip.reaches c.skip.reaches_advance) l hl
      · exact fun _ hl => absurd hl List.not_mem_nil

theorem legible_readRaw {p : PayloadTerm} (hc : c.Sound) (h : readRaw c = .ok (p, c')) : p.Legible := by
  simp only [readRaw] at h
  split at h
  · simp at h
  · rename_i hne
    obtain ⟨⟨mime, c₁⟩, -, h⟩ := bind_eq_ok.mp h
    obtain ⟨rfl, rfl⟩ := Prod.mk.inj (Except.ok.inj h)
    exact ⟨by simpa using hne, legible_chunksWithin _ hc⟩

theorem legible_readBody {call : String} {p : PayloadTerm} (hc : c.Sound) (h : readBody call c = .ok (p, c'))
    (hclose : Closes c'.ahead) : p.Legible := by
  have hterm {make : JsonTerm → PayloadTerm} (hmake : ∀ x, (make x).Legible ↔ x.Legible)
      (h : ∃ x, JsonTerm.read c = .ok (x, c') ∧ p = make x) : p.Legible := by
    obtain ⟨x, hread, rfl⟩ := h
    exact (hmake x).mpr (JsonTerm.legible_read hc hread hclose)
  simp only [readBody] at h
  split at h
  · exact hterm (fun _ => Iff.rfl) (making_eq_ok.mp h)
  · exact hterm (fun _ => Iff.rfl) (making_eq_ok.mp h)
  · split at h
    · exact hterm (fun _ => Iff.rfl) (making_eq_ok.mp h)
    · exact legible_readRaw hc h
  · exact legible_readRaw hc h
  · obtain ⟨⟨path, c₁⟩, -, h⟩ := bind_eq_ok.mp h
    obtain ⟨⟨mime, c₂⟩, -, h⟩ := bind_eq_ok.mp h
    obtain ⟨rfl, rfl⟩ := Prod.mk.inj (Except.ok.inj h)
    trivial
  · obtain ⟨⟨parts, c₁⟩, -, h⟩ := bind_eq_ok.mp h
    obtain ⟨rfl, rfl⟩ := Prod.mk.inj (Except.ok.inj h)
    trivial

theorem legible_read {p : PayloadTerm} (hc : c.Sound) (h : read c = .ok (p, c')) : p.Legible := by
  obtain ⟨call, -, h⟩ := bind_eq_ok.mp h
  split at h
  · obtain ⟨⟨path, c₁⟩, -, h⟩ := bind_eq_ok.mp h
    obtain ⟨⟨mime, c₂⟩, -, h⟩ := bind_eq_ok.mp h
    obtain ⟨rfl, rfl⟩ := Prod.mk.inj (Except.ok.inj h)
    trivial
  · obtain ⟨c₁, h₁, h⟩ := bind_eq_ok.mp h
    obtain ⟨⟨x, c₂⟩, h₂, h⟩ := bind_eq_ok.mp h
    obtain ⟨c₃, h₃, h⟩ := bind_eq_ok.mp h
    obtain ⟨rfl, rfl⟩ := Prod.mk.inj (Except.ok.inj h)
    have hbody : c₁.skip.Sound :=
      hc.reaches (reaches_expectPunct h₁).of_skip.of_advance.skip
    exact legible_readBody hbody h₂ (closes_of_isPunct (expectPunct_eq_ok.mp h₃).1 (by decide))

end PayloadTerm

namespace Clause

/-- What a request takes over from a clause is legible. -/
structure Sound (x : Clause) : Prop where
  payload : ∀ p, x = .payload p → p.Legible
  script : ∀ s, x = .script s → s.Legible

theorem sound_readScript {x : Clause} (hc : c.Sound) (h : readScript c = .ok (x, c')) : x.Sound := by
  obtain ⟨block, h₁, h⟩ := bind_eq_ok.mp h
  obtain ⟨ht, hkind⟩ := expect_eq_ok.mp h₁
  obtain ⟨ts, hts⟩ := token?_eq_some ht
  have hinline : c.advance.skipInline.Sound := hc.reaches c.reaches_advance.skipInline
  have hscript := Script.legible_ofBlock (hts ▸ hinline.ahead) (by simpa using hkind)
  dsimp only at h
  split at h
  · obtain ⟨rfl, rfl⟩ := Prod.mk.inj (Except.ok.inj h)
    refine ⟨fun _ hp => (by cases hp), fun s hs => ?_⟩
    cases hs
    exact hscript _
  · obtain ⟨rfl, rfl⟩ := Prod.mk.inj (Except.ok.inj h)
    refine ⟨fun _ hp => (by cases hp), fun s hs => ?_⟩
    cases hs
    exact hscript _

theorem sound_read {kind : ClauseKind} {x : Clause} (hc : c.Sound) (h : read kind c = .ok (x, c')) : x.Sound := by
  cases kind with
  | payload =>
    obtain ⟨⟨p, c₁⟩, h₁, h⟩ := bind_eq_ok.mp h
    obtain ⟨rfl, rfl⟩ := Prod.mk.inj (Except.ok.inj h)
    refine ⟨fun _ hp => ?_, fun _ hs => by cases hs⟩
    cases hp
    exact PayloadTerm.legible_read hc h₁
  | script => exact sound_readScript hc h
  | auth | certificate | redirect =>
    obtain ⟨⟨a, c₁⟩, -, h⟩ := bind_eq_ok.mp h
    obtain ⟨rfl, rfl⟩ := Prod.mk.inj (Except.ok.inj h)
    exact ⟨fun _ hp => (by cases hp), fun _ hs => (by cases hs)⟩
  | query =>
    obtain ⟨⟨k, c₁⟩, -, h⟩ := bind_eq_ok.mp h
    obtain ⟨t, -, h⟩ := bind_eq_ok.mp h
    obtain ⟨⟨v, c₂⟩, -, h⟩ := bind_eq_ok.mp h
    obtain ⟨rfl, rfl⟩ := Prod.mk.inj (Except.ok.inj h)
    exact ⟨fun _ hp => (by cases hp), fun _ hs => (by cases hs)⟩
  | header =>
    obtain ⟨t, -, h⟩ := bind_eq_ok.mp h
    obtain ⟨⟨v, c₂⟩, -, h⟩ := bind_eq_ok.mp h
    obtain ⟨rfl, rfl⟩ := Prod.mk.inj (Except.ok.inj h)
    exact ⟨fun _ hp => (by cases hp), fun _ hs => (by cases hs)⟩
  | output =>
    obtain ⟨⟨path, c₁⟩, -, h⟩ := bind_eq_ok.mp h
    obtain ⟨c₂, -, h⟩ := bind_eq_ok.mp h
    obtain ⟨rfl, rfl⟩ := Prod.mk.inj (Except.ok.inj h)
    exact ⟨fun _ hp => (by cases hp), fun _ hs => (by cases hs)⟩

end Clause

namespace Request

theorem isTagKey_of_cuts {t : Token} {rest : List Char} (h : Cuts t.lexeme rest) (ht : t.kind = .tag)
    (hfree : t.text ∉ reservedTags) : IsTagKey (String.ofList (t.text.toList.dropWhile (· == '@'))) := by
  obtain ⟨key, htext, hkey⟩ := h.tag ht
  have htext : t.text = "@" ++ key := htext
  obtain ⟨c, cs, hcs, hstart, -⟩ := cons_of_isHeaded hkey
  have hne : c ≠ '@' := by
    rintro rfl
    exact absurd hstart (by decide)
  have hdrop : t.text.toList.dropWhile (· == '@') = key.toList := by
    rw [htext, String.toList_append, hcs]
    simp [hne]
  rw [hdrop, String.ofList_toList]
  exact ⟨hkey, htext ▸ hfree⟩

theorem legible_readTag {r r' : Request} {t : Token} (hr : r.Legible) (hc : c.Sound) (ht : c.token? = some t)
    (htag : t.kind = .tag) (h : r.readTag t c = .ok (r', c')) : r'.Legible := by
  obtain ⟨-, h⟩ | ⟨-, flags, rfl⟩ | ⟨value, hfree, -, rfl⟩ := readTag_eq_ok h
  · obtain ⟨name, base, c₁, -, -, -, -, rfl⟩ := readName_eq_ok h
    exact ⟨fun _ => rfl, hr.description, hr.tags, hr.payload, hr.script⟩
  · exact ⟨hr.base, hr.description, hr.tags, hr.payload, hr.script⟩
  · obtain ⟨ts, hts⟩ := token?_eq_some ht
    have hkey := isTagKey_of_cuts ((hts ▸ hc.ahead : Scanned (t :: ts)).cuts (by simp [htag])) htag hfree
    refine ⟨hr.base, hr.description, fun tag hmem => ?_, hr.payload, hr.script⟩
    rcases List.mem_append.mp hmem with hmem | hmem
    · exact hr.tags tag hmem
    · rw [List.mem_singleton.mp hmem]
      exact hkey

theorem legible_readTags {n : Nat} {r r' : Request} (hr : r.Legible) (hc : c.Sound)
    (h : readTags n r c = .ok (r', c')) : r'.Legible := by
  induction n generalizing r c with
  | zero =>
    obtain ⟨rfl, rfl⟩ := Prod.mk.inj (Except.ok.inj h)
    exact hr
  | succ n ih =>
    simp only [readTags] at h
    split at h
    · rename_i t ht
      split at h
      · rename_i htag
        obtain ⟨⟨r₁, c₁⟩, h₁, h⟩ := bind_eq_ok.mp h
        exact ih (legible_readTag hr hc ht htag h₁) (hc.reaches (reaches_readTag h₁).of_advance.skip) h
      · obtain ⟨rfl, rfl⟩ := Prod.mk.inj (Except.ok.inj h)
        exact hr
    · obtain ⟨rfl, rfl⟩ := Prod.mk.inj (Except.ok.inj h)
      exact hr

theorem legible_add {r : Request} (hr : r.Legible) {x : Clause} (hx : x.Sound) (span : Span) :
    (r.add x span).Legible := by
  cases x with
  | payload p =>
    refine ⟨hr.base, hr.description, hr.tags, fun q hq => ?_, hr.script⟩
    cases hq
    exact hx.payload p rfl
  | script s =>
    refine ⟨hr.base, hr.description, hr.tags, hr.payload, fun t ht => ?_⟩
    cases ht
    exact hx.script s rfl
  | auth | certificate | query | header | output =>
    exact ⟨hr.base, hr.description, hr.tags, hr.payload, hr.script⟩

theorem legible_readClauses {n : Nat} {r r' : Request} (hr : r.Legible) (hc : c.Sound)
    (h : readClauses n r c = .ok (r', c')) : r'.Legible := by
  induction n generalizing r c with
  | zero =>
    obtain ⟨rfl, rfl⟩ := Prod.mk.inj (Except.ok.inj h)
    exact hr
  | succ n ih =>
    have hskip : c.skip.Sound := hc.reaches c.reaches_skip
    obtain ⟨-, rfl, -⟩ | ⟨kind, x, c₁, -, -, h₁, ⟨-, rfl, -⟩ | ⟨-, h⟩⟩ := readClauses_eq_ok h
    · exact hr
    · exact legible_add hr (Clause.sound_read hskip h₁) _
    · exact ih (legible_add hr (Clause.sound_read hskip h₁) _)
        (hskip.reaches (Clause.reaches_read h₁).of_advance) h

theorem withoutBlank_suffix (body : List Char) : (match body with
    | ' ' :: cs => cs
    | cs => cs) <:+ body := by
  split
  · exact List.suffix_cons ..
  · exact List.suffix_refl _

theorem commentText_suffix (t : Token) : commentText t <:+ t.text.toList := by
  unfold commentText
  generalize t.text.toList = text
  refine (withoutBlank_suffix _).trans ?_
  split
  · exact (List.suffix_cons ..).trans (List.suffix_cons ..)
  · exact List.suffix_cons ..
  · exact List.suffix_refl _

theorem subset_of_mem_commentsBack {fresh : Bool} {ts : List Token} {line : List Char}
    (h : line ∈ commentsBack fresh ts) : ∃ t ∈ ts, line ⊆ t.text.toList := by
  induction ts generalizing fresh with
  | nil => cases h
  | cons t ts ih =>
    have hrest {fresh : Bool} (h : line ∈ commentsBack fresh ts) : ∃ t' ∈ t :: ts, line ⊆ t'.text.toList := by
      obtain ⟨t', ht', hline⟩ := ih h
      exact ⟨t', List.mem_cons_of_mem t ht', hline⟩
    rw [commentsBack] at h
    split at h
    · exact hrest h
    · split at h
      · cases h
      · exact hrest h
    · split at h
      · cases h
      · rcases List.mem_cons.mp h with rfl | h
        · exact ⟨t, List.mem_cons_self .., (commentText_suffix t).subset⟩
        · exact hrest h
    · cases h

theorem clean_leadingComments? {text : String} (hc : c.Sound) (h : c.leadingComments? = some text) :
    '\r' ∉ text.toList := by
  simp only [leadingComments?] at h
  split at h
  · cases h
  · cases h
    rw [String.toList_ofList]
    intro hr
    obtain ⟨line, hline, hr⟩ := Text.exists_of_mem_intercalate hr (by decide)
    obtain ⟨t, ht, hsub⟩ := subset_of_mem_commentsBack (List.mem_reverse.mp hline)
    exact hc.clean t (by simp [all, ht]) (hsub hr)

/-- A request that is read from a text is legible. -/
theorem legible_read {source : Option String} {r : Request} (hc : c.Sound) (h : read source c = .ok (r, c')) :
    r.Legible := by
  obtain ⟨r₁, r₂, r₃, c₁, c₂, h₁, h₂, h₃, rfl⟩ := read_eq_ok h
  have hblank : ({ description := c.leadingComments?, source } : Request).Legible :=
    ⟨fun h => (by cases h), fun _ htext => clean_leadingComments? hc htext, fun _ h => (by cases h),
      fun _ h => (by cases h), fun _ h => (by cases h)⟩
  have htags := legible_readTags hblank hc h₁
  have hc₁ : c₁.Sound := hc.reaches (reaches_readTags h₁)
  obtain ⟨method, url, c₃, hreach, -, rfl, rfl⟩ := readTarget_eq_ok h₂
  have hclauses : r₃.Legible := by
    refine legible_readClauses ?_ (hc₁.reaches hreach.advance) h₃
    exact ⟨htags.base, htags.description, htags.tags, htags.payload, htags.script⟩
  exact ⟨hclauses.base, hclauses.description, hclauses.tags, hclauses.payload, hclauses.script⟩

end Request

/-! What is read from a text is legible. -/

theorem VariableBody.legible_read {x : VariableBody} (hc : c.Sound) (h : read c = .ok (x, c'))
    (hclose : Closes c'.ahead) : x.Legible := by
  obtain ⟨t, ht, ⟨hkind, hdollar, args, -, rfl⟩ | ⟨u, -, -, rfl, -⟩ | ⟨term, hterm, rfl⟩⟩ := read_eq_ok h
  · obtain ⟨ts, hts⟩ := token?_eq_some ht
    obtain ⟨name, htext | htext, hname, -⟩ := ((hts ▸ hc.ahead : Scanned (t :: ts)).cuts (by simp [hkind])).identifier hkind
    · obtain ⟨d, ds, hds, hstart, -⟩ := cons_of_isHeaded hname
      have htext : t.text = name := htext
      have hfirst : d = '$' := by
        rw [String.startsWith_string_iff, htext, hds] at hdollar
        exact (List.cons_prefix_cons.mp hdollar).1.symm
      exact absurd hstart (by rw [hfirst]; decide)
    · have htext : t.text = "$" ++ name := htext
      have : String.ofList (t.text.toList.drop 1) = name := by
        rw [htext, String.toList_append]
        exact String.ofList_toList
      rw [Legible, this]
      exact hname
  · trivial
  · exact JsonTerm.legible_read hc hterm hclose

theorem Variable.legible_read {v : Variable} (hc : c.Sound) (h : Variable.read c = .ok (v, c')) : v.Legible := by
  obtain ⟨t, c₁, ht, hkind, hdollar, hname, ⟨u, hu, heq⟩, hbody, hclose, -⟩ := Variable.read_eq_ok h
  have hstart : c.advance.skip.Sound := hc.reaches c.reaches_advance.skip
  obtain ⟨ts, hts⟩ := token?_eq_some ht
  have hscan : Scanned (t :: ts) := hts ▸ hstart.ahead
  have hcut := hscan.cuts (by simp [hkind])
  have hstop : Stops Text.isWord (textOf ts) := by
    have hfind : ts.find? (!·.isIgnorable) = some u := by
      rw [skip_token?, advance, hts] at hu
      exact hu
    have htext : u.text = "=" := by
      simp only [Token.isOp, Bool.and_eq_true, beq_iff_eq] at heq
      exact heq.2
    exact hscan.cons.2.2.stops (by decide) hfind (by rw [htext]; exact (stops_cons ..).mpr (by decide))
  refine ⟨?_, ?_, ?_⟩
  · obtain ⟨name, htext | htext, hheaded, -⟩ := hcut.identifier hkind
    · rw [hname, show t.text = name from htext]
      exact hheaded
    · rw [show t.text = "$" ++ name from htext] at hdollar
      simp at hdollar
  · rw [hname]
    exact not_keyword_of_cuts hcut hkind hstop
  · exact VariableBody.legible_read (hstart.reaches (c.advance.skip.reaches_advance.skip.advance.skip)) hbody
      (closes_of_isPunct hclose (by decide))

namespace Document

theorem legible_readWithin {source : Option String} {n : Nat} {d d' : Document} (hd : d.Legible) (hc : c.Sound)
    (h : readWithin source n d c = .ok d') : d'.Legible := by
  induction n generalizing d c with
  | zero =>
    cases h
    exact hd
  | succ n ih =>
    have hskip : c.skip.Sound := hc.reaches c.reaches_skip
    simp only [readWithin] at h
    split at h
    · split at h
      · obtain ⟨⟨i, c₁⟩, h₁, h⟩ := bind_eq_ok.mp h
        have hnext : ({ d with imports := d.imports ++ [i] } : Document).Legible := ⟨hd.vars, hd.requests⟩
        exact ih hnext (hskip.reaches (Import.reaches_read h₁).1.of_advance) h
      split at h
      · obtain ⟨⟨v, c₁⟩, h₁, h⟩ := bind_eq_ok.mp h
        have hnext : ({ d with vars := d.vars ++ [v] } : Document).Legible := by
          refine ⟨fun w hw => ?_, hd.requests⟩
          rcases List.mem_append.mp hw with hw | hw
          · exact hd.vars w hw
          · rw [List.mem_singleton.mp hw]
            exact Variable.legible_read hskip h₁
        exact ih hnext (hskip.reaches (Variable.reaches_read h₁).1.of_advance) h
      split at h
      · obtain ⟨⟨r, c₁⟩, h₁, h⟩ := bind_eq_ok.mp h
        have hnext : ({ d with requests := d.requests ++ [r] } : Document).Legible := by
          refine ⟨hd.vars, fun w hw => ?_⟩
          rcases List.mem_append.mp hw with hw | hw
          · exact hd.requests w hw
          · rw [List.mem_singleton.mp hw]
            exact Request.legible_read hskip h₁
        exact ih hnext (hskip.reaches (Request.reaches_read h₁)) h
      · simp at h
    · cases h
      exact hd

/-- What is read from a text is legible. -/
theorem legible_parse {text : String} {source : Option String} {d : Document} (h : parse text source = .ok d) :
    d.Legible := by
  obtain ⟨tokens, htokens, hread⟩ := parse_eq_ok h
  have hscan : Scanned tokens := ⟨0, _, Text.not_mem_normalizeLineEndings text, htokens⟩
  refine legible_readWithin ⟨?_, ?_⟩ (c := Cursor.ofTokens _ tokens) hscan hread
  · exact fun _ hv => absurd hv List.not_mem_nil
  · exact fun _ hr => absurd hr List.not_mem_nil

end Document
end RequestLang
