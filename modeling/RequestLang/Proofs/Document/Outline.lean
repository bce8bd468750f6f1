import RequestLang.Proofs.Document.Spans
import RequestLang.Proofs.Text.Place

/-! The spans of a file that is read are faithful to its text, and what stands at an offset is told
by the one span that holds it. -/
namespace RequestLang
open Lexer Cursor

variable {s : String} {low : Nat} {c c' : Cursor}

/-- All spans of parts but that of the URL. -/
def RequestSpans.others (s : RequestSpans) : List Span :=
  s.name.toList ++ s.tags ++ s.auth.toList ++ s.certificate.toList ++ s.headers ++ s.queries ++
    s.payload.toList ++ s.output.toList ++ s.script.toList

namespace RequestSpans

theorem others_name (p : RequestSpans) (span : Span) :
    ({ p with name := some span } : RequestSpans).others.Subperm (span :: p.others) := by
  refine List.subperm_ext_iff.mpr fun x _ => ?_
  simp only [others, Option.toList_some, List.count_append, List.count_cons, List.count_nil]
  omega

theorem others_tags (p : RequestSpans) (span : Span) :
    ({ p with tags := p.tags ++ [span] } : RequestSpans).others.Subperm (span :: p.others) := by
  refine List.subperm_ext_iff.mpr fun x _ => ?_
  simp only [others, List.count_append, List.count_cons, List.count_nil]
  omega

end RequestSpans

namespace Request

/-- A span that is recorded with a clause may take the place of an earlier one. -/
theorem others_add (r : Request) (x : Clause) (span : Span) :
    (r.add x span).spans.others.Subperm (span :: r.spans.others) := by
  refine List.subperm_ext_iff.mpr fun y _ => ?_
  cases x <;>
    simp only [add, RequestSpans.others, Option.toList_some, List.count_append, List.count_cons, List.count_nil] <;>
    omega

/-- What is said at the spans of the name, the headers and the queries. -/
structure Cites (s : String) (r : Request) : Prop where
  name : Option.Rel (fun name span => span.Says s name) r.name r.spans.name
  headers : List.Forall₂ (fun h span => Clause.Reads .header (.header h.1 h.2) (span.textIn s)) r.headers r.spans.headers
  queries : List.Forall₂ (fun q span => Clause.Reads .query (.query q.1 q.2) (span.textIn s)) r.queries r.spans.queries

theorem recorded_readTag {r r' : Request} {t : Token} (h : Recorded s low c r.spans.others) (hcite : r.Cites s)
    (hc : c.Over s) (ht : c.token? = some t) (htag : t.kind = .tag) (hread : r.readTag t c = .ok (r', c')) :
    Recorded s low c' r'.spans.others ∧ r'.Cites s := by
  obtain ⟨-, hname⟩ | ⟨rfl, flags, rfl⟩ | ⟨value, -, hreach, rfl⟩ := readTag_eq_ok hread
  · obtain ⟨name, base, c₁, hreach, hvalue, hrest, -, rfl⟩ := readName_eq_ok hname
    have hc₁ := hc.reaches hreach.of_advance
    obtain ⟨hmark, hsays⟩ := says_of_textValue hc₁ hvalue
    have hnext := ((h.reaches hc hreach.of_advance).mark hc₁ hmark).reaches (hc₁.reaches c₁.reaches_advance) hrest
    exact ⟨hnext.subperm (r.spans.others_name _), .some hsays, hcite.headers, hcite.queries⟩
  · exact ⟨h.reaches hc c.reaches_advance, hcite.name, hcite.headers, hcite.queries⟩
  · have hmark : c.Marks c' := ⟨⟨t, ht, by simp [Token.isIgnorable, htag]⟩, hreach⟩
    have hspan : c.spanTo c' = ⟨t.start, c'.lastEnd⟩ := by
      rw [spanTo, offset, ht]
      rfl
    refine ⟨(h.mark hc hmark).subperm ?_, hcite.name, hcite.headers, hcite.queries⟩
    exact hspan ▸ r.spans.others_tags _

theorem recorded_readTags {n : Nat} {r r' : Request} (h : Recorded s low c r.spans.others) (hcite : r.Cites s)
    (hc : c.Over s) (hread : readTags n r c = .ok (r', c')) : Recorded s low c' r'.spans.others ∧ r'.Cites s := by
  induction n generalizing r c with
  | zero =>
    obtain ⟨rfl, rfl⟩ := Prod.mk.inj (Except.ok.inj hread)
    exact ⟨h, hcite⟩
  | succ n ih =>
    simp only [readTags] at hread
    split at hread
    · rename_i t ht
      split at hread
      · rename_i htag
        obtain ⟨⟨r₁, c₁⟩, h₁, hread⟩ := bind_eq_ok.mp hread
        obtain ⟨hnext, hcites⟩ := recorded_readTag h hcite hc ht htag h₁
        have hc₁ := hc.reaches (reaches_readTag h₁).of_advance
        exact ih (hnext.reaches hc₁ c₁.reaches_skip) hcites (hc₁.reaches c₁.reaches_skip) hread
      · obtain ⟨rfl, rfl⟩ := Prod.mk.inj (Except.ok.inj hread)
        exact ⟨h, hcite⟩
    · obtain ⟨rfl, rfl⟩ := Prod.mk.inj (Except.ok.inj hread)
      exact ⟨h, hcite⟩

/-- The URL is recorded behind all tags. -/
theorem recorded_readTarget {r r' : Request} (h : Recorded s low c r.spans.others) (hcite : r.Cites s) (hc : c.Over s)
    (hread : r.readTarget c = .ok (r', c')) :
    Recorded s low c' (r'.spans.url :: r'.spans.others) ∧ r'.Cites s ∧ r'.spans.url.Says s r'.url := by
  obtain ⟨method, url, c₁, hreach, hvalue, rfl, rfl⟩ := readTarget_eq_ok hread
  have hc₁ := hc.reaches hreach
  obtain ⟨hmark, hsays⟩ := says_of_textValue hc₁ hvalue
  exact ⟨(h.reaches hc hreach).mark hc₁ hmark, ⟨hcite.name, hcite.headers, hcite.queries⟩, hsays⟩

theorem at?_eq_some {kind : ClauseKind} (h : ClauseKind.at? c = some kind) : ∃ t, c.token? = some t ∧
    (kind = .query → t.isOp "?") ∧ (kind = .header → c.opensHeader) := by
  unfold ClauseKind.at? at h
  cases ht : c.token? with
  | none => simp [ht] at h
  | some t =>
    simp only [ht, Option.bind_eq_bind, Option.bind_some] at h
    exact ⟨t, rfl, by grind, by grind⟩

theorem solid_of_skip {t : Token} (h : c.skip.token? = some t) : t.isIgnorable = false := by
  rw [skip_token?] at h
  simpa using List.find?_some h

theorem token?_skip_of_at? {kind : ClauseKind} (h : ClauseKind.at? c.skip = some kind) :
    ∃ t, c.skip.token? = some t ∧ t.isIgnorable = false := by
  obtain ⟨t, ht, -⟩ := at?_eq_some h
  exact ⟨t, ht, solid_of_skip ht⟩

theorem cites_add {r : Request} {kind : ClauseKind} {x : Clause} (hcite : r.Cites s) (hc : c.Over s)
    (hat : ClauseKind.at? c = some kind) (hread : Clause.read kind c = .ok (x, c')) :
    (r.add x (c.spanTo c')).Cites s := by
  have hreach := (Clause.reaches_read hread).of_advance
  obtain ⟨t, ht, hquery, hheader⟩ := at?_eq_some hat
  cases kind with
  | header =>
    obtain ⟨run, hrun, hahead, hsettled⟩ := Clause.spelled_header (hheader rfl) hread
    have hreads := Clause.reads_spanTo hrun hc hreach hahead hsettled
    cases hrun with
    | header => exact ⟨hcite.name, List.rel_append hcite.headers (.cons hreads .nil), hcite.queries⟩
  | query =>
    obtain ⟨run, hrun, hahead, hsettled⟩ := Clause.spelled_query (by simpa [ht] using hquery rfl) hread
    have hreads := Clause.reads_spanTo hrun hc hreach hahead hsettled
    cases hrun with
    | query => exact ⟨hcite.name, hcite.headers, List.rel_append hcite.queries (.cons hreads .nil)⟩
  | auth | certificate | redirect | payload =>
    obtain ⟨⟨a, c₁⟩, -, h⟩ := bind_eq_ok.mp hread
    obtain ⟨rfl, rfl⟩ := Prod.mk.inj (Except.ok.inj h)
    exact ⟨hcite.name, hcite.headers, hcite.queries⟩
  | output =>
    obtain ⟨⟨path, c₁⟩, -, h⟩ := bind_eq_ok.mp hread
    obtain ⟨c₂, -, h⟩ := bind_eq_ok.mp h
    obtain ⟨rfl, rfl⟩ := Prod.mk.inj (Except.ok.inj h)
    exact ⟨hcite.name, hcite.headers, hcite.queries⟩
  | script =>
    obtain ⟨block, -, h⟩ := bind_eq_ok.mp hread
    dsimp only at h
    split at h
    · obtain ⟨rfl, rfl⟩ := Prod.mk.inj (Except.ok.inj h)
      exact ⟨hcite.name, hcite.headers, hcite.queries⟩
    · obtain ⟨rfl, rfl⟩ := Prod.mk.inj (Except.ok.inj h)
      exact ⟨hcite.name, hcite.headers, hcite.queries⟩

theorem recorded_readClauses {n : Nat} {r r' : Request} (h : Recorded s low c (r.spans.url :: r.spans.others))
    (hcite : r.Cites s) (hc : c.Over s) (hread : readClauses n r c = .ok (r', c')) :
    Recorded s low c' (r'.spans.url :: r'.spans.others) ∧ r'.Cites s ∧ r'.url = r.url ∧ r'.spans.url = r.spans.url := by
  induction n generalizing r c with
  | zero =>
    obtain ⟨rfl, rfl⟩ := Prod.mk.inj (Except.ok.inj hread)
    exact ⟨h, hcite, rfl, rfl⟩
  | succ n ih =>
    obtain ⟨-, rfl, rfl⟩ | ⟨kind, x, c₁, hat, -, hclause, hrest⟩ := readClauses_eq_ok hread
    · exact ⟨h.reaches hc c.reaches_skip, hcite, rfl, rfl⟩
    · have hskip := hc.reaches c.reaches_skip
      have hreach := Clause.reaches_read hclause
      have hmark : c.skip.Marks c₁ := ⟨token?_skip_of_at? hat, hreach⟩
      have hcites := cites_add hcite hskip hat hclause
      have hurl : (r.add x (c.skip.spanTo c₁)).url = r.url ∧ (r.add x (c.skip.spanTo c₁)).spans.url = r.spans.url := by
        cases x <;> exact ⟨rfl, rfl⟩
      have hnext : Recorded s low c₁
          ((r.add x (c.skip.spanTo c₁)).spans.url :: (r.add x (c.skip.spanTo c₁)).spans.others) := by
        refine ((h.reaches hc c.reaches_skip).mark hskip hmark).subperm ?_
        rw [hurl.2]
        exact ((List.subperm_cons _).mpr (r.others_add x _)).trans (List.Perm.swap ..).subperm
      obtain ⟨-, rfl, rfl⟩ | ⟨-, hrest⟩ := hrest
      · exact ⟨hnext, hcites, hurl⟩
      · obtain ⟨hlast, hcites', hurl', hspan'⟩ := ih hnext hcites (hskip.reaches hreach.of_advance) hrest
        exact ⟨hlast, hcites', hurl'.trans hurl.1, hspan'.trans hurl.2⟩

/-- The spans of a request are those of its parts, which lie in the whole of it and apart from each
other, and what is said there is what was read. -/
structure Faithful (s : String) (r : Request) : Prop extends r.Cites s where
  whole : r.spans.whole.Fits s
  parts : ∀ part ∈ r.parts, part.1.Fits s ∧
    r.spans.whole.start ≤ part.1.start ∧ part.1.stop ≤ r.spans.whole.stop
  apart : r.parts.Pairwise fun p q => p.1.Apart q.1
  url : r.spans.url.Says s r.url

theorem map_fst_parts_perm (r : Request) : (r.parts.map Prod.fst).Perm (r.spans.url :: r.spans.others) := by
  refine List.perm_iff_count.mpr fun x => ?_
  simp only [Request.parts, RequestSpans.others, List.map_append, List.map_map, List.map_cons, List.map_nil,
    Function.comp_def, List.map_id', List.count_append, List.count_cons, List.count_nil]
  omega

theorem faithful_read {source : Option String} {r : Request} {t : Token} (hc : c.Over s) (ht : c.token? = some t)
    (hsolid : t.isIgnorable = false) (hread : read source c = .ok (r, c')) :
    c.Marks c' ∧ r.spans.whole = c.spanTo c' ∧ r.Faithful s := by
  obtain ⟨r₁, r₂, r₃, c₁, c₂, h₁, h₂, h₃, rfl⟩ := read_eq_ok hread
  have hreach₁ := reaches_readTags h₁
  have hc₁ := hc.reaches hreach₁
  obtain ⟨-, -, c₃, hreach₂, -, rfl, -⟩ := readTarget_eq_ok h₂
  have hmark : c.Marks c' :=
    ⟨⟨t, ht, hsolid⟩, (hreach₁.trans hreach₂).advance_advance.trans (reaches_readClauses h₃)⟩
  have hblank : Recorded s c.offset c ({ description := c.leadingComments?, source } : Request).spans.others :=
    ⟨Nat.le_refl _, fun _ h => absurd h List.not_mem_nil, .nil⟩
  have hcites : ({ description := c.leadingComments?, source } : Request).Cites s := ⟨.none, .nil, .nil⟩
  obtain ⟨htags, hcites₁⟩ := recorded_readTags hblank hcites hc h₁
  obtain ⟨htarget, hcites₂, hurl⟩ := recorded_readTarget htags hcites₁ hc₁ h₂
  obtain ⟨hlast, hcites₃, hsame, hspan⟩ := recorded_readClauses htarget hcites₂ (hc₁.reaches hreach₂.advance) h₃
  refine ⟨hmark, rfl, ⟨hcites₃.name, hcites₃.headers, hcites₃.queries⟩, hmark.fits hc, fun part hpart => ?_, ?_, ?_⟩
  · have hmem := (map_fst_parts_perm r₃).subset (List.mem_map_of_mem hpart)
    exact hlast.fits part.1 hmem
  · have hapart := ((map_fst_parts_perm r₃).pairwise_iff Or.symm).mpr hlast.apart
    exact List.pairwise_map.mp hapart
  · rw [← hsame, ← hspan] at hurl
    exact hurl

end Request

namespace Document

/-- The spans of a file: requests stand one behind the other, and each span is one of its text. -/
structure Faithful (s : String) (d : Document) : Prop where
  imports : ∀ i ∈ d.imports, i.span.Fits s
  vars : ∀ v ∈ d.vars, v.span.Fits s
  requests : ∀ r ∈ d.requests, r.Faithful s
  ordered : d.requests.Pairwise fun r r' => r.spans.whole.stop ≤ r'.spans.whole.start

theorem faithful_readWithin {source : Option String} {n : Nat} {d d' : Document} (hd : d.Faithful s)
    (hbefore : ∀ r ∈ d.requests, r.spans.whole.stop ≤ c.lastEnd) (hc : c.Over s)
    (h : readWithin source n d c = .ok d') : d'.Faithful s := by
  induction n generalizing d c with
  | zero =>
    cases h
    exact hd
  | succ n ih =>
    have hskip := hc.reaches c.reaches_skip
    have hbefore : ∀ r ∈ d.requests, r.spans.whole.stop ≤ c.skip.lastEnd :=
      fun r hr => (hbefore r hr).trans (c.reaches_skip.lastEnd_le hc)
    have hlater {c' : Cursor} (hreach : c.skip.Reaches c') : ∀ r ∈ d.requests, r.spans.whole.stop ≤ c'.lastEnd :=
      fun r hr => (hbefore r hr).trans (hreach.lastEnd_le hskip)
    simp only [readWithin] at h
    split at h
    · rename_i t ht
      have hsolid := Request.solid_of_skip ht
      split at h
      · obtain ⟨⟨i, c₁⟩, h₁, h⟩ := bind_eq_ok.mp h
        obtain ⟨hreach, hspan⟩ := Import.reaches_read h₁
        refine ih ?_ ?_ (hskip.reaches hreach.of_advance) h
        · refine ⟨fun j hj => ?_, hd.vars, hd.requests, hd.ordered⟩
          rcases List.mem_append.mp hj with hj | hj
          · exact hd.imports j hj
          · rw [List.mem_singleton.mp hj, hspan]
            exact Marks.fits ⟨⟨t, ht, hsolid⟩, hreach⟩ hskip
        · exact hlater hreach.of_advance
      split at h
      · obtain ⟨⟨v, c₁⟩, h₁, h⟩ := bind_eq_ok.mp h
        obtain ⟨hreach, hspan⟩ := Variable.reaches_read h₁
        refine ih ?_ ?_ (hskip.reaches hreach.of_advance) h
        · refine ⟨hd.imports, fun w hw => ?_, hd.requests, hd.ordered⟩
          rcases List.mem_append.mp hw with hw | hw
          · exact hd.vars w hw
          · rw [List.mem_singleton.mp hw, hspan]
            exact Marks.fits ⟨⟨t, ht, hsolid⟩, hreach⟩ hskip
        · exact hlater hreach.of_advance
      split at h
      · obtain ⟨⟨r, c₁⟩, h₁, h⟩ := bind_eq_ok.mp h
        obtain ⟨hmark, hwhole, hfaithful⟩ := Request.faithful_read hskip ht hsolid h₁
        have hreach := hmark.reaches.of_advance
        refine ih ?_ ?_ (hskip.reaches hreach) h
        · refine ⟨hd.imports, hd.vars, List.forall_mem_append.mpr ⟨hd.requests, by simpa using hfaithful⟩, ?_⟩
          refine List.pairwise_append.mpr ⟨hd.ordered, List.pairwise_singleton .., fun r' hr' _ hr => ?_⟩
          rw [List.mem_singleton.mp hr, hwhole]
          exact (hbefore r' hr').trans hskip.lastEnd_le_offset
        · refine List.forall_mem_append.mpr ⟨hlater hreach, fun r' hr' => ?_⟩
          rw [List.mem_singleton.mp hr', hwhole]
          exact Nat.le_refl _
      · simp at h
    · cases h
      exact hd

/-- The parts of all requests, each with its request and the place of that. -/
def components (d : Document) : List ((Request × Nat) × Span × NodeKind) :=
  d.requests.zipIdx.flatMap fun e => e.1.parts.map (e, ·)

/-- What is told about an offset in a part. -/
def nodeOf (d : Document) (x : (Request × Nat) × Span × NodeKind) : NodeAt where
  kind := x.2.2
  target := some (x.1.1.displayName x.1.2)
  base := x.1.1.base
  baseStart := x.1.1.base.bind d.startOf?
  span := if x.2.2 = .script then x.1.1.spans.script else none

theorem components_apart {d : Document} (h : d.Faithful s) : d.components.Pairwise fun x y => x.2.1.Apart y.2.1 := by
  have hordered : d.requests.zipIdx.Pairwise fun e e' => e.1.spans.whole.stop ≤ e'.1.spans.whole.start := by
    have hmap := h.ordered
    rwa [← List.zipIdx_map_fst 0 d.requests, List.pairwise_map] at hmap
  refine List.pairwise_flatMap.mpr ⟨fun e he => ?_, hordered.imp_of_mem fun he he' hle x hx y hy => .inl ?_⟩
  · exact List.pairwise_map.mpr (h.requests e.1 (List.fst_mem_of_mem_zipIdx he)).apart
  · obtain ⟨part, hpart, rfl⟩ := List.mem_map.mp hx
    obtain ⟨part', hpart', rfl⟩ := List.mem_map.mp hy
    obtain ⟨-, -, hstop⟩ := (h.requests _ (List.fst_mem_of_mem_zipIdx he)).parts part hpart
    obtain ⟨-, hstart, -⟩ := (h.requests _ (List.fst_mem_of_mem_zipIdx he')).parts part' hpart'
    exact hstop.trans (hle.trans hstart)

/-- Whether an offset lies in the whole of a request need not be asked. -/
theorem kindAt?_eq {r : Request} (h : r.Faithful s) (p : Nat) :
    r.kindAt? p = (r.parts.find? (·.1.holds p)).map Prod.snd := by
  rw [Request.kindAt?]
  split
  · rfl
  · rename_i hout
    rw [eq_comm, Option.map_eq_none_iff, List.find?_eq_none]
    intro part hpart hholds
    obtain ⟨-, hstart, hstop⟩ := h.parts part hpart
    simp only [Span.holds, Bool.and_eq_true, decide_eq_true_eq, not_and, not_lt] at hout hholds
    exact absurd (hout (hstart.trans hholds.1)) (Nat.not_le.mpr (Nat.lt_of_lt_of_le hholds.2 hstop))

theorem nodeAt_eq {d : Document} (h : d.Faithful s) (p : Nat) :
    d.nodeAt p = ((d.components.find? (·.2.1.holds p)).map d.nodeOf).getD { kind := .comment } := by
  rw [nodeAt, components, List.find?_flatMap, List.map_findSome?, ← List.head?_filterMap, ← List.head?_filterMap]
  refine congrArg (fun l => (List.head? l).getD _) (List.filterMap_congr fun e he => ?_)
  dsimp only [Function.comp_apply]
  rw [kindAt?_eq (h.requests e.1 (List.fst_mem_of_mem_zipIdx he)), List.find?_map, Option.map_map, Option.map_map]
  rfl

/-- No two parts hold the same offset. -/
theorem eq_of_holds {d : Document} (h : d.Faithful s) {p : Nat} {x y : (Request × Nat) × Span × NodeKind}
    (hx : x ∈ d.components) (hy : y ∈ d.components) (hxp : x.2.1.holds p) (hyp : y.2.1.holds p) : x = y := by
  by_contra hne
  have : Std.Symm fun x y : (Request × Nat) × Span × NodeKind => x.2.1.Apart y.2.1 := ⟨fun _ _ => Or.symm⟩
  have hapart := (components_apart h).forall hx hy hne
  simp only [Span.holds, Bool.and_eq_true, decide_eq_true_eq] at hxp hyp
  simp only [Span.Apart] at hapart
  omega

theorem kind_ne_comment {d : Document} {x : (Request × Nat) × Span × NodeKind} (hx : x ∈ d.components) :
    x.2.2 ≠ .comment := by
  obtain ⟨e, -, hmem⟩ := List.mem_flatMap.mp hx
  obtain ⟨part, hpart, rfl⟩ := List.mem_map.mp hmem
  have hauth (a : Option Auth) : Request.authKind a ≠ .comment := by
    unfold Request.authKind
    split <;> exact nofun
  have hpayload (p : Option PayloadTerm) : Request.payloadKind p ≠ .comment := by
    unfold Request.payloadKind
    split <;> exact nofun
  have hparts : ∀ kind ∈ e.1.parts.map Prod.snd, kind ≠ .comment := by
    simp only [Request.parts, List.map_append, List.map_map, List.map_cons, List.map_nil, Function.comp_def,
      List.forall_mem_append, List.forall_mem_map, List.forall_mem_singleton]
    simp [hauth, hpayload]
  exact hparts _ (List.mem_map_of_mem hpart)

theorem found {d : Document} {p : Nat} {x : (Request × Nat) × Span × NodeKind}
    (h : d.components.find? (·.2.1.holds p) = some x) : x ∈ d.components ∧ x.2.1.holds p := by
  have hholds := List.find?_some h
  exact ⟨List.mem_of_find?_eq_some h, hholds⟩

/-- Each span of a text that is read stands for what was read there, and an offset is told by the
one part that holds it; outside of all parts is comment. -/
theorem spans_faithful {text : String} {source : Option String} {d : Document} (h : parse text source = .ok d) :
    d.Faithful (Text.normalizeLineEndings text) ∧ ∀ p,
      (∀ x ∈ d.components, ∀ y ∈ d.components, x.2.1.holds p → y.2.1.holds p → x = y) ∧
      (∀ x ∈ d.components, x.2.1.holds p → d.nodeAt p = d.nodeOf x) ∧
      ((d.nodeAt p).kind = .comment ↔ ∀ x ∈ d.components, x.2.1.holds p = false) := by
  obtain ⟨tokens, htokens, hread⟩ := parse_eq_ok h
  have hfaithful : d.Faithful (Text.normalizeLineEndings text) := by
    refine faithful_readWithin ?_ ?_ (c := Cursor.ofTokens _ tokens)
      ⟨htokens, rfl, Text.not_mem_normalizeLineEndings text⟩ hread
    · exact ⟨fun _ h => absurd h List.not_mem_nil, fun _ h => absurd h List.not_mem_nil,
        fun _ h => absurd h List.not_mem_nil, .nil⟩
    · exact fun _ h => absurd h List.not_mem_nil
  refine ⟨hfaithful, fun p => ⟨fun x hx y hy => eq_of_holds hfaithful hx hy, fun x hx hholds => ?_, ?_⟩⟩
  · rw [nodeAt_eq hfaithful]
    cases hfind : d.components.find? (·.2.1.holds p) with
    | none => exact absurd hholds (List.find?_eq_none.mp hfind x hx)
    | some y =>
      obtain ⟨hy, hyp⟩ := found hfind
      rw [eq_of_holds hfaithful hx hy hholds hyp]
      rfl
  · rw [nodeAt_eq hfaithful]
    cases hfind : d.components.find? (·.2.1.holds p) with
    | none => simpa using List.find?_eq_none.mp hfind
    | some y =>
      obtain ⟨hy, hyp⟩ := found hfind
      refine ⟨fun hkind => absurd hkind (kind_ne_comment hy), fun hnone => ?_⟩
      rw [hnone y hy] at hyp
      cases hyp

theorem spans_faithful_posted :
    let text := "// é\n@name(\"a\") @proxy(\"p\")\r\nPOST {{u}}\n\"k\" /* : */ : \"\"\n? \"q\" = {{w}}\ntext(\"b\") > {% %}"
    ∃ d, parse text none = .ok d ∧
      d.components.map Prod.snd = [(⟨12, 15⟩, .name), (⟨17, 28⟩, .extraArgs), (⟨34, 39⟩, .url), (⟨40, 56⟩, .header),
        (⟨57, 70⟩, .urlParams), (⟨71, 80⟩, .payloadData), (⟨81, 88⟩, .script)] ∧
      d.Faithful (Text.normalizeLineEndings text) ∧ (d.nodeAt 56).kind = .comment := by
  intro text
  obtain ⟨d, hd, hparts⟩ := exists_ok_of_map (x := parse text none) (f := fun d => d.components.map Prod.snd)
    (b := [(⟨12, 15⟩, .name), (⟨17, 28⟩, .extraArgs), (⟨34, 39⟩, .url), (⟨40, 56⟩, .header), (⟨57, 70⟩, .urlParams),
      (⟨71, 80⟩, .payloadData), (⟨81, 88⟩, .script)]) (by decide +kernel)
  obtain ⟨hfaithful, hnodes⟩ := spans_faithful hd
  refine ⟨d, hd, hparts, hfaithful, (hnodes 56).2.2.mpr fun x hx => ?_⟩
  have hmem : x.2 ∈ d.components.map Prod.snd := List.mem_map_of_mem hx
  have hout : ∀ part ∈ d.components.map Prod.snd, part.1.holds 56 = false := by
    rw [hparts]
    decide
  exact hout _ hmem

end Document
end RequestLang
