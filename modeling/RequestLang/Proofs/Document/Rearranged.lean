import RequestLang.Proofs.Document.Exact.Lines
import RequestLang.Proofs.Document.RoundTrip

/-! The order of the clauses of a request. Headers and queries stay in order among themselves; beyond that the order
says nothing, as long as no slash opens a comment that ends further down. -/
namespace RequestLang
open Lexer Lexeme

namespace Request

/-- The same clauses in an order that differs but for the headers and for the queries among themselves. -/
structure Rearranges (ys xs : List Clause) : Prop where
  perm : ys.Perm xs
  headers : ys.filter (·.kind == .header) = xs.filter (·.kind == .header)
  queries : ys.filter (·.kind == .query) = xs.filter (·.kind == .query)

variable {xs ys : List Clause} {x : Clause}

theorem Apart.symm {x y : Clause} (h : Apart x y) : Apart y x := fun hkind => by
  rw [hkind]
  exact h hkind.symm

/-- Clauses of a kind that may stand once are one at most. -/
theorem length_filter_kind (h : xs.Pairwise Apart) {k : ClauseKind} (hk : k ≠ .header ∧ k ≠ .query) :
    (xs.filter (·.kind == k)).length ≤ 1 := by
  have hpairs := h.filter (·.kind == k)
  cases hfilter : xs.filter (·.kind == k) with
  | nil => simp
  | cons x rest =>
    cases rest with
    | nil => simp
    | cons y rest =>
      have hkind : ∀ z ∈ x :: y :: rest, z.kind = k := by
        intro z hz
        rw [← hfilter] at hz
        simpa using (List.mem_filter.mp hz).2
      rw [hfilter] at hpairs
      have hxy := (List.pairwise_cons.mp hpairs).1 y (by simp)
      rw [Apart, hkind x (by simp), hkind y (by simp)] at hxy
      exact absurd (hxy rfl) (by simp [hk])

theorem eq_of_perm_of_length_le_one {α : Type} {as bs : List α} (h : as.Perm bs) (hbs : bs.length ≤ 1) : as = bs := by
  cases bs with
  | nil => exact h.eq_nil
  | cons b bs =>
    obtain rfl := List.length_eq_zero_iff.mp (Nat.le_zero.mp (Nat.le_of_succ_le_succ hbs))
    exact h.eq_singleton

/-- Whatever their kind, clauses of one kind stay in order. -/
theorem Rearranges.filter_kind (h : Rearranges ys xs) (hapart : xs.Pairwise Apart) (k : ClauseKind) :
    ys.filter (·.kind == k) = xs.filter (·.kind == k) := by
  by_cases hk : k ≠ .header ∧ k ≠ .query
  · exact eq_of_perm_of_length_le_one (h.perm.filter _) (length_filter_kind hapart hk)
  · rw [not_and_or, not_not, not_not] at hk
    rcases hk with rfl | rfl
    · exact h.headers
    · exact h.queries

theorem merge_comm (r : Request) {x y : Clause} (h : x.kind ≠ y.kind) : (r.merge x).merge y = (r.merge y).merge x := by
  cases x <;> cases y <;> first | rfl | exact absurd rfl h

theorem foldl_merge_comm (r : Request) (h : ∀ y ∈ ys, x.kind ≠ y.kind) :
    ys.foldl merge (r.merge x) = (ys.foldl merge r).merge x := by
  induction ys generalizing r with
  | nil => rfl
  | cons y ys ih =>
    rw [List.foldl_cons, List.foldl_cons, merge_comm r (h y (by simp)), ih _ fun z hz => h z (by simp [hz])]

/-- What is put together from clauses depends on the order within a kind only. -/
theorem foldl_merge_congr (h : ∀ k, ys.filter (·.kind == k) = xs.filter (·.kind == k)) (r : Request) :
    ys.foldl merge r = xs.foldl merge r := by
  induction xs generalizing ys r with
  | nil =>
    cases ys with
    | nil => rfl
    | cons y ys => exact absurd (h y.kind) (by simp)
  | cons x xs ih =>
    -- what stands before the first clause of that kind is of other kinds, and `x` moves to the front past it
    have hx := h x.kind
    rw [List.filter_cons_of_pos (by simp), List.filter_eq_cons_iff] at hx
    obtain ⟨as, bs, rfl, has, -, hbs⟩ := hx
    have hother : ∀ y ∈ as, x.kind ≠ y.kind := fun y hy heq => has y hy (by simp [heq])
    have hrest (k : ClauseKind) : (as ++ bs).filter (·.kind == k) = xs.filter (·.kind == k) := by
      by_cases hk : x.kind = k
      · subst hk
        rw [List.filter_append, List.filter_eq_nil_iff.mpr has, hbs, List.nil_append]
      · simpa [hk] using h k
    rw [List.foldl_append, List.foldl_cons, ← foldl_merge_comm r hother, ← List.foldl_append, ih hrest, List.foldl_cons]

theorem payload_foldl_merge (h : ∀ x ∈ xs, x.kind ≠ .payload) (r : Request) :
    (xs.foldl merge r).payload = r.payload := by
  induction xs generalizing r with
  | nil => rfl
  | cons x xs ih =>
    rw [List.foldl_cons, ih fun y hy => h y (by simp [hy])]
    have hx := h x (by simp)
    cases x with
    | payload => exact absurd rfl hx
    | auth | certificate | query | header | output | script => rfl

theorem filter_kind_reread (xs : List Clause) (k : ClauseKind) :
    (xs.map Clause.reread).filter (·.kind == k) = (xs.filter (·.kind == k)).map Clause.reread := by
  rw [List.filter_map]
  simp [Function.comp_def]

/-- Where a clause is put among others one of which is of its kind, there is a second one of that kind. -/
theorem exists_second {as bs : List Clause} (hapart : (as ++ bs).Pairwise Apart) (hx : ∃ y ∈ as ++ bs, y.kind = x.kind) :
    ∃ cs z ds, as ++ x :: bs = cs ++ z :: ds ∧ cs.Pairwise Apart ∧ (∃ c ∈ cs, c.kind = z.kind) ∧ z.kind = x.kind := by
  obtain ⟨y, hy, hyx⟩ := hx
  rcases List.mem_append.mp hy with hy | hy
  · exact ⟨as, x, bs, rfl, (List.pairwise_append.mp hapart).1, ⟨y, hy, hyx⟩, rfl⟩
  · obtain ⟨bs, ds, rfl⟩ := List.append_of_mem hy
    refine ⟨as ++ x :: bs, y, ds, by simp, ?_, ⟨x, by simp, hyx.symm⟩, hyx⟩
    rw [← List.append_assoc] at hapart
    obtain ⟨hfront, -, hothers⟩ := List.pairwise_append.mp hapart
    refine (List.pairwise_middle Apart.symm).mpr (List.pairwise_cons.mpr ⟨fun z hz => ?_, hfront⟩)
    have hzy : Apart z y := hothers z hz y (by simp)
    rw [Apart, hyx] at hzy
    exact Apart.symm hzy

theorem settle_repeated {cs ds : List Clause} {z : Clause} (horder : Orderly cs) {r : Request}
    (hfree : ∀ k, r.repeated? k = none) (hz : ∃ c ∈ cs, c.kind = z.kind) {name : String}
    (hname : z.kind.once? = some name) : r.settle (cs ++ z :: ds) = .error name := by
  obtain ⟨c, hc, hcz⟩ := hz
  have hrepeated : (cs.foldl merge r).repeated? z.kind = some name := by
    rw [← hcz, repeated?_foldl_merge hc, hcz, hname]
  rw [settle_append, settle_eq_ok horder fun _ _ => hfree _]
  simp only [Except.bind, settle, hrepeated]

end Request

namespace Layout
open Request

/-- The lines of a request with its clauses in another order, or with others. -/
def arranged (l : Layout) (xs : List Clause) : Layout := { l with clauses := xs }

/-- There is one name, auth, certificate, payload and output at most, and no script. -/
structure Loose (l : Layout) : Prop extends l.Legible where
  named : l.headings.Pairwise fun g h => g.isNamed → h.isNamed = false
  script : ∀ x ∈ l.clauses, x.kind ≠ .script
  apart : l.clauses.Pairwise Apart

/-- The lines of a request that was read, unless it has a script. -/
theorem loose_of_legible {r : Request} (h : r.Legible) (hscript : r.script = none) : r.layout.Loose where
  toLegible := h.layout
  named := r.pairwise_headings
  script x hx hk := by
    change x ∈ r.clauses at hx
    simp only [Request.clauses, hscript, List.mem_append, Option.mem_toList, Option.map_eq_some_iff, List.mem_map,
      Option.map_none, reduceCtorEq, or_false] at hx
    obtain ((((⟨_, -, rfl⟩ | ⟨_, -, rfl⟩) | ⟨_, -, rfl⟩) | ⟨_, -, rfl⟩) | ⟨_, -, rfl⟩) | ⟨_, -, rfl⟩ := hx
    all_goals cases hk
  apart := r.orderly_clauses.imp fun hxy => hxy.2

variable {l : Layout} {xs : List Clause}

theorem Loose.orderly (h : l.Loose) : Orderly l.clauses :=
  h.apart.imp_of_mem fun hx _ hxy => ⟨h.script _ hx, hxy⟩

theorem Loose.arranged (h : l.Loose) (hxs : Rearranges xs l.clauses) : (l.arranged xs).Loose where
  headings := h.headings
  clauses x hx := h.clauses x (hxs.perm.mem_iff.mp hx)
  named := h.named
  script x hx := h.script x (hxs.perm.mem_iff.mp hx)
  apart := (hxs.perm.pairwise_iff Apart.symm).mpr h.apart

theorem Loose.sublist (h : l.Loose) (hxs : xs.Sublist l.clauses) : (l.arranged xs).Loose where
  headings := h.headings
  clauses x hx := h.clauses x (hxs.subset hx)
  named := h.named
  script x hx := h.script x (hxs.subset hx)
  apart := h.apart.sublist hxs

theorem Loose.request_eq (h : l.Loose) (description source : Option String) :
    l.request description source = .ok ((l.clauses.map Clause.reread).foldl merge (l.start description source)) :=
  settle_eq_ok (orderly_reread h.orderly) fun _ _ => l.repeated?_start ..

/-- The lines say the same in every order. -/
theorem Loose.request_arranged (h : l.Loose) (hxs : Rearranges xs l.clauses) (description source : Option String) :
    (l.arranged xs).request description source = l.request description source := by
  rw [h.request_eq, (h.arranged hxs).request_eq]
  refine congrArg Except.ok (foldl_merge_congr (fun k => ?_) _)
  rw [filter_kind_reread, filter_kind_reread]
  exact congrArg _ (hxs.filter_kind h.apart k)

theorem Loose.not_script_added (h : l.Loose) {as bs : List Clause} {x : Clause} (hxs : Rearranges (as ++ bs) l.clauses)
    {name : String} (hname : x.kind.once? = some name) : ∀ y ∈ as ++ x :: bs, y.kind ≠ .script := by
  intro y hy
  obtain rfl | hy := List.mem_cons.mp (List.perm_middle.mem_iff.mp hy)
  · intro hk
    rw [hk] at hname
    cases hname
  · exact (h.arranged hxs).script y hy

/-- A clause that may stand once is refused next to another one of its kind. -/
theorem Loose.request_repeated (h : l.Loose) {as bs : List Clause} {x : Clause} (hxs : Rearranges (as ++ bs) l.clauses)
    (hx : ∃ y ∈ l.clauses, y.kind = x.kind) {name : String} (hname : x.kind.once? = some name)
    (description source : Option String) :
    (l.arranged (as ++ x :: bs)).request description source = .error name := by
  have hloose := h.arranged hxs
  have hx' : ∃ y ∈ as ++ bs, y.kind = x.kind := by
    obtain ⟨y, hy, hyx⟩ := hx
    exact ⟨y, hxs.perm.mem_iff.mpr hy, hyx⟩
  obtain ⟨cs, z, ds, hsplit, hapart, hz, hzx⟩ := exists_second hloose.apart hx'
  have horder : Orderly cs := by
    refine hapart.imp_of_mem fun {y _} hy _ hyz => ⟨h.not_script_added hxs hname y ?_, hyz⟩
    rw [hsplit]
    exact List.mem_append_left _ hy
  obtain ⟨c, hc, hcz⟩ := hz
  rw [request, Layout.arranged, hsplit, List.map_append, List.map_cons]
  refine settle_repeated (orderly_reread horder) (l.repeated?_start description source) ⟨c.reread, ?_, ?_⟩ ?_
  · exact List.mem_map_of_mem hc
  · rw [Clause.kind_reread, Clause.kind_reread, hcz]
  · rw [Clause.kind_reread, hzx, hname]

theorem Loose.readable (h : l.Loose) : l.Readable where
  toLegible := h.toLegible
  named := h.named
  script := h.orderly.imp fun hxy => hxy.1

theorem normalizeLineEndings_written (h : l.Legible) : Text.normalizeLineEndings l.written = l.written := by
  have hclean := clean h
  rw [Clean, chars_lexemes] at hclean
  rw [Text.normalizeLineEndings, Text.normalizeChars_eq_self hclean, String.ofList_toList]

/-- The text of the lines falls into their lexemes, and what is read from these is what is read from it. -/
theorem parse_written (h : l.Legible) (hcalm : Calm l.lexemes []) (source : Option String) :
    let read := Document.readWithin source ((lay 0 l.lexemes).length + 1) {}
      ⟨[], lay 0 l.lexemes, Text.byteSize l.written.toList⟩
    (∀ d, read = .ok d → Document.parse l.written source = .ok d) ∧
      ∀ f, read = .error f → ∃ e, Document.parse l.written source = .error e ∧ e.cause = f.cause := by
  have htokens := tokenize_of_falls (falls_lexemes h hcalm) l.chars_lexemes
  have hsame := normalizeLineEndings_written h
  constructor
  · intro d hread
    simp only [Document.parse, hsame, htokens, Document.ofTokens, Cursor.ofTokens, hread]
  · intro f hread
    simp only [Document.parse, hsame, htokens, Document.ofTokens, Cursor.ofTokens, hread]
    exact ⟨_, rfl, rfl⟩

/-- The lines open a request. -/
theorem readWithin_lexemes (source : Option String) {us : List Token} (hus : Spells us l.lexemes) (m n : Nat) :
    Document.readWithin source (m + 1) {} ⟨[], us, n⟩ = (do
      let (r, c) ← Request.read source ⟨[], us, n⟩
      Document.readWithin source m { requests := [r] } c) := by
  obtain ⟨t, us', heq, ht, -, hkind, hopens⟩ := l.opens_lexemes hus follows_nil
  have hstarts := (hopens [] n).2
  rw [List.append_nil] at hstarts
  have hkey (s : String) : (⟨[], us, n⟩ : Cursor).isKeyword s = false := by
    simp [heq, Cursor.isKeyword, Token.isKeyword, hkind]
  have hskip : (⟨[], us, n⟩ : Cursor).skip = ⟨[], us, n⟩ := by
    rw [heq, Cursor.skip_of_not ht]
  have htoken : (⟨[], us, n⟩ : Cursor).token? = some t := by rw [heq]; rfl
  rw [Document.readWithin, hskip]
  simp only [htoken, hkey, Bool.false_eq_true, if_false, hstarts, if_true]
  rfl

theorem parse_eq_ok (h : l.Readable) (hcalm : Calm l.lexemes []) {source : Option String} {r : Request}
    (hr : l.request none source = .ok r) :
    ∃ spans, Document.parse l.written source = .ok { requests := [{ r with spans }] } := by
  have hus := spells_lay 0 l.lexemes
  generalize hn : Text.byteSize l.written.toList = n
  obtain ⟨r', c', b, hread, hskip, -, rfl⟩ := read_lexemes h hus follows_nil [] n
    (c := ⟨[], lay 0 l.lexemes, n⟩) (by rw [List.append_nil]) hr
  refine ⟨r'.spans, (parse_written h.toLegible hcalm source).1 _ ?_⟩
  obtain ⟨m, hm⟩ : ∃ m, (lay 0 l.lexemes).length = m + 1 := by
    refine Nat.exists_eq_succ_of_ne_zero (Nat.ne_of_gt ?_)
    rw [length_lay]
    simp [lexemes]
  rw [hn, hm, readWithin_lexemes source hus, hread, ok_bind]
  show Document.readWithin source (m + 1) { requests := [r'] } c' = _
  rw [Document.readWithin_congr hskip]
  rfl

theorem parse_eq_error (h : l.Readable) (hcalm : Calm l.lexemes []) {source : Option String} {name : String}
    (hname : l.request none source = .error name) :
    ∃ e, Document.parse l.written source = .error e ∧ e.cause = .declaredTwice name := by
  have hus := spells_lay 0 l.lexemes
  generalize hn : Text.byteSize l.written.toList = n
  obtain ⟨f, hread, hf⟩ := read_error h hus [] [] n (c := ⟨[], lay 0 l.lexemes, n⟩) (by rw [List.append_nil]) hname
  obtain ⟨e, he, hcause⟩ := (parse_written h.toLegible hcalm source).2 f (by
    rw [hn, readWithin_lexemes source hus, hread]
    rfl)
  exact ⟨e, he, hcause.trans hf⟩

/-- What stands behind a clause in a request with these clauses below it. -/
def back (xs : List Clause) : List Lexeme :=
  [lineEnd] ++ (xs.map Clause.lexemes).flatMap (· ++ [lineEnd]) ++ [lineEnd, lineEnd]

theorem lexemes_of_append {as bs : List Clause} {x : Clause} (h : l.clauses = as ++ x :: bs) :
    l.lexemes = (l.arranged as).front ++ (x.lexemes ++ back bs) := by
  simp [lexemes, front, back, arranged, targetLexemes, h]

theorem slash_not_mem_front (h : ∀ x ∈ l.clauses, x.kind ≠ .payload) : op "/" ∉ l.front := fun hmem =>
  slash_not_mem (fun _ hp => absurd rfl (h _ hp)) (List.mem_append_left _ hmem)

theorem slash_not_mem_back (h : ∀ x ∈ xs, x.kind ≠ .payload) : op "/" ∉ back xs := by
  have hlines := slash_not_mem_lines (List.forall_mem_map.mpr fun x (hx : x ∈ xs) =>
    Clause.slash_not_mem fun p hp => absurd (congrArg Clause.kind hp) (h x hx))
  simp only [back, List.mem_append, not_or]
  exact ⟨⟨by decide, hlines⟩, by decide⟩

/-- There is one payload at most. -/
theorem Loose.exists_payload (h : l.Loose) {p : PayloadTerm} (hp : .payload p ∈ l.clauses) :
    ∃ as bs, l.clauses = as ++ .payload p :: bs ∧ (∀ x ∈ as, x.kind ≠ .payload) ∧ ∀ x ∈ bs, x.kind ≠ .payload := by
  obtain ⟨as, bs, hclauses⟩ := List.append_of_mem hp
  have hapart := h.apart
  rw [hclauses, List.pairwise_append, List.pairwise_cons] at hapart
  refine ⟨as, bs, hclauses, fun x hx hk => ?_, fun x hx hk => ?_⟩
  · exact absurd (hapart.2.2 x hx (.payload p) (by simp) hk) (by simp [hk])
  · exact absurd (hapart.2.1.1 x hx hk.symm) (by simp [Clause.kind])

theorem Loose.payload_request (h : l.Loose) {p : PayloadTerm} (hp : .payload p ∈ l.clauses) {description source : Option String}
    {r : Request} (hr : l.request description source = .ok r) : r.payload = some p.requoted := by
  obtain ⟨as, bs, hclauses, -, hbs⟩ := h.exists_payload hp
  obtain rfl := Except.ok.inj ((h.request_eq description source).symm.trans hr)
  have hbs : ∀ x ∈ bs.map Clause.reread, x.kind ≠ .payload :=
    List.forall_mem_map.mpr fun x hx => by rw [Clause.kind_reread]; exact hbs x hx
  rw [hclauses, List.map_append, List.map_cons, List.foldl_append, List.foldl_cons, payload_foldl_merge hbs]
  rfl

/-- In a file of these lines and a payload below them, the payload is read behind what the lines are cut into. -/
theorem Loose.read_of_parse (h : l.Loose) (hcalm : ∀ rest, Calm l.front rest) {p : PayloadTerm} {rest : List Char}
    {text : String} (hclean : Text.normalizeLineEndings text = text)
    (htext : text.toList = chars l.front ++ (chars p.lexemes ++ rest)) {source : Option String} {d : Document}
    (hparse : Document.parse text source = .ok d) {q : Request} (hfirst : d.requests.head? = some q) :
    ∃ k ts b n x c, scan k (chars p.lexemes ++ rest) = .ok ts ∧ PayloadTerm.read ⟨b, ts, n⟩ = .ok (x, c) ∧
      q.payload = some x := by
  obtain ⟨tokens, htokens, hread⟩ := Document.parse_eq_ok hparse
  rw [hclean, Lexer.tokenize, htext] at htokens
  obtain ⟨us, ts, rfl, hus, hts⟩ := scan_split (falls_front h.toLegible (hcalm _)) htokens
  obtain ⟨i, j, -, vs, hvs, -⟩ := p.scan_call hts
  have hcall (b : List Token) (n : Nat) : (⟨b, ts, n⟩ : Cursor).skip = ⟨b, ts, n⟩ ∧
      ClauseKind.at? ⟨b, ts, n⟩ = some .payload := by
    rw [hvs]
    exact ⟨Cursor.skip_of_not rfl .., Clause.at?_call (by cases p <;> rfl) b vs n⟩
  obtain ⟨t, us', hus', ht, hkind⟩ := l.opens_front hus
  have hskip (b : List Token) (n : Nat) : (⟨b, us ++ ts, n⟩ : Cursor).skip = ⟨b, us ++ ts, n⟩ := by
    rw [hus', List.cons_append, Cursor.skip_of_not ht]
  rw [Document.ofTokens, Cursor.ofTokens] at hread
  obtain ⟨q', c, hread, hq'⟩ := Document.read_of_readWithin (t := t) (by rw [hskip, hus']; rfl) hkind hread
  obtain rfl := Option.some.inj (hq'.symm.trans hfirst)
  rw [hskip] at hread
  have hrequest (n : Nat) := h.request_eq (Cursor.leadingComments? ⟨[], us ++ ts, n⟩) source
  obtain ⟨b, x, c₁, hx, hqx⟩ := read_payload h.readable h.script hus (hcall · _) rfl (hrequest _) hread
  exact ⟨_, ts, b, _, x, c₁, hts, hx, hqx⟩

/-- Where the payload that is read is the one that is written, no slash opens a comment. -/
theorem Loose.calm_of_parse (h : l.Loose) {source : Option String} {r q : Request} {d : Document}
    (hr : l.request none source = .ok r) (hparse : Document.parse l.written source = .ok d)
    (hfirst : d.requests.head? = some q) (hq : q.payload = r.payload) : Calm l.lexemes [] := by
  by_cases hpayload : ∀ p, .payload p ∉ l.clauses
  · exact calm_of_not_mem (slash_not_mem fun p hp => absurd hp (hpayload p)) []
  -- a comment can open in the payload only
  obtain ⟨p, hp⟩ := not_forall_not.mp hpayload
  obtain ⟨as, bs, hclauses, has, hbs⟩ := h.exists_payload hp
  have hfront (rest : List Char) : Calm (l.arranged as).front rest := calm_of_not_mem (slash_not_mem_front has) rest
  have hback : Calm (back bs) [] := calm_of_not_mem (slash_not_mem_back hbs) []
  have hlexemes := lexemes_of_append hclauses
  have htext : l.written.toList = chars (l.arranged as).front ++ (chars p.lexemes ++ (chars (back bs) ++ [])) := by
    rw [← chars_lexemes, hlexemes, chars_append, chars_append, List.append_nil]
    rfl
  have hclean := clean h.toLegible
  rw [Clean, chars_lexemes, htext, List.mem_append, not_or] at hclean
  have hloose := h.sublist (hclauses ▸ List.sublist_append_left as _)
  obtain ⟨k, ts, b, n, x, c, hts, hx, hqx⟩ := hloose.read_of_parse hfront (normalizeLineEndings_written h.toLegible) htext
    hparse hfirst
  have hxp : x = p.requoted := Option.some.inj (hqx.symm.trans (hq.trans (h.payload_request hp hr)))
  rw [hlexemes, calm_append, calm_append]
  refine ⟨hfront _, PayloadTerm.calm_of_read (h.clauses _ hp) hclean.2 hts hx ?_, hback⟩
  rw [hxp, PayloadTerm.plain_requoted (h.clauses _ hp)]

/-- The lines of a request say the same in every order in which the headers and the queries stay in order among
themselves, and they are read as what they say exactly if no slash opens a comment in that order. A second auth,
certificate or payload among them is refused wherever it stands. -/
theorem parse_rearranged {l : Layout} (h : l.Loose) (source : Option String) :
    (∃ r, l.request none source = .ok r ∧ ∀ xs, Rearranges xs l.clauses →
      ((∃ spans, Document.parse (l.arranged xs).written source = .ok { requests := [{ r with spans }] }) ↔
        Calm (l.arranged xs).lexemes [])) ∧
    ∀ (x : Clause) (name : String) (as bs : List Clause), x.Legible → x.kind.once? = some name →
      (∃ y ∈ l.clauses, y.kind = x.kind) → Rearranges (as ++ bs) l.clauses →
      Calm (l.arranged (as ++ x :: bs)).lexemes [] →
      ∃ e, Document.parse (l.arranged (as ++ x :: bs)).written source = .error e ∧ e.cause = .declaredTwice name := by
  refine ⟨⟨_, h.request_eq none source, fun xs hxs => ⟨?_, fun hcalm => ?_⟩⟩, ?_⟩
  · rintro ⟨spans, hparse⟩
    have hr := (h.request_arranged hxs none source).trans (h.request_eq none source)
    exact (h.arranged hxs).calm_of_parse hr hparse rfl rfl
  · have hr := (h.request_arranged hxs none source).trans (h.request_eq none source)
    exact parse_eq_ok (h.arranged hxs).readable hcalm hr
  · intro x name as bs hx hname hsecond hxs hcalm
    have hlegible : (l.arranged (as ++ x :: bs)).Legible := by
      refine ⟨h.headings, fun y hy => ?_⟩
      rcases List.mem_cons.mp (List.perm_middle.mem_iff.mp hy) with rfl | hy
      · exact hx
      · exact (h.arranged hxs).clauses y hy
    have hreadable : (l.arranged (as ++ x :: bs)).Readable :=
      ⟨hlegible, h.named, List.pairwise_of_forall_mem_list fun y hy _ _ => h.not_script_added hxs hname y hy⟩
    exact parse_eq_error hreadable hcalm (h.request_repeated hxs hsecond hname none source)

end Layout

namespace Request

/-- The slash in the payload opens a comment where the header stands below it. -/
def divided : Request where
  method := some .POST
  url := "http://h"
  headers := [("accept", "*/*")]
  payload := some (.json (.arithmetic "6 /* 2"))

theorem legible_divided : divided.Legible where
  base := by simp [divided]
  description := by simp [divided]
  tags := by simp [divided]
  payload p hp := by
    have hpieces : pieces "6 /* 2" = [⟨.number, "6"⟩, blank 1, op "/", op "*", blank 1, ⟨.number, "2"⟩] := by
      decide +kernel
    obtain rfl := Option.some.inj hp
    refine ⟨?_, rfl⟩
    rw [hpieces]
    refine ⟨⟨?_, ?_, ?_, ?_, ?_, ?_, trivial⟩, by decide, by decide, by decide, by decide⟩
    all_goals exact ⟨by decide, by decide, by decide⟩
  script := by simp [divided]

end Request

namespace Layout
open Request

theorem parse_rearranged_divided : divided.layout.Loose ∧
    (∃ r, divided.layout.request none none = .ok r ∧
      (∃ spans, Document.parse divided.written none = .ok { requests := [{ r with spans }] }) ∧
      ¬∃ spans, Document.parse (divided.layout.arranged divided.clauses.reverse).written none =
        .ok { requests := [{ r with spans }] }) ∧
    ∃ e, Document.parse (divided.layout.arranged (divided.clauses ++ [.payload (.json .null)])).written none = .error e ∧
      e.cause = .declaredTwice "Payload" := by
  have hloose := loose_of_legible legible_divided rfl
  obtain ⟨⟨r, hr, hread⟩, hrefused⟩ := parse_rearranged hloose none
  rw [← written_layout (r := divided) rfl]
  refine ⟨hloose, ⟨r, hr, (hread divided.clauses ⟨.refl _, rfl, rfl⟩).mpr ?_, fun hparse => ?_⟩, ?_⟩
  · decide +kernel
  · have hcalm := (hread divided.clauses.reverse ⟨List.reverse_perm _, rfl, rfl⟩).mp hparse
    exact absurd hcalm (by decide +kernel)
  · exact hrefused (.payload (.json .null)) "Payload" divided.clauses [] trivial rfl
      ⟨.payload (.json (.arithmetic "6 /* 2")), by simp [divided, layout, Request.clauses], rfl⟩
      ⟨by rw [List.append_nil]; exact .refl _, by rw [List.append_nil]; rfl, by rw [List.append_nil]; rfl⟩
      (by decide +kernel)

end Layout

end RequestLang
