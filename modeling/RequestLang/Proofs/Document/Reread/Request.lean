import RequestLang.Proofs.Document.Reread.Lines

/-! Reading the lexemes of canonical texts back: whole requests. -/
namespace RequestLang
open Lexeme

section
attribute [local simp] mark op word quoted blank lineEnd Token.isIgnorable Token.isPunct Token.isOp
  Token.isString Token.isBlockComment

namespace Request

theorem length_le_lines {lines : List (List Lexeme)} {us : List Token}
    (hus : Spells us (lines.flatMap (· ++ [lineEnd]))) : lines.length ≤ us.length := by
  rw [hus.length]
  induction lines generalizing us with
  | nil => exact Nat.zero_le _
  | cons line lines ih =>
    have := ih (spells_lay 0 _)
    simp only [List.flatMap_cons, List.length_append, List.length_cons, List.length_nil]
    omega

theorem isIgnorable_describing {r : Request} {gs : List Token}
    (hgs : Spells gs (r.describing.flatMap (· ++ [lineEnd]))) : ∀ g ∈ gs, g.isIgnorable := by
  intro g hg
  have hmem : g.lexeme ∈ r.describing.flatMap (· ++ [lineEnd]) := hgs ▸ List.mem_map_of_mem hg
  simp only [describing, List.mem_flatMap, List.mem_map, List.mem_append, List.mem_singleton] at hmem
  obtain ⟨_, ⟨line, -, rfl⟩, hl⟩ := hmem
  rw [List.mem_singleton] at hl
  rcases hl with hl | hl <;>
  · have := congrArg Lexeme.kind hl
    simp [Token.lexeme] at this
    simp [this]

/-- Tokens that may follow a request. -/
structure Follows (ts : List Token) : Prop where
  clauses : EndsClauses ts
  colon : ((ts.find? (!·.isIgnorable)).map (·.isPunct ":")).getD false = false

theorem follows_nil : Follows [] := ⟨fun _ _ => rfl, rfl⟩

theorem Follows.gap {gs ts : List Token} (hgs : ∀ g ∈ gs, g.isIgnorable) (hts : Follows ts) :
    Follows (gs ++ ts) where
  clauses b n := by
    rw [Cursor.skip_append hgs]
    exact hts.clauses _ n
  colon := by
    have hfind : gs.find? (!·.isIgnorable) = none :=
      List.find?_eq_none.mpr fun g hg => by simp only [hgs g hg, Bool.not_true, Bool.false_eq_true,
        not_false_eq_true]
    rw [List.find?_append, hfind, Option.none_or]
    exact hts.colon

/-- The stages of reading a request, put together. -/
theorem read_of_stages {source : Option String} {c c₁ c₂ : Cursor} {r₁ r₂ : Request}
    (h₁ : readTags (c.ahead.length + 1) { description := c.leadingComments?, source } c = .ok (r₁, c₁))
    (h₂ : r₁.readTarget c₁ = .ok (r₂, c₂)) :
    read source c = (fun (r, c') => ({ r with spans := { r.spans with whole := ⟨c.offset, c'.lastEnd⟩ } }, c')) <$>
      readClauses (c₂.ahead.length + 1) r₂ c₂ := by
  simp only [read, h₁, h₂, ok_bind]
  rfl

end Request

namespace Layout
open Request

/-- The lines of a request begin with a token that begins nothing else. -/
theorem opens_lexemes (l : Layout) {us ts : List Token} (hus : Spells us l.lexemes) (hts : Follows ts) :
    ∃ t us', us = t :: us' ∧ t.isIgnorable = false ∧ t.isPunct ":" = false ∧ t.kind ≠ .keyword ∧
      ∀ b n, ClauseKind.at? ⟨b, us ++ ts, n⟩ = none ∧ startsAt ⟨b, us ++ ts, n⟩ := by
  unfold lexemes front at hus
  cases hh : l.headings with
  | cons h hs =>
    simp only [hh, List.map_cons, List.flatMap_cons, List.append_assoc] at hus
    obtain ⟨us, vs, rfl, hhead, -⟩ := spells_append.mp hus
    obtain ⟨t, us', rfl, ht⟩ := spells_heading hhead
    refine ⟨t, us' ++ vs, rfl, by simp [ht], by simp [ht], by simp [ht], fun b n => ⟨?_, ?_⟩⟩
    · simp [ClauseKind.at?, isCallOf, PayloadTerm.startsAt, ht]
    · simp [startsAt, ht]
  | nil =>
    simp only [hh, List.map_nil, List.flatMap_nil, List.nil_append, targetLexemes, Request.targetLexemes] at hus
    cases hm : l.method with
    | some m =>
      simp only [hm, List.cons_append] at hus
      obtain ⟨k, us', rfl, -⟩ := spells_cons.mp hus
      refine ⟨_, us', rfl, rfl, rfl, by simp, fun b n => ⟨?_, ?_⟩⟩
      · cases m <;> simp [ClauseKind.at?, isCallOf, PayloadTerm.startsAt, Auth.calls, Certificate.calls,
          PayloadTerm.calls, Method.name]
      · simp [startsAt, Method.ofName?_name]
    | none =>
      simp only [hm, List.cons_append, List.nil_append] at hus
      obtain ⟨k, _, rfl, hrest⟩ := spells_cons.mp hus
      obtain ⟨k', us', rfl, hus'⟩ := spells_cons.mp hrest
      have hcolon : (((us' ++ ts).find? (!·.isIgnorable)).map (·.isPunct ":")).getD false = false := by
        cases hc : l.clauses with
        | nil =>
          simp only [hc, List.map_nil, List.flatMap_nil, List.nil_append, spells_cons, spells_nil] at hus'
          obtain ⟨k₁, _, rfl, k₂, _, rfl, rfl⟩ := hus'
          exact hts.colon
        | cons x xs =>
          simp only [hc, List.map_cons, List.flatMap_cons, List.append_assoc] at hus'
          obtain ⟨us', vs, rfl, hclause, -⟩ := spells_append.mp hus'
          obtain ⟨u, us', rfl, hu, hu'⟩ := spells_clause hclause
          simp only [List.cons_append, List.find?_cons, hu, Bool.not_false, Option.map_some, hu',
            Option.getD_some]
      have hopens (b : List Token) (n : Nat) : Cursor.opensHeader
          ⟨b, ⟨(quoted l.url).kind, (quoted l.url).text, k⟩ :: (⟨lineEnd.kind, lineEnd.text, k'⟩ :: us') ++ ts,
            n⟩ = false := hcolon
      refine ⟨_, _, rfl, rfl, rfl, by simp, fun b n => ⟨?_, ?_⟩⟩
      · simp only [ClauseKind.at?, hopens]
        simp [isCallOf, PayloadTerm.startsAt]
      · simp only [startsAt, hopens]
        simp

theorem spells_target (l : Layout) {us : List Token} (hus : Spells us l.targetLexemes) :
    ∃ t us', us = t :: us' ∧ t.isIgnorable = false ∧ t.kind ≠ .tag ∧ t.kind ≠ .keyword := by
  unfold targetLexemes Request.targetLexemes at hus
  cases hm : l.method with
  | some m =>
    simp only [hm] at hus
    obtain ⟨k, us', rfl, -⟩ := spells_cons.mp hus
    exact ⟨_, us', rfl, rfl, by simp, by simp⟩
  | none =>
    simp only [hm] at hus
    obtain ⟨k, us', rfl, -⟩ := spells_cons.mp hus
    exact ⟨_, us', rfl, rfl, by simp, by simp⟩

/-- What stands above the clauses. -/
def start (l : Layout) (description source : Option String) : Request :=
  { l.headings.foldl head { description, source } with method := l.method, url := l.url }

theorem repeated?_start (l : Layout) (description source : Option String) (k : ClauseKind) :
    (l.start description source).repeated? k = none := by
  have hhead : (l.start description source).repeated? k =
      (l.headings.foldl head { description, source }).repeated? k := by
    cases k <;> rfl
  rw [hhead, repeated?_foldl_head]
  cases k <;> rfl

/-- What the lines say, or the name of the first clause that may not stand there again. -/
def request (l : Layout) (description source : Option String) : Except String Request :=
  settle (l.start description source) (l.clauses.map Clause.reread)

/-- Lines that can be read: there is one name at most, and a script is the last clause. -/
structure Readable (l : Layout) : Prop extends l.Legible where
  named : l.headings.Pairwise fun g h => g.isNamed → h.isNamed = false
  script : l.clauses.Pairwise fun x _ => x.kind ≠ .script

/-- The lines above the clauses are read whatever follows them. -/
theorem read_start {l : Layout} (h : l.Readable) (source : Option String) {hs vs : List Token}
    (hhs : Spells hs ((l.headings.map Heading.lexemes).flatMap (· ++ [lineEnd]))) (hvs : Spells vs l.targetLexemes)
    (b ts : List Token) (k n : Nat) {c : Cursor} (hc : c = ⟨b, hs ++ (vs ++ ⟨.newline, "\n", k⟩ :: ts), n⟩) :
    ∃ r b', Request.read source c =
        (fun (r, c') => ({ r with spans := { r.spans with whole := ⟨c.offset, c'.lastEnd⟩ } }, c')) <$>
          readClauses (ts.length + 2) r ⟨b', ts, n⟩ ∧
      r.unplaced = l.start c.leadingComments? source := by
  have hheadings := length_le_lines hhs
  rw [List.length_map] at hheadings
  obtain ⟨t, vs', hvs', ht, htag, -⟩ := l.spells_target hvs
  obtain ⟨r₁, b₁, hread₁, hr₁⟩ := readTags_lexemes l.headings (r := { description := c.leadingComments?, source })
    h.headings (fun _ _ _ => ⟨rfl, rfl⟩) h.named (m := c.ahead.length + 1)
    (by simp only [hc, List.length_append]; omega) hhs ht htag b (vs' ++ ⟨.newline, "\n", k⟩ :: ts) n
  have happend (ls : List Token) : t :: (vs' ++ ls) = vs ++ ls := by rw [hvs', List.cons_append]
  rw [happend, ← hc] at hread₁
  have hmethod : r₁.method = none := (congrArg Request.method hr₁).trans (method_foldl_head ..)
  obtain ⟨r₂, b₂, hread₂, hr₂⟩ := readTarget_lexemes l hmethod hvs b₁ (⟨.newline, "\n", k⟩ :: ts) n
  rw [hr₁] at hr₂
  refine ⟨r₂, ⟨.newline, "\n", k⟩ :: b₂, ?_, hr₂⟩
  rw [read_of_stages hread₁ hread₂, readClauses_of_isIgnorable (by rfl) (Nat.succ_pos _)]
  rfl

/-- The stretches of tokens that the lines of a request are read from. -/
theorem spells_front {l : Layout} {us : List Token} (hus : Spells us l.front) (ts : List Token) :
    ∃ hs vs cs k, Spells hs ((l.headings.map Heading.lexemes).flatMap (· ++ [lineEnd])) ∧
      Spells vs l.targetLexemes ∧ Spells cs ((l.clauses.map Clause.lexemes).flatMap (· ++ [lineEnd])) ∧
      us ++ ts = hs ++ (vs ++ ⟨.newline, "\n", k⟩ :: (cs ++ ts)) := by
  obtain ⟨_, cs, rfl, h₁, hcs⟩ := spells_append.mp hus
  obtain ⟨_, ls, rfl, h₂, hls⟩ := spells_append.mp h₁
  obtain ⟨hs, vs, rfl, hhs, hvs⟩ := spells_append.mp h₂
  obtain ⟨k, rfl⟩ := spells_singleton.mp hls
  exact ⟨hs, vs, cs, k, hhs, hvs, hcs, by simp⟩

theorem spells_lines {l : Layout} {us : List Token} (hus : Spells us l.lexemes) (ts : List Token) :
    ∃ hs vs cs k k₁ k₂, Spells hs ((l.headings.map Heading.lexemes).flatMap (· ++ [lineEnd])) ∧
      Spells vs l.targetLexemes ∧ Spells cs ((l.clauses.map Clause.lexemes).flatMap (· ++ [lineEnd])) ∧
      us ++ ts = hs ++ (vs ++ ⟨.newline, "\n", k⟩ ::
        (cs ++ ([⟨.newline, "\n", k₁⟩, ⟨.newline, "\n", k₂⟩] ++ ts))) := by
  obtain ⟨us, ws, rfl, hfront, hws⟩ := spells_append.mp hus
  simp only [spells_cons, spells_nil] at hws
  obtain ⟨k₁, _, rfl, k₂, _, rfl, rfl⟩ := hws
  obtain ⟨hs, vs, cs, k, hhs, hvs, hcs, hlines⟩ := spells_front hfront ([⟨.newline, "\n", k₁⟩, ⟨.newline, "\n", k₂⟩] ++ ts)
  exact ⟨hs, vs, cs, k, k₁, k₂, hhs, hvs, hcs, by rw [← hlines, List.append_assoc]; rfl⟩

/-- The first token of a request is nothing that opens an import or a variable. -/
theorem opens_front (l : Layout) {us : List Token} (hus : Spells us l.front) :
    ∃ t us', us = t :: us' ∧ t.isIgnorable = false ∧ t.kind ≠ .keyword := by
  obtain ⟨hs, vs, cs, k, hhs, hvs, -, hlines⟩ := spells_front hus []
  rw [List.append_nil] at hlines
  cases hh : l.headings with
  | nil =>
    obtain ⟨t, vs', rfl, ht, -, hkind⟩ := l.spells_target hvs
    rw [hh] at hhs
    obtain rfl := spells_nil.mp hhs
    exact ⟨t, _, hlines, ht, hkind⟩
  | cons h _ =>
    rw [hh, List.map_cons, List.flatMap_cons, List.append_assoc] at hhs
    obtain ⟨hs, ws, rfl, hhead, -⟩ := spells_append.mp hhs
    obtain ⟨t, hs', rfl, ht⟩ := spells_heading hhead
    exact ⟨t, _, hlines, by simp [ht], by simp [ht]⟩

/-- The lines of a request are read as what they say, down to where the next request begins. -/
theorem read_lexemes {l : Layout} (h : l.Readable) {source : Option String} {us : List Token}
    (hus : Spells us l.lexemes) {ts : List Token} (hts : Follows ts) (b : List Token) (n : Nat) {c : Cursor}
    (hc : c = ⟨b, us ++ ts, n⟩) {r : Request} (hr : l.request c.leadingComments? source = .ok r) :
    ∃ r' c' b', Request.read source c = .ok (r', c') ∧ c'.skip = (⟨b', ts, n⟩ : Cursor).skip ∧ Quiet b' ∧
      r'.unplaced = r := by
  obtain ⟨hs, vs, cs, k, k₁, k₂, hhs, hvs, hcs, hlines⟩ := spells_lines hus ts
  rw [hlines] at hc
  have hclauses := length_le_lines hcs
  rw [List.length_map] at hclauses
  have hgap : ∀ w ∈ [(⟨.newline, "\n", k₁⟩ : Token), ⟨.newline, "\n", k₂⟩], w.isIgnorable := by simp
  obtain ⟨r₂, b₂, hread, hr₂⟩ := read_start h source hhs hvs b _ k n hc
  rw [request, ← hr₂] at hr
  obtain ⟨r₃, c₃, b₃, hread₃, hskip, hr₃⟩ := readClauses_lexemes l.clauses h.clauses h.script hr
    (m := (cs ++ ([(⟨.newline, "\n", k₁⟩ : Token), ⟨.newline, "\n", k₂⟩] ++ ts)).length + 2)
    (by rw [List.length_append]; omega) hcs (hts.gap hgap).clauses b₂ n
  rw [Cursor.skip_append hgap] at hskip
  exact ⟨_, c₃, _, hread.trans (congrArg _ hread₃), hskip, quiet_lines .., hr₃⟩

/-- Where a clause may not stand again, reading fails. -/
theorem read_error {l : Layout} (h : l.Readable) {source : Option String} {us : List Token}
    (hus : Spells us l.lexemes) (ts b : List Token) (n : Nat) {c : Cursor} (hc : c = ⟨b, us ++ ts, n⟩) {name : String}
    (hname : l.request c.leadingComments? source = .error name) :
    ∃ f, Request.read source c = .error f ∧ f.cause = .declaredTwice name := by
  obtain ⟨hs, vs, cs, k, k₁, k₂, hhs, hvs, hcs, hlines⟩ := spells_lines hus ts
  rw [hlines] at hc
  have hclauses := length_le_lines hcs
  rw [List.length_map] at hclauses
  obtain ⟨r₂, b₂, hread, hr₂⟩ := read_start h source hhs hvs b _ k n hc
  rw [request, ← hr₂] at hname
  obtain ⟨f, hread₃, hf⟩ := readClauses_error h.clauses h.script hname
    (m := (cs ++ ([(⟨.newline, "\n", k₁⟩ : Token), ⟨.newline, "\n", k₂⟩] ++ ts)).length + 2)
    (by rw [List.length_append]; omega) hcs ([⟨.newline, "\n", k₁⟩, ⟨.newline, "\n", k₂⟩] ++ ts) b₂ n
  exact ⟨f, hread.trans (congrArg _ hread₃), hf⟩

end Layout

namespace Request

theorem follows_lexemes (r : Request) {us ts : List Token} (hus : Spells us r.lexemes) (hts : Follows ts) :
    Follows (us ++ ts) := by
  rw [lexemes_eq] at hus
  obtain ⟨gs, vs, rfl, hgs, hvs⟩ := spells_append.mp hus
  obtain ⟨t, vs', heq, ht, hcolon, -, hopens⟩ := r.layout.opens_lexemes hvs hts
  rw [List.append_assoc]
  refine Follows.gap (isIgnorable_describing hgs) ⟨fun b n => ?_, ?_⟩
  · have hskip : (⟨b, vs ++ ts, n⟩ : Cursor).skip = ⟨b, vs ++ ts, n⟩ := by
      rw [heq, List.cons_append, Cursor.skip_of_not ht]
    rw [hskip]
    exact (hopens b n).1
  · rw [heq, List.cons_append, List.find?_cons]
    simp only [ht, Bool.not_false, Option.map_some, hcolon, Option.getD_some]

/-- What is read back from the canonical text of a request. -/
def reread (r : Request) : Request :=
  { r with
    description := r.description.bind rereadDescription
    script := r.script.map fun s => Script.ofBlock s.block }

theorem Legible.readable {r : Request} (h : r.Legible) : r.layout.Readable where
  toLegible := h.layout
  named := r.pairwise_headings
  script := r.orderly_clauses.imp fun hxy => hxy.1

/-- The lines of a request say what it says. -/
theorem request_layout {r : Request} (h : r.Legible) (description source : Option String) :
    r.layout.request description source = .ok { r with
      description, payload := r.payload.map PayloadTerm.requoted, script := r.script.map fun s => Script.ofBlock s.block,
      spans := {}, source } := by
  have hdress : r.layout.start description source =
      dress ⟨r.name, r.base, description, r.flags, r.tags, r.method, r.url, [], [], none, none, none, none, none, {},
        source⟩ none none [] [] none none none := by
    rw [Layout.start, layout, foldl_head r h.base _ ⟨rfl, rfl, rfl, rfl⟩]
    rfl
  rw [Layout.request, hdress, layout, settle_eq_ok (orderly_reread r.orderly_clauses), List.foldl_map, foldl_merge]
  · rfl
  · intro x _
    cases x.kind <;> rfl

/-- A request is read back, down to where the next one begins. -/
theorem read_lexemes {r : Request} (h : r.Legible) (source : Option String) {us : List Token}
    (hus : Spells us r.lexemes) {g : List Token} (hg : Quiet g) {ts : List Token} (hts : Follows ts)
    (n : Nat) :
    ∃ t c r' c' b', (⟨g, us ++ ts, n⟩ : Cursor).skip = c ∧ c.token? = some t ∧ t.kind ≠ .keyword ∧
      startsAt c ∧ read source c = .ok (r', c') ∧ c'.skip = (⟨b', ts, n⟩ : Cursor).skip ∧
      Quiet b' ∧ r'.plain = r.reread.plain := by
  rw [lexemes_eq] at hus
  obtain ⟨gs, vs, rfl, hgs, hvs⟩ := spells_append.mp hus
  obtain ⟨t, vs', heq, ht, -, hkind, hopens⟩ := r.layout.opens_lexemes hvs hts
  have hskip : (⟨g, gs ++ vs ++ ts, n⟩ : Cursor).skip = ⟨gs.reverse ++ g, vs ++ ts, n⟩ := by
    rw [List.append_assoc, Cursor.skip_append (isIgnorable_describing hgs), heq, List.cons_append,
      Cursor.skip_of_not ht]
  have hdescription := r.leadingComments?_describing hgs hg (vs ++ ts) n
  obtain ⟨r', c', b', hread, hskip', hquiet, hr'⟩ := Layout.read_lexemes h.readable hvs hts
    (gs.reverse ++ g) n rfl (request_layout h _ source)
  refine ⟨t, _, r', c', b', hskip, by rw [heq]; rfl, hkind, (hopens _ n).2, hread, hskip', hquiet, ?_⟩
  have hpayload : (r.payload.map PayloadTerm.requoted).map PayloadTerm.plain = r.payload.map PayloadTerm.plain := by
    rw [Option.map_map]
    exact Option.map_congr fun p hp => PayloadTerm.plain_requoted (h.payload p hp)
  rw [hdescription] at hr'
  have hplain := congrArg plain hr'
  simp only [plain, hpayload] at hplain
  exact hplain

end Request

end

end RequestLang
