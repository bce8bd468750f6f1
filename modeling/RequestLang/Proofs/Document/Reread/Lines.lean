import RequestLang.Proofs.Document.Reread.Clause

/-! Reading the lexemes of canonical texts back: the lines of a request. -/
namespace RequestLang
open Lexeme

namespace Request

/-- A request without the places of its parts. -/
def unplaced (r : Request) : Request := { r with spans := {} }

/-- A clause put into a request, wherever it stands. -/
def merge (r : Request) (x : Clause) : Request := { r.add x ⟨0, 0⟩ with spans := {} }

theorem unplaced_add (r : Request) (x : Clause) (s : Span) : (r.add x s).unplaced = r.unplaced.merge x := by
  cases x <;> rfl

end Request

/-- What a clause is called where it is refused because there is one of its kind already. -/
def ClauseKind.once? : ClauseKind → Option String
  | .auth => some "Auth"
  | .certificate => some "Certificate"
  | .payload => some "Payload"
  | _ => none

namespace Request

/-- Clauses put into a request one after another, or the name of the first one that may not stand there again. -/
def settle : Request → List Clause → Except String Request
  | r, [] => .ok r
  | r, x :: xs =>
    match r.repeated? x.kind with
    | some name => .error name
    | none => settle (r.merge x) xs

/-- Two clauses that may stand in one request. -/
def Apart (x y : Clause) : Prop := x.kind = y.kind → x.kind = .query ∨ x.kind = .header

/-- Clauses that may stand in a request in this order. -/
def Orderly (xs : List Clause) : Prop := xs.Pairwise fun x y => x.kind ≠ .script ∧ Apart x y

/-- Clauses of a kind that none before them has may follow. -/
theorem Orderly.append {xs ys : List Clause} {ks : List ClauseKind} {k : ClauseKind}
    (hxs : Orderly xs ∧ ∀ x ∈ xs, x.kind ∈ ks) (hys : Orderly ys ∧ ∀ y ∈ ys, y.kind = k)
    (h : ClauseKind.script ∉ ks ∧ k ∉ ks) : Orderly (xs ++ ys) ∧ ∀ x ∈ xs ++ ys, x.kind ∈ ks ++ [k] := by
  constructor
  · refine List.pairwise_append.mpr ⟨hxs.1, hys.1, fun x hx y hy => ⟨?_, ?_⟩⟩
    · intro heq
      exact h.1 (heq ▸ hxs.2 x hx)
    · intro heq
      exact absurd (hys.2 y hy ▸ heq ▸ hxs.2 x hx) h.2
  · intro x hx
    rcases List.mem_append.mp hx with hx | hx
    · exact List.mem_append_left _ (hxs.2 x hx)
    · exact List.mem_append_right _ (List.mem_singleton.mpr (hys.2 x hx))

theorem orderly_option {α : Type} (o : Option α) (make : α → Clause) {k : ClauseKind}
    (hk : ∀ x, (make x).kind = k) :
    Orderly (o.map make).toList ∧ ∀ x ∈ (o.map make).toList, x.kind = k := by
  cases o with
  | none => simp [Orderly]
  | some x => simp [Orderly, hk]

theorem orderly_list {α : Type} (xs : List α) (make : α → Clause) {k : ClauseKind}
    (hk : ∀ x, (make x).kind = k) (hrepeats : k = .query ∨ k = .header) :
    Orderly (xs.map make) ∧ ∀ x ∈ xs.map make, x.kind = k := by
  constructor
  · refine List.pairwise_map.mpr (List.pairwise_of_forall fun x y => ?_)
    rw [Apart, hk]
    exact ⟨by rintro rfl; simp at hrepeats, fun _ => hrepeats⟩
  · simp [hk]

theorem orderly_clauses (r : Request) : Orderly r.clauses := by
  have hauth : Orderly (r.auth.map Clause.auth).toList ∧
      ∀ x ∈ (r.auth.map Clause.auth).toList, x.kind ∈ [ClauseKind.auth] := by
    simpa using orderly_option r.auth Clause.auth fun _ => rfl
  have hcertificate := Orderly.append hauth (orderly_option r.certificate .certificate fun _ => rfl) (by decide)
  have hheaders := Orderly.append hcertificate
    (orderly_list r.headers (fun field => .header field.1 field.2) (fun _ => rfl) (.inr rfl)) (by decide)
  have hqueries := Orderly.append hheaders
    (orderly_list r.queries (fun field => .query field.1 field.2) (fun _ => rfl) (.inl rfl)) (by decide)
  have hpayload := Orderly.append hqueries (orderly_option r.payload .payload fun _ => rfl) (by decide)
  have houtput := Orderly.append hpayload (orderly_option r.output .output fun _ => rfl) (by decide)
  exact (Orderly.append houtput (orderly_option r.script .script fun _ => rfl) (by decide)).1

theorem orderly_reread {xs : List Clause} (h : Orderly xs) : Orderly (xs.map Clause.reread) :=
  List.pairwise_map.mpr (h.imp fun hxy => by simpa only [Apart, Clause.kind_reread] using hxy)

theorem settle_append (r : Request) (xs ys : List Clause) :
    r.settle (xs ++ ys) = (r.settle xs).bind (settle · ys) := by
  induction xs generalizing r with
  | nil => rfl
  | cons x xs ih =>
    rw [List.cons_append, settle, settle]
    split
    · rfl
    · exact ih _

/-- A clause that has to be refused later on is one of the kind that is there already. -/
theorem repeated?_merge (r : Request) (x : Clause) (k : ClauseKind) :
    (r.merge x).repeated? k = if x.kind = k then k.once? else r.repeated? k := by
  cases x <;> cases k <;> rfl

/-- Clauses of which none may not stand again are all put into the request. -/
theorem settle_eq_ok {xs : List Clause} (horder : Orderly xs) {r : Request}
    (hfree : ∀ x ∈ xs, r.repeated? x.kind = none) : r.settle xs = .ok (xs.foldl merge r) := by
  induction xs generalizing r with
  | nil => rfl
  | cons x xs ih =>
    obtain ⟨hfirst, horder⟩ := List.pairwise_cons.mp horder
    rw [settle, hfree x (by simp)]
    refine ih horder fun y hy => ?_
    rw [repeated?_merge]
    split
    · rename_i hkind
      rcases (hfirst y hy).2 hkind with hk | hk <;> rw [← hkind, hk] <;> rfl
    · exact hfree y (by simp [hy])

theorem repeated?_foldl_merge {xs : List Clause} {x : Clause} (hx : x ∈ xs) (r : Request) :
    (xs.foldl merge r).repeated? x.kind = x.kind.once? := by
  induction xs using List.reverseRecOn with
  | nil => cases hx
  | append_singleton xs y ih =>
    rw [List.foldl_append, List.foldl_cons, List.foldl_nil, repeated?_merge]
    split
    · rfl
    · rename_i hkind
      refine ih ((List.mem_append.mp hx).resolve_right fun hy => hkind ?_)
      rw [List.mem_singleton.mp hy]

/-- Where clauses cannot all be put into the request, there is a first one that is refused. -/
theorem settle_eq_error {xs : List Clause} {r : Request} {name : String} (h : r.settle xs = .error name) :
    ∃ as x bs r₁, xs = as ++ x :: bs ∧ r.settle as = .ok r₁ ∧ r₁.repeated? x.kind = some name := by
  induction xs generalizing r with
  | nil => cases h
  | cons x xs ih =>
    rw [settle] at h
    split at h
    · rename_i hrepeated
      obtain rfl := Except.error.inj h
      exact ⟨[], x, xs, r, rfl, rfl, hrepeated⟩
    · rename_i hfree
      obtain ⟨as, y, bs, r₁, rfl, hr₁, hrepeated⟩ := ih h
      exact ⟨x :: as, y, bs, r₁, rfl, by rw [settle, hfree, hr₁], hrepeated⟩

theorem isNamed_of_mem_marks {r : Request} {h : Heading} (hh : h ∈ r.marks) : h.isNamed = false := by
  simp only [marks, List.mem_append, List.mem_ite_nil_right, List.mem_singleton, List.mem_map] at hh
  obtain ((⟨-, rfl⟩ | ⟨-, rfl⟩) | ⟨-, rfl⟩) | ⟨-, -, rfl⟩ := hh <;> rfl

/-- Only the first heading can be the name. -/
theorem pairwise_headings (r : Request) : r.headings.Pairwise fun g h => g.isNamed → h.isNamed = false := by
  have hmarks : r.marks.Pairwise fun g h => g.isNamed → h.isNamed = false :=
    List.pairwise_of_forall_mem_list fun _ _ _ hh _ => isNamed_of_mem_marks hh
  unfold headings
  cases r.name with
  | none => exact hmarks
  | some name => exact List.pairwise_cons.mpr ⟨fun _ hh _ => isNamed_of_mem_marks hh, hmarks⟩

/-- A heading put on a request. -/
def head (r : Request) : Heading → Request
  | .named name base => { r with name := some name, base }
  | .clear => { r with flags := { r.flags with clear := true } }
  | .insecure => { r with flags := { r.flags with insecure := true } }
  | .noParentScript => { r with flags := { r.flags with noParentScript := true } }
  | .tag key value => { r with tags := r.tags ++ [(key, value)] }

section
attribute [local simp] mark op word quoted blank lineEnd Token.isIgnorable Token.isPunct Token.isOp
  Token.isString Token.isBlockComment

theorem readTag_key {key : String} (h : IsTagKey key) (r : Request) (k : Nat) (c : Cursor) :
    readTag r ⟨.tag, "@" ++ key, k⟩ c = (do
      let c := c.advance
      if !c.isPunct "(" then throw (Cursor.fault (.unknownTag ("@" ++ key)) ⟨k, Token.stop ⟨.tag, "@" ++ key, k⟩⟩)
      let (value, c) ← c.advance.skip.textValue "annotation value"
      let c ← c.skip.expectPunct ")" "')'"
      return ({ r with
        tags := r.tags ++ [(key, value)]
        spans := { r.spans with tags := r.spans.tags ++ [⟨k, c.lastEnd⟩] } }, c)) := by
  obtain ⟨c₀, cs, hcs, hstart, -⟩ := Lexer.cons_of_isHeaded h.name
  have hkey : String.ofList (("@" ++ key).toList.dropWhile (· == '@')) = key := by
    have hne : c₀ ≠ '@' := by
      rintro rfl
      revert hstart
      decide
    have : ("@" ++ key).toList.dropWhile (· == '@') = key.toList := by
      simp [hcs, hne]
    rw [this, String.ofList_toList]
  have hfree := h.free
  simp only [reservedTags, List.mem_cons, List.not_mem_nil, or_false, not_or] at hfree
  simp only [readTag]
  split
  · rename_i heq
    exact absurd heq hfree.1
  · rename_i heq
    exact absurd heq hfree.2.1
  · rename_i heq
    exact absurd heq hfree.2.2.1
  · rename_i heq
    exact absurd heq hfree.2.2.2
  · rw [hkey]
    rfl

theorem spells_heading {h : Heading} {us : List Token} (hus : Spells us h.lexemes) :
    ∃ t us', us = t :: us' ∧ t.kind = .tag := by
  cases h with
  | named | tag | clear | insecure | noParentScript =>
    obtain ⟨k, us', rfl, -⟩ := spells_cons.mp hus
    exact ⟨_, us', rfl, rfl⟩

/-- A heading is read back. -/
theorem readTag_lexemes {h : Heading} (hlegible : h.Legible) {r : Request}
    (hname : h.isNamed → r.name = none ∧ r.base = none) {us : List Token} (hus : Spells us h.lexemes)
    (b ts : List Token) (k n : Nat) :
    ∃ t us', us = t :: us' ∧ t.kind = .tag ∧ ∃ r' b',
      readTag r t ⟨b, us ++ ⟨.newline, "\n", k⟩ :: ts, n⟩ = .ok (r', ⟨b', ⟨.newline, "\n", k⟩ :: ts, n⟩) ∧
      r'.unplaced = r.unplaced.head h := by
  cases h with
  | named name base =>
    obtain ⟨hn, hb⟩ := hname rfl
    cases base with
    | none =>
      simp only [Heading.lexemes, call, List.intercalate_singleton, List.cons_append, List.nil_append,
        List.append_nil, spells_cons, spells_nil] at hus
      obtain ⟨k₁, _, rfl, k₂, _, rfl, k₃, _, rfl, k₄, _, rfl, rfl⟩ := hus
      refine ⟨_, _, rfl, rfl, ?_⟩
      simp [readTag, readName, Cursor.expectPunct_cons, hn, hb, unplaced, head]
    | some base =>
      simp only [Heading.lexemes, call, List.intercalate_singleton, List.cons_append, List.nil_append,
        spells_cons, spells_nil] at hus
      obtain ⟨k₁, _, rfl, k₂, _, rfl, k₃, _, rfl, k₄, _, rfl, k₅, _, rfl, k₆, _, rfl, k₇, _, rfl, k₈, _,
        rfl, rfl⟩ := hus
      refine ⟨_, _, rfl, rfl, ?_⟩
      simp [readTag, readName, Cursor.expectPunct_cons, hn, hb, unplaced, head]
  | clear =>
    obtain ⟨k₁, rfl⟩ := spells_singleton.mp hus
    exact ⟨_, _, rfl, rfl, _, _, rfl, rfl⟩
  | insecure =>
    obtain ⟨k₁, rfl⟩ := spells_singleton.mp hus
    exact ⟨_, _, rfl, rfl, _, _, rfl, rfl⟩
  | noParentScript =>
    obtain ⟨k₁, rfl⟩ := spells_singleton.mp hus
    exact ⟨_, _, rfl, rfl, _, _, rfl, rfl⟩
  | tag key value =>
    simp only [Heading.lexemes, call, List.intercalate_singleton, List.cons_append, List.nil_append,
      spells_cons, spells_nil] at hus
    obtain ⟨k₁, _, rfl, k₂, _, rfl, k₃, _, rfl, k₄, _, rfl, rfl⟩ := hus
    refine ⟨_, _, rfl, rfl, ?_⟩
    rw [readTag_key hlegible]
    simp [Cursor.expectPunct_cons, unplaced, head]

theorem name_head {h : Heading} (hname : h.isNamed = false) (r : Request) :
    (r.head h).name = r.name ∧ (r.head h).base = r.base := by
  cases h with
  | named => cases hname
  | clear | insecure | noParentScript | tag => exact ⟨rfl, rfl⟩

theorem method_foldl_head (hs : List Heading) (r : Request) : (hs.foldl head r).method = r.method := by
  induction hs generalizing r with
  | nil => rfl
  | cons h hs ih =>
    rw [List.foldl_cons, ih]
    cases h <;> rfl

theorem repeated?_foldl_head (hs : List Heading) (r : Request) (k : ClauseKind) :
    (hs.foldl head r).repeated? k = r.repeated? k := by
  induction hs generalizing r with
  | nil => rfl
  | cons h hs ih =>
    rw [List.foldl_cons, ih]
    cases h <;> rfl

/-- Headings one after another are read back. -/
theorem readTags_lexemes (hs : List Heading) {r : Request}
    (hlegible : ∀ h ∈ hs, h.Legible)
    (hname : ∀ h ∈ hs, h.isNamed → r.name = none ∧ r.base = none)
    (honce : hs.Pairwise fun g h => g.isNamed → h.isNamed = false) {m : Nat} (hm : hs.length < m) {us : List Token}
    (hus : Spells us ((hs.map Heading.lexemes).flatMap (· ++ [lineEnd]))) {t : Token}
    (ht : t.isIgnorable = false) (htag : t.kind ≠ .tag) (b ts : List Token) (n : Nat) :
    ∃ r' b', readTags m r ⟨b, us ++ t :: ts, n⟩ = .ok (r', ⟨b', t :: ts, n⟩) ∧
      r'.unplaced = hs.foldl head r.unplaced := by
  induction hs generalizing m r us b with
  | nil =>
    obtain ⟨m, rfl⟩ := Nat.exists_eq_succ_of_ne_zero (Nat.ne_of_gt hm)
    obtain rfl := spells_nil.mp hus
    exact ⟨r, b, by simp [readTags, htag], rfl⟩
  | cons h hs ih =>
    obtain ⟨m, rfl⟩ := Nat.exists_eq_succ_of_ne_zero (Nat.ne_zero_of_lt hm)
    rw [List.map_cons, List.flatMap_cons, List.append_assoc, List.singleton_append] at hus
    obtain ⟨us, _, rfl, hhead, hrest⟩ := spells_append.mp hus
    obtain ⟨k, vs, rfl, hvs⟩ := spells_cons.mp hrest
    obtain ⟨u, us', rfl, hu, r₁, b₁, hread, hr₁⟩ := readTag_lexemes (hlegible h (by simp))
      (hname h (by simp)) hhead b (vs ++ t :: ts) k n
    obtain ⟨hfirst, honce⟩ := List.pairwise_cons.mp honce
    have hnext : ∀ h' ∈ hs, h'.isNamed → r₁.name = none ∧ r₁.base = none := by
      intro h' hh' hn
      have hother : h.isNamed = false := by
        rw [← Bool.not_eq_true]
        exact fun hnamed => absurd hn (by simp [hfirst h' hh' hnamed])
      obtain ⟨hn₁, hb₁⟩ := name_head hother r.unplaced
      rw [← hr₁] at hn₁ hb₁
      obtain ⟨hn, hb⟩ := hname h' (by simp [hh']) hn
      exact ⟨hn₁.trans hn, hb₁.trans hb⟩
    obtain ⟨r₂, b₂, hread₂, hr₂⟩ := ih (fun h' hh' => hlegible h' (by simp [hh'])) hnext
      honce (Nat.lt_of_succ_lt_succ hm) hvs (⟨.newline, "\n", k⟩ :: b₁)
    refine ⟨r₂, b₂, ?_, by rw [hr₂, hr₁, List.foldl_cons]⟩
    have hskip (b : List Token) :
        (⟨b, vs ++ t :: ts, n⟩ : Cursor).skip = ⟨b, vs ++ t :: ts, n⟩ := by
      cases hs with
      | nil =>
        rw [spells_nil.mp hvs, List.nil_append, Cursor.skip_of_not ht]
      | cons h' hs =>
        rw [List.map_cons, List.flatMap_cons, List.append_assoc] at hvs
        obtain ⟨_, ws, rfl, hfirst, -⟩ := spells_append.mp hvs
        obtain ⟨v, vs, rfl, hv⟩ := spells_heading hfirst
        rw [List.append_assoc, List.cons_append, Cursor.skip_of_not (by simp [hv])]
    have hgap (k : Nat) : (⟨.newline, "\n", k⟩ : Token).isIgnorable := rfl
    simp only [lineEnd, List.cons_append, List.append_assoc] at hread ⊢
    simp only [readTags, Cursor.token?_cons, hu, if_true, hread, ok_bind, Cursor.skip_cons, hgap, hskip]
    exact hread₂

/-- Tokens that open no further clause. -/
def EndsClauses (ts : List Token) : Prop :=
  ∀ b n, ClauseKind.at? (⟨b, ts, n⟩ : Cursor).skip = none

theorem spells_clause {x : Clause} {us : List Token} (hus : Spells us x.lexemes) :
    ∃ u us', us = u :: us' ∧ u.isIgnorable = false ∧ u.isPunct ":" = false := by
  cases x with
  | auth | certificate | output =>
    obtain ⟨i, j, vs, rfl⟩ := spells_call hus
    exact ⟨_, _, rfl, rfl, rfl⟩
  | payload p =>
    obtain ⟨i, j, vs, rfl⟩ := PayloadTerm.spells_head hus
    exact ⟨_, _, rfl, rfl, rfl⟩
  | query | header | script =>
    obtain ⟨i, vs, rfl, -⟩ := spells_cons.mp hus
    exact ⟨_, _, rfl, rfl, rfl⟩

theorem readClauses_of_isIgnorable {t : Token} (ht : t.isIgnorable) {m : Nat} (hm : 0 < m) (r : Request)
    (b ts : List Token) (n : Nat) :
    readClauses m r ⟨b, t :: ts, n⟩ = readClauses m r ⟨t :: b, ts, n⟩ := by
  cases m with
  | zero => cases hm
  | succ m => rw [readClauses, readClauses, Cursor.skip_cons, if_pos ht]

/-- One clause is read, and then the rest. -/
theorem readClauses_clause {x : Clause} (h : x.Legible) {r : Request} (hfree : r.repeated? x.kind = none) {us : List Token}
    (hus : Spells us x.lexemes) (m : Nat) (b ts : List Token) (k n : Nat) :
    ∃ s b', readClauses (m + 1) r ⟨b, us ++ ⟨.newline, "\n", k⟩ :: ts, n⟩ =
      if x.kind = .script then .ok (r.add x.reread s, ⟨b', ⟨.newline, "\n", k⟩ :: ts, n⟩)
      else readClauses m (r.add x.reread s) ⟨b', ⟨.newline, "\n", k⟩ :: ts, n⟩ := by
  have hat := x.at?_lexemes hus b (⟨.newline, "\n", k⟩ :: ts) n
  obtain ⟨b', hread⟩ := Clause.read_lexemes h hus b ts k n
  have hskip : (⟨b, us ++ ⟨.newline, "\n", k⟩ :: ts, n⟩ : Cursor).skip = ⟨b, us ++ ⟨.newline, "\n", k⟩ :: ts, n⟩ := by
    obtain ⟨u, us', rfl, hu, -⟩ := spells_clause hus
    exact Cursor.skip_of_not hu ..
  refine ⟨⟨Cursor.offset ⟨b, us ++ ⟨.newline, "\n", k⟩ :: ts, n⟩, Cursor.lastEnd ⟨b', ⟨.newline, "\n", k⟩ :: ts, n⟩⟩,
    b', ?_⟩
  rw [readClauses, hskip, hat]
  simp only [hfree, hread, ok_bind, pure_eq_ok]

/-- A clause that may not stand again is not read. -/
theorem readClauses_repeated {x : Clause} {r : Request} {name : String} (hrepeated : r.repeated? x.kind = some name)
    {us : List Token} (hus : Spells us x.lexemes) (m : Nat) (b ts : List Token) (n : Nat) :
    ∃ f, readClauses (m + 1) r ⟨b, us ++ ts, n⟩ = .error f ∧ f.cause = .declaredTwice name := by
  have hat := x.at?_lexemes hus b ts n
  have hskip : (⟨b, us ++ ts, n⟩ : Cursor).skip = ⟨b, us ++ ts, n⟩ := by
    obtain ⟨u, us', rfl, hu, -⟩ := spells_clause hus
    exact Cursor.skip_of_not hu ..
  refine ⟨Cursor.faultHere ⟨b, us ++ ts, n⟩ (.declaredTwice name), ?_, Cursor.cause_faultHere ..⟩
  rw [readClauses, hskip, hat]
  simp only [hrepeated]
  rfl

/-- Clauses one after another are put into a request, and then reading goes on. -/
theorem readClauses_front (xs : List Clause) {r r₁ : Request} (hlegible : ∀ x ∈ xs, x.Legible)
    (hscript : ∀ x ∈ xs, x.kind ≠ .script) (hsettle : r.unplaced.settle (xs.map Clause.reread) = .ok r₁) {us : List Token}
    (hus : Spells us ((xs.map Clause.lexemes).flatMap (· ++ [lineEnd]))) (m : Nat) (b ts : List Token) (n : Nat) :
    ∃ r' b', readClauses (m + 1 + xs.length) r ⟨b, us ++ ts, n⟩ = readClauses (m + 1) r' ⟨b', ts, n⟩ ∧
      r'.unplaced = r₁ := by
  induction xs generalizing r us b with
  | nil =>
    obtain rfl := spells_nil.mp hus
    exact ⟨r, b, rfl, Except.ok.inj hsettle⟩
  | cons x xs ih =>
    rw [List.map_cons, List.flatMap_cons, List.append_assoc, List.singleton_append] at hus
    obtain ⟨us, _, rfl, hclause, hrest⟩ := spells_append.mp hus
    obtain ⟨k, vs, rfl, hvs⟩ := spells_cons.mp hrest
    have happend : us ++ ⟨lineEnd.kind, lineEnd.text, k⟩ :: vs ++ ts = us ++ ⟨.newline, "\n", k⟩ :: (vs ++ ts) := by
      simp
    have hgap : (⟨.newline, "\n", k⟩ : Token).isIgnorable := rfl
    rw [List.map_cons, settle, Clause.kind_reread] at hsettle
    split at hsettle
    · cases hsettle
    rename_i hnone
    have hfree : r.repeated? x.kind = none := hnone
    obtain ⟨s, b₁, hread⟩ := readClauses_clause (hlegible x (by simp)) hfree hclause (m + 1 + xs.length) b (vs ++ ts) k n
    rw [if_neg (hscript x (by simp)), readClauses_of_isIgnorable hgap (by omega)] at hread
    rw [← unplaced_add r x.reread s] at hsettle
    obtain ⟨r', b', hread', hr'⟩ := ih (fun y hy => hlegible y (by simp [hy])) (fun y hy => hscript y (by simp [hy]))
      hsettle hvs (⟨.newline, "\n", k⟩ :: b₁)
    exact ⟨r', b', by rw [happend, List.length_cons, ← Nat.add_assoc, hread, hread'], hr'⟩

theorem not_script_of_append {as bs : List Clause} (h : (as ++ bs).Pairwise fun x _ => x.kind ≠ .script) (hbs : bs ≠ []) :
    ∀ x ∈ as, x.kind ≠ .script := by
  intro x hx
  obtain ⟨y, hy⟩ := List.exists_mem_of_ne_nil bs hbs
  exact (List.pairwise_append.mp h).2.2 x hx y hy

/-- Clauses are read as they are put into a request, down to what opens no further one. -/
theorem readClauses_lexemes (xs : List Clause) {r r₁ : Request} (hlegible : ∀ x ∈ xs, x.Legible)
    (hscript : xs.Pairwise fun x _ => x.kind ≠ .script) (hsettle : r.unplaced.settle (xs.map Clause.reread) = .ok r₁)
    {m : Nat} (hm : xs.length < m) {us : List Token} (hus : Spells us ((xs.map Clause.lexemes).flatMap (· ++ [lineEnd])))
    {ts : List Token} (hts : EndsClauses ts) (b : List Token) (n : Nat) :
    ∃ r' c' b', readClauses m r ⟨b, us ++ ts, n⟩ = .ok (r', c') ∧ c'.skip = (⟨b', ts, n⟩ : Cursor).skip ∧
      r'.unplaced = r₁ := by
  have hend (m : Nat) (r : Request) (b : List Token) :
      readClauses (m + 1) r ⟨b, ts, n⟩ = .ok (r, (⟨b, ts, n⟩ : Cursor).skip) := by
    rw [readClauses]
    simp only [hts b n]
    rfl
  obtain ⟨m, rfl⟩ : ∃ k, m = k + 1 + xs.length := ⟨m - 1 - xs.length, by omega⟩
  by_cases hall : ∀ x ∈ xs, x.kind ≠ .script
  · obtain ⟨r', b', hread, hr'⟩ := readClauses_front xs hlegible hall hsettle hus m b ts n
    exact ⟨r', _, b', hread.trans (hend m r' b'), Cursor.skip_skip _, hr'⟩
  -- the script, behind which nothing is read
  obtain ⟨init, x, rfl⟩ : ∃ init x, xs = init ++ [x] := (List.eq_nil_or_concat' xs).resolve_left (by
    rintro rfl
    exact hall (by simp))
  have hinit := not_script_of_append hscript (List.cons_ne_nil x [])
  have hx : x.kind = .script := by
    by_contra hx
    exact hall (by simpa [or_imp, forall_and, hx] using hinit)
  rw [List.map_append, List.flatMap_append, List.map_singleton, List.flatMap_singleton] at hus
  obtain ⟨us, _, rfl, has, hlast⟩ := spells_append.mp hus
  obtain ⟨vs, _, rfl, hclause, hfeed⟩ := spells_append.mp hlast
  obtain ⟨k, rfl⟩ := spells_singleton.mp hfeed
  rw [List.map_append, settle_append, List.map_singleton] at hsettle
  obtain ⟨r₀, hr₀, hsettle⟩ := bind_eq_ok.mp hsettle
  rw [settle, Clause.kind_reread] at hsettle
  split at hsettle
  · cases hsettle
  rename_i hnone
  obtain ⟨r', b', hread, hr'⟩ := readClauses_front init (fun y hy => hlegible y (by simp [hy])) hinit hr₀ has (m + 1) b
    (vs ++ ⟨.newline, "\n", k⟩ :: ts) n
  rw [← hr'] at hnone hsettle
  have hfree : r'.repeated? x.kind = none := hnone
  obtain ⟨s, b₁, hlast⟩ := readClauses_clause (hlegible x (by simp)) hfree hclause (m + 1) b' ts k n
  rw [if_pos hx] at hlast
  refine ⟨r'.add x.reread s, ⟨b₁, ⟨.newline, "\n", k⟩ :: ts, n⟩, ⟨.newline, "\n", k⟩ :: b₁, ?_, ?_, ?_⟩
  · have hlength : m + 1 + (init ++ [x]).length = m + 1 + 1 + init.length := by simp; omega
    rw [hlength, ← hlast, ← hread]
    simp
  · rw [Cursor.skip_cons, if_pos (by rfl)]
  · rw [unplaced_add]
    exact Except.ok.inj hsettle

/-- A clause that may not stand again is where reading fails. -/
theorem readClauses_error {xs : List Clause} {r : Request} {name : String} (hlegible : ∀ x ∈ xs, x.Legible)
    (hscript : xs.Pairwise fun x _ => x.kind ≠ .script) (hsettle : r.unplaced.settle (xs.map Clause.reread) = .error name)
    {m : Nat} (hm : xs.length < m) {us : List Token} (hus : Spells us ((xs.map Clause.lexemes).flatMap (· ++ [lineEnd])))
    (ts b : List Token) (n : Nat) :
    ∃ f, readClauses m r ⟨b, us ++ ts, n⟩ = .error f ∧ f.cause = .declaredTwice name := by
  obtain ⟨as', x', bs', r₁, hxs, hr₁, hrepeated⟩ := settle_eq_error hsettle
  obtain ⟨as, _, rfl, rfl, hrest⟩ := List.map_eq_append_iff.mp hxs
  obtain ⟨x, bs, rfl, rfl, -⟩ := List.map_eq_cons_iff.mp hrest
  rw [List.map_append, List.flatMap_append, List.map_cons, List.flatMap_cons, List.append_assoc] at hus
  obtain ⟨us, _, rfl, has, hrest⟩ := spells_append.mp hus
  obtain ⟨vs, ws, rfl, hx, -⟩ := spells_append.mp hrest
  obtain ⟨m, rfl⟩ : ∃ k, m = k + 1 + as.length := ⟨m - 1 - as.length, by simp at hm; omega⟩
  obtain ⟨r', b', hread, hr'⟩ := readClauses_front as (fun y hy => hlegible y (by simp [hy]))
    (not_script_of_append hscript (by simp)) hr₁ has m b (vs ++ ws ++ ts) n
  rw [Clause.kind_reread, ← hr'] at hrepeated
  have hrepeated : r'.repeated? x.kind = some name := hrepeated
  rw [List.append_assoc us, hread, List.append_assoc vs]
  exact readClauses_repeated hrepeated hx m b' (ws ++ ts) n

/-- The URL and the method before it are read back. -/
theorem readTarget_lexemes (l : Layout) {r : Request} (hmethod : r.method = none) {us : List Token}
    (hus : Spells us l.targetLexemes) (b ts : List Token) (n : Nat) :
    ∃ r' b', readTarget r ⟨b, us ++ ts, n⟩ = .ok (r', ⟨b', ts, n⟩) ∧
      r'.unplaced = { r.unplaced with method := l.method, url := l.url } := by
  unfold Layout.targetLexemes targetLexemes at hus
  cases hm : l.method with
  | none =>
    simp only [hm, spells_cons, spells_nil] at hus
    obtain ⟨k, _, rfl, rfl⟩ := hus
    simp [readTarget, unplaced, hmethod]
  | some m =>
    simp only [hm, spells_cons, spells_nil] at hus
    obtain ⟨k₁, _, rfl, k₂, _, rfl, k₃, _, rfl, rfl⟩ := hus
    simp [readTarget, unplaced, Method.ofName?_name]

/-- What a description says once it is written as comments. -/
def rereadDescription (text : String) : Option String :=
  match Text.splitLines text.toList with
  | [] => none
  | lines => some (String.ofList (List.intercalate ['\n'] lines))

/-- A description is read back unless it is empty or ends a line. -/
theorem rereadDescription_eq_some {text : String} (h : '\r' ∉ text.toList) :
    rereadDescription text = some text ↔ text ≠ "" ∧ text.toList.getLast? ≠ some '\n' := by
  rw [← Text.intercalate_splitLines_eq_self h, rereadDescription]
  cases hl : Text.splitLines text.toList with
  | nil =>
    have : text = "" := by
      rw [Text.splitLines_of_clean h] at hl
      cases hcs : text.toList with
      | nil => exact String.toList_eq_nil_iff.mp hcs
      | cons c cs => exact absurd (hcs ▸ hl) (Text.splitLinesAux_ne_nil (by simp))
    simp [this]
  | cons line lines =>
    have : text ≠ "" := by
      rintro rfl
      cases hl
    simp only [Option.some.injEq, this, ne_eq, not_false_eq_true, true_and]
    rw [← String.toList_inj, String.toList_ofList]

theorem commentsBack_lines (lines : List (List Char)) {gs : List Token}
    (hgs : Spells gs ((lines.map fun line => [(⟨.comment, "// " ++ String.ofList line⟩ : Lexeme)]).flatMap
      (· ++ [lineEnd]))) (g : List Token) :
    Cursor.commentsBack false (gs.reverse ++ g) = lines.reverse ++ Cursor.commentsBack false g := by
  induction lines generalizing gs g with
  | nil => simp [spells_nil.mp hgs]
  | cons line lines ih =>
    rw [List.map_cons, List.flatMap_cons, List.append_assoc, List.singleton_append, List.singleton_append,
      spells_cons] at hgs
    obtain ⟨i, _, rfl, hrest⟩ := hgs
    obtain ⟨j, gs, rfl, hgs⟩ := spells_cons.mp hrest
    have htext : Cursor.commentText ⟨.comment, "// " ++ String.ofList line, i⟩ = line := by
      simp [Cursor.commentText]
    rw [List.reverse_cons, List.reverse_cons, List.append_assoc, List.append_assoc, ih hgs]
    simp [Cursor.commentsBack, htext]

/-- No comment directly before this place describes what follows it. -/
def Quiet (b : List Token) : Prop := Cursor.commentsBack false b = [] ∧ Cursor.commentsBack true b = []

theorem quiet_nil : Quiet [] := ⟨rfl, rfl⟩

theorem Quiet.line {b : List Token} (h : Quiet b) (k : Nat) : Quiet (⟨.newline, "\n", k⟩ :: b) := ⟨h.2, rfl⟩

theorem quiet_statement (b : List Token) (j k : Nat) :
    Quiet (⟨.newline, "\n", k⟩ :: ⟨.punctuation, ";", j⟩ :: b) := ⟨rfl, rfl⟩

theorem quiet_lines (b : List Token) (j k : Nat) :
    Quiet (⟨.newline, "\n", k⟩ :: ⟨.newline, "\n", j⟩ :: b) := ⟨rfl, rfl⟩

/-- The comments that describe a request, with nothing above them. -/
theorem leadingComments?_describing (r : Request) {gs : List Token}
    (hgs : Spells gs (r.describing.flatMap (· ++ [lineEnd]))) {g : List Token} (hg : Quiet g) (ts : List Token)
    (n : Nat) :
    Cursor.leadingComments? ⟨gs.reverse ++ g, ts, n⟩ = r.description.bind rereadDescription := by
  rw [Cursor.leadingComments?, commentsBack_lines _ hgs, hg.1, List.append_nil, List.reverse_reverse,
    descriptionLines]
  cases r.description with
  | none => rfl
  | some text => rfl

theorem foldl_head (r : Request) (hbase : r.base.isSome → r.name.isSome) (r₀ : Request)
    (h : r₀.name = none ∧ r₀.base = none ∧ r₀.flags = {} ∧ r₀.tags = []) :
    r.headings.foldl head r₀ =
      { r₀ with name := r.name, base := r.base, flags := r.flags, tags := r.tags } := by
  obtain ⟨hname, hb, hflags, htags⟩ := h
  have htag (tags : List (String × String)) (r₁ : Request) :
      (tags.map fun tag => Heading.tag tag.1 tag.2).foldl head r₁ =
        { r₁ with tags := r₁.tags ++ tags } := by
    induction tags generalizing r₁ with
    | nil => simp
    | cons x xs ih =>
      rw [List.map_cons, List.foldl_cons, ih]
      simp [head]
  have hsame : r₀ = { r₀ with name := none, base := none } := by
    cases r₀
    simp_all
  have hnamed : ((r.name.map (Heading.named · r.base)).toList).foldl head r₀ =
      { r₀ with name := r.name, base := r.base } := by
    cases hn : r.name with
    | none =>
      have : r.base = none := by
        cases hbase' : r.base with
        | none => rfl
        | some base => simp [hn, hbase'] at hbase
      rw [this]
      exact hsame
    | some name => rfl
  simp only [headings, marks, List.foldl_append, hnamed, htag]
  cases hf : r.flags with
  | mk clear insecure noParentScript =>
    cases clear <;> cases insecure <;> cases noParentScript <;> simp [head, hflags, htags]

/-- A request with these clauses in place of its own. -/
def dress (r : Request) (auth : Option Auth) (certificate : Option Certificate)
    (headers queries : List (String × String)) (payload : Option PayloadTerm) (output : Option String)
    (script : Option Script) : Request :=
  { r with auth, certificate, headers, queries, payload, output, script, spans := {} }

theorem foldl_merge_option {α : Type} (o : Option α) (make : α → Clause) (put : Option α → Request)
    (h : ∀ x, (put none).merge (make x).reread = put (some x)) :
    ((o.map make).toList).foldl (fun r x => r.merge x.reread) (put none) = put o := by
  cases o with
  | none => rfl
  | some x => exact h x

theorem foldl_merge_list {α : Type} (xs : List α) (make : α → Clause) (put : List α → Request)
    (h : ∀ xs x, (put xs).merge (make x).reread = put (xs ++ [x])) (ys : List α) :
    (xs.map make).foldl (fun r x => r.merge x.reread) (put ys) = put (ys ++ xs) := by
  induction xs generalizing ys with
  | nil => rw [List.append_nil]; rfl
  | cons x xs ih =>
    rw [List.map_cons, List.foldl_cons, h, ih, List.append_assoc, List.singleton_append]

theorem foldl_merge (r r₀ : Request) :
    r.clauses.foldl (fun r x => r.merge x.reread) (r₀.dress none none [] [] none none none) =
      r₀.dress r.auth r.certificate r.headers r.queries (r.payload.map PayloadTerm.requoted) r.output
        (r.script.map fun s => Script.ofBlock s.block) := by
  have hauth := foldl_merge_option r.auth Clause.auth (r₀.dress · none [] [] none none none) fun _ => rfl
  have hcertificate := foldl_merge_option r.certificate Clause.certificate
    (r₀.dress r.auth · [] [] none none none) fun _ => rfl
  have hheaders := foldl_merge_list r.headers (fun field => Clause.header field.1 field.2)
    (r₀.dress r.auth r.certificate · [] none none none) (fun _ _ => rfl) []
  have hqueries := foldl_merge_list r.queries (fun field => Clause.query field.1 field.2)
    (r₀.dress r.auth r.certificate r.headers · none none none) (fun _ _ => rfl) []
  have hpayload := foldl_merge_option r.payload Clause.payload
    (fun o => r₀.dress r.auth r.certificate r.headers r.queries (o.map PayloadTerm.requoted) none none)
    fun _ => rfl
  have houtput := foldl_merge_option r.output Clause.output
    (fun o => r₀.dress r.auth r.certificate r.headers r.queries (r.payload.map PayloadTerm.requoted) o none)
    fun _ => rfl
  have hscript := foldl_merge_option r.script Clause.script
    (fun o => r₀.dress r.auth r.certificate r.headers r.queries (r.payload.map PayloadTerm.requoted) r.output
      (o.map fun s => Script.ofBlock s.block)) fun _ => by
        simp only [dress, merge, add, Clause.reread, Option.map_some]
  simp only [List.nil_append, Option.map_none] at hauth hcertificate hheaders hqueries hpayload houtput hscript
  simp only [clauses, List.foldl_append]
  rw [hauth, hcertificate, hheaders, hqueries, hpayload, houtput, hscript]

end

end Request
end RequestLang
