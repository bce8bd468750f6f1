import RequestLang.Property.Evaluate
import RequestLang.Proofs.Document.Reread.Spaced
import RequestLang.Proofs.Json.Read.Value
import RequestLang.Proofs.Property.Run

/-! JSON as it is written anywhere else, in the place of a JSON term. -/
namespace RequestLang
open Lexer Lexeme

namespace Resolve
variable {α β : Type}

/-- A step that gives one result with every resolver and leaves it as it is. -/
def Gives (x : Resolve α) (a : α) : Prop := ∀ r, on x r = (.ok a, r)

theorem gives_pure (a : α) : Gives (pure a) a := fun _ => rfl

theorem Gives.bind {x : Resolve α} {f : α → Resolve β} {a : α} {b : β} (h : Gives x a) (hf : Gives (f a) b) :
    Gives (x >>= f) b := fun r => (on_bind_of_ok (h r) f).trans (hf r)

/-- A text without placeholders stands for itself. -/
theorem gives_expand {text : String} (h : Text.holds ['{', '{'] text.toList = false) : Gives (expand text) text := by
  intro r
  rw [expand, h]
  rfl

end Resolve

namespace Json
variable {cs cs' : List Char} {p q : Prop}

mutual

/-- The strings of a value, its keys among them. -/
def strings : Json → List String
  | .str s => [s]
  | .arr items => itemStrings items
  | .obj members => memberStrings members
  | _ => []

def itemStrings : List Json → List String
  | [] => []
  | v :: vs => strings v ++ itemStrings vs

def memberStrings : List (String × Json) → List String
  | [] => []
  | (k, v) :: ms => k :: (strings v ++ memberStrings ms)

end

/-- A text of which something holds if the language knows all its escapes. -/
def Knows (cs : List Char) (p : Prop) : Prop := ∀ rest, knownEscapes (cs ++ rest) → p ∧ knownEscapes rest

theorem Knows.imp (h : Knows cs p) (hpq : p → q) : Knows cs q := fun rest hrest => (h rest hrest).imp_left hpq

theorem Knows.append (h : Knows cs p) (h' : Knows cs' q) : Knows (cs ++ cs') (p ∧ q) := by
  intro rest hrest
  rw [List.append_assoc] at hrest
  obtain ⟨hp, hbehind⟩ := h _ hrest
  obtain ⟨hq, hrest⟩ := h' rest hbehind
  exact ⟨⟨hp, hq⟩, hrest⟩

theorem knows_plain (hcs : '\\' ∉ cs) (hp : p) : Knows cs p := by
  intro rest hrest
  refine ⟨hp, ?_⟩
  induction cs with
  | nil => exact hrest
  | cons c cs ih =>
    rw [List.mem_cons, not_or] at hcs
    exact ih hcs.2 (by simpa [knownEscapes, Ne.symm hcs.1] using hrest)

section
variable {g j : List Char} {c : Char}

theorem knows_gap (hg : ∀ c ∈ g, isSpace c) : Knows g True :=
  knows_plain (fun h => by simpa [isSpace] using hg _ h) trivial

theorem Knows.opened (hc : c ≠ '\\') (hg : ∀ c ∈ g, isSpace c) (h : Knows cs p) : Knows (c :: (g ++ cs)) p := by
  have hmark : Knows [c] True := knows_plain (by simpa using hc.symm) trivial
  exact (hmark.append ((knows_gap hg).append h)).imp fun hall => hall.2.2

theorem Knows.closed (h : Knows cs p) (hc : c ≠ '\\') (hg : ∀ c ∈ g, isSpace c) : Knows (cs ++ (g ++ [c])) p := by
  have hmark : Knows [c] True := knows_plain (by simpa using hc.symm) trivial
  exact (h.append ((knows_gap hg).append hmark)).imp fun hall => hall.1

theorem Knows.parted (h : Knows cs p) (hc : c ≠ '\\') (hg : ∀ c ∈ g, isSpace c) (hj : ∀ c ∈ j, isSpace c)
    (h' : Knows cs' q) : Knows (cs ++ (g ++ c :: (j ++ cs'))) (p ∧ q) :=
  (h.append ((knows_gap hg).append (h'.opened hc hj))).imp fun hall => ⟨hall.1, hall.2.2⟩

end

/-- A JSON text in the place of a term: its value, its lexemes, the term that they are read as, and what
that gives. -/
structure Pasted (cs : List Char) (v : Json) (ls : List Lexeme) (t : JsonTerm) (w : Json) : Prop where
  stops : ∀ rest, Stops isSpace (cs ++ rest)
  lexes : Lexes goesOn cs ls
  opens : JsonTerm.Opens ls
  reads : JsonTerm.ReadsAs ls t
  gives : Resolve.Gives (Resolve.evaluate t) w
  knows : Knows cs (w = merged v)

theorem pasted_word {word : String} {v : Json} (h : (word, v) ∈ namedValues) :
    Pasted word.toList v [.word word] (JsonTerm.ofWord word) v := by
  have hreads : JsonTerm.ReadsAs [.word word] (JsonTerm.ofWord word) :=
    JsonTerm.readsAs_operand (.inr (.inr ⟨rfl, rfl⟩))
  have hlexes (hhead : isHeaded Text.isNameChar word.toList) (hkey : word.toList ∉ keywords) :
      Lexes goesOn word.toList [.word word] :=
    .of_cuts rfl fun rest hrest => cuts_word hhead hkey (stops_of_goesOn (by decide) hrest)
  simp only [namedValues, List.mem_cons, Prod.mk.injEq, List.not_mem_nil, or_false] at h
  rcases h with ⟨rfl, rfl⟩ | ⟨rfl, rfl⟩ | ⟨rfl, rfl⟩ <;>
    exact ⟨fun _ => (stops_cons ..).mpr (by decide), hlexes (by decide) (by decide), ⟨_, [], rfl, by decide, by decide⟩,
      hreads, Resolve.gives_pure _, knows_plain (by decide) rfl⟩

theorem stops_number (d : Decimal) (rest : List Char) : Stops isSpace (d.chars ++ rest) := by
  obtain ⟨c, cs, hc, hdigit⟩ := d.head_chars
  rw [hc, List.cons_append, stops_cons, ← Bool.not_eq_true, isSpace_iff]
  intro hspace
  simp only [List.mem_cons, List.not_mem_nil, or_false] at hspace
  rcases hspace with rfl | rfl | rfl | rfl <;> simp at hdigit

theorem lexes_number (d : Decimal) : Lexes goesOn d.chars [⟨.number, String.ofList d.chars⟩] :=
  .of_cuts String.toList_ofList fun _ hrest => d.cuts String.toList_ofList (stops_of_goesOn (by decide) hrest)

theorem gives_number {text : String} {x : Number} (h : Number.parse? text = some x) :
    Resolve.Gives (Resolve.evaluate (.number text)) (.number x) := by
  intro r
  rw [Resolve.evaluate, ofNumeral, h]
  rfl

theorem pasted_number {d : Decimal} {x : Number} (h : Number.parse? (String.ofList d.chars) = some x) :
    Pasted d.chars (.number x) [⟨.number, String.ofList d.chars⟩] (.number (String.ofList d.chars)) (.number x) where
  stops := stops_number d
  lexes := lexes_number d
  opens := ⟨_, [], rfl, rfl, by simp [mark]⟩
  reads := JsonTerm.readsAs_operand (.inl ⟨rfl, rfl⟩)
  gives := gives_number h
  knows := knows_plain (d.not_mem_chars (by decide)) rfl

theorem pasted_negative {d : Decimal} {x : Number} (h : Number.parse? (String.ofList ('-' :: d.chars)) = some x) :
    Pasted ('-' :: d.chars) (.number x) [op "-", ⟨.number, String.ofList d.chars⟩]
      (.number (String.ofList ('-' :: d.chars))) (.number x) where
  stops rest := (stops_cons ..).mpr (by decide)
  lexes := by
    have hminus : Lexes (fun _ => false) ['-'] [op "-"] := .of_cuts rfl fun rest _ => cuts_op (by decide) rest
    exact hminus.append (lexes_number d) fun _ _ _ _ => rfl
  opens := ⟨_, _, rfl, by decide, by decide⟩
  reads := JsonTerm.readsAs_negative String.toList_ofList
  gives := gives_number h
  knows := knows_plain (by simp [d.not_mem_chars (c := '\\') (by decide)]) rfl

/-- What stands between the quotes of a string is one lexeme with them, before anything but a quote. -/
theorem Units.lexes {body ds : List Char} (h : Units body ds) :
    Lexes (· == '"') ('"' :: (body ++ ['"'])) [⟨.string, String.ofList ('"' :: (body ++ ['"']))⟩] := by
  refine .of_cuts String.toList_ofList fun rest hrest => ?_
  have hfence : fenced? ['"', '"', '"'] ['"', '"', '"'] ('"' :: (body ++ '"' :: rest)) = none := by
    have hhead := h.head?_ne
    refine if_neg ?_
    cases body with
    | nil =>
      cases rest with
      | nil => simp
      | cons c rest =>
        have hc : c ≠ '"' := by simpa using hrest
        simp [hc.symm]
    | cons c body =>
      have hc : c ≠ '"' := by simpa using hhead
      simp [hc.symm]
  have hlexeme := lexeme?_quote (.inl rfl) (body ++ '"' :: rest)
  rw [hfence, h.closing?_eq] at hlexeme
  constructor
  · simp
  · simp
  · simpa using hlexeme

theorem value_literal (body : List Char) (k : Nat) :
    (⟨.string, String.ofList ('"' :: (body ++ ['"'])), k⟩ : Token).literal.value =
      String.ofList (Text.Quoted.decode body) := by
  simp [Token.literal, Text.Quoted.inner]

theorem Units.gives_expand {body ds : List Char} (h : Units body ds) (hholes : Text.holds ['{', '{'] ds = false)
    (k : Nat) :
    Resolve.Gives (Resolve.expand (⟨.string, String.ofList ('"' :: (body ++ ['"'])), k⟩ : Token).literal.value)
      (String.ofList (Text.Quoted.decode body)) := by
  rw [value_literal]
  exact Resolve.gives_expand (by rw [String.toList_ofList]; exact h.holds_decode hholes)

theorem Units.knows {body ds : List Char} (h : Units body ds) :
    Knows ('"' :: (body ++ ['"'])) (Text.Quoted.decode body = ds) := by
  have hbody : Knows body (Text.Quoted.decode body = ds) := fun _ hrest => h.decode_eq hrest
  have hquote : Knows ['"'] True := knows_plain (by decide) trivial
  exact (hquote.append (hbody.append hquote)).imp fun hall => hall.2.1

theorem pasted_string {body ds : List Char} (h : Units body ds) (hholes : Text.holds ['{', '{'] ds = false) :
    Pasted ('"' :: (body ++ ['"'])) (.str (String.ofList ds)) [⟨.string, String.ofList ('"' :: (body ++ ['"']))⟩]
      (.literal (⟨.string, String.ofList ('"' :: (body ++ ['"'])), 0⟩ : Token).literal)
      (.str (String.ofList (Text.Quoted.decode body))) where
  stops rest := (stops_cons ..).mpr (by decide)
  lexes := h.lexes.imp fun c hc => by
    rw [beq_iff_eq] at hc
    rw [hc]
    decide
  opens := ⟨_, [], rfl, rfl, by simp [mark]⟩
  reads := JsonTerm.readsAs_string _
  gives := (h.gives_expand hholes 0).bind (Resolve.gives_pure _)
  knows := h.knows.imp fun hbody => by
    rw [hbody]
    rfl

/-- The rest of a JSON list behind its first blanks, in the place of items. -/
structure PastedItems (cs : List Char) (vs : List Json) (ls : List Lexeme) (items : List JsonTerm) (ws : List Json) :
    Prop where
  stops : ∀ rest, Stops isSpace (cs ++ rest)
  lexes : Lexes (fun _ => false) cs ls
  reads : JsonTerm.ItemsReadAs ls items
  gives : Resolve.Gives (Resolve.evaluateItems items) ws
  knows : Knows cs (ws = mergedItems vs)

/-- A member of a JSON object in the place of a member. -/
structure PastedMember (cs : List Char) (x : String × Json) (ls : List Lexeme) (m : JsonKey × JsonTerm)
    (y : String × Json) : Prop where
  stops : ∀ rest, Stops (fun c => isSpace c || c == '{' || c == '%') (cs ++ rest)
  lexes : Lexes goesOn cs ls
  reads : JsonTerm.MemberReadsAs ls m
  givesKey : Resolve.Gives (Resolve.evaluateKey m.1) y.1
  gives : Resolve.Gives (Resolve.evaluate m.2) y.2
  knows : Knows cs (y = (x.1, merged x.2))

/-- The rest of a JSON object behind its first blanks, in the place of members. -/
structure PastedMembers (cs : List Char) (ms : List (String × Json)) (ls : List Lexeme)
    (members : List (JsonKey × JsonTerm)) (f : List (String × Json) → List (String × Json)) : Prop where
  stops : ∀ rest, Stops (fun c => isSpace c || c == '{' || c == '%') (cs ++ rest)
  lexes : Lexes (fun _ => false) cs ls
  reads : JsonTerm.MembersReadAs ls members
  gives : ∀ acc, Resolve.Gives (Resolve.evaluateMembers acc members) (f acc)
  knows : Knows cs (∀ acc, f acc = mergedMembers acc ms)

theorem pastedItems_nil : PastedItems [']'] [] [mark "]"] [] [] where
  stops rest := (stops_cons ..).mpr (by decide)
  lexes := lexes_mark (by decide)
  reads := JsonTerm.itemsReadAs_nil
  gives := Resolve.gives_pure _
  knows := knows_plain (by decide) rfl

section
variable {g j : List Char} {v w : Json} {ls ls' : List Lexeme} {t : JsonTerm} {vs ws : List Json}
  {items : List JsonTerm}

theorem Pasted.items_last (h : Pasted cs v ls t w) (hg : ∀ c ∈ g, isSpace c) :
    ∃ ls', PastedItems (cs ++ (g ++ [']'])) [v] ls' [t] [w] := by
  obtain ⟨gs, hgaps, hlexes⟩ := h.lexes.closed (c := ']') (s := "]") (by simp) hg
  refine ⟨_, fun rest => ?_, hlexes, JsonTerm.itemsReadAs_last h.reads h.opens hgaps,
    h.gives.bind ((Resolve.gives_pure _).bind (Resolve.gives_pure _)), ?_⟩
  · rw [List.append_assoc]
    exact h.stops _
  · refine (h.knows.closed (by decide) hg).imp fun hw => ?_
    rw [hw]
    rfl

theorem Pasted.items_cons (h : Pasted cs v ls t w) (hg : ∀ c ∈ g, isSpace c) (hj : ∀ c ∈ j, isSpace c)
    (hitems : PastedItems cs' vs ls' items ws) :
    ∃ ls'', PastedItems (cs ++ (g ++ ',' :: (j ++ cs'))) (v :: vs) ls'' (t :: items) (w :: ws) := by
  obtain ⟨gs, js, hgaps, hjaps, hlexes⟩ := h.lexes.comma hg hj hitems.lexes hitems.stops
  refine ⟨_, fun rest => ?_, hlexes, JsonTerm.itemsReadAs_cons h.reads h.opens hgaps hjaps hitems.reads,
    h.gives.bind (hitems.gives.bind (Resolve.gives_pure _)), ?_⟩
  · rw [List.append_assoc]
    exact h.stops _
  · refine (h.knows.parted (by decide) hg hj hitems.knows).imp fun ⟨hw, hws⟩ => ?_
    rw [hw, hws]
    rfl

theorem PastedItems.array (hg : ∀ c ∈ g, isSpace c) (h : PastedItems cs vs ls items ws) :
    ∃ ls', Pasted ('[' :: (g ++ cs)) (.arr vs) ls' (.array items) (.arr ws) := by
  obtain ⟨gs, hgs, hgaps⟩ := exists_lexes_gap hg
  have hbehind := hgs.append h.lexes fun rest _ => h.stops rest
  have hopen := (lexes_mark (c := '[') (s := "[") (by decide)).append hbehind fun _ _ _ _ => rfl
  refine ⟨mark "[" :: (gs ++ ls), fun rest => (stops_cons ..).mpr (by decide), hopen.imp fun _ => nofun,
    ⟨_, _, rfl, by decide, by decide⟩, JsonTerm.readsAs_array hgaps h.reads, h.gives.bind (Resolve.gives_pure _), ?_⟩
  refine (h.knows.opened (by decide) hg).imp fun hws => ?_
  rw [hws]
  rfl

variable {ms : List (String × Json)} {members : List (JsonKey × JsonTerm)} {body ds k : List Char}
  {f : List (String × Json) → List (String × Json)} {x y : String × Json} {m : JsonKey × JsonTerm}

theorem pastedMembers_nil : PastedMembers ['}'] [] [mark "\x7d"] [] id where
  stops rest := (stops_cons ..).mpr (by decide)
  lexes := lexes_mark (by decide)
  reads := JsonTerm.membersReadAs_nil
  gives _ := Resolve.gives_pure _
  knows := knows_plain (by decide) fun _ => rfl

theorem Pasted.member (h : Pasted cs v ls t w) (hkey : Units body ds) (hholes : Text.holds ['{', '{'] ds = false)
    (hk : ∀ c ∈ k, isSpace c) (hj : ∀ c ∈ j, isSpace c) : ∃ ls' m,
      PastedMember ('"' :: (body ++ ['"']) ++ (k ++ ':' :: (j ++ cs))) (String.ofList ds, v) ls' m
        (String.ofList (Text.Quoted.decode body), w) := by
  obtain ⟨ks, hks, hkaps⟩ := exists_lexes_gap hk
  obtain ⟨js, hjs, hjaps⟩ := exists_lexes_gap hj
  have hvalue := hjs.append h.lexes fun rest _ => h.stops rest
  have hcolon := (lexes_mark (c := ':') (s := ":") (by decide)).append hvalue fun _ _ _ _ => rfl
  have hbehind := hks.append hcolon fun rest _ => (stops_cons ..).mpr (by decide)
  have hlexes := hkey.lexes.append hbehind fun rest _ => by
    rw [List.append_assoc]
    exact stops_gap hk (by decide) ((stops_cons ..).mpr (by decide))
  refine ⟨_, (JsonTerm.keyOfString (String.ofList ('"' :: (body ++ ['"']))), t), fun rest => ?_, hlexes,
    ⟨_, ks, js, ls, rfl, hkaps, hjaps, rfl, h.reads⟩, hkey.gives_expand hholes 0, h.gives, ?_⟩
  · exact (stops_cons ..).mpr (by decide)
  refine (hkey.knows.parted (by decide) hk hj h.knows).imp fun ⟨hname, hw⟩ => ?_
  rw [hname, hw]

theorem PastedMember.members_last (h : PastedMember cs x ls m y) (hg : ∀ c ∈ g, isSpace c) :
    ∃ ls', PastedMembers (cs ++ (g ++ ['}'])) [x] ls' [m] (setKey y.1 y.2) := by
  obtain ⟨gs, hgaps, hlexes⟩ := h.lexes.closed (c := '}') (s := "\x7d") (by simp) hg
  refine ⟨_, fun rest => ?_, hlexes, JsonTerm.membersReadAs_last h.reads hgaps,
    fun acc => h.givesKey.bind (h.gives.bind (Resolve.gives_pure _)), ?_⟩
  · rw [List.append_assoc]
    exact h.stops _
  · refine (h.knows.closed (by decide) hg).imp fun hy acc => ?_
    rw [hy]
    rfl

theorem PastedMember.members_cons (h : PastedMember cs x ls m y) (hg : ∀ c ∈ g, isSpace c) (hj : ∀ c ∈ j, isSpace c)
    (hmembers : PastedMembers cs' ms ls' members f) :
    ∃ ls'', PastedMembers (cs ++ (g ++ ',' :: (j ++ cs'))) (x :: ms) ls'' (m :: members) (f ∘ setKey y.1 y.2) := by
  obtain ⟨gs, js, hgaps, hjaps, hlexes⟩ := h.lexes.comma hg hj hmembers.lexes fun rest =>
    (hmembers.stops rest).of_imp fun c hc => by simp [hc]
  refine ⟨_, fun rest => ?_, hlexes, JsonTerm.membersReadAs_cons h.reads hgaps hjaps hmembers.reads,
    fun acc => h.givesKey.bind (h.gives.bind (hmembers.gives _)), ?_⟩
  · rw [List.append_assoc]
    exact h.stops _
  · refine (h.knows.parted (by decide) hg hj hmembers.knows).imp fun ⟨hy, hf⟩ acc => ?_
    rw [hy, Function.comp_apply, hf]
    rfl

theorem PastedMembers.object (hg : ∀ c ∈ g, isSpace c) (h : PastedMembers cs ms ls members f) :
    ∃ ls', Pasted ('{' :: (g ++ cs)) (.obj ms) ls' (.object members) (.obj (f [])) := by
  obtain ⟨gs, hgs, hgaps⟩ := exists_lexes_gap hg
  have hbehind := hgs.append h.lexes fun rest _ => (h.stops rest).of_imp fun c hc => by simp [hc]
  have hbrace : Lexes (fun c => c == '{' || c == '%') ['{'] [mark "\x7b"] :=
    .of_cuts rfl fun _ hrest => cuts_brace hrest
  have hopen := hbrace.append hbehind fun rest _ => by
    rw [List.append_assoc]
    exact stops_gap hg (by decide) ((h.stops rest).of_imp fun c hc => by rw [Bool.or_assoc, hc, Bool.or_true])
  refine ⟨mark "\x7b" :: (gs ++ ls), fun rest => (stops_cons ..).mpr (by decide), hopen.imp fun _ => nofun,
    ⟨_, _, rfl, by decide, by decide⟩, JsonTerm.readsAs_object hgaps h.reads,
    (h.gives []).bind (Resolve.gives_pure _), ?_⟩
  refine (h.knows.opened (by decide) hg).imp fun hf => ?_
  rw [hf]
  rfl

end

/-- No string of a value has a placeholder. -/
def Holeless (v : Json) : Prop := ∀ s ∈ v.strings, Text.holds ['{', '{'] s.toList = false

/-- Values that are read in so many steps can stand in the place of terms. -/
def PastesValues (n : Nat) : Prop :=
  ∀ depth cs v rest, readValue n depth cs = .ok (v, rest) → Holeless v →
    ∃ body ls t w, skipSpace cs = body ++ rest ∧ Pasted body v ls t w

def PastesItems (n : Nat) : Prop :=
  ∀ depth cs vs rest, readItems n depth cs = .ok (vs, rest) → Holeless (.arr vs) →
    ∃ body ls items ws, skipSpace cs = body ++ rest ∧ PastedItems body vs ls items ws

/-- The opening quote of the first key has been read. -/
def PastesMembers (n : Nat) : Prop :=
  ∀ depth cs ms rest, readMembers n depth cs = .ok (ms, rest) → Holeless (.obj ms) →
    ∃ body ls members f, '"' :: cs = body ++ rest ∧ PastedMembers body ms ls members f

section
variable {n : Nat}

theorem PastesValues.succ (hitems : PastesItems n) (hmembers : PastesMembers n) : PastesValues (n + 1) := by
  intro depth cs v rest h hholes
  have htakes := readValue_eq_ok h
  generalize skipSpace cs = cs' at htakes
  cases htakes with
  | word hword => exact ⟨_, _, _, _, rfl, pasted_word hword⟩
  | number hsign hx =>
    rcases hsign with rfl | rfl
    · exact ⟨_, _, _, _, rfl, pasted_number hx⟩
    · exact ⟨_, _, _, _, rfl, pasted_negative hx⟩
  | @text body ds _ hunits =>
    have hds : Text.holds ['{', '{'] ds = false := by simpa [Holeless, strings] using hholes
    exact ⟨_, _, _, _, by simp, pasted_string hunits hds⟩
  | noItems hg =>
    obtain ⟨ls, harray⟩ := pastedItems_nil.array hg
    exact ⟨_, ls, _, _, by simp, harray⟩
  | items hg hskip hread =>
    obtain ⟨body, ls, items, ws, hbody, hpasted⟩ := hitems _ _ _ _ hread hholes
    obtain ⟨ls', harray⟩ := hpasted.array hg
    rw [← hskip, hbody]
    exact ⟨_, ls', _, _, by simp, harray⟩
  | noMembers hg =>
    obtain ⟨ls, hobject⟩ := pastedMembers_nil.object hg
    exact ⟨_, ls, _, _, by simp, hobject⟩
  | members hg hread =>
    obtain ⟨body, ls, members, f, hbody, hpasted⟩ := hmembers _ _ _ _ hread hholes
    obtain ⟨ls', hobject⟩ := hpasted.object hg
    rw [hbody]
    exact ⟨_, ls', _, _, by simp, hobject⟩

theorem PastesItems.succ (hvalues : PastesValues n) (hitems : PastesItems n) : PastesItems (n + 1) := by
  intro depth cs vs rest h hholes
  obtain ⟨v, cs₁, g, hvalue, hg, hbehind⟩ := readItems_eq_ok h
  rcases hbehind with ⟨rfl, rfl⟩ | ⟨j, cs₂, vs', hj, rfl, hskip, hread, rfl⟩
  · have hv : Holeless v := by simpa [Holeless, strings, itemStrings] using hholes
    obtain ⟨body, ls, t, w, hbody, hpasted⟩ := hvalues _ _ _ _ hvalue hv
    obtain ⟨ls', hlast⟩ := hpasted.items_last hg
    exact ⟨_, ls', _, _, by simp [hbody], hlast⟩
  · have hboth : Holeless v ∧ Holeless (.arr vs') := by
      simpa [Holeless, strings, itemStrings, or_imp, forall_and] using hholes
    obtain ⟨body, ls, t, w, hbody, hpasted⟩ := hvalues _ _ _ _ hvalue hboth.1
    obtain ⟨body', ls', items, ws, hbody', hrest⟩ := hitems _ _ _ _ hread hboth.2
    obtain ⟨ls₂, hcons⟩ := hpasted.items_cons hg hj hrest
    rw [hskip] at hbody'
    exact ⟨_, ls₂, _, _, by simp [hbody, hbody'], hcons⟩

theorem PastesMembers.succ (hvalues : PastesValues n) (hmembers : PastesMembers n) : PastesMembers (n + 1) := by
  intro depth cs ms rest h hholes
  obtain ⟨name, ds, k, cs₁, v, cs₂, g, hunits, hk, rfl, hvalue, hg, hbehind⟩ := readMembers_eq_ok h
  obtain ⟨i, hi, hcs₁⟩ := exists_gap cs₁
  rcases hbehind with ⟨rfl, rfl⟩ | ⟨j, cs₃, ms', hj, rfl, hread, rfl⟩
  · have hboth : Text.holds ['{', '{'] ds = false ∧ Holeless v := by
      simpa [Holeless, strings, memberStrings, or_imp, forall_and] using hholes
    obtain ⟨body, ls, t, w, hbody, hpasted⟩ := hvalues _ _ _ _ hvalue hboth.2
    obtain ⟨ls₁, m, hmember⟩ := hpasted.member hunits hboth.1 hk hi
    obtain ⟨ls₂, hlast⟩ := hmember.members_last hg
    exact ⟨_, ls₂, _, _, by rw [hcs₁, hbody]; simp, hlast⟩
  · have hall : Text.holds ['{', '{'] ds = false ∧ Holeless v ∧ Holeless (.obj ms') := by
      simpa [Holeless, strings, memberStrings, or_imp, forall_and] using hholes
    obtain ⟨body, ls, t, w, hbody, hpasted⟩ := hvalues _ _ _ _ hvalue hall.2.1
    obtain ⟨body', ls₁, members, f, hbody', hrest⟩ := hmembers _ _ _ _ hread hall.2.2
    obtain ⟨ls₂, m, hmember⟩ := hpasted.member hunits hall.1 hk hi
    obtain ⟨ls₃, hcons⟩ := hmember.members_cons hg hj hrest
    exact ⟨_, ls₃, _, _, by rw [hcs₁, hbody, hbody']; simp, hcons⟩

end

/-- What the reader takes off a text can stand in the place of a term, of items or of members. -/
theorem pastes (n : Nat) : PastesValues n ∧ PastesItems n ∧ PastesMembers n := by
  induction n with
  | zero =>
    refine ⟨fun _ _ _ _ h => ?_, fun _ _ _ _ h => ?_, fun _ _ _ _ h => ?_⟩
    · exact absurd h before_ne_ok
    · exact absurd h before_ne_ok
    · exact absurd h before_ne_ok
  | succ n ih =>
    obtain ⟨hvalues, hitems, hmembers⟩ := ih
    exact ⟨.succ hitems hmembers, .succ hvalues hitems, .succ hvalues hmembers⟩

/-- A text with gaps around a value is cut into tokens that are read as its term. -/
theorem Pasted.read {text : String} {g body e : List Char} {v w : Json} {ls : List Lexeme} {t : JsonTerm}
    (h : Pasted body v ls t w) (htext : text.toList = g ++ (body ++ e)) (hg : ∀ c ∈ g, isSpace c)
    (he : ∀ c ∈ e, isSpace c) : ∃ tokens c, tokenize text = .ok tokens ∧
      JsonTerm.read (.ofTokens text tokens) = .ok (t, c) ∧ ∀ u ∈ c.ahead, u.isIgnorable := by
  obtain ⟨gs, hgs, hgaps⟩ := exists_lexes_gap hg
  obtain ⟨es, hes, heaps⟩ := exists_lexes_gap he
  have hvalue : Falls ls (e ++ []) := h.lexes.falls _ (stops_gap he (by decide) (stops_nil _))
  have hgap : Falls gs (body ++ e ++ []) := hgs.falls _ (by rw [List.append_assoc]; exact h.stops _)
  have hfalls : Falls (gs ++ (ls ++ es)) [] := by
    rw [falls_append, falls_append, chars_append, h.lexes.chars, hes.chars]
    exact ⟨hgap, hvalue, hes.falls _ (stops_nil _)⟩
  have hchars : chars (gs ++ (ls ++ es)) = text.toList := by
    rw [htext, chars_append, chars_append, hgs.chars, h.lexes.chars, hes.chars]
  have htokens : tokenize text = .ok (lay 0 (gs ++ (ls ++ es))) := by
    have hscan := scan_falls hfalls 0
    rw [hchars, List.append_nil, scan] at hscan
    rw [tokenize, hscan, Except.map, List.append_nil]
  obtain ⟨us, vs, hlay, hus, hvs⟩ := spells_append.mp (spells_lay 0 (gs ++ (ls ++ es)))
  obtain ⟨us', es', rfl, hus', hes'⟩ := spells_append.mp hvs
  have hbound : 2 * us'.length ≤ 2 * (us ++ (us' ++ es')).length + 2 := by
    simp only [List.length_append]
    omega
  obtain ⟨b', vs', hvs', hread⟩ := h.reads _ (Text.byteSize text.toList) us' es' [] (us.reverse ++ []) hus' hbound
    (hes'.isIgnorable heaps) (by simp [JsonTerm.Marked])
  rw [← JsonTerm.readWithin_gap (hus.isIgnorable hgaps), List.append_nil] at hread
  rw [hlay] at htokens
  exact ⟨us ++ (us' ++ es'), ⟨b', vs' ++ [], Text.byteSize text.toList⟩, htokens, hread, by simpa using hvs'⟩

/-- JSON whose strings have no placeholders can stand in the place of a term. All its tokens are read, and what the
term gives with any resolver, which stays as it is, is the value of the text, if the language knows its escapes. -/
theorem evaluate_pasted {text : String} {v : Json} (h : readAsWritten text = .ok v) (hholes : Holeless v) :
    ∃ tokens t c w, tokenize text = .ok tokens ∧ JsonTerm.read (.ofTokens text tokens) = .ok (t, c) ∧
      (∀ u ∈ c.ahead, u.isIgnorable) ∧ (∀ r, Resolve.on (Resolve.evaluate t) r = (.ok w, r)) ∧
      (knownEscapes text.toList → read text = .ok w) := by
  have hread := h
  unfold readAsWritten at hread
  obtain ⟨⟨v', e⟩, hvalue, hend⟩ := bind_eq_ok.mp hread
  obtain ⟨⟨⟩, hblank, hv⟩ := bind_eq_ok.mp hend
  obtain rfl := Except.ok.inj hv
  obtain ⟨body, ls, t, w, hbody, hpasted⟩ := (pastes _).1 _ _ _ _ hvalue hholes
  obtain ⟨g, hg, htext⟩ := exists_gap text.toList
  rw [hbody] at htext
  obtain ⟨tokens, c, htokens, hterm, hahead⟩ := hpasted.read htext hg (readEnd_eq_ok hblank)
  refine ⟨tokens, t, c, w, htokens, hterm, hahead, hpasted.gives, fun hknown => ?_⟩
  rw [htext] at hknown
  obtain ⟨-, hrest⟩ := knows_gap hg _ hknown
  rw [Json.read, h, (hpasted.knows _ hrest).1]
  rfl

theorem evaluate_pasted_twice :
    let text := "\x7b\"a\": [-1, \"#\\t\"],\r\n \"b\" : true, \"a\": null\x7d"
    ∃ tokens t c, tokenize text = .ok tokens ∧ JsonTerm.read (.ofTokens text tokens) = .ok (t, c) ∧
      (∀ u ∈ c.ahead, u.isIgnorable) ∧
      ∀ r, Resolve.on (Resolve.evaluate t) r = (.ok (.obj [("a", .null), ("b", .bool true)]), r) := by
  intro text
  have hwritten : readAsWritten text =
      .ok (.obj [("a", .arr [.number (.int (-1)), .str "#\t"]), ("b", .bool true), ("a", .null)]) := by cbv
  have hholes : Holeless (.obj [("a", .arr [.number (.int (-1)), .str "#\t"]), ("b", .bool true), ("a", .null)]) := by
    unfold Holeless
    decide
  obtain ⟨tokens, t, c, w, htokens, hterm, hahead, hgives, hvalue⟩ := evaluate_pasted hwritten hholes
  have hmerged : read text = .ok (.obj [("a", .null), ("b", .bool true)]) := by
    rw [read, hwritten]
    rfl
  obtain rfl := Except.ok.inj ((hvalue (by decide)).symm.trans hmerged)
  exact ⟨tokens, t, c, htokens, hterm, hahead, hgives⟩

end Json
end RequestLang
