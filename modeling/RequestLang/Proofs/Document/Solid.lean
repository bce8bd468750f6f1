import RequestLang.Proofs.Document.Legible
import RequestLang.Proofs.Text.Place

/-! The lexemes of the canonical text are those that the lexer cuts it into. -/
namespace RequestLang
open Lexer

namespace Lexeme

/-- The characters that begin what stands between two lexemes that mean something, and the slash. -/
def separates (c : Char) : Bool := [' ', '\t', '\n', '/', '#'].contains c

theorem isGap_of_separates {c : Char} (h : separates c = false) : isGap c = false := by
  simp only [separates, List.contains_eq_mem, List.mem_cons, List.not_mem_nil, or_false, decide_eq_false_iff_not,
    not_or] at h
  simp [isGap, h]

/-- The characters that stand behind what is printed in one piece. -/
def closes (c : Char) : Bool := c == ',' || c == '\n' || c == ')' || c == ';'

def Closed (rest : List Char) : Prop := ∀ c ∈ rest.head?, closes c

theorem Closed.stops {p : Char → Bool} {rest : List Char} (h : Closed rest)
    (hp : [',', '\n', ')', ';'].any p = false) : Stops p rest := by
  intro c hc
  have := h c hc
  simp only [closes, Bool.or_eq_true, beq_iff_eq] at this
  exact Bool.eq_false_iff.mpr (List.any_eq_false.mp hp c (by simpa [or_assoc] using this))

@[simp] theorem closed_cons (c : Char) (cs : List Char) : Closed (c :: cs) ↔ closes c := by
  simp [Closed]

/-- Lexemes that begin with no separator and that are taken off before one. -/
structure Solid (ls : List Lexeme) : Prop where
  opens : ∃ c cs, chars ls = c :: cs ∧ separates c = false
  falls : ∀ rest, Closed rest → Calm ls rest → Falls ls rest

theorem Solid.stops {ls : List Lexeme} (h : Solid ls) (rest : List Char) :
    Stops isGap (chars ls ++ rest) := by
  obtain ⟨c, cs, hcs, hc⟩ := h.opens
  rw [hcs]
  exact (stops_cons ..).mpr (isGap_of_separates hc)

theorem opens_quoted (v : String) : ∃ q cs, quoteChars v.toList = q :: cs ∧ (q = '"' ∨ q = '\'') := by
  unfold quoteChars
  split
  · exact ⟨_, _, rfl, .inr rfl⟩
  · exact ⟨_, _, rfl, .inl rfl⟩

theorem stops_quoted {p : Char → Bool} (hp : p '"' = false ∧ p '\'' = false) (v : String)
    (rest : List Char) : Stops p (quoteChars v.toList ++ rest) := by
  obtain ⟨q, cs, hq, rfl | rfl⟩ := opens_quoted v
  · simpa [hq] using hp.1
  · simpa [hq] using hp.2

theorem cuts_blank {n : Nat} (hn : n ≠ 0) {rest : List Char} (hr : Stops isGap rest) :
    Cuts (blank n) rest := by
  refine cuts_gap ?_ ?_ hr
  · simpa using hn
  · simp [isGap]

theorem falls_gap (n : Nat) {rest : List Char} (hr : Stops isGap rest) : Falls (gap n) rest := by
  unfold gap
  split
  · trivial
  · rename_i hn
    exact ⟨cuts_blank hn hr, trivial⟩

theorem separates_of_isNameStart {c : Char} (h : Text.isNameStart c) : separates c = false := by
  rw [← Bool.not_eq_true]
  intro hc
  simp only [separates, List.contains_eq_mem, List.mem_cons, List.not_mem_nil, or_false, decide_eq_true_eq] at hc
  rcases hc with rfl | rfl | rfl | rfl | rfl <;> revert h <;> decide

theorem solid_quoted (v : String) : Solid [quoted v] := by
  obtain ⟨q, cs, hq, hquote⟩ := opens_quoted v
  refine ⟨⟨q, cs, by simp [hq], by rcases hquote with rfl | rfl <;> rfl⟩, fun rest hr _ => ?_⟩
  exact ⟨cuts_quoted v (hr.stops (by decide)), trivial⟩

/-- Pieces between separators are taken off as they are one by one. -/
theorem falls_intercalate {sep : List Lexeme} {rest : List Char} {xs : List (List Lexeme)}
    (hxs : ∀ x ∈ xs, ∀ rest, Closed rest → Calm x rest → Falls x rest)
    (hsep : ∀ x ∈ xs, ∀ more, Falls sep (chars x ++ more))
    (hclosed : ∀ more, Closed (chars sep ++ more)) (hr : Closed rest)
    (h : Calm (List.intercalate sep xs) rest) : Falls (List.intercalate sep xs) rest := by
  induction xs with
  | nil => trivial
  | cons x xs ih =>
    cases xs with
    | nil =>
      rw [List.intercalate_singleton] at h ⊢
      exact hxs x (by simp) rest hr h
    | cons y ys =>
      rw [List.intercalate_cons_cons] at h ⊢
      simp only [calm_append, falls_append, chars_append, List.append_assoc] at h ⊢
      have hrest := ih (fun z hz => hxs z (by simp [hz])) (fun z hz => hsep z (by simp [hz])) h.2.2
      refine ⟨hxs x (by simp) _ ?_ h.1, ?_, hrest⟩
      · simpa using hclosed _
      · cases ys with
        | nil => simpa using hsep y (by simp) rest
        | cons z zs => simpa [List.intercalate_cons_cons] using hsep y (by simp) _

theorem falls_commas {rest : List Char} {xs : List (List Lexeme)} (hxs : ∀ x ∈ xs, Solid x)
    (hr : Closed rest) (h : Calm (List.intercalate [mark ",", blank 1] xs) rest) :
    Falls (List.intercalate [mark ",", blank 1] xs) rest := by
  refine falls_intercalate (fun x hx => (hxs x hx).falls) (fun x hx more => ?_) (fun more => ?_) hr h
  · exact ⟨cuts_mark (by decide) _, cuts_blank (by decide) ((hxs x hx).stops more), trivial⟩
  · simp [closes]

/-- A call falls apart before any text if its head is taken off before a parenthesis. -/
theorem falls_call {head : Lexeme} {args : List (List Lexeme)} {rest : List Char}
    (hhead : ∀ more, Cuts head ('(' :: more)) (hargs : ∀ a ∈ args, Solid a)
    (hcalm : Calm (call head args) rest) : Falls (call head args) rest := by
  simp only [call, List.cons_append, calm_cons, calm_append, falls_cons, falls_append] at hcalm ⊢
  refine ⟨by simpa using hhead _, cuts_mark (by decide) _, ?_, cuts_mark (by decide) _, trivial⟩
  exact falls_commas hargs (by simp [closes]) hcalm.2.2.1

theorem solid_call {head : Lexeme} {args : List (List Lexeme)}
    (hopen : ∃ c cs, head.text.toList = c :: cs ∧ separates c = false)
    (hhead : ∀ more, Cuts head ('(' :: more)) (hargs : ∀ a ∈ args, Solid a) :
    Solid (call head args) := by
  obtain ⟨c, cs, hc, hgap⟩ := hopen
  refine ⟨⟨c, _, by rw [call, chars_append, chars_cons, hc]; rfl, hgap⟩, fun rest _ hcalm => ?_⟩
  exact falls_call hhead hargs hcalm

theorem solid_word_call {name : String} {args : List (List Lexeme)}
    (hname : isHeaded Text.isNameChar name.toList) (hkey : name.toList ∉ keywords)
    (hargs : ∀ a ∈ args, Solid a) : Solid (call (word name) args) := by
  obtain ⟨c, cs, hc, hstart, -⟩ := cons_of_isHeaded hname
  refine solid_call ⟨c, cs, hc, separates_of_isNameStart hstart⟩ (fun more => cuts_word hname hkey ?_) hargs
  rw [stops_cons]
  decide

theorem solid_tag_call {key : String} {args : List (List Lexeme)} (hkey : isHeaded isTagChar key.toList)
    (hargs : ∀ a ∈ args, Solid a) : Solid (call ⟨.tag, "@" ++ key⟩ args) := by
  refine solid_call ⟨'@', key.toList, by simp, by decide⟩ (fun more => cuts_tag hkey ?_) hargs
  rw [stops_cons]
  decide

end Lexeme
open Lexeme

/-- The quotes of a fence meet nothing like them before the end. -/
theorem through?_fence {q : Char} {cs : List Char} (h : canFence q cs) :
    Text.through? [q, q, q] (cs ++ [q, q, q]) = some (cs.length + 3) := by
  simp only [canFence, Bool.and_eq_true, Bool.not_eq_true', bne_iff_ne] at h
  obtain ⟨hholds, hlast⟩ := h
  induction cs with
  | nil => simp [Text.through?]
  | cons c cs ih =>
    have hnot : ¬ [q, q, q].isPrefixOf (c :: (cs ++ [q, q, q])) := by
      intro hp
      cases cs with
      | nil =>
        simp only [List.nil_append, List.isPrefixOf, Bool.and_eq_true, beq_iff_eq] at hp
        simp [hp.1] at hlast
      | cons d ds =>
        cases ds with
        | nil =>
          simp only [List.cons_append, List.isPrefixOf, Bool.and_eq_true, beq_iff_eq] at hp
          simp [hp.2.1] at hlast
        | cons e es =>
          simp only [List.cons_append, List.isPrefixOf, Bool.and_eq_true, beq_iff_eq] at hp
          simp [Text.holds, Text.through?, ← hp.1, ← hp.2.1, ← hp.2.2.1] at hholds
    have hholds' : Text.holds [q, q, q] cs = false := by
      rw [← Bool.not_eq_true] at hholds ⊢
      rw [Text.holds_iff_infix (by simp)] at hholds ⊢
      exact fun h => hholds (List.infix_cons h)
    have hlast' : cs.getLast? ≠ some q := by
      cases cs with
      | nil => simp
      | cons d ds => simpa using hlast
    rw [List.cons_append, Text.through?, if_neg hnot, ih hholds' hlast']
    rfl

/-- How a literal is written, which is the text of a token of its quoting. -/
theorem Literal.cases_written (l : Literal) :
    (∃ q, (q = '"' ∨ q = '\'') ∧ canFence q l.value.toList ∧ l.quote = .triple ∧
      l.written.toList = q :: q :: q :: (l.value.toList ++ [q, q, q]) ∧
      l.lexeme = ⟨.tripleString, l.written⟩) ∨
    ¬(l.quote = .triple ∧ (canFence '"' l.value.toList ∨ canFence '\'' l.value.toList)) ∧
      l.lexeme = quoted l.value := by
  by_cases ht : l.quote = .triple
  · by_cases hd : canFence '"' l.value.toList
    · exact .inl ⟨'"', .inl rfl, hd, ht, by simp [written, writtenChars, ht, hd], by simp [lexeme, ht, hd]⟩
    · by_cases hs : canFence '\'' l.value.toList
      · exact .inl ⟨'\'', .inr rfl, hs, ht, by simp [written, writtenChars, ht, hd, hs],
          by simp [lexeme, ht, hs]⟩
      · exact .inr ⟨by simp [hd, hs], by
          simp [lexeme, written, writtenChars, hd, hs, quoted, quoteText]⟩
  · exact .inr ⟨by simp [ht], by simp [lexeme, written, writtenChars, ht, quoted, quoteText]⟩

theorem Literal.cuts (l : Literal) {rest : List Char} (hr : Stops (· == '"') rest) :
    Cuts l.lexeme rest := by
  rcases l.cases_written with ⟨q, hq, hfence, -, hwritten, hl⟩ | ⟨-, hl⟩
  · rw [hl]
    exact cuts_triple hq hwritten (by simpa using through?_fence hfence) _
  · rw [hl]
    exact cuts_quoted l.value hr

theorem Literal.opens (l : Literal) : ∃ c cs, l.written.toList = c :: cs ∧ separates c = false := by
  rcases l.cases_written with ⟨q, hq, -, -, hwritten, -⟩ | ⟨-, hl⟩
  · exact ⟨q, _, hwritten, by rcases hq with rfl | rfl <;> rfl⟩
  · obtain ⟨q, cs, hcs, hq⟩ := opens_quoted l.value
    have : l.written = quoteText l.value := by
      rw [← l.text_lexeme, hl]
      rfl
    exact ⟨q, cs, by simpa [this, quoteText] using hcs, by rcases hq with rfl | rfl <;> rfl⟩

theorem Literal.solid (l : Literal) : Solid [l.lexeme] := by
  obtain ⟨c, cs, hc, hgap⟩ := l.opens
  exact ⟨⟨c, cs, by simp [hc], hgap⟩, fun rest hr _ => ⟨l.cuts (hr.stops (by decide)), trivial⟩⟩

namespace JsonTerm

theorem opens_operand {l : Lexeme} {rest : List Char} (hl : isOperand l.token) (h : Cuts l rest) :
    ∃ c cs, l.text.toList = c :: cs ∧ separates c = false := by
  obtain ⟨kind, text⟩ := l
  have hkind : kind = .number ∨ kind = .identifier ∨ kind = .placeholder := by
    simpa [isOperand, token, or_assoc] using hl
  rcases hkind with rfl | rfl | rfl
  · obtain ⟨c, cs, ht, hc, -⟩ := h.number rfl
    refine ⟨c, cs, ht, ?_⟩
    rw [← Bool.not_eq_true]
    intro hg
    simp only [separates, List.contains_eq_mem, List.mem_cons, List.not_mem_nil, or_false, decide_eq_true_eq] at hg
    rcases hg with rfl | rfl | rfl | rfl | rfl <;> simp at hc
  · obtain ⟨name, ht, hname, -⟩ := h.identifier rfl
    obtain ⟨c, cs, hs, hc, -⟩ := cons_of_isHeaded hname
    rcases ht with rfl | rfl
    · exact ⟨c, cs, hs, separates_of_isNameStart hc⟩
    · exact ⟨'$', name.toList, by simp, by decide⟩
  · obtain ⟨body, ht, -⟩ := h.placeholder rfl
    exact ⟨_, _, ht, by decide⟩

theorem isOperand_of {kind : TokenKind} {text : String} (h : IsOperand kind text) :
    isOperand (Lexeme.token ⟨kind, text⟩) := by
  rcases h.operand with rfl | rfl | rfl <;> rfl

theorem pieces_operand {kind : TokenKind} {text : String} (h : IsOperand kind text) :
    pieces text = [⟨kind, text⟩] :=
  pieces_of_falls ⟨by simpa using h.cuts, trivial⟩ (by simp)

theorem solid_operand {kind : TokenKind} {text : String} (h : IsOperand kind text) :
    Solid (pieces text) := by
  rw [pieces_operand h]
  obtain ⟨c, cs, hc, hgap⟩ := opens_operand (isOperand_of h) h.cuts
  refine ⟨⟨c, cs, by simp [hc], hgap⟩, fun rest hr _ => ⟨?_, trivial⟩⟩
  exact cuts_operand (isOperand_of h) h.cuts (stops_nil _) (hr.stops (by decide))

theorem solid_run {text : String} (h : IsRun (pieces text)) : Solid (pieces text) := by
  constructor
  · have hopens := h.opens
    have hfalls := h.falls
    cases hp : pieces text with
    | nil => simp [hp, opensArithmetic] at hopens
    | cons l ls =>
      rw [hp] at hfalls hopens
      have hhead : ∃ c cs, l.text.toList = c :: cs ∧ separates c = false := by
        simp only [opensArithmetic, Bool.or_eq_true, Bool.and_eq_true] at hopens
        rcases hopens with (hopens | hopens) | ⟨hopens, -⟩
        · rw [eq_mark_of_isPunct hopens]
          exact ⟨'(', [], rfl, by decide⟩
        · have : l.text = "-" := by
            simp only [Token.isOp, Bool.and_eq_true, beq_iff_eq] at hopens
            exact hopens.2
          exact ⟨'-', [], by simp [this], by decide⟩
        · exact opens_operand hopens hfalls.1
      obtain ⟨c, cs, hc, hgap⟩ := hhead
      exact ⟨c, _, by rw [chars_cons, hc]; rfl, hgap⟩
  · intro rest hr hcalm
    exact falls_change h.steps rfl h.falls h.clean h.last (stops_nil _) (hr.stops (by decide)) hcalm

/-- A block is solid if its lines are. -/
theorem solid_block (opening closing : Char) {depth : Nat} {lines : List (List Lexeme)}
    (hopen : separates opening = false) (hclose : [' ', '\t', '\x7b', '%'].contains closing = false)
    (hfirst : ∀ more, Stops (fun c => c == '\x7b' || c == '%') more →
      Cuts (mark (String.singleton opening)) more)
    (hlast : ∀ more, Cuts (mark (String.singleton closing)) more) (hlines : ∀ l ∈ lines, Solid l) :
    Solid (blockLexemes (String.singleton opening) (String.singleton closing) depth lines) := by
  unfold blockLexemes
  split
  · refine ⟨⟨opening, [closing], by simp, hopen⟩, fun rest _ _ => ⟨hfirst _ ?_, hlast _, trivial⟩⟩
    simp at hclose
    simp [hclose]
  · simp only [List.append_assoc]
    refine ⟨⟨opening, _, by simp; rfl, hopen⟩, fun rest _ hcalm => ?_⟩
    simp only [calm_append, falls_append] at hcalm ⊢
    refine ⟨⟨hfirst _ (by simp), cuts_lineEnd _, trivial⟩, ?_, ⟨cuts_lineEnd _, trivial⟩,
      falls_gap _ ?_, hlast _, trivial⟩
    · refine falls_intercalate (fun x hx rest hr hcalm => ?_) (fun x _ more => ?_) (fun more => ?_) ?_
        hcalm.2.1
      · obtain ⟨line, hline, rfl⟩ := List.mem_map.mp hx
        rw [falls_append]
        rw [calm_append] at hcalm
        exact ⟨falls_gap _ ((hlines line hline).stops rest), (hlines line hline).falls rest hr hcalm.2⟩
      · exact ⟨cuts_mark (by decide) _, cuts_lineEnd _, trivial⟩
      · simp [closes]
      · simp [closes]
    · simp at hclose
      simp [isGap, hclose]

end JsonTerm
open JsonTerm

theorem JsonKey.cuts {k : JsonKey} (h : k.Legible) {rest : List Char} (hr : Stops (· == '"') rest)
    (ho : Stops extendsOperand rest) : Cuts k.lexeme rest := by
  cases k with
  | literal l => exact l.cuts hr
  | reference text => exact cuts_operand (isOperand_of h) h.cuts (stops_nil _) ho

theorem JsonKey.opens {k : JsonKey} (h : k.Legible) :
    ∃ c cs, k.written.toList = c :: cs ∧ separates c = false := by
  cases k with
  | literal l => exact l.opens
  | reference text => exact opens_operand (isOperand_of h) h.cuts

namespace JsonTerm

theorem solid_constant {name : String} (hname : isHeaded Text.isNameChar name.toList)
    (hkey : name.toList ∉ keywords) : Solid [word name] := by
  obtain ⟨c, cs, hc, hstart, -⟩ := cons_of_isHeaded hname
  refine ⟨⟨c, cs, by simp [hc], separates_of_isNameStart hstart⟩, fun rest hr _ => ⟨?_, trivial⟩⟩
  exact cuts_word hname hkey (hr.stops (by decide))

mutual

theorem solid_lexemes (depth : Nat) (t : JsonTerm) (h : t.Legible) : Solid (t.lexemes depth) := by
  cases t with
  | null => exact solid_constant (by decide) (by decide)
  | bool b => cases b <;> exact solid_constant (by decide) (by decide)
  | number text =>
    rcases h with h | ⟨h, -⟩
    · exact solid_operand h
    · exact solid_run h
  | literal l => exact l.solid
  | reference text =>
    rcases h with h | ⟨h, -⟩
    · exact solid_operand h
    · exact solid_operand h
  | arithmetic text => exact solid_run h.1
  | array items =>
    exact solid_block '[' ']' (by decide) (by decide)
      (fun _ _ => cuts_mark (by decide) _) (fun _ => cuts_mark (by decide) _)
      (solid_itemLexemes (depth + 1) items h)
  | object members =>
    exact solid_block '\x7b' '\x7d' (by decide) (by decide)
      (fun _ h => cuts_brace h) (fun _ => cuts_mark (by decide) _)
      (solid_memberLexemes (depth + 1) members h)

theorem solid_itemLexemes (depth : Nat) (items : List JsonTerm) (h : ItemsLegible items) :
    ∀ l ∈ itemLexemes depth items, Solid l := by
  cases items with
  | nil => simp [itemLexemes]
  | cons t ts =>
    have ht := solid_lexemes depth t h.1
    have hts := solid_itemLexemes depth ts h.2
    simpa [itemLexemes, ht] using hts

theorem solid_memberLexemes (depth : Nat) (members : List (JsonKey × JsonTerm))
    (h : MembersLegible members) : ∀ l ∈ memberLexemes depth members, Solid l := by
  cases members with
  | nil => simp [memberLexemes]
  | cons m ms =>
    obtain ⟨k, t⟩ := m
    have ht := solid_lexemes depth t h.2.1
    have hms := solid_memberLexemes depth ms h.2.2
    have hm : Solid (k.lexeme :: mark ":" :: blank 1 :: lexemes depth t) := by
      obtain ⟨c, cs, hc, hgap⟩ := JsonKey.opens h.1
      refine ⟨⟨c, _, by rw [chars_cons, JsonKey.text_lexeme, hc]; rfl, hgap⟩, fun rest hr hcalm => ?_⟩
      simp only [calm_cons] at hcalm
      refine ⟨JsonKey.cuts h.1 ?_ ?_, cuts_mark (by decide) _, cuts_blank (by decide) (ht.stops rest),
        ht.falls rest hr hcalm.2.2.2⟩
      · exact (stops_cons ..).mpr (by decide)
      · exact (stops_cons ..).mpr (by decide)
    simpa [memberLexemes, hm] using hms

end

end JsonTerm

theorem Argument.solid {a : Argument} (h : ∀ name ∈ a.name, isHeaded Text.isNameChar name.toList ∧
    name.toList ∉ keywords) : Solid a.lexemes := by
  unfold lexemes
  cases hn : a.name with
  | none => exact solid_quoted a.value
  | some name =>
    obtain ⟨hname, hkey⟩ := h name hn
    obtain ⟨c, cs, hc, hstart, -⟩ := cons_of_isHeaded hname
    refine ⟨⟨c, _, by rw [chars_cons, toList_word, hc]; rfl, separates_of_isNameStart hstart⟩, ?_⟩
    intro rest hr hcalm
    have hq := (solid_quoted a.value).falls rest hr hcalm.2.2
    exact ⟨cuts_word hname hkey ((stops_cons ..).mpr (by decide)), cuts_op (by decide) _, hq⟩

/-- The names that arguments are given. -/
def argumentNames : List String :=
  ["access_id", "secret_key", "service", "region", "session_token", "tenant_id", "client_id",
    "client_secret", "scope", "certificate_path", "certificate_password", "cert", "key", "file",
    "password"]

theorem Argument.solid_of_mem {a : Argument} (h : ∀ name ∈ a.name, name ∈ argumentNames) :
    Solid a.lexemes := by
  refine Argument.solid fun name hname => ?_
  have hall : ∀ name ∈ argumentNames, isHeaded Text.isNameChar name.toList ∧
      name.toList ∉ keywords := by decide
  exact hall name (h name hname)

theorem Argument.name_named {args : List (String × Option String)}
    (h : ∀ arg ∈ args, arg.1 ∈ argumentNames) :
    ∀ a ∈ named args, ∀ name ∈ a.name, name ∈ argumentNames := by
  intro a ha name hname
  obtain ⟨⟨n, v⟩, harg, hv⟩ := List.mem_filterMap.mp ha
  obtain ⟨value, -, rfl⟩ := Option.map_eq_some_iff.mp hv
  obtain rfl := Option.some.inj hname
  exact h _ harg

theorem Auth.callName_mem (a : Auth) : a.callName ∈ Auth.calls := by
  cases a with
  | azure flow => cases flow <;> simp [callName, calls]
  | _ => simp [callName, calls]

theorem Auth.name_arguments (a : Auth) :
    ∀ arg ∈ a.arguments, ∀ name ∈ arg.name, name ∈ argumentNames := by
  cases a with
  | basic | digest | ntlm => simp [arguments, Argument.plain]
  | hawk id key algorithm => cases algorithm <;> simp [arguments, Argument.plain]
  | aws => exact Argument.name_named (by simp [argumentNames])
  | azure flow => cases flow <;> exact Argument.name_named (by simp [argumentNames])

theorem Auth.solid (a : Auth) : Solid a.lexemes := by
  have hname : ∀ name ∈ Auth.calls, isHeaded Text.isNameChar name.toList ∧
      name.toList ∉ keywords := by decide
  obtain ⟨hheaded, hkey⟩ := hname _ a.callName_mem
  refine solid_word_call hheaded hkey fun l hl => ?_
  obtain ⟨arg, harg, rfl⟩ := List.mem_map.mp hl
  exact Argument.solid_of_mem (a.name_arguments arg harg)

theorem Certificate.callName_mem (c : Certificate) : c.callName ∈ Certificate.calls := by
  cases c <;> simp [callName, calls]

theorem Certificate.name_arguments (c : Certificate) :
    ∀ arg ∈ c.arguments, ∀ name ∈ arg.name, name ∈ argumentNames := by
  cases c <;> exact Argument.name_named (by simp [argumentNames])

theorem Certificate.solid (c : Certificate) : Solid c.lexemes := by
  have hname : ∀ name ∈ Certificate.calls, isHeaded Text.isNameChar name.toList ∧
      name.toList ∉ keywords := by decide
  obtain ⟨hheaded, hkey⟩ := hname _ c.callName_mem
  refine solid_word_call hheaded hkey fun l hl => ?_
  obtain ⟨arg, harg, rfl⟩ := List.mem_map.mp hl
  exact Argument.solid_of_mem (c.name_arguments arg harg)

theorem cuts_blank_quoted {n : Nat} (hn : n ≠ 0) (v : String) (ls : List Lexeme) (rest : List Char) :
    Cuts (blank n) (chars (quoted v :: ls) ++ rest) := by
  refine cuts_blank hn ?_
  rw [chars_cons, toList_quoted, List.append_assoc]
  exact stops_quoted (by decide) v _

theorem cuts_quoted_cons (v : String) {l : Lexeme} (hl : ∃ c cs, l.text.toList = c :: cs ∧ c ≠ '"')
    (ls : List Lexeme) (rest : List Char) : Cuts (quoted v) (chars (l :: ls) ++ rest) := by
  obtain ⟨c, cs, hc, hne⟩ := hl
  exact cuts_quoted v (by simpa [hc] using hne)

theorem PartTerm.falls (p : PartTerm) (rest : List Char) : Falls p.lexemes rest := by
  have hblank : ∃ c cs, (blank 1).text.toList = c :: cs ∧ c ≠ '"' := ⟨' ', [], by simp, by decide⟩
  have hcomma : ∃ c cs, (mark ",").text.toList = c :: cs ∧ c ≠ '"' := ⟨',', [], rfl, by decide⟩
  have hspace (l : Lexeme) (hl : ∃ c cs, l.text.toList = c :: cs ∧ isGap c = false)
      (ls : List Lexeme) : Cuts (blank 1) (chars (l :: ls) ++ rest) := by
    obtain ⟨c, cs, hc, hgap⟩ := hl
    exact cuts_blank (by decide) (by simpa [hc] using hgap)
  unfold lexemes
  cases p.mime with
  | none =>
    exact ⟨cuts_blank_quoted (by decide) .., cuts_quoted_cons _ hblank .., hspace _ ⟨'<', [], rfl, rfl⟩ _,
      cuts_op (by decide) _, cuts_blank_quoted (by decide) .., cuts_quoted_cons _ hcomma ..,
      cuts_mark (by decide) _, cuts_lineEnd _, trivial⟩
  | some mime =>
    exact ⟨cuts_blank_quoted (by decide) .., cuts_quoted_cons _ hblank .., hspace _ ⟨'<', [], rfl, rfl⟩ _,
      cuts_op (by decide) _, cuts_blank_quoted (by decide) .., cuts_quoted_cons _ hblank ..,
      hspace _ ⟨';', [], rfl, rfl⟩ _, cuts_mark (by decide) _, cuts_blank_quoted (by decide) ..,
      cuts_quoted_cons _ hcomma .., cuts_mark (by decide) _, cuts_lineEnd _, trivial⟩

namespace PayloadTerm

theorem solid_mimeLexemes (mime : Option String) : ∀ l ∈ mimeLexemes mime, Solid l := by
  cases mime with
  | none => simp [mimeLexemes]
  | some m => simpa [mimeLexemes] using solid_quoted m

theorem solid_term {call : String} (hcall : isHeaded Text.isNameChar call.toList)
    (hkey : call.toList ∉ keywords) {term : JsonTerm} (h : term.Legible) :
    Solid ([word call, mark "("] ++ term.lexemes 0 ++ [mark ")"]) := by
  obtain ⟨c, cs, hc, hstart, -⟩ := cons_of_isHeaded hcall
  refine ⟨⟨c, _, by simp [hc]; rfl, separates_of_isNameStart hstart⟩, fun rest hr hcalm => ?_⟩
  simp only [calm_append, falls_append] at hcalm ⊢
  refine ⟨⟨⟨cuts_word hcall hkey ?_, cuts_mark (by decide) _, trivial⟩, ?_⟩, cuts_mark (by decide) _,
    trivial⟩
  · exact (stops_cons ..).mpr (by decide)
  · exact (term.solid_lexemes 0 h).falls _ (by simp [closes]) hcalm.1.2

/-- Literals one after another. -/
theorem solid_chunks {chunks : List Literal} (h : chunks ≠ []) :
    Solid (List.intercalate [blank 1] (chunks.map fun l => [l.lexeme])) := by
  induction chunks with
  | nil => exact absurd rfl h
  | cons l ls ih =>
    cases ls with
    | nil => simpa using l.solid
    | cons l' ls =>
      have hrest := ih (by simp)
      rw [List.map_cons] at hrest
      rw [List.map_cons, List.map_cons, List.intercalate_cons_cons]
      obtain ⟨c, cs, hc, hgap⟩ := l.opens
      refine ⟨⟨c, _, by simp [hc]; rfl, hgap⟩, fun rest hr hcalm => ?_⟩
      simp only [calm_append, falls_append] at hcalm ⊢
      refine ⟨⟨⟨l.cuts ?_, trivial⟩, cuts_blank (by decide) (hrest.stops rest), trivial⟩,
        hrest.falls rest hr hcalm.2⟩
      simp

theorem solid {p : PayloadTerm} (h : p.Legible) : Solid p.lexemes := by
  cases p with
  | raw chunks mime =>
    refine solid_word_call (by decide) (by decide) fun l hl => ?_
    rcases List.mem_cons.mp hl with rfl | hl
    · exact solid_chunks h.1
    · exact solid_mimeLexemes mime l hl
  | form term => exact solid_term (by decide) (by decide) h
  | json term => exact solid_term (by decide) (by decide) h
  | file path mime =>
    refine solid_word_call (by decide) (by decide) fun l hl => ?_
    rcases List.mem_cons.mp hl with rfl | hl
    · exact solid_quoted path
    · exact solid_mimeLexemes mime l hl
  | multipart parts =>
    have hparts (more : List Char) : Falls (parts.flatMap PartTerm.lexemes) more := by
      induction parts with
      | nil => trivial
      | cons p ps ih =>
        rw [List.flatMap_cons, falls_append]
        exact ⟨p.falls _, ih h⟩
    refine ⟨⟨'f', _, by simp [lexemes]; rfl, by decide⟩, fun rest _ _ => ?_⟩
    simp only [lexemes, falls_append]
    exact ⟨⟨⟨cuts_word (by decide) (by decide) ((stops_cons ..).mpr (by decide)),
      cuts_mark (by decide) _, cuts_lineEnd _, trivial⟩, hparts _⟩, cuts_mark (by decide) _, trivial⟩

end PayloadTerm

/-- The end mark of a script is the one behind its source. -/
theorem Script.through?_block {s : Script} (h : s.Legible) :
    ∃ body, s.block.toList = '{' :: '%' :: body ∧
      Text.through? ['%', '}'] body = some body.length := by
  have hnone (front : List Char) (hfront : Text.holds ['%', '}'] front = false) :
      Text.through? ['%', '}'] (front ++ '\n' :: s.source.toList ++ ['\n'] ++ ['%', '}']) =
        some ((front ++ '\n' :: s.source.toList ++ ['\n']).length + 2) := by
    refine Text.through?_append_mark ?_ (by rw [List.getLast?_concat]; decide)
    rw [Text.holds_append_cons (by decide) (by decide), Text.holds_append_cons (by decide) (by decide),
      hfront, h.closed]
    rfl
  unfold block
  split
  · exact ⟨_, by simp; rfl, by simpa using hnone " python".toList (by decide)⟩
  · exact ⟨_, by simp; rfl, by simpa using hnone [] (by decide)⟩

theorem Script.solid {s : Script} (h : s.Legible) : Solid s.lexemes := by
  obtain ⟨body, hblock, hbody⟩ := through?_block h
  refine ⟨⟨'>', _, by simp [lexemes]; rfl, by decide⟩, fun rest _ _ => ?_⟩
  refine ⟨cuts_more ?_, cuts_blank (by decide) ?_, cuts_script hblock hbody rest, trivial⟩
  · simp
  · simp [hblock, isGap]

namespace Request

theorem solid_tag {key : String} (h : isHeaded isTagChar key.toList) : Solid [⟨.tag, "@" ++ key⟩] := by
  exact ⟨⟨'@', key.toList, by simp, by decide⟩,
    fun rest hr _ => ⟨cuts_tag h (hr.stops (by decide)), trivial⟩⟩

theorem solid_comment {line : List Char} (h : '\n' ∉ line) (rest : List Char) :
    Falls [⟨.comment, "// " ++ String.ofList line⟩] ('\n' :: rest) := by
  have htext : ("// " ++ String.ofList line).toList = '/' :: '/' :: ' ' :: line := by simp
  refine ⟨cuts_lineComment (.inl htext) ?_ (by simp), trivial⟩
  intro c hc
  rintro rfl
  rcases List.mem_cons.mp hc with hc | hc
  · cases hc
  · exact h hc

theorem solid_targetLexemes (r : Request) : Solid r.targetLexemes := by
  unfold targetLexemes
  split
  · rename_i m _
    have hm : isHeaded Text.isNameChar m.name.toList ∧ m.name.toList ∉ keywords := by
      cases m <;> decide
    obtain ⟨c, cs, hc, hstart, -⟩ := cons_of_isHeaded hm.1
    refine ⟨⟨c, _, by rw [chars_cons, toList_word, hc]; rfl, separates_of_isNameStart hstart⟩, ?_⟩
    intro rest hr hcalm
    refine ⟨cuts_word hm.1 hm.2 ?_, cuts_blank_quoted (by decide) ..,
      (solid_quoted r.url).falls rest hr hcalm.2.2⟩
    exact (stops_cons ..).mpr (by decide)
  · exact solid_quoted r.url

end Request

theorem Heading.solid {h : Heading} (hlegible : h.Legible) : Solid h.lexemes := by
  cases h with
  | named name base =>
    have hargs : ∀ a ∈ [[quoted name]], Solid a := by simpa using solid_quoted name
    cases base with
    | some base =>
      show Solid (call ⟨.tag, "@name"⟩ [[quoted name]] ++ [blank 1, mark ":", blank 1, quoted base])
      refine ⟨⟨'@', _, by simp [call]; rfl, by decide⟩, fun rest hr hcalm => ?_⟩
      rw [falls_append]
      rw [calm_append] at hcalm
      have htag : isHeaded isTagChar "name".toList := by decide
      refine ⟨falls_call (fun more => cuts_tag htag ((stops_cons ..).mpr (by decide))) hargs hcalm.1, ?_⟩
      exact ⟨cuts_blank (by decide) ((stops_cons ..).mpr (by decide)), cuts_mark (by decide) _,
        cuts_blank_quoted (by decide) .., (solid_quoted base).falls rest hr hcalm.2.2.2.2⟩
    | none =>
      show Solid (call ⟨.tag, "@name"⟩ [[quoted name]] ++ [])
      rw [List.append_nil]
      exact solid_tag_call (show isHeaded isTagChar "name".toList by decide) hargs
  | clear => exact Request.solid_tag (show isHeaded isTagChar "clear".toList by decide)
  | insecure => exact Request.solid_tag (show isHeaded isTagChar "insecure".toList by decide)
  | noParentScript => exact Request.solid_tag (show isHeaded isTagChar "no-parent-script".toList by decide)
  | tag key value => exact solid_tag_call hlegible.name (by simpa using solid_quoted value)

theorem Clause.solid {x : Clause} (h : x.Legible) : Solid x.lexemes := by
  cases x with
  | auth a => exact a.solid
  | certificate c => exact c.solid
  | header k v =>
    obtain ⟨c, cs, hc, hq⟩ := opens_quoted k
    refine ⟨⟨c, _, by rw [lexemes, chars_cons, toList_quoted, hc]; rfl, by rcases hq with rfl | rfl <;> rfl⟩, ?_⟩
    intro rest hr hcalm
    exact ⟨cuts_quoted_cons k ⟨':', [], rfl, by decide⟩ .., cuts_mark (by decide) _,
      cuts_blank_quoted (by decide) .., (solid_quoted v).falls rest hr hcalm.2.2.2⟩
  | query k v =>
    refine ⟨⟨'?', _, by simp [lexemes]; rfl, by decide⟩, fun rest hr hcalm => ?_⟩
    exact ⟨cuts_op (by decide) _, cuts_blank_quoted (by decide) ..,
      cuts_quoted_cons k ⟨'=', [], rfl, by decide⟩ .., cuts_op (by decide) _,
      cuts_blank_quoted (by decide) .., (solid_quoted v).falls rest hr hcalm.2.2.2.2.2⟩
  | payload p => exact PayloadTerm.solid h
  | output path => exact solid_word_call (by decide) (by decide) (by simpa using solid_quoted path)
  | script s => exact Script.solid h

/-- Lines fall apart one by one. -/
theorem falls_lines {lines : List (List Lexeme)} {rest : List Char}
    (h : ∀ l ∈ lines, ∀ more, Calm l ('\n' :: more) → Falls l ('\n' :: more))
    (hcalm : Calm (lines.flatMap (· ++ [lineEnd])) rest) :
    Falls (lines.flatMap (· ++ [lineEnd])) rest := by
  induction lines with
  | nil => trivial
  | cons l ls ih =>
    simp only [List.flatMap_cons, calm_append, falls_append] at hcalm ⊢
    refine ⟨⟨?_, cuts_lineEnd _, trivial⟩, ih (fun l' hl' => h l' (by simp [hl'])) hcalm.2⟩
    simpa using h l (by simp) _ (by simpa using hcalm.1.1)

theorem falls_solids {lines : List (List Lexeme)} {rest : List Char} (h : ∀ l ∈ lines, Solid l)
    (hcalm : Calm (lines.flatMap (· ++ [lineEnd])) rest) : Falls (lines.flatMap (· ++ [lineEnd])) rest :=
  falls_lines (fun l hl _ => (h l hl).falls _ (by simp [closes])) hcalm

theorem Layout.falls_front {l : Layout} (h : l.Legible) {rest : List Char} (hcalm : Calm l.front rest) :
    Falls l.front rest := by
  simp only [front, calm_append, falls_append] at hcalm ⊢
  obtain ⟨⟨⟨hheadings, htarget⟩, -⟩, hclauses⟩ := hcalm
  refine ⟨⟨⟨falls_solids ?_ hheadings, ?_⟩, cuts_lineEnd _, trivial⟩, falls_solids ?_ hclauses⟩
  · exact List.forall_mem_map.mpr fun x hx => Heading.solid (h.headings x hx)
  · exact (Request.solid_targetLexemes _).falls _ (by simp [closes]) htarget
  · exact List.forall_mem_map.mpr fun x hx => Clause.solid (h.clauses x hx)

theorem Layout.falls_lexemes {l : Layout} (h : l.Legible) {rest : List Char} (hcalm : Calm l.lexemes rest) :
    Falls l.lexemes rest :=
  (falls_append ..).mpr ⟨falls_front h ((calm_append ..).mp hcalm).1, cuts_lineEnd _, cuts_lineEnd _, trivial⟩

theorem Request.falls_lexemes {r : Request} (h : r.Legible) {rest : List Char} (hcalm : Calm r.lexemes rest) :
    Falls r.lexemes rest := by
  rw [lexemes_eq, calm_append] at hcalm
  rw [lexemes_eq, falls_append]
  refine ⟨falls_lines (fun l hl more _ => ?_) hcalm.1, Layout.falls_lexemes h.layout hcalm.2⟩
  obtain ⟨line, hline, rfl⟩ := List.mem_map.mp hl
  refine solid_comment ?_ more
  unfold descriptionLines at hline
  split at hline
  · exact Text.not_mem_of_mem_splitLines hline
  · cases hline

/-- An argument that is printed bare is one piece to the lexer. -/
def ReadsBare (value : String) : Prop :=
  (Numeral.isNumeral value || ['{', '{'].isPrefixOf value.toList) = true → ∃ kind, IsOperand kind value

theorem solid_argument {value : String} (h : ReadsBare value) : Solid (argumentLexemes value) := by
  unfold argumentLexemes
  split
  · rename_i hbare
    obtain ⟨kind, hkind⟩ := h hbare
    exact solid_operand hkind
  · exact solid_quoted value

def VariableBody.ReadsBare : VariableBody → Prop
  | .call _ args => ∀ a ∈ args, RequestLang.ReadsBare a
  | _ => True

theorem VariableBody.solid {b : VariableBody} (h : b.Legible) (hb : b.ReadsBare) : Solid b.lexemes := by
  cases b with
  | value term => exact term.solid_lexemes 0 h
  | call function args =>
    refine solid_call ⟨'$', function.toList, by simp, by decide⟩ (fun more => ?_) fun l hl => ?_
    · exact cuts_dollarWord h ((stops_cons ..).mpr (by decide))
    · obtain ⟨a, ha, rfl⟩ := List.mem_map.mp hl
      exact solid_argument (hb a ha)
  | template text =>
    refine ⟨⟨'p', _, by rw [lexemes, chars_cons, toList_word]; rfl, by decide⟩, fun rest hr hcalm => ?_⟩
    refine ⟨cuts_word (by decide) (by decide) ?_, (solid_quoted text).falls rest hr hcalm.2⟩
    rw [chars_cons, toList_quoted, List.append_assoc]
    exact stops_quoted (by decide) text _

theorem Import.falls (i : Import) (rest : List Char) : Falls i.lexemes rest :=
  ⟨cuts_keyword (by decide) ((stops_cons ..).mpr (by decide)), cuts_blank_quoted (by decide) ..,
    cuts_quoted_cons _ ⟨';', [], rfl, by decide⟩ .., cuts_mark (by decide) _, cuts_lineEnd _, trivial⟩

theorem Variable.falls {v : Variable} (h : v.Legible) (hb : v.body.ReadsBare) {rest : List Char}
    (hcalm : Calm v.lexemes rest) : Falls v.lexemes rest := by
  obtain ⟨c, cs, hc, hstart, -⟩ := cons_of_isHeaded h.name
  have hbody := VariableBody.solid h.body hb
  rw [lexemes, calm_append, calm_append] at hcalm
  rw [lexemes, falls_append, falls_append]
  refine ⟨⟨⟨cuts_keyword (by decide) ?_, cuts_blank (by decide) ?_, cuts_word h.name h.free ?_,
    cuts_blank (by decide) ?_, cuts_op (by decide) _, cuts_blank (by decide) ?_, trivial⟩,
    hbody.falls _ ?_ hcalm.1.2⟩, cuts_mark (by decide) _, cuts_lineEnd _, trivial⟩
  · exact (stops_cons ..).mpr (by decide)
  · rw [chars_cons, toList_word, hc]
    exact (stops_cons ..).mpr (isGap_of_separates (separates_of_isNameStart hstart))
  · exact (stops_cons ..).mpr (by decide)
  · exact (stops_cons ..).mpr (by decide)
  · exact hbody.stops _
  · simp [closes]

namespace Document

/-- Every argument that is printed bare is read back. -/
def ReadsBare (d : Document) : Prop := ∀ v ∈ d.vars, v.body.ReadsBare

theorem falls_flatMap {α : Type} {f : α → List Lexeme} {xs : List α} {rest : List Char}
    (h : ∀ x ∈ xs, ∀ more, Calm (f x) more → Falls (f x) more) (hcalm : Calm (xs.flatMap f) rest) :
    Falls (xs.flatMap f) rest := by
  induction xs with
  | nil => trivial
  | cons x xs ih =>
    rw [List.flatMap_cons, calm_append] at hcalm
    rw [List.flatMap_cons, falls_append]
    exact ⟨h x (by simp) _ hcalm.1, ih (fun y hy => h y (by simp [hy])) hcalm.2⟩

/-- The lexer cuts the canonical text into the lexemes that it was put together from. -/
theorem falls_lexemes {d : Document} (h : d.Legible) (hb : d.ReadsBare) (hcalm : Calm d.lexemes []) :
    Falls d.lexemes [] := by
  simp only [lexemes, headLexemes, calm_append] at hcalm
  simp only [lexemes, headLexemes, falls_append]
  refine ⟨⟨⟨falls_flatMap (fun i _ more _ => i.falls more) hcalm.1.1.1, ?_⟩, ?_⟩, ?_⟩
  · exact falls_flatMap (fun v hv more hm => Variable.falls (h.vars v hv) (hb v hv) hm) hcalm.1.1.2
  · split
    · trivial
    · exact ⟨cuts_lineEnd _, trivial⟩
  · exact falls_flatMap (fun r hr more hm => Request.falls_lexemes (h.requests r hr) hm) hcalm.2

end Document

end RequestLang
