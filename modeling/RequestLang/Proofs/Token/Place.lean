import RequestLang.Proofs.Text.Place
import RequestLang.Proofs.Token.Scanned

/-! Places of tokens. A token starts where the text of those before it ends, so a cursor tells its
place by the tokens behind it. -/
namespace RequestLang
open Lexer

/-- How many bytes tokens take. -/
def width (ts : List Token) : Nat := Text.byteSize (textOf ts)

@[simp] theorem width_nil : width [] = 0 := rfl

@[simp] theorem width_cons (t : Token) (ts : List Token) :
    width (t :: ts) = Text.byteSize t.text.toList + width ts := by simp [width]

@[simp] theorem width_append (us ts : List Token) : width (us ++ ts) = width us + width ts := by simp [width]

theorem width_le_of_prefix {us ts : List Token} (h : us <+: ts) : width us ≤ width ts := by
  obtain ⟨rest, rfl⟩ := h
  exact Text.byteSize_le_of_isPrefix (textOf_append us rest ▸ List.prefix_append ..)

theorem start_of_scan {s : List Char} {k : Nat} {before after : List Token} {t : Token}
    (h : scan k s = .ok (before ++ t :: after)) : t.start = k + width before := by
  induction before generalizing k s with
  | nil => exact (scan_eq_cons h).choose_spec.1
  | cons u before ih =>
    obtain ⟨rest, -, -, hrest, -⟩ := scan_eq_cons h
    rw [ih hrest, width_cons, Nat.add_assoc]

theorem cut_of_scan {s : List Char} {k : Nat} {ts : List Token} (h : scan k s = .ok ts) {t : Token} (ht : t ∈ ts) :
    ∃ rest, Lexeme.Cuts t.lexeme rest ∨ Stray t.lexeme rest := by
  induction ts generalizing k s with
  | nil => exact absurd ht List.not_mem_nil
  | cons u us ih =>
    obtain ⟨rest, -, -, hrest, hcut⟩ := scan_eq_cons h
    rcases List.mem_cons.mp ht with rfl | ht
    · exact ⟨rest, hcut⟩
    · exact ih hrest ht

theorem width_pos_of_scan {s : List Char} {k : Nat} {ts : List Token} (h : scan k s = .ok ts) {t : Token} (ht : t ∈ ts) :
    0 < Text.byteSize t.text.toList := by
  refine Text.byteSize_pos ?_
  obtain ⟨rest, hcut | ⟨-, c, hc, -⟩⟩ := cut_of_scan h ht
  · exact hcut.nonempty
  · rw [show t.text.toList = [c] from hc]
    exact List.cons_ne_nil _ _

/-- A token of a text. -/
def Token.IsOf (t : Token) (text : String) : Prop := ∃ tokens, tokenize text = .ok tokens ∧ t ∈ tokens

namespace Cursor
variable {s : String} {c c' : Cursor}

/-- The tokens on both sides are those of this text. -/
structure Along (s : String) (c : Cursor) : Prop where
  tokens : tokenize s = .ok c.all
  size : c.size = Text.byteSize s.toList

theorem Along.reaches (h : c.Along s) (hreach : c.Reaches c') : c'.Along s := by
  refine ⟨hreach.all ▸ h.tokens, ?_⟩
  obtain ⟨-, -, -, hsize⟩ := hreach
  rw [hsize, h.size]

theorem Along.text (h : c.Along s) : textOf c.all = s.toList := textOf_of_scan h.tokens

theorem Along.size_eq (h : c.Along s) : c.size = width c.all := by rw [h.size, width, h.text]

/-- The tokens on both sides are those of this text, in which lines end in line feeds alone. -/
structure Over (s : String) (c : Cursor) : Prop where
  tokens : tokenize s = .ok c.all
  size : c.size = Text.byteSize s.toList
  clean : '\r' ∉ s.toList

theorem Over.along (h : c.Over s) : c.Along s := ⟨h.tokens, h.size⟩

theorem Over.sound (h : c.Over s) : c.Sound := ⟨0, s.toList, h.clean, h.tokens⟩

theorem Over.reaches (h : c.Over s) (hreach : c.Reaches c') : c'.Over s :=
  ⟨(h.along.reaches hreach).tokens, (h.along.reaches hreach).size, h.clean⟩

theorem Over.text (h : c.Over s) : textOf c.all = s.toList := h.along.text

theorem Over.size_eq (h : c.Over s) : c.size = width c.all := h.along.size_eq

/-- The tokens behind a cursor up to the last one that means something. -/
def settled (c : Cursor) : List Token := (c.behind.dropWhile (·.isIgnorable)).reverse

theorem settled_prefix (c : Cursor) : c.settled <+: c.behind.reverse :=
  List.reverse_prefix.mpr (List.dropWhile_suffix _)

theorem behind_prefix_all (c : Cursor) : c.behind.reverse <+: c.all := List.prefix_append ..

theorem Along.offset_eq (h : c.Along s) : c.offset = width c.behind.reverse := by
  have hscan := h.tokens
  have hsize := h.size_eq
  rw [all] at hscan hsize
  cases hahead : c.ahead with
  | nil => rw [offset, token?, hahead, hsize, hahead, List.append_nil]; rfl
  | cons t ts =>
    rw [hahead] at hscan
    rw [offset, token?, hahead, List.head?_cons, Option.map_some, Option.getD_some, start_of_scan hscan,
      Nat.zero_add]

/-- A token that the cursor has passed stops where the text up to it ends. -/
theorem Along.stop_eq (h : c.Along s) {before after : List Token} {t : Token} (hall : c.all = before ++ t :: after) :
    t.stop = width (before ++ [t]) := by
  rw [Token.stop, start_of_scan (hall ▸ h.tokens), Nat.zero_add, width_append, width_cons, width_nil, Nat.add_zero]

theorem Along.lastEnd_eq (h : c.Along s) : c.lastEnd = width c.settled := by
  have hfind : c.behind.find? (!·.isIgnorable) = (c.behind.dropWhile (·.isIgnorable)).head? := by
    simp [List.find?_eq_head?_dropWhile_not]
  have hsplit := List.takeWhile_append_dropWhile (p := (·.isIgnorable)) (l := c.behind)
  rw [lastEnd, hfind, settled]
  cases hdrop : c.behind.dropWhile (·.isIgnorable) with
  | nil => rfl
  | cons t ts =>
    rw [hdrop] at hsplit
    have hall : c.all = ts.reverse ++ t :: ((c.behind.takeWhile (·.isIgnorable)).reverse ++ c.ahead) := by
      rw [all]
      nth_rewrite 1 [← hsplit]
      simp
    rw [List.head?_cons, List.reverse_cons]
    exact h.stop_eq hall

theorem Over.offset_eq (h : c.Over s) : c.offset = width c.behind.reverse := h.along.offset_eq

theorem Over.stop_eq (h : c.Over s) {before after : List Token} {t : Token} (hall : c.all = before ++ t :: after) :
    t.stop = width (before ++ [t]) := h.along.stop_eq hall

theorem Over.lastEnd_eq (h : c.Over s) : c.lastEnd = width c.settled := h.along.lastEnd_eq

theorem Over.lastEnd_le_offset (h : c.Over s) : c.lastEnd ≤ c.offset := by
  rw [h.lastEnd_eq, h.offset_eq]
  exact width_le_of_prefix c.settled_prefix

theorem Reaches.behind_prefix (h : c.Reaches c') : c.behind.reverse <+: c'.behind.reverse := by
  obtain ⟨run, -, hbehind, -⟩ := h
  rw [hbehind, List.reverse_append]
  exact List.prefix_append ..

theorem Reaches.settled_prefix (h : c.Reaches c') : c.settled <+: c'.settled := by
  obtain ⟨run, -, hbehind, -⟩ := h
  rw [settled, settled, List.reverse_prefix, hbehind, List.dropWhile_append]
  split
  · exact List.suffix_rfl
  · exact (List.dropWhile_suffix _).trans (List.suffix_append ..)

theorem Reaches.lastEnd_le (h : c.Reaches c') (hc : c.Over s) : c.lastEnd ≤ c'.lastEnd := by
  rw [hc.lastEnd_eq, (hc.reaches h).lastEnd_eq]
  exact width_le_of_prefix h.settled_prefix

theorem Reaches.offset_le (h : c.Reaches c') (hc : c.Over s) : c.offset ≤ c'.offset := by
  rw [hc.offset_eq, (hc.reaches h).offset_eq]
  exact width_le_of_prefix h.behind_prefix

/-- One cursor stands at a token that means something, and the other one behind it. -/
structure Marks (c c' : Cursor) : Prop where
  token : ∃ t, c.token? = some t ∧ t.isIgnorable = false
  reaches : c.advance.Reaches c'

/-- From the current token of one cursor to the last one before another that means something. -/
def spanTo (c c' : Cursor) : Span := ⟨c.offset, c'.lastEnd⟩

theorem Marks.prefix_settled (h : c.Marks c') {t : Token} (ht : c.token? = some t) :
    c.behind.reverse ++ [t] <+: c'.settled := by
  obtain ⟨u, hu, hsolid⟩ := h.token
  obtain rfl : u = t := Option.some.inj (hu.symm.trans ht)
  obtain ⟨ts, hts⟩ := token?_eq_some ht
  have hstep : c.advance.settled = c.behind.reverse ++ [u] := by
    rw [settled, advance, hts]
    simp [hsolid]
  exact hstep ▸ h.reaches.settled_prefix

end Cursor

/-- The text at a span. -/
def Span.textIn (text : String) (span : Span) : String :=
  String.ofList (Text.slice text.toList span.start span.stop)

/-- A span of a text goes from the start of one of its tokens to the end of one. -/
structure Span.Fits (text : String) (span : Span) : Prop where
  starts : ∃ t : Token, t.IsOf text ∧ span.start = t.start
  stops : ∃ t : Token, t.IsOf text ∧ span.stop = t.stop
  nonempty : span.start < span.stop
  inside : span.stop ≤ Text.byteSize text.toList

section
variable {s : String} {c c' : Cursor}

theorem Cursor.Over.isOf (h : c.Over s) {t : Token} (ht : t ∈ c.all) : t.IsOf s := ⟨c.all, h.tokens, ht⟩

theorem Cursor.Marks.fits (h : c.Marks c') (hc : c.Over s) : (c.spanTo c').Fits s := by
  obtain ⟨t, ht, -⟩ := h.token
  obtain ⟨ts, hts⟩ := token?_eq_some ht
  have hall : c.all = c.behind.reverse ++ t :: ts := by rw [all, hts]
  have hmem : t ∈ c.all := hall ▸ List.mem_append_right _ List.mem_cons_self
  have hreach : c.Reaches c' := c.reaches_advance.trans h.reaches
  have hc' := hc.reaches hreach
  have hprefix := h.prefix_settled ht
  have hwhole : c'.settled <+: c'.all := c'.settled_prefix.trans c'.behind_prefix_all
  refine ⟨⟨t, hc.isOf hmem, ?_⟩, ?_, ?_, ?_⟩
  · rw [spanTo, offset, ht]
    rfl
  · have hne : c'.settled ≠ [] := by
      rintro hnil
      rw [hnil] at hprefix
      simp at hprefix
    obtain ⟨before, u, hu⟩ := (List.eq_nil_or_concat' c'.settled).resolve_left hne
    obtain ⟨after, hafter⟩ := hwhole
    rw [hu, List.append_assoc, List.singleton_append] at hafter
    refine ⟨u, hc'.isOf (hafter ▸ List.mem_append_right _ List.mem_cons_self), ?_⟩
    rw [hc'.stop_eq hafter.symm, ← hu]
    exact hc'.lastEnd_eq
  · have hpos := width_pos_of_scan hc.tokens hmem
    have hle := width_le_of_prefix hprefix
    rw [width_append, width_cons, width_nil] at hle
    simp only [spanTo, hc.offset_eq, hc'.lastEnd_eq]
    omega
  · simp only [spanTo, hc'.lastEnd_eq, ← hc'.size, hc'.size_eq]
    exact width_le_of_prefix hwhole

/-- What stands at the span between two cursors. -/
theorem Cursor.Over.textIn_spanTo (hc : c.Over s) (hc' : c'.Over s) {run : List Token}
    (hrun : c'.settled = c.behind.reverse ++ run) : (c.spanTo c').textIn s = String.ofList (textOf run) := by
  obtain ⟨after, hafter⟩ := c'.settled_prefix.trans c'.behind_prefix_all
  have htext : s.toList = textOf c.behind.reverse ++ (textOf run ++ textOf after) := by
    rw [← hc'.text, ← hafter, hrun, textOf_append, textOf_append, List.append_assoc]
  have hslice := Text.slice_append (textOf c.behind.reverse) (textOf run) (textOf after)
  rw [← htext, ← textOf_append, ← hrun] at hslice
  simp only [Span.textIn, spanTo, hc.offset_eq, hc'.lastEnd_eq]
  exact congrArg String.ofList hslice

end

end RequestLang
