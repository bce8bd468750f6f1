import RequestLang.Proofs.Token.Cuts

/-! What a lexeme that was cut off looks like, and what can stand behind it. -/
namespace RequestLang
open Lexer

namespace Lexer

theorem classes_of_lexeme? {cs : List Char} {kind : TokenKind} {n : Nat}
    (h : lexeme? cs = some (kind, n)) : ∃ length?, (kind, length?) ∈ classes ∧ length? cs = some n := by
  obtain ⟨⟨k, length?⟩, hmem, hlen⟩ := List.exists_of_findSome?_eq_some h
  obtain ⟨m, hm, he⟩ := Option.map_eq_some_iff.mp hlen
  simp only [Prod.mk.injEq] at he
  obtain ⟨rfl, rfl⟩ := he
  exact ⟨length?, hmem, hm⟩

end Lexer

namespace Lexeme.Cuts

variable {l : Lexeme} {rest : List Char}

/-- A class of its kind takes the lexeme off. -/
theorem length? (h : Cuts l rest) : ∃ length?, (l.kind, length?) ∈ classes ∧
    length? (l.text.toList ++ rest) = some l.text.toList.length :=
  classes_of_lexeme? h.lexeme

theorem newline (h : Cuts l rest) (hl : l.kind = .newline) (hr : '\r' ∉ l.text.toList) :
    l.text.toList = ['\n'] := by
  obtain ⟨length?, hmem, hlen⟩ := h.length?
  simp [classes, hl] at hmem
  subst hmem
  have hne := h.nonempty
  cases ht : l.text.toList with
  | nil => exact absurd ht hne
  | cons c cs =>
    rw [ht] at hlen hr
    have hc : c ≠ '\r' := fun hc => hr (by simp [hc])
    by_cases hn : c = '\n'
    · simpa [newline?, hn, eq_comm] using hlen
    · simp [newline?, hc, hn] at hlen

theorem whitespace (h : Cuts l rest) (hl : l.kind = .whitespace) :
    (∀ c ∈ l.text.toList, isGap c) ∧ Stops isGap rest := by
  obtain ⟨length?, hmem, hlen⟩ := h.length?
  simp [classes, hl] at hmem
  subst hmem
  obtain ⟨c, ds, hcs, hc, hds, hstop⟩ := headed?_eq_length hlen h.nonempty
  rw [hcs]
  exact ⟨by simpa using ⟨hc, hds⟩, hstop⟩

theorem placeholder (h : Cuts l rest) (hl : l.kind = .placeholder) :
    ∃ body, l.text.toList = '\x7b' :: '\x7b' :: body ∧
      Text.through? ['\x7d', '\x7d'] body = some body.length := by
  obtain ⟨length?, hmem, hlen⟩ := h.length?
  simp [classes, hl] at hmem
  subst hmem
  exact fenced?_eq_length hlen

theorem script (h : Cuts l rest) (hl : l.kind = .script) :
    ∃ body, l.text.toList = '\x7b' :: '%' :: body ∧
      Text.through? ['%', '\x7d'] body = some body.length := by
  obtain ⟨length?, hmem, hlen⟩ := h.length?
  simp [classes, hl] at hmem
  subst hmem
  exact fenced?_eq_length hlen

theorem tripleString (h : Cuts l rest) (hl : l.kind = .tripleString) :
    ∃ q body, (q = '"' ∨ q = '\'') ∧ l.text.toList = q :: q :: q :: body ∧
      Text.through? [q, q, q] body = some body.length := by
  obtain ⟨length?, hmem, hlen⟩ := h.length?
  simp [classes, hl] at hmem
  rcases hmem with rfl | rfl
  · obtain ⟨body, hb⟩ := fenced?_eq_length hlen
    exact ⟨'"', body, .inl rfl, hb⟩
  · obtain ⟨body, hb⟩ := fenced?_eq_length hlen
    exact ⟨'\'', body, .inr rfl, hb⟩

theorem string (h : Cuts l rest) (hl : l.kind = .string) :
    ∃ q cs, (q = '"' ∨ q = '\'') ∧ l.text.toList = q :: cs := by
  obtain ⟨length?, hmem, hlen⟩ := h.length?
  simp [classes, hl] at hmem
  have hne := h.nonempty
  cases ht : l.text.toList with
  | nil => exact absurd ht hne
  | cons c cs =>
    have hquote {q : Char} (hlen : quoted? q (l.text.toList ++ rest) = some l.text.toList.length) : c = q := by
      rw [ht, List.cons_append, quoted?] at hlen
      split at hlen
      · assumption
      · cases hlen
    rcases hmem with rfl | rfl
    · exact ⟨c, cs, .inl (hquote hlen), rfl⟩
    · exact ⟨c, cs, .inr (hquote hlen), rfl⟩

theorem comment (h : Cuts l rest) (hl : l.kind = .comment) :
    (∃ body, (l.text.toList = '/' :: '/' :: body ∨ l.text.toList = '#' :: body) ∧
      (∀ c ∈ body, c ≠ '\n') ∧ Stops (· != '\n') rest) ∨
    ∃ body, l.text.toList = '/' :: '*' :: body ∧
      Text.through? ['*', '/'] body = some body.length := by
  obtain ⟨length?, hmem, hlen⟩ := h.length?
  simp [classes, hl] at hmem
  have hne := h.nonempty
  have hline {opening : List Char} (hlen : lineComment? opening (l.text.toList ++ rest) =
      some l.text.toList.length) : opening <+: l.text.toList ++ rest ∧
        (∀ c ∈ l.text.toList, c ≠ '\n') ∧ Stops (· != '\n') rest := by
    unfold lineComment? at hlen
    split at hlen
    · rename_i hp
      obtain ⟨hall, hstop⟩ := run_eq_length (Option.some.inj hlen)
      exact ⟨List.isPrefixOf_iff_prefix.mp hp, by simpa using hall, hstop⟩
    · cases hlen
  cases ht : l.text.toList with
  | nil => exact absurd ht hne
  | cons c cs =>
    rw [ht] at hline hlen
    rcases hmem with rfl | rfl | rfl
    · obtain ⟨hp, hall, hstop⟩ := hline hlen
      cases cs with
      | nil =>
        obtain ⟨-, hp⟩ := List.cons_prefix_cons.mp hp
        obtain ⟨t, rfl⟩ := hp
        simp at hstop
      | cons d cs =>
        simp only [List.cons_append, List.cons_prefix_cons] at hp
        obtain ⟨rfl, rfl, -⟩ := hp
        exact .inl ⟨cs, .inl rfl, fun c hc => hall c (by simp [hc]), hstop⟩
    · obtain ⟨hp, hall, hstop⟩ := hline hlen
      obtain ⟨rfl, -⟩ := List.cons_prefix_cons.mp hp
      exact .inl ⟨cs, .inr rfl, fun c hc => hall c (by simp [hc]), hstop⟩
    · obtain ⟨body, hb, hthrough⟩ := fenced?_eq_length hlen
      exact .inr ⟨body, hb, hthrough⟩

theorem tag (h : Cuts l rest) (hl : l.kind = .tag) :
    ∃ key, l.text = "@" ++ key ∧ isHeaded isTagChar key.toList := by
  obtain ⟨length?, hmem, hlen⟩ := h.length?
  simp [classes, hl] at hmem
  subst hmem
  have hne := h.nonempty
  cases ht : l.text.toList with
  | nil => exact absurd ht hne
  | cons a cs =>
    rw [ht, List.cons_append] at hlen
    unfold tag? at hlen
    split at hlen
    · rename_i ds hds
      obtain ⟨rfl, rfl⟩ := List.cons.inj hds
      obtain ⟨c, ds, rfl, hc, hds, -⟩ := headed?_eq_length_of_map hlen
      refine ⟨String.ofList (c :: ds), ?_, by simpa [isHeaded, hc] using hds⟩
      rw [← String.toList_inj, ht]
      simp
    · cases hlen

theorem number (h : Cuts l rest) (hl : l.kind = .number) :
    ∃ c cs, l.text.toList = c :: cs ∧ c.isDigit ∧ numberLength (c :: cs) = cs.length + 1 := by
  obtain ⟨length?, hmem, hlen⟩ := h.length?
  simp [classes, hl] at hmem
  subst hmem
  have hne := h.nonempty
  cases ht : l.text.toList with
  | nil => exact absurd ht hne
  | cons c cs =>
    rw [ht] at hlen
    by_cases hc : c.isDigit
    · have hn : numberLength (c :: cs ++ rest) = (c :: cs).length := by simpa [hc] using hlen
      have := numberLength_take (c :: cs ++ rest)
      rw [hn, List.take_left] at this
      exact ⟨c, cs, rfl, hc, this⟩
    · simp [hc] at hlen

theorem identifier (h : Cuts l rest) (hl : l.kind = .identifier) :
    ∃ name, (l.text = name ∨ l.text = "$" ++ name) ∧ isHeaded Text.isNameChar name.toList ∧
      Stops Text.isNameChar rest := by
  obtain ⟨length?, hmem, hlen⟩ := h.length?
  simp [classes, hl] at hmem
  subst hmem
  have hne := h.nonempty
  cases ht : l.text.toList with
  | nil => exact absurd ht hne
  | cons a cs =>
    rw [ht, List.cons_append] at hlen
    unfold identifier? at hlen
    split at hlen
    · rename_i ds hds
      obtain ⟨rfl, rfl⟩ := List.cons.inj hds
      obtain ⟨c, ds, rfl, hc, hds, hstop⟩ := headed?_eq_length_of_map hlen
      refine ⟨String.ofList (c :: ds), .inr ?_, by simpa [isHeaded, hc] using hds, hstop⟩
      rw [← String.toList_inj, ht]
      simp
    · have hne' : a :: cs ≠ [] := by simp
      obtain ⟨c, ds, hcs, hc, hds, hstop⟩ := headed?_eq_length hlen hne'
      refine ⟨l.text, .inl rfl, ?_, hstop⟩
      rw [ht, hcs]
      simpa [isHeaded, hc] using hds

end Lexeme.Cuts

end RequestLang
