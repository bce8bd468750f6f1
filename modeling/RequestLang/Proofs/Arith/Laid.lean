import RequestLang.Proofs.Arith.Cut

/-! Words of arithmetic with gaps between them: when the gaps do not matter. -/
namespace RequestLang.Arith

/-- The text of words that each have a gap before them. -/
def laid {α : Type} (gap word : α → List Char) (xs : List α) : List Char := xs.flatMap fun x => gap x ++ word x

/-- An operator or a parenthesis. -/
inductive IsMark : List Char → Prop
  | op (o : Op) : IsMark o.mark.toList
  | opening : IsMark ['(']
  | closing : IsMark [')']

/-- A text that goes with no mark that may stand beside it. -/
structure Sealed (cs : List Char) : Prop where
  nonempty : cs ≠ []
  head : cs.head? ≠ some '*'
  last : cs.getLast? ≠ some '*'
  finished : ¬Unfinished cs

/-- The symbols of two texts side by side are those of both. -/
def Joins (cs rest : List Char) : Prop :=
  symbolsOf (cs ++ rest) = (do
    let ss ← symbolsOf cs
    (symbolsOf rest).map (ss ++ ·))

/-- The symbols of texts that join. -/
def joined : List (List Char) → Except Fault (List Symbol)
  | [] => .ok []
  | cs :: more => do
    let ss ← symbolsOf cs
    (joined more).map (ss ++ ·)

section
variable {α : Type} {gap gap' word : α → List Char} {xs : List α} {x y : α} {cs rest : List Char}

@[simp] theorem laid_nil : laid gap word [] = [] := rfl

@[simp] theorem laid_cons : laid gap word (x :: xs) = gap x ++ (word x ++ laid gap word xs) := by
  rw [laid, List.flatMap_cons, List.append_assoc]
  rfl

theorem IsMark.ne_nil (h : IsMark cs) : cs ≠ [] := by
  cases h with
  | op o => cases o <;> decide
  | _ => exact List.cons_ne_nil _ _

theorem joins_nil (cs : List Char) : Joins cs [] := by
  rw [Joins, List.append_nil]
  show symbolsOf cs = (do
    let ss ← symbolsOf cs
    .ok (ss ++ []))
  cases symbolsOf cs with
  | error f => rfl
  | ok ss => exact congrArg Except.ok (List.append_nil ss).symm

theorem joins_gap {gap : List Char} (hne : gap ≠ []) (hgap : ∀ c ∈ gap, isBlank c) (cs rest : List Char) :
    Joins cs (gap ++ rest) := by
  rw [Joins, symbolsOf_blanks hgap]
  exact symbolsOf_append_blanks hne hgap cs rest

/-- Marks stand by themselves, but for the sign of a power. -/
theorem IsMark.joins (h : IsMark cs) (hstar : cs = ['*'] → rest.head? ≠ some '*') : Joins cs rest := by
  have htakes {new : List Symbol} (h : Takes cs new rest) (h' : Takes cs new []) : Joins cs rest := by
    have hself := h'.symbolsOf_eq
    rw [List.append_nil] at hself
    rw [Joins, h.symbolsOf_eq, hself]
    show (symbolsOf rest).map (new ++ ·) = (symbolsOf rest).map ((new ++ []) ++ ·)
    rw [List.append_nil]
  cases h with
  | op o => exact htakes (.op o fun ho => hstar (ho ▸ rfl)) (.op o nofun)
  | opening => exact htakes (.opening rest) (.opening [])
  | closing => exact htakes (.closing rest) (.closing [])

theorem endsNumber_of_isMark (h : IsMark cs) (rest : List Char) : EndsNumber (cs ++ rest) := by
  cases h with
  | op o => cases o <;> simp [EndsNumber, Op.mark, isNumberChar]
  | opening => simp [EndsNumber, isNumberChar]
  | closing => simp [EndsNumber, isNumberChar]

theorem Sealed.joins (h : Sealed cs) {mark : List Char} (hmark : IsMark mark) (rest : List Char) : Joins cs (mark ++ rest) :=
  symbolsOf_append ⟨endsNumber_of_isMark hmark rest, fun _ _ _ => h.finished, fun _ => h.last⟩

/-- Gaps may grow and shrink. -/
theorem symbolsOf_laid_congr (hgap : ∀ x ∈ xs, ∀ c ∈ gap x, isBlank c) (hgap' : ∀ x ∈ xs, ∀ c ∈ gap' x, isBlank c)
    (hsame : ∀ x ∈ xs, gap x = [] ↔ gap' x = []) (front : List Char) :
    symbolsOf (front ++ laid gap word xs) = symbolsOf (front ++ laid gap' word xs) := by
  -- what stands in front goes on up to the next gap, where it is read by itself
  induction xs generalizing front with
  | nil => rfl
  | cons x xs ih =>
    rw [List.forall_mem_cons] at hgap hgap' hsame
    have hrest := ih hgap.2 hgap'.2 hsame.2
    rw [laid_cons, laid_cons]
    by_cases hempty : gap x = []
    · rw [hempty, hsame.1.mp hempty, List.nil_append, List.nil_append, ← List.append_assoc, ← List.append_assoc]
      exact hrest _
    · rw [symbolsOf_append_blanks hempty hgap.1, symbolsOf_append_blanks (mt hsame.1.mpr hempty) hgap'.1, hrest]

/-- Where every word is a mark or sealed and no two words stand side by side that are no marks, the gaps do not
matter, unless they part two signs of a product. -/
theorem symbolsOf_laid (hgap : ∀ x ∈ xs, ∀ c ∈ gap x, isBlank c) (hword : ∀ x ∈ xs, IsMark (word x) ∨ Sealed (word x))
    (hchain : xs.IsChain fun x y => (IsMark (word x) ∨ IsMark (word y)) ∧
      (word x = ['*'] → gap y = [] → (word y).head? ≠ some '*')) :
    symbolsOf (laid gap word xs) = joined (xs.map word) := by
  induction xs with
  | nil => rfl
  | cons x xs ih =>
    rw [List.forall_mem_cons] at hgap hword
    have hrest := ih hgap.2 hword.2 hchain.tail
    rw [laid_cons, symbolsOf_blanks hgap.1, List.map_cons, joined, ← hrest]
    cases xs with
    | nil => exact joins_nil _
    | cons y ys =>
      rw [List.isChain_cons_cons] at hchain
      rw [List.forall_mem_cons] at hgap hword
      have hne : word y ≠ [] := hword.2.1.elim IsMark.ne_nil Sealed.nonempty
      by_cases hempty : gap y = []
      · rw [laid_cons, hempty, List.nil_append]
        obtain ⟨⟨hmarks, hstar⟩, -⟩ := hchain
        by_cases hx : IsMark (word x)
        · refine hx.joins fun h => ?_
          rw [List.head?_append_of_ne_nil _ hne]
          exact hstar h hempty
        · exact (hword.1.resolve_left hx).joins (hmarks.resolve_left hx) _
      · rw [laid_cons]
        exact joins_gap hempty hgap.2.1 _ _

end
end RequestLang.Arith
