import RequestLang.Proofs.Text.Place
import RequestLang.Proofs.Text.Search
import RequestLang.Property.Generator

/-! Which call of a generator a text holds. It is the leftmost one on the first line, and it takes along a colon
behind the name with all decimal digits that follow, whether or not they are a length. -/
namespace RequestLang.Generator

theorem mem_all (g : Generator) : g ∈ all := by cases g <;> decide

/-- No name goes on as another one, so that it does not matter in which order they are tried. -/
theorem eq_of_name_prefix {g h : Generator} {cs : List Char} (hg : g.name.toList <+: cs) (hh : h.name.toList <+: cs) :
    g = h := by
  have hapart : ∀ a ∈ all, ∀ b ∈ all, a.name.toList.isPrefixOf b.name.toList → a = b := by decide +kernel
  rcases List.prefix_or_prefix_of_prefix hg hh with hp | hp
  · exact hapart g (mem_all g) h (mem_all h) (List.isPrefixOf_iff_prefix.mpr hp)
  · exact (hapart h (mem_all h) g (mem_all g) (List.isPrefixOf_iff_prefix.mpr hp)).symm

theorem name_ne_nil (g : Generator) : g.name.toList ≠ [] := by cases g <;> decide

/-- What a call takes along behind its name: nothing, or a colon and every digit behind it. The digits are the
length if they spell a positive number that fits a word. -/
inductive Suffix : Option Nat → List Char → List Char → Prop
  | bare {after : List Char} : after.head? ≠ some ':' → Suffix none [] after
  | colon {length : Option Nat} {digits after : List Char} : (∀ c ∈ digits, Text.isDecimalDigit c) →
      (∀ c ∈ after.head?, Text.isDecimalDigit c = false) → (∀ n, length = some n ↔ 0 < n ∧ Text.Spells digits n) →
      Suffix length (':' :: digits) after

/-- A call of a generator in a text, with what it takes along behind the name. -/
structure Call.Stands (k : Call) (suffix cs : List Char) : Prop where
  text : cs = k.before ++ (k.generator.name.toList ++ (suffix ++ k.after))
  line : '\n' ∉ k.before
  leftmost : ∀ front back, cs = front ++ back → front.length < k.before.length → ∀ g : Generator, ¬g.name.toList <+: back
  behind : Suffix k.length suffix k.after

/-- The call whose name stands before a text. -/
def callBehind (g : Generator) : List Char → Call
  | ':' :: ds =>
    ⟨[], g, (Text.natural? (ds.takeWhile Text.isDecimalDigit)).filter (0 < ·), ds.dropWhile Text.isDecimalDigit⟩
  | rest => ⟨[], g, none, rest⟩

section
variable {g : Generator} {k : Call} {cs rest suffix : List Char}

theorem callBehind_of_ne_colon (h : rest.head? ≠ some ':') : callBehind g rest = ⟨[], g, none, rest⟩ := by
  unfold callBehind
  split
  · exact absurd rfl h
  · rfl

theorem length_eq_iff {digits : List Char} {n : Nat} :
    (Text.natural? digits).filter (0 < ·) = some n ↔ 0 < n ∧ Text.Spells digits n := by
  rw [Option.filter_eq_some_iff, Text.natural?_eq_some_iff, decide_eq_true_iff, and_comm]

/-- Every text behind a name is split into what the call takes along and what is after it. -/
theorem exists_suffix (rest : List Char) :
    ∃ length suffix after, rest = suffix ++ after ∧ Suffix length suffix after := by
  by_cases hcolon : rest.head? = some ':'
  · obtain ⟨ds, rfl⟩ := List.head?_eq_some_iff.mp hcolon
    refine ⟨_, ':' :: ds.takeWhile Text.isDecimalDigit, ds.dropWhile Text.isDecimalDigit, ?_,
      .colon (fun c hc => List.mem_takeWhile_imp hc) (fun c hc => ?_) fun n => length_eq_iff⟩
    · rw [List.cons_append, List.takeWhile_append_dropWhile]
    · have := List.head?_dropWhile_not Text.isDecimalDigit ds
      rwa [Option.mem_def.mp hc] at this
  · exact ⟨none, [], rest, rfl, .bare hcolon⟩

theorem callBehind_append {length : Option Nat} {after : List Char} (h : Suffix length suffix after) :
    callBehind g (suffix ++ after) = ⟨[], g, length, after⟩ := by
  cases h with
  | bare hafter => exact callBehind_of_ne_colon hafter
  | @colon _ digits _ hdigits hafter hlength =>
    have htake : after.takeWhile Text.isDecimalDigit = [] ∧ after.dropWhile Text.isDecimalDigit = after := by
      cases after with
      | nil => exact ⟨rfl, rfl⟩
      | cons c cs => simp [hafter c rfl]
    have hsame : (Text.natural? digits).filter (0 < ·) = length :=
      Option.ext fun n => length_eq_iff.trans (hlength n).symm
    simp only [List.cons_append, callBehind, List.takeWhile_append_of_pos hdigits, List.dropWhile_append_of_pos hdigits,
      htake, List.append_nil, hsame]

theorem callAt?_eq (cs : List Char) : callAt? cs = all.findSome? fun g =>
    if g.name.toList.isPrefixOf cs then some (callBehind g (cs.drop g.name.toList.length)) else none := by
  unfold callAt?
  congr 1
  funext g
  dsimp only
  split
  · generalize cs.drop g.name.toList.length = rest
    split
    · rfl
    · rename_i hcolon
      rw [callBehind_of_ne_colon fun h => ?_]
      obtain ⟨ds, rfl⟩ := List.head?_eq_some_iff.mp h
      exact hcolon ds rfl
  · rfl

theorem callAt?_eq_none_iff : callAt? cs = none ↔ ∀ g : Generator, ¬g.name.toList <+: cs := by
  rw [callAt?_eq, List.findSome?_eq_none_iff]
  simp only [ite_eq_right_iff, reduceCtorEq, imp_false, List.isPrefixOf_iff_prefix]
  exact ⟨fun h g => h g (mem_all g), fun h g _ => h g⟩

/-- The name at the head of a text gives the call there. -/
theorem callAt?_append (g : Generator) (rest : List Char) :
    callAt? (g.name.toList ++ rest) = some (callBehind g rest) := by
  cases h : callAt? (g.name.toList ++ rest) with
  | none => exact absurd (List.prefix_append ..) (callAt?_eq_none_iff.mp h g)
  | some k =>
    rw [callAt?_eq] at h
    obtain ⟨other, -, hother⟩ := List.exists_of_findSome?_eq_some h
    split at hother
    · rename_i hp
      obtain rfl := eq_of_name_prefix (List.isPrefixOf_iff_prefix.mp hp) (List.prefix_append g.name.toList rest)
      rwa [List.drop_left, eq_comm] at hother
    · cases hother

theorem callAt?_eq_some_iff : callAt? cs = some k ↔
    ∃ suffix, k.before = [] ∧ cs = k.generator.name.toList ++ (suffix ++ k.after) ∧ Suffix k.length suffix k.after := by
  constructor
  · intro h
    obtain ⟨g, rest, rfl⟩ : ∃ (g : Generator) (rest : List Char), cs = g.name.toList ++ rest := by
      by_contra hnone
      push Not at hnone
      have := callAt?_eq_none_iff.mpr fun g ⟨rest, hrest⟩ => hnone g rest hrest.symm
      rw [h] at this
      cases this
    obtain ⟨length, suffix, after, rfl, hsuffix⟩ := exists_suffix rest
    rw [callAt?_append, callBehind_append hsuffix] at h
    cases h
    exact ⟨suffix, rfl, rfl, hsuffix⟩
  · rintro ⟨suffix, hbefore, rfl, hsuffix⟩
    rw [callAt?_append, callBehind_append hsuffix]
    cases k
    cases hbefore
    rfl

theorem stands_head_iff {length : Option Nat} {after : List Char} : (⟨[], g, length, after⟩ : Call).Stands suffix cs ↔
    cs = g.name.toList ++ (suffix ++ after) ∧ Suffix length suffix after :=
  ⟨fun h => ⟨h.text, h.behind⟩, fun h => ⟨h.1, List.not_mem_nil, fun _ _ _ hfront => absurd hfront (Nat.not_lt_zero _), h.2⟩⟩

theorem stands_cons_iff {c d : Char} {before after : List Char} {length : Option Nat} :
    (⟨d :: before, g, length, after⟩ : Call).Stands suffix (c :: cs) ↔
      d = c ∧ c ≠ '\n' ∧ (∀ g : Generator, ¬g.name.toList <+: c :: cs) ∧
        (⟨before, g, length, after⟩ : Call).Stands suffix cs := by
  constructor
  · rintro ⟨htext, hline, hleftmost, hbehind⟩
    obtain ⟨rfl, rfl⟩ := List.cons.inj htext
    have hfeed : c ≠ '\n' ∧ '\n' ∉ before := by simpa [eq_comm] using hline
    refine ⟨rfl, hfeed.1, hleftmost [] _ rfl (Nat.succ_pos _), rfl, hfeed.2, fun front back hcs hfront => ?_, hbehind⟩
    exact hleftmost (c :: front) back (congrArg (c :: ·) hcs) (Nat.succ_lt_succ hfront)
  · rintro ⟨rfl, hfeed, hnone, rfl, hline, hleftmost, hbehind⟩
    refine ⟨rfl, by simp [hfeed.symm, hline], fun front back hcs hfront => ?_, hbehind⟩
    cases front with
    | nil =>
      rw [List.nil_append] at hcs
      exact hcs ▸ hnone
    | cons e front => exact hleftmost front back (List.cons.inj hcs).2 (Nat.lt_of_succ_lt_succ hfront)

/-- A text is split at its leftmost call. -/
theorem call?_eq_some_iff : call? cs = some k ↔ ∃ suffix, k.Stands suffix cs := by
  obtain ⟨before, g, length, after⟩ := k
  induction cs generalizing before with
  | nil =>
    refine ⟨nofun, fun ⟨suffix, h⟩ => ?_⟩
    have htext := h.text
    rw [List.nil_eq, List.append_eq_nil_iff, List.append_eq_nil_iff] at htext
    exact absurd htext.2.1 (name_ne_nil _)
  | cons c cs ih =>
    rw [call?]
    cases before with
    | nil =>
      have hat : callAt? (c :: cs) = some ⟨[], g, length, after⟩ ↔ _ := callAt?_eq_some_iff
      simp only [true_and, ← stands_head_iff] at hat
      rw [← hat]
      cases callAt? (c :: cs) with
      | some l => rfl
      | none =>
        by_cases hfeed : c = '\n'
        · simp [hfeed]
        · simp [hfeed]
    | cons d before =>
      simp only [stands_cons_iff, exists_and_left, ← ih, ← callAt?_eq_none_iff]
      cases hat : callAt? (c :: cs) with
      | some l =>
        obtain ⟨-, hbefore, -⟩ := callAt?_eq_some_iff.mp hat
        refine ⟨fun h => ?_, fun h => nomatch h.2.2.1⟩
        cases h
        cases hbefore
      | none =>
        by_cases hfeed : c = '\n'
        · simp [hfeed]
        · cases call? cs with
          | none => simp [hfeed]
          | some l =>
            obtain ⟨b, g', length', after'⟩ := l
            simp [hfeed, eq_comm, and_assoc]

/-- A text holds a call as soon as a name stands on its first line. -/
theorem isGenerator_iff : isGenerator cs ↔
    ∃ (g : Generator) (front back : List Char), cs = front ++ (g.name.toList ++ back) ∧ '\n' ∉ front := by
  constructor
  · intro h
    obtain ⟨k, hk⟩ := Option.isSome_iff_exists.mp h
    obtain ⟨suffix, hstands⟩ := call?_eq_some_iff.mp hk
    exact ⟨k.generator, k.before, suffix ++ k.after, hstands.text, hstands.line⟩
  · rintro ⟨g, front, back, rfl, hline⟩
    unfold isGenerator
    induction front with
    | nil =>
      obtain ⟨length, suffix, after, rfl, hsuffix⟩ := exists_suffix back
      exact Option.isSome_iff_exists.mpr ⟨_, call?_eq_some_iff.mpr ⟨suffix, stands_head_iff.mpr ⟨rfl, hsuffix⟩⟩⟩
    | cons c front ih =>
      have hfeed : c ≠ '\n' ∧ '\n' ∉ front := by simpa [eq_comm] using hline
      rw [List.cons_append, call?]
      cases callAt? (c :: (front ++ (g.name.toList ++ back))) with
      | some l => rfl
      | none => simpa [hfeed.1] using ih hfeed.2

end

end RequestLang.Generator

/-! What a generator puts for its call. Whatever the random numbers are, the value has the shape that its name and
its length promise, and the text around the call stays as it is. -/
namespace RequestLang

namespace Draw
variable {α β : Type} {c : Draw α} {P Q : α → Prop}

/-- Whatever the numbers are, what is drawn has a property, and the drawing does not end the program. -/
def Yields (c : Draw α) (P : α → Prop) : Prop :=
  ∀ d, P (c d).1 ∧ (c d).2.used.overflowed = d.used.overflowed

theorem yields_pure {a : α} (h : P a) : Yields (pure a) P := fun _ => ⟨h, rfl⟩

theorem Yields.bind {f : α → Draw β} {R : β → Prop} (hc : Yields c P) (hf : ∀ a, P a → Yields (f a) R) :
    Yields (c >>= f) R := fun d =>
  ⟨(hf _ (hc d).1 _).1, (hf _ (hc d).1 _).2.trans (hc d).2⟩

theorem Yields.imp (hc : Yields c P) (h : ∀ a, P a → Q a) : Yields c Q := fun d => ⟨h _ (hc d).1, (hc d).2⟩

theorem yields_below {bound : Nat} (h : 0 < bound) : Yields (below bound) (· < bound) := fun _ =>
  ⟨Nat.mod_lt _ h, rfl⟩

theorem yields_oneOf {cs : List Char} (h : cs ≠ []) : Yields (oneOf cs) (· ∈ cs) := by
  refine (yields_below (List.length_pos_iff.mpr h)).bind fun n hn => yields_pure ?_
  rw [List.getD_eq_getElem _ _ hn]
  exact List.getElem_mem hn

theorem yields_times {c : Draw Char} {P : Char → Prop} (hc : Yields c P) (n : Nat) :
    Yields (times n c) fun cs => cs.length = n ∧ ∀ a ∈ cs, P a := by
  induction n with
  | zero => exact yields_pure ⟨rfl, by simp⟩
  | succ n ih =>
    refine hc.bind fun a ha => ih.bind fun cs hcs => yields_pure ⟨by simp [hcs.1], ?_⟩
    simpa [ha] using hcs.2

theorem yields_reserve {bytes : Nat} {c : Draw (List Char)} {P : List Char → Prop} (h : bytes < blockEnd)
    (hc : Yields c P) : Yields (reserve bytes c) P := by
  intro d
  rw [reserve, if_neg (Nat.not_le.mpr h)]
  exact hc d

theorem overflowed_reserve {bytes : Nat} {c : Draw (List Char)} (h : blockEnd ≤ bytes) (d : Draws) :
    (reserve bytes c d).2.used.overflowed := by
  rw [reserve, if_pos h]

end Draw

namespace Generator

/-- A word of a slug. -/
def IsWord (w : List Char) : Prop := w ≠ [] ∧ w.length ≤ 9 ∧ ∀ c ∈ w, c.isLower ∨ c.isDigit

/-- The values that a generator can put for a call, depending on the length that the call gives. -/
inductive Promises (now : Nat) : Generator → Option Nat → List Char → Prop
  | string {n : Nat} {c : Char} {cs : List Char} : c.isAlpha → (∀ d ∈ cs, d.isAlphanum) → (c :: cs).length = n →
      Promises now randomStr (some n) (c :: cs)
  | shortString {c : Char} {cs : List Char} : c.isAlpha → (∀ d ∈ cs, d.isAlphanum) → (c :: cs).length ≤ 10 →
      Promises now randomStr none (c :: cs)
  | digits {n : Nat} {c : Char} {cs : List Char} : c ≠ '0' → (∀ d ∈ c :: cs, d.isDigit) → (c :: cs).length = n →
      Promises now randomInt (some n) (c :: cs)
  | number {n : Nat} : n < 0x80000000 → Promises now randomInt none (Nat.toDigits 10 n)
  | float {length : Option Nat} (x : Float) : Promises now randomFloat length (Shortest.plainText x).toList
  | bool {length : Option Nat} (b : Bool) : Promises now randomBool length (toString b).toList
  | identifier {g : Generator} {length : Option Nat} {parts : List (List Char)} : g = guid ∨ g = uuid →
      parts.map List.length = [8, 4, 4, 4, 12] → (∀ p ∈ parts, ∀ c ∈ p, c ∈ hexDigits) →
      Promises now g length (List.intercalate ['-'] parts)
  | time {length : Option Nat} : Promises now timestamp length (Nat.toDigits 10 now)
  | words {g : Generator} {length : Option Nat} {ws : List (List Char)} : g = slug ∨ g = loremSlug →
      ws.length = length.getD 4 → (∀ w ∈ ws, IsWord w) → Promises now g length (List.intercalate ['-'] ws)

/-- The bytes that a call of this length has to hold at once. -/
def blockOf (n : Nat) : Generator → Nat
  | randomStr | randomInt => n
  | loremSlug | slug => entryBytes * n
  | randomFloat | randomBool | guid | uuid | timestamp => 0

/-- A call of this length asks for more than memory can hold. -/
def Exceeds (g : Generator) (length : Option Nat) : Prop := ∃ n, length = some n ∧ Draw.blockEnd ≤ g.blockOf n

section
variable {now : Nat} {length : Option Nat}

/-- A character of an alphabet is in every class that the whole alphabet is in. -/
theorem mem_class {p : Char → Bool} {cs : List Char} (h : cs.all p) {c : Char} (hc : c ∈ cs) : p c :=
  List.all_eq_true.mp h c hc

theorem yields_letters (n : Nat) : Draw.Yields (do
    let first ← Draw.oneOf letters
    return first :: (← Draw.times n (Draw.oneOf alphanumerics))) fun cs =>
      ∃ c ds, cs = c :: ds ∧ c.isAlpha ∧ (∀ d ∈ ds, d.isAlphanum) ∧ ds.length = n := by
  refine (Draw.yields_oneOf (by decide)).bind fun c hc => ?_
  refine (Draw.yields_times (Draw.yields_oneOf (by decide)) n).bind fun ds hds => Draw.yields_pure ?_
  have halphanum : alphanumerics.all Char.isAlphanum := by decide +kernel
  exact ⟨c, ds, rfl, mem_class (by decide +kernel) hc, fun d hd => mem_class halphanum (hds.2 d hd), hds.1⟩

theorem yields_str (h : ¬Exceeds randomStr length) (hpos : length ≠ some 0) :
    (drawStr length).Yields (Promises now randomStr length) := by
  unfold drawStr
  cases length with
  | some n =>
    have hn : 0 < n := Nat.pos_of_ne_zero fun hn => hpos (hn ▸ rfl)
    have hfits : n < Draw.blockEnd := Nat.lt_of_not_le fun hn => h ⟨n, rfl, hn⟩
    refine (Draw.yields_reserve hfits (yields_letters _)).imp ?_
    rintro _ ⟨c, ds, rfl, hc, hds, hlen⟩
    exact .string hc hds (by rw [List.length_cons]; omega)
  | none =>
    have hbound : 0 < 10 := by decide
    refine (Draw.yields_below hbound).bind fun n hn => ?_
    have hfits : n + 1 < Draw.blockEnd := by unfold Draw.blockEnd; omega
    refine (Draw.yields_reserve hfits (yields_letters _)).imp ?_
    rintro _ ⟨c, ds, rfl, hc, hds, hlen⟩
    exact .shortString hc hds (by rw [List.length_cons]; omega)

theorem yields_int (h : ¬Exceeds randomInt length) (hpos : length ≠ some 0) :
    (drawInt length).Yields (Promises now randomInt length) := by
  unfold drawInt
  cases length with
  | none => exact (Draw.yields_below (by decide)).bind fun n hn => Draw.yields_pure (.number hn)
  | some n =>
    have hn : 0 < n := Nat.pos_of_ne_zero fun hn => hpos (hn ▸ rfl)
    refine Draw.yields_reserve (Nat.lt_of_not_le fun hn => h ⟨n, rfl, hn⟩) ?_
    refine (Draw.yields_oneOf (by decide)).bind fun c hc => ?_
    refine (Draw.yields_times (Draw.yields_oneOf (by decide)) _).bind fun ds hds => Draw.yields_pure ?_
    have hc : c ≠ '0' ∧ c.isDigit := by
      simpa using mem_class (p := fun c => c != '0' && c.isDigit) (by decide +kernel) hc
    have hdigits : "0123456789".toList.all Char.isDigit := by decide +kernel
    have hds' : ∀ d ∈ c :: ds, d.isDigit := by
      simpa [hc.2] using fun d hd => mem_class hdigits (hds.2 d hd)
    exact .digits hc.1 hds' (by rw [List.length_cons, hds.1]; omega)

theorem yields_words (n : Nat) : (drawWords n).Yields fun ws => ws.length = n ∧ ∀ w ∈ ws, IsWord w := by
  have hlower : lowerAlphanumerics.all fun c => c.isLower || c.isDigit := by decide +kernel
  induction n with
  | zero => exact Draw.yields_pure ⟨rfl, by simp⟩
  | succ n ih =>
    refine (Draw.yields_below (by decide)).bind fun size hsize => ?_
    refine (Draw.yields_times (Draw.yields_oneOf (by decide)) _).bind fun w hw => ?_
    refine ih.bind fun ws hws => Draw.yields_pure ⟨by simp [hws.1], ?_⟩
    have hword : IsWord w := by
      refine ⟨List.ne_nil_of_length_eq_add_one hw.1, by omega, fun c hc => ?_⟩
      simpa using mem_class hlower (hw.2 c hc)
    simpa [hword] using hws.2

theorem yields_slug {g : Generator} (hg : g = slug ∨ g = loremSlug) (h : ¬Exceeds g length) (hpos : length ≠ some 0) :
    (drawSlug length).Yields (Promises now g length) := by
  have hwords : (length.filter (0 < ·)).getD 4 = length.getD 4 := by
    cases length with
    | none => rfl
    | some n =>
      have hn : 0 < n := Nat.pos_of_ne_zero fun hn => hpos (hn ▸ rfl)
      simp [Option.filter, hn]
  have hfits : entryBytes * length.getD 4 < Draw.blockEnd := by
    cases length with
    | none => decide
    | some n =>
      refine Nat.lt_of_not_le fun hn => h ⟨n, rfl, ?_⟩
      rcases hg with rfl | rfl <;> exact hn
  unfold drawSlug
  rw [hwords]
  exact Draw.yields_reserve hfits ((yields_words _).bind fun ws hws => Draw.yields_pure (.words hg hws.1 hws.2))

theorem yields_uuid {g : Generator} (hg : g = guid ∨ g = uuid) : drawUuid.Yields (Promises now g length) := by
  have hpart (n : Nat) : (Draw.times n (Draw.oneOf hexDigits)).Yields fun p => p.length = n ∧ ∀ c ∈ p, c ∈ hexDigits :=
    Draw.yields_times (Draw.yields_oneOf (by decide)) n
  refine (hpart 8).bind fun a ha => (hpart 4).bind fun b hb => (hpart 3).bind fun c hc => ?_
  refine (Draw.yields_oneOf (by decide)).bind fun v hv => (hpart 3).bind fun d hd => (hpart 12).bind fun e he => ?_
  have hparts : a ++ '-' :: b ++ ['-', '4'] ++ c ++ '-' :: v :: d ++ '-' :: e =
      List.intercalate ['-'] [a, b, '4' :: c, v :: d, e] := by
    simp [List.intercalate]
  have hfour : '4' ∈ hexDigits := by decide
  have hvariant : v ∈ hexDigits := by
    have hall : ['8', '9', 'a', 'b'].all hexDigits.contains := by decide
    exact List.contains_iff_mem.mp (mem_class hall hv)
  rw [hparts]
  refine Draw.yields_pure (.identifier hg (by simp [ha.1, hb.1, hc.1, hd.1, he.1]) ?_)
  simpa [hfour, hvariant] using ⟨ha.2, hb.2, hc.2, hd.2, he.2⟩

/-- The value has the promised shape unless it would be longer than memory is. -/
theorem yields_draw (g : Generator) (h : ¬Exceeds g length) (hpos : length ≠ some 0) :
    (g.draw now length).Yields (Promises now g length) := by
  cases g with
  | randomStr => exact yields_str h hpos
  | randomInt => exact yields_int h hpos
  | randomFloat => exact (Draw.yields_below (by decide)).bind fun n _ => Draw.yields_pure (.float _)
  | randomBool =>
    refine (Draw.yields_below (by decide)).bind fun n _ => Draw.yields_pure ?_
    split
    · exact .bool true
    · exact .bool false
  | guid => exact yields_uuid (.inl rfl)
  | uuid => exact yields_uuid (.inr rfl)
  | timestamp => exact Draw.yields_pure .time
  | loremSlug => exact yields_slug (.inr rfl) h hpos
  | slug => exact yields_slug (.inl rfl) h hpos

/-- A longer value ends the program. -/
theorem overflowed_draw (g : Generator) (h : Exceeds g length) (d : Draws) :
    (g.draw now length d).2.used.overflowed := by
  obtain ⟨n, rfl, hn⟩ := h
  have hpos : 0 < Draw.blockEnd := by decide
  cases g with
  | randomStr | randomInt => exact Draw.overflowed_reserve hn d
  | randomFloat | randomBool | guid | uuid | timestamp => exact absurd hn (Nat.not_le.mpr hpos)
  | loremSlug | slug =>
    have hn' : 0 < n := Nat.pos_of_ne_zero fun hzero => by
      rw [hzero] at hn
      exact absurd hn (Nat.not_le.mpr hpos)
    have hwords : ((some n).filter (0 < ·)).getD 4 = n := by simp [Option.filter, hn']
    simp only [draw, drawSlug, hwords]
    exact Draw.overflowed_reserve hn d

theorem dollar_notMem_digits (n : Nat) : '$' ∉ Nat.toDigits 10 n := fun h =>
  absurd (Nat.isDigit_of_mem_toDigits (by decide) (by decide) h) (by decide)

theorem dollar_notMem_plainText (x : Float) : '$' ∉ (Shortest.plainText x).toList := by
  have hpositional (m : Nat) (e : Int) : '$' ∉ (Shortest.positional m e).toList := by
    unfold Shortest.positional
    split
    · simp [dollar_notMem_digits]
    · have hpadded (n : Nat) : '$' ∉ List.replicate n '0' ++ Nat.toDigits 10 m := by simp [dollar_notMem_digits]
      simp only [String.toList_ofList, List.mem_append, List.mem_cons, not_or]
      exact ⟨fun h => hpadded _ (List.mem_of_mem_take h), by decide, fun h => hpadded _ (List.mem_of_mem_drop h)⟩
  unfold Shortest.plainText
  split
  · decide
  · dsimp only
    split <;> split <;> simp [hpositional]

/-- Every name begins with a dollar sign, and no value has one. -/
theorem Promises.dollar_notMem {g : Generator} {value : List Char} (h : Promises now g length value) : '$' ∉ value := by
  have hplain {p : Char → Bool} (hp : p '$' = false) {cs : List Char} (hcs : ∀ d ∈ cs, p d) : '$' ∉ cs := fun hmem => by
    rw [hcs '$' hmem] at hp
    cases hp
  cases h with
  | string hc hds | shortString hc hds =>
    exact List.not_mem_cons_of_ne_of_not_mem (by rintro rfl; revert hc; decide) (hplain (by decide) hds)
  | digits _ hds => exact hplain (by decide) hds
  | number | time => exact dollar_notMem_digits _
  | float x => exact dollar_notMem_plainText x
  | bool b => cases b <;> decide
  | identifier _ _ hparts =>
    exact Text.not_mem_intercalate (by decide) fun p hp hmem => absurd (hparts p hp '$' hmem) (by decide)
  | words _ _ hws =>
    refine Text.not_mem_intercalate (by decide) fun w hw => hplain (p := fun c => c.isLower || c.isDigit) (by decide) ?_
    simpa using (hws w hw).2.2

theorem dollar_mem_name (g : Generator) : '$' ∈ g.name.toList := by cases g <;> decide

/-- The length of a call is positive. -/
theorem Suffix.pos {suffix after : List Char} (h : Suffix length suffix after) : length ≠ some 0 := by
  cases h with
  | bare => nofun
  | colon _ _ hlength => exact fun hzero => absurd ((hlength 0).mp hzero).1 (Nat.lt_irrefl 0)

theorem generate_of_stands {k : Call} {suffix cs : List Char} (h : k.Stands suffix cs) (d : Draws) :
    generate now cs d = (k.before ++ ((k.generator.draw now k.length d).1 ++ k.after),
      (k.generator.draw now k.length d).2) := by
  rw [generate, call?_eq_some_iff.mpr ⟨suffix, h⟩, ← List.append_assoc]
  rfl

/-- The call of a text asks for more than memory can hold. -/
def Overdraws (cs : List Char) : Prop := ∃ k suffix, Call.Stands k suffix cs ∧ k.generator.Exceeds k.length

theorem overflowed_generate (now : Nat) (cs : List Char) (d : Draws) :
    (generate now cs d).2.used.overflowed ↔ d.used.overflowed ∨ Overdraws cs := by
  cases hcall : call? cs with
  | none =>
    have hno : ¬Overdraws cs := fun ⟨k, suffix, hstands, _⟩ => by
      rw [call?_eq_some_iff.mpr ⟨suffix, hstands⟩] at hcall
      cases hcall
    rw [generate, hcall]
    exact (or_iff_left hno).symm
  | some k =>
    obtain ⟨suffix, hstands⟩ := call?_eq_some_iff.mp hcall
    rw [generate_of_stands hstands]
    by_cases hlong : k.generator.Exceeds k.length
    · exact iff_of_true (overflowed_draw _ hlong d) (.inr ⟨k, suffix, hstands, hlong⟩)
    · have hno : ¬Overdraws cs := fun ⟨l, tail, hother, hexceeds⟩ => by
        have hsame := hcall.symm.trans (call?_eq_some_iff.mpr ⟨tail, hother⟩)
        exact hlong (Option.some.inj hsame ▸ hexceeds)
      rw [(yields_draw k.generator hlong hstands.behind.pos d).2]
      exact (or_iff_left hno).symm

end

/-- What a generator puts. A text holds a call exactly if a name stands on its first line, and then it is split at the
leftmost one; a text without a call and the supply of numbers stay as they are. For the call, with the colon and the
digits behind its name, a value of the promised shape is put, and the text is another one; a value that is longer than
memory is ends the program instead. A trimmed key that is computed and is no expression begins with its call. -/
theorem generate_promises (now : Nat) (cs : List Char) (d : Draws) :
    (isGenerator cs ↔ ∃ (g : Generator) (front back : List Char), cs = front ++ (g.name.toList ++ back) ∧ '\n' ∉ front) ∧
    (isGenerator cs ↔ ∃ k suffix, Call.Stands k suffix cs) ∧
    (isGenerator cs = false → generate now cs d = (cs, d)) ∧
    (∀ k suffix, Call.Stands k suffix cs →
      (k.generator.Exceeds k.length → (generate now cs d).2.used.overflowed) ∧
      (¬k.generator.Exceeds k.length → (generate now cs d).2.used.overflowed = d.used.overflowed ∧
        (∃ value, Promises now k.generator k.length value ∧ (generate now cs d).1 = k.before ++ (value ++ k.after)) ∧
        (generate now cs d).1 ≠ cs)) ∧
    (Text.trimChars cs = cs → isSpecial cs → ¬expressionMark.toList <+: cs →
      ∃ k suffix, Call.Stands k suffix cs ∧ k.before = []) := by
  refine ⟨isGenerator_iff, ?_, fun h => ?_, fun k suffix h => ⟨fun hlong => ?_, fun hfits => ?_⟩, fun htrim hspecial hmark => ?_⟩
  · rw [isGenerator, Option.isSome_iff_exists]
    exact exists_congr fun k => call?_eq_some_iff
  · rw [isGenerator, Option.isSome_eq_false_iff, Option.isNone_iff_eq_none] at h
    rw [generate, h]
    rfl
  · rw [generate_of_stands h]
    exact overflowed_draw _ hlong d
  · have hyields : (k.generator.draw now k.length).Yields (Promises now k.generator k.length) :=
      yields_draw k.generator hfits h.behind.pos
    obtain ⟨hvalue, hused⟩ := hyields d
    rw [generate_of_stands h]
    refine ⟨hused, ⟨_, hvalue, rfl⟩, fun hsame => hvalue.dollar_notMem ?_⟩
    rw [h.text, List.append_cancel_left_eq, ← List.append_assoc, List.append_cancel_right_eq] at hsame
    rw [hsame]
    exact List.mem_append_left _ (dollar_mem_name _)
  · simp only [isSpecial, htrim, Bool.or_eq_true, List.isPrefixOf_iff_prefix, hmark, false_or, List.any_eq_true] at hspecial
    obtain ⟨g, -, back, rfl⟩ := hspecial
    obtain ⟨length, suffix, after, rfl, hsuffix⟩ := exists_suffix back
    exact ⟨⟨[], g, length, after⟩, suffix, stands_head_iff.mpr ⟨rfl, hsuffix⟩, rfl⟩

/-- A length with a leading zero before another colon, a key of a name and a colon, and a length that fits a word and
not memory. -/
theorem generate_promises_lengths :
    (∃ value, Promises 0 randomInt (some 2) value ∧
      (generate 0 "a$randomInt:02:b".toList ⟨id, 0⟩).1 = ['a'] ++ (value ++ [':', 'b'])) ∧
    (∃ k suffix, Call.Stands k suffix "$guid:".toList ∧ k.before = []) ∧
    (generate 0 "$randomStr:9223372036854775808".toList ⟨id, 0⟩).2.used.overflowed := by
  have hshort : call? "a$randomInt:02:b".toList = some ⟨['a'], randomInt, some 2, [':', 'b']⟩ := by cbv
  have hlong : call? "$randomStr:9223372036854775808".toList = some ⟨[], randomStr, some 9223372036854775808, []⟩ := by
    cbv
  obtain ⟨suffix, hstands⟩ := call?_eq_some_iff.mp hshort
  obtain ⟨longSuffix, hlongStands⟩ := call?_eq_some_iff.mp hlong
  have hfits : ¬randomInt.Exceeds (some 2) := by
    rintro ⟨n, hn, hle⟩
    cases hn
    exact absurd hle (by decide)
  exact ⟨(((generate_promises 0 _ _).2.2.2.1 _ _ hstands).2 hfits).2.1,
    (generate_promises 0 "$guid:".toList ⟨id, 0⟩).2.2.2.2 (by decide +kernel) (by decide +kernel) (by decide +kernel),
    ((generate_promises 0 _ _).2.2.2.1 _ _ hlongStands).1 ⟨_, rfl, by decide⟩⟩

end Generator
end RequestLang
