import RequestLang.Property.Placeholder
import RequestLang.Proofs.Text.Search

/-! How a text falls apart into holes and what stands between them. -/
namespace RequestLang.Segment

/-- The first hole of a text: what is before it, its body and what is behind it. -/
structure First (cs before body rest : List Char) : Prop where
  stands : cs = before ++ (hole body).chars ++ rest
  leftmost : ∀ b d r, cs = b ++ (hole d).chars ++ r → before.length ≤ b.length
  shortest : ∀ d r, cs = before ++ (hole d).chars ++ r → body.length ≤ d.length

/-- A stretch without holes, which is left out when it is empty. -/
def between (cs : List Char) : List Segment := if cs.isEmpty then [] else [plain cs]

/-- One hole is taken after another, each the first one behind those before it. -/
inductive Splits : List Char → List Segment → Prop
  | last {cs : List Char} (h : ∀ b d r, cs ≠ b ++ (hole d).chars ++ r) : Splits cs (between cs)
  | next {cs before body rest : List Char} {segments : List Segment}
      (h : First cs before body rest) (hrest : Splits rest segments) :
      Splits cs (between before ++ hole body :: segments)

theorem First.unique {cs b₁ d₁ r₁ b₂ d₂ r₂ : List Char} (h₁ : First cs b₁ d₁ r₁)
    (h₂ : First cs b₂ d₂ r₂) : b₁ = b₂ ∧ d₁ = d₂ ∧ r₁ = r₂ := by
  have hb : b₁.length = b₂.length :=
    Nat.le_antisymm (h₁.leftmost _ _ _ h₂.stands) (h₂.leftmost _ _ _ h₁.stands)
  have hcs := h₁.stands.symm.trans h₂.stands
  simp only [List.append_assoc] at hcs
  obtain ⟨rfl, hbehind⟩ := List.append_inj hcs hb
  have hd : d₁.length = d₂.length :=
    Nat.le_antisymm (h₁.shortest _ _ h₂.stands) (h₂.shortest _ _ h₁.stands)
  obtain ⟨hchars, hr⟩ := List.append_inj hbehind (by simp [chars, hd])
  simp only [chars, List.cons_append, List.cons.injEq, true_and] at hchars
  exact ⟨rfl, (List.append_inj hchars hd).1, hr⟩

/-- There is one way to take a text apart. -/
theorem Splits.unique {cs : List Char} {s₁ s₂ : List Segment} (h₁ : Splits cs s₁)
    (h₂ : Splits cs s₂) : s₁ = s₂ := by
  induction h₁ generalizing s₂ with
  | last hnone =>
    cases h₂ with
    | last _ => rfl
    | next hfirst _ => exact absurd hfirst.stands (hnone _ _ _)
  | next hfirst _ ih =>
    cases h₂ with
    | last hnone => exact absurd hfirst.stands (hnone _ _ _)
    | next hfirst' hrest' =>
      obtain ⟨rfl, rfl, rfl⟩ := hfirst.unique hfirst'
      rw [ih hrest']

theorem scan_eq_scan_drop (n : Nat) (cs : List Char) : scan n cs = scan 0 (cs.drop n) := by
  induction cs generalizing n with
  | nil => simp [scan]
  | cons c cs ih =>
    cases n with
    | zero => rfl
    | succ n => simpa [scan] using ih n

theorem holeAt?_chars_append (d r : List Char) :
    ∃ body rest, holeAt? ((hole d).chars ++ r) = some (body, rest) ∧ body.length ≤ d.length := by
  obtain ⟨n, hn, hle⟩ := Text.through?_le ['}', '}'] d r
  have htwo : n - 2 ≤ d.length := by simpa using hle
  refine ⟨(d ++ ['}', '}'] ++ r).take (n - 2), (d ++ ['}', '}'] ++ r).drop n, ?_, ?_⟩
  · simp only [chars, List.cons_append, holeAt?, hn, Option.map_some]
  rw [List.length_take]
  exact Nat.le_trans (Nat.min_le_left _ _) htwo

theorem first_of_holeAt? {cs body rest : List Char} (h : holeAt? cs = some (body, rest)) :
    First cs [] body rest := by
  have hstands : cs = (hole body).chars ++ rest := by
    unfold holeAt? at h
    split at h
    · rename_i ds
      obtain ⟨n, hn, he⟩ := Option.map_eq_some_iff.mp h
      obtain ⟨before, hb, hlen⟩ := Text.take_of_through? hn
      simp only [Prod.mk.injEq] at he
      obtain ⟨rfl, rfl⟩ := he
      have htake : ds.take (n - 2) = before := by
        rw [hb, hlen]
        simp
      rw [htake]
      calc '{' :: '{' :: ds
        _ = '{' :: '{' :: (before ++ ['}', '}'] ++ ds.drop n) := by rw [← hb]
        _ = (hole before).chars ++ ds.drop n := by simp [chars]
    · cases h
  refine ⟨by simpa using hstands, by simp, fun d r hd => ?_⟩
  obtain ⟨body', rest', hat, hle⟩ := holeAt?_chars_append d r
  rw [List.nil_append] at hd
  rw [← hd, h, Option.some.injEq, Prod.mk.injEq] at hat
  rwa [hat.1]

theorem not_stands_of_holeAt?_eq_none {cs : List Char} (h : holeAt? cs = none) (d r : List Char) :
    cs ≠ (hole d).chars ++ r := by
  rintro rfl
  obtain ⟨_, _, hat, _⟩ := holeAt?_chars_append d r
  rw [h] at hat
  cases hat

theorem ofText_of_holeAt? {cs body rest : List Char} (h : holeAt? cs = some (body, rest)) :
    ofText cs = hole body :: ofText rest := by
  have hcs : cs = (hole body).chars ++ rest := (first_of_holeAt? h).stands
  cases cs with
  | nil => simp [chars] at hcs
  | cons c cs =>
    have hdrop : cs.drop (body.length + 3) = rest := by
      simp only [chars, List.cons_append, List.cons.injEq] at hcs
      rw [hcs.2]
      simp [List.drop_append]
    rw [ofText, scan, h]
    simp only [scan_eq_scan_drop (body.length + 3), hdrop, ofText]

theorem ofText_of_holeAt?_eq_none {c : Char} {cs : List Char} (h : holeAt? (c :: cs) = none) :
    ofText (c :: cs) = cons c (ofText cs) := by
  rw [ofText, scan, h]
  rfl

theorem holeAt?_of_ne {c : Char} (hc : c ≠ '\x7b') (cs : List Char) : holeAt? (c :: cs) = none := by
  unfold holeAt?
  split
  · rename_i h
    exact absurd (List.cons.inj h).1 hc
  · rfl

/-- A character that opens no hole goes to what stands before the first one. -/
theorem splits_cons {c : Char} {cs : List Char} {segments : List Segment}
    (hopen : ∀ d r, c :: cs ≠ (hole d).chars ++ r) (h : Splits cs segments) :
    Splits (c :: cs) (cons c segments) := by
  cases h with
  | last hnone =>
    have : cons c (between cs) = between (c :: cs) := by
      cases cs <;> rfl
    rw [this]
    refine .last fun b d r hcs => ?_
    cases b with
    | nil => exact hopen d r hcs
    | cons e b => exact hnone b d r (List.cons.inj hcs).2
  | @next _ before body rest segments hfirst hrest =>
    have : cons c (between before ++ hole body :: segments) =
        between (c :: before) ++ hole body :: segments := by
      cases before <;> rfl
    rw [this]
    refine .next ⟨by rw [hfirst.stands]; rfl, fun b d r hcs => ?_, fun d r hcs => ?_⟩ hrest
    · cases b with
      | nil => exact absurd hcs (hopen d r)
      | cons e b => exact Nat.succ_le_succ (hfirst.leftmost b d r (List.cons.inj hcs).2)
    · exact hfirst.shortest d r (List.cons.inj hcs).2

theorem splits_ofText (cs : List Char) : Splits cs (ofText cs) := by
  induction hn : cs.length using Nat.strongRecOn generalizing cs with
  | ind n ih =>
    cases cs with
    | nil => exact .last (by simp [chars])
    | cons c cs =>
      cases h : holeAt? (c :: cs) with
      | none =>
        rw [ofText_of_holeAt?_eq_none h]
        refine splits_cons (not_stands_of_holeAt?_eq_none h) (ih cs.length ?_ cs rfl)
        simp [← hn]
      | some found =>
        obtain ⟨body, rest⟩ := found
        have hfirst := first_of_holeAt? h
        rw [ofText_of_holeAt? h]
        refine .next hfirst (ih rest.length ?_ rest rfl)
        rw [← hn, hfirst.stands]
        simp [chars]
        omega

/-- Reading from left to right finds the first hole, then the first one behind it, and so on. -/
theorem splits_iff {cs : List Char} {segments : List Segment} :
    Splits cs segments ↔ segments = ofText cs := by
  constructor
  · intro h
    exact h.unique (splits_ofText cs)
  · rintro rfl
    exact splits_ofText cs

/-- Nothing of a text is lost. -/
theorem flatMap_chars_ofText (cs : List Char) : (ofText cs).flatMap chars = cs := by
  have hbetween (ds : List Char) : (between ds).flatMap chars = ds := by
    cases ds <;> simp [between, chars]
  have h := splits_ofText cs
  generalize ofText cs = segments at h
  induction h with
  | last _ => exact hbetween _
  | next hfirst _ ih =>
    rw [List.flatMap_append, List.flatMap_cons, ih, hbetween, ← List.append_assoc]
    exact hfirst.stands.symm

section Closed
variable {cs ds : List Char}

/-- No placeholder that opens in the text is open at its end. -/
def Closed (cs : List Char) : Prop := ∀ rest, bodies (cs ++ rest) = bodies cs ++ bodies rest

namespace Closed

theorem nil : Closed [] := fun _ => rfl

theorem append (hcs : Closed cs) (hds : Closed ds) : Closed (cs ++ ds) := fun rest => by
  rw [List.append_assoc, hcs, hds, hcs, List.append_assoc]

theorem of_append (hcs : Closed cs) (h : Closed (cs ++ ds)) : Closed ds := fun rest => by
  have hrest := h rest
  rw [List.append_assoc, hcs, hcs, List.append_assoc] at hrest
  exact List.append_cancel_left hrest

end Closed

theorem bodies_cons {c : Char} (hc : c ≠ '\x7b') (cs : List Char) : bodies (c :: cs) = bodies cs := by
  rw [bodies, ofText_of_holeAt?_eq_none (holeAt?_of_ne hc cs), bodies]
  cases ofText cs with
  | nil => rfl
  | cons s rest => cases s <;> rfl

theorem Closed.plain (h : '\x7b' ∉ cs) : Closed cs := by
  induction cs with
  | nil => exact .nil
  | cons c cs ih =>
    rw [List.mem_cons, not_or] at h
    intro rest
    rw [List.cons_append, bodies_cons (Ne.symm h.1), bodies_cons (Ne.symm h.1), ih h.2]

theorem bodies_plain (h : '\x7b' ∉ cs) : bodies cs = [] := by
  induction cs with
  | nil => rfl
  | cons c cs ih =>
    rw [List.mem_cons, not_or] at h
    rw [bodies_cons (Ne.symm h.1), ih h.2]

theorem Closed.hole {body : List Char} (h : Text.through? ['\x7d', '\x7d'] (body ++ ['\x7d', '\x7d']) = some (body.length + 2)) :
    Closed (Segment.hole body).chars := by
  have hbodies (rest : List Char) : bodies ((Segment.hole body).chars ++ rest) = body :: bodies rest := by
    have hat : holeAt? ((Segment.hole body).chars ++ rest) = some (body, rest) := by
      simp only [chars, List.cons_append, holeAt?, Text.through?_append h rest]
      simp
    rw [bodies, ofText_of_holeAt? hat]
    rfl
  intro rest
  have hself := hbodies []
  rw [List.append_nil] at hself
  rw [hbodies, hself]
  rfl

end Closed

end RequestLang.Segment
