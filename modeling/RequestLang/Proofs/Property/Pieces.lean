import RequestLang.Proofs.Property.Expansion

/-! Texts put together from pieces. The holes among the pieces are found again, and filling them fills the pieces. -/
namespace RequestLang

namespace Segment
variable {pieces segments : List Segment}

/-- What stays a piece of any text: no hole opens in a stretch, and a hole ends where its body does. -/
def Whole : Segment → Prop
  | plain cs => '\x7b' ∉ cs
  | hole body => Text.through? ['\x7d', '\x7d'] (body ++ ['\x7d', '\x7d']) = some (body.length + 2)

/-- Stretches taken apart into their characters. -/
def grains (segments : List Segment) : List Segment :=
  segments.flatMap fun
    | plain cs => cs.map fun c => plain [c]
    | hole body => [hole body]

theorem grains_plain (cs : List Char) (rest : List Segment) :
    grains (plain cs :: rest) = (cs.map fun c => plain [c]) ++ grains rest := rfl

theorem grains_hole (body : List Char) (rest : List Segment) : grains (hole body :: rest) = hole body :: grains rest := rfl

theorem grains_cons (c : Char) (segments : List Segment) : grains (cons c segments) = plain [c] :: grains segments := by
  cases segments with
  | nil => rfl
  | cons s rest => cases s <;> rfl

theorem grains_ofText_append {cs : List Char} (h : '\x7b' ∉ cs) (rest : List Char) :
    grains (ofText (cs ++ rest)) = (cs.map fun c => plain [c]) ++ grains (ofText rest) := by
  induction cs with
  | nil => rfl
  | cons c cs ih =>
    rw [List.mem_cons, not_or] at h
    rw [List.cons_append, ofText_of_holeAt?_eq_none (holeAt?_of_ne (Ne.symm h.1) _), grains_cons, ih h.2]
    rfl

theorem ofText_hole_append {body : List Char} (h : (hole body).Whole) (rest : List Char) :
    ofText ((hole body).chars ++ rest) = hole body :: ofText rest := by
  refine ofText_of_holeAt? ?_
  simp only [chars, List.cons_append, holeAt?, Text.through?_append h rest]
  simp

/-- The pieces are found again, except that stretches side by side are joined. -/
theorem grains_ofText (h : ∀ s ∈ pieces, s.Whole) : grains (ofText (pieces.flatMap chars)) = grains pieces := by
  induction pieces with
  | nil => rfl
  | cons s pieces ih =>
    rw [List.forall_mem_cons] at h
    rw [List.flatMap_cons]
    cases s with
    | plain cs => rw [chars, grains_ofText_append h.1, ih h.2, grains_plain]
    | hole body => rw [ofText_hole_append h.1, grains_hole, ih h.2, grains_hole]

theorem filterMap_body?_grains (segments : List Segment) :
    (grains segments).filterMap body? = segments.filterMap body? := by
  induction segments with
  | nil => rfl
  | cons s rest ih =>
    cases s with
    | plain cs =>
      have hnone : (cs.map fun c => plain [c]).filterMap body? = [] := by simp [List.filterMap_map, body?]
      rw [grains_plain, List.filterMap_append, hnone, ih]
      rfl
    | hole body => exact congrArg (body :: ·) ih

theorem filterMap_body?_ofText (h : ∀ s ∈ pieces, s.Whole) :
    (ofText (pieces.flatMap chars)).filterMap body? = pieces.filterMap body? := by
  rw [← filterMap_body?_grains, grains_ofText h, filterMap_body?_grains]

theorem names_ofText (h : ∀ s ∈ pieces, s.Whole) : names (ofText (pieces.flatMap chars)) = names pieces := by
  rw [names, filterMap_body?_ofText h, names]

end Segment

namespace Resolver
open Segment
variable {r : Resolver} {pieces : List Segment} {d d' : Draws} {out : List Char}

theorem recorded_ofText (h : ∀ s ∈ pieces, s.Whole) : r.recorded (ofText (pieces.flatMap chars)) = r.recorded pieces := by
  rw [recorded, filterMap_body?_ofText h, recorded]

theorem unknown_ofText (h : ∀ s ∈ pieces, s.Whole) : r.unknown (ofText (pieces.flatMap chars)) = r.unknown pieces := by
  rw [unknown, names_ofText h, unknown]

theorem Fills.plain_iff {cs : List Char} {rest : List Segment} :
    Fills r d (.plain cs :: rest) out d' ↔ ∃ text, out = cs ++ text ∧ Fills r d rest text d' := by
  constructor
  · intro h
    cases h with
    | plain h => exact ⟨_, rfl, h⟩
  · rintro ⟨text, rfl, h⟩
    exact .plain h

end Resolver

namespace Resolve
open Resolver
variable {pieces : List Segment}

theorem expandSegments_plain (cs : List Char) (rest : List Segment) (failed : Option Failure) :
    expandSegments (.plain cs :: rest) failed = do
      let (text, failed) ← expandSegments rest failed
      return (cs ++ text, failed) := rfl

/-- Pieces side by side are expanded one after the other. -/
theorem expandSegments_append (pieces rest : List Segment) (failed : Option Failure) :
    expandSegments (pieces ++ rest) failed = do
      let (front, failed) ← expandSegments pieces failed
      let (text, failed) ← expandSegments rest failed
      return (front ++ text, failed) := by
  induction pieces generalizing failed with
  | nil => simp [expandSegments]
  | cons s pieces ih =>
    cases s with
    | plain cs => simp only [List.cons_append, expandSegments, ih, bind_assoc, pure_bind, List.append_assoc]
    | hole body =>
      simp only [List.cons_append, expandSegments, ih, bind_assoc, pure_bind]
      split <;> simp only [bind_assoc, pure_bind, List.append_assoc]

/-- It does not matter how finely stretches are taken apart. -/
theorem expandSegments_grains (pieces : List Segment) (failed : Option Failure) :
    expandSegments (Segment.grains pieces) failed = expandSegments pieces failed := by
  have hchars (cs : List Char) (rest : List Segment) (failed : Option Failure) :
      expandSegments ((cs.map fun c => .plain [c]) ++ rest) failed = expandSegments (.plain cs :: rest) failed := by
    induction cs with
    | nil => simp [expandSegments]
    | cons c cs ih =>
      rw [List.map_cons, List.cons_append, expandSegments_plain, ih]
      simp [expandSegments]
  induction pieces generalizing failed with
  | nil => rfl
  | cons s pieces ih =>
    cases s with
    | plain cs => rw [Segment.grains_plain, hchars, expandSegments_plain, ih, expandSegments_plain]
    | hole body => simp only [Segment.grains_hole, expandSegments, ih]

theorem expandSegments_ofText (h : ∀ s ∈ pieces, s.Whole) (failed : Option Failure) :
    expandSegments (Segment.ofText (pieces.flatMap Segment.chars)) failed = expandSegments pieces failed := by
  rw [← expandSegments_grains, Segment.grains_ofText h, expandSegments_grains]

/-- What an expansion does to a text, by its pieces. -/
theorem on_expand_pieces (r : Resolver) (h : ∀ s ∈ pieces, s.Whole) :
    let text := String.ofList (pieces.flatMap Segment.chars)
    on (expand text) r = on (fill ((r.recorded pieces).unknown pieces) text pieces) (r.recorded pieces) := by
  intro text
  have hexpand := on_expand_fill r (Segment.splits_ofText text.toList)
  simp only [text, String.toList_ofList, recorded_ofText h, unknown_ofText h] at hexpand
  rw [hexpand]
  cases (r.recorded pieces).unknown pieces with
  | nil => simp only [fill, expandSegments_ofText h]
  | cons name names => rfl

end Resolve
end RequestLang
