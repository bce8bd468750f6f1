import RequestLang.Property.Evaluate
import RequestLang.Proofs.Arith.Comment
import RequestLang.Proofs.Property.Holes
import RequestLang.Proofs.Property.Run
import RequestLang.Proofs.Text.Word

/-! Comments inside arithmetic. Placeholders and names are filled in, but a comment outside them stays, so that
there is no value. -/
namespace RequestLang

/-- A comment stands in a text outside its placeholders. -/
def Remarked (cs : List Char) : Prop := ∃ ds, Segment.plain ds ∈ Segment.ofText cs ∧ Commented ds

namespace Remarked
open Segment
variable {cs : List Char}

theorem plain_mem_cons {c : Char} {ds : List Char} {segments : List Segment} (h : plain ds ∈ segments) :
    ∃ front, plain (front ++ ds) ∈ Segment.cons c segments := by
  cases segments with
  | nil => cases h
  | cons s rest =>
    cases s with
    | hole body => exact ⟨[], List.mem_cons_of_mem _ h⟩
    | plain es =>
      rcases List.mem_cons.mp h with heq | h
      · cases heq
        exact ⟨[c], List.mem_cons_self⟩
      · exact ⟨[], List.mem_cons_of_mem _ h⟩

theorem cons {c : Char} (h : Remarked cs) (hc : holeAt? (c :: cs) = none) : Remarked (c :: cs) := by
  obtain ⟨ds, hds, hcomment⟩ := h
  obtain ⟨front, hfront⟩ := plain_mem_cons (c := c) hds
  exact ⟨front ++ ds, by rwa [ofText_of_holeAt?_eq_none hc], hcomment.append_left front⟩

theorem append {front : List Char} (h : Remarked cs) (hfront : '\x7b' ∉ front) : Remarked (front ++ cs) := by
  induction front with
  | nil => exact h
  | cons c front ih =>
    rw [List.mem_cons, not_or] at hfront
    exact (ih hfront.2).cons (holeAt?_of_ne (Ne.symm hfront.1) _)

theorem of_hole {body rest : List Char} (h : Remarked rest) (hcs : holeAt? cs = some (body, rest)) : Remarked cs := by
  obtain ⟨ds, hds, hcomment⟩ := h
  exact ⟨ds, by rw [ofText_of_holeAt? hcs]; exact List.mem_cons_of_mem _ hds, hcomment⟩

theorem hash (cs : List Char) : Remarked ('#' :: cs) := by
  rw [Remarked, ofText_of_holeAt?_eq_none (holeAt?_of_ne (by decide) cs)]
  cases ofText cs with
  | nil => exact ⟨['#'], List.mem_cons_self, .hash []⟩
  | cons s rest =>
    cases s with
    | hole body => exact ⟨['#'], List.mem_cons_self, .hash []⟩
    | plain ds => exact ⟨'#' :: ds, List.mem_cons_self, .hash ds⟩

theorem slash {c : Char} (hc : c = '/' ∨ c = '*') (cs : List Char) : Remarked ('/' :: c :: cs) := by
  have hne : c ≠ '\x7b' := by rcases hc with rfl | rfl <;> decide
  rw [Remarked, ofText_of_holeAt?_eq_none (holeAt?_of_ne (by decide) _), ofText_of_holeAt?_eq_none (holeAt?_of_ne hne cs)]
  cases ofText cs with
  | nil => exact ⟨['/', c], List.mem_cons_self, .slash hc []⟩
  | cons s rest =>
    cases s with
    | hole body => exact ⟨['/', c], List.mem_cons_self, .slash hc []⟩
    | plain ds => exact ⟨'/' :: c :: ds, List.mem_cons_self, .slash hc ds⟩

theorem commented (h : Remarked cs) : Commented cs := by
  obtain ⟨ds, hds, hcomment⟩ := h
  obtain ⟨before, after, hsplit⟩ := List.append_of_mem hds
  rw [← flatMap_chars_ofText cs, hsplit, List.flatMap_append, List.flatMap_cons]
  exact (hcomment.append_right _).append_left _

end Remarked

namespace Resolve

theorem always_failOr {α : Type} {P : α → Prop} {a : α} (h : P a) (f : Failure) : Always P (failOr f a) :=
  .after _ fun _ => .ite (.after _ fun _ => .pure h) (.throw f)

/-- What stands between the placeholders of a text stays as it is. -/
theorem always_expandSegments {ds : List Char} {segments : List Segment} (h : Segment.plain ds ∈ segments)
    (hds : Commented ds) (failed : Option Failure) :
    Always (fun out => Commented out.1) (expandSegments segments failed) := by
  induction segments generalizing failed with
  | nil => cases h
  | cons s rest ih =>
    cases s with
    | plain es =>
      rcases List.mem_cons.mp h with heq | h
      · cases heq
        exact .after _ fun out => .pure (hds.append_right out.1)
      · exact .bind (ih h failed) fun out hout => .pure (hout.append_left es)
    | hole body =>
      have h := (List.mem_cons.mp h).resolve_left (by simp)
      have hrest (value : List Char) (failed : Option Failure) : Always (fun out => Commented out.1) (do
          let out ← expandSegments rest failed
          return (value ++ out.1, out.2)) :=
        .bind (ih h failed) fun out hout => .pure (hout.append_left value)
      exact .ite (.after _ fun out => hrest out.1 out.2) (.after _ fun out => hrest out.1 out.2)

theorem always_expand {text : String} (h : Remarked text.toList) :
    Always (fun expanded => Commented expanded.toList) (expand text) := by
  have hwhole := h.commented
  obtain ⟨ds, hds, hcomment⟩ := h
  rw [expand]
  refine .ite (.pure hwhole) (.after _ fun _ => .after _ fun r => ?_)
  split
  · refine .bind (always_expandSegments hds hcomment none) fun out hout => ?_
    rw [← String.toList_ofList (l := out.1)] at hout
    dsimp only
    split
    · exact always_failOr (P := fun expanded : String => Commented expanded.toList) hout _
    · exact .pure hout
  · exact always_failOr (P := fun expanded : String => Commented expanded.toList) hwhole _

/-- No name holds what opens a comment. -/
theorem plain_of_isNameChar {c : Char} (hc : Text.isNameChar c) : c ≠ '#' ∧ c ≠ '/' := by
  constructor <;> (rintro rfl; revert hc; decide)

theorem always_substitute_head {d : Char} (hd : Text.isNameStart d = false) (before : Option Char) (cs : List Char) :
    Always (fun out => ∃ more, out.1 = d :: more) (substitute before 0 (d :: cs)) := by
  rw [substitute, hd, Bool.and_false]
  exact .after _ fun out => .pure ⟨out.1, rfl⟩

theorem always_substitute {cs : List Char} (h : Commented cs) (before : Option Char) {skip : Nat}
    (hskip : ∀ c ∈ cs.take skip, Text.isNameChar c) :
    Always (fun out => Commented out.1) (substitute before skip cs) := by
  -- what is skipped is the rest of a name that was filled in, and no comment opens there
  induction cs generalizing before skip with
  | nil => cases h
  | cons c cs ih =>
    cases skip with
    | succ n =>
      rw [List.take_succ_cons, List.forall_mem_cons] at hskip
      have hc := plain_of_isNameChar hskip.1
      exact ih (h.tail hc.1 hc.2) (some c) hskip.2
    | zero =>
      rw [substitute]
      split
      · rename_i hname
        rw [Bool.and_eq_true] at hname
        have hc := plain_of_isNameChar (Text.isNameChar_of_isNameStart hname.2)
        have htail : ∀ d ∈ cs.take (cs.takeWhile Text.isNameChar).length, Text.isNameChar d := by
          rw [← List.prefix_iff_eq_take.mp (List.takeWhile_prefix _)]
          exact fun d hd => List.mem_takeWhile_imp hd
        refine .after _ fun value => .bind (ih (h.tail hc.1 hc.2) (some c) htail) fun out hout => ?_
        dsimp only
        split
        · exact .pure (hout.append_left _)
        · exact .pure (hout.append_left _)
      · cases h with
        | hash cs => exact .after _ fun out => .pure (.hash out.1)
        | slash hd cs =>
          rename_i d _
          have hstart : Text.isNameStart d = false := by rcases hd with rfl | rfl <;> decide
          refine .bind (always_substitute_head hstart _ cs) fun out hout => ?_
          obtain ⟨more, hmore⟩ := hout
          exact .pure (hmore ▸ .slash hd more)
        | cons _ h => exact .bind (ih h (some c) (by simp)) fun out hout => .pure (.cons c hout)

/-- Arithmetic with a comment in it has no value. -/
theorem evaluateArithmetic_remarked {text : String} (h : Remarked text.toList) :
    Always (fun _ => False) (evaluateArithmetic text) := by
  rw [evaluateArithmetic]
  refine .bind (always_expand h) fun expanded hexpanded => .bind (always_substitute hexpanded none (by simp)) fun out hout => ?_
  refine .ite (.after _ fun _ => ?_) ?_
  all_goals
    split
    · rename_i v hv
      exact absurd hv (Arith.evaluate_commented hout v)
    · exact .after _ fun _ => .throw _

end Resolve
end RequestLang
