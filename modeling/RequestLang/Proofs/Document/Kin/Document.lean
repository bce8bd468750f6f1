import RequestLang.Loading
import RequestLang.Proofs.Document.Kin.Request

/-! Texts that differ in their comments: they are read, or not, as documents with the same imports, with variables
of the same values and with requests of the same names. -/
namespace RequestLang
open Cursor (Paired)

variable {c d : Cursor}

namespace Request
variable {r s : Request}

theorem readName_kin (hr : r.Kin s) (h : c.Kin d) : Tracks (Paired Request.Kin) (r.readName c) (s.readName d) := by
  -- the end, where the base may stand behind the parentheses instead
  have hclose {c d : Cursor} {r s : Request} (hr : r.Kin s) (h : c.Kin d) : Tracks (Paired Request.Kin)
      (do
        let c ← c.expectPunct ")" "')'"
        if r.base.isNone && c.skipInline.isPunct ":" then
          let read ← c.skipInline.advance.skipInline.textValue "base request name"
          return ({ r with base := some read.1 }, read.2)
        return (r, c.skipInline))
      (do
        let d ← d.expectPunct ")" "')'"
        if s.base.isNone && d.skipInline.isPunct ":" then
          let read ← d.skipInline.advance.skipInline.textValue "base request name"
          return ({ s with base := some read.1 }, read.2)
        return (s, d.skipInline)) := by
    refine (h.expectPunct _ _).bind fun c d h => ?_
    rw [← Option.not_isSome, ← Option.not_isSome, ← hr.base, ← h.skipInline.isPunct]
    split
    · refine (h.skipInline.advance.skipInline.textValue _).value fun base c d h => ?_
      exact .ok ⟨⟨hr.name, rfl, hr.auth, hr.certificate, hr.payload⟩, h⟩
    · exact .ok ⟨hr, h.skipInline⟩
  rw [readName, readName, ← hr.name]
  split
  · exact .error _ _
  · refine (h.advance.skipInline.expectPunct _ _).bind fun c d h => ?_
    refine (h.skip.textValue _).value fun name c d h => ?_
    dsimp only
    rw [← h.skip.isPunct]
    split
    · refine (h.skip.advance.skip.textValue _).value fun base c d h => ?_
      exact hclose ⟨rfl, rfl, hr.auth, hr.certificate, hr.payload⟩ h.skip
    · exact hclose ⟨rfl, hr.base, hr.auth, hr.certificate, hr.payload⟩ h.skip

theorem readTag_kin (hr : r.Kin s) (h : c.Kin d) {t u : Token} (htu : t.text = u.text) :
    Tracks (Paired Request.Kin) (r.readTag t c) (s.readTag u d) := by
  unfold readTag
  rw [← htu]
  split
  · exact readName_kin hr h
  · exact .ok ⟨⟨hr.name, hr.base, hr.auth, hr.certificate, hr.payload⟩, h.advance⟩
  · exact .ok ⟨⟨hr.name, hr.base, hr.auth, hr.certificate, hr.payload⟩, h.advance⟩
  · exact .ok ⟨⟨hr.name, hr.base, hr.auth, hr.certificate, hr.payload⟩, h.advance⟩
  · dsimp only
    rw [← h.advance.isPunct]
    split
    · exact .error _ _
    · refine (h.advance.advance.skip.textValue _).value fun value c d h => ?_
      refine (h.skip.expectPunct _ _).bind fun c d h => ?_
      exact .ok ⟨⟨hr.name, hr.base, hr.auth, hr.certificate, hr.payload⟩, h⟩

theorem readTags_kin (n : Nat) (hr : r.Kin s) (h : c.Kin d) :
    Tracks (Paired Request.Kin) (readTags n r c) (readTags n s d) := by
  induction n generalizing r s c d with
  | zero => exact .ok ⟨hr, h⟩
  | succ n ih =>
    have htoken := h.token?
    rw [readTags, readTags]
    generalize c.token? = x, d.token? = y at htoken ⊢
    cases htoken with
    | none => exact .ok ⟨hr, h⟩
    | some htu =>
      dsimp only
      rw [← htu.kind]
      split
      · rename_i hk
        exact (readTag_kin hr h (htu.text (by simp [hk]))).paired fun _ _ _ _ hr h => ih hr h.skip
      · exact .ok ⟨hr, h⟩

theorem readTarget_kin (hr : r.Kin s) (h : c.Kin d) : Tracks (Paired Request.Kin) (r.readTarget c) (s.readTarget d) := by
  have htoken := h.token?
  rw [readTarget, readTarget]
  generalize c.token? = x, d.token? = y at htoken ⊢
  cases htoken with
  | none => exact .error _ _
  | @some t u htu =>
    dsimp only
    rw [← htu.kind]
    split
    · rename_i hk
      rw [← htu.text (by simp [hk])]
      split
      · refine (h.advance.skipInline.textValue _).value fun url c d h => ?_
        exact .ok ⟨⟨hr.name, hr.base, hr.auth, hr.certificate, hr.payload⟩, h⟩
      · exact .error _ _
    · refine (h.textValue _).value fun url c d h => ?_
      exact .ok ⟨⟨hr.name, hr.base, hr.auth, hr.certificate, hr.payload⟩, h⟩

theorem repeated?_kin (hr : r.Kin s) (kind : ClauseKind) : r.repeated? kind = s.repeated? kind := by
  cases kind <;> simp only [repeated?, hr.auth, hr.certificate, hr.payload]

theorem readClauses_kin (n : Nat) (hr : r.Kin s) (h : c.Kin d) :
    Tracks (Paired Request.Kin) (readClauses n r c) (readClauses n s d) := by
  induction n generalizing r s c d with
  | zero => exact .ok ⟨hr, h⟩
  | succ n ih =>
    rw [readClauses, readClauses]
    dsimp only
    rw [← ClauseKind.at?_kin h.skip]
    split
    · exact .ok ⟨hr, h.skip⟩
    · rw [← repeated?_kin hr]
      split
      · exact .error _ _
      · refine (Clause.read_kin _ h.skip fun _ => Cursor.Kin.kind_of_skip).paired fun a b c d hab h => ?_
        dsimp only
        split
        · exact .ok ⟨hab _ _ hr, h⟩
        · exact ih (hab _ _ hr) h

theorem startsAt_kin (h : c.Kin d) : startsAt c = startsAt d := by
  have htoken := h.token?
  rw [startsAt, startsAt, ← h.opensHeader]
  generalize c.token? = x, d.token? = y at htoken ⊢
  cases htoken with
  | none => rfl
  | @some t u htu =>
    dsimp only
    rw [← htu.kind]
    by_cases ht : t.kind = .comment
    · rw [ht]
    · rw [htu.text ht]

theorem read_kin (source : Option String) (h : c.Kin d) : Tracks (Paired Request.Kin) (read source c) (read source d) := by
  rw [read, read]
  dsimp only
  rw [← h.length]
  have hblank : Request.Kin { description := c.leadingComments?, source } { description := d.leadingComments?, source } :=
    ⟨rfl, rfl, rfl, rfl, rfl⟩
  refine (readTags_kin _ hblank h).paired fun r s c d hr h => ?_
  refine (readTarget_kin hr h).paired fun r s c d hr h => ?_
  dsimp only
  rw [← h.length]
  refine (readClauses_kin _ hr h).paired fun r s c d hr h => .ok ⟨?_, h⟩
  exact ⟨hr.name, hr.base, hr.auth, hr.certificate, hr.payload⟩

end Request

theorem Import.read_kin (h : c.Kin d) : Tracks (Paired fun i j => i.path = j.path) (Import.read c) (Import.read d) := by
  refine (h.advance.skip.textValue _).value fun path c d h => ?_
  dsimp only
  rw [← h.skipInline.isPunct]
  split
  · exact .ok ⟨rfl, h.skipInline.advance⟩
  · exact .ok ⟨rfl, h.skipInline⟩

/-- Variables of the same name and the same value. -/
structure Variable.Kin (v w : Variable) : Prop where
  name : v.name = w.name
  value : Resolve.Matches Eq v.valueOf w.valueOf

namespace VariableBody

theorem argumentsWithin_kin (n : Nat) (h : c.Kin d) :
    Tracks (Paired Eq) (argumentsWithin n c) (argumentsWithin n d) := by
  induction n generalizing c d with
  | zero => exact .error _ _
  | succ n ih =>
    have htoken := h.skip.token?
    rw [argumentsWithin, argumentsWithin]
    dsimp only
    generalize hc : c.skip.token? = x, d.skip.token? = y at htoken ⊢
    cases htoken with
    | none => exact .error _ _
    | @some t u htu =>
      have hcomment := Cursor.Kin.kind_of_skip hc
      dsimp only
      rw [← htu.isPunct, ← htu.kind, ← htu.text hcomment, ← htu.literal hcomment]
      split
      · exact .ok ⟨rfl, h.skip.advance⟩
      · have hrest (value : String) : Tracks (Paired Eq)
            (do
              let rest ← argumentsWithin n
                (if c.skip.advance.skip.isPunct "," then c.skip.advance.skip.advance else c.skip.advance.skip)
              return (value :: rest.1, rest.2))
            (do
              let rest ← argumentsWithin n
                (if d.skip.advance.skip.isPunct "," then d.skip.advance.skip.advance else d.skip.advance.skip)
              return (value :: rest.1, rest.2)) := by
          rw [← h.skip.advance.skip.isPunct]
          split
          · exact (ih h.skip.advance.skip.advance).value fun rest c d h => .ok ⟨rfl, h⟩
          · exact (ih h.skip.advance.skip).value fun rest c d h => .ok ⟨rfl, h⟩
        split <;> first | exact hrest _ | exact .error _ _

/-- Bodies of the same value, whatever the variable is called. -/
def Kin (a b : VariableBody) : Prop :=
  ∀ (name : String) (x y : Span), Resolve.Matches Eq (Variable.valueOf ⟨name, a, x⟩) (Variable.valueOf ⟨name, b, y⟩)

theorem read_kin (h : c.Kin d) : Tracks (Paired VariableBody.Kin) (read c) (read d) := by
  have htoken := h.token?
  have hnext := h.next?
  have hcall := Cursor.Kin.test hnext fun _ _ htu => htu.isPunct "("
  have hterm : Tracks (Paired VariableBody.Kin)
      (do
        let read ← JsonTerm.read c
        return (.value read.1, read.2))
      (do
        let read ← JsonTerm.read d
        return (.value read.1, read.2)) :=
    (JsonTerm.read_kin h).paired fun _ _ c d ht h => .ok ⟨fun _ _ _ => ht.bind fun _ _ hv => hv ▸ .refl _, h⟩
  rw [read, read, ← hcall]
  generalize c.token? = x, d.token? = y at htoken ⊢
  generalize c.next? = x', d.next? = y' at hnext ⊢
  cases htoken with
  | none => exact .error _ _
  | @some t u htu =>
    dsimp only
    rw [← htu.kind]
    by_cases hk : t.kind = .identifier
    · rw [← htu.text (by simp [hk])]
      split
      · rw [← h.advance.advance.length]
        exact (argumentsWithin_kin _ h.advance.advance).value fun args c d h => .ok ⟨fun _ _ _ => .refl _, h⟩
      · cases hnext with
        | none => exact hterm
        | @some m n hmn =>
          dsimp only
          rw [← hmn.isString]
          split
          · rename_i hm
            have hcomment : m.kind ≠ .comment := by
              intro hk
              simp [Token.isString, hk] at hm
            rw [← hmn.literal hcomment]
            exact .ok ⟨fun _ _ _ => .refl _, h.advance.advance⟩
          · exact hterm
    · simp only [hk, false_and, if_false]
      cases hnext with
      | none => exact hterm
      | some => exact hterm

end VariableBody

theorem Variable.read_kin (h : c.Kin d) : Tracks (Paired Variable.Kin) (Variable.read c) (Variable.read d) := by
  have hplain (t u : Token) (htu : t.Kin u) : (t.kind == .identifier && !t.text.startsWith "$") =
      (u.kind == .identifier && !u.text.startsWith "$") := htu.ofKind (by decide) (!·.startsWith "$")
  refine (h.advance.skip.expect hplain _).bind fun name name' hname => ?_
  refine (h.advance.skip.advance.skip.expect (fun _ _ htu => htu.isOp _) _).bind fun _ _ _ => ?_
  refine (VariableBody.read_kin h.advance.skip.advance.skip.advance.skip).paired fun a b c d hbody h => ?_
  refine (h.skip.expectPunct _ _).bind fun c d h => .ok ⟨?_, h⟩
  have hcomment : name.kind ≠ .comment := Cursor.Kin.kind_of_skip hname.2.1
  rw [← hname.1.text hcomment]
  exact ⟨rfl, hbody _ _ _⟩

namespace Document

/-- Documents that load alike as far as properties go. -/
structure Kin (a b : Document) : Prop where
  imports : a.imports.map Import.path = b.imports.map Import.path
  vars : List.Forall₂ Variable.Kin a.vars b.vars
  requests : List.Forall₂ Request.Kin a.requests b.requests

theorem readWithin_kin (source : Option String) (n : Nat) {a b : Document} (hab : a.Kin b) (h : c.Kin d) :
    Tracks Kin (readWithin source n a c) (readWithin source n b d) := by
  induction n generalizing a b c d with
  | zero => exact .ok hab
  | succ n ih =>
    have htoken := h.skip.token?
    rw [readWithin, readWithin]
    dsimp only
    rw [← h.skip.isKeyword, ← h.skip.isKeyword, ← Request.startsAt_kin h.skip]
    generalize c.skip.token? = x, d.skip.token? = y at htoken ⊢
    cases htoken with
    | none => exact .ok hab
    | some htu =>
      dsimp only
      split
      · refine (Import.read_kin h.skip).paired fun i j c d hi h => ih ⟨?_, hab.vars, hab.requests⟩ h
        rw [List.map_append, List.map_append, hab.imports]
        exact congrArg (b.imports.map Import.path ++ [·]) hi
      split
      · refine (Variable.read_kin h.skip).paired fun v w c d hv h => ih ⟨hab.imports, ?_, hab.requests⟩ h
        exact List.rel_append hab.vars (.cons hv .nil)
      split
      · refine (Request.read_kin source h.skip).paired fun r s c d hr h => ih ⟨hab.imports, hab.vars, ?_⟩ h
        exact List.rel_append hab.requests (.cons hr .nil)
      · exact .error _ _

end Document
end RequestLang
