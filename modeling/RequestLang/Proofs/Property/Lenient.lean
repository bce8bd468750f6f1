import RequestLang.Proofs.Property.Plan

/-! Terms as plans: which texts the JSON of a term is made of, and where arithmetic is computed for it. -/
namespace RequestLang

/-- What is expanded for a text that may be one placeholder and nothing else. -/
def soleText (text : String) : String :=
  if (soleHole? (Text.trim text).toList).isSome then Text.trim text else text

def JsonKey.text : JsonKey → String
  | .literal l => l.value
  | .reference text => soleText text

mutual

/-- Arithmetic stands somewhere in the term. -/
def JsonTerm.computes : JsonTerm → Bool
  | .arithmetic _ => true
  | .array items => JsonTerm.itemsCompute items
  | .object members => JsonTerm.membersCompute members
  | _ => false

def JsonTerm.itemsCompute : List JsonTerm → Bool
  | [] => false
  | t :: ts => t.computes || JsonTerm.itemsCompute ts

def JsonTerm.membersCompute : List (JsonKey × JsonTerm) → Bool
  | [] => false
  | (_, t) :: ms => t.computes || JsonTerm.membersCompute ms

end

mutual

/-- The texts of a term, in the order in which they are expanded. -/
def JsonTerm.texts : JsonTerm → List String
  | .null | .bool _ | .number _ => []
  | .literal l => [l.value]
  | .reference text => [soleText (Resolve.referenceText text)]
  | .arithmetic text => [text]
  | .array items => JsonTerm.itemTexts items
  | .object members => JsonTerm.memberTexts members

def JsonTerm.itemTexts : List JsonTerm → List String
  | [] => []
  | t :: ts => t.texts ++ JsonTerm.itemTexts ts

def JsonTerm.memberTexts : List (JsonKey × JsonTerm) → List String
  | [] => []
  | (k, t) :: ms => k.text :: (t.texts ++ JsonTerm.memberTexts ms)

end

namespace Resolve
variable {P : Prop}

theorem follows_expandJson (text : String) : Follows P [soleText text] (expandJson text) := by
  unfold expandJson soleText
  dsimp only
  cases soleHole? (Text.trim text).toList with
  | none => exact (Follows.expand _).map fun _ => .pure _
  | some body =>
    refine (Follows.expand _).map fun value => .ite (.pure _) ?_
    split <;> exact .pure _

theorem follows_evaluateKey (key : JsonKey) : Follows P [key.text] (evaluateKey key) := by
  cases key with
  | literal l => exact .expand _
  | reference text => exact (follows_expandJson text).map fun _ => .pure _

mutual

theorem follows_evaluate (t : JsonTerm) : Follows t.computes t.texts (evaluate t) := by
  cases t with
  | null | bool | number =>
    rw [evaluate, JsonTerm.texts]
    exact .pure _
  | literal l =>
    rw [evaluate, JsonTerm.texts]
    exact (Follows.expand l.value).map fun _ => .pure _
  | reference text =>
    rw [evaluate, JsonTerm.texts]
    exact follows_expandJson _
  | arithmetic text =>
    rw [evaluate, JsonTerm.texts, JsonTerm.computes]
    exact (Follows.evaluateArithmetic text).mono fun _ => rfl
  | array items =>
    rw [evaluate, JsonTerm.texts, JsonTerm.computes]
    exact (follows_evaluateItems items).map fun _ => .pure _
  | object members =>
    rw [evaluate, JsonTerm.texts, JsonTerm.computes]
    exact (follows_evaluateMembers [] members).map fun _ => .pure _

theorem follows_evaluateItems (ts : List JsonTerm) :
    Follows (JsonTerm.itemsCompute ts) (JsonTerm.itemTexts ts) (evaluateItems ts) := by
  cases ts with
  | nil =>
    rw [evaluateItems, JsonTerm.itemTexts]
    exact .pure _
  | cons t ts =>
    rw [evaluateItems, JsonTerm.itemTexts, JsonTerm.itemsCompute, Bool.or_eq_true]
    exact ((follows_evaluate t).mono .inl).bind fun _ =>
      ((follows_evaluateItems ts).mono .inr).map fun _ => .pure _

theorem follows_evaluateMembers (acc : List (String × Json)) (ms : List (JsonKey × JsonTerm)) :
    Follows (JsonTerm.membersCompute ms) (JsonTerm.memberTexts ms) (evaluateMembers acc ms) := by
  cases ms with
  | nil =>
    rw [evaluateMembers, JsonTerm.memberTexts]
    exact .pure _
  | cons m ms =>
    obtain ⟨k, t⟩ := m
    rw [evaluateMembers, JsonTerm.memberTexts, JsonTerm.membersCompute, Bool.or_eq_true]
    exact (follows_evaluateKey k).bind fun _ => ((follows_evaluate t).mono .inl).bind fun _ =>
      (follows_evaluateMembers _ ms).mono .inr

end

end Resolve
end RequestLang
