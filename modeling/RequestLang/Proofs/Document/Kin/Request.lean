import RequestLang.Document.Reader
import RequestLang.Proofs.Document.Kin.Term

/-! Texts that differ in their comments: the requests that are read from them go by the same names. -/
namespace RequestLang
open Cursor (Paired)

variable {c d : Cursor}

namespace Argument

theorem isNamed_kin (h : c.Kin d) : isNamed c = isNamed d := by
  have hsignificant : ∀ t ∈ c.nextSignificant?, t.kind ≠ .comment := fun t ht hk => by
    have := List.find?_some ht
    simp [Token.isIgnorable, hk] at this
  have htoken := h.token?
  have hnext := h.nextSignificant?
  rw [isNamed, isNamed]
  generalize c.token? = x, d.token? = y at htoken ⊢
  generalize c.nextSignificant? = x', d.nextSignificant? = y' at hnext hsignificant ⊢
  cases htoken with
  | none => rfl
  | some htu =>
    cases hnext with
    | none => simp [htu.kind]
    | some hnext => simp [htu.kind, hnext.isOp, hnext.text (hsignificant _ rfl)]

theorem readName_kin (h : c.Kin d) : Paired Eq (readName c) (readName d) := by
  rw [readName, readName, ← isNamed_kin h]
  split
  · rename_i hnamed
    refine ⟨?_, h.advance.skip.advance.skip⟩
    have htoken := h.token?
    rw [isNamed] at hnamed
    generalize c.token? = x, d.token? = y at htoken hnamed ⊢
    cases htoken with
    | none => rfl
    | @some t u htu =>
      have hcomment : t.kind ≠ .comment := by
        intro hk
        simp [hk] at hnamed
      exact congrArg some (htu.text hcomment)
  · exact ⟨rfl, h⟩

theorem readWithin_kin (n : Nat) (h : c.Kin d) : Tracks (Paired Eq) (readWithin n c) (readWithin n d) := by
  induction n generalizing c d with
  | zero => exact .error _ _
  | succ n ih =>
    rw [readWithin, readWithin]
    dsimp only
    rw [← h.skip.isPunct]
    split
    · exact .ok ⟨rfl, h.skip.advance⟩
    · obtain ⟨hname, h⟩ := readName_kin h.skip
      rw [← hname]
      refine (h.textValue _).value fun value c d h => ?_
      dsimp only
      rw [← h.skip.isPunct, ← h.skip.isPunct, ← h.skip.atEnd]
      split
      · exact (ih h.skip.advance).value fun args c d h => .ok ⟨rfl, h⟩
      split
      · exact .ok ⟨rfl, h.skip.advance⟩
      split
      · exact .error _ _
      · exact .error _ _

theorem readAll_kin (h : c.Kin d) : Tracks (Paired Eq) (readAll c) (readAll d) := by
  refine (h.expectPunct _ _).bind fun c d h => ?_
  rw [h.length]
  exact readWithin_kin _ h

theorem pickRequired_kin (args : List Argument) (call call' : Token) (name : String) (place : Nat) :
    Tracks Eq (pickRequired args call name place) (pickRequired args call' name place) := by
  unfold pickRequired
  split
  · exact .ok rfl
  · exact .error _ _

end Argument

theorem isCallOf_kin (h : c.Kin d) (names : List String) : isCallOf names c = isCallOf names d := by
  have hnext := Cursor.Kin.test h.nextSignificant? fun _ _ htu => htu.isPunct "("
  have htoken := h.token?
  rw [isCallOf, isCallOf, hnext]
  generalize c.token? = x, d.token? = y at htoken ⊢
  cases htoken with
  | none => rfl
  | some htu => exact congrArg (· && _) (htu.ofKind (by decide) (names.contains ·))

/-- What a call makes of its arguments depends on its name alone. -/
def MakesKin {α : Type} (make : Token → List Argument → Except Fault α) : Prop :=
  ∀ call call' args, call.text = call'.text → Tracks Eq (make call args) (make call' args)

theorem Auth.ofArguments_kin : MakesKin Auth.ofArguments := by
  intro call call' args htext
  unfold Auth.ofArguments
  dsimp only
  rw [htext]
  split
  all_goals
    repeat' first
      | exact .ok rfl
      | refine (Argument.pickRequired_kin args call call' _ _).bind fun _ _ hv => hv ▸ ?_

theorem Certificate.ofArguments_kin : MakesKin Certificate.ofArguments := by
  intro call call' args htext
  unfold Certificate.ofArguments
  rw [htext]
  split
  all_goals exact (Argument.pickRequired_kin args call call' _ _).bind fun _ _ hv => hv ▸ .ok rfl

theorem Cursor.readCall_kin (h : c.Kin d) {α : Type} {make : Token → List Argument → Except Fault α} (hmake : MakesKin make) :
    Tracks (Paired Eq) (c.readCall make) (d.readCall make) := by
  refine (h.expect (fun _ _ htu => by rw [htu.kind]) _).bind fun call call' hcall => ?_
  have htext : call.text = call'.text := hcall.1.text fun hk => by simp [hk] at hcall
  refine (Argument.readAll_kin h.advance.skip).value fun args c d h => ?_
  exact (hmake call call' args htext).bind fun _ _ hv => .ok ⟨hv, h⟩

namespace PayloadTerm

theorem readMime_kin (h : c.Kin d) (separator : String) :
    Tracks (Paired Eq) (readMime separator c) (readMime separator d) := by
  unfold readMime
  dsimp only
  rw [← h.skipInline.isPunct]
  split
  · exact (h.skipInline.advance.skipInline.textValue _).value fun mime c d h => .ok ⟨rfl, h⟩
  · exact .ok ⟨rfl, h.skipInline⟩

theorem chunksWithin_kin (n : Nat) (h : c.Kin d) : Paired Eq (chunksWithin n c) (chunksWithin n d) := by
  induction n generalizing c d with
  | zero => exact ⟨rfl, h⟩
  | succ n ih =>
    have htoken := h.skip.token?
    rw [chunksWithin, chunksWithin]
    dsimp only
    generalize hc : c.skip.token? = x, d.skip.token? = y at htoken ⊢
    cases htoken with
    | none => exact ⟨rfl, h.skip⟩
    | some htu =>
      dsimp only
      rw [← htu.isString, ← htu.literal (Cursor.Kin.kind_of_skip hc)]
      obtain ⟨hchunks, hrest⟩ := ih h.skip.advance
      split
      · exact ⟨congrArg (_ :: ·) hchunks, hrest⟩
      · exact ⟨rfl, h.skip⟩

theorem readRaw_kin (h : c.Kin d) : Tracks (Paired Eq) (readRaw c) (readRaw d) := by
  rw [readRaw, readRaw, ← h.length]
  obtain ⟨hchunks, h⟩ := chunksWithin_kin (c.ahead.length + 1) h
  dsimp only
  rw [← hchunks]
  split
  · exact .error _ _
  · exact (readMime_kin h _).value fun mime c d h => .ok ⟨rfl, h⟩

theorem partsWithin_kin (n : Nat) (h : c.Kin d) : Tracks (Paired Eq) (partsWithin n c) (partsWithin n d) := by
  induction n generalizing c d with
  | zero => exact .ok ⟨rfl, h⟩
  | succ n ih =>
    rw [partsWithin, partsWithin]
    dsimp only
    rw [← h.skip.isPunct, ← h.skip.atEnd]
    split
    · exact .ok ⟨rfl, h.skip⟩
    · refine (h.skip.textValue _).value fun name c d h => ?_
      refine (h.skip.expect (fun _ _ htu => htu.isOp _) _).bind fun _ _ _ => ?_
      refine (h.skip.advance.skip.textValue _).value fun source c d h => ?_
      refine (readMime_kin h _).value fun mime c d h => ?_
      dsimp only
      rw [← h.skip.isPunct]
      split
      · exact (ih h.skip.advance).value fun parts c d h => .ok ⟨rfl, h⟩
      · exact .ok ⟨rfl, h.skip⟩

/-- Payloads are not compared. -/
abbrev Any (_ _ : PayloadTerm) : Prop := True

theorem readBody_kin (h : c.Kin d) (call : String) : Tracks (Paired Any) (readBody call c) (readBody call d) := by
  have hterm (make : JsonTerm → PayloadTerm) : Tracks (Paired Any)
      (do
        let read ← JsonTerm.read c
        return (make read.1, read.2))
      (do
        let read ← JsonTerm.read d
        return (make read.1, read.2)) :=
    (JsonTerm.read_kin h).paired fun _ _ _ _ _ h => .ok ⟨trivial, h⟩
  have hraw : Tracks (Paired Any) (readRaw c) (readRaw d) := (readRaw_kin h).mono fun _ _ hp => ⟨trivial, hp.2⟩
  unfold readBody
  split
  · exact hterm .json
  · exact hterm .form
  · rw [← h.isPunct]
    split
    · exact hterm .form
    · exact hraw
  · exact hraw
  · refine (h.textValue _).value fun path c d h => ?_
    exact (readMime_kin h _).value fun mime c d h => .ok ⟨trivial, h⟩
  · rw [← h.length]
    exact (partsWithin_kin _ h).value fun parts c d h => .ok ⟨trivial, h⟩

theorem startsAt_kin (h : c.Kin d) : startsAt c = startsAt d := by
  rw [startsAt, startsAt, isCallOf_kin h, Cursor.Kin.test h.token? fun _ _ htu => htu.isOp "<"]

theorem read_kin (h : c.Kin d) (hc : ∀ t ∈ c.token?, t.kind ≠ .comment) : Tracks (Paired Any) (read c) (read d) := by
  refine (h.expect (fun _ _ _ => rfl) _).bind fun call call' hcall => ?_
  rw [← hcall.1.isOp, ← hcall.1.text (hc call hcall.2.1)]
  split
  · refine (h.advance.skipInline.textValue _).value fun path c d h => ?_
    exact (readMime_kin h _).value fun mime c d h => .ok ⟨trivial, h⟩
  · refine (h.advance.skip.expectPunct _ _).bind fun c d h => ?_
    refine (readBody_kin h.skip _).paired fun _ _ c d _ h => ?_
    exact (h.skip.expectPunct _ _).bind fun _ _ h => .ok ⟨trivial, h⟩

end PayloadTerm

theorem Cursor.barePath_kin (h : c.Kin d) : Tracks (Paired Eq) c.barePath d.barePath := by
  rw [barePath, barePath, ← Kin.test h.token? fun _ _ htu => htu.isString]
  split
  · exact h.textValue _
  · have hrun := Kin.takeWhile (fun _ _ htu => by rw [htu.kind]) h.ahead (p := fun t => t.kind != .newline && t.kind != .comment)
    have hplain : .comment ∉ (JsonTerm.core (c.ahead.takeWhile fun t => t.kind != .newline && t.kind != .comment)).map
        Token.kind := by
      intro hmem
      obtain ⟨t, ht, hk⟩ := List.mem_map.mp hmem
      have htaken := List.mem_takeWhile_imp (JsonTerm.mem_of_mem_core ht)
      simp [hk] at htaken
    dsimp only
    rw [← JsonTerm.runText_kin hrun hplain, ← hrun.length_eq]
    split
    · exact .error _ _
    · exact .ok ⟨rfl, h.drop _ _ _ _ _⟩

theorem ClauseKind.at?_kin (h : c.Kin d) : ClauseKind.at? c = ClauseKind.at? d := by
  have hnext := Cursor.Kin.test h.next? fun _ _ htu => htu.isPunct "("
  have htoken := h.token?
  rw [at?, at?, isCallOf_kin h, isCallOf_kin h, PayloadTerm.startsAt_kin h, h.opensHeader, hnext]
  generalize c.token? = x, d.token? = y at htoken ⊢
  cases htoken with
  | none => rfl
  | @some t u htu =>
    have houtput : (t.kind = .identifier ∧ t.text = "output") ↔ (u.kind = .identifier ∧ u.text = "output") := by
      have hkind : (t.kind == .identifier && t.text == "output") = (u.kind == .identifier && u.text == "output") :=
        htu.ofKind (by decide) (· == "output")
      rw [Bool.eq_iff_iff] at hkind
      simpa only [Bool.and_eq_true, beq_iff_eq] using hkind
    simp only [Option.bind_eq_bind, Option.bind_some, htu.isOp, htu.isString, ← and_assoc, houtput]

/-- What is compared of requests: their names, and what they may be given once. -/
structure Request.Kin (r s : Request) : Prop where
  name : r.name = s.name
  base : r.base.isSome = s.base.isSome
  auth : r.auth.isSome = s.auth.isSome
  certificate : r.certificate.isSome = s.certificate.isSome
  payload : r.payload.isSome = s.payload.isSome

/-- Clauses that add the same to what is compared. -/
def Clause.Kin (a b : Clause) : Prop := ∀ ⦃r s : Request⦄ (x y : Span), r.Kin s → (r.add a x).Kin (s.add b y)

namespace Clause

theorem readQuery_kin (h : c.Kin d) : Tracks (Paired Clause.Kin) (readQuery c) (readQuery d) := by
  refine (h.advance.skipInline.textValue _).value fun key c d h => ?_
  refine (h.skipInline.expect (fun _ _ htu => by rw [htu.isOp, htu.isPunct]) _).bind fun _ _ _ => ?_
  refine (h.skipInline.advance.skipInline.textValue _).value fun value c d h => ?_
  exact .ok ⟨fun _ _ _ _ hr => ⟨hr.name, hr.base, hr.auth, hr.certificate, hr.payload⟩, h⟩

theorem readHeader_kin (h : c.Kin d) : Tracks (Paired Clause.Kin) (readHeader c) (readHeader d) := by
  refine (h.expect (fun _ _ htu => htu.isString) _).bind fun key key' hkey => ?_
  refine (h.advance.skip.advance.skipInline.textValue _).value fun value c d h => ?_
  exact .ok ⟨fun _ _ _ _ hr => ⟨hr.name, hr.base, hr.auth, hr.certificate, hr.payload⟩, h⟩

theorem readOutput_kin (h : c.Kin d) : Tracks (Paired Clause.Kin) (readOutput c) (readOutput d) := by
  refine (h.advance.advance.skip.textValue _).value fun path c d h => ?_
  refine (h.skip.expectPunct _ _).bind fun c d h => ?_
  exact .ok ⟨fun _ _ _ _ hr => ⟨hr.name, hr.base, hr.auth, hr.certificate, hr.payload⟩, h⟩

theorem readScript_kin (h : c.Kin d) : Tracks (Paired Clause.Kin) (readScript c) (readScript d) := by
  have hadd (a b : Script) : Clause.Kin (.script a) (.script b) :=
    fun _ _ _ _ hr => ⟨hr.name, hr.base, hr.auth, hr.certificate, hr.payload⟩
  refine (h.advance.skipInline.expect (fun _ _ htu => by rw [htu.kind]) _).bind fun block block' _ => ?_
  have h := h.advance.skipInline.advance.skipInline
  have htoken := h.token?
  dsimp only
  generalize c.advance.skipInline.advance.skipInline = c, d.advance.skipInline.advance.skipInline = d at h htoken ⊢
  generalize c.token? = x, d.token? = y at htoken ⊢
  cases htoken with
  | none => exact .ok ⟨hadd _ _, h⟩
  | @some t u htu =>
    by_cases ht : t.kind = .identifier
    · have hu : u.kind = .identifier := htu.kind ▸ ht
      simp only [Option.filter_some, ht, hu, beq_self_eq_true, if_true, Option.bind_some, htu.text (by simp [ht])]
      split
      · exact .ok ⟨hadd _ _, h.advance⟩
      · exact .ok ⟨hadd _ _, h⟩
    · have hu : u.kind ≠ .identifier := htu.kind ▸ ht
      simp only [Option.filter_some, beq_iff_eq, ht, hu, if_false, Option.bind_none]
      exact .ok ⟨hadd _ _, h⟩

theorem read_kin (kind : ClauseKind) (h : c.Kin d) (hc : ∀ t ∈ c.token?, t.kind ≠ .comment) :
    Tracks (Paired Clause.Kin) (read kind c) (read kind d) := by
  cases kind with
  | auth =>
    refine (Cursor.readCall_kin h Auth.ofArguments_kin).value fun a c d h => ?_
    exact .ok ⟨fun _ _ _ _ hr => ⟨hr.name, hr.base, rfl, hr.certificate, hr.payload⟩, h⟩
  | certificate =>
    refine (Cursor.readCall_kin h Certificate.ofArguments_kin).value fun a c d h => ?_
    exact .ok ⟨fun _ _ _ _ hr => ⟨hr.name, hr.base, hr.auth, rfl, hr.payload⟩, h⟩
  | query => exact readQuery_kin h
  | header => exact readHeader_kin h
  | payload =>
    refine (PayloadTerm.read_kin h hc).paired fun _ _ c d _ h => ?_
    exact .ok ⟨fun _ _ _ _ hr => ⟨hr.name, hr.base, hr.auth, hr.certificate, rfl⟩, h⟩
  | output => exact readOutput_kin h
  | redirect =>
    refine (Cursor.barePath_kin h.advance.skipInline).value fun path c d h => ?_
    exact .ok ⟨fun _ _ _ _ hr => ⟨hr.name, hr.base, hr.auth, hr.certificate, hr.payload⟩, h⟩
  | script => exact readScript_kin h

end Clause
end RequestLang
