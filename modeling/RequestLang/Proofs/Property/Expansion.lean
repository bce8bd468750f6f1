import RequestLang.Proofs.Property.Generated
import RequestLang.Proofs.Property.Holes
import RequestLang.Proofs.Property.Run
import RequestLang.Proofs.Text.Word

/-! The expansion of placeholders: what stands in their place, and how it fails. -/
namespace RequestLang

/-- The names of the holes of a text in order. A hole without a name has none. -/
def Segment.names (segments : List Segment) : List String :=
  ((segments.filterMap body?).map fun body => (Placeholder.ofBody body).key).filter (!·.isEmpty)

namespace Segment

theorem names_plain (cs : List Char) (rest : List Segment) : names (.plain cs :: rest) = names rest := rfl

theorem names_nameless {body : List Char} (h : (Placeholder.ofBody body).key.isEmpty) (rest : List Segment) :
    names (.hole body :: rest) = names rest := by
  simp [names, body?, h]

theorem names_named {body : List Char} (h : (Placeholder.ofBody body).key.isEmpty = false) (rest : List Segment) :
    names (.hole body :: rest) = (Placeholder.ofBody body).key :: names rest := by
  simp [names, body?, h]

theorem filterMap_body?_between (cs : List Char) : (between cs).filterMap body? = [] := by
  unfold between
  split <;> rfl

end Segment

namespace Resolver

/-- The resolver that knows the defaults of a text, recorded in the order in which they stand. -/
def recorded (r : Resolver) (segments : List Segment) : Resolver :=
  ((segments.filterMap Segment.body?).filter (!·.isEmpty)).foldl mineBody r

/-- The distinct names of a text that no tier knows, in the order in which they first stand. -/
def unknown (r : Resolver) (segments : List Segment) : List String :=
  ((Segment.names segments).filter (!r.isAvailable ·)).eraseDups

/-- The defaults of a name differ, and no higher tier hides them. -/
def inConflict (r : Resolver) (key : String) : Bool :=
  !Generator.isSpecial key.toList && (getKey? key r.commandLine).isNone &&
    (getKey? key r.env).isNone && r.slotOf key == .conflict

/-- The holes that are in conflict become text that stands as it is. -/
def leaving (r : Resolver) (segments : List Segment) : List Segment :=
  segments.map fun
    | .plain cs => .plain cs
    | .hole body =>
      let key := (Placeholder.ofBody body).key
      if !key.isEmpty && r.inConflict key then .plain (Segment.hole body).chars else .hole body

/-- The value of a name, with the draws before and after it. -/
inductive Yields (r : Resolver) (key : String) : Draws → List Char → Draws → Prop
  | stored {d : Draws} {v : String} (hkey : Generator.isSpecial key.toList = false)
      (hv : r.lookup key = .ok (some v)) : Yields r key d v.toList d
  | computed {d : Draws} {formula : List Char} {v : String}
      (hkey : key.toList = Generator.expressionMark.toList ++ formula)
      (hv : Arith.evaluate (String.ofList formula) = .ok v) : Yields r key d v.toList d
  | formula {d : Draws} {formula : List Char} {f : Arith.Fault}
      (hkey : key.toList = Generator.expressionMark.toList ++ formula)
      (hv : Arith.evaluate (String.ofList formula) = .error f) : Yields r key d formula d
  | drawn {d d' : Draws} {v : List Char} (hkey : Generator.isSpecial key.toList)
      (hmark : Generator.expressionMark.toList.isPrefixOf key.toList = false)
      (hv : Generator.generate r.surroundings.now.seconds key.toList d = (v, d')) : Yields r key d v d'

/-- The value of a name ends the program: a remainder overflows, or more is drawn than memory holds. -/
inductive EndsProgram (key : String) : Prop
  | formula {formula : List Char} (hkey : key.toList = Generator.expressionMark.toList ++ formula)
      (hv : Arith.evaluate (String.ofList formula) = .error .remainderOverflow) : EndsProgram key
  | drawn (hkey : Generator.isSpecial key.toList)
      (hmark : Generator.expressionMark.toList.isPrefixOf key.toList = false)
      (hlong : Generator.Overdraws key.toList) : EndsProgram key

/-- A default in which a generator may draw: it has no quotes, and its markers are filled. -/
def openDefault? (r : Resolver) (raw : String) : Option String :=
  match Placeholder.unquoted? raw.toList with
  | some _ => none
  | none =>
    match Placeholder.template? raw.toList with
    | some t => some (r.fillTemplate (String.ofList t))
    | none => some raw

/-- The default of a hole draws more than memory holds. -/
def Overdraws (r : Resolver) (body : List Char) : Prop :=
  ∃ raw value, (Placeholder.ofBody body).fallback = some raw ∧ r.openDefault? raw = some value ∧
    Generator.Overdraws value.toList

/-- One of the defaults draws more than memory holds when its turn comes. -/
def OverdrawsAmong (r : Resolver) (bodies : List (List Char)) : Prop :=
  ∃ front body back, bodies = front ++ body :: back ∧ (front.foldl mineBody r).Overdraws body

/-- A text with a value of its own for each hole that has a name. -/
inductive Fills (r : Resolver) : Draws → List Segment → List Char → Draws → Prop
  | done (d : Draws) : Fills r d [] [] d
  | plain {d d' : Draws} {cs text : List Char} {rest : List Segment} (hrest : Fills r d rest text d') :
      Fills r d (.plain cs :: rest) (cs ++ text) d'
  | nameless {d d' : Draws} {body text : List Char} {rest : List Segment}
      (hkey : (Placeholder.ofBody body).key.isEmpty) (hrest : Fills r d rest text d') :
      Fills r d (.hole body :: rest) ((Segment.hole body).chars ++ text) d'
  | named {d d₁ d' : Draws} {body v text : List Char} {rest : List Segment}
      (hkey : (Placeholder.ofBody body).key.isEmpty = false)
      (hv : Yields r (Placeholder.ofBody body).key d v d₁) (hrest : Fills r d₁ rest text d') :
      Fills r d (.hole body :: rest) (v ++ text) d'

theorem Yields.draws {r : Resolver} {key : String} {d d' : Draws} {v : List Char}
    (h : Yields r key d v d') (used : Draws) (overflowed : Bool) :
    Yields { r with draws := used, overflowed } key d v d' := by
  cases h with
  | stored hkey hv => exact .stored hkey hv
  | computed hkey hv => exact .computed hkey hv
  | formula hkey hv => exact .formula hkey hv
  | drawn hkey hmark hv => exact .drawn hkey hmark hv

theorem Fills.draws {r : Resolver} {d d' : Draws} {segments : List Segment} {text : List Char}
    (h : Fills r d segments text d') (used : Draws) (overflowed : Bool) :
    Fills { r with draws := used, overflowed } d segments text d' := by
  induction h with
  | done d => exact .done d
  | plain _ ih => exact .plain ih
  | nameless hkey _ ih => exact .nameless hkey ih
  | named hkey hv _ ih => exact .named hkey (hv.draws used overflowed) ih

theorem leaving_hole (r : Resolver) (body : List Char) (rest : List Segment) :
    r.leaving (.hole body :: rest) =
      (if !(Placeholder.ofBody body).key.isEmpty && r.inConflict (Placeholder.ofBody body).key then
        .plain (Segment.hole body).chars else .hole body) :: r.leaving rest := rfl

theorem leaving_eq_self {r : Resolver} {segments : List Segment}
    (h : (Segment.names segments).find? r.inConflict = none) : r.leaving segments = segments := by
  have hcalm : ∀ key ∈ Segment.names segments, r.inConflict key = false := by
    simpa using List.find?_eq_none.mp h
  refine (List.map_congr_left fun s hs => ?_).trans (List.map_id segments)
  cases s with
  | plain cs => rfl
  | hole body =>
    refine if_neg fun hboth => ?_
    rw [Bool.and_eq_true] at hboth
    have hmem : (Placeholder.ofBody body).key ∈ Segment.names segments :=
      List.mem_filter.mpr ⟨List.mem_map_of_mem (List.mem_filterMap.mpr ⟨_, hs, rfl⟩), hboth.1⟩
    rw [hcalm _ hmem] at hboth
    exact Bool.false_ne_true hboth.2

theorem isAvailable_of_unknown {r : Resolver} {segments : List Segment} (h : r.unknown segments = []) :
    ∀ key ∈ Segment.names segments, r.isAvailable key := by
  intro key hkey
  by_contra hnone
  have hmem : key ∈ r.unknown segments := List.mem_eraseDups.mpr (by simp [hkey, hnone])
  rw [h] at hmem
  cases hmem

/-- What is available has a value or is in conflict: no tier is asked in vain. -/
theorem lookup_of_isAvailable {r : Resolver} {key : String} (h : r.isAvailable key)
    (hkey : Generator.isSpecial key.toList = false) :
    r.inConflict key = true ∧ r.lookup key = .error (.propertyConflict key) ∨
      r.inConflict key = false ∧ ∃ v, r.lookup key = .ok (some v) := by
  unfold inConflict lookup
  unfold isAvailable at h
  cases hc : getKey? key r.commandLine with
  | some v => exact .inr ⟨by simp, v, rfl⟩
  | none =>
    cases he : getKey? key r.env with
    | some v => exact .inr ⟨by simp, v, rfl⟩
    | none =>
      cases hs : r.slotOf key with
      | value v => exact .inr ⟨by simp, v, rfl⟩
      | conflict => exact .inl ⟨by simp [hkey], rfl⟩
      | unset =>
        refine .inr ⟨by simp, ?_⟩
        cases hp : r.surroundings.environment key with
        | some v => exact ⟨v, rfl⟩
        | none =>
          cases hx : getKey? key r.commands with
          | some command => simp [commandValue?, hx]
          | none => simp [hkey, hc, he, hs, hp, hx] at h

theorem draw_snd {α : Type} (r : Resolver) (g : Draw α) :
    (r.draw g).2 = { r with draws := (g r.draws).2 } := rfl

theorem expandDefault_eq (r : Resolver) (raw : String) : r.expandDefault raw =
    match r.openDefault? raw with
    | none => (String.ofList ((Placeholder.unquoted? raw.toList).getD []), false, r)
    | some value =>
      if Generator.isGenerator value.toList then
        let drawn := r.draw (Generator.generate r.surroundings.now.seconds value.toList)
        (String.ofList drawn.1, true, drawn.2)
      else (value, false, r) := by
  simp only [expandDefault, openDefault?]
  cases Placeholder.unquoted? raw.toList with
  | some inner => rfl
  | none => cases Placeholder.template? raw.toList <;> rfl

theorem expandDefault_frame (r : Resolver) (raw : String) :
    ∃ d, (r.expandDefault raw).2.2 = { r with draws := d } := by
  rw [expandDefault_eq]
  cases r.openDefault? raw with
  | none => exact ⟨r.draws, rfl⟩
  | some value =>
    dsimp only
    cases Generator.isGenerator value.toList with
    | true => exact ⟨_, draw_snd r _⟩
    | false => exact ⟨r.draws, rfl⟩

theorem overflowed_expandDefault (r : Resolver) (raw : String) :
    (r.expandDefault raw).2.2.draws.used.overflowed ↔ r.draws.used.overflowed ∨
      ∃ value, r.openDefault? raw = some value ∧ Generator.Overdraws value.toList := by
  rw [expandDefault_eq]
  cases r.openDefault? raw with
  | none => simp
  | some value =>
    have hflag := Generator.overflowed_generate r.surroundings.now.seconds value.toList r.draws
    simp only [Option.some.injEq, exists_eq_left']
    cases hgen : Generator.isGenerator value.toList with
    | true => exact hflag
    | false =>
      rwa [(Generator.generate_promises r.surroundings.now.seconds value.toList r.draws).2.2.1 hgen] at hflag

/-- Recording a default touches what the request file says, and perhaps draws. -/
theorem mineBody_frame (r : Resolver) (body : List Char) :
    ∃ entries d, r.mineBody body = { r with inFile := entries, draws := d } := by
  simp only [mineBody]
  cases (Placeholder.ofBody body).fallback with
  | none =>
    cases getKey? (Placeholder.ofBody body).key r.inFile with
    | some _ => exact ⟨r.inFile, r.draws, rfl⟩
    | none => exact ⟨_, r.draws, rfl⟩
  | some raw =>
    obtain ⟨d, hd⟩ := expandDefault_frame r raw
    simp only [hd]
    exact ⟨_, d, rfl⟩

theorem ended_mineBody (r : Resolver) (body : List Char) :
    (r.mineBody body).ended ↔ r.ended ∨ r.Overdraws body := by
  unfold mineBody Overdraws ended
  dsimp only
  cases (Placeholder.ofBody body).fallback with
  | none => cases getKey? (Placeholder.ofBody body).key r.inFile <;> simp
  | some raw =>
    obtain ⟨d, hd⟩ := expandDefault_frame r raw
    have hflag := overflowed_expandDefault r raw
    rw [hd] at hflag
    simp only [hd, Option.some.injEq, exists_and_left, exists_eq_left', Bool.or_eq_true, hflag, or_assoc]

theorem ended_foldl_mineBody (r : Resolver) (bodies : List (List Char)) :
    (bodies.foldl mineBody r).ended ↔ r.ended ∨ r.OverdrawsAmong bodies := by
  induction bodies generalizing r with
  | nil => simp [OverdrawsAmong]
  | cons body rest ih =>
    rw [List.foldl_cons, ih, ended_mineBody, or_assoc]
    refine or_congr_right ⟨?_, ?_⟩
    · rintro (h | ⟨front, other, back, rfl, h⟩)
      · exact ⟨[], body, rest, rfl, h⟩
      · exact ⟨body :: front, other, back, rfl, h⟩
    · rintro ⟨front, other, back, hbodies, h⟩
      cases front with
      | nil =>
        obtain ⟨rfl, -⟩ := List.cons.inj hbodies
        exact .inl h
      | cons first front =>
        obtain ⟨rfl, rfl⟩ := List.cons.inj hbodies
        exact .inr ⟨front, other, back, rfl, h⟩

theorem foldl_mineBody_frame (r : Resolver) (bodies : List (List Char)) :
    ∃ entries d, bodies.foldl mineBody r = { r with inFile := entries, draws := d } := by
  induction bodies generalizing r with
  | nil => exact ⟨r.inFile, r.draws, rfl⟩
  | cons body rest ih =>
    obtain ⟨entries, d, hr⟩ := mineBody_frame r body
    obtain ⟨entries', d', hrest⟩ := ih (r.mineBody body)
    rw [hr] at hrest
    exact ⟨entries', d', by rw [List.foldl_cons, hr, hrest]⟩

theorem recorded_frame (r : Resolver) (segments : List Segment) :
    ∃ entries d, r.recorded segments = { r with inFile := entries, draws := d } :=
  foldl_mineBody_frame r _

theorem foldl_distinct (keys seen : List String) :
    keys.foldl (fun seen k => if seen.contains k then seen else seen ++ [k]) seen =
      List.eraseDupsBy.loop (· == ·) keys seen.reverse := by
  induction keys generalizing seen with
  | nil => simp [List.eraseDupsBy.loop]
  | cons k keys ih =>
    rw [List.foldl_cons, List.eraseDupsBy.loop, List.any_reverse, ← List.contains_eq_any_beq]
    cases h : seen.contains k with
    | true => simpa [h] using ih seen
    | false => simpa [h] using ih (seen ++ [k])

theorem missing_eq (r : Resolver) (text : String) :
    r.missing text = r.unknown (Segment.ofText text.toList) := by
  unfold missing unknown
  rw [foldl_distinct, List.reverse_nil, Segment.names, List.filter_filter]
  rw [List.eraseDups, List.eraseDupsBy, Segment.bodies]
  congr 1
  refine List.filter_congr fun k _ => ?_
  rw [Bool.and_comm]

end Resolver

namespace Resolve
open Resolver

/-- A formula that cannot be evaluated is its own value. -/
theorem on_valueOf_formula {r : Resolver} {key : String} (hkey : Text.trim key = key) {formula : List Char}
    (hformula : key.toList = Generator.expressionMark.toList ++ formula) :
    on (valueOf key) r =
      match Arith.evaluate (String.ofList formula) with
      | .ok v => (.ok (some v), r)
      | .error f => (.ok (some (String.ofList formula)), r.noteFault f) := by
  have hmark : Generator.expressionMark.toList.isPrefixOf key.toList :=
    List.isPrefixOf_iff_prefix.mpr ⟨formula, hformula.symm⟩
  have hdrop : key.toList.drop Generator.expressionMark.toList.length = formula := by
    rw [hformula, List.drop_left]
  unfold valueOf
  rw [hkey, on_bind, on_get, andThen_ok]
  simp only [hmark, if_true, hdrop]
  cases Arith.evaluate (String.ofList formula) <;> rfl

theorem on_valueOf_drawn {r : Resolver} {key : String} (hkey : Text.trim key = key)
    (hmark : Generator.expressionMark.toList.isPrefixOf key.toList = false)
    (hspecial : Generator.isSpecial key.toList) :
    on (valueOf key) r =
      let drawn := Generator.generate r.surroundings.now.seconds key.toList r.draws
      (.ok (some (String.ofList drawn.1)), { r with draws := drawn.2 }) := by
  unfold valueOf
  rw [hkey, on_bind, on_get, andThen_ok]
  simp only [hmark, Bool.false_eq_true, if_false, hspecial, if_true]
  rfl

theorem isSpecial_of_mark {key : String} (hkey : Text.trim key = key)
    (hmark : Generator.expressionMark.toList.isPrefixOf key.toList) : Generator.isSpecial key.toList := by
  have htrim : Text.trimChars key.toList = key.toList := by
    rw [← congrArg String.toList hkey]
    simp [Text.trim]
  simp [Generator.isSpecial, htrim, hmark]

theorem on_valueOf_stored {r : Resolver} {key : String} (hkey : Text.trim key = key)
    (hspecial : Generator.isSpecial key.toList = false) :
    on (valueOf key) r = (r.lookup key, r) := by
  have hmark : ¬Generator.expressionMark.toList.isPrefixOf key.toList := fun h => by
    rw [isSpecial_of_mark hkey h] at hspecial
    cases hspecial
  unfold valueOf
  rw [hkey, on_bind, on_get, andThen_ok]
  simp only [hmark, hspecial, Bool.false_eq_true, if_false]
  cases r.lookup key <;> rfl

/-- A computed name has a value. A remainder that overflows and a value that is too large leave a trace each. -/
theorem on_valueOf_special {key : String} (hkey : Text.trim key = key)
    (hspecial : Generator.isSpecial key.toList) (r : Resolver) :
    ∃ v d o, on (valueOf key) r = (.ok (some v), { r with draws := d, overflowed := o }) ∧
      Yields r key r.draws v.toList d ∧
      (o ↔ r.overflowed ∨ ∃ formula, key.toList = Generator.expressionMark.toList ++ formula ∧
        Arith.evaluate (String.ofList formula) = .error .remainderOverflow) ∧
      (d.used.overflowed ↔ r.draws.used.overflowed ∨
        Generator.expressionMark.toList.isPrefixOf key.toList = false ∧ Generator.Overdraws key.toList) := by
  cases hmark : Generator.expressionMark.toList.isPrefixOf key.toList with
  | true =>
    obtain ⟨formula, hformula⟩ := List.isPrefixOf_iff_prefix.mp hmark
    have hsame (other : List Char) :
        key.toList = Generator.expressionMark.toList ++ other ↔ other = formula := by
      rw [← hformula, List.append_cancel_left_eq, eq_comm]
    simp only [on_valueOf_formula hkey hformula.symm, hsame, exists_eq_left]
    cases hv : Arith.evaluate (String.ofList formula) with
    | ok v => exact ⟨v, r.draws, r.overflowed, rfl, .computed hformula.symm hv, by simp, by simp⟩
    | error f =>
      refine ⟨_, r.draws, _, rfl, ?_, by simp, by simp⟩
      rw [String.toList_ofList]
      exact .formula hformula.symm hv
  | false =>
    have hno (formula : List Char) : key.toList ≠ Generator.expressionMark.toList ++ formula := fun h => by
      rw [List.isPrefixOf_iff_prefix.mpr ⟨formula, h.symm⟩] at hmark
      cases hmark
    have hflag := Generator.overflowed_generate r.surroundings.now.seconds key.toList r.draws
    rw [on_valueOf_drawn hkey hmark hspecial]
    refine ⟨_, _, r.overflowed, rfl, ?_, by simp [hno], by simpa using hflag⟩
    rw [String.toList_ofList]
    exact .drawn hspecial hmark rfl

theorem endsProgram_iff {key : String} (hkey : Text.trim key = key) : EndsProgram key ↔
    Generator.isSpecial key.toList ∧
      ((∃ formula, key.toList = Generator.expressionMark.toList ++ formula ∧
        Arith.evaluate (String.ofList formula) = .error .remainderOverflow) ∨
      Generator.expressionMark.toList.isPrefixOf key.toList = false ∧ Generator.Overdraws key.toList) := by
  constructor
  · intro h
    cases h with
    | @formula formula hformula hv =>
      have hmark := List.isPrefixOf_iff_prefix.mpr ⟨formula, hformula.symm⟩
      exact ⟨isSpecial_of_mark hkey hmark, .inl ⟨formula, hformula, hv⟩⟩
    | drawn hspecial hmark hlong => exact ⟨hspecial, .inr ⟨hmark, hlong⟩⟩
  · rintro ⟨hspecial, ⟨formula, hformula, hv⟩ | ⟨hmark, hlong⟩⟩
    · exact .formula hformula hv
    · exact .drawn hspecial hmark hlong

/-- A name without blanks around it gives its value, or fails where its defaults differ. -/
theorem on_valueOf {r : Resolver} {key : String} (hkey : Text.trim key = key)
    (ha : r.isAvailable key) :
    r.inConflict key = true ∧ ¬EndsProgram key ∧ on (valueOf key) r = (.error (.propertyConflict key), r) ∨
      r.inConflict key = false ∧ ∃ v d o,
        on (valueOf key) r = (.ok (some v), { r with draws := d, overflowed := o }) ∧
        Yields r key r.draws v.toList d ∧
        (Resolver.ended { r with draws := d, overflowed := o } ↔ r.ended ∨ EndsProgram key) := by
  cases hspecial : Generator.isSpecial key.toList with
  | true =>
    obtain ⟨v, d, o, hv, hyields, hoverflow, hdraws⟩ := on_valueOf_special hkey hspecial r
    refine .inr ⟨by simp [inConflict, hspecial], v, d, o, hv, hyields, ?_⟩
    rw [endsProgram_iff hkey, and_iff_right hspecial]
    simp only [ended, Bool.or_eq_true, hoverflow, hdraws]
    exact or_or_or_comm
  | false =>
    have hcalm : ¬EndsProgram key := fun h => by
      rw [endsProgram_iff hkey, hspecial] at h
      exact Bool.false_ne_true h.1
    rw [on_valueOf_stored hkey hspecial]
    rcases lookup_of_isAvailable ha hspecial with ⟨hc, hl⟩ | ⟨hc, v, hl⟩
    · exact .inl ⟨hc, hcalm, by rw [hl]⟩
    · exact .inr ⟨hc, v, r.draws, r.overflowed, by rw [hl], .stored hspecial hl, (or_iff_left hcalm).symm⟩

theorem trim_key (body : List Char) :
    Text.trim (Placeholder.ofBody body).key = (Placeholder.ofBody body).key := by
  unfold Placeholder.ofBody
  split
  · simp [Text.trim]
  · split <;> simp [Text.trim]

/-- Every hole is given its value, a hole in conflict stays, and the first such name is handed on. -/
theorem on_expandSegments {r : Resolver} {segments : List Segment}
    (ha : ∀ key ∈ Segment.names segments, r.isAvailable key) (failed : Option Failure) :
    ∃ text d o, on (expandSegments segments failed) r =
        (.ok (text, failed.or (((Segment.names segments).find? r.inConflict).map .propertyConflict)),
          { r with draws := d, overflowed := o }) ∧
      Fills r r.draws (r.leaving segments) text d ∧
      (Resolver.ended { r with draws := d, overflowed := o } ↔
        r.ended ∨ ∃ key ∈ Segment.names segments, EndsProgram key) := by
  induction segments generalizing r failed with
  | nil => exact ⟨[], r.draws, r.overflowed, by simp [expandSegments, Segment.names], .done _, by simp [Segment.names]⟩
  | cons s rest ih =>
    cases s with
    | plain cs =>
      rw [Segment.names_plain] at ha ⊢
      obtain ⟨text, d, o, hrun, hfills, hends⟩ := ih ha failed
      refine ⟨cs ++ text, d, o, ?_, .plain hfills, hends⟩
      rw [expandSegments, on_bind, hrun]
      rfl
    | hole body =>
      rw [leaving_hole]
      by_cases hkey : (Placeholder.ofBody body).key.isEmpty
      · rw [Segment.names_nameless hkey] at ha ⊢
        obtain ⟨text, d, o, hrun, hfills, hends⟩ := ih ha failed
        refine ⟨(Segment.hole body).chars ++ text, d, o, ?_, ?_, hends⟩
        · simp only [expandSegments, hkey, if_true]
          rw [pure_bind, on_bind, hrun]
          rfl
        · simpa [hkey] using Fills.nameless hkey hfills
      · rw [Bool.not_eq_true] at hkey
        rw [Segment.names_named hkey] at ha ⊢
        have hown := ha _ (List.mem_cons_self ..)
        have hrest : ∀ key ∈ Segment.names rest, r.isAvailable key :=
          fun key h => ha key (List.mem_cons_of_mem _ h)
        simp only [expandSegments, hkey, Bool.not_false, Bool.true_and, Bool.false_eq_true, if_false,
          List.find?_cons, List.exists_mem_cons_iff]
        rcases on_valueOf (trim_key body) hown with ⟨hc, hcalm, hv⟩ | ⟨hc, v, d₁, o₁, hv, hyields, hown⟩
        · obtain ⟨text, d, o, hrun, hfills, hends⟩ :=
            ih hrest (failed.or (some (.propertyConflict (Placeholder.ofBody body).key)))
          refine ⟨(Segment.hole body).chars ++ text, d, o, ?_, ?_, ?_⟩
          · rw [on_bind, on_tryCatch, on_bind, hv]
            simp only [andThen_error, on_pure, andThen_ok]
            rw [on_bind, hrun, hc]
            cases failed <;> rfl
          · rw [hc, if_pos rfl]
            exact .plain hfills
          · rw [hends, or_iff_right hcalm]
        · obtain ⟨text, d, o, hrun, hfills, hends⟩ :=
            ih (r := { r with draws := d₁, overflowed := o₁ }) hrest failed
          refine ⟨v.toList ++ text, d, o, ?_, ?_, ?_⟩
          · rw [on_bind, on_tryCatch, on_bind, hv]
            simp only [on_pure, andThen_ok]
            rw [on_bind, hrun, hc]
            rfl
          · rw [hc, if_neg Bool.false_ne_true]
            exact .named hkey hyields (hfills.draws r.draws r.overflowed)
          · rw [hends, hown, or_assoc]

/-- A text without an opening has no holes. -/
theorem splits_of_not_holds {text : String} {segments : List Segment}
    (hs : Segment.Splits text.toList segments) (h : Text.holds ['{', '{'] text.toList = false) :
    segments = Segment.between text.toList := by
  cases hs with
  | last _ => rfl
  | @next _ before body rest _ hfirst _ =>
    have hin : ['{', '{'] <:+: text.toList := by
      rw [hfirst.stands]
      exact ⟨before, body ++ ['}', '}'] ++ rest, by simp [Segment.chars]⟩
    rw [← Text.holds_iff_infix (by simp), h] at hin
    cases hin

/-- Reports the names that are missing, or else gives a text with values for the holes among its pieces. -/
def fill (missing : List String) (text : String) (pieces : List Segment) : Resolve String :=
  match missing with
  | [] => do
    let (expanded, failed) ← expandSegments pieces none
    match failed with
    | some f => failOr f (String.ofList expanded)
    | none => return String.ofList expanded
  | names => do failOr ((← get).notFound names) text

/-- The defaults of a text are recorded before its holes are filled. -/
theorem on_expand_fill (r : Resolver) {text : String} {segments : List Segment} (hs : Segment.Splits text.toList segments) :
    on (expand text) r = on (fill ((r.recorded segments).unknown segments) text segments) (r.recorded segments) := by
  have hofText := Segment.splits_iff.mp hs
  by_cases hopen : Text.holds ['{', '{'] text.toList
  · have hmine : r.mine text = r.recorded segments := by
      simp only [Resolver.recorded, hofText]
      rfl
    simp only [expand, hopen, Bool.not_true, Bool.false_eq_true, if_false, on_bind, on_modify, andThen_ok,
      on_get, hmine, missing_eq, ← hofText]
    cases (r.recorded segments).unknown segments <;> rfl
  · rw [Bool.not_eq_true] at hopen
    have hbetween := splits_of_not_holds hs hopen
    have hholes : segments.filterMap Segment.body? = [] := hbetween ▸ Segment.filterMap_body?_between _
    have hrecorded : r.recorded segments = r := by simp [Resolver.recorded, hholes]
    have hunknown : r.unknown segments = [] := by simp [unknown, Segment.names, hholes]
    have hplain : expandSegments (Segment.between text.toList) none = pure (text.toList, none) := by
      unfold Segment.between
      cases text.toList with
      | nil => rfl
      | cons c cs => simp [expandSegments]
    rw [hrecorded, hunknown, expand, fill, hbetween, hplain]
    simp [hopen]

/-- Names that no tier knows stop the filling, and a name in conflict is reported at its end. -/
theorem on_fill (r : Resolver) (pieces : List Segment) (text : String) :
    let recorded := r.recorded pieces
    let missing := recorded.unknown pieces
    (missing ≠ [] → on (fill missing text pieces) recorded = on (failOr (r.notFound missing) text) recorded) ∧
    (missing = [] → ∃ cs d o, recorded.Fills recorded.draws (recorded.leaving pieces) cs d ∧
      on (fill missing text pieces) recorded = on (match (Segment.names pieces).find? recorded.inConflict with
        | some key => failOr (.propertyConflict key) (String.ofList cs)
        | none => pure (String.ofList cs)) { recorded with draws := d, overflowed := o } ∧
      (Resolver.ended { recorded with draws := d, overflowed := o } ↔
        recorded.ended ∨ ∃ key ∈ Segment.names pieces, EndsProgram key)) := by
  intro recorded missing
  cases hm : missing with
  | cons name names =>
    have hsame : recorded.notFound (name :: names) = r.notFound (name :: names) := by
      obtain ⟨entries, d, hrecorded⟩ := recorded_frame r pieces
      simp only [recorded, hrecorded, notFound]
    rw [← hsame]
    exact ⟨fun _ => rfl, by simp⟩
  | nil =>
    refine ⟨by simp, fun _ => ?_⟩
    obtain ⟨cs, d, o, hrun, hfills, hends⟩ := on_expandSegments (isAvailable_of_unknown hm) none
    refine ⟨cs, d, o, hfills, ?_, hends⟩
    simp only [fill, on_bind, hrun, andThen_ok, Option.none_or]
    cases (Segment.names pieces).find? recorded.inConflict <;> rfl

/-- Names that no tier knows stop an expansion, and a name in conflict is reported at its end. -/
theorem on_expand (r : Resolver) {text : String} {segments : List Segment}
    (hs : Segment.Splits text.toList segments) :
    let recorded := r.recorded segments
    let missing := recorded.unknown segments
    (missing ≠ [] → on (expand text) r = on (failOr (r.notFound missing) text) recorded) ∧
    (missing = [] → ∃ cs d o, recorded.Fills recorded.draws (recorded.leaving segments) cs d ∧
      on (expand text) r = on (match (Segment.names segments).find? recorded.inConflict with
        | some key => failOr (.propertyConflict key) (String.ofList cs)
        | none => pure (String.ofList cs)) { recorded with draws := d, overflowed := o } ∧
      (Resolver.ended { recorded with draws := d, overflowed := o } ↔
        recorded.ended ∨ ∃ key ∈ Segment.names segments, EndsProgram key)) := by
  intro recorded missing
  rw [on_expand_fill r hs]
  exact on_fill r segments text

theorem on_failOr_of_strict {α : Type} {r : Resolver} (hr : r.lenient = false) (f : Failure) (value : α) :
    on (failOr f value) r = (.error f, r) := by
  simp only [failOr, on_bind, on_get, andThen_ok, hr, Bool.false_eq_true, if_false, on_throw]

/-- A strict resolver reports what stops an expansion, and hands the text on if nothing does. -/
theorem on_expand_of_strict {r : Resolver} (hr : r.lenient = false) {text : String} {segments : List Segment}
    (hs : Segment.Splits text.toList segments) :
    let recorded := r.recorded segments
    let missing := recorded.unknown segments
    (missing ≠ [] → on (expand text) r = (.error (r.notFound missing), recorded)) ∧
    (missing = [] → ∃ cs d o, recorded.Fills recorded.draws (recorded.leaving segments) cs d ∧
      on (expand text) r = (match (Segment.names segments).find? recorded.inConflict with
        | some key => .error (.propertyConflict key)
        | none => .ok (String.ofList cs), { recorded with draws := d, overflowed := o }) ∧
      (Resolver.ended { recorded with draws := d, overflowed := o } ↔
        recorded.ended ∨ ∃ key ∈ Segment.names segments, EndsProgram key)) := by
  intro recorded missing
  have hstrict : recorded.lenient = false := by
    obtain ⟨entries, d, hrecorded⟩ := recorded_frame r segments
    simp only [recorded, hrecorded, hr]
  obtain ⟨hunknown, hknown⟩ := on_expand r hs
  refine ⟨fun hm => (hunknown hm).trans (on_failOr_of_strict hstrict _ _), fun hm => ?_⟩
  obtain ⟨cs, d, o, hfills, hrun, hends⟩ := hknown hm
  refine ⟨cs, d, o, hfills, ?_, hends⟩
  rw [hrun]
  cases (Segment.names segments).find? recorded.inConflict with
  | some key => exact on_failOr_of_strict (r := { recorded with draws := d, overflowed := o }) hstrict _ _
  | none => rfl

theorem settle_of_ended {α : Type} {r : Resolver} (h : r.ended) (outcome : Except Failure α) :
    r.settle outcome = .error .overflow := if_pos h

theorem settle_of_not_ended {α : Type} {r : Resolver} (h : ¬r.ended) (outcome : Except Failure α) :
    r.settle outcome = outcome := if_neg h

theorem settle_eq_error {α : Type} {r : Resolver} {outcome : Except Failure α} {f : Failure}
    (h : r.settle outcome = .error f) : f = .overflow ∨ outcome = .error f := by
  unfold settle at h
  split at h
  · cases h
    exact .inl rfl
  · exact .inr h

/-- Expansion is exact. The defaults of all holes are recorded first. Then names that no tier knows
are reported together, or else the first name in conflict; if there is neither, each hole gives way
to a value of its own name and the rest of the text stays. None of this comes to light if the program
ends before: with a default that draws more than memory holds, or, if no name is missing, with a name
that does so or is a formula whose remainder overflows. No other tier changes. -/
theorem expand_exact {r : Resolver} (hr : r.lenient = false) {text : String}
    {segments : List Segment} (hs : Segment.Splits text.toList segments) :
    let recorded := r.recorded segments
    let missing := recorded.unknown segments
    let conflict := (Segment.names segments).find? recorded.inConflict
    let after := (on (expand text) r).2
    let outcome := after.settle (on (expand text) r).1
    (after.ended ↔ r.ended ∨ r.OverdrawsAmong ((segments.filterMap Segment.body?).filter (!·.isEmpty)) ∨
      missing = [] ∧ ∃ key ∈ Segment.names segments, EndsProgram key) ∧
    (after.ended → outcome = .error .overflow) ∧
    (¬after.ended → missing ≠ [] → outcome = .error
      (.propertyNotFound missing (r.propertyFile.getD "not specified"))) ∧
    (¬after.ended → missing = [] → ∀ key, conflict = some key → outcome = .error (.propertyConflict key)) ∧
    (¬after.ended → missing = [] → conflict = none →
      ∃ cs d, recorded.Fills recorded.draws segments cs d ∧ outcome = .ok (String.ofList cs)) ∧
    after.commandLine = r.commandLine ∧ after.env = r.env ∧ after.commands = r.commands := by
  intro recorded missing conflict after outcome
  have hrecorded : recorded.ended ↔
      r.ended ∨ r.OverdrawsAmong ((segments.filterMap Segment.body?).filter (!·.isEmpty)) :=
    ended_foldl_mineBody r _
  obtain ⟨entries, d, hframe⟩ := recorded_frame r segments
  have htiers : recorded.commandLine = r.commandLine ∧ recorded.env = r.env ∧
      recorded.commands = r.commands := by
    simp only [recorded, hframe, and_self]
  rw [← or_assoc, ← hrecorded]
  obtain ⟨hunknown, hknown⟩ := on_expand_of_strict hr hs
  by_cases hm : missing = []
  · obtain ⟨cs, d', o, hfills, hrun, hends⟩ := hknown hm
    have hafter : after = { recorded with draws := d', overflowed := o } := congrArg Prod.snd hrun
    have hgiven (h : ¬after.ended) : outcome = match conflict with
        | some key => .error (.propertyConflict key)
        | none => .ok (String.ofList cs) := (settle_of_not_ended h _).trans (congrArg Prod.fst hrun)
    refine ⟨?_, fun h => settle_of_ended h _, fun _ h => absurd hm h, fun h _ key hc => ?_, fun h _ hc => ?_, ?_⟩
    · rw [hafter, hends, and_iff_right hm]
    · rw [hgiven h, hc]
    · exact ⟨cs, d', leaving_eq_self (r := recorded) hc ▸ hfills, by rw [hgiven h, hc]⟩
    · rw [hafter]
      exact htiers
  · have hrun := hunknown hm
    have hafter : after = recorded := congrArg Prod.snd hrun
    refine ⟨?_, fun h => settle_of_ended h _, fun h _ => ?_, fun _ h => absurd h hm, fun _ h => absurd h hm, ?_⟩
    · rw [hafter]
      exact (or_iff_left fun h => hm h.1).symm
    · exact (settle_of_not_ended h _).trans (congrArg Prod.fst hrun)
    · rw [hafter]
      exact htiers

/-- A default that stands behind its use counts, and the name that is left over is reported. -/
theorem expand_exact_missing :
    let r : Resolver := { surroundings := ⟨fun _ => none, fun _ => none, 0⟩, draws := ⟨id, 0⟩ }
    let text := "\x7b\x7ba\x7d\x7d \x7b\x7bb\x7d\x7d \x7b\x7ba=1\x7d\x7d"
    let after := (on (expand text) r).2
    r.lenient = false ∧ Segment.Splits text.toList (Segment.ofText text.toList) ∧ ¬after.ended ∧
      after.settle (on (expand text) r).1 = .error (.propertyNotFound ["b"] "not specified") := by
  intro r text after
  have hmissing : (r.recorded (Segment.ofText text.toList)).unknown (Segment.ofText text.toList) =
      ["b"] := by decide +kernel
  have hsplits := Segment.splits_ofText text.toList
  have hends : ¬after.ended := by decide +kernel
  have h := (expand_exact (r := r) rfl hsplits).2.2.1 hends (by simp [hmissing])
  exact ⟨rfl, hsplits, hends, by rw [h, hmissing]; rfl⟩

end Resolve
end RequestLang
