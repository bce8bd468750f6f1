import Mathlib
import RequestLang.Proofs.Property.Mining
import RequestLang.Proofs.Token.Stops

/-! A text that is searched for defaults twice. The second search finds the same defaults, and they
expand as before unless a template mentions a name that got its value only later in the text. -/
namespace RequestLang

/-- A template has a marker for a name. -/
def Mentions (template : List Char) (name : String) : Prop :=
  Lexer.isHeaded Text.isNameChar name.toList ∧ ∃ before after, template = before ++ '{' :: name.toList ++ '}' :: after

theorem mentions_of_markerAt? {cs name after : List Char} (h : markerAt? cs = some (name, after)) :
    Mentions cs (String.ofList name) := by
  have hcs := markerAt?_eq_some h
  refine ⟨?_, [], after, by simpa using hcs⟩
  unfold markerAt? at h
  split at h
  · rename_i c ds
    split at h
    · rename_i hc
      split at h
      · simp only [Option.some.injEq, Prod.mk.injEq] at h
        obtain ⟨rfl, -⟩ := h
        rw [String.toList_ofList, Lexer.isHeaded, hc, Bool.true_and, List.all_eq_true]
        exact fun d hd => List.mem_takeWhile_imp hd
      · cases h
    · cases h
  · cases h

/-- What a template is filled with depends on the names that it mentions. -/
theorem fillFrom_congr {f g : String → Option String} {cs : List Char} (h : ∀ name, Mentions cs name → f name = g name)
    (n : Nat) : fillFrom f n cs = fillFrom g n cs := by
  induction cs generalizing n with
  | nil => simp [fillFrom]
  | cons c cs ih =>
    have htail : ∀ name, Mentions cs name → f name = g name := by
      rintro name ⟨hname, before, after, rfl⟩
      exact h name ⟨hname, c :: before, after, rfl⟩
    cases n with
    | succ n => exact ih htail n
    | zero =>
      rw [fillFrom, fillFrom]
      cases hat : markerAt? (c :: cs) with
      | none => simp only [ih htail]
      | some found => simp only [ih htail, h _ (mentions_of_markerAt? hat)]

/-- Two readings of one default: both drawn, or the same. -/
def Default.Agrees (d d' : Default) : Prop := d.drawn = d'.drawn ∧ (d.drawn = false → d.value = d'.value)

namespace Entry
variable {e : Entry} {v : String}

/-- A default that is met leaves nothing unsaid. -/
theorem met_of_meetAll {ds : List Default} (h : ds ≠ []) :
    (e.meetAll ds).declared = true ∨ (e.meetAll ds).slot ≠ .unset := by
  obtain ⟨d, ds, rfl⟩ := List.exists_cons_of_ne_nil h
  obtain ⟨slot, declared⟩ := e
  cases declared with
  | true => exact .inl (congrArg Entry.declared (meetAll_of_declared rfl _))
  | false =>
    right
    cases slot with
    | unset =>
      rcases slot_meetAll_of_value (e := ⟨.value d.value, false⟩) rfl ds with hslot | hslot <;>
        exact fun hunset => nomatch hslot.symm.trans hunset
    | value w =>
      rcases slot_meetAll_of_value (e := ⟨.value w, false⟩) rfl (d :: ds) with hslot | hslot <;>
        exact fun hunset => nomatch hslot.symm.trans hunset
    | conflict =>
      have hslot := slot_meetAll_of_conflict (e := ⟨.conflict, false⟩) rfl (d :: ds)
      exact fun hunset => nomatch hslot.symm.trans hunset

/-- While there is no conflict, every default that was not drawn has the value that is kept. -/
theorem value_of_meetAll {ds : List Default} (hdeclared : e.declared = false) (h : (e.meetAll ds).slot = .value v) :
    ∀ d ∈ ds, d.drawn = false → d.value = v := by
  have hkept (w : String) (more : List Default) (hw : (meetAll ⟨.value w, false⟩ more).slot = .value v) :
      w = v ∧ ∀ d ∈ more, d.drawn = false → d.value = v := by
    rw [meetAll_value] at hw
    dsimp only at hw
    split at hw
    · cases hw
    · rename_i hsame
      cases hw
      exact ⟨rfl, fun d hd hdrawn => by_contra fun hne => hsame ⟨d, hd, hdrawn, hne⟩⟩
  obtain ⟨slot, declared⟩ := e
  obtain rfl : declared = false := hdeclared
  cases slot with
  | value w => exact (hkept w ds h).2
  | conflict => exact nomatch (slot_meetAll_of_conflict rfl ds).symm.trans h
  | unset =>
    cases ds with
    | nil => nofun
    | cons d ds =>
      obtain ⟨hd, hrest⟩ := hkept d.value ds h
      exact List.forall_mem_cons.mpr ⟨fun _ => hd, hrest⟩

theorem declared_meetAll (e : Entry) (ds : List Default) : (e.meetAll ds).declared = e.declared := by
  induction ds generalizing e with
  | nil => rfl
  | cons d ds ih =>
    rw [meetAll_cons, ih, Resolver.Entry.meet]
    split
    · rfl
    · split
      · rfl
      · split <;> rfl
      · rfl

/-- What is said stays, or ends in a conflict. -/
theorem slot_meetAll_of_met (hmet : e.declared = true ∨ e.slot ≠ .unset) (ds : List Default) :
    (e.meetAll ds).slot = e.slot ∨ (e.meetAll ds).slot = .conflict := by
  rcases hmet with hdeclared | hset
  · exact .inl (congrArg Entry.slot (meetAll_of_declared hdeclared ds))
  · cases hslot : e.slot with
    | unset => exact absurd hslot hset
    | value v => exact slot_meetAll_of_value hslot ds
    | conflict => exact .inr (slot_meetAll_of_conflict hslot ds)

/-- While there is no conflict, a default that agrees with one that was met is known already. -/
theorem known_of_agrees {ds : List Default} {d d' : Default} (hagrees : d.Agrees d') (hd' : d' ∈ ds)
    (hcalm : (e.meetAll ds).slot ≠ .conflict) :
    (e.meetAll ds).declared = true ∨ d.drawn = true ∨ (e.meetAll ds).slot = .value d.value := by
  cases hdeclared : (e.meetAll ds).declared with
  | true => exact .inl rfl
  | false =>
    cases hslot : (e.meetAll ds).slot with
    | conflict => exact absurd hslot hcalm
    | unset => simpa [hdeclared, hslot] using met_of_meetAll (e := e) (List.ne_nil_of_mem hd')
    | value v =>
      have hsame := value_of_meetAll ((declared_meetAll e ds).symm.trans hdeclared) hslot d' hd'
      cases hdrawn : d.drawn with
      | true => exact .inr (.inl rfl)
      | false => exact .inr (.inr (by rw [hagrees.2 hdrawn, hsame (hagrees.1.symm.trans hdrawn)]))

/-- A default changes nothing if it was drawn, or is what is kept. -/
theorem meetAll_eq_self {ds : List Default} (hmet : e.declared = true ∨ e.slot ≠ .unset)
    (h : ∀ d ∈ ds, e.declared = true ∨ d.drawn = true ∨ e.slot = .value d.value) : e.meetAll ds = e := by
  obtain ⟨slot, declared⟩ := e
  cases declared with
  | true => exact meetAll_of_declared rfl ds
  | false =>
    cases slot with
    | unset => simp at hmet
    | conflict => exact meetAll_conflict false ds
    | value w =>
      rw [meetAll_value, if_neg]
      rintro ⟨d, hd, hdrawn, hne⟩
      rcases h d hd with hfalse | hdrawn' | hsame
      · cases hfalse
      · rw [hdrawn] at hdrawn'
        cases hdrawn'
      · cases hsame
        exact hne rfl

end Entry

namespace Resolver
variable {r s : Resolver} {key : String} {body : List Char} {raw : String}

/-- A default expands alike for resolvers that fill its template alike. -/
theorem expandDefault_congr (h : ∀ t, Placeholder.template? raw.toList = some t → ∀ name, Mentions t name →
      r.markerValue? name = s.markerValue? name) :
    Default.Agrees ⟨(r.expandDefault raw).1, (r.expandDefault raw).2.1⟩
      ⟨(s.expandDefault raw).1, (s.expandDefault raw).2.1⟩ := by
  simp only [expandDefault]
  cases Placeholder.unquoted? raw.toList with
  | some inner => exact ⟨rfl, fun _ => rfl⟩
  | none =>
    cases ht : Placeholder.template? raw.toList with
    | none =>
      dsimp only
      split
      · exact ⟨rfl, by simp⟩
      · exact ⟨rfl, fun _ => rfl⟩
    | some t =>
      have hfill : r.fillTemplate (String.ofList t) = s.fillTemplate (String.ofList t) := by
        rw [fillTemplate, fillTemplate, RequestLang.fillTemplate, RequestLang.fillTemplate, String.toList_ofList,
          fillFrom_congr (h t ht)]
      simp only [hfill]
      split
      · exact ⟨rfl, by simp⟩
      · exact ⟨rfl, fun _ => rfl⟩

theorem defaultOf?_congr {d : Default} (h : ∀ raw t, (Placeholder.ofBody body).fallback = some raw →
      Placeholder.template? raw.toList = some t → ∀ name, Mentions t name → r.markerValue? name = s.markerValue? name)
    (hd : r.defaultOf? key body = some d) : ∃ d', s.defaultOf? key body = some d' ∧ d.Agrees d' := by
  rw [defaultOf?] at hd ⊢
  split at hd
  · rename_i hkey
    obtain ⟨raw, hraw, rfl⟩ := Option.map_eq_some_iff.mp hd
    rw [if_pos hkey, hraw]
    exact ⟨_, rfl, expandDefault_congr fun t => h raw t hraw⟩
  · cases hd

/-- Resolvers by which every template is filled alike, and that know the same of every name. -/
structure SameKnowledge (s r : Resolver) : Prop where
  commandLine : s.commandLine = r.commandLine
  env : s.env = r.env
  entryOf : ∀ key, s.entryOf key = r.entryOf key

theorem SameKnowledge.markerValue? (h : s.SameKnowledge r) : s.markerValue? = r.markerValue? := by
  funext name
  simp only [Resolver.markerValue?, slotOf_eq, h.commandLine, h.env, h.entryOf]

/-- A default that is met once more and changes nothing. -/
def Repeats (r : Resolver) (body : List Char) : Prop :=
  ∀ key d, r.defaultOf? key body = some d →
    (r.entryOf key).declared = true ∨ d.drawn = true ∨ r.slotOf key = .value d.value

/-- A default has been met before. -/
def HasMet (r : Resolver) (body : List Char) : Prop :=
  ∀ key d, r.defaultOf? key body = some d → (r.entryOf key).declared = true ∨ r.slotOf key ≠ .unset

theorem SameKnowledge.mineBody (h : s.SameKnowledge r) (hmet : r.HasMet body) (hrepeats : r.Repeats body) :
    (s.mineBody body).SameKnowledge r := by
  obtain ⟨entries, d, hframe⟩ := mineBody_frame s body
  refine ⟨by rw [hframe, h.commandLine], by rw [hframe, h.env], fun key => ?_⟩
  rw [entryOf_mineBody, h.entryOf]
  cases hs : s.defaultOf? key body with
  | none => rfl
  | some d =>
    obtain ⟨d', hd', hdrawn, hvalue⟩ := defaultOf?_congr (fun _ _ _ _ name _ => congrFun h.markerValue? name) hs
    have hmet' := hmet key d' hd'
    rw [slotOf_eq] at hmet'
    refine Entry.meetAll_eq_self hmet' fun e he => ?_
    obtain rfl : e = d := by simpa using he
    rcases hrepeats key d' hd' with hdeclared | hsame | hsame
    · exact .inl hdeclared
    · exact .inr (.inl (hdrawn.trans hsame))
    · cases hcase : e.drawn with
      | true => exact .inr (.inl rfl)
      | false => exact .inr (.inr (by rw [← slotOf_eq, hsame, hvalue hcase]))

/-- A second search changes nothing that is known if every default repeats what is known. -/
theorem SameKnowledge.foldl_mineBody {bodies : List (List Char)} (h : s.SameKnowledge r)
    (hmet : ∀ body ∈ bodies, r.HasMet body) (hrepeats : ∀ body ∈ bodies, r.Repeats body) :
    (bodies.foldl Resolver.mineBody s).SameKnowledge r := by
  induction bodies generalizing s with
  | nil => exact h
  | cons body rest ih =>
    rw [List.forall_mem_cons] at hmet hrepeats
    exact ih (h.mineBody hmet.1 hrepeats.1) hmet.2 hrepeats.2

/-- A second search that ends without a conflict has met nothing but repetitions. The first default
that is none would have put its name in conflict for good. -/
theorem SameKnowledge.repeats {bodies : List (List Char)} (h : s.SameKnowledge r)
    (hmet : ∀ body ∈ bodies, r.HasMet body) (hcalm : ∀ key, (bodies.foldl Resolver.mineBody s).slotOf key ≠ .conflict) :
    ∀ body ∈ bodies, r.Repeats body := by
  induction bodies generalizing s with
  | nil => nofun
  | cons body rest ih =>
    rw [List.forall_mem_cons] at hmet
    have hbody : r.Repeats body := by
      intro key d hd
      obtain ⟨d', hd', hagrees⟩ := defaultOf?_congr (fun _ _ _ _ name _ => (congrFun h.markerValue? name).symm) hd
      have hmem : d' ∈ defaultsIn key s (body :: rest) := by simp [defaultsIn, hd']
      have hend := hcalm key
      rw [slotOf_foldl_mineBody, h.entryOf] at hend
      have hset := hmet.1 key d hd
      rw [slotOf_eq] at hset ⊢
      have hknown := Entry.known_of_agrees hagrees hmem hend
      rwa [Entry.declared_meetAll, (Entry.slot_meetAll_of_met hset _).resolve_right hend] at hknown
    exact List.forall_mem_cons.mpr ⟨hbody, ih (h.mineBody hmet.1 hbody) hmet.2 hcalm⟩

theorem hasMet_mine {text : String} (h : body ∈ minedBodies text) : (r.mine text).HasMet body := by
  intro key d hd
  rw [slotOf_eq, entryOf_mine]
  refine Entry.met_of_meetAll fun hnil => ?_
  have hnone : (r.mine text).defaultOf? key body = none :=
    defaultOf?_eq_none_iff.mpr (defaultsIn_eq_nil_iff.mp hnil body h)
  exact nomatch hd.symm.trans hnone

/-- A default that agrees with one that was met in a text repeats what is known after the text. -/
theorem repeats_of_agrees {text : String} {d d' : Default} (hagrees : d.Agrees d')
    (hd' : d' ∈ defaultsIn key r (minedBodies text)) (hcalm : (r.mine text).slotOf key ≠ .conflict) :
    ((r.mine text).entryOf key).declared = true ∨ d.drawn = true ∨ (r.mine text).slotOf key = .value d.value := by
  rw [slotOf_eq, entryOf_mine] at hcalm ⊢
  exact Entry.known_of_agrees hagrees hd' hcalm

/-- Defaults of a name that has no template expand alike whatever is known. -/
theorem defaultsIn_congr {bodies : List (List Char)} (h : ∀ body ∈ bodies, (Placeholder.ofBody body).key = key →
      ∀ raw, (Placeholder.ofBody body).fallback = some raw → Placeholder.template? raw.toList = none) (s : Resolver) :
    ∀ d ∈ defaultsIn key r bodies, ∃ d' ∈ defaultsIn key s bodies, d.Agrees d' := by
  induction bodies generalizing r s with
  | nil => nofun
  | cons body rest ih =>
    rw [List.forall_mem_cons] at h
    intro d hd
    rw [defaultsIn, List.mem_append, Option.mem_toList] at hd
    rcases hd with hd | hd
    · have hkey := key_of_defaultOf? hd
      obtain ⟨d', hd', hagrees⟩ := defaultOf?_congr (s := s) (fun raw t hraw ht => by simp [h.1 hkey raw hraw] at ht) hd
      exact ⟨d', by simp [defaultsIn, hd'], hagrees⟩
    · obtain ⟨d', hd', hagrees⟩ := ih h.2 (s.mineBody body) d hd
      exact ⟨d', List.mem_append_right _ hd', hagrees⟩

/-- A marker that has a value keeps it while its name gets into no conflict. -/
theorem markerValue?_foldl_mineBody {bodies : List (List Char)} {name v : String} (h : r.markerValue? name = some v)
    (hcalm : (bodies.foldl mineBody r).slotOf name ≠ .conflict) :
    (bodies.foldl mineBody r).markerValue? name = some v := by
  obtain ⟨entries, d, hframe⟩ := foldl_mineBody_frame r bodies
  have hlater : (bodies.foldl mineBody r).commandLine = r.commandLine ∧ (bodies.foldl mineBody r).env = r.env := by
    rw [hframe]
    exact ⟨rfl, rfl⟩
  unfold markerValue? at h ⊢
  rw [hlater.1, hlater.2]
  cases hcommandLine : getKey? name r.commandLine with
  | some w => simpa [hcommandLine] using h
  | none =>
    cases henv : getKey? name r.env with
    | some w => simpa [hcommandLine, henv] using h
    | none =>
      simp only [hcommandLine, henv] at h
      cases hslot : r.slotOf name with
      | unset => simp [hslot] at h
      | conflict => simp [hslot] at h
      | value w =>
        rw [slotOf_foldl_mineBody] at hcalm
        rw [slotOf_eq] at hslot
        have hkept := (Entry.slot_meetAll_of_value hslot (defaultsIn name r bodies)).resolve_right hcalm
        rw [slotOf_eq, hslot] at h
        simpa [slotOf_foldl_mineBody, hkept] using h

/-- Every marker of a template that has no value where the template is met has none after the text. -/
def Settled (r : Resolver) (text : String) : Prop :=
  ∀ before body after raw t name, minedBodies text = before ++ body :: after →
    (Placeholder.ofBody body).fallback = some raw → Placeholder.template? raw.toList = some t → Mentions t name →
    (before.foldl mineBody r).markerValue? name = none → (r.mine text).markerValue? name = none

theorem Settled.repeats {text : String} (h : r.Settled text) (hcalm : ∀ key, (r.mine text).slotOf key ≠ .conflict) :
    ∀ body ∈ minedBodies text, (r.mine text).Repeats body := by
  intro body hbody key d hd
  obtain ⟨before, after, hsplit⟩ := List.append_of_mem hbody
  have hmine : r.mine text = (body :: after).foldl mineBody (before.foldl mineBody r) := by
    rw [← List.foldl_append, ← hsplit]
    rfl
  have hread (raw : String) (t : List Char) (hraw : (Placeholder.ofBody body).fallback = some raw)
      (ht : Placeholder.template? raw.toList = some t) (name : String) (hname : Mentions t name) :
      (r.mine text).markerValue? name = (before.foldl mineBody r).markerValue? name := by
    cases hstep : (before.foldl mineBody r).markerValue? name with
    | none => exact h before body after raw t name hsplit hraw ht hname hstep
    | some v =>
      rw [hmine]
      exact markerValue?_foldl_mineBody hstep (hmine ▸ hcalm name)
  obtain ⟨d', hd', hagrees⟩ := defaultOf?_congr hread hd
  refine repeats_of_agrees hagrees ?_ (hcalm key)
  rw [hsplit, defaultsIn_append]
  exact List.mem_append_right _ (by simp [defaultsIn, hd'])

/-- What a second search changes gets into a conflict. -/
theorem slotOf_mine_mine (r : Resolver) (key text : String) :
    ((r.mine text).mine text).slotOf key = (r.mine text).slotOf key ∨
      ((r.mine text).mine text).slotOf key = .conflict := by
  rw [slotOf_eq, slotOf_eq, entryOf_mine (r.mine text)]
  by_cases hnil : defaultsIn key r (minedBodies text) = []
  · rw [defaultsIn_eq_nil_iff.mpr (defaultsIn_eq_nil_iff.mp hnil)]
    exact .inl rfl
  · refine Entry.slot_meetAll_of_met ?_ _
    rw [entryOf_mine]
    exact Entry.met_of_meetAll hnil

/-- A second search changes nothing about a name that no template gives a value to. -/
theorem entryOf_mine_mine {text : String} (h : ∀ body ∈ minedBodies text, (Placeholder.ofBody body).key = key →
      ∀ raw, (Placeholder.ofBody body).fallback = some raw → Placeholder.template? raw.toList = none)
    (hcalm : (r.mine text).slotOf key ≠ .conflict) :
    ((r.mine text).mine text).entryOf key = (r.mine text).entryOf key := by
  have hagrees := defaultsIn_congr (r := r.mine text) h r
  rw [entryOf_mine (r.mine text)]
  cases hmet : defaultsIn key (r.mine text) (minedBodies text) with
  | nil => rfl
  | cons first later =>
    rw [hmet] at hagrees
    obtain ⟨d', hd', -⟩ := hagrees first List.mem_cons_self
    refine Entry.meetAll_eq_self ?_ fun d hd => ?_
    · rw [entryOf_mine]
      exact Entry.met_of_meetAll (List.ne_nil_of_mem hd')
    · obtain ⟨d', hd', hd⟩ := hagrees d hd
      rw [← slotOf_eq]
      exact repeats_of_agrees hd hd' hcalm

/-- A text that is searched a second time, after it has put no name in conflict. Nothing that is known
changes exactly if every default repeats what is known, read by what is known then. What changes can
only get into a conflict, and only a name that a template gives a value to. Nothing changes if no
marker of a template gets its value after the template is met. -/
theorem mine_again {text : String} (hcalm : ∀ key, (r.mine text).slotOf key ≠ .conflict) :
    let once := r.mine text
    let twice := once.mine text
    ((∀ key, twice.slotOf key = once.slotOf key) ↔ ∀ body ∈ minedBodies text, once.Repeats body) ∧
    (∀ key, twice.slotOf key ≠ once.slotOf key → twice.slotOf key = .conflict ∧
      ∃ body ∈ minedBodies text, (Placeholder.ofBody body).key = key ∧
        ∃ raw, (Placeholder.ofBody body).fallback = some raw ∧ (Placeholder.template? raw.toList).isSome) ∧
    (r.Settled text → ∀ key, twice.slotOf key = once.slotOf key) := by
  intro once twice
  have hmet : ∀ body ∈ minedBodies text, once.HasMet body := fun body hbody => hasMet_mine hbody
  have hself : once.SameKnowledge once := ⟨rfl, rfl, fun _ => rfl⟩
  have hunchanged (hrepeats : ∀ body ∈ minedBodies text, once.Repeats body) (key : String) :
      twice.slotOf key = once.slotOf key := by
    have hsame : twice.SameKnowledge once := hself.foldl_mineBody hmet hrepeats
    rw [slotOf_eq, slotOf_eq, hsame.entryOf]
  refine ⟨⟨fun h => ?repeats, hunchanged⟩, fun key hne => ?conflict, fun h => hunchanged (h.repeats hcalm)⟩
  case repeats => exact hself.repeats hmet fun key hconflict => hcalm key ((h key).symm.trans hconflict)
  case conflict =>
    refine ⟨(slotOf_mine_mine r key text).resolve_left hne, ?_⟩
    by_contra hnone
    refine hne ?_
    rw [slotOf_eq, slotOf_eq once, entryOf_mine_mine (fun body hbody hkey raw hraw => ?_) (hcalm key)]
    by_contra ht
    exact hnone ⟨body, hbody, hkey, raw, hraw, Option.isSome_iff_ne_none.mpr ht⟩

theorem slotOf_ne_conflict (h : ∀ found ∈ r.inFile, found.2.slot ≠ .conflict) (key : String) :
    r.slotOf key ≠ .conflict := by
  rw [slotOf]
  cases hget : getKey? key r.inFile with
  | none => nofun
  | some e => exact h _ (mem_of_getKey? hget)

/-- A template is read alike twice after the default that its marker needs, and not before it. -/
theorem mine_again_template :
    let r : Resolver := { surroundings := ⟨fun _ => none, fun _ => none, 0⟩, draws := ⟨id, 0⟩ }
    let inOrder := "\x7b\x7bb=1\x7d\x7d\x7b\x7ba=p\"\x7bb\x7d\"\x7d\x7d"
    let reversed := "\x7b\x7ba=p\"\x7bb\x7d\"\x7d\x7d\x7b\x7bb=1\x7d\x7d"
    (∀ key, (r.mine inOrder).slotOf key ≠ .conflict) ∧ (r.mine inOrder).slotOf "a" = .value "1" ∧
    (∀ key, ((r.mine inOrder).mine inOrder).slotOf key = (r.mine inOrder).slotOf key) ∧
    (∀ key, (r.mine reversed).slotOf key ≠ .conflict) ∧ (r.mine reversed).slotOf "a" = .value "\x7bb\x7d" ∧
    ((r.mine reversed).mine reversed).slotOf "a" = .conflict := by
  intro r inOrder reversed
  have hinOrder : ∀ key, (r.mine inOrder).slotOf key ≠ .conflict := slotOf_ne_conflict (by decide +kernel)
  have hreversed : ∀ key, (r.mine reversed).slotOf key ≠ .conflict := slotOf_ne_conflict (by decide +kernel)
  have hbodies : minedBodies inOrder = ["b=1".toList, "a=p\"\x7bb\x7d\"".toList] := by decide +kernel
  obtain ⟨hiff, -, -⟩ := mine_again hinOrder
  obtain ⟨-, hconflict, -⟩ := mine_again hreversed
  have hrepeats : ∀ body ∈ minedBodies inOrder, (r.mine inOrder).Repeats body := by
    simp only [hbodies, List.forall_mem_cons, List.not_mem_nil, IsEmpty.forall_iff, implies_true, and_true]
    refine ⟨fun key d hd => ?_, fun key d hd => ?_⟩ <;>
    · obtain rfl := key_of_defaultOf? hd
      obtain rfl := Option.some.inj (hd.symm.trans (by decide +kernel : _ = some ⟨"1", false⟩))
      decide +kernel
  exact ⟨hinOrder, by decide +kernel, hiff.mpr hrepeats, hreversed, by decide +kernel,
    (hconflict "a" (by decide +kernel)).1⟩

end Resolver
end RequestLang
