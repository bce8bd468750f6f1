import RequestLang.Proofs.Compile.Fields
import RequestLang.Proofs.Property.Expansion
import RequestLang.Proofs.Text.Word

/-! Four ways to ask a resolver for a name: for its value, for whether there is one, in the table of
all properties, and by a marker in a template. They agree whatever the resolver was told before. -/
namespace RequestLang

/-- The places where a name can have a value, in the order in which they are asked. -/
inductive Tier where
  | commandLine | env | inFile | process | command
  deriving DecidableEq, Repr

namespace Tier

def all : List Tier := [commandLine, env, inFile, process, command]

/-- The tiers that are listed with all their names. -/
def listed : List Tier := [commandLine, env, inFile]

end Tier

def Slot.value? : Slot → Option String
  | .value v => some v
  | _ => none

/-- What a resolver is told before it is asked. -/
inductive Change where
  | commandLine (key value : String)
  | env (key value : String)
  | command (key text : String)
  | variable (key value : String) (replaces : Bool)
  | defaults (text : String)
  | enableCommands

namespace Resolver

def change (r : Resolver) : Change → Resolver
  | .commandLine key value => r.addCommandLine key value
  | .env key value => r.addEnv key value
  | .command key text => r.addCommand key text
  | .variable key value replaces => r.declare key value replaces
  | .defaults text => r.mine text
  | .enableCommands => r.enableCommands

/-- What a tier by itself says about a name. -/
def tierValue? (r : Resolver) (key : String) : Tier → Option String
  | .commandLine => getKey? key r.commandLine
  | .env => getKey? key r.env
  | .inFile => (r.slotOf key).value?
  | .process => r.surroundings.environment key
  | .command => r.commandValue? key

/-- The value in the first of some tiers that has one. -/
def firstValue? (r : Resolver) (tiers : List Tier) (key : String) : Option String :=
  tiers.findSome? (r.tierValue? key)

/-- No tier that is listed holds a name twice. -/
structure Distinct (r : Resolver) : Prop where
  commandLine : (r.commandLine.map Prod.fst).Nodup
  env : (r.env.map Prod.fst).Nodup
  inFile : (r.inFile.map Prod.fst).Nodup

theorem mineBody_inFile (r : Resolver) (body : List Char) :
    (r.mineBody body).inFile = r.inFile ∨
      ∃ key entry, (r.mineBody body).inFile = setKey key entry r.inFile := by
  simp only [mineBody]
  cases (Placeholder.ofBody body).fallback with
  | none =>
    cases getKey? (Placeholder.ofBody body).key r.inFile with
    | some _ => exact .inl rfl
    | none => exact .inr ⟨_, _, rfl⟩
  | some raw =>
    obtain ⟨d, hd⟩ := expandDefault_frame r raw
    simp only [hd]
    exact .inr ⟨_, _, rfl⟩

namespace Distinct
variable {r : Resolver}

theorem mineBody (h : r.Distinct) (body : List Char) : (r.mineBody body).Distinct := by
  obtain ⟨entries, d, hframe⟩ := mineBody_frame r body
  have hfile := mineBody_inFile r body
  rw [hframe] at hfile ⊢
  rcases hfile with hsame | ⟨key, entry, hset⟩
  · exact ⟨h.commandLine, h.env, hsame ▸ h.inFile⟩
  · exact ⟨h.commandLine, h.env, hset ▸ nodup_keys_setKey key entry h.inFile⟩

theorem mine (h : r.Distinct) (text : String) : (r.mine text).Distinct := by
  unfold Resolver.mine
  induction (Segment.bodies text.toList).filter (!·.isEmpty) generalizing r with
  | nil => exact h
  | cons body rest ih => exact ih (h.mineBody body)

theorem change (h : r.Distinct) (c : Change) : (r.change c).Distinct := by
  cases c with
  | commandLine key value => exact ⟨nodup_keys_setKey key value h.commandLine, h.env, h.inFile⟩
  | env key value => exact ⟨h.commandLine, nodup_keys_setKey key value h.env, h.inFile⟩
  | command key text => exact ⟨h.commandLine, h.env, h.inFile⟩
  | «variable» key value replaces =>
    simp only [Resolver.change, declare]
    split
    · exact h
    · exact ⟨h.commandLine, h.env, nodup_keys_setKey key _ h.inFile⟩
  | defaults text => exact h.mine text
  | enableCommands => exact ⟨h.commandLine, h.env, h.inFile⟩

theorem run (h : r.Distinct) (changes : List Change) : (changes.foldl Resolver.change r).Distinct := by
  induction changes generalizing r with
  | nil => exact h
  | cons c rest ih => exact ih (h.change c)

end Distinct

theorem lookup_eq (r : Resolver) {key : String} (hkey : Generator.isSpecial key.toList = false) :
    r.lookup key = if r.inConflict key then .error (.propertyConflict key)
      else .ok (r.firstValue? Tier.all key) := by
  unfold lookup inConflict firstValue? Tier.all
  simp only [List.findSome?_cons, List.findSome?_nil, tierValue?, Slot.value?, hkey]
  cases getKey? key r.commandLine with
  | some v => simp
  | none =>
    cases getKey? key r.env with
    | some v => simp
    | none =>
      cases r.slotOf key with
      | value v => simp
      | conflict => simp
      | unset =>
        cases r.surroundings.environment key with
        | some v => simp
        | none => cases r.commandValue? key <;> simp

/-- A tier that is listed hides every conflict. -/
theorem inConflict_of_listed {r : Resolver} {key v : String}
    (h : r.firstValue? Tier.listed key = some v) :
    r.inConflict key = false ∧ r.firstValue? Tier.all key = some v := by
  unfold firstValue? at *
  simp only [Tier.listed, Tier.all, List.findSome?_cons, List.findSome?_nil, tierValue?, Slot.value?] at *
  unfold inConflict
  cases hc : getKey? key r.commandLine with
  | some w => simpa [hc] using h
  | none =>
    cases he : getKey? key r.env with
    | some w => simpa [hc, he] using h
    | none =>
      cases hs : r.slotOf key with
      | value w => simpa [hc, he, hs] using h
      | _ => simp [hc, he, hs] at h

theorem isAvailable_iff (r : Resolver) {key : String} (hkey : Generator.isSpecial key.toList = false) :
    r.isAvailable key ↔ r.lookup key ≠ .ok none := by
  constructor
  · intro h
    rcases lookup_of_isAvailable h hkey with ⟨-, hl⟩ | ⟨-, v, hl⟩
    · simp [hl]
    · simp [hl]
  · intro h
    rw [← Bool.not_eq_false]
    intro hnone
    simp only [isAvailable, Bool.or_eq_false_iff, Option.isSome_eq_false_iff, Option.isNone_iff_eq_none,
      bne_eq_false_iff_eq] at hnone
    obtain ⟨⟨⟨⟨⟨-, hc⟩, he⟩, hs⟩, hp⟩, hx⟩ := hnone
    exact h (by simp [lookup, commandValue?, hc, he, hs, hp, hx])

end Resolver

namespace Resolver

/-- The table of all properties starts from the request file and is overwritten from there. -/
theorem all_eq (r : Resolver) :
    r.all = (r.env ++ r.commandLine).foldl (fun acc e => setKey e.1 e.2 acc)
      (r.inFile.filterMap fun e => e.2.slot.value?.map (e.1, ·)) := by
  refine congrArg ((r.env ++ r.commandLine).foldl fun acc e => setKey e.1 e.2 acc)
    (List.filterMap_congr fun e _ => ?_)
  obtain ⟨k, slot, declared⟩ := e
  cases slot <;> rfl

theorem Distinct.nodup_keys_all {r : Resolver} (h : r.Distinct) : (r.all.map Prod.fst).Nodup := by
  rw [all_eq]
  exact nodup_keys_foldl_setKey _
    (h.inFile.sublist (keys_filterMap_sublist (fun e : Entry => e.slot.value?) r.inFile))

theorem Distinct.getKey?_all {r : Resolver} (h : r.Distinct) (key : String) :
    getKey? key r.all = r.firstValue? Tier.listed key := by
  have hfile : (getKey? key r.inFile).bind (fun e => e.slot.value?) = (r.slotOf key).value? := by
    unfold slotOf
    cases getKey? key r.inFile <;> rfl
  rw [all_eq, getKey?_foldl_setKey, List.reverse_append, getKey?_append, getKey?_reverse h.commandLine,
    getKey?_reverse h.env, getKey?_filterMap (fun e : Entry => e.slot.value?) h.inFile, hfile]
  simp only [firstValue?, Tier.listed, List.findSome?_cons, List.findSome?_nil, tierValue?]
  cases getKey? key r.commandLine with
  | some v => rfl
  | none =>
    cases getKey? key r.env with
    | some v => rfl
    | none => cases (r.slotOf key).value? <;> rfl

theorem markerValue?_eq (r : Resolver) (key : String) :
    r.markerValue? key = r.firstValue? Tier.listed key := by
  simp only [markerValue?, firstValue?, Tier.listed, List.findSome?_cons, List.findSome?_nil, tierValue?]
  cases getKey? key r.commandLine with
  | some v => rfl
  | none =>
    cases getKey? key r.env with
    | some v => rfl
    | none => cases r.slotOf key <;> rfl

end Resolver

/-! A marker is filled by itself, whatever stands before and behind it. -/

theorem markerAt?_eq_some {cs name after : List Char} (h : markerAt? cs = some (name, after)) :
    cs = '{' :: name ++ '}' :: after := by
  unfold markerAt? at h
  split at h
  · rename_i c cs
    split at h
    · split at h
      · rename_i rest hrest
        simp only [Option.some.injEq, Prod.mk.injEq] at h
        obtain ⟨rfl, rfl⟩ := h
        have hsplit := List.takeWhile_append_dropWhile (p := Text.isNameChar) (l := cs)
        rw [hrest] at hsplit
        simp [hsplit]
      · cases h
    · cases h
  · cases h

theorem markerAt?_name {name : List Char} (hname : name ≠ []) (hstart : ∀ c ∈ name.head?, Text.isNameStart c)
    (hrest : ∀ c ∈ name, Text.isNameChar c) (after : List Char) :
    markerAt? ('{' :: name ++ '}' :: after) = some (name, after) := by
  cases name with
  | nil => exact absurd rfl hname
  | cons c cs =>
    have hc : Text.isNameStart c := hstart c rfl
    have hcs : ∀ d ∈ cs, Text.isNameChar d := fun d hd => hrest d (List.mem_cons_of_mem _ hd)
    have hclose : Text.isNameChar '}' = false := by decide
    simp [markerAt?, hc, List.dropWhile_append_of_pos hcs, List.takeWhile_append_of_pos hcs, hclose]

/-- An opening brace behind a stretch of text takes no part in a marker that begins in it. -/
theorem markerAt?_append_open {cs : List Char} (hcs : cs ≠ []) (rest : List Char) :
    markerAt? (cs ++ '{' :: rest) =
      (markerAt? cs).map fun found => (found.1, found.2 ++ '{' :: rest) := by
  have hopen : Text.isNameChar '{' = false := by decide
  have hstart : Text.isNameStart '{' = false := by decide
  match cs with
  | [] => exact absurd rfl hcs
  | [c] =>
    by_cases hc : c = '{'
    · subst hc
      simp [markerAt?, hstart]
    · simp [markerAt?, hc]
  | b :: c :: cs =>
    by_cases hb : b = '{'
    · subst hb
      simp only [List.cons_append, markerAt?]
      cases Text.isNameStart c with
      | false => rfl
      | true =>
        have hdrop : (cs ++ '{' :: rest).dropWhile Text.isNameChar =
            cs.dropWhile Text.isNameChar ++ '{' :: rest := by
          rw [List.dropWhile_append]
          split
          · rename_i hempty
            simp [List.isEmpty_iff.mp hempty, hopen]
          · rfl
        have htake : (cs ++ '{' :: rest).takeWhile Text.isNameChar = cs.takeWhile Text.isNameChar := by
          rw [List.takeWhile_append]
          split
          · rename_i hlen
            rw [(List.takeWhile_prefix _).eq_of_length hlen]
            simp [hopen]
          · rfl
        rw [hdrop, htake]
        cases cs.dropWhile Text.isNameChar with
        | nil => rfl
        | cons d ds =>
          by_cases hd : d = '}'
          · subst hd
            rfl
          · simp [hd]
    · simp [markerAt?, hb]

theorem fillFrom_eq_drop (value? : String → Option String) (n : Nat) (cs : List Char) :
    fillFrom value? n cs = fillFrom value? 0 (cs.drop n) := by
  induction cs generalizing n with
  | nil => simp [fillFrom]
  | cons c cs ih =>
    cases n with
    | zero => rfl
    | succ n => simpa [fillFrom] using ih n

theorem fillFrom_append_open (value? : String → Option String) {n : Nat} {cs : List Char}
    (hn : n ≤ cs.length) (rest : List Char) :
    fillFrom value? n (cs ++ '{' :: rest) =
      fillFrom value? n cs ++ fillFrom value? 0 ('{' :: rest) := by
  induction cs generalizing n with
  | nil =>
    obtain rfl : n = 0 := Nat.le_zero.mp hn
    rfl
  | cons c cs ih =>
    cases n with
    | succ n => exact ih (Nat.le_of_succ_le_succ hn)
    | zero =>
      have hmarker := markerAt?_append_open (List.cons_ne_nil c cs) rest
      rw [List.cons_append] at hmarker ⊢
      rw [fillFrom, fillFrom, hmarker]
      cases hat : markerAt? (c :: cs) with
      | none => simp [ih (Nat.zero_le _)]
      | some found =>
        have hlen : found.1.length + 1 ≤ cs.length := by
          have := congrArg List.length (markerAt?_eq_some hat)
          simp at this
          omega
        simp [ih hlen]

theorem fillFrom_marker (value? : String → Option String) {name : List Char} (hname : name ≠ [])
    (hstart : ∀ c ∈ name.head?, Text.isNameStart c) (hrest : ∀ c ∈ name, Text.isNameChar c)
    (before after : List Char) :
    fillFrom value? 0 (before ++ ('{' :: name ++ '}' :: after)) =
      fillFrom value? 0 before ++ ((value? (String.ofList name)).map String.toList).getD ('{' :: name ++ ['}']) ++
        fillFrom value? 0 after := by
  have hmarker := markerAt?_name hname hstart hrest after
  have hdrop : (name ++ '}' :: after).drop (name.length + 1) = after := by simp [List.drop_append]
  rw [List.cons_append] at hmarker ⊢
  rw [fillFrom_append_open value? (Nat.zero_le _), List.append_assoc]
  congr 1
  rw [fillFrom, hmarker]
  simp only []
  rw [fillFrom_eq_drop value? (name.length + 1), hdrop]
  cases value? (String.ofList name) <;> rfl

namespace Resolver

theorem fillTemplate_marker (r : Resolver) {key : String} (hkey : key.toList ≠ [])
    (hstart : ∀ c ∈ key.toList.head?, Text.isNameStart c) (hrest : ∀ c ∈ key.toList, Text.isNameChar c)
    (before after : String) :
    r.fillTemplate (before ++ "\x7b" ++ key ++ "\x7d" ++ after) =
      r.fillTemplate before ++ (r.firstValue? Tier.listed key).getD ("\x7b" ++ key ++ "\x7d") ++
        r.fillTemplate after := by
  have hfill := fillFrom_marker r.markerValue? hkey hstart hrest before.toList after.toList
  rw [String.ofList_toList, markerValue?_eq] at hfill
  have htext : (before ++ "\x7b" ++ key ++ "\x7d" ++ after).toList =
      before.toList ++ ('{' :: key.toList ++ '}' :: after.toList) := by
    simp
  unfold fillTemplate RequestLang.fillTemplate
  rw [htext, hfill]
  apply String.toList_injective
  cases r.firstValue? Tier.listed key <;> simp

theorem change_overflowed (r : Resolver) (c : Change) : (r.change c).overflowed = r.overflowed := by
  cases c with
  | «variable» key value replaces =>
    simp only [change, declare]
    split <;> rfl
  | defaults text =>
    obtain ⟨entries, d, h⟩ := foldl_mineBody_frame r ((Segment.bodies text.toList).filter (!·.isEmpty))
    rw [change, mine, h]
  | _ => rfl

theorem run_overflowed (r : Resolver) (changes : List Change) :
    (changes.foldl change r).overflowed = r.overflowed := by
  induction changes generalizing r with
  | nil => rfl
  | cons c rest ih => rw [List.foldl_cons, ih, change_overflowed]

end Resolver

namespace Resolve
open Resolver

/-- Asking for a value, for availability, in the table and by a marker gives the same for a name
that is not computed: the first tier with a value counts, except that a conflict in the request file
hides what is behind it. Names that are computed are available and have a value, unless it takes a
remainder that overflows or draws more than memory holds. -/
theorem lookups_agree (surroundings : Surroundings) (draws : Draws) (lenient : Bool)
    (propertyFile : Option String) (changes : List Change) {key : String} (hkey : Text.trim key = key) :
    let r := changes.foldl change { lenient, propertyFile, surroundings, draws }
    let result := on (valueOf key) r
    (Generator.isSpecial key.toList = false →
      result = (if r.inConflict key then .error (.propertyConflict key)
        else .ok (r.firstValue? Tier.all key), r) ∧
      (r.isAvailable key ↔ result.1 ≠ .ok none) ∧
      (r.all.map Prod.fst).Nodup ∧
      getKey? key r.all = r.firstValue? Tier.listed key ∧
      (∀ v, getKey? key r.all = some v → result.1 = .ok (some v)) ∧
      ((key.toList ≠ [] ∧ (∀ c ∈ key.toList.head?, Text.isNameStart c) ∧
          ∀ c ∈ key.toList, Text.isNameChar c) →
        ∀ before after, r.fillTemplate (before ++ "\x7b" ++ key ++ "\x7d" ++ after) =
          r.fillTemplate before ++ (getKey? key r.all).getD ("\x7b" ++ key ++ "\x7d") ++
            r.fillTemplate after)) ∧
    (Generator.isSpecial key.toList →
      r.isAvailable key ∧ ∃ v, result.1 = .ok (some v) ∧
        (result.2.overflowed ↔ ∃ formula, key.toList = Generator.expressionMark.toList ++ formula ∧
          Arith.evaluate (String.ofList formula) = .error .remainderOverflow) ∧
        (result.2.draws.used.overflowed ↔ r.draws.used.overflowed ∨
          Generator.expressionMark.toList.isPrefixOf key.toList = false ∧ Generator.Overdraws key.toList)) := by
  intro r result
  have hdistinct : r.Distinct := by
    have hstart : Distinct { lenient, propertyFile, surroundings, draws } :=
      ⟨List.nodup_nil, List.nodup_nil, List.nodup_nil⟩
    exact hstart.run changes
  have hcalm : r.overflowed = false := run_overflowed _ changes
  have hall := hdistinct.getKey?_all key
  refine ⟨fun hspecial => ?_, fun hspecial => ?_⟩
  · have hresult : result = (r.lookup key, r) := on_valueOf_stored hkey hspecial
    rw [hresult]
    refine ⟨by rw [lookup_eq r hspecial], isAvailable_iff r hspecial, hdistinct.nodup_keys_all, hall,
      fun v hv => ?_, fun ⟨hne, hstart, hrest⟩ before after => ?_⟩
    · obtain ⟨hconflict, hvalue⟩ := inConflict_of_listed (hall.symm.trans hv)
      simp [lookup_eq r hspecial, hconflict, hvalue]
    · rw [hall]
      exact r.fillTemplate_marker hne hstart hrest before after
  · obtain ⟨v, d, o, hrun, -, hoverflow, hdraws⟩ := on_valueOf_special hkey hspecial r
    have hresult : result = (.ok (some v), { r with draws := d, overflowed := o }) := hrun
    rw [hresult]
    exact ⟨by simp [isAvailable, hspecial], v, rfl, by simpa [hcalm] using hoverflow, hdraws⟩

/-- A conflict that the environment hides, a default that nobody gives, and a command behind it. -/
theorem lookups_agree_hidden_conflict :
    let surroundings : Surroundings := ⟨fun _ => none, fun _ => some "root\n", 0⟩
    let changes : List Change := [.enableCommands, .command "b" "whoami",
      .defaults "\x7b\x7ba=1\x7d\x7d\x7b\x7ba=2\x7d\x7d\x7b\x7bb\x7d\x7d", .env "a" "3"]
    let r := changes.foldl change { surroundings, draws := ⟨id, 0⟩ }
    Text.trim "a" = "a" ∧ Text.trim "b" = "b" ∧ r.slotOf "a" = .conflict ∧
      on (valueOf "a") r = (.ok (some "3"), r) ∧ getKey? "a" r.all = some "3" ∧
      r.fillTemplate ("<" ++ "\x7b" ++ "a" ++ "\x7d" ++ ">") = "<3>" ∧
      on (valueOf "b") r = (.ok (some "root"), r) ∧ getKey? "b" r.all = none := by
  intro surroundings changes r
  have ha : Text.trim "a" = "a" := by decide
  have hb : Text.trim "b" = "b" := by decide
  obtain ⟨⟨hvalue, -, -, hall, -, hmarker⟩, -⟩ :=
    And.imp_left (· (by decide)) (lookups_agree surroundings ⟨id, 0⟩ false none changes ha)
  obtain ⟨⟨hvalue', -, -, hall', -, -⟩, -⟩ :=
    And.imp_left (· (by decide)) (lookups_agree surroundings ⟨id, 0⟩ false none changes hb)
  have hfree : r.inConflict "a" = false ∧ r.inConflict "b" = false := by decide +kernel
  have hfirst : r.firstValue? Tier.all "a" = some "3" ∧ r.firstValue? Tier.all "b" = some "root" := by
    decide +kernel
  have hlisted : r.firstValue? Tier.listed "a" = some "3" ∧ r.firstValue? Tier.listed "b" = none := by
    decide +kernel
  have hfill : r.fillTemplate "<" = "<" ∧ r.fillTemplate ">" = ">" := by decide +kernel
  refine ⟨ha, hb, by decide +kernel, ?_, hall.trans hlisted.1, ?_, ?_, hall'.trans hlisted.2⟩
  · rw [hvalue, hfree.1, hfirst.1]
    rfl
  · have hname : "a".toList = ['a'] := rfl
    rw [hmarker (by simp [hname, Text.isNameStart, Text.isNameChar]) "<" ">", hall, hlisted.1, hfill.1, hfill.2]
    rfl
  · rw [hvalue', hfree.2, hfirst.2]
    rfl

end Resolve
end RequestLang
