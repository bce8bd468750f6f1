import RequestLang.Property.Evaluate
import RequestLang.Proofs.Property.Expansion

/-! System commands that are not enabled. Two runs of a step that start from resolvers with other
command texts, and with other ideas of what a command prints, go the same way. -/
namespace RequestLang

namespace Resolver

/-- The same resolver with other command texts, and with other answers to commands. -/
def withCommands (r : Resolver) (commands : List (String × String)) (runs : String → Option String) :
    Resolver :=
  { r with commands, surroundings := { r.surroundings with runCommand := runs } }

/-- Commands are not enabled, and the second resolver has other texts under the same keys. -/
structure Alike (r r' : Resolver) : Prop where
  disabled : r.commandsEnabled = false
  changed : ∃ commands runs, commands.map Prod.fst = r.commands.map Prod.fst ∧
    r' = r.withCommands commands runs

theorem isSome_getKey? {α : Type} (key : String) (entries : List (String × α)) :
    (getKey? key entries).isSome = (entries.map Prod.fst).contains key := by
  rw [getKey?, Option.isSome_map, List.isSome_find?, List.contains_eq_any_beq, List.any_map]
  refine congrArg (List.any entries) (funext fun e => ?_)
  exact BEq.comm

section
variable (r : Resolver) (commands : List (String × String)) (runs : String → Option String)

theorem draw_withCommands {α : Type} (d : Draw α) :
    (r.withCommands commands runs).draw d = ((r.draw d).1, (r.draw d).2.withCommands commands runs) := rfl

theorem now_withCommands : (r.withCommands commands runs).surroundings.now = r.surroundings.now := rfl

theorem expandDefault_withCommands (raw : String) :
    (r.withCommands commands runs).expandDefault raw = ((r.expandDefault raw).1, (r.expandDefault raw).2.1,
      (r.expandDefault raw).2.2.withCommands commands runs) := by
  have hvalue (value : String) (d : Draw (List Char)) :
      (if Generator.isGenerator value.toList then
        (String.ofList ((r.withCommands commands runs).draw d).1, true, ((r.withCommands commands runs).draw d).2)
      else (value, false, r.withCommands commands runs)) =
      (let s := if Generator.isGenerator value.toList then (String.ofList (r.draw d).1, true, (r.draw d).2)
        else (value, false, r)
      (s.1, s.2.1, s.2.2.withCommands commands runs)) := by
    by_cases h : Generator.isGenerator value.toList
    · rw [if_pos h, if_pos h, draw_withCommands]
    · rw [if_neg h, if_neg h]
  simp only [expandDefault]
  cases Placeholder.unquoted? raw.toList with
  | some inner => rfl
  | none =>
    cases Placeholder.template? raw.toList with
    | some t =>
      have hfill : (r.withCommands commands runs).fillTemplate (String.ofList t) =
        r.fillTemplate (String.ofList t) := rfl
      refine (hvalue ((r.withCommands commands runs).fillTemplate (String.ofList t)) _).trans ?_
      rw [hfill, now_withCommands]
      rfl
    | none => exact hvalue raw _

theorem mineBody_withCommands (body : List Char) :
    (r.withCommands commands runs).mineBody body = (r.mineBody body).withCommands commands runs := by
  simp only [mineBody, expandDefault_withCommands]
  cases (Placeholder.ofBody body).fallback with
  | some raw => rfl
  | none =>
    have hfile : (r.withCommands commands runs).inFile = r.inFile := rfl
    rw [hfile]
    cases getKey? (Placeholder.ofBody body).key r.inFile <;> rfl

theorem mine_withCommands (text : String) :
    (r.withCommands commands runs).mine text = (r.mine text).withCommands commands runs := by
  unfold mine
  induction (Segment.bodies text.toList).filter (!·.isEmpty) generalizing r with
  | nil => rfl
  | cons body rest ih => rw [List.foldl_cons, List.foldl_cons, mineBody_withCommands, ih]

variable {r commands}

theorem isAvailable_withCommands (h : commands.map Prod.fst = r.commands.map Prod.fst) (key : String) :
    (r.withCommands commands runs).isAvailable key = r.isAvailable key := by
  have hkey : (getKey? key commands).isSome = (getKey? key r.commands).isSome := by
    rw [isSome_getKey?, isSome_getKey?, h]
  have hcommands : (r.withCommands commands runs).commands = commands := rfl
  unfold isAvailable
  rw [hcommands, hkey]
  rfl

theorem missing_withCommands (h : commands.map Prod.fst = r.commands.map Prod.fst) (text : String) :
    (r.withCommands commands runs).missing text = r.missing text := by
  unfold missing
  simp only [isAvailable_withCommands runs h]

/-- A notice stands for what a command would print. -/
theorem commandValue?_of_disabled (h : r.commandsEnabled = false) (key : String) :
    r.commandValue? key = if (getKey? key r.commands).isSome then some commandsDisabledText else none := by
  unfold commandValue?
  cases getKey? key r.commands <;> simp [h]

theorem lookup_withCommands (hr : r.commandsEnabled = false)
    (h : commands.map Prod.fst = r.commands.map Prod.fst) (key : String) :
    (r.withCommands commands runs).lookup key = r.lookup key := by
  have hvalue : (r.withCommands commands runs).commandValue? key = r.commandValue? key := by
    rw [commandValue?_of_disabled hr, commandValue?_of_disabled (r := r.withCommands commands runs) hr]
    have hcommands : (r.withCommands commands runs).commands = commands := rfl
    rw [hcommands, isSome_getKey?, isSome_getKey?, h]
  unfold lookup
  rw [hvalue]
  rfl

end

namespace Alike
variable {r r' : Resolver}

theorem lenient_eq (h : r.Alike r') : r'.lenient = r.lenient := by
  obtain ⟨commands, runs, -, rfl⟩ := h.changed
  rfl

theorem commandLine_eq (h : r.Alike r') : r'.commandLine = r.commandLine := by
  obtain ⟨commands, runs, -, rfl⟩ := h.changed
  rfl

theorem now_eq (h : r.Alike r') : r'.surroundings.now = r.surroundings.now := by
  obtain ⟨commands, runs, -, rfl⟩ := h.changed
  rfl

theorem fillTemplate_eq (h : r.Alike r') (template : String) :
    r'.fillTemplate template = r.fillTemplate template := by
  obtain ⟨commands, runs, -, rfl⟩ := h.changed
  rfl

theorem missing_eq (h : r.Alike r') (text : String) : r'.missing text = r.missing text := by
  obtain ⟨commands, runs, hkeys, rfl⟩ := h.changed
  exact missing_withCommands runs hkeys text

theorem lookup_eq (h : r.Alike r') (key : String) : r'.lookup key = r.lookup key := by
  obtain ⟨commands, runs, hkeys, rfl⟩ := h.changed
  exact lookup_withCommands runs h.disabled hkeys key

theorem notFound_eq (h : r.Alike r') (names : List String) : r'.notFound names = r.notFound names := by
  obtain ⟨commands, runs, -, rfl⟩ := h.changed
  rfl

/-- A change that leaves commands alone keeps resolvers alike. -/
theorem of_frame (h : r.Alike r') {f : Resolver → Resolver}
    (hf : ∀ commands runs, f (r.withCommands commands runs) = (f r).withCommands commands runs)
    (hdisabled : (f r).commandsEnabled = r.commandsEnabled) (hcommands : (f r).commands = r.commands) :
    (f r).Alike (f r') := by
  obtain ⟨commands, runs, hkeys, rfl⟩ := h.changed
  exact ⟨hdisabled.trans h.disabled, commands, runs, by rw [hcommands, hkeys], hf commands runs⟩

theorem draw (h : r.Alike r') {α : Type} (d : Draw α) :
    (r'.draw d).1 = (r.draw d).1 ∧ (r.draw d).2.Alike (r'.draw d).2 := by
  refine ⟨?_, h.of_frame (f := fun r => (r.draw d).2) (fun _ _ => rfl) rfl rfl⟩
  obtain ⟨commands, runs, -, rfl⟩ := h.changed
  rfl

theorem declare (h : r.Alike r') (key value : String) : (r.declare key value true).Alike (r'.declare key value true) :=
  h.of_frame (f := fun r => r.declare key value true) (fun _ _ => rfl) rfl rfl

theorem addCommandLine (h : r.Alike r') (key value : String) :
    (r.addCommandLine key value).Alike (r'.addCommandLine key value) :=
  h.of_frame (f := fun r => r.addCommandLine key value) (fun _ _ => rfl) rfl rfl

theorem noteFault (h : r.Alike r') (f : Arith.Fault) : (r.noteFault f).Alike (r'.noteFault f) :=
  h.of_frame (f := fun r => r.noteFault f) (fun _ _ => rfl) rfl rfl

theorem fail (h : r.Alike r') (f : Failure) :
    Alike { r with failures := r.failures ++ [f] } { r' with failures := r'.failures ++ [f] } :=
  h.of_frame (f := fun r => { r with failures := r.failures ++ [f] }) (fun _ _ => rfl) rfl rfl

theorem mine (h : r.Alike r') (text : String) : (r.mine text).Alike (r'.mine text) := by
  obtain ⟨entries, d, hmine⟩ :=
    foldl_mineBody_frame r ((Segment.bodies text.toList).filter (!·.isEmpty))
  have hr : r.mine text = { r with inFile := entries, draws := d } := hmine
  exact h.of_frame (f := fun r => r.mine text) (fun commands runs => mine_withCommands r commands runs text)
    (by rw [hr]) (by rw [hr])

end Alike

end Resolver

namespace Resolve
variable {α β : Type}

/-- Two steps that go the same way on resolvers that are alike. -/
def Agree (x x' : Resolve α) : Prop :=
  ∀ ⦃r r' : Resolver⦄, r.Alike r' → (on x r).1 = (on x' r').1 ∧ (on x r).2.Alike (on x' r').2

/-- The step goes its way whatever commands say. -/
abbrev Blind (x : Resolve α) : Prop := Agree x x

namespace Agree

theorem pure (a : α) : Blind (Pure.pure a : Resolve α) := fun _ _ h => ⟨rfl, h⟩

theorem throw (f : Failure) : Blind (throw f : Resolve α) := fun _ _ h => ⟨rfl, h⟩

theorem ofExcept (x : Except Failure α) : Blind (Resolve.ofExcept x) := by
  cases x with
  | ok a => exact pure a
  | error f => exact throw f

theorem bind_on {r r' : Resolver} {x x' : Resolve α} {f f' : α → Resolve β} (hx : Agree x x')
    (h : r.Alike r') (hf : ∀ a, (on x r).1 = .ok a → Agree (f a) (f' a)) :
    (on (x >>= f) r).1 = (on (x' >>= f') r').1 ∧ (on (x >>= f) r).2.Alike (on (x' >>= f') r').2 := by
  obtain ⟨heq, halike⟩ := hx h
  rw [on_bind, on_bind]
  rcases hr : on x r with ⟨_ | a, s⟩ <;> rcases hr' : on x' r' with ⟨_ | a', s'⟩ <;>
    simp only [hr, hr', reduceCtorEq, Except.error.injEq, Except.ok.injEq] at heq halike hf
  · subst heq
    exact ⟨rfl, halike⟩
  · subst heq
    exact hf a rfl halike

theorem bind {x x' : Resolve α} {f f' : α → Resolve β} (hx : Agree x x') (hf : ∀ a, Agree (f a) (f' a)) :
    Agree (x >>= f) (x' >>= f') := fun _ _ h => hx.bind_on h fun a _ => hf a

theorem ofExcept_bind {x : Except Failure α} {f : α → Resolve β} (hf : ∀ a, x = .ok a → Blind (f a)) :
    Blind (Resolve.ofExcept x >>= f) := by
  cases x with
  | ok a => exact fun r r' h => hf a rfl h
  | error e => exact fun r r' h => ⟨rfl, h⟩

theorem tryCatch {x x' : Resolve α} {f f' : Failure → Resolve α} (hx : Agree x x')
    (hf : ∀ e, Agree (f e) (f' e)) : Agree (tryCatch x f) (tryCatch x' f') := by
  intro r r' h
  obtain ⟨heq, halike⟩ := hx h
  rw [on_tryCatch, on_tryCatch]
  rcases hr : on x r with ⟨e | _, s⟩ <;> rcases hr' : on x' r' with ⟨e' | _, s'⟩ <;>
    simp only [hr, hr', reduceCtorEq, Except.error.injEq, Except.ok.injEq] at heq halike
  · subst heq
    exact hf e halike
  · subst heq
    exact ⟨rfl, halike⟩

/-- What is read may differ, as long as resolvers that are alike make the rest agree. -/
theorem get_bind {f f' : Resolver → Resolve β} (h : ∀ r r', r.Alike r' → Agree (f r) (f' r')) :
    Agree (get >>= f) (get >>= f') := by
  intro r r' halike
  exact h r r' halike halike

theorem set {s s' : Resolver} (h : s.Alike s') : Agree (MonadStateOf.set s : Resolve Unit) (MonadStateOf.set s') :=
  fun _ _ _ => ⟨rfl, h⟩

theorem modify {f : Resolver → Resolver} (h : ∀ r r', r.Alike r' → (f r).Alike (f r')) :
    Blind (modify f : Resolve Unit) := fun r r' halike => ⟨rfl, h r r' halike⟩

theorem ite_congr {c c' : Prop} [Decidable c] [Decidable c'] (hc : c ↔ c') {x x' y y' : Resolve α}
    (hx : Agree x x') (hy : Agree y y') : Agree (if c then x else y) (if c' then x' else y') := by
  by_cases h : c
  · rw [if_pos h, if_pos (hc.mp h)]
    exact hx
  · rw [if_neg h, if_neg (mt hc.mpr h)]
    exact hy

theorem ite {c : Prop} [Decidable c] {x x' y y' : Resolve α} (hx : Agree x x') (hy : Agree y y') :
    Agree (if c then x else y) (if c then x' else y') := ite_congr Iff.rfl hx hy

theorem mapM {f : α → Resolve β} (h : ∀ a, Blind (f a)) (xs : List α) : Blind (xs.mapM f) := by
  induction xs with
  | nil => exact pure []
  | cons a xs ih =>
    rw [List.mapM_cons]
    exact (h a).bind fun b => ih.bind fun bs => pure (b :: bs)

theorem foldlM {f : β → α → Resolve β} (h : ∀ b a, Blind (f b a)) (xs : List α) (b : β) :
    Blind (xs.foldlM f b) := by
  induction xs generalizing b with
  | nil => exact pure b
  | cons a xs ih =>
    rw [List.foldlM_cons]
    exact (h b a).bind fun b' => ih b'

theorem forM {f : α → Resolve PUnit} (h : ∀ a, Blind (f a)) (xs : List α) : Blind (xs.forM f) := by
  induction xs with
  | nil => exact pure PUnit.unit
  | cons a xs ih => exact (h a).bind (f := fun _ => xs.forM f) fun _ => ih

end Agree

theorem blind_failOr (f : Failure) (a : α) : Blind (failOr f a) := by
  refine .get_bind fun r r' h => .ite_congr (by rw [h.lenient_eq]) ?_ (.throw f)
  exact .bind (.set (h.fail f)) fun _ => .pure a

theorem blind_valueOf (key : String) : Blind (valueOf key) := by
  refine .get_bind fun r r' h => ?_
  dsimp only
  refine .ite ?_ (.ite ?_ ?_)
  · split
    · exact .pure _
    · exact .bind (.set (h.noteFault _)) fun _ => .pure _
  · obtain ⟨hvalue, hdraw⟩ := h.draw (Generator.generate r.surroundings.now.seconds (Text.trim key).toList)
    rw [h.now_eq]
    rw [hvalue]
    exact .bind (.set hdraw) fun _ => .pure _
  · rw [h.lookup_eq]
    split
    · exact .pure _
    · exact .throw _

theorem blind_expandSegments (segments : List Segment) (failed : Option Failure) :
    Blind (expandSegments segments failed) := by
  induction segments generalizing failed with
  | nil => exact .pure _
  | cons s rest ih =>
    cases s with
    | plain cs => exact .bind (ih failed) fun _ => .pure _
    | hole body =>
      rw [expandSegments]
      refine .ite (.bind (.pure _) fun given => .bind (ih given.2) fun _ => .pure _)
        (.bind (.tryCatch (.bind (blind_valueOf _) fun value => ?_) fun _ => .pure _)
          fun given => .bind (ih given.2) fun _ => .pure _)
      cases value with
      | some v => exact .pure _
      | none => exact .pure _

theorem blind_expand (text : String) : Blind (expand text) := by
  refine .ite (.pure _) (.bind (.modify fun r r' h => h.mine text) fun _ => .get_bind fun r r' h => ?_)
  rw [h.missing_eq]
  split
  · refine .bind (blind_expandSegments _ _) fun (expanded, failed) => ?_
    cases failed with
    | some f => exact blind_failOr f _
    | none => exact .pure _
  · rw [h.notFound_eq]
    exact blind_failOr _ _

theorem blind_check (text : String) : Blind (check text) := by
  refine .get_bind fun r r' h => ?_
  rw [h.missing_eq]
  split
  · exact .pure _
  · rw [h.notFound_eq]
    exact .throw _

theorem blind_expandJson (text : String) : Blind (expandJson text) := by
  unfold expandJson
  dsimp only
  split
  · exact .bind (blind_expand _) fun _ => .pure _
  · refine .bind (blind_expand _) fun value => .ite (.pure _) ?_
    split <;> exact .pure _

theorem blind_substitute (before : Option Char) (skip : Nat) (cs : List Char) :
    Blind (substitute before skip cs) := by
  induction cs generalizing before skip with
  | nil => exact .pure _
  | cons c cs ih =>
    cases skip with
    | succ n => exact ih (some c) n
    | zero =>
      rw [substitute]
      refine .ite (.bind (.tryCatch (blind_valueOf _) fun _ => .pure _) fun value => ?_)
        (.bind (ih _ _) fun _ => .pure _)
      refine .bind (ih _ _) fun rest => ?_
      cases value with
      | some v => exact .pure _
      | none => exact .pure _

theorem blind_evaluateArithmetic (text : String) : Blind (evaluateArithmetic text) := by
  rw [evaluateArithmetic]
  refine .bind (blind_expand text) fun expanded => .bind (blind_substitute _ _ _) fun (cs, unknown) => ?_
  refine .ite (.bind (blind_check _) fun _ => ?_) ?_ <;> dsimp only <;> split
  · exact .pure _
  · exact .bind (.modify fun r r' h => h.noteFault _) fun _ => .throw _
  · exact .pure _
  · exact .bind (.modify fun r r' h => h.noteFault _) fun _ => .throw _

theorem blind_evaluateKey (key : JsonKey) : Blind (evaluateKey key) := by
  unfold evaluateKey
  split
  · exact blind_expand _
  · exact .bind (blind_expandJson _) fun _ => .pure _

mutual

theorem blind_evaluate (t : JsonTerm) : Blind (evaluate t) := by
  cases t with
  | null | bool | number =>
    rw [evaluate]
    exact .pure _
  | literal l =>
    rw [evaluate]
    exact .bind (blind_expand l.value) fun _ => .pure _
  | reference text =>
    rw [evaluate]
    exact blind_expandJson _
  | arithmetic text =>
    rw [evaluate]
    exact blind_evaluateArithmetic text
  | array items =>
    rw [evaluate]
    exact .bind (blind_evaluateItems items) fun _ => .pure _
  | object members =>
    rw [evaluate]
    exact .bind (blind_evaluateMembers [] members) fun _ => .pure _

theorem blind_evaluateItems (ts : List JsonTerm) : Blind (evaluateItems ts) := by
  cases ts with
  | nil =>
    rw [evaluateItems]
    exact .pure _
  | cons t ts =>
    rw [evaluateItems]
    exact .bind (blind_evaluate t) fun _ => .bind (blind_evaluateItems ts) fun _ => .pure _

theorem blind_evaluateMembers (acc : List (String × Json)) (ms : List (JsonKey × JsonTerm)) :
    Blind (evaluateMembers acc ms) := by
  cases ms with
  | nil =>
    rw [evaluateMembers]
    exact .pure _
  | cons m ms =>
    obtain ⟨k, t⟩ := m
    rw [evaluateMembers]
    exact .bind (blind_evaluateKey k) fun _ => .bind (blind_evaluate t) fun _ => blind_evaluateMembers _ ms

end

end Resolve
end RequestLang
