import RequestLang.Proofs.Document.Progress

/-! The loops of the readers, turn by turn. Each completed turn takes a token, so each loop ends, and the
readers give what the loops end with. -/
namespace RequestLang
open Cursor

variable {c c' : Cursor}

/-- What is read behind what has been gathered so far. -/
def gathered {α : Type} (xs : List α) (x : Except Fault (List α × Cursor)) : Except Fault (List α × Cursor) :=
  Prod.map (xs ++ ·) id <$> x

section
variable {α : Type} (xs : List α) (a : α)

@[simp] theorem gathered_error (f : Fault) : gathered xs (.error f) = .error f := rfl

@[simp] theorem gathered_ok (ys : List α) (c : Cursor) : gathered xs (.ok (ys, c)) = .ok (xs ++ ys, c) := rfl

theorem gathered_cons (x : Except Fault (List α × Cursor)) : gathered xs (do
      let (ys, c) ← x
      return (a :: ys, c)) = gathered (xs ++ [a]) x := by
  cases x with
  | error f => rfl
  | ok y =>
    obtain ⟨ys, c⟩ := y
    simp

/-- A closing mark can be taken at once or be left for what reads on. -/
theorem gathered_close {c : Cursor} {rest : Except Fault (List α × Cursor)} (mark what : String)
    (h : c.isPunct mark → rest = .ok ([], c.advance)) : gathered xs (do
      let c ← c.expectPunct mark what
      return ([a], c)) = c.expect (·.isPunct mark) what >>= fun _ => gathered (xs ++ [a]) rest := by
  rw [expectPunct, bind_assoc]
  cases hmark : c.expect (·.isPunct mark) what with
  | error f => rfl
  | ok t =>
    obtain ⟨ht, hp⟩ := expect_eq_ok.mp hmark
    simp [h (by simpa [isPunct, ht] using hp)]

end

namespace Request

def tagTurn : Turn Request := fun r c =>
  match c.token? with
  | some t =>
    if t.kind = .tag then do
      let (r, c) ← r.readTag t c
      return .again r c.skip
    else .ok (.leave c)
  | none => .ok (.leave c)

theorem tagTurn_progresses : tagTurn.Progresses := by
  intro r c
  unfold tagTurn
  split
  · rename_i t ht
    refine .ite (fun _ => .bind ?_) fun _ => .ok (.refl c)
    rintro ⟨r₁, c₁⟩ h₁
    exact .ok (passes_of_token? ht (reaches_readTag h₁).skip)
  · exact .ok (.refl c)

theorem tagTurn_drives : tagTurn.Drives id fun r c => readTags (c.ahead.length + 1) r c := by
  refine tagTurn_progresses.drives (fun c => c.ahead.length) Passes.length_lt _ fun n r c _ => ?_
  simp only [readTags, Turn.follow, tagTurn]
  cases c.token? with
  | none => rfl
  | some t =>
    dsimp only
    split
    · rw [bind_assoc]
      rfl
    · rfl

def clauseTurn : Turn Request := fun r c => do
  let c := c.skip
  match ClauseKind.at? c with
  | none => return .leave c
  | some kind =>
    if let some clause := r.repeated? kind then throw (c.faultHere (.declaredTwice clause))
    let start := c.offset
    let (clause, c) ← Clause.read kind c
    let r := r.add clause ⟨start, c.lastEnd⟩
    if kind = .script then return .last r c else return .again r c

theorem clauseTurn_progresses : clauseTurn.Progresses := by
  intro r c
  unfold clauseTurn
  dsimp only
  split
  · exact .ok c.reaches_skip
  · rename_i kind hat
    split
    · exact .error _
    · refine .bind ?_
      rintro ⟨x, c₁⟩ h₁
      obtain ⟨t, ht, -⟩ := token?_skip_of_at? hat
      have hpass : c.Passes c₁ := .of_reaches c.reaches_skip (passes_of_token? ht (Clause.reaches_read h₁))
      exact .ite (fun _ => .ok hpass) fun _ => .ok hpass

theorem clauseTurn_drives : clauseTurn.Drives id fun r c => readClauses (c.ahead.length + 1) r c := by
  refine clauseTurn_progresses.drives (fun c => c.ahead.length) Passes.length_lt _ fun n r c _ => ?_
  simp only [readClauses, Turn.follow, clauseTurn]
  cases hat : ClauseKind.at? c.skip with
  | none => rfl
  | some kind =>
    dsimp only
    cases hrep : r.repeated? kind with
    | some clause => rfl
    | none =>
      dsimp only
      cases hread : Clause.read kind c.skip with
      | error f => rfl
      | ok y =>
        simp only [ok_bind]
        split <;> rfl

end Request

namespace Argument

def turn : Turn (List Argument) := fun args c => do
  let c := c.skip
  if c.isPunct ")" then return .leave c.advance
  let (name, c) := readName c
  let (value, c) ← c.textValue "string argument"
  let args := args ++ [⟨name, value⟩]
  let c := c.skip
  if c.isPunct "," then return .again args c.advance
  if c.isPunct ")" then return .again args c
  if c.atEnd then throw (c.endFault (.expected "')'"))
  throw (c.faultHere (.expected "',' or ')'"))

theorem turn_progresses : turn.Progresses := by
  intro args c
  unfold turn
  refine .ite (fun _ => .ok c.reaches_skip.advance) fun _ => .bind ?_
  rintro ⟨v, c₁⟩ h₁
  have hpass : c.Passes c₁.skip :=
    .of_reaches (c.reaches_skip.trans (reaches_readName c.skip)) ((passes_textValue h₁).before c₁.reaches_skip)
  refine .ite (fun _ => .ok (hpass.before (reaches_advance _))) fun _ => .ite (fun _ => .ok hpass) fun _ => ?_
  exact .ite (fun _ => .error _) fun _ => .error _

/-- A closing mark that is left for the next turn is taken there. -/
theorem readWithin_of_close {n : Nat} (hn : 0 < n) (h : c.skip.isPunct ")") :
    readWithin n c.skip = .ok ([], c.skip.advance) := by
  obtain ⟨n, rfl⟩ := Nat.exists_eq_succ_of_ne_zero (Nat.ne_of_gt hn)
  simp [readWithin, skip_skip, h]

theorem turn_drives : turn.Drives id fun args c => gathered args (readWithin (c.ahead.length + 1) c) := by
  refine turn_progresses.drives (fun c => c.ahead.length) Passes.length_lt
    (fun n args c => gathered args (readWithin n c)) fun n args c hn => ?_
  simp only [readWithin, Turn.follow, turn]
  split
  · simp
  cases hvalue : (readName c.skip).2.textValue "string argument" with
  | error f => rfl
  | ok y =>
    obtain ⟨v, c₁⟩ := y
    have hpos : 0 < n := by
      have := ((passes_textValue hvalue).of_reaches (c.reaches_skip.trans (reaches_readName c.skip))).length_lt
      omega
    simp only [ok_bind]
    split
    · exact gathered_cons ..
    split
    · rename_i hclose
      simp [readWithin_of_close hpos hclose]
    split <;> rfl

end Argument

namespace VariableBody

def turn : Turn (List String) := fun args c => do
  let c := c.skip
  let some t := c.token? | throw (c.endFault (.expected "')'"))
  if t.isPunct ")" then return .leave c.advance
  let value ←
    match t.kind with
    | .string | .tripleString => pure t.literal.value
    | .number | .identifier | .placeholder => pure t.text
    | _ => throw (c.faultHere (.expected "function argument"))
  let c := c.advance.skip
  let c := if c.isPunct "," then c.advance else c
  return .again (args ++ [value]) c

theorem turn_progresses : turn.Progresses := by
  intro args c
  unfold turn
  dsimp only
  split
  · rename_i t ht
    refine .ite (fun _ => .ok c.reaches_skip.advance) fun _ => ?_
    have hnext : c.Passes (if c.skip.advance.skip.isPunct "," then c.skip.advance.skip.advance else c.skip.advance.skip) := by
      refine .of_reaches c.reaches_skip (passes_of_token? ht ?_)
      split
      · exact (reaches_skip _).advance
      · exact reaches_skip _
    split
    case h_6 => exact .error _
    all_goals exact .ok hnext
  · exact .error _

theorem turn_drives : turn.Drives id fun args c => gathered args (argumentsWithin (c.ahead.length + 1) c) := by
  refine turn_progresses.drives (fun c => c.ahead.length) Passes.length_lt
    (fun n args c => gathered args (argumentsWithin n c)) fun n args c hn => ?_
  simp only [argumentsWithin, Turn.follow, turn]
  cases c.skip.token? with
  | none => rfl
  | some t =>
    dsimp only
    split
    · simp
    generalize t.kind = kind
    cases kind
    case string | tripleString | number | identifier | placeholder => exact gathered_cons ..
    all_goals rfl

end VariableBody

namespace PayloadTerm

def chunkTurn : Turn (List Literal) := fun chunks c =>
  let c := c.skip
  match c.token? with
  | some t => if t.isString then .ok (.again (chunks ++ [t.literal]) c.advance) else .ok (.leave c)
  | none => .ok (.leave c)

theorem chunkTurn_progresses : chunkTurn.Progresses := by
  intro chunks c
  unfold chunkTurn
  dsimp only
  split
  · rename_i t ht
    exact .ite (fun _ => .ok (.of_reaches c.reaches_skip (passes_advance ht))) fun _ => .ok c.reaches_skip
  · exact .ok c.reaches_skip

theorem chunkTurn_drives :
    chunkTurn.Drives id fun chunks c => gathered chunks (.ok (chunksWithin (c.ahead.length + 1) c)) := by
  refine chunkTurn_progresses.drives (fun c => c.ahead.length) Passes.length_lt
    (fun n chunks c => gathered chunks (.ok (chunksWithin n c))) fun n chunks c _ => ?_
  simp only [chunksWithin, Turn.follow, chunkTurn]
  cases c.skip.token? with
  | none => simp
  | some t =>
    dsimp only
    split
    · cases hmore : chunksWithin n c.skip.advance with
      | mk ys c₁ => simp [hmore]
    · simp

def partTurn : Turn (List PartTerm) := fun parts c => do
  let c := c.skip
  if c.isPunct ")" || c.atEnd then return .leave c
  let (name, c) ← c.textValue "multipart field name"
  let c := c.skip
  let _ ← c.expect (·.isOp "<") "'<'"
  let (source, c) ← c.advance.skip.textValue "file path or content"
  let (mime, c) ← readMime ";" c
  let parts := parts ++ [⟨name, source, mime⟩]
  let c := c.skip
  if c.isPunct "," then return .again parts c.advance
  return .last parts c

theorem partTurn_progresses : partTurn.Progresses := by
  intro parts c
  unfold partTurn
  refine .ite (fun _ => .ok c.reaches_skip) fun _ => .bind ?_
  rintro ⟨name, c₁⟩ h₁
  refine .bind fun mark _ => .bind ?_
  rintro ⟨source, c₂⟩ h₂
  refine .bind ?_
  rintro ⟨mime, c₃⟩ h₃
  have hpass : c.Passes c₃.skip := .of_reaches c.reaches_skip ((passes_textValue h₁).before
    ((reaches_textValue h₂).of_skip.of_advance.of_skip.trans (reaches_readMime h₃).skip))
  exact .ite (fun _ => .ok (hpass.before (reaches_advance _))) fun _ => .ok hpass

theorem partTurn_drives : partTurn.Drives id fun parts c => gathered parts (partsWithin (c.ahead.length + 1) c) := by
  refine partTurn_progresses.drives (fun c => c.ahead.length) Passes.length_lt
    (fun n parts c => gathered parts (partsWithin n c)) fun n parts c _ => ?_
  simp only [partsWithin, Turn.follow, partTurn]
  split
  · simp
  cases c.skip.textValue "multipart field name" with
  | error f => rfl
  | ok y =>
    simp only [ok_bind]
    cases y.2.skip.expect (·.isOp "<") "'<'" with
    | error f => rfl
    | ok mark =>
      simp only [ok_bind]
      cases y.2.skip.advance.skip.textValue "file path or content" with
      | error f => rfl
      | ok z =>
        simp only [ok_bind]
        cases readMime ";" z.2 with
        | error f => rfl
        | ok w =>
          simp only [ok_bind]
          split
          · exact gathered_cons ..
          · simp

end PayloadTerm

namespace JsonTerm

/-- What is read does not depend on a bound that allows two steps for each token. -/
theorem readWithin_succ (n : Nat) :
    (∀ {c : Cursor}, 2 * c.ahead.length < n → readWithin (n + 1) c = readWithin n c) ∧
    (∀ {c : Cursor}, 2 * c.ahead.length + 1 < n → readMembers (n + 1) c = readMembers n c) ∧
    (∀ {c : Cursor}, 2 * c.ahead.length + 1 < n → readItems (n + 1) c = readItems n c) := by
  induction n with
  | zero => exact ⟨fun h => absurd h (Nat.not_lt_zero _), fun h => absurd h (Nat.not_lt_zero _),
      fun h => absurd h (Nat.not_lt_zero _)⟩
  | succ n ih =>
    obtain ⟨ihTerm, ihMembers, ihItems⟩ := ih
    refine ⟨fun {c} hn => ?_, fun {c} hn => ?_, fun {c} hn => ?_⟩
    · rw [readWithin, readWithin]
      dsimp only
      cases ht : c.skip.token? with
      | none => rfl
      | some t =>
        have hlen := ((passes_advance ht).of_reaches c.reaches_skip).length_lt
        dsimp only
        rw [ihMembers (c := c.skip.advance) (by omega), ihItems (c := c.skip.advance) (by omega)]
    · rw [readMembers, readMembers]
      dsimp only
      split
      · rfl
      cases hkey : c.skip.expect (fun t => t.isString || t.kind == .placeholder) "object key" with
      | error f => rfl
      | ok key =>
        simp only [ok_bind]
        have hpass := (passes_advance (expect_eq_ok.mp hkey).1).of_reaches c.reaches_skip
        cases hcolon : c.skip.advance.skip.expectPunct ":" "':'" with
        | error f => rfl
        | ok c₁ =>
          simp only [ok_bind]
          have hlen := (hpass.before (reaches_expectPunct hcolon).of_skip).length_lt
          rw [ihTerm (c := c₁) (by omega)]
          cases hvalue : readWithin n c₁ with
          | error f => rfl
          | ok y =>
            obtain ⟨value, c₂⟩ := y
            have hlen₂ := (passes_readWithin hvalue).length_lt
            simp only [ok_bind]
            split
            · rename_i hcomma
              have hlen₃ := ((passes_of_isPunct hcomma).of_reaches c₂.reaches_skip).length_lt
              rw [ihMembers (c := c₂.skip.advance) (by omega)]
            · rfl
    · rw [readItems, readItems]
      dsimp only
      split
      · rfl
      have hlen := c.reaches_skip.length_le
      rw [ihTerm (c := c.skip) (by omega)]
      cases hvalue : readWithin n c.skip with
      | error f => rfl
      | ok y =>
        obtain ⟨value, c₁⟩ := y
        have hlen₁ := (passes_readWithin hvalue).length_lt
        simp only [ok_bind]
        split
        · rename_i hcomma
          have hlen₂ := ((passes_of_isPunct hcomma).of_reaches c₁.reaches_skip).length_lt
          rw [ihItems (c := c₁.skip.advance) (by omega)]
        · rfl

theorem readWithin_eq_read {n : Nat} (hn : 2 * c.ahead.length < n) : readWithin n c = read c := by
  have hmore (k : Nat) : readWithin (2 * c.ahead.length + 1 + k) c = readWithin (2 * c.ahead.length + 1) c := by
    induction k with
    | zero => rfl
    | succ k ih => rw [← Nat.add_assoc, (readWithin_succ _).1 (by omega), ih]
  obtain ⟨k, rfl⟩ := Nat.exists_eq_add_of_le (Nat.succ_le_of_lt hn)
  exact (hmore k).trans (hmore 1).symm

def memberTurn : Turn (List (JsonKey × JsonTerm)) := fun members c => do
  let c := c.skip
  if c.isPunct "\x7d" then return .leave c.advance
  let key ← c.expect (fun t => t.isString || t.kind == .placeholder) "object key"
  let c ← c.advance.skip.expectPunct ":" "':'"
  let (value, c) ← read c
  let members := members ++ [(keyOf key, value)]
  let c := c.skip
  if c.isPunct "," then return .again members c.advance
  let _ ← c.expect (·.isPunct "\x7d") "',' or '\x7d'"
  return .again members c

def itemTurn : Turn (List JsonTerm) := fun items c => do
  let c := c.skip
  if c.isPunct "]" then return .leave c.advance
  let (value, c) ← read c
  let items := items ++ [value]
  let c := c.skip
  if c.isPunct "," then return .again items c.advance
  let _ ← c.expect (·.isPunct "]") "',' or ']'"
  return .again items c

theorem memberTurn_progresses : memberTurn.Progresses := by
  intro members c
  unfold memberTurn
  refine .ite (fun _ => .ok c.reaches_skip.advance) fun _ => .bind fun key hkey => .bind fun c₁ h₁ => ?_
  refine .bind ?_
  rintro ⟨value, c₂⟩ h₂
  have hpass : c.Passes c₂.skip := .of_reaches c.reaches_skip (passes_of_token? (expect_eq_ok.mp hkey).1
    ((reaches_expectPunct h₁).of_skip.trans (reaches_read h₂).skip))
  exact .ite (fun _ => .ok (hpass.before (reaches_advance _))) fun _ => .bind fun _ _ => .ok hpass

theorem itemTurn_progresses : itemTurn.Progresses := by
  intro items c
  unfold itemTurn
  refine .ite (fun _ => .ok c.reaches_skip.advance) fun _ => .bind ?_
  rintro ⟨value, c₁⟩ h₁
  have hpass : c.Passes c₁.skip := .of_reaches c.reaches_skip ((passes_read h₁).before c₁.reaches_skip)
  exact .ite (fun _ => .ok (hpass.before (reaches_advance _))) fun _ => .bind fun _ _ => .ok hpass

theorem readMembers_of_close {n : Nat} (hn : 0 < n) (h : c.skip.isPunct "\x7d") :
    readMembers n c.skip = .ok ([], c.skip.advance) := by
  obtain ⟨n, rfl⟩ := Nat.exists_eq_succ_of_ne_zero (Nat.ne_of_gt hn)
  simp [readMembers, skip_skip, h]

theorem readItems_of_close {n : Nat} (hn : 0 < n) (h : c.skip.isPunct "]") :
    readItems n c.skip = .ok ([], c.skip.advance) := by
  obtain ⟨n, rfl⟩ := Nat.exists_eq_succ_of_ne_zero (Nat.ne_of_gt hn)
  simp [readItems, skip_skip, h]

theorem memberTurn_drives :
    memberTurn.Drives id fun members c => gathered members (readMembers (2 * c.ahead.length + 2) c) := by
  refine memberTurn_progresses.drives (fun c => 2 * c.ahead.length + 1) (fun h => ?_)
    (fun n members c => gathered members (readMembers n c)) fun n members c hn => ?_
  · have := h.length_lt
    omega
  simp only [readMembers, Turn.follow, memberTurn]
  split
  · simp
  cases hkey : c.skip.expect (fun t => t.isString || t.kind == .placeholder) "object key" with
  | error f => rfl
  | ok key =>
    simp only [ok_bind]
    cases hcolon : c.skip.advance.skip.expectPunct ":" "':'" with
    | error f => rfl
    | ok c₁ =>
      simp only [ok_bind]
      have hlen := (c.reaches_skip.trans (reaches_expectPunct hcolon).of_skip.of_advance).length_le
      rw [readWithin_eq_read (by omega)]
      cases read c₁ with
      | error f => rfl
      | ok y =>
        simp only [ok_bind]
        split
        · exact gathered_cons ..
        · rw [bind_assoc]
          exact gathered_close _ _ _ _ fun hclose => readMembers_of_close (by omega) hclose

theorem itemTurn_drives : itemTurn.Drives id fun items c => gathered items (readItems (2 * c.ahead.length + 2) c) := by
  refine itemTurn_progresses.drives (fun c => 2 * c.ahead.length + 1) (fun h => ?_)
    (fun n items c => gathered items (readItems n c)) fun n items c hn => ?_
  · have := h.length_lt
    omega
  simp only [readItems, Turn.follow, itemTurn]
  split
  · simp
  have hlen := c.reaches_skip.length_le
  rw [readWithin_eq_read (by omega)]
  cases read c.skip with
  | error f => rfl
  | ok y =>
    simp only [ok_bind]
    split
    · exact gathered_cons ..
    · rw [bind_assoc]
      exact gathered_close _ _ _ _ fun hclose => readItems_of_close (by omega) hclose

end JsonTerm

namespace Document

def turn (source : Option String) : Turn Document := fun doc c => do
  let c := c.skip
  let some t := c.token? | return .leave c
  if c.isKeyword "import" then
    let (i, c) ← Import.read c
    return .again { doc with imports := doc.imports ++ [i] } c
  else if c.isKeyword "var" then
    let (v, c) ← Variable.read c
    return .again { doc with vars := doc.vars ++ [v] } c
  else if Request.startsAt c then
    let (r, c) ← Request.read source c
    return .again { doc with requests := doc.requests ++ [r] } c
  else
    throw (Cursor.fault (.unexpected t.text) t.span)

theorem turn_progresses (source : Option String) : (turn source).Progresses := by
  intro doc c
  unfold turn
  dsimp only
  split
  · refine .ite (fun _ => .bind ?_) fun _ => .ite (fun _ => .bind ?_) fun _ => .ite (fun _ => .bind ?_) fun _ => .error _
    · rintro ⟨i, c₁⟩ h₁
      exact .ok (.of_reaches c.reaches_skip (Import.passes_read h₁))
    · rintro ⟨v, c₁⟩ h₁
      exact .ok (.of_reaches c.reaches_skip (Variable.passes_read h₁))
    · rintro ⟨r, c₁⟩ h₁
      exact .ok (.of_reaches c.reaches_skip (Request.passes_read h₁))
  · exact .ok c.reaches_skip

theorem turn_drives (source : Option String) :
    (turn source).Drives Prod.fst fun doc c => readWithin source (c.ahead.length + 1) doc c := by
  refine (turn_progresses source).drives (fun c => c.ahead.length) Passes.length_lt _ fun n doc c _ => ?_
  simp only [readWithin, Turn.follow, turn]
  cases c.skip.token? with
  | none => rfl
  | some t =>
    dsimp only
    split
    · rw [bind_assoc]
      rfl
    split
    · rw [bind_assoc]
      rfl
    split
    · rw [bind_assoc]
      rfl
    · rfl

end Document

end RequestLang
