import RequestLang.Proofs.Document.Outline

/-! Readers move forward. Every reader leaves the cursor between where it was and the end of the tokens,
and where it reads something whole it has taken a token, which bounds its loops. -/
namespace RequestLang
open Cursor

variable {c c' c₁ : Cursor}

namespace Cursor

/-- How many tokens the cursor has behind it, which is the place of the current one among all. -/
def index (c : Cursor) : Nat := c.behind.length

theorem token?_eq (c : Cursor) : c.token? = c.all[c.index]? := by
  rw [token?, all, index, ← List.length_reverse, List.getElem?_append_right le_rfl, Nat.sub_self,
    List.head?_eq_getElem?]

theorem index_add (c : Cursor) : c.index + c.ahead.length = c.all.length := by
  rw [index, all, List.length_append, List.length_reverse]

theorem Reaches.index_le (h : c.Reaches c') : c.index ≤ c'.index := by
  obtain ⟨run, -, hbehind, -⟩ := h
  rw [index, index, hbehind, List.length_append]
  exact Nat.le_add_left ..

theorem Reaches.length_le (h : c.Reaches c') : c'.ahead.length ≤ c.ahead.length := by
  obtain ⟨run, hahead, -, -⟩ := h
  rw [hahead, List.length_append]
  exact Nat.le_add_left ..

/-- One cursor comes from another by stepping over a token at least. -/
structure Passes (c c' : Cursor) : Prop where
  reaches : c.Reaches c'
  index_lt : c.index < c'.index

namespace Passes

theorem of_reaches (h : c.Reaches c₁) (h' : c₁.Passes c') : c.Passes c' :=
  ⟨h.trans h'.reaches, Nat.lt_of_le_of_lt h.index_le h'.index_lt⟩

theorem before (h : c.Passes c₁) (h' : c₁.Reaches c') : c.Passes c' :=
  ⟨h.reaches.trans h', Nat.lt_of_lt_of_le h.index_lt h'.index_le⟩

theorem length_lt (h : c.Passes c') : c'.ahead.length < c.ahead.length := by
  have hall := congrArg List.length h.reaches.all
  rw [← index_add, ← index_add] at hall
  have := h.index_lt
  omega

end Passes

theorem passes_advance {t : Token} (h : c.token? = some t) : c.Passes c.advance := by
  refine ⟨c.reaches_advance, ?_⟩
  obtain ⟨ts, hts⟩ := token?_eq_some h
  rw [index, index, advance, hts]
  exact Nat.lt_succ_self _

/-- What goes on behind a token that is there has passed it. -/
theorem passes_of_token? {t : Token} (h : c.token? = some t) (hreach : c.advance.Reaches c') : c.Passes c' :=
  (passes_advance h).before hreach

theorem passes_of_isPunct {mark : String} (h : c.isPunct mark) : c.Passes c.advance := by
  cases ht : c.token? with
  | none => simp [isPunct, ht] at h
  | some t => exact passes_advance ht

theorem passes_textValue {what v : String} (h : c.textValue what = .ok (v, c')) : c.Passes c' := by
  obtain ⟨t, ht, -, -, rfl⟩ := textValue_eq_ok.mp h
  exact passes_advance ht

end Cursor

namespace JsonTerm

/-- A run that ends wanting no operand has taken one. -/
theorem arithmeticRun_pos {d : Nat} {ts : List Token} (h : (arithmeticRun d true ts).2.2 = false) :
    0 < (arithmeticRun d true ts).1 ∧ ts ≠ [] := by
  cases ts with
  | nil => simp [arithmeticRun] at h
  | cons t ts =>
    refine ⟨?_, List.cons_ne_nil _ _⟩
    unfold arithmeticRun at h ⊢
    grind

theorem passes_readArithmetic {t : JsonTerm} (h : readArithmetic c = .ok (t, c')) : c.Passes c' := by
  refine ⟨reaches_readArithmetic h, ?_⟩
  simp only [readArithmetic] at h
  split at h
  · cases h
  rename_i hcomplete
  obtain ⟨-, rfl⟩ := Prod.mk.inj (Except.ok.inj h)
  obtain ⟨hpos, hne⟩ := arithmeticRun_pos (show (arithmeticRun 0 true c.ahead).2.2 = false by grind)
  have hlen := List.length_pos_of_ne_nil hne
  simp only [index, List.length_append, List.length_reverse, List.length_take]
  omega

theorem passes_readWithin {n : Nat} {t : JsonTerm} (h : readWithin n c = .ok (t, c')) : c.Passes c' := by
  cases n with
  | zero => cases h
  | succ n =>
    refine .of_reaches c.reaches_skip ?_
    simp only [readWithin] at h
    split at h
    · cases h
    rename_i t ht
    have hnext : ∀ {c'}, c.skip.advance.Reaches c' → c.skip.Passes c' := fun h => passes_of_token? ht h
    split at h
    · exact passes_readArithmetic h
    split at h
    · obtain ⟨ms, hms, -⟩ := making_eq_ok.mp h
      exact hnext ((reaches_read_aux n).2.1 hms)
    split at h
    · obtain ⟨ts, hts, -⟩ := making_eq_ok.mp h
      exact hnext ((reaches_read_aux n).2.2 hts)
    split at h
    case h_6 => cases h
    all_goals
      obtain ⟨-, rfl⟩ := Prod.mk.inj (Except.ok.inj h)
      exact hnext (.refl _)

theorem passes_read {t : JsonTerm} (h : read c = .ok (t, c')) : c.Passes c' := passes_readWithin h

end JsonTerm

theorem Import.passes_read {i : Import} (h : Import.read c = .ok (i, c')) : c.Passes c' := by
  obtain ⟨⟨path, c₁⟩, h₁, h⟩ := bind_eq_ok.mp h
  obtain ⟨-, rfl⟩ := Prod.mk.inj (Except.ok.inj h)
  refine .of_reaches c.reaches_advance.skip ((passes_textValue h₁).before ?_)
  split
  · exact c₁.reaches_skipInline.advance
  · exact c₁.reaches_skipInline

theorem Variable.passes_read {v : Variable} (h : Variable.read c = .ok (v, c')) : c.Passes c' := by
  obtain ⟨t, c₁, ht, -, -, -, -, hbody, -, rfl, -⟩ := Variable.read_eq_ok h
  exact .of_reaches c.reaches_advance.skip
    (passes_of_token? ht ((VariableBody.reaches_read hbody).of_skip.of_advance.of_skip.skip.advance))

theorem Request.passes_read {source : Option String} {r : Request} (h : Request.read source c = .ok (r, c')) :
    c.Passes c' := by
  obtain ⟨r₁, r₂, r₃, c₁, c₂, h₁, h₂, h₃, -⟩ := Request.read_eq_ok h
  obtain ⟨-, url, c₃, hreach, hurl, -, -⟩ := Request.readTarget_eq_ok h₂
  exact .of_reaches ((Request.reaches_readTags h₁).trans hreach)
    ((passes_textValue hurl).before (Request.reaches_readClauses h₃))

/-- How a turn of a loop comes out. -/
inductive Outcome (σ : Type) where
  /-- The turn is completed, and another one follows. -/
  | again (s : σ) (c : Cursor)
  /-- The turn is completed, and it is the last one. -/
  | last (s : σ) (c : Cursor)
  /-- There was nothing left to do. -/
  | leave (c : Cursor)

/-- A turn that is completed takes a token, and no turn goes back. -/
def Outcome.Follows {σ : Type} (c : Cursor) : Outcome σ → Prop
  | .again _ c' => c.Passes c'
  | .last _ c' => c.Passes c'
  | .leave c' => c.Reaches c'

/-- What comes out comes out further on. -/
def Moves {σ : Type} (c : Cursor) (x : Except Fault (Outcome σ)) : Prop := ∀ o, x = .ok o → o.Follows c

namespace Moves
variable {α σ : Type} {x : Except Fault α} {y z : Except Fault (Outcome σ)}

theorem ok {o : Outcome σ} (h : o.Follows c) : Moves c (.ok o) := by
  rintro _ ⟨⟩
  exact h

theorem error (f : Fault) : Moves c (.error f : Except Fault (Outcome σ)) := nofun

theorem bind {g : α → Except Fault (Outcome σ)} (hg : ∀ a, x = .ok a → Moves c (g a)) : Moves c (x >>= g) := by
  intro o h
  obtain ⟨a, ha, h⟩ := bind_eq_ok.mp h
  exact hg a ha o h

theorem ite {p : Prop} [Decidable p] (hy : p → Moves c y) (hz : ¬p → Moves c z) : Moves c (if p then y else z) := by
  split
  · exact hy ‹_›
  · exact hz ‹_›

end Moves

/-- What a loop does in one turn, given what it has made so far. -/
abbrev Turn (σ : Type) := σ → Cursor → Except Fault (Outcome σ)

namespace Turn
variable {σ ρ : Type}

/-- A loop ends with a fault or with what it has made, after as many turns as it takes. -/
inductive Ends (turn : Turn σ) : σ → Cursor → Except Fault (σ × Cursor) → Prop
  | fails {s c f} (h : turn s c = .error f) : Ends turn s c (.error f)
  | leaves {s c c'} (h : turn s c = .ok (.leave c')) : Ends turn s c (.ok (s, c'))
  | closes {s c s' c'} (h : turn s c = .ok (.last s' c')) : Ends turn s c (.ok (s', c'))
  | turns {s c s' c' x} (h : turn s c = .ok (.again s' c')) (rest : Ends turn s' c' x) : Ends turn s c x

variable {turn : Turn σ} {s : σ} {x y : Except Fault (σ × Cursor)}

def Progresses (turn : Turn σ) : Prop := ∀ s c, Moves c (turn s c)

theorem Progresses.exists_ends (hp : turn.Progresses) (s : σ) (c : Cursor) : ∃ x, turn.Ends s c x := by
  -- on the tokens ahead, of which a completed turn leaves fewer
  induction hn : c.ahead.length using Nat.strongRecOn generalizing s c with
  | _ n ih =>
    cases ho : turn s c with
    | error f => exact ⟨_, .fails ho⟩
    | ok o =>
      cases o with
      | leave c' => exact ⟨_, .leaves ho⟩
      | last s' c' => exact ⟨_, .closes ho⟩
      | again s' c' =>
        obtain ⟨x, hx⟩ := ih _ (hn ▸ (hp s c _ ho).length_lt) s' c' rfl
        exact ⟨x, .turns ho hx⟩

/-- One turn, and then the rest. -/
def follow (turn : Turn σ) (f : σ × Cursor → ρ) (rest : σ → Cursor → Except Fault ρ) (s : σ) (c : Cursor) :
    Except Fault ρ := do
  match ← turn s c with
  | .again s c => rest s c
  | .last s c => return f (s, c)
  | .leave c => return f (s, c)

/-- A function that takes turn after turn as long as its first argument allows gives what the loop ends with. -/
theorem Ends.run_eq (hp : turn.Progresses) {f : σ × Cursor → ρ} {need : Cursor → Nat}
    (hneed : ∀ {c c' : Cursor}, c.Passes c' → need c' < need c) {run : Nat → σ → Cursor → Except Fault ρ}
    (hrun : ∀ n s c, need c ≤ n → run (n + 1) s c = turn.follow f (run n) s c) (h : turn.Ends s c x) {n : Nat}
    (hn : need c < n) : run n s c = f <$> x := by
  induction h generalizing n with
  | @fails s c _ ho =>
    obtain ⟨n, rfl⟩ := Nat.exists_eq_succ_of_ne_zero (Nat.ne_zero_of_lt hn)
    rw [hrun n s c (Nat.le_of_lt_succ hn), follow, ho]
    rfl
  | @leaves s c _ ho =>
    obtain ⟨n, rfl⟩ := Nat.exists_eq_succ_of_ne_zero (Nat.ne_zero_of_lt hn)
    rw [hrun n s c (Nat.le_of_lt_succ hn), follow, ho]
    rfl
  | @closes s c _ _ ho =>
    obtain ⟨n, rfl⟩ := Nat.exists_eq_succ_of_ne_zero (Nat.ne_zero_of_lt hn)
    rw [hrun n s c (Nat.le_of_lt_succ hn), follow, ho]
    rfl
  | @turns s c _ _ _ ho _ ih =>
    obtain ⟨n, rfl⟩ := Nat.exists_eq_succ_of_ne_zero (Nat.ne_zero_of_lt hn)
    rw [hrun n s c (Nat.le_of_lt_succ hn), follow, ho]
    exact ih (Nat.lt_of_lt_of_le (hneed (hp _ _ _ ho)) (Nat.le_of_lt_succ hn))

/-- The loop of these turns takes tokens and ends, and what a function gives is made of what it ends with. -/
structure Drives (turn : Turn σ) (f : σ × Cursor → ρ) (run : σ → Cursor → Except Fault ρ) : Prop where
  progresses : turn.Progresses
  ends : ∀ s c, ∃ x, turn.Ends s c x ∧ run s c = f <$> x

theorem Progresses.drives (hp : turn.Progresses) {f : σ × Cursor → ρ} (need : Cursor → Nat)
    (hneed : ∀ {c c' : Cursor}, c.Passes c' → need c' < need c) (run : Nat → σ → Cursor → Except Fault ρ)
    (hrun : ∀ n s c, need c ≤ n → run (n + 1) s c = turn.follow f (run n) s c) :
    turn.Drives f fun s c => run (need c + 1) s c := by
  refine ⟨hp, fun s c => ?_⟩
  obtain ⟨x, hx⟩ := hp.exists_ends s c
  exact ⟨x, hx, hx.run_eq hp hneed hrun (Nat.lt_succ_self _)⟩

end Turn

end RequestLang
