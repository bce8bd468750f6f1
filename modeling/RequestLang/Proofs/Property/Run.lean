import Mathlib
import RequestLang.Property.Resolver

/-! Running a step on a resolver: its result, and the resolver that it leaves. -/
namespace RequestLang.Resolve

variable {α β : Type}

def on (x : Resolve α) (r : Resolver) : Except Failure α × Resolver := x.run.run r

/-- How a step goes on after another one. -/
def andThen (f : α → Resolve β) : Except Failure α × Resolver → Except Failure β × Resolver
  | (.ok a, r) => on (f a) r
  | (.error e, r) => (.error e, r)

@[simp] theorem andThen_ok (f : α → Resolve β) (a : α) (r : Resolver) :
    andThen f (.ok a, r) = on (f a) r := rfl

@[simp] theorem andThen_error (f : α → Resolve β) (e : Failure) (r : Resolver) :
    andThen f (.error e, r) = (.error e, r) := rfl

@[simp] theorem on_pure (a : α) (r : Resolver) : on (pure a) r = (.ok a, r) := rfl

@[simp] theorem on_throw (e : Failure) (r : Resolver) : on (throw e : Resolve α) r = (.error e, r) := rfl

@[simp] theorem on_get (r : Resolver) : on get r = (.ok r, r) := rfl

@[simp] theorem on_set (s r : Resolver) : on (set s) r = (.ok ⟨⟩, s) := rfl

@[simp] theorem on_modify (f : Resolver → Resolver) (r : Resolver) :
    on (modify f) r = (.ok ⟨⟩, f r) := rfl

theorem on_bind (x : Resolve α) (f : α → Resolve β) (r : Resolver) :
    on (x >>= f) r = andThen f (on x r) := by
  unfold on
  rw [ExceptT.run_bind, StateT.run_bind]
  rcases hx : StateT.run (ExceptT.run x) r with ⟨_ | a, s⟩ <;> rfl

theorem on_bind_eq_ok {x : Resolve α} {f : α → Resolve β} {r r' : Resolver} {b : β} :
    on (x >>= f) r = (.ok b, r') ↔ ∃ a s, on x r = (.ok a, s) ∧ on (f a) s = (.ok b, r') := by
  rw [on_bind]
  rcases on x r with ⟨_ | a, s⟩ <;> simp

theorem on_bind_of_ok {x : Resolve α} {r s : Resolver} {a : α} (h : on x r = (.ok a, s)) (f : α → Resolve β) :
    on (x >>= f) r = on (f a) s := by
  rw [on_bind, h]
  rfl

theorem on_ofExcept_bind {x : Except Failure α} {a : α} (h : x = .ok a) (f : α → Resolve β) (r : Resolver) :
    on (ofExcept x >>= f) r = on (f a) r := by
  subst h
  rfl

theorem on_ofExcept_eq_ok {x : Except Failure α} {r r' : Resolver} {a : α} :
    on (ofExcept x) r = (.ok a, r') ↔ x = .ok a ∧ r' = r := by
  cases x <;> simp [ofExcept, eq_comm]

theorem on_tryCatch (x : Resolve α) (h : Failure → Resolve α) (r : Resolver) :
    on (tryCatch x h) r = match on x r with
      | (.ok a, s) => (.ok a, s)
      | (.error e, s) => on (h e) s := by
  unfold on
  rw [ExceptT.run_tryCatch, StateT.run_bind]
  rcases StateT.run (ExceptT.run x) r with ⟨_ | a, s⟩ <;> rfl

/-! What is known of steps without running them: what they give, and which of them end alike. -/

variable {α' β' : Type}

/-- Every result of a step has a property. -/
def Always (P : α → Prop) (x : Resolve α) : Prop := ∀ r a s, on x r = (.ok a, s) → P a

namespace Always
variable {P : α → Prop} {Q : β → Prop}

theorem pure {a : α} (h : P a) : Always P (Pure.pure a) := by
  rintro r b s hb
  cases hb
  exact h

theorem throw (f : Failure) : Always P (throw f) := fun _ _ _ h => nomatch h

theorem bind {x : Resolve α} {f : α → Resolve β} (hx : Always P x) (hf : ∀ a, P a → Always Q (f a)) :
    Always Q (x >>= f) := by
  intro r b s hb
  obtain ⟨a, t, ha, hb⟩ := on_bind_eq_ok.mp hb
  exact hf a (hx r a t ha) t b s hb

/-- A step of which nothing is known. -/
theorem after (x : Resolve α) {f : α → Resolve β} (hf : ∀ a, Always Q (f a)) : Always Q (x >>= f) :=
  bind (P := fun _ => True) (fun _ _ _ _ => trivial) fun a _ => hf a

theorem ite {c : Prop} [Decidable c] {x y : Resolve α} (hx : Always P x) (hy : Always P y) :
    Always P (if c then x else y) := by
  split
  · exact hx
  · exact hy

end Always

/-- Runs that both fail, or give results that belong together and leave the same resolver. -/
inductive SameEnd (R : α → β → Prop) : Except Failure α × Resolver → Except Failure β × Resolver → Prop
  | ok {a : α} {b : β} (h : R a b) (r : Resolver) : SameEnd R (.ok a, r) (.ok b, r)
  | error (e f : Failure) (r s : Resolver) : SameEnd R (.error e, r) (.error f, s)

/-- Steps that end alike wherever they start. -/
def Matches (R : α → β → Prop) (x : Resolve α) (y : Resolve β) : Prop := ∀ r, SameEnd R (on x r) (on y r)

namespace Matches
variable {R : α → β → Prop} {S : α' → β' → Prop}

theorem pure {a : α} {b : β} (h : R a b) : Matches R (Pure.pure a) (Pure.pure b) := fun r => .ok h r

theorem throw (e f : Failure) : Matches R (throw e) (throw f) := fun r => .error e f r r

theorem refl (x : Resolve α) : Matches Eq x x := by
  intro r
  rcases on x r with ⟨e | a, s⟩
  · exact .error e e s s
  · exact .ok rfl s

theorem bind {x : Resolve α} {y : Resolve β} {f : α → Resolve α'} {g : β → Resolve β'} (h : Matches R x y)
    (hf : ∀ a b, R a b → Matches S (f a) (g b)) : Matches S (x >>= f) (y >>= g) := by
  intro r
  have hfirst := h r
  rw [on_bind, on_bind]
  generalize on x r = p, on y r = q at hfirst ⊢
  cases hfirst with
  | ok h r => exact hf _ _ h r
  | error e f r s => exact .error e f r s

/-- A step that both take first. -/
theorem after (x : Resolve α) {f : α → Resolve α'} {g : α → Resolve β'} (hf : ∀ a, Matches S (f a) (g a)) :
    Matches S (x >>= f) (x >>= g) :=
  bind (refl x) fun a _ h => h ▸ hf a

theorem of_never {x : Resolve α} {y : Resolve β} (hx : Always (fun _ => False) x) (hy : Always (fun _ => False) y) :
    Matches R x y := by
  intro r
  cases hleft : on x r with
  | mk a s =>
    cases hright : on y r with
    | mk b t =>
      rcases a with e | a
      · rcases b with f | b
        · exact .error e f s t
        · exact (hy r b t hright).elim
      · exact (hx r a s hleft).elim

end Matches
end RequestLang.Resolve
