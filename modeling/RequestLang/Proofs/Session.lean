import Mathlib
import RequestLang.Session
import RequestLang.World

/-! Running an act in a world: its result, and the world that it leaves. -/
namespace RequestLang.Act

variable {α β : Type}

def on (x : Act α) (w : World) : Except Failure α × World := x.run.run w

@[simp] theorem on_pure (a : α) (w : World) : on (pure a) w = (.ok a, w) := rfl

@[simp] theorem on_throw (f : Failure) (w : World) : on (throw f : Act α) w = (.error f, w) := rfl

@[simp] theorem on_get (w : World) : on get w = (.ok w, w) := rfl

@[simp] theorem on_ofExcept (x : Except Failure α) (w : World) : on (ofExcept x) w = (x, w) := by
  cases x <;> rfl

theorem on_bind (x : Act α) (f : α → Act β) (w : World) :
    on (x >>= f) w = match on x w with
      | (.ok a, w') => on (f a) w'
      | (.error e, w') => (.error e, w') := by
  unfold on
  rw [ExceptT.run_bind, StateT.run_bind]
  rcases StateT.run (ExceptT.run x) w with ⟨_ | a, w'⟩ <;> rfl

end RequestLang.Act

/-! How a request is sent: what has to hold before, its credentials, and what is handed over. -/
namespace RequestLang

namespace Session

/-- What has to hold before anything is sent. -/
def permit (d : Definition) : Act Unit := do
  if unixScheme.toList.isPrefixOf d.url.toList then
    throw (.network "http+unix urls are not supported by this transport, use --curl")
  if let some c := d.certificate then checkCertificate c
  checked d.proxy.check

/-- Sends an outgoing request, and once more if it was refused and its credentials know an answer. -/
def deliver (n : Network) (cookies : Bool) (d : Definition) (o : Outgoing) : Act Response := do
  let first ← send n (message cookies d o)
  match d.auth, first.header? "www-authenticate" with
  | some a, some challenge =>
    if first.status = 401 then
      match ← a.answer challenge o with
      | some again => send n (message cookies d again)
      | none => return first
    else return first
  | _, _ => return first

theorem execute_eq (n : Network) (s : Azure.Setting) (cookies : Bool) (d : Definition) :
    execute n s cookies d = (do
      permit d
      let o ←
        match d.auth with
        | some a => a.apply n s d.outgoing
        | none => pure d.outgoing
      deliver n cookies d o) := by
  unfold execute permit deliver
  dsimp only
  split
  · rfl
  · cases d.certificate with
    | none => rfl
    | some c => exact (bind_assoc ..).symm

/-- Credentials that know no answer to a refusal leave it at one message. -/
theorem deliver_eq_send {a : Auth} {d : Definition} {o : Outgoing} (hauth : d.auth = some a)
    (hanswer : ∀ challenge, a.answer challenge o = pure none) (n : Network) (cookies : Bool) :
    deliver n cookies d o = send n (message cookies d o) := by
  refine (bind_congr fun first => ?_).trans (bind_pure _)
  rw [hauth]
  cases first.header? "www-authenticate" with
  | none => rfl
  | some challenge =>
    simp only [hanswer, pure_bind]
    exact ite_self _

end Session
end RequestLang
