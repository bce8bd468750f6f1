import RequestLang.Proofs.Json.OneLine
import RequestLang.Proofs.Steps
import RequestLang.Proofs.Session
import RequestLang.Server

/-! Workers that change nothing of what they share. Whatever order they end in, each line that is not
blank is answered once, by what answers it alone, unless its run ends the program. -/
namespace RequestLang
open Act

namespace World
variable (w : World) (draws : Draws) (now : Clock)

@[simp] theorem found_found (draws' : Draws) (now' : Clock) :
    (w.found draws now).found draws' now' = w.found draws' now' := rfl

end World

/-- The step does not end the program. -/
def Calm {α : Type} (x : Except Failure α) : Prop := ∀ f, x = .error f → f.ends = false

namespace Calm
variable {α β : Type}

theorem ok (a : α) : Calm (.ok a) := by simp [Calm]

theorem error {f : Failure} (h : f.ends = false) : Calm (.error f : Except Failure α) := by simpa [Calm] using h

theorem bind {x : Except Failure α} {f : α → Except Failure β} (hx : Calm x) (hf : ∀ a, Calm (f a)) :
    Calm (x >>= f) := by
  intro e h
  rcases bind_eq_error.mp h with h | ⟨a, -, h⟩
  · exact hx e h
  · exact hf a e h

end Calm

theorem Files.calm_readText (fs : Files) (role : FileRole) (path : String) : Calm (fs.readText role path) := by
  unfold readText
  cases fs.read? path with
  | none => exact .error rfl
  | some bytes =>
    cases h : bytes.text? with
    | none => simpa [h] using Calm.error rfl
    | some text => simpa [h] using Calm.ok text

namespace Server

namespace Call
variable (c : Call) (inline : Bool)

theorem calm_text (key : String) : Calm (c.text key) := by
  unfold text
  split
  · exact .ok _
  · exact .error rfl

theorem calm_document (text : String) : Calm (document text) := by
  unfold document Document.parseNamed
  cases Document.parse text none with
  | error e => exact .error rfl
  | ok d => exact .ok d

theorem calm_subject (fs : Files) : Calm (c.subject fs inline) := by
  cases inline with
  | true => exact c.calm_text "content"
  | false => exact (c.calm_text "file").bind fun path => fs.calm_readText .request path

theorem calm_job : Calm (c.job inline) := by
  refine Calm.bind ?_ fun source => .ok _
  cases inline with
  | true => exact (c.calm_text "content").bind fun content => .ok _
  | false => exact (c.calm_text "file").bind fun path => .ok _

theorem calm_formatted (text : String) : Calm (formatted text) := (calm_document text).bind fun _ => .ok _

theorem calm_outline (text : String) : Calm (outline text) := (calm_document text).bind fun _ => .ok _

theorem calm_nodeAt : Calm c.nodeAt := by
  refine (c.calm_text "content").bind fun text => ?_
  cases c.natural? "position" with
  | none => exact .error rfl
  | some position => exact (calm_document text).bind fun _ => .ok _

/-- The call writes a request down for `curl`, and what it has to compute, to draw or to write as a date
ends the program. -/
def EndsProgram (c : Call) (w : World) : Prop :=
  ∃ inline job f, c.method = (if inline then "/content/execute" else "/file/execute") ∧
    c.job inline = .ok job ∧ job.curl w = .error f ∧ f.ends

variable {c inline}

theorem on_execute (n : Network) (h : c.flag "curl") (w : World) :
    on (c.execute n inline) w = (c.job inline >>= fun job => (job.curl w).map Execution.json, w) := by
  unfold execute
  rw [on_bind, on_ofExcept]
  cases c.job inline with
  | error f => rfl
  | ok job =>
    simp only [h, if_true, on_bind, on_get, on_ofExcept, ok_bind]
    cases job.curl w <;> rfl

theorem endsProgram_iff (h : c.method = if inline then "/content/execute" else "/file/execute") (w : World) :
    (∃ f, (c.job inline >>= fun job => (job.curl w).map Execution.json) = .error f ∧ f.ends) ↔ c.EndsProgram w := by
  constructor
  · rintro ⟨f, hresult, hends⟩
    rcases bind_eq_error.mp hresult with hjob | ⟨job, hjob, hcurl⟩
    · rw [c.calm_job inline f hjob] at hends
      cases hends
    · exact ⟨inline, job, f, h, hjob, map_eq_error.mp hcurl, hends⟩
  · rintro ⟨inline', job, f, h', hjob, hcurl, hends⟩
    have hsame : inline' = inline := by
      rw [h] at h'
      cases inline <;> cases inline' <;> simp at h' ⊢
    refine ⟨f, ?_, hends⟩
    rw [← hsame, hjob, ok_bind, map_eq_error.mpr hcurl]

theorem not_endsProgram (h : c.method ≠ "/file/execute" ∧ c.method ≠ "/content/execute") (w : World) :
    ¬c.EndsProgram w := by
  rintro ⟨inline, -, -, hmethod, -⟩
  cases inline
  · exact h.1 hmethod
  · exact h.2 hmethod

/-- A call that sends nothing leaves the world as it is. -/
theorem on_result (hsends : c.sends = false) (n : Network) (w : World) :
    ∃ x, on (c.result n) w = (x, w) ∧ ((∃ f, x = .error f ∧ f.ends) ↔ c.EndsProgram w) := by
  have hlocal {x : Except Failure Json} (hx : Calm x)
      (hmethod : c.method ≠ "/file/execute" ∧ c.method ≠ "/content/execute") :
      ∃ y, on (Act.ofExcept x) w = (y, w) ∧ ((∃ f, y = .error f ∧ f.ends) ↔ c.EndsProgram w) := by
    refine ⟨x, on_ofExcept x w, iff_of_false ?_ (not_endsProgram hmethod w)⟩
    rintro ⟨f, hf, hends⟩
    rw [hx f hf] at hends
    cases hends
  have hcurl (inline : Bool) (h : c.method = if inline then "/content/execute" else "/file/execute") :
      ∃ y, on (c.execute n inline) w = (y, w) ∧ ((∃ f, y = .error f ∧ f.ends) ↔ c.EndsProgram w) := by
    have hflag : c.flag "curl" := by
      cases inline <;> simpa [sends, h] using hsends
    exact ⟨_, on_execute n hflag w, endsProgram_iff h w⟩
  unfold result
  rw [on_bind, on_get]
  dsimp only
  split
  · rename_i h
    exact hcurl false h
  · rename_i h
    exact hcurl true h
  · rename_i h
    exact hlocal ((c.calm_subject _ _).bind calm_formatted) (by simp [h])
  · rename_i h
    exact hlocal ((c.calm_subject _ _).bind calm_formatted) (by simp [h])
  · rename_i h
    exact hlocal ((c.calm_subject _ _).bind calm_outline) (by simp [h])
  · rename_i h
    exact hlocal ((c.calm_subject _ _).bind calm_outline) (by simp [h])
  · rename_i h
    exact hlocal c.calm_nodeAt (by simp [h])
  · rename_i hfile hcontent _ _ _ _ _
    exact ⟨_, rfl, iff_of_false (by simp [Failure.ends]) (not_endsProgram ⟨hfile, hcontent⟩ w)⟩

end Call

/-- The line is no call that sends a request. -/
def isLocal (line : String) : Bool := (Call.read line).toOption.all (!·.sends)

/-- The line is a call that ends the program. -/
def EndsProgram (line : String) (w : World) : Prop := ∃ c, Call.read line = .ok c ∧ c.EndsProgram w

/-- What answers a line changes nothing, bears the mark of the line, and is there unless the line ends
the program. -/
theorem run_answer? {line : String} (h : isLocal line) (n : Network) (w : World) :
    ∃ a, (answer? n line).run w = (a, w) ∧ (a = none ↔ EndsProgram line w) ∧
      ∀ v ∈ a, ∃ result, v = answerJson (markOf line) result := by
  unfold answer? markOf EndsProgram
  cases hread : Call.read line with
  | error fault => exact ⟨_, rfl, by simp, by simp⟩
  | ok c =>
    have hsends : c.sends = false := by simpa [isLocal, hread, Except.toOption] using h
    obtain ⟨x, hrun, hends⟩ := Call.on_result hsends n w
    have hresult : StateT.run (c.result n).run w = (x, w) := hrun
    simp only [Except.ok.injEq, exists_eq_left', ← hends, StateT.run_bind, StateT.run_get, pure_bind, hresult]
    rcases x with f | v
    · simp only [Except.error.injEq, exists_eq_left']
      by_cases hf : f.ends
      · exact ⟨none, congrArg (fun step => StateT.run step w) (if_pos hf), by simp [hf], by simp⟩
      · refine ⟨some (answerJson c.id (errorJson (f.message w.files.workingDirText))), ?_, by simp [hf], by simp⟩
        exact congrArg (fun step => StateT.run step w) (if_neg hf)
    · exact ⟨_, rfl, by simp, by simp⟩

/-- What can come of a line that a worker answers alone. -/
structure Answered (n : Network) (w : World) (line : String) (answer : Option Json) : Prop where
  alone : ∃ draws now, ((answer? n line).run (w.found draws now)).1 = answer ∧
    (answer = none ↔ EndsProgram line (w.found draws now))
  marked : ∀ v ∈ answer, ∃ result, v = answerJson (markOf line) result

/-- The lines that have been answered, in the order in which their workers ended, account for what is
written and for what is still to be answered. -/
structure Accounts (n : Network) (w : World) (lines : List String) (s : Service)
    (finished : List (String × Option Json)) : Prop where
  lines : (finished.map Prod.fst ++ s.busy ++ s.ahead.filter (!isBlankLine ·)).Perm
    (lines.filter (!isBlankLine ·))
  answers : ∀ p ∈ finished, Answered n w p.1 p.2
  written : s.written = (finished.filterMap Prod.snd).map Json.compact
  world : ∃ draws now, s.world = w.found draws now

namespace Accounts
variable {n : Network} {w : World} {lines : List String} {s s' : Service}

/-- One step answers at most one line, and then one that was being worked on. -/
theorem step {finished : List (String × Option Json)} (h : Accounts n w lines s finished)
    (hlocal : ∀ line ∈ lines, isLocal line) (hstep : Step n s s') :
    ∃ finished', Accounts n w lines s' finished' := by
  obtain ⟨draws₀, now₀, hworld⟩ := h.world
  cases hstep with
  | pass hblank =>
    refine ⟨finished, ?_, h.answers, h.written, h.world⟩
    simpa [hblank] using h.lines
  | @spawn line ahead busy written _ hblank =>
    refine ⟨finished, ?_, h.answers, h.written, h.world⟩
    refine List.Perm.trans ?_ h.lines
    simp only [List.append_assoc, List.filter_cons, hblank, Bool.not_false, if_true, List.cons_append]
    exact List.perm_middle.symm.append_left _
  | @finish line ahead before after written _ _ answer draws now hrun =>
    simp only at hworld
    have hin : line ∈ lines := by
      have hmem : line ∈ lines.filter (!isBlankLine ·) := h.lines.subset (by simp)
      exact (List.mem_filter.mp hmem).1
    obtain ⟨a, hanswer, hnone, hmark⟩ := run_answer? (hlocal line hin) n (w.found draws now)
    rw [hworld, World.found_found, hanswer, Prod.mk.injEq] at hrun
    obtain ⟨rfl, hsame⟩ := hrun
    refine ⟨finished ++ [(line, a)], ?_, ?_, ?_, draws, now, hsame.symm⟩
    · refine List.Perm.trans ?_ h.lines
      simp only [List.map_append, List.map_cons, List.map_nil, List.append_assoc, List.cons_append,
        List.nil_append]
      exact List.perm_middle.symm.append_left _
    · intro p hp
      rcases List.mem_append.mp hp with hp | hp
      · exact h.answers p hp
      · rw [List.mem_singleton.mp hp]
        exact ⟨⟨draws, now, by rw [hanswer], hnone⟩, hmark⟩
    · have hwritten := h.written
      simp only at hwritten
      rw [hwritten]
      cases a <;> simp

theorem run {finished : List (String × Option Json)} (h : Accounts n w lines s finished)
    (hlocal : ∀ line ∈ lines, isLocal line) (hrun : Relation.ReflTransGen (Step n) s s') :
    ∃ finished', Accounts n w lines s' finished' := by
  induction hrun with
  | refl => exact ⟨finished, h⟩
  | tail _ hstep ih =>
    obtain ⟨finished', h'⟩ := ih
    exact h'.step hlocal hstep

end Accounts

/-- A line is passed over once, given to a worker once and finished once. -/
theorem Step.lt {n : Network} {s s' : Service} (h : Step n s s') :
    2 * s'.ahead.length + s'.busy.length < 2 * s.ahead.length + s.busy.length := by
  cases h with
  | pass => simp
  | spawn =>
    simp
    omega
  | finish => simp

theorem wellFounded_step (n : Network) : WellFounded fun s' s => Step n s s' :=
  Subrelation.wf (fun h => Step.lt h) (measure fun s : Service => 2 * s.ahead.length + s.busy.length).wf

end Server
end RequestLang
