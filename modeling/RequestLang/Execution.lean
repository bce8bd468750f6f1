import RequestLang.Compile
import RequestLang.Curl
import RequestLang.Script.Outcome
import RequestLang.Session
import RequestLang.Source

/-! Doing a job: writing a request down for `curl`, or sending it. -/
namespace RequestLang

structure Execution where
  definition : Definition
  curl : Option String := none
  response : Option Response := none
  outcome : Option ScriptOutcome := none

namespace Execution

def json (e : Execution) : Json :=
  .obj ([("name", .str e.definition.name), ("http", .str e.definition.written)] ++
    (e.curl.map fun c => ("curl", .str c)).toList ++
    (e.response.map fun r => ("response", r.view)).toList ++
    (e.outcome.map fun o => ("script_result", o.json)).toList)

end Execution

namespace Job

/-- No script sets anything before the request. -/
def compile (job : Job) (w : World) : Except Failure Definition := do
  let loaded ← job.load w
  let step := Compile.target w.files loaded.requests loaded.headers (fun _ => []) job.target
  let (d, resolver) := step.run.run loaded.resolver
  resolver.settle d

def curl (job : Job) (w : World) : Except Failure Execution := do
  let d ← job.compile w
  let command ← Curl.command w.surroundings.now.seconds d
  return { definition := d, curl := some command.text }

/-- Sends the request and saves the response where the request says so. -/
def run (n : Network) (cookies : Bool) (job : Job) : Act Execution := do
  let w ← get
  let d ← Act.ofExcept (job.compile w)
  let response ← Session.execute n (.usual w.home) cookies d
  if let some path := d.output then
    if !(← Act.writeFile path response.body) then throw (.fileNotFound .output path)
  return {
    definition := d
    response := some response
    outcome := d.script.map fun s => .unsupported s.language }

end Job
end RequestLang
