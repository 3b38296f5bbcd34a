import Placement.Config
import Placement.Storage

/-!
# Scenarios

A scenario is the state of a scheduler and a service about to be placed. It comes from a file, JSON
if the file is called so and TOML otherwise, and both formats have the same fields. Only the
candidate has to be there. What the file lists is checked when the scheduler is built.
-/

namespace Placement

open Document

/-- A domain and the footprint of a service about to be placed in it. -/
structure Scenario where
  scoring : Weights
  nodes : List Node
  services : List Record
  candidate : Footprint

namespace Scenario

/-- A scenario of which the candidate may not have been read yet. -/
structure Draft where
  scoring : Weights := {}
  nodes : List Node := []
  services : List Record := []
  candidate : Option Footprint := none

def fields (format : Format) : List (FieldReader Draft) :=
  [field "scoring" (Weights.ofDocument format) fun draft scoring => { draft with scoring },
    field "nodes" (readList (Node.ofDocument format)) fun draft nodes => { draft with nodes },
    field "services" (readList (Record.ofDocument format)) fun draft services =>
      { draft with services },
    field "candidate" (Footprint.ofDocument format) fun draft f =>
      { draft with candidate := some f }]

def complete (draft : Draft) : Except Fault Scenario := do
  let candidate ← required draft.candidate
  return { draft with candidate }

def ofDocument (format : Format) : Reader Scenario :=
  readRecord format (fields format) {} complete

def ofText (format : Format) (text : String) : Except Fault Scenario :=
  match format with
  | .json => Json.decode (ofDocument .json) text
  | .toml => Toml.decode (ofDocument .toml) text

def formatOf (path : String) : Format :=
  if fileExtension? path = some "json" then .json else .toml

/-- Why a scenario could not be used. -/
inductive Failure where
  | unread (path : String) (fault : FileFault)
  | malformed (path : String) (format : Format) (fault : Fault)
  | unbuilt (cause : Refusal)

namespace Failure

/-- What was being done when a scenario failed. -/
def context : Failure → String
  | unread path _ => "reading scenario " ++ path
  | malformed path .json _ => "parsing JSON scenario " ++ path
  | malformed path .toml _ => "parsing TOML scenario " ++ path
  | unbuilt _ => "building scheduler from scenario"

def cause? : Failure → Option String
  | unread _ fault => some fault.message
  | malformed _ _ fault => fault.message?
  | unbuilt cause => some cause.message

/-- The context, and the cause if it has a text. -/
def message (f : Failure) : String :=
  match f.cause? with
  | some cause => f.context ++ ": " ++ cause
  | none => f.context

end Failure

def ofFile (path : String) (found : Option ByteArray) : Except Failure Scenario :=
  match fileText found with
  | .error fault => .error (.unread path fault)
  | .ok contents => (ofText (formatOf path) contents).mapError (.malformed path (formatOf path))

/-- The nodes and records that a scenario lists. -/
def snapshot (s : Scenario) : Snapshot := ⟨s.nodes, s.services⟩

def scheduler (s : Scenario) : Except Refusal Scheduler :=
  Scheduler.restore s.snapshot s.scoring

/-- The nodes ranked for the candidate. -/
def ranking (s : Scenario) : Except Refusal (List NodeScore) :=
  s.scheduler.map fun scheduler => scheduler.rankNodes s.candidate

end Scenario

end Placement
