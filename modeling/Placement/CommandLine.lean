import Placement.Report

/-!
# The command line

Three commands work on a scenario: `score` ranks its nodes, `simulate` places the candidate again
and again, `snapshot` shows the state. Settings come in any order, each at most once, with their
value attached or as the next argument. Arguments are judged from left to right: what is wrong
before a request for the version wins over the request, and what is missing is noticed at the end.
Reading the arguments says what is to be done; doing it takes what was found of the one file it
names.
-/

namespace Placement.CommandLine

/-- How results are shown. -/
inductive Style where
  | text
  | json
  deriving Repr, DecidableEq

/-- What is to be done. -/
inductive Command where
  | score (scenario : String) (style : Style)
  | simulate (scenario : String) (iterations : Nat) (style : Style)
  | snapshot (scenario : String)
  deriving Repr, DecidableEq

/-- What a command line asks for. -/
inductive Invocation where
  | run (command : Command)
  | version (program : String)
  | help
  | misuse
  deriving Repr, DecidableEq

/-- The commands by themselves. -/
inductive Verb where
  | score
  | simulate
  | snapshot
  deriving Repr, DecidableEq

def Verb.ofName? : String → Option Verb
  | "score" => some score
  | "simulate" => some simulate
  | "snapshot" => some snapshot
  | _ => none

def program : String := "rsched"

/-- The name under which a command shows its version. -/
def Verb.program : Verb → String
  | score => CommandLine.program ++ "-score"
  | simulate => CommandLine.program ++ "-simulate"
  | snapshot => CommandLine.program ++ "-snapshot"

/-- What can be set by an argument with a value. -/
inductive Setting where
  | scenario
  | format
  | iterations
  deriving Repr, DecidableEq

/-- What an argument can begin. -/
inductive Flag where
  | setting (s : Setting)
  | version
  | help
  deriving Repr, DecidableEq

def Verb.takes : Verb → Setting → Bool
  | _, .scenario => true
  | score, .format | simulate, .format | simulate, .iterations => true
  | _, _ => false

def Flag.ofLong? (verb : Verb) (name : List Char) : Option Flag :=
  match String.ofList name with
  | "scenario" => some (.setting .scenario)
  | "format" => if verb.takes .format then some (.setting .format) else none
  | "iterations" => if verb.takes .iterations then some (.setting .iterations) else none
  | "version" => some version
  | "help" => some help
  | _ => none

def Flag.ofShort? (verb : Verb) (letter : Char) : Option Flag :=
  match letter with
  | 's' => some (.setting .scenario)
  | 'f' => if verb.takes .format then some (.setting .format) else none
  | 'i' => if verb.takes .iterations then some (.setting .iterations) else none
  | 'V' => some version
  | 'h' => some help
  | _ => none

/-- Reads a number of rounds: digits, possibly after a plus sign, for a number of 64 bits. -/
def readCount (value : String) : Option Nat :=
  let digits :=
    match value.toList with
    | '+' :: digits => digits
    | digits => digits
  let n := Decimal.ofDigits digits
  if !digits.isEmpty && digits.all Char.isDigit && n < UInt64.size then some n else none

def readStyle : String → Option Style
  | "text" => some .text
  | "json" => some .json
  | _ => none

/-- What has been set so far. -/
structure Settings where
  scenario : Option String := none
  style : Option Style := none
  iterations : Option Nat := none

/-- Sets what has not been set before to a value that it can have. -/
def Settings.set (s : Settings) (setting : Setting) (value : String) : Option Settings :=
  match setting with
  | .scenario =>
    if s.scenario.isSome || value.isEmpty then none else some { s with scenario := some value }
  | .format =>
    if s.style.isSome then none
    else (readStyle value).map fun style => { s with style := some style }
  | .iterations =>
    if s.iterations.isSome then none
    else (readCount value).map fun n => { s with iterations := some n }

def Settings.command (s : Settings) (verb : Verb) : Invocation :=
  match s.scenario with
  | none => .misuse
  | some path =>
    let style := s.style.getD .text
    match verb with
    | .score => .run (.score path style)
    | .simulate => .run (.simulate path (s.iterations.getD 10) style)
    | .snapshot => .run (.snapshot path)

/-- An argument taken apart. -/
inductive Argument where
  | ending
  | flag (f : Flag) (value : Option String)
  | unknown

/-- Takes a long argument apart at its first equals sign. -/
def Argument.ofLong (verb : Verb) (cs : List Char) : Argument :=
  match cs.span (· != '=') with
  | (name, rest) =>
    match Flag.ofLong? verb name with
    | some f => .flag f (if rest.isEmpty then none else some (String.ofList (rest.drop 1)))
    | none => .unknown

/-- Takes a short argument apart. All after the letter is a value, but for an equals sign in
front; a flag that takes no value acts before anything after its letter is looked at. -/
def Argument.ofShort (verb : Verb) (letter : Char) (rest : List Char) : Argument :=
  match Flag.ofShort? verb letter with
  | some (.setting s) =>
    .flag (.setting s) <|
      match rest with
      | [] => none
      | '=' :: value => some (String.ofList value)
      | value => some (String.ofList value)
  | some f => .flag f none
  | none => .unknown

def Argument.read (verb : Verb) (argument : String) : Argument :=
  match argument.toList with
  | ['-', '-'] => .ending
  | '-' :: '-' :: cs => .ofLong verb cs
  | '-' :: letter :: rest => .ofShort verb letter rest
  | _ => .unknown

/-- Whether an argument can be the value of the setting before it. -/
def isValue (argument : String) : Bool :=
  match argument.toList with
  | '-' :: _ :: _ => false
  | _ => true

def readSettings (verb : Verb) (s : Settings) : List String → Invocation
  | [] => s.command verb
  | argument :: rest =>
    match Argument.read verb argument with
    | .unknown => .misuse
    | .ending => if rest.isEmpty then s.command verb else .misuse
    | .flag .version none => .version verb.program
    | .flag .help none => .help
    | .flag .version (some _) => .misuse
    | .flag .help (some _) => .misuse
    | .flag (.setting setting) (some value) =>
      match s.set setting value with
      | some s => readSettings verb s rest
      | none => .misuse
    | .flag (.setting setting) none =>
      match rest with
      | [] => .misuse
      | value :: rest =>
        if isValue value then
          match s.set setting value with
          | some s => readSettings verb s rest
          | none => .misuse
        else .misuse

/-- Reads what follows the word `help`: nothing, or the name of one thing to be explained. -/
def readTopic : List String → Invocation
  | [] => .help
  | [name] => if (Verb.ofName? name).isSome || name = "help" then .help else .misuse
  | _ => .misuse

def read : List String → Invocation
  | [] => .misuse
  | first :: rest =>
    match Verb.ofName? first with
    | some verb => readSettings verb {} rest
    | none =>
      match first.toList with
      | '-' :: 'V' :: _ => .version program
      | '-' :: 'h' :: _ => .help
      | _ =>
        if first = "--version" then .version program
        else if first = "--help" then .help
        else if first = "help" then readTopic rest
        else .misuse

example : read ["simulate", "-i=+3", "-ss.toml"] = .run (.simulate "s.toml" 3 .text) := by
  decide +kernel
example : read ["score", "-s", "--version"] = .misuse := by decide +kernel
example : read ["score", "-s", "x", "-Vf"] = .version "rsched-score" := by decide +kernel

def Command.scenario : Command → String
  | score path _ => path
  | simulate path _ _ => path
  | snapshot path => path

/-- A document as text, with the end of its last line. -/
def printed (d : Document) : String := Json.print d ++ "\n"

/-- What a command shows of a scenario. -/
def Command.show (s : Scenario) : Command → Except Refusal String
  | score _ .text => s.ranking.map Report.table
  | score _ .json => s.ranking.map fun r => printed (.list (r.map NodeScore.toDocument) true)
  | simulate _ count .text => (s.simulate count).map Report.roundLines
  | simulate _ count .json =>
    (s.simulate count).map fun rounds => printed (.list (rounds.map Round.toDocument) true)
  | snapshot _ => s.scheduler.map fun scheduler => printed scheduler.snapshot.toDocument

/-- How the program ends: its status, what it showed, and what went wrong. -/
structure Outcome where
  status : UInt8
  shown : String := ""
  failure : Option Scenario.Failure := none

def errorLine (f : Scenario.Failure) : String := "Error: " ++ f.context

/-- Carries out a command on what was found of its file. -/
def Command.perform (c : Command) (found : Option ByteArray) : Outcome :=
  match Scenario.ofFile c.scenario found with
  | .error f => { status := 1, failure := some f }
  | .ok s =>
    match c.show s with
    | .ok shown => { status := 0, shown }
    | .error cause => { status := 1, failure := some (.unbuilt cause) }

def usage : String :=
  "Usage: " ++ program ++ " <score|simulate|snapshot> --scenario <SCENARIO>\n"

/-- Carries out a command line on what is found of files. -/
def Invocation.perform (i : Invocation) (found : String → Option ByteArray) : Outcome :=
  match i with
  | .run command => command.perform (found command.scenario)
  | .version program => { status := 0, shown := program ++ " 0.1.0\n" }
  | .help => { status := 0, shown := usage }
  | .misuse => { status := 2 }

end Placement.CommandLine
