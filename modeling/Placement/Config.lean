import Placement.Document.Stored
import Placement.File
import Placement.Toml.Reader

/-!
# Configuration

A configuration holds the weights, under one heading. Every weight may be left out and has its
default then. Written out, a configuration holds all four, each with the fewest digits that read
back, without an exponent and with a point.
-/

namespace Placement

open Document

/-- What a scheduler is set up with. -/
structure Config where
  scoring : Weights := {}

namespace Config

def fields (format : Format) : List (FieldReader Config) :=
  [field "scoring" (Weights.ofDocument format) fun c scoring => { c with scoring }]

def ofDocument (format : Format) : Reader Config := readRecord format (fields format) {} .ok

def ofToml (text : String) : Except Fault Config := Toml.decode (ofDocument .toml) text

def doubles : Decimal.Layout where
  tie := .up
  positional _ := true
  wholeWithPoint := true
  nan := "nan".toList
  infinite := "inf".toList

/-- The line that sets a weight. -/
def setting (name : String) (x : Float) : List Char :=
  name.toList ++ " = ".toList ++ doubles.write x ++ ['\n']

def toToml (c : Config) : String :=
  String.ofList <|
    "[scoring]\n".toList
      ++ setting "average_cpu" c.scoring.averageCpu
      ++ setting "highest_cpu" c.scoring.highestCpu
      ++ setting "average_memory" c.scoring.averageMemory
      ++ setting "highest_memory" c.scoring.highestMemory

/-- Why a configuration file was not taken. -/
inductive FileError where
  | unread (fault : FileFault)
  | malformed (fault : Fault)

def ofFile (found : Option ByteArray) : Except FileError Config :=
  match fileText found with
  | .error fault => .error (.unread fault)
  | .ok contents => (ofToml contents).mapError .malformed

end Config

namespace Scheduler

/-- A scheduler without nodes, set up by a configuration. -/
def ofConfig (c : Config) : Except Refusal Scheduler := ofWeights c.scoring

end Scheduler

end Placement
