import Placement.Decimal.Fixed
import Placement.Simulation

/-!
# Reports

A ranking is shown as a table with one row for each node, best first. The four columns of criteria
show the values without the one that scoring adds to them. Columns are padded by characters; a name
that is too long pushes the rest of its row to the right. Rounds are shown one to a line.
-/

namespace Placement.Report

/-- A text with blanks after it up to a width. -/
def padRight (width : Nat) (s : String) : String :=
  s ++ String.ofList (List.replicate (width - s.length) ' ')

def padLeft (width : Nat) (s : String) : String :=
  String.ofList (List.replicate (width - s.length) ' ') ++ s

/-- A line of the table. -/
def tableLine (rank node score averageCpu highestCpu averageMemory highestMemory : String) :
    String :=
  padRight 4 rank ++ " " ++ padRight 16 node ++ " " ++ padLeft 8 score ++ "  "
    ++ padLeft 6 averageCpu ++ " " ++ padLeft 6 highestCpu ++ " " ++ padLeft 6 averageMemory ++ " "
    ++ padLeft 6 highestMemory ++ "\n"

def header : String := tableLine "RANK" "NODE" "SCORE" "AVGCPU" "MAXCPU" "AVGMEM" "MAXMEM"

/-- A score, with four places. -/
def score (x : Float) : String := Decimal.fixed 4 x

/-- A value of a criterion without the one added to it, with three places. -/
def criterion (x : Float) : String := Decimal.fixed 3 (x - 1.0)

def count (n : Nat) : String := String.ofList (Nat.toDigits 10 n)

def row (rank : Nat) (s : NodeScore) : String :=
  tableLine (count rank) s.node (score s.score) (criterion s.breakdown.averageCpu)
    (criterion s.breakdown.highestCpu) (criterion s.breakdown.averageMemory)
    (criterion s.breakdown.highestMemory)

/-- The rows of nodes, numbered from `rank` on. -/
def rows (rank : Nat) : List NodeScore → List String
  | [] => []
  | s :: rest => row rank s :: rows (rank + 1) rest

def table (ranking : List NodeScore) : String :=
  if ranking.isEmpty then "no nodes registered\n"
  else String.join (header :: rows 1 ranking)

def roundLine (r : Round) : String :=
  padLeft 4 (count r.iteration) ++ "  " ++ padRight 12 r.service ++ " -> "
    ++ String.intercalate " > " r.ranking ++ "\n"

def roundLines (rounds : List Round) : String := String.join (rounds.map roundLine)

end Placement.Report
