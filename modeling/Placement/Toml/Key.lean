import Placement.Toml.Quoted

/-!
# Keys

A key is a name, bare or quoted, or several names with points between them; then all but the last
lead to the table that the last one belongs to.
-/

namespace Placement.Toml

/-- A name and the names of the tables around it, the outermost first. -/
structure Key where
  parents : List String
  name : String
  deriving Repr, DecidableEq

namespace Key

/-- Letters, digits, the underscore and the hyphen need no quotation marks. -/
def isBare (c : Char) : Bool := c.isAlphanum || c == '_' || c == '-'

/-- How many names a key may not reach. -/
def limit : Nat := 80

def readName (cs : List Char) : Option (String × List Char) :=
  match cs with
  | '"' :: _ | '\'' :: _ => readString cs
  | _ =>
    match cs.span isBare with
    | ([], _) => none
    | (name, rest) => some (String.ofList name, rest)

/-- Reads a key of at most `fuel` names and the blanks around it. -/
def readNames : Nat → List Char → Option (Key × List Char)
  | 0, _ => none
  | fuel + 1, cs => do
    let (name, rest) ← readName (skipBlanks cs)
    match skipBlanks rest with
    | '.' :: rest =>
      let (key, rest) ← readNames fuel rest
      return (⟨name :: key.parents, key.name⟩, rest)
    | rest => return (⟨[], name⟩, rest)

def read (cs : List Char) : Option (Key × List Char) := readNames (limit - 1) cs

example : (read " a . \"b c\".d =".toList).map Prod.fst = some ⟨["a", "b c"], "d"⟩ := by
  decide +kernel

end Key

end Placement.Toml
