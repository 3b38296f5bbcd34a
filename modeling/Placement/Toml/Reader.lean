import Placement.Document.Schema
import Placement.Toml.Numeral
import Placement.Toml.Table

/-!
# Reading TOML

A text is a sequence of lines: headers of tables, assignments of values to keys, and lines with
nothing but a comment. The whole text is read before anything in it is judged, so a text that is not
TOML is refused for that, whatever else is wrong with it. Lists may go over several lines, tables
within a line may not.
-/

namespace Placement.Toml

/-- Reads the items of a list from a place where one is due or the list may end. -/
def items (value : List Char → Option (Document × List Char)) :
    Nat → List Char → Option (List Document × List Char)
  | 0, _ => none
  | fuel + 1, cs =>
    match skipGap false cs with
    | ']' :: rest => some ([], rest)
    | cs => do
      let (d, rest) ← value cs
      match skipGap false rest with
      | ',' :: rest =>
        let (ds, rest) ← items value fuel rest
        return (d :: ds, rest)
      | ']' :: rest => return ([d], rest)
      | _ => none

def assignment (value : List Char → Option (Document × List Char)) (cs : List Char) :
    Option ((Key × Document) × List Char) := do
  let (key, rest) ← Key.read cs
  match rest with
  | '=' :: rest =>
    let (d, rest) ← value (skipBlanks rest)
    return ((key, d), rest)
  | _ => none

/-- Reads the assignments of a table within a line from a place where one is due. -/
def assignments (value : List Char → Option (Document × List Char)) :
    Nat → List Char → Option (List (Key × Document) × List Char)
  | 0, _ => none
  | fuel + 1, cs => do
    let (a, rest) ← assignment value cs
    match skipBlanks rest with
    | ',' :: rest =>
      let (as, rest) ← assignments value fuel rest
      return (a :: as, rest)
    | '}' :: rest => return ([a], rest)
    | _ => none

/-- Reads a table within a line whose opening brace has been passed. -/
def inlineTable (value : List Char → Option (Document × List Char)) (cs : List Char) :
    Option (Document × List Char) :=
  match skipBlanks cs with
  | '}' :: rest => some (.record [] true, rest)
  | cs => do
    let (as, rest) ← assignments value cs.length cs
    let members ← Members.assignAll [] as
    return (members.toDocument, rest)

/-- Reads a value in which lists and tables are nested at most `depth` deep. -/
def value : Nat → List Char → Option (Document × List Char)
  | 0, cs =>
    match cs with
    | '"' :: _ | '\'' :: _ => (readAnyString cs).map fun (s, rest) => (.text s, rest)
    | _ => readScalar cs
  | depth + 1, cs =>
    match cs with
    | '[' :: rest =>
      (items (value depth) (rest.length + 1) rest).map fun (ds, rest) => (.list ds true, rest)
    | '{' :: rest => inlineTable (value depth) rest
    | '"' :: _ | '\'' :: _ => (readAnyString cs).map fun (s, rest) => (.text s, rest)
    | _ => readScalar cs

/-- How deep lists and tables may be nested in a value. -/
def deepest : Nat := 79

/-- What a line of a text says. -/
inductive Line where
  | table (key : Key)
  | element (key : Key)
  | assign (key : Key) (d : Document)

def header : List Char → Option (Line × List Char)
  | '[' :: '[' :: rest => do
    let (key, rest) ← Key.read rest
    match rest with
    | ']' :: ']' :: rest => return (.element key, rest)
    | _ => none
  | '[' :: rest => do
    let (key, rest) ← Key.read rest
    match rest with
    | ']' :: rest => return (.table key, rest)
    | _ => none
  | _ => none

/-- Reads what a line says, up to its end. -/
def line (cs : List Char) : Option (Option Line × List Char) :=
  match cs with
  | '#' :: _ | '\n' :: _ | '\r' :: _ => (afterLine? cs).map fun rest => (none, rest)
  | '[' :: _ => do
    let (l, rest) ← header cs
    return (some l, ← afterLine? rest)
  | _ => do
    let ((key, d), rest) ← assignment (value deepest) cs
    return (some (.assign key d), ← afterLine? rest)

/-- Reads at most `fuel` lines up to the end of the text. -/
def lines : Nat → List Char → Option (List Line)
  | 0, _ => none
  | fuel + 1, cs =>
    match skipBlanks cs with
    | [] => some []
    | cs => do
      let (l, rest) ← line cs
      let ls ← lines fuel rest
      return l.toList ++ ls

/-- The assignments before the first header and the lines from it on. -/
def leading : List Line → List (Key × Document) × List Line
  | .assign key d :: ls =>
    let (as, rest) := leading ls
    ((key, d) :: as, rest)
  | ls => ([], ls)

/-- Adds the tables of all headers among the lines to a table, each with the assignments that
follow its header. -/
def addSections (ms : Members) : List Line → Option Members
  | [] => some ms
  | .table key :: ls => do addSections (← ms.addTable key (leading ls).1) ls
  | .element key :: ls => do addSections (← ms.addElement key (leading ls).1) ls
  | .assign _ _ :: ls => addSections ms ls

/-- The table of all lines. -/
def assemble (ls : List Line) : Option Members := do
  addSections (← Members.assignAll [] (leading ls).1) ls

/-- The text after a byte order mark. -/
def skipMark : List Char → List Char
  | '\uFEFF' :: rest => rest
  | cs => cs

def read (text : String) : Option Document := do
  let cs := skipMark text.toList
  let ms ← assemble (← lines (cs.length + 1) cs)
  return ms.toDocument

/-- Reads a text whose document is taken by `r`. -/
def decode (r : Document.Reader α) (text : String) : Except Document.Fault α :=
  match read text with
  | some d => r d
  | none => .error .shape

end Placement.Toml
