import Placement.Text.Hex
import Placement.Toml.Spacing

/-!
# Quoted text in TOML

Texts stand between quotation marks, with escapes, or between apostrophes, without. Three marks in a
row open a text of several lines, whose first end of line does not count; up to two marks may stand
at any place in it, also right before the three that close it. In a text with escapes a backslash at
the end of a line takes away that end and all blanks and ends of lines after it. Every end of line
that counts is one line feed.
-/

namespace Placement.Toml

open Text (hexNumber charOfCode?)

def readEscape : List Char → Option (Char × List Char)
  | 'b' :: rest => some ('\x08', rest)
  | 't' :: rest => some ('\t', rest)
  | 'n' :: rest => some ('\n', rest)
  | 'f' :: rest => some ('\x0c', rest)
  | 'r' :: rest => some ('\r', rest)
  | '"' :: rest => some ('"', rest)
  | '\\' :: rest => some ('\\', rest)
  | 'u' :: rest => do
    let (code, rest) ← hexNumber 0 4 rest
    return (← charOfCode? code, rest)
  | 'U' :: rest => do
    let (code, rest) ← hexNumber 0 8 rest
    return (← charOfCode? code, rest)
  | _ => none

/-- Reads one character of a text on one line. -/
def readChar : List Char → Option (Char × List Char)
  | '\\' :: rest => readEscape rest
  | c :: rest => if isPrintable c then some (c, rest) else none
  | [] => none

/-- Reads at most `fuel` characters up to the closing quotation mark. -/
def readBasic : Nat → List Char → Option (List Char × List Char)
  | 0, _ => none
  | _ + 1, '"' :: rest => some ([], rest)
  | fuel + 1, cs => do
    let (c, rest) ← readChar cs
    let (s, rest) ← readBasic fuel rest
    return (c :: s, rest)

/-- Reads up to the closing apostrophe. -/
def readLiteral : List Char → Option (List Char × List Char)
  | [] => none
  | '\'' :: rest => some ([], rest)
  | c :: rest =>
    if isPrintable c then (readLiteral rest).map fun (s, rest) => (c :: s, rest) else none

/-- The closing of a text of several lines, if marks stand here: up to two that belong to the text
and three that do not. -/
def closing? (mark : Char) (cs : List Char) : Option (List Char × List Char) :=
  let marks := (cs.takeWhile (· == mark)).length
  if marks < 3 then none
  else
    let kept := min (marks - 3) 2
    some (List.replicate kept mark, cs.drop (kept + 3))

/-- Reads one character of a text of several lines; an end of line is a line feed. -/
def readLined (escapes : Bool) (cs : List Char) : Option (Char × List Char) :=
  match afterNewline? cs with
  | some rest => some ('\n', rest)
  | none =>
    match cs with
    | c :: rest =>
      if escapes then readChar cs else if isPrintable c then some (c, rest) else none
    | [] => none

/-- The text after a backslash at the end of a line and all that it takes away. -/
def afterFold? : List Char → Option (List Char)
  | '\\' :: rest => (afterNewline? (skipBlanks rest)).map skipLines
  | _ => none

/-- Reads at most `fuel` characters of a text of several lines up to its closing. -/
def readMultiline (escapes : Bool) (mark : Char) : Nat → List Char → Option (List Char × List Char)
  | 0, _ => none
  | fuel + 1, cs =>
    match closing? mark cs with
    | some ending => some ending
    | none =>
      match if escapes then afterFold? cs else none with
      | some rest => readMultiline escapes mark fuel rest
      | none => do
        let (c, rest) ← readLined escapes cs
        let (s, rest) ← readMultiline escapes mark fuel rest
        return (c :: s, rest)

/-- The text after an end of line that does not count. -/
def skipFirstNewline (cs : List Char) : List Char := (afterNewline? cs).getD cs

/-- Reads a text on one line from its opening mark. -/
def readString : List Char → Option (String × List Char)
  | '"' :: rest => (readBasic (rest.length + 1) rest).map fun (s, rest) => (String.ofList s, rest)
  | '\'' :: rest => (readLiteral rest).map fun (s, rest) => (String.ofList s, rest)
  | _ => none

/-- Reads a text of any kind from its opening marks. -/
def readAnyString : List Char → Option (String × List Char)
  | '"' :: '"' :: '"' :: rest =>
    (readMultiline true '"' (rest.length + 1) (skipFirstNewline rest)).map
      fun (s, rest) => (String.ofList s, rest)
  | '\'' :: '\'' :: '\'' :: rest =>
    (readMultiline false '\'' (rest.length + 1) (skipFirstNewline rest)).map
      fun (s, rest) => (String.ofList s, rest)
  | cs => readString cs

example : (readAnyString "\"\"\"\na\\\n   b\"\"\"\"\" #".toList).map Prod.fst = some "ab\"\"" := by
  decide +kernel

end Placement.Toml
