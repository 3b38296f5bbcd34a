import Placement.Text.Hex

/-!
# Quoted text

A text stands between quotation marks. A quotation mark, a backslash and the control characters
below the space are written as escapes, short ones where there are any; everything else stands for
itself. Reading also takes the escapes that writing does not need. Two escapes of surrogates make up
one character, and a surrogate alone is no text.
-/

namespace Placement.Json

open Text (hexNumber charOfCode?)

/-- A character as it is written between quotation marks. -/
def escape (c : Char) : List Char :=
  if c = '"' then ['\\', '"']
  else if c = '\\' then ['\\', '\\']
  else if c = '\n' then ['\\', 'n']
  else if c = '\r' then ['\\', 'r']
  else if c = '\t' then ['\\', 't']
  else if c = '\x08' then ['\\', 'b']
  else if c = '\x0c' then ['\\', 'f']
  else if c.toNat < 0x20 then
    ['\\', 'u', '0', '0', Nat.digitChar (c.toNat / 16), Nat.digitChar (c.toNat % 16)]
  else [c]

def quote (s : String) : List Char := '"' :: s.toList.flatMap escape ++ ['"']

/-- Whether a code is the first or the second half of a pair of surrogates. -/
def isHighSurrogate (code : Nat) : Bool := 0xD800 ≤ code && code < 0xDC00

@[inherit_doc isHighSurrogate]
def isLowSurrogate (code : Nat) : Bool := 0xDC00 ≤ code && code < 0xE000

/-- The code of a pair of surrogates. -/
def pairCode (high low : Nat) : Nat := 0x10000 + (high - 0xD800) * 0x400 + (low - 0xDC00)

/-- The character of a short escape. -/
def shortEscape? (c : Char) : Option Char :=
  match c with
  | '"' => some '"'
  | '\\' => some '\\'
  | '/' => some '/'
  | 'b' => some '\x08'
  | 'f' => some '\x0c'
  | 'n' => some '\n'
  | 'r' => some '\r'
  | 't' => some '\t'
  | _ => none

/-- Reads the escape of a code, which may go on with a second one. -/
def readCode (cs : List Char) : Option (Char × List Char) := do
  let (code, rest) ← hexNumber 0 4 cs
  if isHighSurrogate code then
    match rest with
    | '\\' :: 'u' :: more =>
      let (low, rest) ← hexNumber 0 4 more
      if isLowSurrogate low then
        (charOfCode? (pairCode code low)).map fun c => (c, rest)
      else none
    | _ => none
  else (charOfCode? code).map fun c => (c, rest)

/-- Reads one character of a text, as itself or as an escape. -/
def readChar : List Char → Option (Char × List Char)
  | '\\' :: 'u' :: rest => readCode rest
  | '\\' :: c :: rest => (shortEscape? c).map fun c => (c, rest)
  | '\\' :: [] => none
  | c :: rest => if c.toNat < 0x20 then none else some (c, rest)
  | [] => none

/-- Reads at most `fuel` characters up to the closing quotation mark. -/
def readChars : Nat → List Char → Option (List Char × List Char)
  | 0, _ => none
  | _ + 1, '"' :: rest => some ([], rest)
  | fuel + 1, cs =>
    match readChar cs with
    | none => none
    | some (c, rest) => (readChars fuel rest).map fun (s, rest) => (c :: s, rest)

/-- Reads a text whose opening quotation mark has been passed. -/
def unquote (cs : List Char) : Option (String × List Char) :=
  (readChars (cs.length + 1) cs).map fun (s, rest) => (String.ofList s, rest)

example : (unquote "a\\u00e9\\n\\ud83d\\ude00\" rest".toList).map Prod.fst = some "aé\n😀" := by
  decide +kernel
example : unquote "\\ud83d\"".toList = none := by decide +kernel

end Placement.Json
