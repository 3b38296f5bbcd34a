import Placement.Decimal.Literal
import Placement.Document.Schema
import Placement.Json.Quoted

/-!
# Reading JSON

The whole text is one value, with blanks allowed around every token. A text that breaks off, or goes
on with something that cannot stand there, still gives the part of the document before that place:
lists and records that were under way are not closed, and a value that could not be read is `other`.
So a fault of the document and a fault of the text are reported in the order in which they occur.
Numbers are read by scaling a 64-bit significand.
-/

namespace Placement.Json

open Decimal

/-- What was read of a value, and the text after it unless the value broke off. -/
structure Reading where
  document : Document
  rest : Option (List Char)

def broken : Reading := ⟨.other, none⟩

/-- Space, tab, line feed and carriage return may stand between tokens. -/
def isBlank (c : Char) : Bool := c == ' ' || c == '\t' || c == '\n' || c == '\r'

def skipBlanks (cs : List Char) : List Char := cs.dropWhile isBlank

/-- The number of a literal. A whole number that fits 64 bits is kept exactly, but a negative zero
and negative numbers below the 64-bit range become doubles. Beyond all doubles there is no value. -/
def number (l : Literal) : Document :=
  let (s, _, complete) := l.collect
  if l.isWhole ∧ complete then
    if !l.negative then .number (.int s)
    else if s = 0 ∨ 0x8000000000000000 < s then .number (.real (-(UInt64.ofNat s).toFloat))
    else .number (.int (-s))
  else
    match l.scaled with
    | some x => .number (.real x)
    | none => .other

/-- The text after one of the words that stand for a value. -/
def afterWord? : List Char → Option (List Char)
  | 't' :: 'r' :: 'u' :: 'e' :: rest => some rest
  | 'f' :: 'a' :: 'l' :: 's' :: 'e' :: rest => some rest
  | 'n' :: 'u' :: 'l' :: 'l' :: rest => some rest
  | _ => none

def scalar (cs : List Char) : Reading :=
  match afterWord? cs with
  | some rest => ⟨.other, some rest⟩
  | none =>
    match Literal.read cs with
    | some (l, rest) => ⟨number l, some rest⟩
    | none => broken

/-- Reads the items of a list from a place where one is due; `none` if the list breaks off. -/
def items (value : List Char → Reading) : Nat → List Char → List Document × Option (List Char)
  | 0, _ => ([], none)
  | fuel + 1, cs =>
    match value cs with
    | ⟨d, none⟩ => ([d], none)
    | ⟨d, some rest⟩ =>
      match skipBlanks rest with
      | ',' :: more =>
        let (ds, rest) := items value fuel more
        (d :: ds, rest)
      | ']' :: more => ([d], some more)
      | _ => ([d], none)

/-- Reads the name of a member and the colon after it. -/
def name (cs : List Char) : Option (String × List Char) :=
  match skipBlanks cs with
  | '"' :: rest =>
    match unquote rest with
    | some (s, rest) =>
      match skipBlanks rest with
      | ':' :: rest => some (s, rest)
      | _ => none
    | none => none
  | _ => none

/-- Reads the members of a record from a place where one is due; `none` if the record breaks off. -/
def members (value : List Char → Reading) :
    Nat → List Char → List (String × Document) × Option (List Char)
  | 0, _ => ([], none)
  | fuel + 1, cs =>
    match name cs with
    | none => ([], none)
    | some (k, rest) =>
      match value rest with
      | ⟨d, none⟩ => ([(k, d)], none)
      | ⟨d, some rest⟩ =>
        match skipBlanks rest with
        | ',' :: more =>
          let (ms, rest) := members value fuel more
          ((k, d) :: ms, rest)
        | '}' :: more => ([(k, d)], some more)
        | _ => ([(k, d)], none)

def list (value : List Char → Reading) (cs : List Char) : Reading :=
  match skipBlanks cs with
  | ']' :: rest => ⟨.list [] true, some rest⟩
  | _ =>
    let (ds, rest) := items value cs.length cs
    ⟨.list ds rest.isSome, rest⟩

def record (value : List Char → Reading) (cs : List Char) : Reading :=
  match skipBlanks cs with
  | '}' :: rest => ⟨.record [] true, some rest⟩
  | _ =>
    let (ms, rest) := members value cs.length cs
    ⟨.record ms rest.isSome, rest⟩

/-- Reads a value in which lists and records are nested at most `depth` deep. -/
def value : Nat → List Char → Reading
  | 0, _ => broken
  | depth + 1, cs =>
    match skipBlanks cs with
    | '[' :: rest => list (value depth) rest
    | '{' :: rest => record (value depth) rest
    | '"' :: rest =>
      match unquote rest with
      | some (s, rest) => ⟨.text s, some rest⟩
      | none => broken
    | rest => scalar rest

/-- Reads the value at the start of a text. No value is nested deeper than its text is long. -/
def reading (cs : List Char) : Reading := value (cs.length + 1) cs

/-- Reads a text whose value is taken by `r` and is followed by nothing but blanks. -/
def decode (r : Document.Reader α) (text : String) : Except Document.Fault α :=
  let read := reading text.toList
  match r read.document with
  | .error fault => .error fault
  | .ok a =>
    match read.rest with
    | some rest => if rest.all isBlank then .ok a else .error .shape
    | none => .error .shape

end Placement.Json
