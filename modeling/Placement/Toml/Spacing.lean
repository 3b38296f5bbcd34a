/-!
# Blanks, comments and ends of lines

Spaces and tabs may stand between the parts of a line, and a comment may end it. A line ends with a
line feed, alone or after a carriage return, or with the text. Control characters other than the tab
stand nowhere, not even in comments.
-/

namespace Placement.Toml

def isBlank (c : Char) : Bool := c == ' ' || c == '\t'

/-- The characters that a comment or a text on one line may hold. -/
def isPrintable (c : Char) : Bool :=
  c == '\t' || (0x20 ≤ c.toNat && c.toNat ≤ 0x7E) || 0x80 ≤ c.toNat

def skipBlanks (cs : List Char) : List Char := cs.dropWhile isBlank

def afterNewline? : List Char → Option (List Char)
  | '\n' :: rest => some rest
  | '\r' :: '\n' :: rest => some rest
  | _ => none

/-- The text after a comment, if there is one. -/
def skipComment : List Char → List Char
  | '#' :: rest => rest.dropWhile isPrintable
  | cs => cs

/-- The text after what may stand at the end of a line: blanks, a comment, and the end itself. -/
def afterLine? (cs : List Char) : Option (List Char) :=
  match skipComment (skipBlanks cs) with
  | [] => some []
  | rest => afterNewline? rest

/-- The text after blanks and ends of lines. -/
def skipLines : List Char → List Char
  | [] => []
  | '\n' :: rest => skipLines rest
  | '\r' :: '\n' :: rest => skipLines rest
  | c :: rest => if isBlank c then skipLines rest else c :: rest

/-- The text after blanks, comments and ends of lines, where a comment is or is not under way. A
comment that does not end with its line leaves what stopped it. -/
def skipGap (comment : Bool) : List Char → List Char
  | [] => []
  | '\n' :: rest => skipGap false rest
  | '\r' :: '\n' :: rest => skipGap false rest
  | c :: rest =>
    if comment then
      if isPrintable c then skipGap true rest else c :: rest
    else if c == '#' then skipGap true rest
    else if isBlank c then skipGap false rest
    else c :: rest

end Placement.Toml
