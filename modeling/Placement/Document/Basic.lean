/-!
# Documents

Both text formats are read into one kind of tree: texts, numbers, lists, and records whose members
stay in the order of the text, repetitions included. What no stored value can be (a truth value, a
date, nothing at all, a number out of range) is `other`. A text that breaks off leaves lists and
records that are not closed, so that what was read before the break can still be judged in order.
-/

namespace Placement

/-- A number: whole ones exactly, others as doubles. -/
inductive Number where
  | int (n : Int)
  | real (x : Float)

/-- A tree of values as far as it was read. -/
inductive Document where
  | text (s : String)
  | number (n : Number)
  | list (items : List Document) (closed : Bool)
  | record (members : List (String × Document)) (closed : Bool)
  | other

namespace Document

instance : Inhabited Document := ⟨other⟩

/-- The text formats that documents come from. -/
inductive Format where
  | json
  | toml
  deriving Repr, DecidableEq

end Document

end Placement
