import Placement.Document.Basic
import Placement.Toml.Key

/-!
# Tables under construction

The lines of a text add to a tree of tables from many places, and the tree has to know how each of
its tables came to be. A table with a header of its own is closed to keys with points and cannot
have a second header; one that was only passed on the way to another may still get its header; one
that came from a key with points can be extended by such keys alone. A list of tables is entered at
its last one. Members stay in the order in which they were added, and a passed table moves to the
end when it gets its header.
-/

namespace Placement.Toml

/-- How a table came to be. -/
inductive Origin where
  | header
  | passed
  | dotted
  deriving Repr, DecidableEq

/-- A member of a table: a value, a table, or a list of tables with headers of their own. -/
inductive Entry where
  | value (d : Document)
  | table (origin : Origin) (members : List (String × Entry))
  | tables (elements : List (List (String × Entry)))

/-- The members of a table, in the order in which they were added. -/
abbrev Members := List (String × Entry)

namespace Members

/-- The members with another entry under a name that they have. -/
def replace (name : String) (e : Entry) (ms : Members) : Members :=
  ms.map fun m => if m.1 == name then (name, e) else m

def without (name : String) (ms : Members) : Members := ms.filter (·.1 != name)

/-- Changes the table at the end of a path, creating what is missing on the way. -/
def change (created : Origin) (f : Origin → Members → Option Members) :
    List String → Origin → Members → Option Members
  | [], origin, ms => f origin ms
  | name :: path, _, ms =>
    match ms.lookup name with
    | none => do
      let inner ← change created f path created []
      return ms ++ [(name, .table created inner)]
    | some (.value _) => none
    | some (.table origin inner) =>
      if created = .dotted ∧ origin = .header then none
      else do
        let inner ← change created f path origin inner
        return ms.replace name (.table origin inner)
    | some (.tables elements) => do
      let last ← elements.getLast?
      let last ← change created f path .header last
      return ms.replace name (.tables (elements.dropLast ++ [last]))

/-- Adds a value under a key. Its table comes from keys with points exactly if this key has some. -/
def assign (ms : Members) (key : Key) (d : Document) : Option Members :=
  let put (origin : Origin) (ms : Members) : Option Members :=
    if (origin == .dotted) == key.parents.isEmpty then none
    else if (ms.lookup key.name).isSome then none
    else some (ms ++ [(key.name, .value d)])
  change .dotted put key.parents .header ms

/-- Adds values under their keys, one after the other. -/
def assignAll (ms : Members) (assignments : List (Key × Document)) : Option Members :=
  assignments.foldlM (fun ms (key, d) => assign ms key d) ms

/-- Adds a table with a header. A table that was passed before keeps its members. -/
def addTable (ms : Members) (key : Key) (assignments : List (Key × Document)) : Option Members :=
  let put (_ : Origin) (ms : Members) : Option Members :=
    match ms.lookup key.name with
    | none => do
      let body ← assignAll [] assignments
      return ms ++ [(key.name, .table .header body)]
    | some (.table .passed members) => do
      let body ← assignAll members assignments
      return ms.without key.name ++ [(key.name, .table .header body)]
    | some _ => none
  change .passed put key.parents .header ms

/-- Adds one more table to a list of tables. -/
def addElement (ms : Members) (key : Key) (assignments : List (Key × Document)) : Option Members :=
  let put (_ : Origin) (ms : Members) : Option Members := do
    let body ← assignAll [] assignments
    match ms.lookup key.name with
    | none => return ms ++ [(key.name, .tables [body])]
    | some (.tables elements) => return ms.replace key.name (.tables (elements ++ [body]))
    | some _ => none
  change .passed put key.parents .header ms

end Members

mutual

/-- The document of an entry. -/
def Entry.toDocument : Entry → Document
  | .value d => d
  | .table _ members => .record (membersToDocument members) true
  | .tables elements => .list (elementsToDocument elements) true

/-- The documents of the members of a table. -/
def membersToDocument : List (String × Entry) → List (String × Document)
  | [] => []
  | (name, e) :: rest => (name, e.toDocument) :: membersToDocument rest

/-- The documents of a list of tables. -/
def elementsToDocument : List (List (String × Entry)) → List Document
  | [] => []
  | members :: rest => .record (membersToDocument members) true :: elementsToDocument rest

end

def Members.toDocument (ms : Members) : Document := .record (membersToDocument ms) true

end Placement.Toml
