import Placement.Document.Basic
import Placement.Refusal

/-!
# Reading documents strictly

A reader takes a document of one exact shape. A record has named fields; it may be written with its
names, in any order, or as a list of its values in the order of the fields. Names that are unknown
or come twice are faults, and so is a list that is too long, except in formats that pass over
surplus values. Members are judged in the order of the text, so the fault reported is the first one.
-/

namespace Placement.Document

/-- Why a document was not accepted: it has the wrong shape, or a value in it was refused. -/
inductive Fault where
  | shape
  | refused (cause : Refusal)
  deriving DecidableEq

/-- The text that goes with a fault; a wrong shape has none. -/
def Fault.message? : Fault → Option String
  | shape => none
  | refused cause => some cause.message

/-- A way of reading values of a type. -/
abbrev Reader (α : Type) := Document → Except Fault α

def readText : Reader String
  | .text s => .ok s
  | _ => .error .shape

/-- Reads any number as a double. -/
def readFloat : Reader Float
  | .number (.int n) => .ok (Float.ofInt n)
  | .number (.real x) => .ok x
  | _ => .error .shape

/-- Reads a whole number from zero up to a limit. -/
def readBelow (limit : Nat) : Reader Nat
  | .number (.int (.ofNat n)) => if n < limit then .ok n else .error .shape
  | _ => .error .shape

def readUInt32 : Reader UInt32 := fun d => (readBelow UInt32.size d).map UInt32.ofNat

def readUInt64 : Reader UInt64 := fun d => (readBelow UInt64.size d).map UInt64.ofNat

/-- Accepts what was read only from a list or record that is closed. -/
def closing (closed : Bool) (read : Except Fault α) : Except Fault α :=
  match read with
  | .ok a => if closed then .ok a else .error .shape
  | .error fault => .error fault

def readItems (r : Reader α) : List Document → Except Fault (List α)
  | [] => .ok []
  | d :: rest =>
    match r d with
    | .error fault => .error fault
    | .ok a => (readItems r rest).map (a :: ·)

def readList (r : Reader α) : Reader (List α)
  | .list items closed => closing closed (readItems r items)
  | _ => .error .shape

/-- A field of a record: its name, and how its value is stored in a draft of the record. -/
structure FieldReader (σ : Type) where
  name : String
  store : σ → Reader σ

/-- A field whose value is read on its own and then put into the draft. -/
def field (name : String) (r : Reader α) (put : σ → α → σ) : FieldReader σ :=
  ⟨name, fun draft d => (r d).map (put draft)⟩

/-- Stores named members in a draft. Each fills a field that is still vacant. -/
def storeMembers : List (FieldReader σ) → σ → List (String × Document) → Except Fault σ
  | _, draft, [] => .ok draft
  | vacant, draft, (name, d) :: rest =>
    match vacant.find? (·.name == name) with
    | none => .error .shape
    | some f =>
      match f.store draft d with
      | .error fault => .error fault
      | .ok draft => storeMembers (vacant.filter (·.name != name)) draft rest

/-- Stores the values of a list in the fields, in their order. -/
def storeItems (surplus : Bool) : List (FieldReader σ) → σ → List Document → Except Fault σ
  | _, draft, [] => .ok draft
  | [], draft, _ :: _ => if surplus then .ok draft else .error .shape
  | f :: fields, draft, d :: rest =>
    match f.store draft d with
    | .error fault => .error fault
    | .ok draft => storeItems surplus fields draft rest

/-- Whether values beyond the last field of a record are passed over. -/
def Format.allowsSurplus : Format → Bool
  | json => false
  | toml => true

/-- Reads a record into a draft, by name or in order, and completes the draft. -/
def readRecord (format : Format) (fields : List (FieldReader σ)) (draft : σ)
    (complete : σ → Except Fault α) : Reader α
  | .record members closed => closing closed (storeMembers fields draft members) >>= complete
  | .list items closed =>
    closing closed (storeItems format.allowsSurplus fields draft items) >>= complete
  | _ => .error .shape

/-- A field that has to be there. -/
def required (value : Option α) : Except Fault α :=
  match value with
  | some a => .ok a
  | none => .error .shape

end Placement.Document
