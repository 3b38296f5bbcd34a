import Placement.Document.Stored
import Placement.Json.Printer
import Placement.Json.Reader

/-!
# Snapshots and footprints as JSON text

What a caller stores a scheduler as, and reads it back from. The text of a snapshot keeps the order
of its entries and does not judge them.
-/

namespace Placement

def Footprint.ofJson (text : String) : Except Document.Fault Footprint :=
  Json.decode (Footprint.ofDocument .json) text

namespace Snapshot

def ofJson (text : String) : Except Document.Fault Snapshot :=
  Json.decode (Snapshot.ofDocument .json) text

def toJson (s : Snapshot) : String := Json.print s.toDocument

end Snapshot

end Placement
