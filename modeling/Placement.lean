import Placement.Double.Whole
import Placement.Main
import Placement.Proofs.Acceptance
import Placement.Proofs.Config
import Placement.Proofs.Conservation
import Placement.Proofs.Formats
import Placement.Proofs.History
import Placement.Proofs.Interleaving
import Placement.Proofs.LedgerHistory
import Placement.Proofs.Reachability
import Placement.Proofs.Report
import Placement.Proofs.Restoring
import Placement.Proofs.Scoring.EmptyRequest
import Placement.Proofs.Scoring.Growth
import Placement.Proofs.Scoring.Indifference
import Placement.Proofs.Scoring.Orphans
import Placement.Proofs.Scoring.Renaming
import Placement.Proofs.Simulation
import Placement.Proofs.Storage
