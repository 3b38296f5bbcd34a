import Placement.Scenario

/-!
# Placing again and again

A simulation places copies of the candidate, one a round, each on the node that ranks first at that
time, under a service name made from the number of the round. Without a node there are no rounds.
-/

namespace Placement

/-- One placement: the name given to the copy, and the nodes, of which the first received it. -/
structure Round where
  iteration : Nat
  service : String
  ranking : List String
  deriving Repr, DecidableEq

namespace Round

/-- The name of the copy placed in a round. -/
def serviceName (iteration : Nat) : String := "sim:" ++ String.ofList (Nat.toDigits 10 iteration)

def toDocument (r : Round) : Document :=
  .record
    [("iteration", .number (.int r.iteration)), ("service_id", .text r.service),
      ("ranking", .list (r.ranking.map .text) true)] true

end Round

namespace Scheduler

/-- Plays rounds from the given one on, as many as asked for. -/
def rounds (s : Scheduler) (candidate : Footprint) (iteration : Nat) :
    Nat → Except Refusal (List Round)
  | 0 => .ok []
  | more + 1 =>
    match (s.rankNodes candidate).map NodeScore.node with
    | [] => .ok []
    | winner :: others =>
      let service := Round.serviceName iteration
      match s.addUsage ⟨service, winner, candidate⟩ with
      | .error cause => .error cause
      | .ok next =>
        (next.rounds candidate (iteration + 1) more).map
          (⟨iteration, service, winner :: others⟩ :: ·)

end Scheduler

namespace Scenario

/-- Plays the given number of rounds on the scheduler of a scenario. -/
def simulate (s : Scenario) (count : Nat) : Except Refusal (List Round) :=
  match s.scheduler with
  | .error cause => .error cause
  | .ok scheduler => scheduler.rounds s.candidate 0 count

end Scenario

end Placement
