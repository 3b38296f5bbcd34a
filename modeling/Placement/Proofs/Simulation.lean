import Placement.Simulation
import Placement.Proofs.Restoring
import Placement.Proofs.Scoring.Choice
import Placement.Proofs.Scoring.Placing

/-!
# What a simulation plays

Each round ranks the nodes of the scheduler that the rounds before it have left, and puts one copy
of the candidate on the first of them. The copies have names of their own, so no copy takes the
place of another one. They are not the only services with such names, though: a scenario may list a
service that is called like a copy, and then the copy takes its place, wherever it was. Where no
name is taken, a round finds everything that the scenario lists and one copy for each earlier
round.
-/
namespace Placement

theorem Round.serviceName_injective {i j : ℕ} (h : serviceName i = serviceName j) : i = j := by
  have hdigits : Nat.toDigits 10 i = Nat.toDigits 10 j := by
    have hlist := congrArg String.toList h
    simpa [serviceName] using hlist
  have hvalue := congrArg (Nat.ofDigitChars 10 · 0) hdigits
  simpa [Nat.ofDigitChars_ten_toDigits] using hvalue

/-- What a round does to the scheduler: a copy is recorded on the node that ranks first. -/
def Round.placement? (f : Footprint) (r : Round) : Option Scheduler.Operation :=
  r.ranking.head?.map fun winner => .addUsage ⟨r.service, winner, f⟩

namespace Scheduler

/-- The ranking depends on the records only through what is in use on each node. -/
theorem rankNodes_congr {s t : Scheduler} (engine : t.engine = s.engine)
    (registry : t.registry = s.registry)
    (usage : ∀ node, t.ledger.usageOf node = s.ledger.usageOf node) (f : Footprint) :
    t.rankNodes f = s.rankNodes f := by
  unfold rankNodes
  rw [engine, registry, Engine.evaluate_congr s.engine fun n _ => usage n.name]

variable {s t : Scheduler} {f : Footprint}

/-- The round in which the nodes of a scheduler are ranked. -/
def round (s : Scheduler) (f : Footprint) (iteration : ℕ) : Round :=
  ⟨iteration, Round.serviceName iteration, (s.rankNodes f).map NodeScore.node⟩

/-- The scheduler after a round that starts from it. -/
def afterRound (s : Scheduler) (f : Footprint) (iteration : ℕ) : Scheduler :=
  s.run ((s.round f iteration).placement? f).toList

theorem head?_ranking (s : Scheduler) (f : Footprint) (iteration : ℕ) :
    (s.round f iteration).ranking.head? = s.bestNode? f := List.head?_map

theorem afterRound_of_best {winner : String} (h : s.bestNode? f = some winner) (iteration : ℕ) :
    s.afterRound f iteration =
      s.step (.addUsage ⟨Round.serviceName iteration, winner, f⟩) := by
  rw [afterRound, Round.placement?, head?_ranking, h]
  rfl

/-- A round records one copy, on the node that ranks first. -/
theorem exists_copy (nodes : s.nodeNames ≠ []) (f : Footprint) (iteration : ℕ) :
    ∃ copy : Record, copy.service = Round.serviceName iteration ∧ copy.footprint = f ∧
      (s.round f iteration).ranking.head? = some copy.node ∧ s.containsNode copy.node = true ∧
      s.afterRound f iteration = s.step (.addUsage copy) := by
  obtain ⟨winner, hwinner⟩ := Option.ne_none_iff_exists'.mp
    fun h => nodes ((bestNode?_eq_none s f).mp h)
  obtain ⟨x, hx, rfl, -⟩ := bestNode?_eq_some.mp hwinner
  exact ⟨⟨Round.serviceName iteration, x.node, f⟩, rfl, rfl, hwinner ▸ head?_ranking s f iteration,
    containsNode_iff.mpr ⟨x.capacity, capacity?_of_mem_rankNodes hx⟩,
    afterRound_of_best hwinner iteration⟩

/-- The scheduler after a number of rounds, of which the first one has the number `start`. -/
def played (s : Scheduler) (f : Footprint) (start : ℕ) : ℕ → Scheduler
  | 0 => s
  | i + 1 => (s.played f start i).afterRound f (start + i)

theorem played_afterRound (s : Scheduler) (f : Footprint) (start i : ℕ) :
    (s.afterRound f start).played f (start + 1) i = s.played f start (i + 1) := by
  induction i with
  | zero => rfl
  | succ i ih =>
    rw [played, ih, Nat.add_assoc, Nat.add_comm 1 i]
    rfl

/-- The rounds played so far, carried out one after the other. -/
theorem run_placements (s : Scheduler) (f : Footprint) (start i : ℕ) :
    s.run ((List.range i).filterMap fun k =>
      ((s.played f start k).round f (start + k)).placement? f) = s.played f start i := by
  induction i with
  | zero => rfl
  | succ i ih =>
    rw [List.range_succ, List.filterMap_append, run_append, ih, played, afterRound]
    cases h : ((s.played f start i).round f (start + i)).placement? f <;> simp [h]

theorem registry_played (nodes : s.nodeNames ≠ []) (f : Footprint) (start i : ℕ) :
    (s.played f start i).registry = s.registry ∧ (s.played f start i).engine = s.engine := by
  induction i with
  | zero => exact ⟨rfl, rfl⟩
  | succ i ih =>
    have hnodes : (s.played f start i).nodeNames ≠ [] := by rwa [nodeNames, ih.1]
    obtain ⟨copy, -, -, -, hnode, hstep⟩ := exists_copy hnodes f (start + i)
    rw [played, hstep, step_addUsage hnode]
    exact ih

theorem nodeNames_played (nodes : s.nodeNames ≠ []) (f : Footprint) (start i : ℕ) :
    (s.played f start i).nodeNames ≠ [] := by
  rwa [nodeNames, (registry_played nodes f start i).1]

/-- A simulation is never refused, and each of its rounds ranks what the rounds before it left. -/
theorem rounds_eq (nodes : s.nodeNames ≠ []) (f : Footprint) (start count : ℕ) :
    s.rounds f start count =
      .ok ((List.range count).map fun i => (s.played f start i).round f (start + i)) := by
  induction count generalizing s start with
  | zero => rfl
  | succ count ih =>
    obtain ⟨copy, hservice, hfootprint, hhead, hnode, hstep⟩ := exists_copy nodes f start
    obtain ⟨others, hranking⟩ := List.head?_eq_some_iff.mp hhead
    have hranking : (s.rankNodes f).map NodeScore.node = copy.node :: others := hranking
    have hcopy : copy = ⟨Round.serviceName start, copy.node, f⟩ := by
      rw [← hservice, ← hfootprint]
    have hadd : s.addUsage ⟨Round.serviceName start, copy.node, f⟩ =
        .ok (s.afterRound f start) := by
      rw [hstep, ← hcopy]
      exact perform_of_succeeds (succeeds_addUsage.mpr hnode)
    have hnodes : (s.afterRound f start).nodeNames ≠ [] := nodeNames_played nodes f start 1
    rw [rounds, hranking]
    simp only [hadd]
    rw [ih hnodes, List.range_succ_eq_map, List.map_cons, List.map_map, ← hranking]
    have htail : (List.range count).map (fun i =>
          ((s.afterRound f start).played f (start + 1) i).round f (start + 1 + i)) =
        (List.range count).map
          ((fun i => (s.played f start i).round f (start + i)) ∘ Nat.succ) := by
      refine List.map_congr_left fun i _ => ?_
      rw [played_afterRound, Function.comp_apply, Nat.add_assoc, Nat.add_comm 1 i]
    rw [htail]
    rfl

theorem usage?_played (nodes : s.nodeNames ≠ []) (f : Footprint) {service : String} {i : ℕ}
    (h : ∀ k < i, Round.serviceName k ≠ service) :
    (s.played f 0 i).usage? service = s.usage? service := by
  induction i with
  | zero => rfl
  | succ i ih =>
    obtain ⟨copy, hservice, -, -, -, hstep⟩ :=
      exists_copy (nodeNames_played nodes f 0 i) f (0 + i)
    have hne : service ≠ copy.service := by
      rw [hservice, Nat.zero_add]
      exact (h i (Nat.lt_succ_self i)).symm
    rw [played, hstep, usage?_addUsage, if_neg fun hand => hne hand.1,
      ih fun k hk => h k (Nat.lt_succ_of_lt hk)]

theorem usage?_serviceName (nodes : s.nodeNames ≠ []) (f : Footprint) (i : ℕ) :
    (s.played f 0 i).usage? (Round.serviceName i) = s.usage? (Round.serviceName i) :=
  usage?_played nodes f fun _ hk he => hk.ne (Round.serviceName_injective he)

/-- How many of the first names of copies a scheduler has records of already. -/
def taken (s : Scheduler) (i : ℕ) : ℕ :=
  (List.range i).countP fun k => (s.usage? (Round.serviceName k)).isSome

theorem taken_eq_zero {i : ℕ} :
    s.taken i = 0 ↔ ∀ k < i, s.usage? (Round.serviceName k) = none := by
  simp [taken, List.countP_eq_zero]

theorem serviceCount_played (nodes : s.nodeNames ≠ []) (f : Footprint) (i : ℕ) :
    (s.played f 0 i).serviceCount + s.taken i = s.serviceCount + i := by
  induction i with
  | zero => rfl
  | succ i ih =>
    obtain ⟨copy, hservice, -, -, hnode, hstep⟩ :=
      exists_copy (nodeNames_played nodes f 0 i) f (0 + i)
    rw [Nat.zero_add] at hservice
    have hsize := Ledger.size_insert (s.played f 0 i).ledger copy
    have hcopy : (s.played f 0 i).ledger.get? copy.service = s.usage? (Round.serviceName i) := by
      rw [hservice]
      exact usage?_serviceName nodes f i
    have htaken : s.taken (i + 1) =
        s.taken i + if (s.usage? (Round.serviceName i)).isSome then 1 else 0 := by
      rw [taken, List.range_succ, List.countP_append, List.countP_singleton]
      rfl
    rw [hcopy] at hsize
    have hcount : (s.played f 0 (i + 1)).serviceCount =
        (⟨(s.played f 0 i).ledger.records.insert copy⟩ : Ledger).size := by
      rw [played, hstep, step_addUsage hnode]
      rfl
    have hbefore : (s.played f 0 i).serviceCount = (s.played f 0 i).ledger.size := rfl
    omega

/-- Everything that a scheduler holds, and one copy for each of the rounds on the node that ranked
first in it. -/
structure Extends (s : Scheduler) (f : Footprint) (rounds : List Round) (t : Scheduler) :
    Prop where
  registry : t.registry = s.registry
  engine : t.engine = s.engine
  records : ∃ copies : List Record, t.ledger.toList.Perm (s.ledger.toList ++ copies) ∧
    List.Forall₂ (fun copy round => copy.footprint = f ∧ round.ranking.head? = some copy.node)
      copies rounds

theorem Extends.serviceCount {rounds : List Round} (h : s.Extends f rounds t) :
    t.serviceCount = s.serviceCount + rounds.length := by
  obtain ⟨copies, hperm, hcopies⟩ := h.records
  have hlength := hperm.length_eq
  rw [List.length_append, hcopies.length_eq] at hlength
  exact hlength

theorem Extends.refl (s : Scheduler) (f : Footprint) : s.Extends f [] s :=
  ⟨rfl, rfl, [], by rw [List.append_nil], .nil⟩

theorem Extends.record {rounds : List Round} (h : s.Extends f rounds t) {copy : Record}
    (registered : t.containsNode copy.node = true) (fresh : t.usage? copy.service = none)
    {last : Round} (footprint : copy.footprint = f)
    (first : last.ranking.head? = some copy.node) :
    s.Extends f (rounds ++ [last]) (t.step (.addUsage copy)) := by
  obtain ⟨copies, hperm, hcopies⟩ := h.records
  obtain ⟨before, after, hl, hi, -⟩ := Ledger.toList_of_fresh fresh
  rw [step_addUsage registered]
  refine ⟨h.registry, h.engine, copies ++ [copy], ?_, ?_⟩
  · show List.Perm (Ledger.toList ⟨t.ledger.records.insert copy⟩) _
    rw [hi, ← List.append_assoc]
    exact (List.perm_middle.trans (List.perm_append_singleton _ _).symm).trans
      ((hl ▸ hperm).append_right [copy])
  · exact List.rel_append hcopies (.cons ⟨footprint, first⟩ .nil)

theorem extends_played (nodes : s.nodeNames ≠ []) (f : Footprint) {i : ℕ}
    (fresh : ∀ k < i, s.usage? (Round.serviceName k) = none) :
    s.Extends f ((List.range i).map fun k => (s.played f 0 k).round f k) (s.played f 0 i) := by
  induction i with
  | zero => exact .refl s f
  | succ i ih =>
    obtain ⟨copy, hservice, hfootprint, hhead, hnode, hstep⟩ :=
      exists_copy (nodeNames_played nodes f 0 i) f (0 + i)
    have hfresh : (s.played f 0 i).usage? copy.service = none := by
      rw [hservice, Nat.zero_add, usage?_serviceName nodes]
      exact fresh i (Nat.lt_succ_self i)
    rw [List.range_succ, List.map_append, played, hstep]
    have hlast := (ih fun k hk => fresh k (Nat.lt_succ_of_lt hk)).record hnode hfresh hfootprint
      hhead
    rwa [Nat.zero_add] at hlast

/-- Where no node hosts two services, it does not matter what the copies are called. -/
theorem Extends.rankNodes_eq {rounds : List Round} {u : Scheduler} (ht : s.Extends f rounds t)
    (hu : s.Extends f rounds u) (single : (u.ledger.toList.map Record.node).Nodup) :
    t.rankNodes f = u.rankNodes f := by
  obtain ⟨copies, hperm, hcopies⟩ := ht.records
  obtain ⟨copies', hperm', hcopies'⟩ := hu.records
  apply rankNodes_congr (ht.engine.trans hu.engine.symm) (ht.registry.trans hu.registry.symm)
  intro node
  have hsame : (copies.filter (·.node == node)).map Record.footprint =
      (copies'.filter (·.node == node)).map Record.footprint := by
    clear ht hu hperm hperm'
    induction hcopies generalizing copies' with
    | nil => cases hcopies'; rfl
    | cons h hrest ih =>
      cases hcopies' with
      | cons h' hrest' =>
        have hnode := Option.some.inj (h.2.symm.trans h'.2)
        have hfootprint := h.1.trans h'.1.symm
        simp only [List.filter_cons, hnode]
        split_ifs
        · rw [List.map_cons, List.map_cons, hfootprint, ih _ hrest']
        · exact ih _ hrest'
  have hall : ((t.ledger.hostedOn node).map Record.footprint).Perm
      ((u.ledger.hostedOn node).map Record.footprint) := by
    refine ((hperm.filter _).map _).trans (List.Perm.trans ?_ ((hperm'.filter _).map _).symm)
    rw [List.filter_append, List.filter_append, List.map_append, List.map_append, hsame]
  have hlength : ((u.ledger.hostedOn node).map Record.footprint).length ≤ 1 := by
    have hcount := List.nodup_iff_count_le_one.mp single node
    rwa [List.count, List.countP_map, List.countP_eq_length_filter, ← List.length_map] at hcount
  rw [Ledger.usageOf, Ledger.usageOf]
  congr 1
  generalize (u.ledger.hostedOn node).map Record.footprint = known at hall hlength ⊢
  cases known with
  | nil => exact hall.eq_nil
  | cons f rest =>
    obtain rfl := List.eq_nil_of_length_eq_zero (Nat.le_zero.mp (Nat.le_of_succ_le_succ hlength))
    exact List.perm_singleton.mp hall

/-- What one would like: each round ranks everything that the scenario lists and one further record
for each earlier round. -/
def AddsCopies : Prop :=
  ∀ (scenario : Scenario) (s : Scheduler), scenario.scheduler = .ok s → s.nodeNames ≠ [] →
    ∀ count, ∃ rounds, scenario.simulate count = .ok rounds ∧ rounds.length = count ∧
      ∀ i (h : i < rounds.length), ∃ t, s.Extends scenario.candidate (rounds.take i) t ∧
        t.serviceCount = s.serviceCount + i ∧
        rounds[i].ranking = (t.rankNodes scenario.candidate).map NodeScore.node

/-- Two like nodes, of which the first hosts a service of that name. -/
def lopsided (service : String) : Scheduler :=
  empty.run [.addNode ⟨"a", ⟨4, 8000000000⟩⟩, .addNode ⟨"b", ⟨4, 8000000000⟩⟩,
    .addUsage ⟨service, "a", .whole 3 6000000000⟩]

def lopsidedScenario (service : String) : Scenario :=
  { scoring := {}
    nodes := [⟨"a", ⟨4, 8000000000⟩⟩, ⟨"b", ⟨4, 8000000000⟩⟩]
    services := [⟨service, "a", .whole 3 6000000000⟩]
    candidate := .whole 1 1000000000 }

theorem scheduler_lopsidedScenario (service : String) :
    (lopsidedScenario service).scheduler = .ok (lopsided service) := by
  show restore (lopsidedScenario service).snapshot {} = _
  rw [restore_of_engine Engine.ofWeights_standard]
  rfl

/-- A service with the name of the first copy gives way to that copy, which runs on the other node,
and the node that it leaves ranks first in the next round. -/
theorem copy_displaces_namesake : ¬ AddsCopies := by
  intro adds
  let f := Footprint.whole 1 1000000000
  have nodes : (lopsided "sim:0").nodeNames ≠ [] := by decide +kernel
  have first : (lopsided "sim:0").bestNode? f = some "b" := by
    rw [bestNode?_eq_some]
    simp only [mem_rankNodes]
    decide +kernel
  have second : ((lopsided "sim:0").afterRound f 0).bestNode? f = some "a" := by
    rw [afterRound_of_best first, bestNode?_eq_some]
    simp only [mem_rankNodes]
    decide +kernel
  -- what the second round would find if the first copy had a name of its own
  have wanted : ((lopsided "sim:0").step (.addUsage ⟨"x", "b", f⟩)).bestNode? f = some "b" := by
    rw [bestNode?_eq_some]
    simp only [mem_rankNodes]
    decide +kernel
  have hwanted : (lopsided "sim:0").Extends f [(lopsided "sim:0").round f 0]
      ((lopsided "sim:0").step (.addUsage ⟨"x", "b", f⟩)) :=
    (Extends.refl _ f).record (by decide +kernel) (by decide +kernel) rfl
      ((head?_ranking _ f 0).trans first)
  obtain ⟨rounds, hrounds, -, hall⟩ := adds _ _ (scheduler_lopsidedScenario "sim:0") nodes 2
  rw [Scenario.simulate, scheduler_lopsidedScenario] at hrounds
  obtain rfl : [(lopsided "sim:0").round f 0, ((lopsided "sim:0").afterRound f 0).round f 1] =
      rounds := Except.ok.inj ((rounds_eq nodes f 0 2).symm.trans hrounds)
  obtain ⟨t, hextends, -, hranking⟩ := hall 1 Nat.one_lt_two
  have hranks : t.rankNodes f = _ := hextends.rankNodes_eq hwanted (by decide +kernel)
  have hheads : some "a" = some "b" :=
    calc some "a" = _ := ((head?_ranking _ f 1).trans second).symm
      _ = ((t.rankNodes f).map NodeScore.node).head? := congrArg List.head? hranking
      _ = some "b" := by rw [hranks, List.head?_map]; exact wanted
  exact absurd hheads (by decide)

/-- A simulation plays as many rounds as asked for, and each of them ranks the nodes of the
scheduler that its predecessors left. That scheduler lacks as many records as names of earlier
copies were taken; exactly when none was, it holds all records and one copy for each earlier round.
-/
theorem simulate_adds_copies {scenario : Scenario} {s : Scheduler}
    (built : scenario.scheduler = .ok s) (nodes : s.nodeNames ≠ []) (count : ℕ) :
    ∃ rounds, scenario.simulate count = .ok rounds ∧ rounds.length = count ∧
      ∀ i (h : i < rounds.length),
        ∃ t, t = s.run ((rounds.take i).filterMap (Round.placement? scenario.candidate)) ∧
          rounds[i].ranking = (t.rankNodes scenario.candidate).map NodeScore.node ∧
          t.serviceCount + s.taken i = s.serviceCount + i ∧
          (s.Extends scenario.candidate (rounds.take i) t ↔
            ∀ k < i, s.usage? (Round.serviceName k) = none) := by
  have hrounds : scenario.simulate count = .ok ((List.range count).map fun i =>
      (s.played scenario.candidate 0 i).round scenario.candidate i) := by
    rw [Scenario.simulate, built]
    show s.rounds scenario.candidate 0 count = _
    rw [rounds_eq nodes]
    simp only [Nat.zero_add]
  refine ⟨_, hrounds, by rw [List.length_map, List.length_range], fun i h => ?_⟩
  have hi : i ≤ count := by
    rw [List.length_map, List.length_range] at h
    exact h.le
  have htake : (((List.range count).map fun i =>
        (s.played scenario.candidate 0 i).round scenario.candidate i).take i) =
      (List.range i).map fun i =>
        (s.played scenario.candidate 0 i).round scenario.candidate i := by
    rw [← List.map_take, List.take_range, min_eq_left hi]
  have hcount := serviceCount_played nodes scenario.candidate i
  refine ⟨s.played scenario.candidate 0 i, ?_, ?_, hcount, ?_⟩
  · rw [htake, List.filterMap_map]
    have hrun := run_placements s scenario.candidate 0 i
    simp only [Nat.zero_add] at hrun
    exact hrun.symm
  · rw [List.getElem_map, List.getElem_range]
    rfl
  · rw [htake, ← taken_eq_zero]
    constructor
    · intro h
      have hlength := h.serviceCount
      rw [List.length_map, List.length_range] at hlength
      omega
    · intro h
      exact extends_played nodes scenario.candidate (taken_eq_zero.mp h)

/-- A service is called like a copy of a round that is not played any more. -/
theorem simulate_adds_copies_apart :
    ∃ rounds, (lopsidedScenario "sim:2").simulate 3 = .ok rounds ∧ rounds.length = 3 ∧
      ∃ t, t.serviceCount = 3 ∧
        (lopsided "sim:2").Extends (.whole 1 1000000000) (rounds.take 2) t ∧
        ∃ h : 2 < rounds.length,
          rounds[2].ranking = (t.rankNodes (.whole 1 1000000000)).map NodeScore.node := by
  obtain ⟨rounds, hrounds, hlength, hall⟩ :=
    simulate_adds_copies (scheduler_lopsidedScenario "sim:2") (by decide +kernel) 3
  have hthird : 2 < rounds.length := by omega
  obtain ⟨t, -, hranking, hcount, hextends⟩ := hall 2 hthird
  have fresh : ∀ k < 2, (lopsided "sim:2").usage? (Round.serviceName k) = none := by
    decide +kernel
  have htaken : (lopsided "sim:2").taken 2 = 0 := taken_eq_zero.mpr fresh
  have hone : (lopsided "sim:2").serviceCount = 1 := by decide +kernel
  exact ⟨rounds, hrounds, hlength, t, by omega, hextends.mpr fresh, hthird, hranking⟩

end Scheduler

end Placement
