import Mathlib
import Placement.Proofs.Reachability
import Placement.Proofs.Scoring.Weights
import Placement.Proofs.Text.ByteOrder

/-!
# Restoring snapshots

A snapshot from elsewhere may list anything in any order. Restoring it judges the weights, then the
nodes and then the services, each list from its beginning, and stops at the first fault. Whether an
entry is at fault can be told from the snapshot alone, because nodes are never taken out on the
way. What is restored lists of each name the last entry, in the order of names. A snapshot that was
taken of a scheduler has no faults and is in that form already, so it brings back the same
scheduler.
-/
namespace Placement

section
variable {α : Type} [Keyed α]

/-- Of each name in a list the last entry, in the order of names by their UTF-8 bytes. -/
structure Latest (given kept : List α) : Prop where
  ascending : kept.Pairwise fun a b => Text.bytes (key a) < Text.bytes (key b)
  last : ∀ a, a ∈ kept ↔ (given.filter (key · == key a)).getLast? = some a

theorem Latest.unique {given kept kept' : List α} (h : Latest given kept)
    (h' : Latest given kept') : kept = kept' := by
  have order {l : List α} (hl : l.Pairwise fun a b => Text.bytes (key a) < Text.bytes (key b)) :
      l.Pairwise fun a b => key a < key b := hl.imp Text.bytes_lt_iff.mp
  have hc : (⟨kept, order h.ascending⟩ : Catalog α) = ⟨kept', order h'.ascending⟩ :=
    Catalog.ext_mem fun a => (h.last a).trans (h'.last a).symm
  exact congrArg Catalog.toList hc

namespace Catalog

theorem eq_of_latest {l : List α} {c d : Catalog α} (hc : Latest l c.toList)
    (hd : Latest l d.toList) : c = d :=
  ext_mem fun a => by rw [hc.unique hd]

theorem get?_foldl_insert (c : Catalog α) (l : List α) (k : String) :
    (l.foldl insert c).get? k = (l.filter (key · == k)).getLast?.or (c.get? k) := by
  induction l generalizing c with
  | nil => rfl
  | cons a l ih =>
    rw [List.foldl_cons, ih, get?_insert, List.filter_cons]
    by_cases h : key a = k
    · subst h
      simp [List.getLast?_cons]
    · have h' : ¬ k = key a := fun he => h he.symm
      simp [h, h']

/-- Entries put in one after the other leave the last one of each name. -/
theorem latest_foldl_insert (l : List α) : Latest l (l.foldl insert empty).toList where
  ascending := (l.foldl insert empty).ascending.imp Text.bytes_lt
  last a := by rw [mem_iff_get?, get?_foldl_insert, get?_empty, Option.or_none]

theorem getLast?_filter (c : Catalog α) (k : String) :
    (c.toList.filter (key · == k)).getLast? = c.get? k := by
  have hascending := c.ascending.filter (key · == k)
  have hkey : ∀ a ∈ c.toList.filter (key · == k), key a = k := by simp
  rw [get?, ← List.head?_filter]
  cases hl : c.toList.filter (key · == k) with
  | nil => rfl
  | cons a rest =>
    cases rest with
    | nil => rfl
    | cons b rest =>
      -- two entries of one name would not be in strict order
      rw [hl] at hascending hkey
      have hlt := (List.pairwise_cons.mp hascending).1 b List.mem_cons_self
      rw [hkey a (by simp), hkey b (by simp)] at hlt
      exact absurd hlt (String.lt_irrefl k)

theorem latest_self (c : Catalog α) : Latest c.toList c.toList where
  ascending := c.ascending.imp Text.bytes_lt
  last a := by rw [getLast?_filter, mem_iff_get?]

end Catalog

end

namespace Node

/-- A node without processing units or without memory. -/
def lacking (n : Node) : Bool := n.capacity.cpu == 0 || n.capacity.memory == 0

/-- Why a node is refused that lacks something; processing units are named before memory. -/
def lack (n : Node) : Refusal := if n.capacity.cpu = 0 then .noCpu n.name else .noMemory n.name

theorem lacking_eq_false {n : Node} : n.lacking = false ↔ n.capacity.Positive := by
  simp only [lacking, Bool.or_eq_false_iff, beq_eq_false_iff_ne]
  exact ⟨fun h => ⟨h.1, h.2⟩, fun h => ⟨h.cpu, h.memory⟩⟩

theorem aboutCriteria_lack (n : Node) : n.lack.aboutCriteria = false := by
  unfold lack
  split <;> rfl

end Node

/-- A record of a node that a snapshot does not list. -/
def Snapshot.dangling (saved : Snapshot) (r : Record) : Bool :=
  !(saved.nodes.map Node.name).contains r.node

theorem Registry.add_of_lacking (r : Registry) {n : Node} (h : n.lacking = true) :
    r.add n = .error n.lack := by
  unfold add replace Node.lack
  by_cases hcpu : n.capacity.cpu = 0
  · rw [dif_pos hcpu, if_pos hcpu]
    rfl
  · have hmemory : n.capacity.memory = 0 := by simpa [Node.lacking, hcpu] using h
    rw [dif_neg hcpu, dif_pos hmemory, if_neg hcpu]
    rfl

theorem Ledger.add_of_unknown (l : Ledger) {registry : Registry} {r : Record}
    (h : registry.contains r.node = false) : l.add registry r = .error (.unknownNode r.node) := by
  unfold add replace
  rw [h]
  rfl

namespace Scheduler

/-- Entries are taken one after the other until one is at fault, where an invariant of the
scheduler is enough to tell which ones are. -/
theorem foldlM_spec {α : Type} {asOp : α → Operation}
    {f : Scheduler → α → Except Refusal Scheduler} {I : Scheduler → Prop} {bad : α → Bool}
    {refusal : α → Refusal}
    (good : ∀ s a, I s → bad a = false → f s a = .ok (s.step (asOp a)) ∧ I (s.step (asOp a)))
    (refused : ∀ s a, I s → bad a = true → f s a = .error (refusal a)) {s : Scheduler} (hs : I s)
    (l : List α) :
    (∀ a, l.find? bad = some a → l.foldlM f s = .error (refusal a)) ∧
      (l.find? bad = none → l.foldlM f s = .ok (s.run (l.map asOp))) := by
  induction l generalizing s with
  | nil => exact ⟨nofun, fun _ => rfl⟩
  | cons a l ih =>
    rw [List.foldlM_cons, List.find?_cons, List.map_cons, run_cons]
    cases hbad : bad a with
    | true =>
      rw [refused s a hs hbad]
      refine ⟨fun b hb => ?_, nofun⟩
      injection hb with hb
      rw [hb]
      rfl
    | false =>
      obtain ⟨hok, hinv⟩ := good s a hs hbad
      rw [hok]
      exact ih hinv

theorem addNodes_spec (s : Scheduler) (nodes : List Node) :
    (∀ n, nodes.find? Node.lacking = some n → s.addNodes nodes = .error n.lack) ∧
      (nodes.find? Node.lacking = none →
        s.addNodes nodes = .ok (s.run (nodes.map .addNode))) := by
  refine foldlM_spec (I := fun _ => True) (fun s n _ hn => ?_) (fun s n _ hn => ?_) trivial nodes
  · have hs : s.Succeeds (.addNode n) := succeeds_addNode.mpr (Node.lacking_eq_false.mp hn)
    exact ⟨perform_of_succeeds hs, trivial⟩
  · unfold addNode
    rw [Registry.add_of_lacking s.registry hn]
    rfl

theorem addUsages_spec (s : Scheduler) (records : List Record) :
    (∀ r, records.find? (fun r => !s.containsNode r.node) = some r →
        s.addUsages records = .error (.unknownNode r.node)) ∧
      (records.find? (fun r => !s.containsNode r.node) = none →
        s.addUsages records = .ok (s.run (records.map .addUsage))) := by
  -- recording a usage leaves the nodes as they are
  refine foldlM_spec (I := fun t => t.registry = s.registry) (fun t r ht hr => ?_)
    (fun t r ht hr => ?_) rfl records
  · have hnode : t.containsNode r.node = true := by simpa [containsNode, ht] using hr
    refine ⟨perform_of_succeeds (succeeds_addUsage.mpr hnode), ?_⟩
    rw [step_addUsage hnode]
    exact ht
  · have hnode : t.registry.contains r.node = false := by simpa [containsNode, ht] using hr
    unfold addUsage
    rw [Ledger.add_of_unknown t.ledger hnode]
    rfl

theorem run_addNodes {nodes : List Node} (h : ∀ n ∈ nodes, n.capacity.Positive) (s : Scheduler) :
    (s.run (nodes.map .addNode)).registry.nodes = nodes.foldl Catalog.insert s.registry.nodes ∧
      (s.run (nodes.map .addNode)).ledger = s.ledger := by
  induction nodes generalizing s with
  | nil => exact ⟨rfl, rfl⟩
  | cons n nodes ih =>
    obtain ⟨hn, hnodes⟩ := List.forall_mem_cons.mp h
    obtain ⟨hregistry, hledger⟩ := step_addNode (s := s) hn
    rw [List.map_cons, run_cons, List.foldl_cons, ← hregistry, ← hledger]
    exact ih hnodes _

theorem run_addUsages {records : List Record} {s : Scheduler}
    (h : ∀ r ∈ records, s.containsNode r.node = true) :
    s.run (records.map .addUsage) =
      { s with ledger := ⟨records.foldl Catalog.insert s.ledger.records⟩ } := by
  induction records generalizing s with
  | nil => rfl
  | cons r records ih =>
    obtain ⟨hr, hrecords⟩ := List.forall_mem_cons.mp h
    rw [List.map_cons, run_cons, List.foldl_cons, step_addUsage hr]
    exact ih hrecords

theorem containsNode_run_addNodes {nodes : List Node} (h : ∀ n ∈ nodes, n.capacity.Positive)
    (e : Engine) (name : String) :
    ((ofEngine e).run (nodes.map .addNode)).containsNode name =
      (nodes.map Node.name).contains name := by
  have hget : (nodes.foldl Catalog.insert Catalog.empty).get? name =
      (nodes.filter (·.name == name)).getLast? := by
    rw [Catalog.get?_foldl_insert, Catalog.get?_empty, Option.or_none]
    rfl
  have hcontains : ((ofEngine e).run (nodes.map .addNode)).containsNode name =
      ((nodes.filter (·.name == name)).getLast?).isSome := by
    rw [← hget, containsNode, Registry.contains, (run_addNodes h _).1]
    rfl
  rw [hcontains, Bool.eq_iff_iff]
  simp

section
variable {saved : Snapshot} {w : Weights}

theorem restore_of_rejected {x : Refusal} (h : Engine.ofWeights w = .error x) :
    restore saved w = .error x := by
  unfold restore ofWeights
  rw [h]
  rfl

variable {e : Engine} (engine : Engine.ofWeights w = .ok e)
include engine

theorem restore_of_engine :
    restore saved w =
      ((ofEngine e).addNodes saved.nodes).bind fun s => s.addUsages saved.services := by
  unfold restore ofWeights
  rw [engine]
  rfl

theorem restore_of_lacking {n : Node} (h : saved.nodes.find? Node.lacking = some n) :
    restore saved w = .error n.lack := by
  rw [restore_of_engine engine, (addNodes_spec _ _).1 n h]
  rfl

variable (nodes : saved.nodes.find? Node.lacking = none)
include nodes

omit engine in
theorem positive_of_nodes : ∀ n ∈ saved.nodes, n.capacity.Positive := by
  intro n hn
  rw [← Node.lacking_eq_false, ← Bool.not_eq_true]
  exact List.find?_eq_none.mp nodes n hn

theorem restore_of_nodes :
    restore saved w = ((ofEngine e).run (saved.nodes.map .addNode)).addUsages saved.services := by
  rw [restore_of_engine engine, (addNodes_spec _ _).2 nodes]
  rfl

theorem restore_of_dangling {r : Record} (h : saved.services.find? saved.dangling = some r) :
    restore saved w = .error (.unknownNode r.node) := by
  rw [restore_of_nodes engine nodes]
  apply (addUsages_spec _ _).1 r
  simp only [containsNode_run_addNodes (positive_of_nodes nodes)]
  exact h

theorem restore_of_faultless (h : saved.services.find? saved.dangling = none) :
    ∃ t, restore saved w = .ok t ∧ t.engine = e ∧
      Latest saved.nodes t.snapshot.nodes ∧ Latest saved.services t.snapshot.services := by
  have hpositive := positive_of_nodes nodes
  obtain ⟨hregistry, hledger⟩ := run_addNodes hpositive (ofEngine e)
  have hnode : ∀ r ∈ saved.services,
      ((ofEngine e).run (saved.nodes.map .addNode)).containsNode r.node = true := by
    intro r hr
    rw [containsNode_run_addNodes hpositive]
    simpa [Snapshot.dangling] using List.find?_eq_none.mp h r hr
  have hrestore : restore saved w =
      .ok (((ofEngine e).run (saved.nodes.map .addNode)).run (saved.services.map .addUsage)) := by
    rw [restore_of_nodes engine nodes]
    apply (addUsages_spec _ _).2
    simpa using hnode
  refine ⟨_, hrestore, by rw [engine_run, engine_run]; rfl, ?_, ?_⟩
  · rw [run_addUsages hnode]
    unfold snapshot Registry.toList
    rw [hregistry]
    exact Catalog.latest_foldl_insert saved.nodes
  · rw [run_addUsages hnode, hledger]
    exact Catalog.latest_foldl_insert saved.services

end

/-- Restoring judges the weights, then the nodes, then the services, and reports the first fault;
without a fault it keeps of each name the last entry. A list of nodes alone is restored with the
default weights. -/
theorem restore_judges_in_order (saved : Snapshot) (w : Weights) :
    ((∃ e, restore saved w = .error e ∧ e.aboutCriteria = true) ↔
        ∃ e, Engine.ofWeights w = .error e) ∧
      (∀ e, Engine.ofWeights w = .error e → restore saved w = .error e) ∧
      (∀ engine, Engine.ofWeights w = .ok engine →
        (∀ n, saved.nodes.find? Node.lacking = some n → restore saved w = .error n.lack) ∧
        (saved.nodes.find? Node.lacking = none →
          (∀ r, saved.services.find? saved.dangling = some r →
            restore saved w = .error (.unknownNode r.node)) ∧
          (saved.services.find? saved.dangling = none →
            ∃ t, restore saved w = .ok t ∧ t.engine = engine ∧
              Latest saved.nodes t.snapshot.nodes ∧
              Latest saved.services t.snapshot.services))) ∧
      ∀ nodes, ofNodes nodes = restore ⟨nodes, []⟩ {} := by
  refine ⟨⟨?_, ?_⟩, fun _ => restore_of_rejected, fun engine h => ?_, fun nodes => ?_⟩
  · rintro ⟨x, hx, about⟩
    cases hw : Engine.ofWeights w with
    | error y => exact ⟨y, rfl⟩
    | ok engine =>
      cases hn : saved.nodes.find? Node.lacking with
      | some n =>
        cases hx.symm.trans (restore_of_lacking hw hn)
        rw [Node.aboutCriteria_lack] at about
        cases about
      | none =>
        cases hr : saved.services.find? saved.dangling with
        | some r =>
          cases hx.symm.trans (restore_of_dangling hw hn hr)
          cases about
        | none =>
          obtain ⟨t, ht, -⟩ := restore_of_faultless hw hn hr
          cases hx.symm.trans ht
  · rintro ⟨x, hx⟩
    exact ⟨x, restore_of_rejected hx, Engine.aboutCriteria_of_ofWeights hx⟩
  · exact ⟨fun _ => restore_of_lacking h, fun nodes =>
      ⟨fun _ => restore_of_dangling h nodes, restore_of_faultless h nodes⟩⟩
  · rw [restore_of_engine Engine.ofWeights_standard]
    unfold ofNodes empty
    cases (ofEngine .standard).addNodes nodes <;> rfl

/-- A record of a node that is not listed is at fault even if a later record of its service is not.
-/
theorem restore_judges_in_order_overwritten :
    restore ⟨[⟨"a", ⟨1, 1⟩⟩], [⟨"x", "b", .whole 1 1⟩, ⟨"x", "a", .whole 1 1⟩]⟩ {} =
      .error (.unknownNode "b") := by
  obtain ⟨-, -, law, -⟩ := restore_judges_in_order
    ⟨[⟨"a", ⟨1, 1⟩⟩], [⟨"x", "b", .whole 1 1⟩, ⟨"x", "a", .whole 1 1⟩]⟩ {}
  exact ((law .standard Engine.ofWeights_standard).2 rfl).1 _ rfl

theorem Reachable.restore_eq {s : Scheduler} (h : Reachable s) {w : Weights}
    (hw : Engine.ofWeights w = .ok s.engine) : restore s.snapshot w = .ok s := by
  have hnodes : s.snapshot.nodes.find? Node.lacking = none := by
    rw [List.find?_eq_none]
    intro n hn
    rw [Bool.not_eq_true]
    exact Node.lacking_eq_false.mpr (s.registry.positive n hn)
  have hservices : s.snapshot.services.find? s.snapshot.dangling = none := by
    rw [List.find?_eq_none]
    intro r hr
    have hhost := h.hosted r.service r (usage?_eq_some_iff.mpr ⟨hr, rfl⟩)
    have hlisted : r.node ∈ s.snapshot.nodes.map Node.name := Catalog.mem_keys.mpr hhost
    simpa [Snapshot.dangling] using hlisted
  obtain ⟨t, ht, hengine, hlatest, hlatest'⟩ := restore_of_faultless hw hnodes hservices
  have hregistry : t.registry = s.registry :=
    Registry.ext (Catalog.eq_of_latest hlatest (Catalog.latest_self s.registry.nodes))
  have hrecords : t.ledger.records = s.ledger.records :=
    Catalog.eq_of_latest hlatest' (Catalog.latest_self s.ledger.records)
  have hledger : t.ledger = s.ledger := congrArg Ledger.mk hrecords
  have hsame : t = s := by
    cases t
    cases s
    cases hregistry
    cases hledger
    cases hengine
    rfl
  rw [ht, hsame]

/-- Whatever a scheduler has been through, its snapshot and its weights bring it back. -/
theorem restore_snapshot {s : Scheduler} (h : Reachable s) :
    (∃ w, Engine.ofWeights w = .ok s.engine) ∧
      ∀ w, Engine.ofWeights w = .ok s.engine → restore s.snapshot w = .ok s :=
  ⟨h.accepted, fun _ => h.restore_eq⟩

/-- A service that moved, a node that was registered anew and one that is gone. -/
def travelled : Scheduler :=
  empty.run [.addNode ⟨"b", ⟨2, 4⟩⟩, .addNode ⟨"a", ⟨1, 1⟩⟩, .addUsage ⟨"y", "b", .whole 3 5⟩,
    .addUsage ⟨"x", "b", .whole 1 2⟩, .addUsage ⟨"y", "a", .whole 3 5⟩, .addNode ⟨"a", ⟨8, 8⟩⟩,
    .removeNode "b", .addUsage ⟨"z", "b", .whole 1 1⟩]

theorem restore_snapshot_travelled :
    travelled.snapshot.nodes = [⟨"a", ⟨8, 8⟩⟩] ∧ travelled.serviceCount = 1 ∧
      restore travelled.snapshot {} = .ok travelled := by
  have reachable : travelled.Reachable := (Reachable.initial .empty).run _
  have engine : Engine.ofWeights {} = .ok travelled.engine := by
    rw [travelled, engine_run]
    exact Engine.ofWeights_standard
  exact ⟨by decide +kernel, by decide +kernel, (restore_snapshot reachable).2 {} engine⟩

end Scheduler

end Placement
