import Mathlib
import Placement.Proofs.Json.Record
import Placement.Scenario

/-!
# What is accepted as JSON

For each stored type it is laid down which trees denote a value of it: which fields a record has,
what each of them is, and what stands in for those that may be missing. A text of the grammar is
accepted exactly if its tree denotes a value, and is read as that value. The values of fields and
not the way in which they are written decide, at any depth.
-/
namespace Placement
open Decimal Document Json

variable {v : String → Option Tree}

namespace Footprint

/-- A request that may be made and bytes of memory. -/
def Denotes (t : Tree) (f : Footprint) : Prop :=
  ∃ v, Fills ["cpu", "memory"] v t ∧
    ∃ cpu memory, Required Tree.DenotesDouble (v "cpu") cpu ∧
      Required Tree.DenotesUInt64 (v "memory") memory ∧ ofRequest cpu memory = .ok f

def shape : Shape := .record ["cpu", "memory"] fun _ => .single

theorem storeFields_fields {s : Draft} : storeFields v fields {} = .ok s ↔
    Option.Rel Tree.DenotesDouble (v "cpu") s.cpu ∧
      Option.Rel Tree.DenotesUInt64 (v "memory") s.memory := by
  simp only [fields, storeFields_field takes_float, storeFields_field takes_uint64, storeFields_nil]
  constructor
  · rintro ⟨o, ho, p, hp, rfl⟩
    cases o <;> cases p <;> exact ⟨ho, hp⟩
  · rintro ⟨ho, hp⟩
    refine ⟨_, ho, _, hp, ?_⟩
    obtain ⟨o, p⟩ := s
    cases o <;> cases p <;> rfl

theorem complete_eq_ok {s : Draft} {f : Footprint} : complete s = .ok f ↔
    ∃ cpu memory, s.cpu = some cpu ∧ s.memory = some memory ∧ ofRequest cpu memory = .ok f := by
  constructor
  · intro h
    obtain ⟨cpu, hcpu, h⟩ := bind_eq_ok h
    obtain ⟨memory, hmemory, h⟩ := bind_eq_ok h
    refine ⟨cpu, memory, required_eq_ok.mp hcpu, required_eq_ok.mp hmemory, ?_⟩
    split at h
    · next g hf =>
      obtain rfl := Except.ok.inj h
      exact hf
    · cases h
  · rintro ⟨cpu, memory, hcpu, hmemory, hf⟩
    unfold complete
    rw [required_eq_ok.mpr hcpu, required_eq_ok.mpr hmemory]
    simp only [bind, Except.bind, hf]

theorem takes_ofDocument : Takes (Footprint.ofDocument .json) Denotes := by
  intro t f
  rw [Footprint.ofDocument, readRecord_eq_ok (by decide) (by simp [fields, commute_field])]
  apply exists_congr
  intro v
  apply and_congr_right
  intro _
  simp only [storeFields_fields, complete_eq_ok, required_iff]
  constructor
  · rintro ⟨s, ⟨hcpu, hmemory⟩, cpu, memory, hs, hs', hf⟩
    rw [hs] at hcpu
    rw [hs'] at hmemory
    exact ⟨cpu, memory, hcpu, hmemory, hf⟩
  · rintro ⟨cpu, memory, hcpu, hmemory, hf⟩
    exact ⟨⟨some cpu, some memory⟩, ⟨hcpu, hmemory⟩, cpu, memory, rfl, rfl, hf⟩

theorem respects_denotes : Respects shape Denotes := by
  apply respects_record
  rintro v w f alike ⟨cpu, memory, hcpu, hmemory, hf⟩
  exact ⟨cpu, memory, hcpu.respects (respects_single _) (alike "cpu" (by decide)),
    hmemory.respects (respects_single _) (alike "memory" (by decide)), hf⟩

end Footprint

namespace Node

/-- A name, processing units and bytes of memory. -/
def Denotes (t : Tree) (n : Node) : Prop :=
  ∃ v, Fills ["name", "cpu", "memory"] v t ∧ Required Tree.DenotesText (v "name") n.name ∧
    Required Tree.DenotesUInt32 (v "cpu") n.capacity.cpu ∧
    Required Tree.DenotesUInt64 (v "memory") n.capacity.memory

def shape : Shape := .record ["name", "cpu", "memory"] fun _ => .single

theorem storeFields_fields {s : Draft} : storeFields v fields {} = .ok s ↔
    Option.Rel Tree.DenotesText (v "name") s.name ∧
      Option.Rel Tree.DenotesUInt32 (v "cpu") s.cpu ∧
      Option.Rel Tree.DenotesUInt64 (v "memory") s.memory := by
  simp only [fields, storeFields_field takes_text, storeFields_field takes_uint32,
    storeFields_field takes_uint64, storeFields_nil]
  constructor
  · rintro ⟨o, ho, p, hp, q, hq, rfl⟩
    cases o <;> cases p <;> cases q <;> exact ⟨ho, hp, hq⟩
  · rintro ⟨ho, hp, hq⟩
    refine ⟨_, ho, _, hp, _, hq, ?_⟩
    obtain ⟨o, p, q⟩ := s
    cases o <;> cases p <;> cases q <;> rfl

theorem complete_eq_ok {s : Draft} {n : Node} : complete s = .ok n ↔
    s = ⟨some n.name, some n.capacity.cpu, some n.capacity.memory⟩ := by
  constructor
  · intro h
    obtain ⟨name, hname, h⟩ := bind_eq_ok h
    obtain ⟨cpu, hcpu, h⟩ := bind_eq_ok h
    obtain ⟨memory, hmemory, h⟩ := bind_eq_ok h
    obtain rfl := Except.ok.inj h
    rw [← required_eq_ok.mp hname, ← required_eq_ok.mp hcpu, ← required_eq_ok.mp hmemory]
  · rintro rfl
    rfl

theorem takes_ofDocument : Takes (Node.ofDocument .json) Denotes := by
  intro t n
  rw [Node.ofDocument, readRecord_eq_ok (by decide) (by simp [fields, commute_field])]
  apply exists_congr
  intro v
  apply and_congr_right
  intro _
  simp only [complete_eq_ok, exists_eq_right, storeFields_fields, required_iff]

theorem respects_denotes : Respects shape Denotes := by
  apply respects_record
  rintro v w n alike ⟨hname, hcpu, hmemory⟩
  exact ⟨hname.respects (respects_single _) (alike "name" (by decide)),
    hcpu.respects (respects_single _) (alike "cpu" (by decide)),
    hmemory.respects (respects_single _) (alike "memory" (by decide))⟩

end Node

namespace Record

/-- A service, its node and its footprint. -/
def Denotes (t : Tree) (r : Record) : Prop :=
  ∃ v, Fills ["id", "node", "footprint"] v t ∧ Required Tree.DenotesText (v "id") r.service ∧
    Required Tree.DenotesText (v "node") r.node ∧
    Required Footprint.Denotes (v "footprint") r.footprint

def shape : Shape :=
  .record ["id", "node", "footprint"] fun
    | "footprint" => Footprint.shape
    | _ => .single

theorem storeFields_fields {s : Draft} : storeFields v (fields .json) {} = .ok s ↔
    Option.Rel Tree.DenotesText (v "id") s.service ∧
      Option.Rel Tree.DenotesText (v "node") s.node ∧
      Option.Rel Footprint.Denotes (v "footprint") s.footprint := by
  simp only [fields, storeFields_field takes_text, storeFields_field Footprint.takes_ofDocument,
    storeFields_nil]
  constructor
  · rintro ⟨o, ho, p, hp, q, hq, rfl⟩
    cases o <;> cases p <;> cases q <;> exact ⟨ho, hp, hq⟩
  · rintro ⟨ho, hp, hq⟩
    refine ⟨_, ho, _, hp, _, hq, ?_⟩
    obtain ⟨o, p, q⟩ := s
    cases o <;> cases p <;> cases q <;> rfl

theorem complete_eq_ok {s : Draft} {r : Record} : complete s = .ok r ↔
    s = ⟨some r.service, some r.node, some r.footprint⟩ := by
  constructor
  · intro h
    obtain ⟨service, hservice, h⟩ := bind_eq_ok h
    obtain ⟨node, hnode, h⟩ := bind_eq_ok h
    obtain ⟨footprint, hfootprint, h⟩ := bind_eq_ok h
    obtain rfl := Except.ok.inj h
    rw [← required_eq_ok.mp hservice, ← required_eq_ok.mp hnode, ← required_eq_ok.mp hfootprint]
  · rintro rfl
    rfl

theorem takes_ofDocument : Takes (Record.ofDocument .json) Denotes := by
  intro t r
  rw [Record.ofDocument, readRecord_eq_ok (by decide) (by simp [fields, commute_field])]
  apply exists_congr
  intro v
  apply and_congr_right
  intro _
  simp only [complete_eq_ok, exists_eq_right, storeFields_fields, required_iff]

theorem respects_denotes : Respects shape Denotes := by
  apply respects_record
  rintro v w r alike ⟨hservice, hnode, hfootprint⟩
  exact ⟨hservice.respects (respects_single _) (alike "id" (by decide)),
    hnode.respects (respects_single _) (alike "node" (by decide)),
    hfootprint.respects Footprint.respects_denotes (alike "footprint" (by decide))⟩

end Record

namespace Snapshot

/-- Nodes and records of services, both of which may be missing. -/
def Denotes (t : Tree) (s : Snapshot) : Prop :=
  ∃ v, Fills ["nodes", "services"] v t ∧
    Optional (Tree.DenotesList Node.Denotes) [] (v "nodes") s.nodes ∧
    Optional (Tree.DenotesList Record.Denotes) [] (v "services") s.services

def shape : Shape :=
  .record ["nodes", "services"] fun
    | "nodes" => .list Node.shape
    | _ => .list Record.shape

theorem storeFields_fields {s : Snapshot} : storeFields v (fields .json) {} = .ok s ↔
    Optional (Tree.DenotesList Node.Denotes) [] (v "nodes") s.nodes ∧
      Optional (Tree.DenotesList Record.Denotes) [] (v "services") s.services := by
  simp only [fields, storeFields_field (takes_list Node.takes_ofDocument),
    storeFields_field (takes_list Record.takes_ofDocument), storeFields_nil, optional_iff]
  constructor
  · rintro ⟨o, ho, p, hp, rfl⟩
    cases o <;> cases p <;> exact ⟨⟨_, ho, rfl⟩, _, hp, rfl⟩
  · rintro ⟨⟨o, ho, hnodes⟩, p, hp, hservices⟩
    refine ⟨o, ho, p, hp, ?_⟩
    obtain ⟨nodes, services⟩ := s
    obtain rfl := hnodes
    obtain rfl := hservices
    cases o <;> cases p <;> rfl

theorem takes_ofDocument : Takes (Snapshot.ofDocument .json) Denotes := by
  intro t s
  rw [Snapshot.ofDocument, readRecord_eq_ok (by decide) (by simp [fields, commute_field])]
  simp only [Except.ok.injEq, exists_eq_right, storeFields_fields]
  rfl

theorem respects_denotes : Respects shape Denotes := by
  apply respects_record
  rintro v w s alike ⟨hnodes, hservices⟩
  exact ⟨hnodes.respects (respects_list Node.respects_denotes) (alike "nodes" (by decide)),
    hservices.respects (respects_list Record.respects_denotes) (alike "services" (by decide))⟩

end Snapshot

namespace Weights

/-- Four numbers, each of which may be missing. -/
def Denotes (t : Tree) (w : Weights) : Prop :=
  ∃ v, Fills ["average_cpu", "highest_cpu", "average_memory", "highest_memory"] v t ∧
    Optional Tree.DenotesDouble 1.0 (v "average_cpu") w.averageCpu ∧
    Optional Tree.DenotesDouble 2.0 (v "highest_cpu") w.highestCpu ∧
    Optional Tree.DenotesDouble 5.0 (v "average_memory") w.averageMemory ∧
    Optional Tree.DenotesDouble 10.0 (v "highest_memory") w.highestMemory

def shape : Shape :=
  .record ["average_cpu", "highest_cpu", "average_memory", "highest_memory"] fun _ => .single

theorem storeFields_fields {w : Weights} : storeFields v fields {} = .ok w ↔
    Optional Tree.DenotesDouble 1.0 (v "average_cpu") w.averageCpu ∧
      Optional Tree.DenotesDouble 2.0 (v "highest_cpu") w.highestCpu ∧
      Optional Tree.DenotesDouble 5.0 (v "average_memory") w.averageMemory ∧
      Optional Tree.DenotesDouble 10.0 (v "highest_memory") w.highestMemory := by
  simp only [fields, storeFields_field takes_float, storeFields_nil, optional_iff]
  constructor
  · rintro ⟨o, ho, p, hp, q, hq, r, hr, rfl⟩
    refine ⟨⟨o, ho, ?_⟩, ⟨p, hp, ?_⟩, ⟨q, hq, ?_⟩, r, hr, ?_⟩ <;>
      cases o <;> cases p <;> cases q <;> cases r <;> rfl
  · rintro ⟨⟨o, ho, h₁⟩, ⟨p, hp, h₂⟩, ⟨q, hq, h₃⟩, r, hr, h₄⟩
    refine ⟨o, ho, p, hp, q, hq, r, hr, ?_⟩
    obtain ⟨averageCpu, highestCpu, averageMemory, highestMemory⟩ := w
    obtain rfl := h₁
    obtain rfl := h₂
    obtain rfl := h₃
    obtain rfl := h₄
    cases o <;> cases p <;> cases q <;> cases r <;> rfl

theorem takes_ofDocument : Takes (Weights.ofDocument .json) Denotes := by
  intro t w
  rw [Weights.ofDocument, readRecord_eq_ok (by decide) (by simp [fields, commute_field])]
  simp only [Except.ok.injEq, exists_eq_right, storeFields_fields]
  rfl

theorem respects_denotes : Respects shape Denotes := by
  apply respects_record
  rintro v w weights alike ⟨h₁, h₂, h₃, h₄⟩
  exact ⟨h₁.respects (respects_single _) (alike "average_cpu" (by decide)),
    h₂.respects (respects_single _) (alike "highest_cpu" (by decide)),
    h₃.respects (respects_single _) (alike "average_memory" (by decide)),
    h₄.respects (respects_single _) (alike "highest_memory" (by decide))⟩

end Weights

namespace Scenario

/-- Weights, nodes and services, all of which may be missing, and the footprint of a candidate. -/
def Denotes (t : Tree) (s : Scenario) : Prop :=
  ∃ v, Fills ["scoring", "nodes", "services", "candidate"] v t ∧
    Optional Weights.Denotes {} (v "scoring") s.scoring ∧
    Optional (Tree.DenotesList Node.Denotes) [] (v "nodes") s.nodes ∧
    Optional (Tree.DenotesList Record.Denotes) [] (v "services") s.services ∧
    Required Footprint.Denotes (v "candidate") s.candidate

def shape : Shape :=
  .record ["scoring", "nodes", "services", "candidate"] fun
    | "scoring" => Weights.shape
    | "nodes" => .list Node.shape
    | "services" => .list Record.shape
    | _ => Footprint.shape

theorem storeFields_fields {s : Draft} : storeFields v (fields .json) {} = .ok s ↔
    Optional Weights.Denotes {} (v "scoring") s.scoring ∧
      Optional (Tree.DenotesList Node.Denotes) [] (v "nodes") s.nodes ∧
      Optional (Tree.DenotesList Record.Denotes) [] (v "services") s.services ∧
      Option.Rel Footprint.Denotes (v "candidate") s.candidate := by
  simp only [fields, storeFields_field Weights.takes_ofDocument,
    storeFields_field (takes_list Node.takes_ofDocument),
    storeFields_field (takes_list Record.takes_ofDocument),
    storeFields_field Footprint.takes_ofDocument, storeFields_nil, optional_iff]
  constructor
  · rintro ⟨o, ho, p, hp, q, hq, r, hr, rfl⟩
    cases o <;> cases p <;> cases q <;> cases r <;>
      exact ⟨⟨_, ho, rfl⟩, ⟨_, hp, rfl⟩, ⟨_, hq, rfl⟩, hr⟩
  · rintro ⟨⟨o, ho, h₁⟩, ⟨p, hp, h₂⟩, ⟨q, hq, h₃⟩, hr⟩
    refine ⟨o, ho, p, hp, q, hq, _, hr, ?_⟩
    obtain ⟨scoring, nodes, services, r⟩ := s
    obtain rfl := h₁
    obtain rfl := h₂
    obtain rfl := h₃
    cases o <;> cases p <;> cases q <;> cases r <;> rfl

theorem complete_eq_ok {draft : Draft} {s : Scenario} : complete draft = .ok s ↔
    draft = ⟨s.scoring, s.nodes, s.services, some s.candidate⟩ := by
  constructor
  · intro h
    obtain ⟨candidate, hcandidate, h⟩ := bind_eq_ok h
    obtain rfl := Except.ok.inj h
    rw [← required_eq_ok.mp hcandidate]
  · rintro rfl
    rfl

theorem takes_ofDocument : Takes (Scenario.ofDocument .json) Denotes := by
  intro t s
  rw [Scenario.ofDocument, readRecord_eq_ok (by decide) (by simp [fields, commute_field])]
  apply exists_congr
  intro v
  apply and_congr_right
  intro _
  simp only [complete_eq_ok, exists_eq_right, storeFields_fields, required_iff]

theorem respects_denotes : Respects shape Denotes := by
  apply respects_record
  rintro v w s alike ⟨hscoring, hnodes, hservices, hcandidate⟩
  exact ⟨hscoring.respects Weights.respects_denotes (alike "scoring" (by decide)),
    hnodes.respects (respects_list Node.respects_denotes) (alike "nodes" (by decide)),
    hservices.respects (respects_list Record.respects_denotes) (alike "services" (by decide)),
    hcandidate.respects Footprint.respects_denotes (alike "candidate" (by decide))⟩

end Scenario

namespace Json

/-- A text of the grammar is accepted exactly if its tree denotes a value, as the value that it
denotes, both as a snapshot and as a scenario. Two texts are read alike if their trees differ only
in the order of names and in whether records are written by name or as lists. -/
theorem decoding_is_strict {text : String} {t : Tree} (grammatical : IsText text t) :
    (∀ s, Snapshot.ofJson text = .ok s ↔ Snapshot.Denotes t s) ∧
      (∀ s, Scenario.ofText .json text = .ok s ↔ Scenario.Denotes t s) ∧
      ∀ text' t', IsText text' t' →
        (Snapshot.shape.Alike t t' →
          ∀ s, Snapshot.ofJson text = .ok s ↔ Snapshot.ofJson text' = .ok s) ∧
        (Scenario.shape.Alike t t' →
          ∀ s, Scenario.ofText .json text = .ok s ↔ Scenario.ofText .json text' = .ok s) := by
  have hsnapshot {text : String} {t : Tree} (h : IsText text t) (s : Snapshot) :
      Snapshot.ofJson text = .ok s ↔ Snapshot.Denotes t s := by
    rw [Snapshot.ofJson, decode_of_isText h]
    exact Snapshot.takes_ofDocument t s
  have hscenario {text : String} {t : Tree} (h : IsText text t) (s : Scenario) :
      Scenario.ofText .json text = .ok s ↔ Scenario.Denotes t s := by
    rw [Scenario.ofText, decode_of_isText h]
    exact Scenario.takes_ofDocument t s
  refine ⟨hsnapshot grammatical, hscenario grammatical, fun text' t' grammatical' => ⟨?_, ?_⟩⟩
  · intro alike s
    rw [hsnapshot grammatical, hsnapshot grammatical']
    exact ⟨fun h => Snapshot.respects_denotes alike h,
      fun h => Snapshot.respects_denotes alike.symm h⟩
  · intro alike s
    rw [hscenario grammatical, hscenario grammatical']
    exact ⟨fun h => Scenario.respects_denotes alike h,
      fun h => Scenario.respects_denotes alike.symm h⟩

def bare (t : Tree) (core : List Char) : Element := ⟨t, .none, core, .none⟩

def listed (es : List Element) : Element :=
  bare (.list (es.map Element.tree)) ('[' :: ([','].intercalate (es.map Element.text) ++ [']']))

def named (ms : List Member) : Element :=
  bare (.record (ms.map fun m => (m.name, m.value.tree)))
    ('{' :: ([','].intercalate (ms.map Member.text) ++ ['}']))

def plainMember (k : String) (e : Element) : Member :=
  ⟨k, .none, '"' :: (k.toList ++ ['"']), .none, e⟩

def digit (c : Char) (h : c.isDigit = true) : Digits :=
  ⟨[c], List.cons_ne_nil _ _, List.forall_mem_singleton.mpr h⟩

def oneDigit (c : Char) (h : c.isDigit = true) : Spelling :=
  ⟨false, digit c h, fun _ => rfl, none, none⟩

def letter : Element := bare (.text "a") ['"', 'a', '"']

def four : Element := bare (.number (oneDigit '4' rfl).literal) ['4']

def eight : Element := bare (.number (oneDigit '8' rfl).literal) ['8']

def nodeInOrder : Element := listed [letter, four, eight]

def nodeByName : Element :=
  named [plainMember "memory" eight, plainMember "name" letter, plainMember "cpu" four]

def nodesInOrder : Element := listed [listed [nodeInOrder]]

def nodesByName : Element := named [plainMember "nodes" (listed [nodeByName])]

/-- A quarter with a point and an exponent, or less than nothing by as much. -/
def quarter (negative : Bool) : Spelling :=
  ⟨negative, digit '2' rfl, fun _ => rfl, some (digit '5' rfl),
    some ⟨true, some true, digit '1' rfl⟩⟩

def request (negative : Bool) : Element :=
  bare (.number (quarter negative).literal) (quarter negative).text

def footprintInOrder (negative : Bool) : Element := listed [request negative, eight]

def footprintByName : Element :=
  named [plainMember "memory" eight, plainMember "cpu" (request false)]

def candidate (footprint : Element) : Element := named [plainMember "candidate" footprint]

theorem says_letter : Says letter.core letter.tree :=
  .text (quoted_of_plain (s := "a") rfl)

theorem says_four : Says four.core four.tree := .number (oneDigit '4' rfl)

theorem says_eight : Says eight.core eight.tree := .number (oneDigit '8' rfl)

theorem isText_nodesInOrder : IsText "[[[\"a\",4,8]]]" nodesInOrder.tree := by
  refine ⟨nodesInOrder, rfl, ?_, rfl⟩
  refine .list (List.cons_ne_nil _ _) (List.forall_mem_singleton.mpr ?_)
  refine .list (List.cons_ne_nil _ _) (List.forall_mem_singleton.mpr ?_)
  refine .list (List.cons_ne_nil _ _) (List.forall_mem_cons.mpr ⟨says_letter, ?_⟩)
  exact List.forall_mem_cons.mpr ⟨says_four, List.forall_mem_singleton.mpr says_eight⟩

theorem isText_nodesByName :
    IsText "\x7b\"nodes\":[\x7b\"memory\":8,\"name\":\"a\",\"cpu\":4\x7d]\x7d"
      nodesByName.tree := by
  have hnodes : Quoted "nodes" _ := quoted_of_plain rfl
  have hmemory : Quoted "memory" _ := quoted_of_plain rfl
  have hname : Quoted "name" _ := quoted_of_plain rfl
  have hcpu : Quoted "cpu" _ := quoted_of_plain rfl
  refine ⟨nodesByName, rfl, ?_, rfl⟩
  refine .record (List.cons_ne_nil _ _) (List.forall_mem_singleton.mpr hnodes)
    (List.forall_mem_singleton.mpr ?_)
  refine .list (List.cons_ne_nil _ _) (List.forall_mem_singleton.mpr ?_)
  refine .record (List.cons_ne_nil _ _) (List.forall_mem_cons.mpr ⟨hmemory, ?_⟩)
    (List.forall_mem_cons.mpr ⟨says_eight, ?_⟩)
  · exact List.forall_mem_cons.mpr ⟨hname, List.forall_mem_singleton.mpr hcpu⟩
  · exact List.forall_mem_cons.mpr ⟨says_letter, List.forall_mem_singleton.mpr says_four⟩

theorem alike_node : Node.shape.Alike nodeInOrder.tree nodeByName.tree := by
  refine ⟨_, _, fills_list (by decide) (by decide), fills_record (by decide) ?_, ?_⟩
  · simp [plainMember]
  · refine List.forall_mem_cons.mpr ⟨.some rfl, List.forall_mem_cons.mpr ⟨.some rfl, ?_⟩⟩
    exact List.forall_mem_singleton.mpr (.some rfl)

theorem alike_nodes : Snapshot.shape.Alike nodesInOrder.tree nodesByName.tree := by
  refine ⟨_, _, fills_list (by decide) (by decide), fills_record (by decide) ?_, ?_⟩
  · simp [plainMember]
  · refine List.forall_mem_cons.mpr ⟨.some ?_, List.forall_mem_singleton.mpr .none⟩
    exact ⟨_, _, rfl, rfl, .cons alike_node .nil⟩

theorem denotes_nodeInOrder : Node.Denotes nodeInOrder.tree ⟨"a", ⟨4, 8⟩⟩ :=
  ⟨_, fills_list (by decide) (by decide), ⟨_, rfl, rfl⟩,
    ⟨_, rfl, _, rfl, rfl, rfl, by decide⟩, ⟨_, rfl, _, rfl, rfl, rfl, by decide⟩⟩

theorem denotes_nodesInOrder : Snapshot.Denotes nodesInOrder.tree ⟨[⟨"a", ⟨4, 8⟩⟩], []⟩ :=
  ⟨_, fills_list (by decide) (by decide),
    .inr ⟨_, rfl, _, rfl, .cons denotes_nodeInOrder .nil⟩, .inl ⟨rfl, rfl⟩⟩

theorem says_request (negative : Bool) : Says (request negative).core (request negative).tree :=
  .number (quarter negative)

theorem says_footprintInOrder (negative : Bool) :
    Says (footprintInOrder negative).core (footprintInOrder negative).tree :=
  .list (List.cons_ne_nil _ _) (List.forall_mem_cons.mpr
    ⟨says_request negative, List.forall_mem_singleton.mpr says_eight⟩)

theorem says_footprintByName : Says footprintByName.core footprintByName.tree := by
  have hmemory : Quoted "memory" _ := quoted_of_plain rfl
  have hcpu : Quoted "cpu" _ := quoted_of_plain rfl
  refine .record (List.cons_ne_nil _ _) (List.forall_mem_cons.mpr ⟨hmemory, ?_⟩)
    (List.forall_mem_cons.mpr ⟨says_eight, ?_⟩)
  · exact List.forall_mem_singleton.mpr hcpu
  · exact List.forall_mem_singleton.mpr (says_request false)

theorem isText_candidate {footprint : Element} {text : String}
    (core : Says footprint.core footprint.tree)
    (htext : text.toList = (candidate footprint).text) :
    IsText text (candidate footprint).tree := by
  have hcandidate : Quoted "candidate" _ := quoted_of_plain rfl
  exact ⟨candidate footprint, rfl, .record (List.cons_ne_nil _ _)
    (List.forall_mem_singleton.mpr hcandidate) (List.forall_mem_singleton.mpr core), htext⟩

theorem isText_candidateInOrder : IsText "\x7b\"candidate\":[2.5E-1,8]\x7d"
    (candidate (footprintInOrder false)).tree :=
  isText_candidate (says_footprintInOrder false) rfl

theorem isText_candidateNegative : IsText "\x7b\"candidate\":[-2.5E-1,8]\x7d"
    (candidate (footprintInOrder true)).tree :=
  isText_candidate (says_footprintInOrder true) rfl

theorem isText_candidateByName :
    IsText "\x7b\"candidate\":\x7b\"memory\":8,\"cpu\":2.5E-1\x7d\x7d"
      (candidate footprintByName).tree :=
  isText_candidate says_footprintByName rfl

theorem alike_footprint :
    Footprint.shape.Alike (footprintInOrder false).tree footprintByName.tree := by
  refine ⟨_, _, fills_list (by decide) (by decide), fills_record (by decide) ?_, ?_⟩
  · simp [plainMember]
  · exact List.forall_mem_cons.mpr ⟨.some rfl, List.forall_mem_singleton.mpr (.some rfl)⟩

theorem alike_candidate :
    Scenario.shape.Alike (candidate (footprintInOrder false)).tree
      (candidate footprintByName).tree := by
  refine ⟨_, _, fills_record (by decide) ?_, fills_record (by decide) ?_, ?_⟩
  · simp [plainMember]
  · simp [plainMember]
  · refine List.forall_mem_cons.mpr ⟨.none, List.forall_mem_cons.mpr ⟨.none, ?_⟩⟩
    refine List.forall_mem_cons.mpr ⟨.none, List.forall_mem_singleton.mpr (.some ?_)⟩
    exact alike_footprint

theorem denotes_footprintInOrder {f : Footprint} (cpu : f.cpu = 0.25) (memory : f.memory = 8) :
    Footprint.Denotes (footprintInOrder false).tree f := by
  refine ⟨_, fills_list (by decide) (by decide), 0.25, 8, ⟨_, rfl, _, rfl, ?_, ?_⟩,
    ⟨_, rfl, _, rfl, rfl, rfl, by decide⟩, ?_⟩
  · decide +kernel
  · decide +kernel
  · rw [← cpu, ← memory]
    exact f.ofRequest_self

theorem denotes_candidate {f : Footprint} (cpu : f.cpu = 0.25) (memory : f.memory = 8) :
    Scenario.Denotes (candidate (footprintInOrder false)).tree ⟨{}, [], [], f⟩ := by
  refine ⟨_, fills_record (by decide) ?_, .inl ⟨rfl, rfl⟩, .inl ⟨rfl, rfl⟩, .inl ⟨rfl, rfl⟩,
    _, rfl, denotes_footprintInOrder cpu memory⟩
  simp [plainMember]

/-- Nothing is a footprint that asks for less than nothing. -/
theorem not_denotes_negative (s : Scenario) :
    ¬ Scenario.Denotes (candidate (footprintInOrder true)).tree s := by
  rintro ⟨v, hv, -, -, -, t, hfootprint, w, hw, cpu, memory, ⟨u, hu, l, rfl, hcpu, -⟩, -, hf⟩
  have hfound := hv.unique (fills_record (by decide) (by simp [plainMember])) "candidate"
    (by decide)
  obtain rfl := Option.some.inj (hfootprint.symm.trans hfound)
  have hnumber := hw.unique (fills_list (by decide) (by decide)) "cpu" (by decide)
  obtain rfl := Tree.number.inj (Option.some.inj (hu.symm.trans hnumber))
  have negative : cpu < 0.0 := by
    rw [← hcpu]
    decide +kernel
  rw [Footprint.ofRequest, dif_neg fun h => h.2 negative] at hf
  cases hf

/-- A snapshot with one node and a scenario with a candidate, in order and by name. What a snapshot
may be lacks the candidate of a scenario, and a candidate may not ask for less than nothing. -/
theorem decoding_is_strict_on_one_node :
    Snapshot.ofJson "[[[\"a\",4,8]]]" = .ok ⟨[⟨"a", ⟨4, 8⟩⟩], []⟩ ∧
      Snapshot.ofJson
          "\x7b\"nodes\":[\x7b\"memory\":8,\"name\":\"a\",\"cpu\":4\x7d]\x7d" =
        .ok ⟨[⟨"a", ⟨4, 8⟩⟩], []⟩ ∧
      (∀ s, Scenario.ofText .json "[[[\"a\",4,8]]]" ≠ .ok s) ∧
      ∃ f : Footprint, f.cpu = 0.25 ∧ f.memory = 8 ∧
        Scenario.ofText .json "\x7b\"candidate\":[2.5E-1,8]\x7d" = .ok ⟨{}, [], [], f⟩ ∧
        Scenario.ofText .json "\x7b\"candidate\":\x7b\"memory\":8,\"cpu\":2.5E-1\x7d\x7d" =
          .ok ⟨{}, [], [], f⟩ ∧
        ∀ s, Scenario.ofText .json "\x7b\"candidate\":[-2.5E-1,8]\x7d" ≠ .ok s := by
  obtain ⟨hsnapshot, hscenario, hothers⟩ := decoding_is_strict isText_nodesInOrder
  have hread := (hsnapshot _).mpr denotes_nodesInOrder
  refine ⟨hread, ((hothers _ _ isText_nodesByName).1 alike_nodes _).mp hread, fun s h => ?_, ?_⟩
  · -- no value is left for the candidate
    obtain ⟨v, hv, -, -, -, t, hcandidate, -⟩ := (hscenario s).mp h
    have hmissing := hv.unique (fills_list (by decide) (by decide)) "candidate" (by decide)
    rw [hcandidate] at hmissing
    cases hmissing
  · obtain ⟨-, hnumber, hothers⟩ := decoding_is_strict isText_candidateInOrder
    obtain ⟨-, hnegative, -⟩ := decoding_is_strict isText_candidateNegative
    let f : Footprint := ⟨0.25, 8, by decide +kernel, by decide +kernel, by decide +kernel⟩
    have hread := (hnumber _).mpr (denotes_candidate (f := f) rfl rfl)
    refine ⟨f, rfl, rfl, hread,
      ((hothers _ _ isText_candidateByName).2 alike_candidate _).mp hread, fun s h => ?_⟩
    exact not_denotes_negative s ((hnegative s).mp h)

end Json

end Placement
