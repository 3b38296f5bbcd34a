import Mathlib
import Placement.Scheduler

/-!
# What one operation does

The look-ups of a scheduler after one operation, said by the look-ups before it. An operation
settles what a name offers, or leaves it; it records a service, displaces the record of one, or
leaves it. A record is displaced by the removal of its node only because no record names a node
that is not registered, which every operation keeps. Sequences of operations are not treated here.
-/
namespace Placement

instance (c : Capacity) : Decidable c.Positive :=
  decidable_of_iff (c.cpu ≠ 0 ∧ c.memory ≠ 0) ⟨fun h => ⟨h.1, h.2⟩, fun h => ⟨h.cpu, h.memory⟩⟩

theorem Registry.exists_add (r : Registry) {n : Node} (h : n.capacity.Positive) :
    ∃ t, r.add n = .ok t := by
  unfold add replace
  rw [dif_neg h.cpu, dif_neg h.memory]
  exact ⟨_, rfl⟩

namespace Scheduler

/-- An operation is carried out, rather than refused. -/
def Succeeds (s : Scheduler) (op : Operation) : Prop := ∃ t, s.perform op = .ok t

theorem perform_of_succeeds {s : Scheduler} {op : Operation} (h : s.Succeeds op) :
    s.perform op = .ok (s.step op) := by
  obtain ⟨t, ht⟩ := h
  rw [step, ht]

theorem step_of_not_succeeds {s : Scheduler} {op : Operation} (h : ¬ s.Succeeds op) :
    s.step op = s := by
  unfold step
  match hp : s.perform op with
  | .ok t => exact absurd ⟨t, hp⟩ h
  | .error e => rfl

theorem succeeds_addNode {s : Scheduler} {n : Node} :
    s.Succeeds (.addNode n) ↔ n.capacity.Positive := by
  constructor
  · rintro ⟨t, ht⟩
    change (s.registry.add n).map _ = _ at ht
    match hr : s.registry.add n with
    | .error e => rw [hr] at ht; cases ht
    | .ok r => exact (Registry.add_eq_ok_iff.mp hr).1
  · intro h
    obtain ⟨r, hr⟩ := Registry.exists_add s.registry h
    refine ⟨{ s with registry := r }, ?_⟩
    show (s.registry.add n).map _ = _
    rw [hr]
    rfl

theorem succeeds_addUsage {s : Scheduler} {r : Record} :
    s.Succeeds (.addUsage r) ↔ s.containsNode r.node = true := by
  constructor
  · rintro ⟨t, ht⟩
    change (s.ledger.add s.registry r).map _ = _ at ht
    match hl : s.ledger.add s.registry r with
    | .error e => rw [hl] at ht; cases ht
    | .ok l => exact (Ledger.add_eq_ok_iff.mp hl).1
  · intro h
    have hl : s.ledger.add s.registry r = .ok ⟨s.ledger.records.insert r⟩ :=
      Ledger.add_eq_ok_iff.mpr ⟨h, rfl⟩
    refine ⟨{ s with ledger := ⟨s.ledger.records.insert r⟩ }, ?_⟩
    show (s.ledger.add s.registry r).map _ = _
    rw [hl]
    rfl

theorem step_addNode {s : Scheduler} {n : Node} (h : n.capacity.Positive) :
    (s.step (.addNode n)).registry.nodes = s.registry.nodes.insert n ∧
      (s.step (.addNode n)).ledger = s.ledger := by
  have hs := perform_of_succeeds (succeeds_addNode (s := s).mpr h)
  change (s.registry.add n).map _ = _ at hs
  match hr : s.registry.add n with
  | .error e => rw [hr] at hs; cases hs
  | .ok r =>
    rw [hr] at hs
    injection hs with hs
    rw [← hs]
    exact ⟨(Registry.add_eq_ok_iff.mp hr).2, rfl⟩

theorem step_addUsage {s : Scheduler} {r : Record} (h : s.containsNode r.node = true) :
    s.step (.addUsage r) = { s with ledger := ⟨s.ledger.records.insert r⟩ } := by
  have hs := perform_of_succeeds (succeeds_addUsage.mpr h)
  change (s.ledger.add s.registry r).map _ = _ at hs
  match hl : s.ledger.add s.registry r with
  | .error e => rw [hl] at hs; cases hs
  | .ok l =>
    rw [hl] at hs
    injection hs with hs
    rw [← hs, (Ledger.add_eq_ok_iff.mp hl).2]

theorem step_removeNode (s : Scheduler) (name : String) :
    s.step (.removeNode name) = s.removeNode name := rfl

/-- No operation touches the engine. -/
theorem engine_step (s : Scheduler) (op : Operation) : (s.step op).engine = s.engine := by
  cases op with
  | addNode n =>
    simp only [step, perform, addNode]
    cases s.registry.add n <;> rfl
  | removeNode name =>
    rw [step_removeNode, removeNode_eq]
    split <;> rfl
  | addUsage r =>
    simp only [step, perform, addUsage]
    cases s.ledger.add s.registry r <;> rfl
  | removeUsage service => rfl

theorem containsNode_iff {s : Scheduler} {name : String} :
    s.containsNode name = true ↔ ∃ c, s.capacity? name = some c := by
  simp [containsNode, Registry.contains, Catalog.contains, capacity?, Registry.capacity?,
    Option.isSome_iff_exists]

/-- An operation settles what a name offers: it takes the node out, or registers it with a capacity
that the registry takes. -/
def Operation.settles (name : String) : Operation → Bool
  | .addNode n => n.name == name && decide n.capacity.Positive
  | .removeNode removed => removed == name
  | .addUsage _ => false
  | .removeUsage _ => false

/-- What the name of an operation offers afterwards. -/
def Operation.offer? : Operation → Option Capacity
  | .addNode n => some n.capacity
  | _ => none

theorem capacity?_step (s : Scheduler) (op : Operation) (name : String) :
    (s.step op).capacity? name =
      if op.settles name then op.offer? else s.capacity? name := by
  cases op with
  | addNode n =>
    by_cases hp : n.capacity.Positive
    · have hn : (s.step (.addNode n)).registry.nodes.get? name =
          if name = n.name then some n else s.registry.nodes.get? name := by
        rw [(step_addNode hp).1]
        exact Catalog.get?_insert ..
      by_cases he : n.name = name
      · simp [capacity?, Registry.capacity?, hn, Operation.settles, Operation.offer?, hp, he]
      · have he' : ¬ name = n.name := fun h => he h.symm
        simp [capacity?, Registry.capacity?, hn, Operation.settles, he, he']
    · have hf : ¬ s.Succeeds (.addNode n) := fun h => hp (succeeds_addNode.mp h)
      rw [step_of_not_succeeds hf]
      simp [Operation.settles, hp]
  | removeNode removed =>
    rw [step_removeNode, removeNode_eq]
    by_cases hc : s.registry.contains removed = true
    · rw [if_pos hc]
      by_cases he : removed = name
      · simp [capacity?, Registry.capacity?, Registry.get?_remove, Operation.settles,
          Operation.offer?, he]
      · have he' : ¬ name = removed := fun h => he h.symm
        simp [capacity?, Registry.capacity?, Registry.get?_remove, Operation.settles, he, he']
    · rw [if_neg hc]
      by_cases he : removed = name
      · subst he
        have hnone : s.capacity? removed = none := by
          by_contra h
          obtain ⟨c, hcap⟩ := Option.ne_none_iff_exists'.mp h
          exact hc (containsNode_iff.mpr ⟨c, hcap⟩)
        simp [hnone, Operation.settles, Operation.offer?]
      · simp [Operation.settles, he]
  | addUsage r =>
    by_cases hc : s.containsNode r.node = true
    · rw [step_addUsage hc]
      rfl
    · rw [step_of_not_succeeds fun h => hc (succeeds_addUsage.mp h)]
      rfl
  | removeUsage service => rfl

theorem containsNode_step (s : Scheduler) (op : Operation) (name : String) :
    (s.step op).containsNode name =
      if op.settles name then op.offer?.isSome else s.containsNode name := by
  have h (t : Scheduler) : t.containsNode name = (t.capacity? name).isSome := by
    simp [containsNode, Registry.contains, Catalog.contains, capacity?, Registry.capacity?]
  rw [h, h, capacity?_step]
  split <;> rfl

/-- No record names a node that is not registered. -/
def Hosted (s : Scheduler) : Prop :=
  ∀ service r, s.usage? service = some r → s.containsNode r.node = true

/-- An operation puts an end to a record: its node is taken out, its service recorded anew, or its
service forgotten. -/
def Displaces (s : Scheduler) (r : Record) : Operation → Prop
  | .addNode _ => False
  | .removeNode name => name = r.node
  | .addUsage q => q.service = r.service ∧ s.Succeeds (.addUsage q)
  | .removeUsage service => service = r.service

theorem service_of_usage? {s : Scheduler} {service : String} {r : Record}
    (h : s.usage? service = some r) : r.service = service :=
  Catalog.key_of_get? h

theorem usage?_addNode (s : Scheduler) (n : Node) (service : String) :
    (s.step (.addNode n)).usage? service = s.usage? service := by
  by_cases hp : n.capacity.Positive
  · unfold usage?
    rw [(step_addNode hp).2]
  · rw [step_of_not_succeeds fun h => hp (succeeds_addNode.mp h)]

theorem usage?_removeNode {s : Scheduler} (hosted : s.Hosted) (name service : String) :
    (s.step (.removeNode name)).usage? service =
      (s.usage? service).filter (·.node != name) := by
  rw [step_removeNode, removeNode_eq]
  by_cases hc : s.registry.contains name = true
  · rw [if_pos hc]
    exact Ledger.get?_evict ..
  · rw [if_neg hc]
    -- a name that is not registered hosts nothing, so there is nothing to evict
    match hu : s.usage? service with
    | none => rfl
    | some r =>
      have hne : r.node ≠ name := by
        rintro rfl
        exact hc (hosted service r hu)
      simp [Option.filter, hne]

theorem usage?_addUsage (s : Scheduler) (q : Record) (service : String) :
    (s.step (.addUsage q)).usage? service =
      if service = q.service ∧ s.containsNode q.node = true then some q
      else s.usage? service := by
  by_cases hc : s.containsNode q.node = true
  · rw [step_addUsage hc]
    have hi : (s.ledger.records.insert q).get? service =
        if service = q.service then some q else s.ledger.records.get? service :=
      Catalog.get?_insert ..
    simp only [hc, and_true]
    exact hi
  · rw [step_of_not_succeeds fun h => hc (succeeds_addUsage.mp h)]
    simp [hc]

theorem usage?_removeUsage (s : Scheduler) (forgotten service : String) :
    (s.step (.removeUsage forgotten)).usage? service =
      if service = forgotten then none else s.usage? service :=
  Ledger.get?_remove ..

/-- After an operation a record is there because the operation recorded it, or because it was there
and the operation did not displace it. -/
theorem usage?_step {s : Scheduler} (hosted : s.Hosted) (op : Operation) (r : Record) :
    (s.step op).usage? r.service = some r ↔
      (op = .addUsage r ∧ s.Succeeds op) ∨
        (s.usage? r.service = some r ∧ ¬ s.Displaces r op) := by
  cases op with
  | addNode n => simp [usage?_addNode, Displaces]
  | removeNode name =>
    rw [usage?_removeNode hosted, Option.filter_eq_some_iff]
    have hn : (r.node != name) = true ↔ ¬ name = r.node := by
      rw [bne_iff_ne]
      exact ⟨fun h e => h e.symm, fun h e => h e.symm⟩
    simp [Displaces, hn]
  | addUsage q =>
    rw [usage?_addUsage, succeeds_addUsage]
    simp only [Displaces, succeeds_addUsage, Operation.addUsage.injEq]
    by_cases hc : s.containsNode q.node = true
    · by_cases he : r.service = q.service
      · simp [hc, he]
      · have hne : q ≠ r := fun h => he (h ▸ rfl)
        have he' : ¬ q.service = r.service := fun h => he h.symm
        simp [he, he', hne]
    · simp [hc]
  | removeUsage service =>
    rw [usage?_removeUsage]
    by_cases he : r.service = service
    · simp [Displaces, he]
    · have he' : ¬ service = r.service := fun h => he h.symm
      simp [Displaces, he, he']

theorem hosted_step {s : Scheduler} (hosted : s.Hosted) (op : Operation) :
    (s.step op).Hosted := by
  intro service r hr
  obtain rfl := service_of_usage? hr
  rw [containsNode_step]
  rcases (usage?_step hosted op r).mp hr with ⟨rfl, hs⟩ | ⟨hu, hd⟩
  · exact succeeds_addUsage.mp hs
  · have hc := hosted r.service r hu
    cases op with
    | addNode n =>
      split
      · rfl
      · exact hc
    | removeNode name =>
      have hne : ¬ name = r.node := hd
      simpa [Operation.settles, hne] using hc
    | addUsage q => exact hc
    | removeUsage service => exact hc

end Scheduler

end Placement
