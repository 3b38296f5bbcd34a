import Placement.Proofs.Reachability
import Placement.Proofs.Text.ByteOrder

/-!
# State and history

What a scheduler answers after a sequence of operations, said by the sequence alone. A node offers
what the last operation that settles its name left there; a service has the record of the operation
that recorded it and that no later operation displaced. Whether an operation is refused depends on
the operations before it, so the conditions speak of the moments of the sequence. The sequence
begins on a scheduler without nodes, of any weights. Scores are not a matter of this module.
-/
namespace Placement.Scheduler

variable {s : Scheduler} {ops : List Operation} {r : Record}

theorem run_snoc (s : Scheduler) (ops : List Operation) (op : Operation) :
    s.run (ops ++ [op]) = (s.run ops).step op :=
  run_append s ops [op]

/-- The last operation of a sequence that settles what a name offers. -/
def lastSettling (name : String) (ops : List Operation) : Option Operation :=
  (ops.filter (·.settles name)).getLast?

theorem lastSettling_snoc (name : String) (ops : List Operation) (op : Operation) :
    lastSettling name (ops ++ [op]) =
      if op.settles name then some op else lastSettling name ops := by
  unfold lastSettling
  rw [List.filter_append, List.filter_singleton]
  by_cases h : op.settles name = true
  · simp [h]
  · simp [h]

theorem settles_of_lastSettling {name : String} {op : Operation}
    (h : lastSettling name ops = some op) : op.settles name = true :=
  (List.mem_filter.mp (List.mem_of_getLast? h)).2

theorem capacity?_run (s : Scheduler) (ops : List Operation) (name : String) :
    (s.run ops).capacity? name =
      match lastSettling name ops with
      | some op => op.offer?
      | none => s.capacity? name := by
  induction ops using List.reverseRecOn with
  | nil => rfl
  | append_singleton ops op ih =>
    rw [run_snoc, capacity?_step, lastSettling_snoc, ih]
    split <;> rfl

theorem eq_addNode_of_settles {op : Operation} {name : String} {c : Capacity}
    (hs : op.settles name = true) (ho : op.offer? = some c) : op = .addNode ⟨name, c⟩ := by
  cases op with
  | addNode n =>
    obtain ⟨m, d⟩ := n
    simp only [Operation.settles, Bool.and_eq_true, beq_iff_eq] at hs
    simp only [Operation.offer?, Option.some.injEq] at ho
    rw [hs.1, ho]
  | removeNode removed => cases ho
  | addUsage q => cases ho
  | removeUsage service => cases ho

theorem capacity?_run_eq_some_iff (e : Engine) (ops : List Operation) (name : String)
    (c : Capacity) :
    ((ofEngine e).run ops).capacity? name = some c ↔
      lastSettling name ops = some (.addNode ⟨name, c⟩) := by
  rw [capacity?_run]
  match hl : lastSettling name ops with
  | none => simp [capacity?, Registry.capacity?, ofEngine, Registry.empty]
  | some op =>
    constructor
    · intro ho
      rw [eq_addNode_of_settles (settles_of_lastSettling hl) ho]
    · intro h
      injection h with h
      rw [h]
      rfl

theorem mem_nodeNames {name : String} :
    name ∈ s.nodeNames ↔ ∃ c, s.capacity? name = some c := by
  rw [← containsNode_iff]
  exact Catalog.mem_keys

theorem nodeNames_ascending (s : Scheduler) :
    s.nodeNames.Pairwise fun a b => Text.bytes a < Text.bytes b := by
  have h : s.nodeNames.Pairwise (· < ·) := List.pairwise_map.mpr s.registry.nodes.ascending
  exact h.imp Text.bytes_lt

/-- No operation of a sequence displaces a record. -/
def Survives (s : Scheduler) (r : Record) (ops : List Operation) : Prop :=
  ∀ before op after, ops = before ++ op :: after → ¬ (s.run before).Displaces r op

/-- An operation of a sequence records a service, and no later one displaces the record. -/
def Records (s : Scheduler) (r : Record) (ops : List Operation) : Prop :=
  ∃ before after, ops = before ++ .addUsage r :: after ∧
    (s.run before).Succeeds (.addUsage r) ∧
    (s.run (before ++ [.addUsage r])).Survives r after

theorem snoc_eq_append_cons {α : Type} {l before after : List α} {a b : α} :
    l ++ [a] = before ++ b :: after ↔
      (after = [] ∧ before = l ∧ b = a) ∨
        ∃ rest, after = rest ++ [a] ∧ l = before ++ b :: rest := by
  constructor
  · intro h
    rcases List.eq_nil_or_concat after with rfl | ⟨rest, x, rfl⟩
    · obtain ⟨rfl, hb⟩ := List.append_inj' h rfl
      injection hb with hb
      exact Or.inl ⟨rfl, rfl, hb.symm⟩
    · rw [List.concat_eq_append, ← List.cons_append, ← List.append_assoc] at h
      obtain ⟨hl, hx⟩ := List.append_inj' h rfl
      injection hx with hx
      exact Or.inr ⟨rest, by rw [hx, List.concat_eq_append], hl⟩
  · rintro (⟨rfl, rfl, rfl⟩ | ⟨rest, rfl, rfl⟩)
    · rfl
    · rw [List.append_assoc, List.cons_append]

theorem survives_snoc {op : Operation} :
    s.Survives r (ops ++ [op]) ↔ s.Survives r ops ∧ ¬ (s.run ops).Displaces r op := by
  constructor
  · intro h
    refine ⟨fun before o after ho => ?_, h ops op [] rfl⟩
    exact h before o (after ++ [op]) (by rw [ho, List.append_assoc, List.cons_append])
  · rintro ⟨h, hop⟩ before o after ho
    rcases snoc_eq_append_cons.mp ho with ⟨-, rfl, rfl⟩ | ⟨rest, -, hl⟩
    · exact hop
    · exact h before o rest hl

theorem records_snoc {op : Operation} :
    s.Records r (ops ++ [op]) ↔
      (op = .addUsage r ∧ (s.run ops).Succeeds op) ∨
        (s.Records r ops ∧ ¬ (s.run ops).Displaces r op) := by
  constructor
  · rintro ⟨before, after, ho, hs, hr⟩
    rcases snoc_eq_append_cons.mp ho with ⟨-, rfl, rfl⟩ | ⟨rest, rfl, rfl⟩
    · exact Or.inl ⟨rfl, hs⟩
    · obtain ⟨hrest, hd⟩ := survives_snoc.mp hr
      refine Or.inr ⟨⟨before, rest, rfl, hs, hrest⟩, ?_⟩
      rw [← run_append, List.append_assoc, List.singleton_append] at hd
      exact hd
  · rintro (⟨rfl, hs⟩ | ⟨⟨before, rest, rfl, hs, hrest⟩, hd⟩)
    · refine ⟨ops, [], rfl, hs, fun before o after ho => ?_⟩
      exact absurd ho (List.append_ne_nil_of_right_ne_nil _ (List.cons_ne_nil _ _)).symm
    · refine ⟨before, rest ++ [op], by rw [List.append_assoc, List.cons_append], hs, ?_⟩
      refine survives_snoc.mpr ⟨hrest, ?_⟩
      rw [← run_append, List.append_assoc, List.singleton_append]
      exact hd

theorem usage?_run (e : Engine) (ops : List Operation) (r : Record) :
    ((ofEngine e).run ops).usage? r.service = some r ↔ (ofEngine e).Records r ops := by
  induction ops using List.reverseRecOn with
  | nil =>
    constructor
    · intro h
      cases h
    · rintro ⟨before, after, h, -⟩
      exact absurd h (List.append_ne_nil_of_right_ne_nil _ (List.cons_ne_nil _ _)).symm
  | append_singleton ops op ih =>
    have hosted := hosted_run (hosted_ofEngine e) ops
    rw [run_snoc, usage?_step hosted, records_snoc, ih]

theorem run_append_cons_of_not_succeeds {before after : List Operation} {op : Operation}
    (h : ¬ (s.run before).Succeeds op) :
    s.run (before ++ op :: after) = s.run (before ++ after) := by
  rw [run_append, run_cons, step_of_not_succeeds h, ← run_append]

/-- After any sequence of operations the nodes, the records and the refusals are those that the
sequence tells. -/
theorem run_tells_history (e : Engine) (ops : List Operation) :
    let s := (ofEngine e).run ops
    (∀ name c, s.capacity? name = some c ↔
      (ops.filter (·.settles name)).getLast? = some (.addNode ⟨name, c⟩)) ∧
    (∀ name, name ∈ s.nodeNames ↔ ∃ c, s.capacity? name = some c) ∧
    (s.nodeNames.Pairwise fun a b => Text.bytes a < Text.bytes b) ∧
    (∀ name, s.containsNode name = true ↔ name ∈ s.nodeNames) ∧
    (∀ before n after, ops = before ++ .addNode n :: after →
      (((ofEngine e).run before).Succeeds (.addNode n) ↔ n.capacity.Positive)) ∧
    (∀ before r after, ops = before ++ .addUsage r :: after →
      (((ofEngine e).run before).Succeeds (.addUsage r) ↔
        ((ofEngine e).run before).containsNode r.node = true)) ∧
    (∀ service r, s.usage? service = some r ↔
      r.service = service ∧ (ofEngine e).Records r ops) ∧
    (∀ before op after, ops = before ++ op :: after →
      ¬ ((ofEngine e).run before).Succeeds op → s = (ofEngine e).run (before ++ after)) := by
  intro s
  refine ⟨capacity?_run_eq_some_iff e ops, fun _ => mem_nodeNames, nodeNames_ascending s,
    fun name => ?_, fun _ _ _ _ => succeeds_addNode, fun _ _ _ _ => succeeds_addUsage,
    fun service r => ?_, fun before op after ho hf => ?_⟩
  · rw [containsNode_iff, mem_nodeNames]
  · constructor
    · intro h
      obtain rfl := service_of_usage? h
      exact ⟨rfl, (usage?_run e ops r).mp h⟩
    · rintro ⟨rfl, h⟩
      exact (usage?_run e ops r).mpr h
  · change (ofEngine e).run ops = _
    rw [ho]
    exact run_append_cons_of_not_succeeds hf

end Placement.Scheduler
