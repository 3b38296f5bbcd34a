import Mathlib
import Placement.Proofs.Document.Schema
import Placement.Proofs.Json.Double
import Placement.Proofs.Restoring
import Placement.Storage

/-!
# Stored snapshots

A snapshot is written as JSON and read back entry by entry: names, hosts, capacities and memory come
back as they were, whatever the names are made of and however often they repeat. A request for
processing units comes back exactly if it is kept when it is written alone. So brief requests come
back, and a scheduler that has no others is restored from its own text.
-/
namespace Placement
open Document Json

namespace Document

variable {α β σ : Type}

/-- A reader takes what is written of the document for `b`. -/
def Returns (r : Reader β) (d : Document) (b : β) : Prop := ∃ e, ReadsAs d e ∧ r e = .ok b

theorem returns_text (s : String) : Returns readText (.text s) s :=
  ⟨.text s, readsAs_text s, rfl⟩

theorem returns_uint32 (n : UInt32) : Returns readUInt32 (.number (.int n.toNat)) n := by
  have hlt : n.toNat < UInt32.size := n.toNat_lt
  refine ⟨_, readsAs_nat (hlt.trans (by decide)), ?_⟩
  rw [readUInt32, readBelow_eq_ok.mpr ⟨rfl, hlt⟩]
  exact congrArg Except.ok UInt32.ofNat_toNat

theorem returns_uint64 (n : UInt64) : Returns readUInt64 (.number (.int n.toNat)) n := by
  have hlt : n.toNat < UInt64.size := n.toNat_lt
  refine ⟨_, readsAs_nat hlt, ?_⟩
  rw [readUInt64, readBelow_eq_ok.mpr ⟨rfl, hlt⟩]
  exact congrArg Except.ok UInt64.ofNat_toNat

/-- A list comes back as the list of what its items come back as. -/
theorem returns_list {r : Reader β} {write : α → Document} {P : α → β → Prop}
    (h : ∀ a, ∃ b, Returns r (write a) b ∧ P a b) (as : List α) :
    ∃ bs, Returns (readList r) (.list (as.map write) true) bs ∧ List.Forall₂ P as bs := by
  suffices hitems : ∃ es bs, List.Forall₂ ReadsAs (as.map write) es ∧ readItems r es = .ok bs ∧
      List.Forall₂ P as bs by
    obtain ⟨es, bs, hes, hread, hall⟩ := hitems
    refine ⟨bs, ⟨_, readsAs_list hes, ?_⟩, hall⟩
    rw [readList, hread]
    rfl
  induction as with
  | nil => exact ⟨[], [], .nil, rfl, .nil⟩
  | cons a as ih =>
    obtain ⟨b, ⟨e, he, hb⟩, hP⟩ := h a
    obtain ⟨es, bs, hes, hread, hall⟩ := ih
    refine ⟨e :: es, b :: bs, .cons he hes, ?_, .cons hP hall⟩
    rw [readItems]
    simp only [hb, hread]
    rfl

/-- Members in the order of the fields, each stored in the draft that those before it have left. -/
inductive Fills : List (FieldReader σ) → σ → List (String × Document) → σ → Prop
  | nil (draft : σ) : Fills [] draft [] draft
  | cons {γ : Type} {name : String} {r : Reader γ} {put : σ → γ → σ} {d : Document} {c : γ}
      {fields : List (FieldReader σ)} {draft draft' : σ} {ms : List (String × Document)} :
      Returns r d c → Fills fields (put draft c) ms draft' →
      Fills (field name r put :: fields) draft ((name, d) :: ms) draft'

theorem storeMembers_of_fills {fields : List (FieldReader σ)} {draft draft' : σ}
    {ms : List (String × Document)} (h : Fills fields draft ms draft')
    (distinct : (fields.map FieldReader.name).Nodup) :
    ∃ ns, List.Forall₂ MemberReadsAs ms ns ∧ storeMembers fields draft ns = .ok draft' := by
  induction h with
  | nil draft => exact ⟨[], .nil, rfl⟩
  | @cons γ name r put d c fields draft draft' ms hreturns _ ih =>
    obtain ⟨-, hdistinct⟩ := List.nodup_cons.mp distinct
    obtain ⟨e, he, hc⟩ := hreturns
    obtain ⟨ns, hns, hstore⟩ := ih hdistinct
    -- no other field has that name, so all of them stay vacant
    have hvacant : (field name r put :: fields).filter (fun f => f.name != name) = fields :=
      filter_of_distinct distinct
    refine ⟨(name, e) :: ns, .cons ⟨rfl, he⟩ hns, ?_⟩
    have hfind : (field name r put :: fields).find? (fun f => f.name == name) =
        some (field name r put) := List.find?_cons_of_pos (by simp [field])
    have hfield : (field name r put).store draft e = .ok (put draft c) := by
      simp only [field, hc]
      rfl
    rw [storeMembers]
    simp only [hfind, hfield, hvacant, hstore]

theorem returns_record {fields : List (FieldReader σ)} {draft draft' : σ}
    {ms : List (String × Document)} {format : Format} {complete : σ → Except Fault β} {b : β}
    (h : Fills fields draft ms draft') (distinct : (fields.map FieldReader.name).Nodup)
    (hb : complete draft' = .ok b) :
    Returns (readRecord format fields draft complete) (.record ms true) b := by
  obtain ⟨ns, hns, hstore⟩ := storeMembers_of_fills h distinct
  refine ⟨_, readsAs_record hns, ?_⟩
  rw [readRecord, hstore]
  exact hb

end Document

/-- What a footprint may come back as: the same memory, and the same request if that is kept. -/
structure Footprint.Reread (f g : Footprint) : Prop where
  memory : g.memory = f.memory
  cpu : g.cpu = f.cpu ↔ Kept f.cpu

theorem Footprint.returns (f : Footprint) :
    ∃ g, Returns (Footprint.ofDocument .json) f.toDocument g ∧ f.Reread g := by
  obtain ⟨e, y, hreads, hread, hy⟩ := exists_reread f.admissible
  refine ⟨⟨y, f.memory, hy⟩, ?_, rfl, (kept_iff hreads hread).symm⟩
  refine returns_record (.cons ⟨e, hreads, hread⟩ (.cons (returns_uint64 f.memory) (.nil _)))
    (by decide) ?_
  have hrequest : ofRequest y f.memory = .ok ⟨y, f.memory, hy⟩ := ofRequest_self ⟨y, f.memory, hy⟩
  simp only [complete, required, bind, Except.bind, hrequest]

theorem Node.returns (n : Node) : Returns (Node.ofDocument .json) n.toDocument n :=
  returns_record (.cons (returns_text n.name) (.cons (returns_uint32 n.capacity.cpu)
    (.cons (returns_uint64 n.capacity.memory) (.nil _)))) (by decide) rfl

/-- What a record may come back as. -/
structure Record.Reread (r s : Record) : Prop where
  service : s.service = r.service
  node : s.node = r.node
  footprint : r.footprint.Reread s.footprint

theorem Record.returns (r : Record) :
    ∃ s, Returns (Record.ofDocument .json) r.toDocument s ∧ r.Reread s := by
  obtain ⟨f, hf, hreread⟩ := r.footprint.returns
  exact ⟨⟨r.service, r.node, f⟩, returns_record (.cons (returns_text r.service)
    (.cons (returns_text r.node) (.cons hf (.nil _)))) (by decide) rfl, rfl, rfl, hreread⟩

theorem Record.Reread.eq_iff {r s : Record} (h : r.Reread s) : s = r ↔ Kept r.footprint.cpu := by
  rw [← h.footprint.cpu]
  constructor
  · rintro rfl
    rfl
  · intro hcpu
    have hfootprint := Footprint.ext hcpu h.footprint.memory
    have hservice := h.service
    have hnode := h.node
    cases r
    cases s
    cases hservice
    cases hnode
    cases hfootprint
    rfl

theorem Record.eq_of_kept {rs ss : List Record} (h : List.Forall₂ Record.Reread rs ss)
    (kept : ∀ r ∈ rs, Kept r.footprint.cpu) : ss = rs := by
  induction h with
  | nil => rfl
  | @cons r s rs ss hreread _ ih =>
    obtain ⟨hfirst, hrest⟩ := List.forall_mem_cons.mp kept
    rw [hreread.eq_iff.mpr hfirst, ih hrest]

namespace Snapshot

theorem exists_ofJson (s : Snapshot) :
    ∃ t, ofJson s.toJson = .ok t ∧ t.nodes = s.nodes ∧
      List.Forall₂ Record.Reread s.services t.services := by
  obtain ⟨nodes, hnodes, hsame⟩ := returns_list (P := Eq) (fun n => ⟨n, n.returns, rfl⟩) s.nodes
  obtain ⟨services, hservices, hreread⟩ := returns_list Record.returns s.services
  rw [List.forall₂_eq_eq_eq] at hsame
  obtain ⟨e, hreads, hread⟩ : Returns (Snapshot.ofDocument .json) s.toDocument ⟨nodes, services⟩ :=
    returns_record (.cons hnodes (.cons hservices (.nil _))) (by decide) rfl
  exact ⟨⟨nodes, services⟩, (decode_print _ hreads).trans hread, hsame.symm, hreread⟩

/-- Every snapshot is read back from its own text with the same nodes, and with the same services on
the same nodes and with the same memory, all of them in the order in which they were. -/
theorem json_keeps_structure (s : Snapshot) :
    ∃ t, ofJson s.toJson = .ok t ∧ t.nodes = s.nodes ∧
      List.Forall₂ (fun r r' => r'.service = r.service ∧ r'.node = r.node ∧
        r'.footprint.memory = r.footprint.memory) s.services t.services := by
  obtain ⟨t, ht, hnodes, hservices⟩ := s.exists_ofJson
  exact ⟨t, ht, hnodes, hservices.imp fun _ _ h => ⟨h.service, h.node, h.footprint.memory⟩⟩

/-- What one would like: every request comes back with the bits that it had. -/
def KeepsRequests : Prop :=
  ∀ s : Snapshot, ∃ t, ofJson s.toJson = .ok t ∧
    List.Forall₂ (fun r r' => r'.service = r.service ∧
      r'.footprint.cpu.toBits = r.footprint.cpu.toBits) s.services t.services

/-- One service with a request of 17 digits. -/
def crooked : Snapshot :=
  ⟨[⟨"a", ⟨4, 8000000000⟩⟩],
    [⟨"vm:1", "a", ⟨1.4000000000000001, 1000000000,
      ⟨by decide +kernel, by decide +kernel, by decide +kernel⟩⟩⟩]⟩

/-- The significand of a request of 17 digits is rounded before it is scaled, and so the request
comes back as its neighbour. -/
theorem json_moves_request : ¬ KeepsRequests := by
  intro keeps
  obtain ⟨t, ht, hkeeps⟩ := keeps crooked
  obtain ⟨t', ht', -, hreread⟩ := crooked.exists_ofJson
  obtain rfl : t = t' := Except.ok.inj (ht.symm.trans ht')
  obtain ⟨r, rest, hfirst, -, hservices⟩ := List.forall₂_cons_left_iff.mp hreread
  rw [hservices] at hkeeps
  obtain ⟨-, hbits⟩ := (List.forall₂_cons.mp hkeeps).1
  have kept : Kept 1.4000000000000001 := hfirst.footprint.cpu.mp (Float.toBits_inj.mp hbits)
  have moved : ¬ Kept 1.4000000000000001 := by decide +kernel
  exact moved kept

/-- A service comes back as it was exactly if its request is kept when it is written alone, and
brief requests are. A scheduler whose requests are all kept is restored from the text of its
snapshot, so it scores every node as before. -/
theorem json_keeps_requests (s : Snapshot) :
    ∃ t, ofJson s.toJson = .ok t ∧
      List.Forall₂ (fun r r' => r' = r ↔ Kept r.footprint.cpu) s.services t.services ∧
      (∀ r ∈ s.services, isBrief r.footprint.cpu = true → Kept r.footprint.cpu) ∧
      ∀ (scheduler : Scheduler) (w : Weights), scheduler.Reachable → scheduler.snapshot = s →
        Engine.ofWeights w = .ok scheduler.engine → (∀ r ∈ s.services, Kept r.footprint.cpu) →
        Scheduler.restore t w = .ok scheduler := by
  obtain ⟨t, ht, hnodes, hservices⟩ := s.exists_ofJson
  refine ⟨t, ht, hservices.imp fun _ _ h => h.eq_iff,
    fun r _ => kept_of_isBrief r.footprint.admissible, ?_⟩
  intro scheduler w reachable hs engine kept
  have hsame : t = s := by
    have hrecords := Record.eq_of_kept hservices kept
    cases s
    cases t
    cases hnodes
    cases hrecords
    rfl
  rw [hsame, ← hs]
  exact reachable.restore_eq engine

/-- A service with a request of one and a half units. -/
def halved : Scheduler :=
  .run .empty [.addNode ⟨"a", ⟨4, 8000000000⟩⟩,
    .addUsage ⟨"vm:1", "a", ⟨1.5, 1000000000, by decide +kernel, by decide +kernel,
      by decide +kernel⟩⟩]

theorem json_keeps_requests_halved :
    ∃ t, ofJson halved.snapshot.toJson = .ok t ∧ Scheduler.restore t {} = .ok halved := by
  obtain ⟨t, ht, -, brief, law⟩ := json_keeps_requests halved.snapshot
  have reachable : halved.Reachable := (Scheduler.Reachable.initial .empty).run _
  have engine : Engine.ofWeights {} = .ok halved.engine := by
    rw [halved, Scheduler.engine_run]
    exact Engine.ofWeights_standard
  have hbrief : ∀ r ∈ halved.snapshot.services, isBrief r.footprint.cpu = true := by
    decide +kernel
  exact ⟨t, ht, law halved {} reachable rfl engine fun r hr => brief r hr (hbrief r hr)⟩

end Snapshot

end Placement
