import Mathlib
import Placement.Document.Schema
import Placement.Proofs.Document.Sound

/-!
# What readers depend on

A reader that takes a document of one shape accepts only sound documents. The order of the members
of a record does not decide whether it is accepted and what is read, provided that no two fields are
stored in one place. And the formats differ only where a list stands for a record and is too long.
-/
namespace Placement.Document

variable {α σ : Type} {n : ℕ} {d : Document} {draft s : σ} {fields : List (FieldReader σ)}

theorem readBelow_eq_ok {limit : ℕ} :
    readBelow limit d = .ok n ↔ d = .number (.int n) ∧ n < limit := by
  constructor
  · intro h
    unfold readBelow at h
    split at h
    · split_ifs at h with hlt
      cases h
      exact ⟨rfl, hlt⟩
    · cases h
  · rintro ⟨rfl, hlt⟩
    exact if_pos hlt

/-- A reader that accepts only documents that are sound down to a depth. -/
def Strict (n : ℕ) (r : Reader α) : Prop := ∀ d a, r d = .ok a → sound n d = true

theorem strict_readText (n : ℕ) : Strict n readText := by
  intro d a h
  cases d with
  | text s => exact sound_text n s
  | _ => cases h

theorem strict_readFloat (n : ℕ) : Strict n readFloat := by
  intro d a h
  cases d with
  | number x => exact sound_number n x
  | _ => cases h

theorem strict_readBelow (n limit : ℕ) : Strict n (readBelow limit) := by
  intro d a h
  cases d with
  | number x => exact sound_number n x
  | _ => cases h

theorem map_eq_ok {β ε : Type} {f : α → β} {x : Except ε α} {b : β} (h : x.map f = .ok b) :
    ∃ a, x = .ok a ∧ f a = b := by
  cases x with
  | error e => cases h
  | ok a => exact ⟨a, rfl, Except.ok.inj h⟩

theorem bind_eq_ok {β ε : Type} {x : Except ε α} {f : α → Except ε β} {b : β}
    (h : x >>= f = .ok b) : ∃ a, x = .ok a ∧ f a = .ok b := by
  cases x with
  | error e => cases h
  | ok a => exact ⟨a, rfl, h⟩

theorem Strict.map {β : Type} {r : Reader α} (h : Strict n r) (f : α → β) :
    Strict n fun d => (r d).map f := by
  intro d b hb
  obtain ⟨a, ha, -⟩ := map_eq_ok hb
  exact h d a ha

theorem strict_readUInt32 (n : ℕ) : Strict n readUInt32 := (strict_readBelow n _).map _

theorem strict_readUInt64 (n : ℕ) : Strict n readUInt64 := (strict_readBelow n _).map _

theorem closing_eq_ok {closed : Bool} {read : Except Fault α} {a : α}
    (h : closing closed read = .ok a) : read = .ok a := by
  unfold closing at h
  split at h
  · split_ifs at h
    exact h
  · cases h

theorem strict_readList {r : Reader α} (h : Strict n r) : Strict (n + 1) (readList r) := by
  intro d as hread
  cases d with
  | list items closed =>
    have hitems := closing_eq_ok hread
    refine List.all_eq_true.mpr ?_
    clear hread
    induction items generalizing as with
    | nil => exact nofun
    | cons d items ih =>
      rw [readItems] at hitems
      split at hitems
      · cases hitems
      · next a ha =>
        obtain ⟨as', has, -⟩ := map_eq_ok hitems
        exact List.forall_mem_cons.mpr ⟨h d a ha, ih as' has⟩
  | _ => cases hread

/-- A field that takes only documents that are sound down to a depth. -/
def FieldReader.Strict (n : ℕ) (f : FieldReader σ) : Prop :=
  ∀ draft d s, f.store draft d = .ok s → sound n d = true

theorem strict_field {name : String} {r : Reader α} {put : σ → α → σ} (h : Strict n r) :
    (field name r put).Strict n := by
  intro draft d s hstore
  obtain ⟨a, ha, -⟩ := map_eq_ok hstore
  exact h d a ha

theorem sound_of_storeMembers (h : ∀ f ∈ fields, f.Strict n) {ms : List (String × Document)}
    (hstore : storeMembers fields draft ms = .ok s) : ∀ m ∈ ms, sound n m.2 = true := by
  induction ms generalizing fields draft with
  | nil => exact nofun
  | cons m ms ih =>
    rw [storeMembers] at hstore
    split at hstore
    · cases hstore
    · next f hfind =>
      split at hstore
      · cases hstore
      · next draft' hf =>
        have hrest := ih (fun g hg => h g (List.mem_filter.mp hg).1) hstore
        exact List.forall_mem_cons.mpr ⟨h f (List.mem_of_find?_eq_some hfind) _ _ _ hf, hrest⟩

theorem sound_of_storeItems (h : ∀ f ∈ fields, f.Strict n) {ds : List Document}
    (hstore : storeItems false fields draft ds = .ok s) : ∀ d ∈ ds, sound n d = true := by
  induction ds generalizing fields draft with
  | nil => exact nofun
  | cons d ds ih =>
    cases fields with
    | nil => cases hstore
    | cons f fields =>
      obtain ⟨hfirst, hrest⟩ := List.forall_mem_cons.mp h
      rw [storeItems] at hstore
      split at hstore
      · cases hstore
      · next draft' hf => exact List.forall_mem_cons.mpr ⟨hfirst _ _ _ hf, ih hrest hstore⟩

/-- Without surplus values every part of a record has gone into one of its fields. -/
theorem strict_readRecord (h : ∀ f ∈ fields, f.Strict n) (draft : σ)
    (complete : σ → Except Fault α) : Strict (n + 1) (readRecord .json fields draft complete) := by
  intro d a hread
  cases d with
  | record ms closed =>
    obtain ⟨s, hs, -⟩ := bind_eq_ok hread
    exact List.all_eq_true.mpr (sound_of_storeMembers h (closing_eq_ok hs))
  | list ds closed =>
    obtain ⟨s, hs, -⟩ := bind_eq_ok hread
    exact List.all_eq_true.mpr (sound_of_storeItems h (closing_eq_ok hs))
  | _ => cases hread

/-- Fields that can be stored in either order. -/
def FieldReader.Commute (f g : FieldReader σ) : Prop :=
  ∀ draft d e, ((f.store draft d).toOption.bind fun s => (g.store s e).toOption) =
    (g.store draft e).toOption.bind fun s => (f.store s d).toOption

theorem commute_field {β : Type} {name name' : String} {r : Reader α} {q : Reader β}
    {put : σ → α → σ} {put' : σ → β → σ} (h : ∀ s a b, put' (put s a) b = put (put' s b) a) :
    (field name r put).Commute (field name' q put') := by
  intro draft d e
  cases hr : r d <;> cases hq : q e <;> simp [field, hr, hq, Except.map, Except.toOption, h]

theorem toOption_storeMembers_cons (fields : List (FieldReader σ)) (draft : σ)
    (m : String × Document) (ms : List (String × Document)) :
    (storeMembers fields draft (m :: ms)).toOption =
      (fields.find? (·.name == m.1)).bind fun f => (f.store draft m.2).toOption.bind fun s =>
        (storeMembers (fields.filter (·.name != m.1)) s ms).toOption := by
  rw [storeMembers]
  cases fields.find? (·.name == m.1) with
  | none => rfl
  | some f => cases hstore : f.store draft m.2 <;> simp [hstore, Except.toOption]

theorem find?_filter_of_ne (fields : List (FieldReader σ)) {k l : String} (h : k ≠ l) :
    (fields.filter (·.name != k)).find? (·.name == l) = fields.find? (·.name == l) := by
  rw [List.find?_filter]
  congr 1
  funext f
  by_cases hf : f.name = l
  · simp [hf, h.symm]
  · simp [hf]

theorem commute_of_pairwise (h : fields.Pairwise FieldReader.Commute) :
    ∀ f ∈ fields, ∀ g ∈ fields, f.name ≠ g.name → f.Commute g := by
  induction h with
  | nil => exact nofun
  | cons hfirst _ ih =>
    intro f hf g hg hne
    rcases List.mem_cons.mp hf with rfl | hf' <;> rcases List.mem_cons.mp hg with rfl | hg'
    · exact absurd rfl hne
    · exact hfirst g hg'
    · exact fun draft d e => (hfirst f hf' draft e d).symm
    · exact ih f hf' g hg' hne

theorem filter_of_distinct {f : FieldReader σ}
    (distinct : ((f :: fields).map FieldReader.name).Nodup) :
    (f :: fields).filter (·.name != f.name) = fields := by
  obtain ⟨hfresh, -⟩ := List.nodup_cons.mp distinct
  rw [List.filter_cons_of_neg (by simp), List.filter_eq_self]
  intro g hg
  have hne : g.name ≠ f.name := fun he => hfresh (he ▸ List.mem_map_of_mem hg)
  simpa using hne

/-- The members of a record may be written in any order. -/
theorem storeMembers_perm {ms ns : List (String × Document)} (perm : ms.Perm ns)
    (commute : ∀ f ∈ fields, ∀ g ∈ fields, f.name ≠ g.name → f.Commute g)
    (distinct : (ms.map Prod.fst).Nodup) (draft : σ) :
    (storeMembers fields draft ms).toOption = (storeMembers fields draft ns).toOption := by
  induction perm generalizing fields draft with
  | nil => rfl
  | @cons m ms ns _ ih =>
    rw [toOption_storeMembers_cons, toOption_storeMembers_cons]
    have hrest (s : σ) :
        (storeMembers (fields.filter (·.name != m.1)) s ms).toOption =
          (storeMembers (fields.filter (·.name != m.1)) s ns).toOption :=
      ih (fun f hf g hg => commute f (List.mem_filter.mp hf).1 g (List.mem_filter.mp hg).1)
        (List.nodup_cons.mp distinct).2 s
    simp only [hrest]
  | @swap m n ms =>
    have hne : n.1 ≠ m.1 := fun heq =>
      (List.nodup_cons.mp distinct).1 (heq ▸ List.mem_cons_self)
    have hfilter : (fields.filter (·.name != m.1)).filter (·.name != n.1) =
        (fields.filter (·.name != n.1)).filter (·.name != m.1) := by
      simp only [List.filter_filter, Bool.and_comm]
    simp only [toOption_storeMembers_cons, find?_filter_of_ne fields hne,
      find?_filter_of_ne fields hne.symm, hfilter]
    cases hn : fields.find? (·.name == n.1) with
    | none => simp
    | some f =>
      cases hm : fields.find? (·.name == m.1) with
      | none => simp
      | some g =>
        have hf : f.name = n.1 := by simpa using List.find?_some hn
        have hg : g.name = m.1 := by simpa using List.find?_some hm
        have hcommute := commute f (List.mem_of_find?_eq_some hn) g
          (List.mem_of_find?_eq_some hm) (by rwa [hf, hg]) draft n.2 m.2
        simp only [Option.bind_some, ← Option.bind_assoc, hcommute]
  | trans hms _ ih₁ ih₂ =>
    exact (ih₁ commute distinct draft).trans
      (ih₂ commute ((hms.map Prod.fst).nodup_iff.mp distinct) draft)

theorem toOption_bind {β ε : Type} (x : Except ε α) (f : α → Except ε β) :
    (x >>= f).toOption = x.toOption.bind fun a => (f a).toOption := by
  cases x <;> rfl

theorem toOption_eq_some {β : Type} {x : Except Fault β} {b : β} :
    x.toOption = some b ↔ x = .ok b := by
  cases x <;> simp [Except.toOption]

theorem closing_true (x : Except Fault α) : closing true x = x := by cases x <;> rfl

theorem readRecord_perm {format : Format} {ms ns : List (String × Document)} (perm : ms.Perm ns)
    (commute : ∀ f ∈ fields, ∀ g ∈ fields, f.name ≠ g.name → f.Commute g)
    (distinct : (ms.map Prod.fst).Nodup) (draft : σ) (complete : σ → Except Fault α) :
    (readRecord format fields draft complete (record ms true)).toOption =
      (readRecord format fields draft complete (record ns true)).toOption := by
  rw [readRecord, readRecord, closing_true, closing_true, toOption_bind, toOption_bind,
    storeMembers_perm perm commute distinct]

/-- A document that has not more values than a record has fields if it stands for one as a list, and
whose parts fit the fields that they are for. -/
def Fits (names : List String) (part : String → Document → Prop) : Document → Prop
  | record ms _ => ∀ m ∈ ms, part m.1 m.2
  | list ds _ => ds.length ≤ names.length ∧ ∀ p ∈ names.zip ds, part p.1 p.2
  | _ => True

/-- Fields of one name that store the documents that fit them in the same way. -/
structure FieldReader.Agrees (part : String → Document → Prop) (f g : FieldReader σ) : Prop where
  name : f.name = g.name
  store : ∀ draft d, part f.name d → f.store draft d = g.store draft d

section
variable {part : String → Document → Prop} {fs gs : List (FieldReader σ)}

theorem forall₂_filter (h : List.Forall₂ (FieldReader.Agrees part) fs gs) (k : String) :
    List.Forall₂ (FieldReader.Agrees part) (fs.filter (·.name != k))
      (gs.filter (·.name != k)) := by
  induction h with
  | nil => exact .nil
  | @cons f g fs gs hfirst _ ih =>
    rw [List.filter_cons, List.filter_cons, hfirst.name]
    split
    · exact .cons hfirst ih
    · exact ih

/-- Either both lists have a field of a name, or none has. -/
theorem find?_agrees (h : List.Forall₂ (FieldReader.Agrees part) fs gs) (k : String) :
    (fs.find? (·.name == k) = none ∧ gs.find? (·.name == k) = none) ∨
      ∃ f g, fs.find? (·.name == k) = some f ∧ gs.find? (·.name == k) = some g ∧ f.name = k ∧
        f.Agrees part g := by
  induction h with
  | nil => exact .inl ⟨rfl, rfl⟩
  | @cons f g fs gs hfirst _ ih =>
    rw [List.find?_cons, List.find?_cons, ← hfirst.name]
    cases hk : f.name == k with
    | true => exact .inr ⟨f, g, rfl, rfl, beq_iff_eq.mp hk, hfirst⟩
    | false => exact ih

theorem storeMembers_agrees (h : List.Forall₂ (FieldReader.Agrees part) fs gs) (draft : σ)
    {ms : List (String × Document)} (fits : ∀ m ∈ ms, part m.1 m.2) :
    storeMembers fs draft ms = storeMembers gs draft ms := by
  induction ms generalizing fs gs draft with
  | nil => rfl
  | cons m ms ih =>
    obtain ⟨hfirst, hrest⟩ := List.forall_mem_cons.mp fits
    have hfilter := fun draft => ih (forall₂_filter h m.1) draft hrest
    rw [storeMembers, storeMembers]
    rcases find?_agrees h m.1 with ⟨hf, hg⟩ | ⟨f, g, hf, hg, hname, hagrees⟩
    · simp only [hf, hg]
    · have hstore := hagrees.store draft m.2 (by rwa [hname])
      simp only [hf, hg, hstore, hfilter]

theorem storeItems_agrees (h : List.Forall₂ (FieldReader.Agrees part) fs gs) (draft : σ)
    {ds : List Document} (short : ds.length ≤ (fs.map FieldReader.name).length)
    (fits : ∀ p ∈ (fs.map FieldReader.name).zip ds, part p.1 p.2) :
    storeItems false fs draft ds = storeItems true gs draft ds := by
  induction h generalizing draft ds with
  | nil =>
    obtain rfl := List.eq_nil_of_length_eq_zero (Nat.le_zero.mp short)
    rfl
  | @cons f g fs gs hagrees _ ih =>
    cases ds with
    | nil => rfl
    | cons d ds =>
      rw [List.map_cons, List.zip_cons_cons] at fits
      obtain ⟨hfirst, hrest⟩ := List.forall_mem_cons.mp fits
      have hfields := fun draft => ih draft (Nat.le_of_succ_le_succ short) hrest
      rw [storeItems, storeItems, hagrees.store draft d hfirst]
      simp only [hfields]

/-- A document that fits is read in the same way from both formats. -/
theorem readRecord_agrees (h : List.Forall₂ (FieldReader.Agrees part) fs gs) (draft : σ)
    (complete : σ → Except Fault α) (fits : Fits (fs.map FieldReader.name) part d) :
    readRecord .json fs draft complete d = readRecord .toml gs draft complete d := by
  cases d with
  | record ms closed => rw [readRecord, readRecord, storeMembers_agrees h draft fits]
  | list ds closed =>
    have hitems := storeItems_agrees h draft fits.1 fits.2
    rw [readRecord, readRecord]
    simp only [Format.allowsSurplus, hitems]
  | _ => rfl

/-- A document each of whose items has a property if it is a list. -/
def Each (P : Document → Prop) : Document → Prop
  | list ds _ => ∀ d ∈ ds, P d
  | _ => True

theorem readList_agrees {P : Document → Prop} {r q : Reader α} (h : ∀ d, P d → r d = q d)
    (each : Each P d) : readList r d = readList q d := by
  cases d with
  | list ds closed =>
    have hitems : readItems r ds = readItems q ds := by
      induction ds with
      | nil => rfl
      | cons d ds ih =>
        obtain ⟨hfirst, hrest⟩ := List.forall_mem_cons.mp each
        rw [readItems, readItems, h d hfirst, ih hrest]
    rw [readList, readList, hitems]
  | _ => rfl

end

end Placement.Document
