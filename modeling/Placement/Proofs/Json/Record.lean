import Mathlib
import Placement.Proofs.Json.Schema

/-!
# What records denote

A record is written by name, each name once and none that is unknown, or as a list of values in the
order of the fields, of which the last ones may be missing. Either way it says which values its
fields have, and what is read of it depends on nothing else. So the order of names and the choice
between the two ways make no difference, in the record itself and in any record inside it.
-/
namespace Placement.Json
open Decimal Document

variable {α σ : Type} {t u : Tree} {names : List String} {v w : String → Option Tree}

/-- The values that named fields have in a record, which is written by name, each name once and no
other one, or as a list of the values in order, where the last ones may be missing. -/
inductive Fills (names : List String) (v : String → Option Tree) : Tree → Prop
  | record {ms : List (String × Tree)} : (ms.map Prod.fst).Nodup → (∀ m ∈ ms, m.1 ∈ names) →
      (∀ k ∈ names, ∀ t, v k = some t ↔ (k, t) ∈ ms) → Fills names v (.record ms)
  | list {ts : List Tree} :
      names.map v = ts.map some ++ List.replicate (names.length - ts.length) none →
      Fills names v (.list ts)

/-- What the fields of a record are is said by the record. -/
theorem Fills.unique (hv : Fills names v t) (hw : Fills names w t) : ∀ k ∈ names, v k = w k := by
  cases hv with
  | record _ _ hv =>
    cases hw with
    | record _ _ hw =>
      intro k hk
      exact Option.ext fun t => (hv k hk t).trans (hw k hk t).symm
  | list hv =>
    cases hw with
    | list hw => exact List.map_inj_left.mp (hv.trans hw.symm)

/-- Stores the values that fields have, in the order of the fields. -/
def storeFields (v : String → Option Tree) : List (FieldReader σ) → σ → Except Fault σ
  | [], draft => .ok draft
  | f :: fields, draft =>
    match v f.name with
    | none => storeFields v fields draft
    | some t =>
      match f.store draft t.document with
      | .error fault => .error fault
      | .ok draft => storeFields v fields draft

variable {fields : List (FieldReader σ)} {draft s : σ}

theorem storeMembers_of_fresh {f : FieldReader σ} {ms : List (String × Document)}
    (h : ∀ m ∈ ms, m.1 ≠ f.name) :
    storeMembers (f :: fields) draft ms = storeMembers fields draft ms := by
  induction ms generalizing fields draft with
  | nil => rfl
  | cons m ms ih =>
    obtain ⟨hfirst, hrest⟩ := List.forall_mem_cons.mp h
    have hfind : (f :: fields).find? (·.name == m.1) = fields.find? (·.name == m.1) :=
      List.find?_cons_of_neg (by simpa using hfirst.symm)
    have hfilter : (f :: fields).filter (·.name != m.1) = f :: fields.filter (·.name != m.1) :=
      List.filter_cons_of_pos (by simpa using hfirst.symm)
    simp only [storeMembers, hfind, hfilter, ih hrest]

/-- The members of a record are stored like the values of its fields. -/
theorem storeMembers_eq_storeFields {ms : List (String × Tree)}
    (distinct : (fields.map FieldReader.name).Nodup)
    (commute : ∀ f ∈ fields, ∀ g ∈ fields, f.name ≠ g.name → f.Commute g)
    (nodup : (ms.map Prod.fst).Nodup) (known : ∀ m ∈ ms, m.1 ∈ fields.map FieldReader.name)
    (hv : ∀ k ∈ fields.map FieldReader.name, ∀ t, v k = some t ↔ (k, t) ∈ ms) (draft : σ) :
    (storeMembers fields draft (ms.map fun m => (m.1, m.2.document))).toOption =
      (storeFields v fields draft).toOption := by
  induction fields generalizing ms draft with
  | nil =>
    cases ms with
    | nil => rfl
    | cons m ms => exact absurd (known m List.mem_cons_self) List.not_mem_nil
  | cons f fields ih =>
    have hcommute : ∀ g ∈ fields, ∀ h ∈ fields, g.name ≠ h.name → g.Commute h := fun g hg h hh =>
      commute g (List.mem_cons_of_mem _ hg) h (List.mem_cons_of_mem _ hh)
    obtain ⟨hfresh, hdistinct⟩ := List.nodup_cons.mp distinct
    cases hf : v f.name with
    | none =>
      have hmissing : ∀ m ∈ ms, m.1 ≠ f.name := by
        rintro ⟨k, t⟩ hm rfl
        rw [(hv _ List.mem_cons_self t).mpr hm] at hf
        cases hf
      have hmissing' : ∀ m ∈ ms.map fun m => (m.1, m.2.document), m.1 ≠ f.name :=
        List.forall_mem_map.mpr hmissing
      rw [storeMembers_of_fresh hmissing', storeFields, hf]
      apply ih hdistinct hcommute nodup
      · exact fun m hm => (List.mem_cons.mp (known m hm)).resolve_left (hmissing m hm)
      · exact fun k hk => hv k (List.mem_cons_of_mem _ hk)
    | some t =>
      -- the member of the first field is moved to the front
      obtain ⟨before, after, hsplit⟩ := List.append_of_mem ((hv _ List.mem_cons_self t).mp hf)
      have hperm : ms.Perm ((f.name, t) :: (before ++ after)) := hsplit ▸ List.perm_middle
      obtain ⟨hgone, hnodup⟩ := List.nodup_cons.mp ((hperm.map Prod.fst).nodup_iff.mp nodup)
      have hne : ∀ m ∈ before ++ after, m.1 ≠ f.name := fun m hm he =>
        hgone (List.mem_map.mpr ⟨m, hm, he⟩)
      have hrest (draft : σ) :
          (storeMembers fields draft ((before ++ after).map fun m => (m.1, m.2.document))).toOption =
            (storeFields v fields draft).toOption := by
        apply ih hdistinct hcommute hnodup
        · intro m hm
          have hknown := known m (hperm.mem_iff.mpr (List.mem_cons_of_mem _ hm))
          exact (List.mem_cons.mp hknown).resolve_left (hne m hm)
        · intro k hk u
          have hother : k ≠ f.name := fun he => hfresh (he ▸ hk)
          rw [hv k (List.mem_cons_of_mem _ hk), hperm.mem_iff, List.mem_cons, Prod.mk.injEq,
            or_iff_right fun h => hother h.1]
      have hfind : (f :: fields).find? (·.name == f.name) = some f :=
        List.find?_cons_of_pos (by simp)
      rw [storeMembers_perm (hperm.map _) commute (by rwa [List.map_map])]
      rw [List.map_cons, toOption_storeMembers_cons, hfind, Option.bind_some, storeFields, hf]
      simp only [filter_of_distinct distinct, hrest]
      cases f.store draft t.document <;> rfl

theorem nodup_of_storeMembers {ms : List (String × Document)}
    (h : storeMembers fields draft ms = .ok s) :
    (ms.map Prod.fst).Nodup ∧ ∀ m ∈ ms, m.1 ∈ fields.map FieldReader.name := by
  induction ms generalizing fields draft with
  | nil => exact ⟨List.nodup_nil, nofun⟩
  | cons m ms ih =>
    rw [storeMembers] at h
    split at h
    · cases h
    · next f hfind =>
      split at h
      · cases h
      · next draft' hf =>
        obtain ⟨hnodup, hknown⟩ := ih h
        have hname : f.name = m.1 := by simpa using List.find?_some hfind
        have hmem : m.1 ∈ fields.map FieldReader.name :=
          hname ▸ List.mem_map_of_mem (List.mem_of_find?_eq_some hfind)
        have hothers : ∀ n ∈ ms, n.1 ∈ fields.map FieldReader.name ∧ n.1 ≠ m.1 := by
          intro n hn
          obtain ⟨g, hg, hgn⟩ := List.mem_map.mp (hknown n hn)
          obtain ⟨hg, hne⟩ := List.mem_filter.mp hg
          exact ⟨hgn ▸ List.mem_map_of_mem hg, by simpa [hgn] using hne⟩
        refine ⟨List.nodup_cons.mpr ⟨fun hin => ?_, hnodup⟩,
          List.forall_mem_cons.mpr ⟨hmem, fun n hn => (hothers n hn).1⟩⟩
        obtain ⟨n, hn, he⟩ := List.mem_map.mp hin
        exact (hothers n hn).2 he

theorem storeFields_of_missing (h : ∀ f ∈ fields, v f.name = none) (draft : σ) :
    storeFields v fields draft = .ok draft := by
  induction fields with
  | nil => rfl
  | cons f fields ih =>
    obtain ⟨hfirst, hrest⟩ := List.forall_mem_cons.mp h
    rw [storeFields, hfirst]
    exact ih hrest

/-- The values of a list are stored like the values of the fields that they are for. -/
theorem storeItems_eq_storeFields {ts : List Tree} {missing : ℕ}
    (hv : (fields.map FieldReader.name).map v = ts.map some ++ List.replicate missing none)
    (draft : σ) : storeItems false fields draft (ts.map Tree.document) =
      storeFields v fields draft := by
  induction ts generalizing fields draft with
  | nil =>
    rw [List.map_nil, List.nil_append, List.map_map, List.eq_replicate_iff] at hv
    rw [List.map_nil, storeItems, storeFields_of_missing (List.forall_mem_map.mp hv.2)]
  | cons t ts ih =>
    cases fields with
    | nil => cases hv
    | cons f fields =>
      obtain ⟨hfirst, hrest⟩ := List.cons.inj hv
      rw [storeFields, hfirst, List.map_cons, storeItems]
      dsimp only
      cases f.store draft t.document with
      | error fault => rfl
      | ok draft' => exact ih hrest draft'

theorem length_le_of_storeItems {ds : List Document}
    (h : storeItems false fields draft ds = .ok s) : ds.length ≤ fields.length := by
  induction fields generalizing ds draft with
  | nil =>
    cases ds with
    | nil => exact le_rfl
    | cons d ds => cases h
  | cons f fields ih =>
    cases ds with
    | nil => exact Nat.zero_le _
    | cons d ds =>
      rw [storeItems] at h
      split at h
      · cases h
      · exact Nat.succ_le_succ (ih h)

theorem lookup_eq_some {ms : List (String × Tree)} (nodup : (ms.map Prod.fst).Nodup) {k : String} :
    ms.lookup k = some t ↔ (k, t) ∈ ms := by
  induction ms with
  | nil => exact iff_of_false nofun List.not_mem_nil
  | cons m ms ih =>
    obtain ⟨hfresh, hnodup⟩ := List.nodup_cons.mp nodup
    by_cases hk : k = m.1
    · subst hk
      have hgone : (m.1, t) ∉ ms := fun h => hfresh (List.mem_map.mpr ⟨_, h, rfl⟩)
      rw [List.lookup_cons_self, Option.some.injEq, List.mem_cons, or_iff_left hgone, Prod.ext_iff]
      exact ⟨fun h => ⟨rfl, h.symm⟩, fun h => h.2.symm⟩
    · have hne : (k == m.1) = false := by simpa using hk
      have hlookup : (m :: ms).lookup k = ms.lookup k := by rw [List.lookup_cons, hne]
      rw [hlookup, ih hnodup, List.mem_cons, or_iff_right]
      rintro rfl
      exact hk rfl

theorem fills_record {ms : List (String × Tree)} (nodup : (ms.map Prod.fst).Nodup)
    (known : ∀ m ∈ ms, m.1 ∈ names) : Fills names (fun k => ms.lookup k) (.record ms) :=
  .record nodup known fun _ _ _ => lookup_eq_some nodup

theorem fills_list {ts : List Tree} (distinct : names.Nodup) (short : ts.length ≤ names.length) :
    Fills names (fun k => (names.zip ts).lookup k) (.list ts) := by
  refine .list ?_
  induction names generalizing ts with
  | nil =>
    obtain rfl := List.eq_nil_of_length_eq_zero (Nat.le_zero.mp short)
    rfl
  | cons k names ih =>
    obtain ⟨hfresh, hdistinct⟩ := List.nodup_cons.mp distinct
    cases ts with
    | nil => exact List.map_const' ..
    | cons t ts =>
      have hrest : names.map (fun j => ((k, t) :: names.zip ts).lookup j) =
          names.map fun j => (names.zip ts).lookup j := by
        refine List.map_congr_left fun j hj => ?_
        have hne : (j == k) = false := by simpa using ne_of_mem_of_not_mem hj hfresh
        rw [List.lookup_cons, hne]
      rw [List.zip_cons_cons, List.map_cons, List.lookup_cons_self, hrest,
        ih hdistinct (Nat.le_of_succ_le_succ short), List.length_cons, List.length_cons,
        Nat.add_sub_add_right, List.map_cons, List.cons_append]

/-- Once the values of the fields are known, they are stored. -/
theorem readRecord_of_fills (distinct : (fields.map FieldReader.name).Nodup)
    (commute : fields.Pairwise FieldReader.Commute)
    (complete : σ → Except Fault α) (h : Fills (fields.map FieldReader.name) v t) :
    (readRecord .json fields draft complete t.document).toOption =
      (storeFields v fields draft >>= complete).toOption := by
  cases h with
  | record nodup known hv =>
    rw [Tree.document_record, readRecord, closing_true, toOption_bind, toOption_bind,
      storeMembers_eq_storeFields distinct (commute_of_pairwise commute) nodup known hv]
  | list hv =>
    rw [Tree.document_list, readRecord, closing_true, Format.allowsSurplus,
      storeItems_eq_storeFields hv]

/-- What is read is a record that says which values its fields have. -/
theorem exists_fills_of_readRecord (distinct : (fields.map FieldReader.name).Nodup)
    {complete : σ → Except Fault α} {a : α}
    (h : readRecord .json fields draft complete t.document = .ok a) :
    ∃ v, Fills (fields.map FieldReader.name) v t := by
  cases t with
  | record ms =>
    rw [Tree.document_record] at h
    obtain ⟨s, hs, -⟩ := bind_eq_ok h
    obtain ⟨hnodup, hknown⟩ := nodup_of_storeMembers (closing_eq_ok hs)
    rw [List.map_map] at hnodup
    exact ⟨_, fills_record hnodup fun m hm => hknown _ (List.mem_map_of_mem hm)⟩
  | list ts =>
    rw [Tree.document_list] at h
    obtain ⟨s, hs, -⟩ := bind_eq_ok h
    have hlength := length_le_of_storeItems (closing_eq_ok hs)
    rw [List.length_map] at hlength
    exact ⟨_, fills_list distinct (by rwa [List.length_map])⟩
  | number l =>
    have hread : readRecord .json fields draft complete (number l) = .ok a := h
    rcases number_eq_other_or l with hl | ⟨x, hl⟩ <;> rw [hl] at hread <;> cases hread
  | _ => cases h

/-- A record is read exactly if it says which values its fields have and these can be stored. -/
theorem readRecord_eq_ok (distinct : (fields.map FieldReader.name).Nodup)
    (commute : fields.Pairwise FieldReader.Commute)
    {complete : σ → Except Fault α} {a : α} :
    readRecord .json fields draft complete t.document = .ok a ↔
      ∃ v, Fills (fields.map FieldReader.name) v t ∧
        ∃ s, storeFields v fields draft = .ok s ∧ complete s = .ok a := by
  constructor
  · intro h
    obtain ⟨v, hv⟩ := exists_fills_of_readRecord distinct h
    rw [← toOption_eq_some, readRecord_of_fills distinct commute complete hv, toOption_eq_some] at h
    exact ⟨v, hv, bind_eq_ok h⟩
  · rintro ⟨v, hv, s, hs, hcomplete⟩
    rw [← toOption_eq_some, readRecord_of_fills distinct commute complete hv, toOption_eq_some, hs]
    exact hcomplete

theorem required_eq_ok {o : Option α} {a : α} : required o = .ok a ↔ o = some a := by
  cases o <;> simp [required]

/-- A field that has to be there. -/
def Required (R : Tree → α → Prop) (value : Option Tree) (a : α) : Prop :=
  ∃ t, value = some t ∧ R t a

/-- A field that has a default if it is missing. -/
def Optional (R : Tree → α → Prop) (default : α) (value : Option Tree) (a : α) : Prop :=
  value = none ∧ a = default ∨ Required R value a

section
variable {R : Tree → α → Prop} {value : Option Tree} {a default : α}

theorem required_iff : Required R value a ↔ Option.Rel R value (some a) := by
  constructor
  · rintro ⟨t, rfl, h⟩
    exact .some h
  · intro h
    cases h with
    | some h => exact ⟨_, rfl, h⟩

theorem optional_iff :
    Optional R default value a ↔ ∃ o, Option.Rel R value o ∧ o.getD default = a := by
  constructor
  · rintro (⟨rfl, rfl⟩ | h)
    · exact ⟨none, .none, rfl⟩
    · exact ⟨some a, required_iff.mp h, rfl⟩
  · rintro ⟨o, h, rfl⟩
    cases o with
    | none =>
      cases h
      exact .inl ⟨rfl, rfl⟩
    | some a => exact .inr (required_iff.mpr h)

theorem storeFields_nil : storeFields v [] draft = .ok s ↔ draft = s := by
  rw [storeFields, Except.ok.injEq]

/-- What a field stores, if it is there. -/
theorem storeFields_field {r : Reader α} (h : Takes r R) {name : String} {put : σ → α → σ} :
    storeFields v (field name r put :: fields) draft = .ok s ↔
      ∃ o, Option.Rel R (v name) o ∧ storeFields v fields (o.elim draft (put draft)) = .ok s := by
  have hstore (t : Tree) : (field name r put).store draft t.document =
      (r t.document).map (put draft) := rfl
  have hname : (field name r put).name = name := rfl
  rw [storeFields, hname]
  cases hvalue : v name with
  | none =>
    constructor
    · exact fun hs => ⟨none, .none, hs⟩
    · rintro ⟨o, hrel, hs⟩
      cases hrel
      exact hs
  | some t =>
    simp only [hstore]
    constructor
    · intro hs
      cases hread : r t.document with
      | error fault => rw [hread] at hs; cases hs
      | ok a =>
        rw [hread] at hs
        exact ⟨some a, .some ((h t a).mp hread), hs⟩
    · rintro ⟨o, hrel, hs⟩
      cases hrel with
      | some hrel =>
        rw [(h _ _).mpr hrel]
        exact hs

end

/-- What is laid down for a value: a single value, a list of values, or a record with its fields. -/
inductive Shape where
  | single
  | list (item : Shape)
  | record (names : List String) (part : String → Shape)

/-- Two trees that differ only in how their records are written: by name in any order, or as
lists. -/
def Shape.Alike : Shape → Tree → Tree → Prop
  | single, t, u => t = u
  | list item, t, u => ∃ ts us, t = .list ts ∧ u = .list us ∧ List.Forall₂ item.Alike ts us
  | record names part, t, u => ∃ v w, Fills names v t ∧ Fills names w u ∧
      ∀ k ∈ names, Option.Rel (part k).Alike (v k) (w k)

theorem Shape.Alike.symm {shape : Shape} (h : shape.Alike t u) : shape.Alike u t := by
  induction shape generalizing t u with
  | single => exact Eq.symm h
  | list item ih =>
    obtain ⟨ts, us, rfl, rfl, hall⟩ := h
    exact ⟨us, ts, rfl, rfl, (hall.imp fun _ _ => ih).flip⟩
  | record names part ih =>
    obtain ⟨v, w, hv, hw, hall⟩ := h
    refine ⟨w, v, hw, hv, fun k hk => ?_⟩
    have hk := hall k hk
    generalize v k = x, w k = y at hk ⊢
    cases hk with
    | none => exact .none
    | some h => exact .some (ih k h)

/-- Trees that are alike denote the same. -/
def Respects (shape : Shape) (R : Tree → α → Prop) : Prop :=
  ∀ ⦃t u a⦄, shape.Alike t u → R t a → R u a

theorem respects_single (R : Tree → α → Prop) : Respects .single R := by
  rintro t u a rfl h
  exact h

theorem respects_list {item : Shape} {R : Tree → α → Prop} (h : Respects item R) :
    Respects (.list item) (Tree.DenotesList R) := by
  rintro t u as ⟨ts, us, rfl, rfl, halike⟩ ⟨ts', hts, hall⟩
  obtain rfl : ts = ts' := Tree.list.inj hts
  refine ⟨us, rfl, ?_⟩
  clear hts
  induction halike generalizing as with
  | nil => exact hall
  | cons hfirst _ ih =>
    cases hall with
    | cons ha has => exact .cons (h hfirst ha) (ih has)

section
variable {shape : Shape} {R : Tree → α → Prop} {x y : Option Tree} {a default : α}

theorem Required.respects (h : Respects shape R) (alike : Option.Rel shape.Alike x y)
    (hx : Required R x a) : Required R y a := by
  obtain ⟨t, rfl, ht⟩ := hx
  cases alike with
  | some halike => exact ⟨_, rfl, h halike ht⟩

theorem Optional.respects (h : Respects shape R) (alike : Option.Rel shape.Alike x y)
    (hx : Optional R default x a) : Optional R default y a := by
  rcases hx with ⟨rfl, rfl⟩ | hx
  · cases alike
    exact .inl ⟨rfl, rfl⟩
  · exact .inr (hx.respects h alike)

end

/-- Where values that are alike make no difference in any field, they make none in the record. -/
theorem respects_record {part : String → Shape} {P : (String → Option Tree) → α → Prop}
    (h : ∀ v w a, (∀ k ∈ names, Option.Rel (part k).Alike (v k) (w k)) → P v a → P w a) :
    Respects (.record names part) fun t a => ∃ v, Fills names v t ∧ P v a := by
  rintro t u a ⟨v, w, hv, hw, halike⟩ ⟨v', hv', hP⟩
  refine ⟨w, hw, h v' w a (fun k hk => ?_) hP⟩
  rw [hv'.unique hv k hk]
  exact halike k hk

end Placement.Json
