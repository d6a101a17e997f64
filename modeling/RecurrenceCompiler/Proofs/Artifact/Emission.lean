import RecurrenceCompiler.Proofs.Catalog.Generation

/-!
# The files of batch generation

In a catalog that can be ordered cross calls name entries and make no cycle (`Stratified.of_ordered`), so
what is selected are entries, callees first (`listed_of_selected`). Batch generation goes through the
kinds of units of these recurrences in order (`Recurrence.jobs`) and makes one file a job
(`Artifact.Does`, `generateAll_eq_ok`). What stands before a job are the jobs of the recurrences before
and, within its own recurrence, the earlier ones; code for single values is the first
(`jobs_eq_append`).
-/

namespace RecurrenceCompiler

open Arith

/-- A pointwise relation is cut where the list on the right is. -/
theorem forall₂_append_right {α β : Type} {R : α → β → Prop} {bs bs' : List β} : ∀ {as : List α},
    List.Forall₂ R as (bs ++ bs') →
      ∃ pre post, as = pre ++ post ∧ List.Forall₂ R pre bs ∧ List.Forall₂ R post bs' := by
  induction bs with
  | nil => exact fun h => ⟨[], _, rfl, .nil, h⟩
  | cons b bs ih =>
    intro as h
    rw [List.cons_append] at h
    obtain _ | ⟨hab, h⟩ := h
    obtain ⟨pre, post, rfl, hpre, hpost⟩ := ih h
    exact ⟨_ :: pre, post, rfl, .cons hab hpre, hpost⟩

/-- What is on the left of related lists stands in relation to something on the right. -/
theorem exists_right_of_forall₂ {α β : Type} {R : α → β → Prop} {as : List α} {bs : List β}
    (h : List.Forall₂ R as bs) {a : α} (ha : a ∈ as) : ∃ b ∈ bs, R a b := by
  induction h with
  | nil => cases ha
  | cons hab _ ih =>
    rcases List.mem_cons.1 ha with rfl | ha
    · exact ⟨_, List.mem_cons_self, hab⟩
    · obtain ⟨b, hb, hab⟩ := ih ha
      exact ⟨b, List.mem_cons_of_mem _ hb, hab⟩

/-- A place in a list of blocks is a place in one of them. -/
theorem exists_of_flatMap_eq_append {α β : Type} {f : α → List β} {b : β} {after : List β}
    {xs : List α} : ∀ {before : List β}, xs.flatMap f = before ++ b :: after →
      ∃ front x rest pre post, xs = front ++ x :: rest ∧ f x = pre ++ b :: post ∧
        before = front.flatMap f ++ pre := by
  induction xs with
  | nil =>
    intro before h
    simp at h
  | cons x xs ih =>
    intro before h
    rw [List.flatMap_cons] at h
    -- The place is in a later block, with a front that ends in the first one, or in the first one.
    have later {early : List β} (h : xs.flatMap f = early ++ b :: after) :
        ∃ front y rest pre post, x :: xs = front ++ y :: rest ∧ f y = pre ++ b :: post ∧
          f x ++ early = front.flatMap f ++ pre := by
      obtain ⟨front, y, rest, pre, post, rfl, hy, rfl⟩ := ih h
      exact ⟨x :: front, y, rest, pre, post, rfl, hy, by simp⟩
    rcases List.append_eq_append_iff.1 h with ⟨early, rfl, hrest⟩ | ⟨late, hx, hrest⟩
    · exact later hrest
    · cases late with
      | nil =>
        rw [List.append_nil] at hx
        rw [← hx, ← List.append_nil (f x)]
        exact later hrest.symm
      | cons d late =>
        cases hrest
        exact ⟨[], x, xs, before, late, rfl, hx, rfl⟩

/-- What batch generation makes of a recurrence, in order. -/
def Recurrence.jobs (r : Recurrence) : List (Recurrence × UnitKind) :=
  r.unitKinds.map fun kind => (r, kind)

/-- A file holds what one job asks for. -/
structure Artifact.Does (c : Catalog) (o : CodegenOptions) (job : Recurrence × UnitKind)
    (a : Artifact) : Prop where
  file_eq : a.file = job.1.fileName job.2 o.dialect.extension
  recurrence_eq : a.recurrence = job.1
  generated : job.1.generate o c.resolver job.2 = .ok a.unit

namespace Recurrence

theorem mem_jobs {r : Recurrence} {job : Recurrence × UnitKind} :
    job ∈ r.jobs ↔ job.1 = r ∧ job.2 ∈ r.unitKinds := by
  rw [jobs, List.mem_map]
  constructor
  · rintro ⟨kind, hkind, rfl⟩
    exact ⟨rfl, hkind⟩
  · rintro ⟨rfl, hkind⟩
    exact ⟨job.2, hkind, rfl⟩

/-- A recurrence gets layered code exactly if it asks for it, and the other kinds always. -/
theorem mem_unitKinds {r : Recurrence} {kind : UnitKind} :
    kind ∈ r.unitKinds ↔ (kind = .layered → r.layered = true) := by
  cases kind <;> simp [unitKinds]

/-- Code for single values comes before all else of its recurrence. -/
theorem jobs_eq_append {r : Recurrence} {job : Recurrence × UnitKind}
    {pre post : List (Recurrence × UnitKind)} (h : r.jobs = pre ++ job :: post) :
    job.1 = r ∧ (job.2 = .perValue ∨ (r, .perValue) ∈ pre) := by
  have hjob : job ∈ r.jobs := by simp [h]
  refine ⟨(mem_jobs.1 hjob).1, ?_⟩
  rw [jobs, unitKinds, List.append_assoc, List.singleton_append, List.map_cons] at h
  cases pre with
  | nil => exact .inl (congrArg Prod.snd (List.cons.inj h).1).symm
  | cons first pre => exact .inr ((List.cons.inj h).1 ▸ List.mem_cons_self)

end Recurrence

namespace Catalog

variable {c : Catalog} {o : CodegenOptions}

/-! ## Catalogs that can be ordered -/

/-- A closure that is found has found the dependencies of all. -/
theorem exists_dependenciesOf_of_closure {rs : List Recurrence} {out : List Recurrence}
    (h : c.closure rs = .ok out) : ∀ r ∈ rs, ∃ deps, c.dependenciesOf r = .ok deps := by
  suffices hfrom : ∀ placed, rs.foldlM (fun placed r => do
      let deps ← c.dependenciesOf r
      return place placed (deps ++ [r])) placed = .ok out →
      ∀ r ∈ rs, ∃ deps, c.dependenciesOf r = .ok deps from hfrom [] h
  clear h
  induction rs with
  | nil => exact fun _ _ => List.forall_mem_nil _
  | cons r rs ih =>
    intro placed h
    rw [List.foldlM_cons] at h
    obtain ⟨next, hnext, h⟩ := bind_ok h
    obtain ⟨deps, hdeps, -⟩ := bind_ok hnext
    exact List.forall_mem_cons.2 ⟨⟨deps, hdeps⟩, ih next h⟩

/-- **In a catalog that can be ordered cross calls name entries and make no cycle**: on a cycle a
recurrence would be among its own dependencies. -/
theorem Stratified.of_ordered {all : List Recurrence} (hall : c.ordered = .ok all) :
    c.Stratified where
  registered := by
    intro r hr d hd
    obtain ⟨deps, hdeps⟩ := exists_dependenciesOf_of_closure hall r hr
    obtain ⟨hlisted, -, hcallees⟩ := listed_dependenciesOf (mem_all.1 hr) (fun _ _ => rfl) hdeps
    obtain ⟨s, hs, rfl⟩ := List.mem_map.1 (hcallees d hd)
    exact has_iff.2 ⟨s, hlisted.registered s hs⟩
  acyclic := by
    intro n hcycle
    obtain ⟨_, ⟨r, hr, -⟩, -⟩ := Relation.TransGen.head'_iff.1 hcycle
    obtain rfl := name_of_get? hr
    obtain ⟨deps, hdeps⟩ := exists_dependenciesOf_of_closure hall r (mem_all_of_get? hr)
    obtain ⟨-, hnot, -⟩ := listed_dependenciesOf hr (fun _ _ => rfl) hdeps
    exact hnot (List.mem_map_of_mem ((mem_dependenciesOf hr (fun _ _ => rfl) hdeps).2 ⟨hr, hcycle⟩))

/-- Names whose dependencies are found are registered. -/
theorem has_of_withDependencies {names wanted : List String}
    (h : c.withDependencies names = .ok wanted) : ∀ n ∈ names, c.has n := by
  induction names generalizing wanted with
  | nil => exact List.forall_mem_nil _
  | cons name names ih =>
    rw [withDependencies] at h
    obtain ⟨r, hr, h⟩ := bind_ok h
    obtain ⟨_, -, h⟩ := bind_ok h
    obtain ⟨_, hrest, -⟩ := bind_ok h
    exact List.forall_mem_cons.2 ⟨has_iff.2 ⟨r, get?_of_require hr⟩, ih hrest⟩

/-- What is selected are entries, callees first. -/
theorem listed_of_selected {names : Option (List String)}
    {rs : List Recurrence} (h : c.selected names = .ok rs) : c.Listed rs := by
  obtain ⟨all, hall, hrest⟩ := bind_ok h
  have hnames : ∀ ns, names = some ns → ∀ n ∈ ns, c.has n := by
    rintro ns rfl
    obtain ⟨wanted, hwanted, -⟩ := bind_ok hrest
    exact has_of_withDependencies hwanted
  obtain ⟨rs', hrs', hlisted, -⟩ := (Stratified.of_ordered hall).exists_selected hnames
  obtain rfl := Except.ok.inj (h.symm.trans hrs')
  exact hlisted

/-! ## Files -/

theorem forall₂_artifactsOf {r : Recurrence} {as : List Artifact}
    (h : c.artifactsOf o r = .ok as) : List.Forall₂ (Artifact.Does c o) r.jobs as := by
  rw [Recurrence.jobs, List.forall₂_map_left_iff]
  refine (forall₂_of_mapM h).imp fun kind a ha => ?_
  obtain ⟨u, hu, ha⟩ := bind_ok ha
  cases ha
  exact ⟨rfl, rfl, hu⟩

/-- **Batch generation makes one file a job, in order.** -/
theorem generateAll_eq_ok {names : Option (List String)} {artifacts : List Artifact}
    (h : c.generateAll o names = .ok artifacts) :
    ∃ rs, c.Listed rs ∧ List.Forall₂ (Artifact.Does c o) (rs.flatMap Recurrence.jobs) artifacts := by
  obtain ⟨rs, hrs, h⟩ := bind_ok h
  obtain ⟨files, hfiles, h⟩ := bind_ok h
  cases h
  refine ⟨rs, listed_of_selected hrs, ?_⟩
  rw [List.flatMap_def]
  refine List.rel_flatten ?_
  rw [List.forall₂_map_left_iff]
  exact (forall₂_of_mapM hfiles).imp fun _ _ => forall₂_artifactsOf

end Catalog

end RecurrenceCompiler
