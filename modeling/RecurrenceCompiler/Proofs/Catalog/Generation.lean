import RecurrenceCompiler.Artifact.Basic
import RecurrenceCompiler.Proofs.Catalog.Search

/-!
# Batch generation

In a catalog whose cross calls name entries and make no cycle (`Stratified`) every search for
dependencies ends well. The closure of a list of recurrences merges one search a recurrence, and what
was placed by an earlier search is not placed again (`listed_place`), so callees still come first and
nothing is lost (`exists_closure`). Leaving out what is not wanted keeps the order, because with a
recurrence all that it calls is wanted (`exists_selected`).

Main statement: batch generation emits the units of exactly the wanted recurrences, those of each one
together and after those of its callees (`generateAll_emits_closure`).
-/

namespace RecurrenceCompiler

open Arith

/-- The recurrence and the kind of unit that a file holds. -/
def Artifact.label (a : Artifact) : String × UnitKind :=
  (a.unit.recurrence, a.unit.kind)

/-- The labels of the files that a recurrence gets. -/
def Recurrence.labels (r : Recurrence) : List (String × UnitKind) :=
  r.unitKinds.map fun kind => (r.name, kind)

/-- Every recurrence gets one file for single values. -/
theorem Recurrence.names_of_labels (rs : List Recurrence) :
    ((rs.flatMap labels).filter fun l => l.2 == .perValue).map (·.1) = rs.map (·.name) := by
  have hone (r : Recurrence) : r.labels.filter (fun l => l.2 == .perValue) = [(r.name, .perValue)] := by
    rw [labels, Recurrence.unitKinds]
    split <;> rfl
  rw [List.filter_flatMap, List.map_flatMap, List.map_eq_flatMap]
  simp [hone]

/-- A generated unit has the name of its recurrence and the kind that was asked for. -/
theorem Recurrence.generate_label {r : Recurrence} {o : CodegenOptions} {resolve : Resolver}
    {kind : UnitKind} {u : GeneratedUnit} (h : r.generate o resolve kind = .ok u) :
    (u.recurrence, u.kind) = (r.name, kind) := by
  cases kind with
  | perValue =>
    rw [generate, generatePerValue] at h
    dsimp only at h
    split at h <;> obtain ⟨source, -, h⟩ := bind_ok h <;> cases h <;> rfl
  | layered =>
    rw [generate, generateLayered] at h
    obtain ⟨plan, -, h⟩ := bind_ok h
    dsimp only at h
    split at h <;> obtain ⟨source, -, h⟩ := bind_ok h <;> cases h <;> rfl
  | dispatcher =>
    cases h
    rfl

namespace Catalog

variable {c : Catalog}

/-- Cross calls name entries and make no cycle. -/
structure Stratified (c : Catalog) : Prop where
  registered : ∀ r ∈ c.all, ∀ d, r.Calls d → c.has d
  acyclic : ∀ n, ¬Relation.TransGen (CrossCalls c.get?) n n

/-- One name leads to another by cross calls. -/
def Reaches (c : Catalog) : String → String → Prop :=
  Relation.ReflTransGen (CrossCalls c.get?)

/-- Cross calls that lead to lower ranks make no cycle. -/
theorem acyclic_of_rank {rank : String → Nat}
    (h : ∀ r ∈ c.all, ∀ d, r.Calls d → rank d < rank r.name) (n : String) :
    ¬Relation.TransGen (CrossCalls c.get?) n n := by
  have hlower : ∀ m r, c.get? m = some r → ∀ d, r.Calls d → rank d < rank m := by
    intro m r hr d hd
    exact name_of_get? hr ▸ h r (mem_all_of_get? hr) d hd
  exact fun hn => lt_irrefl _ (rank_lt_of_leads hlower hn)

/-- What an entry calls is an entry. -/
theorem Stratified.has_of_calls (h : c.Stratified) {a b : String} (hab : CrossCalls c.get? a b) :
    c.has b := by
  obtain ⟨r, hr, hb⟩ := hab
  exact h.registered r (mem_all_of_get? hr) b hb

theorem Stratified.has_of_reaches (h : c.Stratified) {a b : String} (ha : c.has a)
    (hab : c.Reaches a b) : c.has b := by
  cases hab with
  | refl => exact ha
  | tail _ hcall => exact h.has_of_calls hcall

/-! ## Dependencies of an entry -/

/-- **The dependencies of an entry can be listed.** -/
theorem Stratified.exists_dependenciesOf (h : c.Stratified) {r : Recurrence} (hr : r ∈ c.all) :
    ∃ deps, c.dependenciesOf r = .ok deps := by
  cases hdeps : c.dependenciesOf r with
  | ok deps => exact ⟨deps, rfl⟩
  | error e =>
    have hobstacle : c.Obstacle c.get? r.name :=
      (obstacle_of_dependenciesOf (mem_all.1 hr) (fun _ _ => rfl) hdeps).2
    cases hobstacle with
    | unregistered hreach hnone =>
      obtain ⟨_, -, hcall⟩ := Relation.TransGen.tail'_iff.1 hreach
      obtain ⟨s, hs⟩ := has_iff.1 (h.has_of_calls hcall)
      cases hnone.symm.trans hs
    | cyclic _ hcycle => exact (h.acyclic _ hcycle).elim

/-- The dependencies of an entry and the entry itself: what it leads to, callees first. -/
theorem listed_with_root {r : Recurrence} (hr : r ∈ c.all) {deps : List Recurrence}
    (hdeps : c.dependenciesOf r = .ok deps) : c.Listed (deps ++ [r]) ∧
      ∀ s, s ∈ deps ++ [r] ↔ s ∈ c.all ∧ c.Reaches r.name s.name := by
  have hget := mem_all.1 hr
  obtain ⟨hlisted, hnot, hcallees⟩ := listed_dependenciesOf hget (fun _ _ => rfl) hdeps
  refine ⟨hlisted.concat hget hnot hcallees, fun s => ?_⟩
  rw [List.mem_append, mem_dependenciesOf hget (fun _ _ => rfl) hdeps, List.mem_singleton, mem_all,
    Reaches, Relation.reflTransGen_iff_eq_or_transGen]
  constructor
  · rintro (⟨hs, hreach⟩ | rfl)
    · exact ⟨hs, .inr hreach⟩
    · exact ⟨hget, .inl rfl⟩
  · rintro ⟨hs, heq | hreach⟩
    · rw [heq, hget] at hs
      exact .inr (Option.some.inj hs).symm
    · exact .inl ⟨hs, hreach⟩

/-! ## Closures -/

theorem Listed.of_concat {rs : List Recurrence} {r : Recurrence} (h : c.Listed (rs ++ [r])) :
    c.Listed rs where
  registered := fun s hs => h.registered s (by simp [hs])
  distinct := by
    have hdistinct := h.distinct
    rw [List.map_append, List.nodup_append] at hdistinct
    exact hdistinct.1
  calleesFirst := h.calleesFirst.of_concat.1

theorem place_concat (placed rs : List Recurrence) (r : Recurrence) :
    place placed (rs ++ [r]) =
      if (place placed rs).any fun p => p.name == r.name then place placed rs
      else place placed rs ++ [r] := by
  rw [place, List.foldl_append]
  rfl

/-- **Placing one list after another keeps callees first and loses nothing.** -/
theorem listed_place {placed rs : List Recurrence} (hplaced : c.Listed placed) (hrs : c.Listed rs) :
    c.Listed (place placed rs) ∧ ∀ s, s ∈ place placed rs ↔ s ∈ placed ∨ s ∈ rs := by
  induction rs using List.reverseRecOn with
  | nil => exact ⟨hplaced, by simp [place]⟩
  | append_singleton rs r ih =>
    obtain ⟨hlisted, hmem⟩ := ih hrs.of_concat
    have hr := hrs.registered r (by simp)
    rw [place_concat]
    split
    · next hany =>
      have hin : r ∈ place placed rs := hlisted.mem_of_name hr (any_name.1 hany)
      refine ⟨hlisted, fun s => ?_⟩
      rw [hmem, List.mem_append, List.mem_singleton]
      constructor
      · exact Or.imp_right .inl
      · rintro (hs | hs | rfl)
        · exact .inl hs
        · exact .inr hs
        · exact (hmem s).1 hin
    · next hany =>
      refine ⟨hlisted.concat hr (fun hin => hany (any_name.2 hin)) fun d hd => ?_, fun s => ?_⟩
      · obtain ⟨s, hs, rfl⟩ := List.mem_map.1 (hrs.calleesFirst.of_concat.2 d hd)
        exact List.mem_map_of_mem ((hmem s).2 (.inr hs))
      · simp [hmem, or_assoc]

/-- **The closure of some entries is all that they lead to, callees first.** -/
theorem Stratified.exists_closure (h : c.Stratified) {rs : List Recurrence} (hrs : rs ⊆ c.all) :
    ∃ out, c.closure rs = .ok out ∧ c.Listed out ∧
      ∀ s, s ∈ out ↔ s ∈ c.all ∧ ∃ r ∈ rs, c.Reaches r.name s.name := by
  -- The induction goes along the list, from whatever is placed already.
  suffices hfrom : ∀ placed, c.Listed placed → ∃ out,
      rs.foldlM (fun placed r => do
        let deps ← c.dependenciesOf r
        return place placed (deps ++ [r])) placed = .ok out ∧ c.Listed out ∧
      ∀ s, s ∈ out ↔ s ∈ placed ∨ (s ∈ c.all ∧ ∃ r ∈ rs, c.Reaches r.name s.name) by
    simpa [closure] using hfrom [] listed_nil
  induction rs with
  | nil => exact fun placed hplaced => ⟨placed, rfl, hplaced, by simp⟩
  | cons r rs ih =>
    intro placed hplaced
    rw [List.cons_subset] at hrs
    obtain ⟨deps, hdeps⟩ := h.exists_dependenciesOf hrs.1
    obtain ⟨hroot, hreach⟩ := listed_with_root hrs.1 hdeps
    obtain ⟨hlisted, hmem⟩ := listed_place hplaced hroot
    obtain ⟨out, hout, hlisted, hmemOut⟩ := ih hrs.2 _ hlisted
    refine ⟨out, ?_, hlisted, fun s => ?_⟩
    · rw [List.foldlM_cons, hdeps]
      exact hout
    · rw [hmemOut, hmem, hreach]
      simp only [List.exists_mem_cons_iff]
      tauto

theorem nodup_all (c : Catalog) : c.all.Nodup := by
  have hnames := c.nodup
  have hmap : c.entries.map CatalogEntry.name = c.all.map (·.name) := by
    rw [all, List.map_map]
    rfl
  rw [hmap] at hnames
  exact hnames.of_map

/-- **All entries can be ordered**, and the order is a permutation of the order of registration. -/
theorem Stratified.exists_ordered (h : c.Stratified) :
    ∃ rs, c.ordered = .ok rs ∧ c.Listed rs ∧ rs.Perm c.all := by
  obtain ⟨rs, hrs, hlisted, hmem⟩ := h.exists_closure (List.Subset.refl c.all)
  refine ⟨rs, hrs, hlisted, ?_⟩
  rw [List.perm_ext_iff_of_nodup hlisted.distinct.of_map c.nodup_all]
  intro s
  rw [hmem]
  exact ⟨And.left, fun hs => ⟨hs, s, hs, .refl⟩⟩

/-! ## Selection -/

/-- What is wanted: everything, or what the given names lead to. -/
def Wanted (c : Catalog) : Option (List String) → String → Prop
  | none, _ => True
  | some names, n => ∃ m ∈ names, c.Reaches m n

/-- With a recurrence all that it calls is wanted. -/
theorem Wanted.calls {names : Option (List String)} {a b : String} (h : c.Wanted names a)
    (hab : CrossCalls c.get? a b) : c.Wanted names b := by
  cases names with
  | none => trivial
  | some names =>
    obtain ⟨m, hm, hreach⟩ := h
    exact ⟨m, hm, hreach.tail hab⟩

/-- The names of entries with their dependencies are those that they lead to. -/
theorem Stratified.exists_withDependencies (h : c.Stratified) {names : List String}
    (hnames : ∀ n ∈ names, c.has n) :
    ∃ wanted, c.withDependencies names = .ok wanted ∧
      ∀ n, n ∈ wanted ↔ ∃ m ∈ names, c.Reaches m n := by
  induction names with
  | nil => exact ⟨[], rfl, by simp⟩
  | cons name names ih =>
    rw [List.forall_mem_cons] at hnames
    obtain ⟨wanted, hwanted, hmem⟩ := ih hnames.2
    obtain ⟨r, hr⟩ := has_iff.1 hnames.1
    have hname := name_of_get? hr
    have hall := mem_all_of_get? hr
    obtain ⟨deps, hdeps⟩ := h.exists_dependenciesOf hall
    obtain ⟨-, hreach⟩ := listed_with_root hall hdeps
    refine ⟨r.name :: (deps.map (·.name) ++ wanted), ?_, fun n => ?_⟩
    · have hrequire : c.require name = .ok r := by rw [require, hr]
      rw [withDependencies, hrequire]
      change (c.dependenciesOf r >>= _) = _
      rw [hdeps, hwanted]
      rfl
    · have hfirst : n ∈ (deps ++ [r]).map (·.name) ↔ c.Reaches name n := by
        rw [List.mem_map, ← hname]
        constructor
        · rintro ⟨s, hs, rfl⟩
          exact ((hreach s).1 hs).2
        · intro hn
          obtain ⟨s, hs⟩ := has_iff.1 (h.has_of_reaches (hname ▸ hnames.1) hn)
          have hsname := name_of_get? hs
          exact ⟨s, (hreach s).2 ⟨mem_all_of_get? hs, hsname ▸ hn⟩, hsname⟩
      rw [List.exists_mem_cons_iff, ← hfirst, ← hmem]
      simp only [List.mem_cons, List.mem_append, List.map_append, List.map_cons, List.map_nil,
        List.not_mem_nil, or_false]
      tauto

/-- **What is selected is what is wanted, callees first.** -/
theorem Stratified.exists_selected (h : c.Stratified) {names : Option (List String)}
    (hnames : ∀ ns, names = some ns → ∀ n ∈ ns, c.has n) :
    ∃ rs, c.selected names = .ok rs ∧ c.Listed rs ∧
      ∀ s, s ∈ rs ↔ s ∈ c.all ∧ c.Wanted names s.name := by
  obtain ⟨all, hall, hlisted, hperm⟩ := h.exists_ordered
  cases names with
  | none =>
    refine ⟨all, ?_, hlisted, fun s => by simp [Wanted, hperm.mem_iff]⟩
    rw [selected, hall]
    rfl
  | some names =>
    obtain ⟨wanted, hwanted, hmem⟩ := h.exists_withDependencies (hnames names rfl)
    have hcontains {n : String} : wanted.contains n = true ↔ c.Wanted (some names) n := by
      rw [List.contains_iff_mem, hmem]
      rfl
    refine ⟨all.filter fun r => wanted.contains r.name, ?_, ⟨?_, ?_, ?_⟩, fun s => ?_⟩
    · rw [selected, hall]
      change (c.withDependencies names >>= _) = _
      rw [hwanted]
      rfl
    · exact fun r hr => hlisted.registered r (List.mem_filter.1 hr).1
    · exact hlisted.distinct.sublist (List.filter_sublist.map _)
    · refine hlisted.calleesFirst.filter fun r hr hrw s _ hdep => ?_
      exact hcontains.2 ((hcontains.1 hrw).calls ⟨r, hlisted.registered r hr, hdep⟩)
    · rw [List.mem_filter, hperm.mem_iff, hcontains]

/-! ## Units -/

theorem exists_artifactsOf {o : CodegenOptions} {r : Recurrence}
    (h : ∀ kind ∈ r.unitKinds, ∃ u, r.generate o c.resolver kind = .ok u) :
    ∃ as, c.artifactsOf o r = .ok as ∧ as.map Artifact.label = r.labels := by
  refine exists_mapM_map fun kind hkind => ?_
  obtain ⟨u, hu⟩ := h kind hkind
  refine ⟨⟨r.fileName kind o.dialect.extension, r, u⟩, ?_, Recurrence.generate_label hu⟩
  rw [hu]
  rfl

/-- **Batch generation emits exactly the closure of what is asked for, callees first.** In a catalog
whose cross calls name entries and make no cycle, if the asked names are entries and no unit of a
wanted recurrence is refused, there is a result: the units of the wanted recurrences, those of each
recurrence once and together, every recurrence after all that it calls. The order of all entries is a
permutation of the order of registration. -/
theorem generateAll_emits_closure (c : Catalog) (o : CodegenOptions) (names : Option (List String))
    (hc : c.Stratified) (hnames : ∀ ns, names = some ns → ∀ n ∈ ns, c.has n)
    (hunits : ∀ r ∈ c.all, c.Wanted names r.name →
      ∀ kind ∈ r.unitKinds, ∃ u, r.generate o c.resolver kind = .ok u) :
    (∃ artifacts rs, c.generateAll o names = .ok artifacts ∧
      artifacts.map Artifact.label = rs.flatMap Recurrence.labels ∧
      (rs.map (·.name)).Nodup ∧ CalleesFirst rs ∧
      ∀ r, r ∈ rs ↔ r ∈ c.all ∧ c.Wanted names r.name) ∧
    ∃ all, c.ordered = .ok all ∧ all.Perm c.all ∧ CalleesFirst all := by
  obtain ⟨all, hall, hlistedAll, hperm⟩ := hc.exists_ordered
  obtain ⟨rs, hrs, hlisted, hmem⟩ := hc.exists_selected hnames
  have hfiles : ∀ r ∈ rs, ∃ as, c.artifactsOf o r = .ok as ∧ as.map Artifact.label = r.labels :=
    fun r hr => exists_artifactsOf (hunits r ((hmem r).1 hr).1 ((hmem r).1 hr).2)
  obtain ⟨files, hfiles, hlabels⟩ := exists_mapM_map hfiles
  refine ⟨⟨files.flatten, rs, ?_, ?_, hlisted.distinct, hlisted.calleesFirst, hmem⟩,
    all, hall, hperm, hlistedAll.calleesFirst⟩
  · rw [generateAll, hrs]
    change (rs.mapM (c.artifactsOf o) >>= _) = _
    rw [hfiles]
    rfl
  · rw [List.map_flatten, hlabels, List.flatMap_def]

/-! ## An example -/

/-- Callees that are registered after their callers come first, and the entry that is not wanted is
left out: the files of four recurrences come out, two for each. -/
theorem generateAll_emits_closure_diamond : ∃ c artifacts rs, diamond = .ok c ∧
    c.Stratified ∧ (∀ n ∈ ["Top"], c.has n) ∧
    (∀ r ∈ c.all, ∀ kind ∈ r.unitKinds,
      ∃ u, r.generate { target := .js } c.resolver kind = .ok u) ∧
    c.all.map (·.name) = ["Top", "Other", "Left", "Right", "Base"] ∧
    c.generateAll { target := .js } (some ["Top"]) = .ok artifacts ∧
    artifacts.map (·.file) = ["base_coeff.js", "base_dispatch.js", "left_coeff.js", "left_dispatch.js",
      "right_coeff.js", "right_dispatch.js", "top_coeff.js", "top_dispatch.js"] ∧
    artifacts.map Artifact.label = rs.flatMap Recurrence.labels ∧
    rs.map (·.name) = ["Base", "Left", "Right", "Top"] ∧ CalleesFirst rs ∧
    (∀ r, r ∈ rs ↔ r ∈ c.all ∧ c.Wanted (some ["Top"]) r.name) ∧
    ∃ all, c.ordered = .ok all ∧ all.Perm c.all ∧ CalleesFirst all := by
  have hcheck : (diamond.toOption.any fun c =>
      c.all.all (fun r => r.dependencies.all fun d =>
        c.has d && decide (diamondRank d < diamondRank r.name)) &&
      c.has "Top" &&
      c.all.all (fun r => r.unitKinds.all fun kind =>
        (r.generate { target := .js } c.resolver kind).toOption.any fun _ => true) &&
      c.all.map (·.name) == ["Top", "Other", "Left", "Right", "Base"] &&
      (c.generateAll { target := .js } (some ["Top"])).toOption.any fun artifacts =>
        artifacts.map (·.file) == ["base_coeff.js", "base_dispatch.js", "left_coeff.js",
          "left_dispatch.js", "right_coeff.js", "right_dispatch.js", "top_coeff.js", "top_dispatch.js"] &&
        ((artifacts.map Artifact.label).filter fun l => l.2 == .perValue).map (·.1) ==
          ["Base", "Left", "Right", "Top"]) = true := by
    decide +kernel
  obtain ⟨c, hc, hcheck⟩ := exists_ok_of_any hcheck
  simp only [Bool.and_eq_true, List.all_eq_true, decide_eq_true_eq, beq_iff_eq] at hcheck
  obtain ⟨⟨⟨⟨hcalls, htop⟩, hunits⟩, hall⟩, hrun⟩ := hcheck
  obtain ⟨artifacts, hartifacts, hrun⟩ := exists_ok_of_any hrun
  simp only [Bool.and_eq_true, beq_iff_eq] at hrun
  obtain ⟨hfiles, hnames⟩ := hrun
  have hstratified : c.Stratified :=
    ⟨fun r hr d hd => (hcalls r hr d (Recurrence.mem_dependencies.2 hd)).1,
      acyclic_of_rank fun r hr d hd => (hcalls r hr d (Recurrence.mem_dependencies.2 hd)).2⟩
  have hhas : ∀ n ∈ ["Top"], c.has n := List.forall_mem_singleton.2 htop
  have hunits : ∀ r ∈ c.all, ∀ kind ∈ r.unitKinds,
      ∃ u, r.generate { target := .js } c.resolver kind = .ok u := fun r hr kind hkind => by
    obtain ⟨u, hu, -⟩ := exists_ok_of_any (hunits r hr kind hkind)
    exact ⟨u, hu⟩
  have hasked : ∀ ns, some ["Top"] = some ns → ∀ n ∈ ns, c.has n := by
    rintro ns ⟨⟩
    exact hhas
  obtain ⟨⟨artifacts', rs, hrs, hlabels, -, hfirst, hmem⟩, hordered⟩ :=
    generateAll_emits_closure c { target := .js } (some ["Top"]) hstratified hasked
      fun r hr _ => hunits r hr
  obtain rfl := Except.ok.inj (hartifacts.symm.trans hrs)
  refine ⟨c, artifacts, rs, hc, hstratified, hhas, hunits, hall, hartifacts, hfiles, hlabels, ?_, hfirst,
    hmem, hordered⟩
  rw [← Recurrence.names_of_labels, ← hlabels]
  exact hnames

end Catalog

end RecurrenceCompiler
