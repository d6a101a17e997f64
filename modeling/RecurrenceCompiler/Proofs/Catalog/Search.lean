import RecurrenceCompiler.Proofs.Catalog.Dependencies
import RecurrenceCompiler.Recurrence.Builder

/-!
# When a search succeeds, and with what

The search for the dependencies of a recurrence is correct and complete on every catalog, also from a
recurrence that is not registered (`dependenciesOf_iff_searchable`):

* it gives a list exactly if all that the recurrence leads to is registered and on no cycle
  (`Searchable`), and otherwise the error of a definition;
* the list holds what the recurrence leads to, each name once, callees before their callers
  (`DependencyOrder`);
* no bound on the depth of the search changes its outcome once a path without repetition fits in it.

A search fails only at an obstacle (`obstacle_of_dependenciesOf`). For the converse the place
of a name in the list is a rank: a callee stands before its caller (`CalleesFirst.idxOf_lt`), so what
is listed lies on no cycle.
-/

namespace RecurrenceCompiler

open Arith

/-- In a list of distinct names a callee has a smaller place than its caller. -/
theorem CalleesFirst.idxOf_lt {rs : List Recurrence} (h : CalleesFirst rs)
    (hdistinct : (rs.map (·.name)).Nodup) {r : Recurrence} (hr : r ∈ rs) {d : String}
    (hd : r.Calls d) :
    (rs.map (·.name)).idxOf d < (rs.map (·.name)).idxOf r.name := by
  obtain ⟨before, after, rfl⟩ := List.append_of_mem hr
  have hmem : d ∈ before.map (·.name) := h before r after rfl d hd
  rw [List.map_append, List.map_cons] at hdistinct ⊢
  have hnot : r.name ∉ before.map (·.name) := by
    intro hin
    exact (List.nodup_append.1 hdistinct).2.2 _ hin r.name (by simp) rfl
  rw [List.idxOf_append_of_mem hmem, List.idxOf_append_of_notMem hnot, List.idxOf_cons_self,
    Nat.add_zero]
  exact List.idxOf_lt_length_of_mem hmem

namespace Catalog

variable {c : Catalog} {root : Recurrence}

/-- The recurrence under a name in a search from a root, which need not be registered. -/
def from? (c : Catalog) (root : Recurrence) (n : String) : Option Recurrence :=
  if n = root.name then some root else c.get? n

theorem from?_root : c.from? root root.name = some root :=
  if_pos rfl

theorem from?_of_ne (n : String) (h : n ≠ root.name) : c.from? root n = c.get? n :=
  if_neg h

/-- In a search from a root, one name leads to another by one or more cross calls. -/
def LeadsTo (c : Catalog) (root : Recurrence) : String → String → Prop :=
  Relation.TransGen (CrossCalls (c.from? root))

/-- All that a recurrence leads to is registered, and neither it nor what it leads to is on a
cycle. -/
structure Searchable (c : Catalog) (root : Recurrence) : Prop where
  registered : ∀ n, c.LeadsTo root root.name n → c.has n
  root_acyclic : ¬c.LeadsTo root root.name root.name
  acyclic : ∀ n, c.LeadsTo root root.name n → ¬c.LeadsTo root n n

/-- The entries that a recurrence leads to, each once and after all that it calls, without the
recurrence itself. -/
structure DependencyOrder (c : Catalog) (root : Recurrence) (deps : List Recurrence) : Prop where
  listed : c.Listed deps
  mem_iff : ∀ n, n ∈ deps.map (·.name) ↔ c.LeadsTo root root.name n
  not_root : root.name ∉ deps.map (·.name)

/-! ## What a list of dependencies says -/

/-- The list holds exactly what can be reached. -/
theorem dependencyOrder_of_dependenciesOf {deps : List Recurrence}
    (h : c.dependenciesOf root = .ok deps) : c.DependencyOrder root deps := by
  obtain ⟨hlisted, hnot, -⟩ := listed_dependenciesOf from?_root from?_of_ne h
  refine ⟨hlisted, fun n => ⟨fun hn => ?_, mem_names_of_leads from?_root from?_of_ne h⟩, hnot⟩
  obtain ⟨s, hs, rfl⟩ := List.mem_map.1 hn
  exact ((mem_dependenciesOf from?_root from?_of_ne h).1 hs).2

/-- A listed name leads only to names before it. -/
theorem DependencyOrder.idxOf_lt {deps : List Recurrence} (h : c.DependencyOrder root deps)
    {n m : String} (hn : n ∈ deps.map (·.name)) (hnm : c.LeadsTo root n m) :
    m ∈ deps.map (·.name) ∧
      (deps.map (·.name)).idxOf m < (deps.map (·.name)).idxOf n := by
  have hstep : ∀ {a b}, a ∈ deps.map (·.name) → CrossCalls (c.from? root) a b →
      b ∈ deps.map (·.name) ∧ (deps.map (·.name)).idxOf b < (deps.map (·.name)).idxOf a := by
    rintro a b ha ⟨r, hr, hb⟩
    obtain ⟨s, hs, rfl⟩ := List.mem_map.1 ha
    rw [from?_of_ne _ fun heq => h.not_root (heq ▸ ha), h.listed.registered s hs] at hr
    obtain rfl := Option.some.inj hr
    exact ⟨h.listed.calleesFirst.closed hs b hb,
      h.listed.calleesFirst.idxOf_lt h.listed.distinct hs hb⟩
  induction hnm with
  | single hcall => exact hstep hn hcall
  | tail _ hcall ih =>
    obtain ⟨hmem, hlt⟩ := hstep ih.1 hcall
    exact ⟨hmem, hlt.trans ih.2⟩

/-- Where dependencies are listed there is no obstacle. -/
theorem DependencyOrder.searchable {deps : List Recurrence} (h : c.DependencyOrder root deps) :
    c.Searchable root where
  registered := by
    intro n hn
    obtain ⟨s, hs, rfl⟩ := List.mem_map.1 ((h.mem_iff n).2 hn)
    exact has_iff.2 ⟨s, h.listed.registered s hs⟩
  root_acyclic := fun hcycle => h.not_root ((h.mem_iff _).2 hcycle)
  acyclic := fun n hn hcycle => lt_irrefl _ (h.idxOf_lt ((h.mem_iff n).2 hn) hcycle).2

/-- An obstacle is an unregistered name or a cycle that the root leads to. -/
theorem Searchable.not_obstacle (h : c.Searchable root) :
    ¬c.Obstacle (c.from? root) root.name := by
  rintro (⟨hreach, hnone⟩ | ⟨hreach, hcycle⟩)
  · obtain ⟨r, hr⟩ := has_iff.1 (h.registered _ hreach)
    cases hnone.symm.trans hr
  · rcases Relation.reflTransGen_iff_eq_or_transGen.1 hreach with rfl | hreach
    · exact h.root_acyclic hcycle
    · exact h.acyclic _ hreach hcycle

/-! ## The bound on the depth -/

/-- **The bound does not matter**: two searches along one path whose bounds are large enough have the
same outcome, by induction on the first bound. -/
theorem visit_eq_of_onPath {start : String} {fuel fuel' : Nat} {path : List String}
    {done : List Recurrence} {r : Recurrence} (hpath : c.OnPath start fuel path)
    (hpath' : c.OnPath start fuel' path) :
    c.visit start fuel path done r = c.visit start fuel' path done r := by
  induction fuel generalizing fuel' path done r with
  | zero => exact absurd hpath.fuel_pos (by simp)
  | succ fuel ih =>
    obtain ⟨fuel', rfl⟩ := Nat.exists_eq_add_of_lt hpath'.fuel_pos
    rw [Nat.zero_add] at hpath' ⊢
    have hcallee : c.visitCallee start fuel path = c.visitCallee start fuel' path := by
      funext done dep
      unfold visitCallee
      split
      · rfl
      · split
        · rfl
        · next hdep =>
          cases htarget : c.require dep with
          | error e => rfl
          | ok target =>
            have hhas : c.has dep := has_iff.2 ⟨target, get?_of_require htarget⟩
            have hnew : dep ∉ path := by simpa using hdep
            change (do let done ← c.visit start fuel (dep :: path) done target; _) = _
            rw [ih (hpath.push hnew hhas) (hpath'.push hnew hhas)]
            rfl
    rw [visit_succ, visit_succ, hcallee]

/-- A bound of the size of the catalog, and one more for the root, is large enough. -/
theorem visit_eq_dependenciesOf {fuel : Nat} (hfuel : c.size + 1 ≤ fuel) :
    c.visit root.name fuel [root.name] [] root = c.dependenciesOf root :=
  visit_eq_of_onPath { onPath_root c root.name with bound := by simp; omega } (onPath_root c root.name)

/-! ## Correctness -/

/-- **The search for dependencies is correct on every catalog and from every recurrence.** It lists
what the recurrence leads to exactly if that is registered and free of cycles, and gives the error of
a definition otherwise; a greater bound on its depth changes nothing. -/
theorem dependenciesOf_iff_searchable (c : Catalog) (root : Recurrence) :
    ((∃ deps, c.dependenciesOf root = .ok deps) ↔ c.Searchable root) ∧
      (∀ deps, c.dependenciesOf root = .ok deps → c.DependencyOrder root deps) ∧
      (¬c.Searchable root → ∃ cause, c.dependenciesOf root = .error (.definition cause)) ∧
      ∀ fuel, c.size + 1 ≤ fuel →
        c.visit root.name fuel [root.name] [] root = c.dependenciesOf root := by
  have hlisted : ∀ deps, c.dependenciesOf root = .ok deps → c.DependencyOrder root deps :=
    fun deps => dependencyOrder_of_dependenciesOf
  refine ⟨⟨fun ⟨deps, hdeps⟩ => (hlisted deps hdeps).searchable, fun h => ?_⟩, hlisted, fun h => ?_,
    fun fuel => visit_eq_dependenciesOf⟩
  · cases hdeps : c.dependenciesOf root with
    | ok deps => exact ⟨deps, rfl⟩
    | error e =>
      have hobstacle := (obstacle_of_dependenciesOf from?_root from?_of_ne hdeps).2
      exact (h.not_obstacle hobstacle).elim
  · cases hdeps : c.dependenciesOf root with
    | ok deps => exact (h (hlisted deps hdeps).searchable).elim
    | error e =>
      obtain ⟨⟨cause, rfl⟩, -⟩ := obstacle_of_dependenciesOf from?_root from?_of_ne hdeps
      exact ⟨cause, rfl⟩

/-! ## An example -/

/-- A recurrence with one index and one rule. -/
def sampleEntry (name body : String) : Except Error Recurrence := do
  let r ← Recurrence.create name ["n"] [] {}
  r.build [.base [("n", 0.0)] (.number 1.0), .rule "n > 0" body none none]

/-- Two ways lead from the first entry down to the last one, and one entry is on neither. -/
def diamond : Except Error Catalog := do
  let top ← sampleEntry "Top" "Left[n-1] + Right[n-1]"
  let other ← sampleEntry "Other" "Base[n-1]"
  let left ← sampleEntry "Left" "Base[n-1] + E[n-1]"
  let right ← sampleEntry "Right" "2*Base[n-1]"
  let base ← sampleEntry "Base" "E[n-1]"
  [other, left, right, base].foldlM (fun c r => c.register r userModule)
    (← ({} : Catalog).register top userModule)

/-- How far up an entry of the diamond stands, or a recurrence that calls the first one. -/
def diamondRank (name : String) : Nat :=
  if name = "Other" then 4 else if name = "Above" then 3 else if name = "Top" then 2
  else if name = "Base" then 0 else 1

section
variable {rank : String → Nat} (hroot : ∀ d, root.Calls d → c.has d ∧ rank d < rank root.name)
  (hall : ∀ r ∈ c.all, ∀ d, r.Calls d → c.has d ∧ rank d < rank r.name)
include hroot hall

/-- What holds of the calls of the root and of the entries holds of all calls in a search. -/
theorem calls_of_from? {n : String} {r : Recurrence} (hr : c.from? root n = some r) {d : String}
    (hd : r.Calls d) : c.has d ∧ rank d < rank n := by
  unfold from? at hr
  split at hr
  · next hn =>
    obtain rfl := Option.some.inj hr
    exact hn ▸ hroot d hd
  · exact name_of_get? hr ▸ hall r (mem_all_of_get? hr) d hd

theorem rank_lt_of_leadsTo {n m : String} (h : c.LeadsTo root n m) : rank m < rank n :=
  rank_lt_of_leads (fun _ _ hr _ hd => (calls_of_from? hroot hall hr hd).2) h

/-- Ranks that fall along every call, and names that are all registered, make a search succeed. -/
theorem searchable_of_rank : c.Searchable root := by
  have hdown : ∀ n, ¬c.LeadsTo root n n := fun n hn => lt_irrefl _ (rank_lt_of_leadsTo hroot hall hn)
  refine ⟨fun n hn => ?_, hdown _, fun n _ => hdown n⟩
  obtain ⟨m, -, r, hr, hd⟩ := Relation.TransGen.tail'_iff.1 hn
  exact (calls_of_from? hroot hall hr hd).1

end

theorem crossCalls_of_contains {find : String → Option Recurrence} {a b : String}
    (h : ((find a).any fun r => r.dependencies.contains b) = true) : CrossCalls find a b := by
  obtain ⟨r, hr, hb⟩ := Option.any_eq_true _ _ |>.1 h
  exact ⟨r, hr, Recurrence.mem_dependencies.1 (List.contains_iff_mem.1 hb)⟩

/-- Searches in the diamond. One from an entry is run, so all that it calls is registered and on no
cycle. One from above, whose root is not registered, succeeds because calls lead down and to entries, and
lists what can be reached. One from another recurrence under the name of the last entry is on a cycle
through its root, and one more calls a name that is missing: both are refused. -/
theorem dependenciesOf_iff_searchable_diamond : ∃ c top above loop lost, diamond = .ok c ∧
    c.get? "Top" = some top ∧ sampleEntry "Above" "Top[n-1] + E[n-1]" = .ok above ∧
    sampleEntry "Base" "Top[n-1]" = .ok loop ∧ sampleEntry "Lost" "Missing[n-1]" = .ok lost ∧
    (c.dependenciesOf top).toOption.map (·.map (·.name)) = some ["Base", "Left", "Right"] ∧
    c.Searchable top ∧
    c.Searchable above ∧ (∃ deps, c.dependenciesOf above = .ok deps ∧ c.DependencyOrder above deps ∧
      "Base" ∈ deps.map (·.name) ∧ "Other" ∉ deps.map (·.name)) ∧
    ¬c.Searchable loop ∧ (∃ cause, c.dependenciesOf loop = .error (.definition cause)) ∧
    ¬c.Searchable lost ∧ ∃ cause, c.dependenciesOf lost = .error (.definition cause) := by
  have hcheck : (diamond.toOption.any fun c => (c.get? "Top").any fun top =>
      (sampleEntry "Above" "Top[n-1] + E[n-1]").toOption.any fun above =>
      (sampleEntry "Base" "Top[n-1]").toOption.any fun loop =>
      (sampleEntry "Lost" "Missing[n-1]").toOption.any fun lost =>
        (c.dependenciesOf top).toOption.map (·.map (·.name)) == some ["Base", "Left", "Right"] &&
        (above :: c.all).all (fun r => r.dependencies.all fun d =>
          c.has d && decide (diamondRank d < diamondRank r.name)) &&
        above.name == "Above" && loop.name == "Base" && lost.name == "Lost" &&
        [("Above", "Top"), ("Top", "Left"), ("Left", "Base")].all (fun p =>
          (c.from? above p.1).any fun r => r.dependencies.contains p.2) &&
        [("Base", "Top"), ("Top", "Left"), ("Left", "Base")].all (fun p =>
          (c.from? loop p.1).any fun r => r.dependencies.contains p.2) &&
        (c.from? lost "Lost").any (fun r => r.dependencies.contains "Missing") &&
        !c.has "Missing") = true := by
    decide +kernel
  obtain ⟨c, hc, hcheck⟩ := exists_ok_of_any hcheck
  obtain ⟨top, htop, hcheck⟩ := Option.any_eq_true _ _ |>.1 hcheck
  obtain ⟨above, habove, hcheck⟩ := exists_ok_of_any hcheck
  obtain ⟨loop, hloop, hcheck⟩ := exists_ok_of_any hcheck
  obtain ⟨lost, hlost, hcheck⟩ := exists_ok_of_any hcheck
  simp only [Bool.and_eq_true, beq_iff_eq, List.all_cons, List.all_nil, Bool.not_eq_true'] at hcheck
  obtain ⟨⟨⟨⟨⟨⟨⟨⟨hlisted, hfall, hentries⟩, haname⟩, hlname⟩, htname⟩, hdown⟩, hcycle⟩, hcall⟩, hmissing⟩ :=
    hcheck
  have hranks {r : Recurrence} (h : (r.dependencies.all fun d =>
      c.has d && decide (diamondRank d < diamondRank r.name)) = true) :
      ∀ d, r.Calls d → c.has d ∧ diamondRank d < diamondRank r.name := fun d hd => by
    simpa using List.all_eq_true.1 h d (Recurrence.mem_dependencies.2 hd)
  have hall : ∀ r ∈ c.all, ∀ d, r.Calls d → c.has d ∧ diamondRank d < diamondRank r.name :=
    fun r hr => hranks (List.all_eq_true.1 hentries r hr)
  have hsearchable : c.Searchable above := searchable_of_rank (hranks hfall) hall
  obtain ⟨deps, hdeps⟩ := (dependenciesOf_iff_searchable c above).1.2 hsearchable
  have horder := (dependenciesOf_iff_searchable c above).2.1 deps hdeps
  have hnotLoop : ¬c.Searchable loop := fun h => h.root_acyclic <| hlname ▸
    .head (crossCalls_of_contains hcycle.1) (.head (crossCalls_of_contains hcycle.2.1)
      (.single (crossCalls_of_contains hcycle.2.2.1)))
  have hnotLost : ¬c.Searchable lost := fun h => by
    have hhas := h.registered "Missing" (htname ▸ .single (crossCalls_of_contains hcall))
    rw [hmissing] at hhas
    cases hhas
  refine ⟨c, top, above, loop, lost, hc, htop, habove, hloop, hlost, hlisted, ?_, hsearchable,
    ⟨deps, hdeps, horder, ?_, ?_⟩, hnotLoop, ?_, hnotLost, ?_⟩
  · obtain ⟨list, hlist, -⟩ := Option.map_eq_some_iff.1 hlisted
    obtain ⟨out, hout⟩ : ∃ out, c.dependenciesOf top = .ok out := by
      cases hrun : c.dependenciesOf top with
      | ok out => exact ⟨out, rfl⟩
      | error e => simp [hrun, Except.toOption] at hlist
    exact (dependenciesOf_iff_searchable c top).1.1 ⟨out, hout⟩
  · refine (horder.mem_iff "Base").2 (haname ▸ ?_)
    exact .head (crossCalls_of_contains hdown.1) (.head (crossCalls_of_contains hdown.2.1)
      (.single (crossCalls_of_contains hdown.2.2.1)))
  · intro hother
    have hlt := rank_lt_of_leadsTo (hranks hfall) hall ((horder.mem_iff "Other").1 hother)
    rw [haname] at hlt
    exact absurd hlt (by decide)
  · exact (dependenciesOf_iff_searchable c loop).2.2.1 hnotLoop
  · exact (dependenciesOf_iff_searchable c lost).2.2.1 hnotLost

end Catalog

end RecurrenceCompiler
