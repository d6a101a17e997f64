import Mathlib
import RecurrenceCompiler.Catalog.Basic
import RecurrenceCompiler.Proofs.Arith.Grammar
import RecurrenceCompiler.Proofs.Arith.Names

/-!
# The search for dependencies

The calls in the rules of recurrences make a graph of names (`CrossCalls`), whose edges from a
recurrence lead to its dependencies (`mem_dependencies`). `dependenciesOf` searches it depth first from one
recurrence. The path that the search is on has no repetition, so it is never longer than the catalog
and the bound on its length is never met (`OnPath.fuel_pos`). Hence

* what the search returns are the recurrences that can be reached, each once, callees before their
  callers (`mem_dependenciesOf`, `listed_dependenciesOf`);
* it fails only if a name that can be reached is not registered or lies on a cycle
  (`obstacle_of_dependenciesOf`).

The root of a search need not be registered, so the graph is that of a function `find` that gives the
root under its own name and agrees with the catalog on all other names.
-/

namespace RecurrenceCompiler

open Arith

/-- A call in a rule of a recurrence has another name for its target. -/
def Recurrence.Calls (r : Recurrence) (d : String) : Prop :=
  d ≠ r.name ∧ ∃ rule ∈ r.rules, ∃ call ∈ rule.expr.calls, call.target = some d

/-- **The dependencies of a recurrence are what it calls.** -/
theorem Recurrence.mem_dependencies {r : Recurrence} {d : String} : d ∈ r.dependencies ↔ r.Calls d := by
  rw [dependencies, mem_distinct, List.mem_filterMap, Calls]
  constructor
  · rintro ⟨call, hcall, hd⟩
    obtain ⟨rule, hrule, hcall⟩ := List.mem_flatMap.1 hcall
    cases ht : call.target with
    | none => simp [ht] at hd
    | some t =>
      obtain ⟨hne, rfl⟩ : t ≠ r.name ∧ t = d := by simpa [ht] using hd
      exact ⟨hne, rule, hrule, call, hcall, ht⟩
  · rintro ⟨hne, rule, hrule, call, hcall, ht⟩
    exact ⟨call, List.mem_flatMap.2 ⟨rule, hrule, hcall⟩, by simp [ht, hne]⟩

/-- A rule of the recurrence under one name calls another name. -/
def CrossCalls (find : String → Option Recurrence) (a b : String) : Prop :=
  ∃ r, find a = some r ∧ r.Calls b

/-- If every call leads to a lower rank, so do calls one after the other. -/
theorem rank_lt_of_leads {find : String → Option Recurrence} {rank : String → Nat}
    (h : ∀ n r, find n = some r → ∀ d, r.Calls d → rank d < rank n) {a b : String}
    (hab : Relation.TransGen (CrossCalls find) a b) : rank b < rank a := by
  have hstep : ∀ {a b}, CrossCalls find a b → rank b < rank a := by
    rintro a b ⟨r, hr, hd⟩
    exact h a r hr b hd
  induction hab with
  | single hcall => exact hstep hcall
  | tail _ hcall ih => exact (hstep hcall).trans ih

/-- Each recurrence of a list stands after all that it calls. -/
def CalleesFirst (rs : List Recurrence) : Prop :=
  ∀ before r after, rs = before ++ r :: after → ∀ d, r.Calls d → d ∈ before.map (·.name)

theorem calleesFirst_nil : CalleesFirst [] := by
  intro before r after h
  simp at h

/-- One more recurrence, after all that it calls. -/
theorem CalleesFirst.concat {rs : List Recurrence} {r : Recurrence} (h : CalleesFirst rs)
    (hr : ∀ d, r.Calls d → d ∈ rs.map (·.name)) : CalleesFirst (rs ++ [r]) := by
  intro before s after heq
  rcases List.eq_nil_or_concat after with rfl | ⟨init, last, rfl⟩
  · obtain ⟨rfl, hs⟩ := List.append_inj' heq rfl
    obtain rfl := List.singleton_inj.1 hs
    exact hr
  · rw [List.concat_eq_append, ← List.cons_append, ← List.append_assoc] at heq
    obtain ⟨rfl, -⟩ := List.append_inj' heq rfl
    exact h before s init rfl

/-- The front of a list in which callees come first. -/
theorem CalleesFirst.of_concat {rs : List Recurrence} {r : Recurrence}
    (h : CalleesFirst (rs ++ [r])) : CalleesFirst rs ∧ ∀ d, r.Calls d → d ∈ rs.map (·.name) := by
  refine ⟨?_, h rs r [] rfl⟩
  rintro before s after rfl
  exact h before s (after ++ [r]) (by simp)

/-- What a recurrence of the list calls is in the list. -/
theorem CalleesFirst.closed {rs : List Recurrence} (h : CalleesFirst rs) {r : Recurrence}
    (hr : r ∈ rs) : ∀ d, r.Calls d → d ∈ rs.map (·.name) := by
  obtain ⟨before, after, rfl⟩ := List.append_of_mem hr
  intro d hd
  have hmem := h before r after rfl d hd
  simp only [List.map_append, List.mem_append]
  exact .inl hmem

/-- Callees still come first among those that satisfy a test, if it holds of what they call. -/
theorem CalleesFirst.filter {rs : List Recurrence} (h : CalleesFirst rs) {p : Recurrence → Bool}
    (hp : ∀ r ∈ rs, p r → ∀ s ∈ rs, r.Calls s.name → p s) : CalleesFirst (rs.filter p) := by
  induction rs using List.reverseRecOn with
  | nil => exact calleesFirst_nil
  | append_singleton rs r ih =>
    obtain ⟨hrs, hr⟩ := h.of_concat
    have hfront := ih hrs fun t ht hpt s hs => hp t (by simp [ht]) hpt s (by simp [hs])
    rw [List.filter_append, List.filter_singleton]
    cases hpr : p r with
    | false => simpa using hfront
    | true =>
      refine hfront.concat fun d hd => ?_
      obtain ⟨s, hs, rfl⟩ := List.mem_map.1 (hr d hd)
      exact List.mem_map_of_mem
        (List.mem_filter.2 ⟨hs, hp r (by simp) hpr s (by simp [hs]) hd⟩)

namespace Catalog

variable {c : Catalog}

/-! ## Entries -/

/-- A recurrence is found under its name. -/
theorem name_of_get? {n : String} {r : Recurrence} (h : c.get? n = some r) : r.name = n := by
  obtain ⟨e, he, rfl⟩ := Option.map_eq_some_iff.1 h
  have hname : e.name = n := by simpa using List.find?_some he
  exact hname

/-- **A recurrence is registered exactly if it is found under its name**, since names are distinct. -/
theorem mem_all {r : Recurrence} : r ∈ c.all ↔ c.get? r.name = some r := by
  constructor
  · intro h
    obtain ⟨e, he, rfl⟩ := List.mem_map.1 h
    have hsome : (c.entry? e.name).isSome := by
      unfold entry?
      rw [List.find?_isSome]
      exact ⟨e, he, by simp⟩
    obtain ⟨e', he'⟩ := Option.isSome_iff_exists.1 hsome
    have hname : e'.name = e.name := by simpa using List.find?_some he'
    obtain rfl := List.inj_on_of_nodup_map c.nodup (List.mem_of_find?_eq_some he') he hname
    exact Option.map_eq_some_iff.2 ⟨e', he', rfl⟩
  · intro h
    obtain ⟨e, he, rfl⟩ := Option.map_eq_some_iff.1 h
    exact List.mem_map_of_mem (List.mem_of_find?_eq_some he)

theorem mem_all_of_get? {n : String} {r : Recurrence} (h : c.get? n = some r) : r ∈ c.all := by
  rw [mem_all, name_of_get? h]
  exact h

theorem has_iff {n : String} : c.has n = true ↔ ∃ r, c.get? n = some r := by
  simp only [has, get?, Option.isSome_iff_exists, Option.map_eq_some_iff]
  constructor
  · rintro ⟨e, he⟩
    exact ⟨_, e, he, rfl⟩
  · rintro ⟨_, e, he, -⟩
    exact ⟨e, he⟩

/-- What is registered comes last. -/
theorem all_register {c' : Catalog} {r : Recurrence} {m : String} (h : c.register r m = .ok c') :
    c'.all = c.all ++ [r] := by
  unfold register at h
  split at h
  · cases h
  · cases h
    simp [all]

/-- Registered recurrences, each once and after all that it calls. -/
structure Listed (c : Catalog) (rs : List Recurrence) : Prop where
  registered : ∀ r ∈ rs, c.get? r.name = some r
  distinct : (rs.map (·.name)).Nodup
  calleesFirst : CalleesFirst rs

theorem listed_nil : c.Listed [] :=
  ⟨by simp, by simp, calleesFirst_nil⟩

/-- One more recurrence, after all that it calls. -/
theorem Listed.concat {rs : List Recurrence} {r : Recurrence} (h : c.Listed rs)
    (hr : c.get? r.name = some r) (hnew : r.name ∉ rs.map (·.name))
    (hdeps : ∀ d, r.Calls d → d ∈ rs.map (·.name)) : c.Listed (rs ++ [r]) where
  registered := List.forall_mem_append.2 ⟨h.registered, by simpa using hr⟩
  distinct := by
    rw [List.map_append, List.nodup_append]
    refine ⟨h.distinct, by simp, ?_⟩
    rintro a ha b hb rfl
    obtain rfl := List.mem_singleton.1 hb
    exact hnew ha
  calleesFirst := h.calleesFirst.concat hdeps

/-- A listed recurrence is the one under its name. -/
theorem Listed.mem_of_name {rs : List Recurrence} {r : Recurrence} (h : c.Listed rs)
    (hr : c.get? r.name = some r) (hname : r.name ∈ rs.map (·.name)) : r ∈ rs := by
  obtain ⟨s, hs, heq⟩ := List.mem_map.1 hname
  have hreg := h.registered s hs
  rw [heq, hr] at hreg
  exact Option.some.inj hreg ▸ hs

/-! ## One callee -/

/-- What the search does with one callee. -/
def visitCallee (c : Catalog) (root : String) (fuel : Nat) (path : List String)
    (done : List Recurrence) (dep : String) : Except Error (List Recurrence) :=
  if done.any fun d => d.name == dep then .ok done
  else if path.contains dep then .error (.definition (.cyclic root dep))
  else do
    let target ← c.require dep
    let done ← c.visit root fuel (dep :: path) done target
    return done ++ [target]

theorem visit_succ (root : String) (fuel : Nat) (path : List String) (done : List Recurrence)
    (r : Recurrence) : c.visit root (fuel + 1) path done r =
      r.dependencies.foldlM (c.visitCallee root fuel path) done := rfl

theorem any_name {done : List Recurrence} {dep : String} :
    (done.any fun d => d.name == dep) = true ↔ dep ∈ done.map (·.name) := by
  simp

theorem get?_of_require {n : String} {r : Recurrence} (h : c.require n = .ok r) :
    c.get? n = some r := by
  unfold require at h
  split at h
  · next hget =>
    cases h
    exact hget
  · cases h

/-- A callee is in the list already, or it is searched and then added. -/
theorem visitCallee_eq_ok {root : String} {fuel : Nat} {path : List String}
    {done out : List Recurrence} {dep : String}
    (h : c.visitCallee root fuel path done dep = .ok out) :
    (dep ∈ done.map (·.name) ∧ out = done) ∨
      dep ∉ done.map (·.name) ∧ dep ∉ path ∧ ∃ target mid, c.get? dep = some target ∧
        c.visit root fuel (dep :: path) done target = .ok mid ∧ out = mid ++ [target] := by
  unfold visitCallee at h
  split at h
  · next hmem =>
    cases h
    exact .inl ⟨any_name.1 hmem, rfl⟩
  · next hmem =>
    split at h
    · cases h
    · next hpath =>
      obtain ⟨target, htarget, h⟩ := bind_ok h
      obtain ⟨mid, hmid, h⟩ := bind_ok h
      cases h
      exact .inr ⟨fun hin => hmem (any_name.2 hin), by simpa using hpath, target, mid,
        get?_of_require htarget, hmid, rfl⟩

/-- A callee is refused if it is on the path, is not registered, or its own search fails. -/
theorem visitCallee_eq_error {root : String} {fuel : Nat} {path : List String}
    {done : List Recurrence} {dep : String} {e : Error}
    (h : c.visitCallee root fuel path done dep = .error e) :
    (dep ∈ path ∧ e = .definition (.cyclic root dep)) ∨
      (c.get? dep = none ∧ e = .definition (.unknown dep)) ∨
        dep ∉ path ∧ ∃ target, c.get? dep = some target ∧
          c.visit root fuel (dep :: path) done target = .error e := by
  unfold visitCallee at h
  split at h
  · cases h
  · split at h
    · next hpath =>
      cases h
      exact .inl ⟨by simpa using hpath, rfl⟩
    · next hpath =>
      rcases bind_error h with h | ⟨target, htarget, h⟩
      · unfold require at h
        split at h
        · cases h
        · next hget =>
          cases h
          exact .inr (.inl ⟨hget, rfl⟩)
      · refine .inr (.inr ⟨by simpa using hpath, target, get?_of_require htarget, ?_⟩)
        rcases bind_error h with h | ⟨mid, -, h⟩
        · exact h
        · cases h

/-! ## The path of a search -/

/-- The path that a search is on, with the bound on how much longer it may get. -/
structure OnPath (c : Catalog) (root : String) (fuel : Nat) (path : List String) : Prop where
  root_mem : root ∈ path
  nodup : path.Nodup
  registered : ∀ n ∈ path, n = root ∨ c.has n
  bound : c.size + 2 ≤ fuel + path.length

/-- A callee that is not on the path goes on it. -/
theorem OnPath.push {root : String} {fuel : Nat} {path : List String}
    (h : c.OnPath root (fuel + 1) path) {dep : String} (hdep : dep ∉ path) (hhas : c.has dep) :
    c.OnPath root fuel (dep :: path) where
  root_mem := List.mem_cons_of_mem _ h.root_mem
  nodup := List.nodup_cons.2 ⟨hdep, h.nodup⟩
  registered := List.forall_mem_cons.2 ⟨.inr hhas, h.registered⟩
  bound := by
    have := h.bound
    rw [List.length_cons]
    omega

/-- **The bound is never met**: a path without repetition consists of the root and entries. -/
theorem OnPath.fuel_pos {root : String} {fuel : Nat} {path : List String}
    (h : c.OnPath root fuel path) : 0 < fuel := by
  have hsub : path ⊆ root :: c.entries.map CatalogEntry.name := by
    intro n hn
    rcases h.registered n hn with rfl | hhas
    · simp
    · obtain ⟨e, he⟩ := Option.isSome_iff_exists.1 hhas
      have hname : e.name = n := by simpa using List.find?_some he
      exact List.mem_cons_of_mem _ (hname ▸ List.mem_map_of_mem (List.mem_of_find?_eq_some he))
  have hlen := (List.subperm_of_subset h.nodup hsub).length_le
  rw [List.length_cons, List.length_map] at hlen
  have := h.bound
  rw [size] at this
  omega

/-! ## What a search adds -/

section

variable {root : Recurrence} {find : String → Option Recurrence}

/-- What a search from a name has made of a list. -/
structure Visited (c : Catalog) (find : String → Option Recurrence) (path : List String)
    (start : String) (done out : List Recurrence) : Prop where
  listed : c.Listed out
  kept : done ⊆ out
  off_path : ∀ n ∈ path, n ∉ out.map (·.name)
  reached : ∀ s ∈ out, s ∈ done ∨ Relation.TransGen (CrossCalls find) start s.name

/-- A list to which a search has added nothing yet. -/
theorem Visited.refl {path : List String} {start : String} {done : List Recurrence}
    (hdone : c.Listed done) (hpath : ∀ n ∈ path, n ∉ done.map (·.name)) :
    c.Visited find path start done done :=
  ⟨hdone, List.Subset.refl _, hpath, fun _ hs => .inl hs⟩

/-- One search after another. -/
theorem Visited.trans {path : List String} {start : String} {done mid out : List Recurrence}
    (h : c.Visited find path start done mid) (h' : c.Visited find path start mid out) :
    c.Visited find path start done out where
  listed := h'.listed
  kept := List.Subset.trans h.kept h'.kept
  off_path := h'.off_path
  reached := fun s hs => (h'.reached s hs).elim (h.reached s) .inr

/-- A callee is added after the search from it. -/
theorem Visited.callee {path : List String} {start dep : String} {done mid : List Recurrence}
    {target : Recurrence} (h : c.Visited find (dep :: path) dep done mid)
    (hcall : CrossCalls find start dep) (htarget : c.get? dep = some target) (hdep : dep ∉ path)
    (hdeps : ∀ d, target.Calls d → d ∈ mid.map (·.name)) :
    c.Visited find path start done (mid ++ [target]) := by
  have hname := name_of_get? htarget
  refine ⟨h.listed.concat (hname ▸ htarget) (hname ▸ h.off_path dep (by simp)) hdeps,
    List.subset_append_of_subset_left _ h.kept, fun n hn => ?_, List.forall_mem_append.2 ⟨?_, ?_⟩⟩
  · rw [List.map_append, List.mem_append, not_or]
    refine ⟨h.off_path n (by simp [hn]), ?_⟩
    rintro hmem
    obtain rfl := List.mem_singleton.1 hmem
    exact hdep (hname ▸ hn)
  · exact fun s hs => (h.reached s hs).imp id (.head hcall)
  · rintro s hs
    obtain rfl := List.mem_singleton.1 hs
    exact .inr (hname ▸ .single hcall)

/-- **A search lists all that the recurrence calls**, by induction on the bound and along the
callees. -/
theorem visited_of_visit (hfind : ∀ n, n ≠ root.name → find n = c.get? n) {fuel : Nat}
    {path : List String} {done out : List Recurrence} {r : Recurrence}
    (hpath : c.OnPath root.name fuel path) (hr : find r.name = some r) (hdone : c.Listed done)
    (hoff : ∀ n ∈ path, n ∉ done.map (·.name))
    (h : c.visit root.name fuel path done r = .ok out) :
    c.Visited find path r.name done out ∧ ∀ d, r.Calls d → d ∈ out.map (·.name) := by
  induction fuel generalizing path done out r with
  | zero => exact absurd hpath.fuel_pos (by simp)
  | succ fuel ih =>
    rw [visit_succ] at h
    have hcalls : ∀ d ∈ r.dependencies, CrossCalls find r.name d := fun d hd =>
      ⟨r, hr, Recurrence.mem_dependencies.1 hd⟩
    simp only [← Recurrence.mem_dependencies]
    generalize r.dependencies = deps at h hcalls ⊢
    induction deps generalizing done with
    | nil =>
      cases h
      exact ⟨.refl hdone hoff, by simp⟩
    | cons dep deps ihdeps =>
      rw [List.foldlM_cons] at h
      obtain ⟨next, hnext, h⟩ := bind_ok h
      rw [List.forall_mem_cons] at hcalls
      -- The callee is in the list after its turn, and stays there.
      obtain ⟨hstep, hmem⟩ :
          c.Visited find path r.name done next ∧ dep ∈ next.map (·.name) := by
        rcases visitCallee_eq_ok hnext with ⟨hmem, rfl⟩ | ⟨hnew, hdep, target, mid, htarget, hmid, rfl⟩
        · exact ⟨.refl hdone hoff, hmem⟩
        · have hname := name_of_get? htarget
          have hroot : dep ≠ root.name := fun heq => hdep (heq ▸ hpath.root_mem)
          have hvisit := ih (hpath.push hdep (has_iff.2 ⟨target, htarget⟩))
            (by rw [hname, hfind dep hroot, htarget]) hdone
            (List.forall_mem_cons.2 ⟨hnew, hoff⟩) hmid
          rw [hname] at hvisit
          exact ⟨hvisit.1.callee hcalls.1 htarget hdep hvisit.2, by simp [hname]⟩
      obtain ⟨hrest, hdeps⟩ := ihdeps hstep.listed hstep.off_path h hcalls.2
      refine ⟨hstep.trans hrest, List.forall_mem_cons.2 ⟨?_, hdeps⟩⟩
      obtain ⟨s, hs, rfl⟩ := List.mem_map.1 hmem
      exact List.mem_map_of_mem (hrest.kept hs)

/-! ## Why a search fails -/

/-- What a search cannot get past: a name that is not registered, or a cycle. -/
inductive Obstacle (c : Catalog) (find : String → Option Recurrence) (start : String) : Prop
  | unregistered {n : String} : Relation.TransGen (CrossCalls find) start n → c.get? n = none →
      Obstacle c find start
  | cyclic {n : String} : Relation.ReflTransGen (CrossCalls find) start n →
      Relation.TransGen (CrossCalls find) n n → Obstacle c find start

/-- **A search fails only at an obstacle**: every name on the path leads to the recurrence that is
searched, so a callee on the path closes a cycle. -/
theorem obstacle_of_visit (hfind : ∀ n, n ≠ root.name → find n = c.get? n) {fuel : Nat}
    {path : List String} {done : List Recurrence} {r : Recurrence} {e : Error}
    (hroot : root.name ∈ path) (hr : find r.name = some r)
    (hpath : ∀ n ∈ path, Relation.ReflTransGen (CrossCalls find) root.name n ∧
      Relation.ReflTransGen (CrossCalls find) n r.name)
    (h : c.visit root.name fuel path done r = .error e) :
    (∃ cause, e = .definition cause) ∧ c.Obstacle find root.name := by
  induction fuel generalizing path done r with
  | zero => cases h
  | succ fuel ih =>
    rw [visit_succ] at h
    have hcalls : ∀ d ∈ r.dependencies, CrossCalls find r.name d := fun d hd =>
      ⟨r, hr, Recurrence.mem_dependencies.1 hd⟩
    generalize r.dependencies = deps at h hcalls
    induction deps generalizing done with
    | nil => cases h
    | cons dep deps ihdeps =>
      rw [List.foldlM_cons] at h
      rw [List.forall_mem_cons] at hcalls
      rcases bind_error h with h | ⟨next, -, h⟩
      · have hfrom := (hpath root.name hroot).2
        rcases visitCallee_eq_error h with ⟨hdep, rfl⟩ | ⟨hget, rfl⟩ | ⟨hdep, target, htarget, h⟩
        · obtain ⟨hreach, hback⟩ := hpath dep hdep
          exact ⟨⟨_, rfl⟩, .cyclic hreach (.tail' hback hcalls.1)⟩
        · exact ⟨⟨_, rfl⟩, .unregistered (.tail' hfrom hcalls.1) hget⟩
        · have hname := name_of_get? htarget
          have hne : dep ≠ root.name := fun heq => hdep (heq ▸ hroot)
          refine ih (List.mem_cons_of_mem _ hroot) (by rw [hname, hfind dep hne, htarget]) ?_ h
          rw [hname]
          refine List.forall_mem_cons.2 ⟨⟨hfrom.tail hcalls.1, .refl⟩, fun n hn => ?_⟩
          exact ⟨(hpath n hn).1, (hpath n hn).2.tail hcalls.1⟩
      · exact ihdeps h hcalls.2

/-! ## Dependencies -/

theorem onPath_root (c : Catalog) (root : String) : c.OnPath root (c.size + 1) [root] where
  root_mem := by simp
  nodup := by simp
  registered := by simp
  bound := by simp

variable (hroot : find root.name = some root) (hfind : ∀ n, n ≠ root.name → find n = c.get? n)
include hroot hfind

/-- **Dependencies are listed callees first**, all that the root calls among them and the root
not. -/
theorem listed_dependenciesOf {deps : List Recurrence} (h : c.dependenciesOf root = .ok deps) :
    c.Listed deps ∧ root.name ∉ deps.map (·.name) ∧
      ∀ d, root.Calls d → d ∈ deps.map (·.name) := by
  obtain ⟨hvisited, hcallees⟩ := visited_of_visit hfind (onPath_root c root.name) hroot listed_nil
    (by simp) h
  exact ⟨hvisited.listed, hvisited.off_path root.name (by simp), hcallees⟩

/-- What the root leads to is listed, since the list holds all that its elements call. -/
theorem mem_names_of_leads {deps : List Recurrence} (h : c.dependenciesOf root = .ok deps)
    {n : String} (hreach : Relation.TransGen (CrossCalls find) root.name n) :
    n ∈ deps.map (·.name) := by
  obtain ⟨hlisted, hnot, hcallees⟩ := listed_dependenciesOf hroot hfind h
  induction hreach with
  | single hcall =>
    obtain ⟨r, hr, hd⟩ := hcall
    rw [hroot] at hr
    cases hr
    exact hcallees _ hd
  | tail _ hcall ih =>
    obtain ⟨r, hr, hd⟩ := hcall
    obtain ⟨t, ht, rfl⟩ := List.mem_map.1 ih
    rw [hfind _ fun heq => hnot (heq ▸ ih), hlisted.registered t ht] at hr
    cases hr
    exact hlisted.calleesFirst.closed ht _ hd

/-- **The dependencies are what can be reached by cross calls.** -/
theorem mem_dependenciesOf {deps : List Recurrence} (h : c.dependenciesOf root = .ok deps)
    {s : Recurrence} : s ∈ deps ↔ c.get? s.name = some s ∧
      Relation.TransGen (CrossCalls find) root.name s.name := by
  obtain ⟨hvisited, -⟩ := visited_of_visit hfind (onPath_root c root.name) hroot listed_nil
    (by simp) h
  constructor
  · intro hs
    exact ⟨hvisited.listed.registered s hs, (hvisited.reached s hs).resolve_left (by simp)⟩
  · rintro ⟨hs, hreach⟩
    exact hvisited.listed.mem_of_name hs (mem_names_of_leads hroot hfind h hreach)

/-- **Dependencies cannot be listed only if there is an obstacle.** -/
theorem obstacle_of_dependenciesOf {e : Error} (h : c.dependenciesOf root = .error e) :
    (∃ cause, e = .definition cause) ∧ c.Obstacle find root.name := by
  refine obstacle_of_visit hfind (by simp) hroot ?_ h
  simpa using .refl

end

end Catalog

end RecurrenceCompiler
