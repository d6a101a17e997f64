import RecurrenceCompiler.Recurrence.Basic
import RecurrenceCompiler.Text.Lowercase

/-!
# Catalogs

A catalog holds recurrences under their names, in the order of registration, each in a module. Cross
calls name entries of the catalog. `dependenciesOf` lists what a recurrence calls, directly or not,
callees before their callers; it fails on a name that is not registered and on a cycle.
-/

namespace RecurrenceCompiler

open Text

/-- A registered recurrence. -/
structure CatalogEntry where
  recurrence : Recurrence
  /-- The module it belongs to. -/
  moduleName : String

/-- The name under which an entry is registered. -/
def CatalogEntry.name (e : CatalogEntry) : String :=
  e.recurrence.name

/-- Recurrences with distinct names, in the order of registration. -/
structure Catalog where
  entries : List CatalogEntry := []
  nodup : (entries.map CatalogEntry.name).Nodup := by exact List.nodup_nil

/-- The module of recurrences that name none. -/
def userModule : String := "user"

namespace Catalog

variable (c : Catalog)

/-- The entry under a name. -/
def entry? (name : String) : Option CatalogEntry :=
  c.entries.find? fun e => e.name == name

/-- Whether a name is registered. -/
def has (name : String) : Bool :=
  (c.entry? name).isSome

/-- The recurrence under a name. -/
def get? (name : String) : Option Recurrence :=
  (c.entry? name).map (·.recurrence)

/-- The recurrence under a name that must be registered. -/
def require (name : String) : Except Error Recurrence :=
  match c.get? name with
  | some r => .ok r
  | none => .error (.definition (.unknown name))

/-- The module of a name. -/
def moduleOf? (name : String) : Option String :=
  (c.entry? name).map (·.moduleName)

/-- A name without an entry is new. -/
theorem not_mem_of_not_has {c : Catalog} {name : String} (h : ¬c.has name = true) :
    name ∉ c.entries.map CatalogEntry.name := by
  intro hm
  obtain ⟨e, he, rfl⟩ := List.mem_map.1 hm
  refine h ?_
  simp only [has, entry?, List.find?_isSome]
  exact ⟨e, he, by simp⟩

/-- The catalog with one more recurrence. Its name must be new. -/
def register (r : Recurrence) (moduleName : String) : Except Error Catalog :=
  if h : c.has r.name then .error (.definition (.duplicate r.name))
  else .ok {
    entries := c.entries ++ [⟨r, moduleName⟩]
    nodup := by
      simp only [List.map_append, List.map_cons, List.map_nil]
      refine List.nodup_append.2 ⟨c.nodup, by simp, ?_⟩
      intro a ha b hb hab
      subst hab
      simp only [List.mem_singleton] at hb
      have hr : a = r.name := hb
      exact not_mem_of_not_has h (hr ▸ ha) }

/-- The number of entries. -/
def size : Nat :=
  c.entries.length

/-- The recurrences in the order of registration. -/
def all : List Recurrence :=
  c.entries.map (·.recurrence)

/-- The modules, in the order of their first entries. -/
def modules : List String :=
  Arith.distinct (c.entries.map (·.moduleName))

/-- The recurrences of a module. -/
def byModule (moduleName : String) : List Recurrence :=
  (c.entries.filter fun e => e.moduleName == moduleName).map (·.recurrence)

/-- Whether a text contains a query, both in lower case. -/
def matchesQuery (query : List Char) (text : String) : Bool :=
  Text.contains query (lowercase text).toList

/-- The recurrences whose name, module or description contains a text, case aside. -/
def search (query : String) : List Recurrence :=
  let q := (lowercase query).toList
  (c.entries.filter fun e =>
    matchesQuery q e.name || matchesQuery q e.moduleName ||
      matchesQuery q e.recurrence.description).map (·.recurrence)

/-- Add what a recurrence calls to a list that holds callees before their callers. The path leads
from the root to the recurrence; the fuel bounds how much longer it may get. -/
def visit (root : String) :
    Nat → List String → List Recurrence → Recurrence → Except Error (List Recurrence)
  | 0, _, done, _ => .ok done
  | fuel + 1, path, done, r =>
    r.dependencies.foldlM (fun done dep =>
      if done.any fun d => d.name == dep then .ok done
      else if path.contains dep then .error (.definition (.cyclic root dep))
      else do
        let target ← c.require dep
        let done ← visit root fuel (dep :: path) done target
        return done ++ [target]) done

/-- What a recurrence calls, directly or not, callees before their callers. A path without
repetition has at most one step an entry, so the fuel suffices. -/
def dependenciesOf (r : Recurrence) : Except Error (List Recurrence) :=
  c.visit r.name (c.size + 1) [r.name] [] r

/-- Append recurrences that are not yet in a list. -/
def place (placed rs : List Recurrence) : List Recurrence :=
  rs.foldl (fun placed r => if placed.any fun p => p.name == r.name then placed else placed ++ [r])
    placed

/-- Recurrences, each after those that it calls. -/
def closure (rs : List Recurrence) : Except Error (List Recurrence) :=
  rs.foldlM (fun placed r => do
    let deps ← c.dependenciesOf r
    return place placed (deps ++ [r])) []

/-- All recurrences, each after those that it calls. -/
def ordered : Except Error (List Recurrence) :=
  c.closure c.all

/-- What is wrong with a cross call, if anything: its target is not registered or has another number
of indices. -/
def callProblem? (r : Recurrence) (rule : Nat) (call : Call) : Option String :=
  call.target.bind fun t =>
    match c.get? t with
    | none => some (r.name ++ ": rule " ++ toString rule ++ " calls unknown recurrence " ++ t)
    | some target =>
      if target.indices.length == r.indices.length then none
      else some (r.name ++ ": rule " ++ toString rule ++ " calls " ++ t ++ " with " ++
        toString r.indices.length ++ " indices, it takes " ++ toString target.indices.length)

/-- The problems of all cross calls. -/
def problems : List String :=
  c.all.flatMap fun r => r.rules.flatMap fun rule =>
    rule.expr.calls.filterMap (c.callProblem? r rule.index)

end Catalog

end RecurrenceCompiler
