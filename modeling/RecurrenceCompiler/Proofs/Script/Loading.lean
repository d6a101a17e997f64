import RecurrenceCompiler.Proofs.Arith.Grammar
import RecurrenceCompiler.Proofs.Json.Fields
import RecurrenceCompiler.Script.Program

/-!
# Loading in order

A script that cannot be read is malformed; that is the only error of the reader
(`onlyMalformed_readContent`). So a list of scripts of which each needs only functions that scripts
before it export is never refused for a missing function (`load_ne_missing`).
-/

namespace RecurrenceCompiler

open Arith

namespace Script

/-- A computation that fails at most with a script that is malformed. -/
def OnlyMalformed {α : Type} (x : Except Error α) : Prop :=
  ∀ e, x = .error e → e = malformed

section
variable {α β : Type}

theorem onlyMalformed_ok (a : α) : OnlyMalformed (.ok a) := nofun

theorem OnlyMalformed.bind {x : Except Error α} {f : α → Except Error β} (hx : OnlyMalformed x)
    (hf : ∀ a, OnlyMalformed (f a)) : OnlyMalformed (x >>= f) := by
  intro e h
  rcases bind_error h with h | ⟨a, -, h⟩
  · exact hx e h
  · exact hf a e h

theorem OnlyMalformed.mapM {f : α → Except Error β} (hf : ∀ a, OnlyMalformed (f a)) :
    ∀ xs : List α, OnlyMalformed (xs.mapM f)
  | [] => onlyMalformed_ok _
  | x :: xs => by
    rw [List.mapM_cons]
    exact (hf x).bind fun _ => (OnlyMalformed.mapM hf xs).bind fun _ => onlyMalformed_ok _

theorem onlyMalformed_orMalformed (x : Option α) : OnlyMalformed (orMalformed x) := by
  rintro e h
  cases x with
  | none =>
    cases h
    rfl
  | some a => cases h

theorem onlyMalformed_require (b : Bool) : OnlyMalformed (require b) := by
  rintro e h
  cases b with
  | false =>
    cases h
    rfl
  | true => cases h

end

theorem onlyMalformed_readText (text : String) : OnlyMalformed (readText text) :=
  onlyMalformed_orMalformed _

theorem onlyMalformed_readReturn (text : String) : OnlyMalformed (readReturn text) := by
  rw [readReturn]
  split
  · exact onlyMalformed_ok _
  · exact (onlyMalformed_readText text).bind fun _ => onlyMalformed_ok _

theorem onlyMalformed_readComment (text : String) : OnlyMalformed (readComment text) := by
  rw [readComment]
  split
  · exact onlyMalformed_ok _
  · exact (onlyMalformed_orMalformed _).bind fun _ => onlyMalformed_ok _

mutual

theorem onlyMalformed_readStmt : ∀ s : Stmt String, OnlyMalformed (readStmt s)
  | .comment t => onlyMalformed_readComment t
  | .blank => onlyMalformed_ok _
  | .run _ | .value _ _ | .index _ _ =>
    (onlyMalformed_readText _).bind fun _ => onlyMalformed_ok _
  | .ret v => (onlyMalformed_readReturn v).bind fun _ => onlyMalformed_ok _
  | .retIf c v =>
    (onlyMalformed_readText c).bind fun _ => (onlyMalformed_readReturn v).bind fun _ =>
      onlyMalformed_ok _
  | .write s v =>
    (onlyMalformed_readText s).bind fun _ => (onlyMalformed_readText v).bind fun _ =>
      onlyMalformed_ok _
  | .previous p =>
    (OnlyMalformed.mapM onlyMalformed_readText p.args).bind fun _ => onlyMalformed_ok _
  | .when c body =>
    (onlyMalformed_readText c).bind fun _ => (onlyMalformed_require _).bind fun _ =>
      (onlyMalformed_readStmts body).bind fun _ => onlyMalformed_ok _
  | .loop _ _ body =>
    (onlyMalformed_require _).bind fun _ => (onlyMalformed_require _).bind fun _ =>
      (onlyMalformed_readStmts body).bind fun _ => onlyMalformed_ok _
  | .block body =>
    (onlyMalformed_require _).bind fun _ => (onlyMalformed_readStmts body).bind fun _ =>
      onlyMalformed_ok _

theorem onlyMalformed_readStmts : ∀ ss : List (Stmt String), OnlyMalformed (readStmts ss)
  | [] => onlyMalformed_ok _
  | s :: ss =>
    (onlyMalformed_readStmt s).bind fun _ => (onlyMalformed_readStmts ss).bind fun _ =>
      onlyMalformed_ok _

end

theorem onlyMalformed_readFunction (f : Function String) : OnlyMalformed (readFunction f) :=
  (onlyMalformed_require _).bind fun _ => (onlyMalformed_readStmts _).bind fun _ =>
    onlyMalformed_ok _

theorem onlyMalformed_readCase (f : Family String) (c : LayerCase String) :
    OnlyMalformed (readCase f c) :=
  (onlyMalformed_require _).bind fun _ => (onlyMalformed_readText _).bind fun _ =>
    (onlyMalformed_readText _).bind fun _ => (onlyMalformed_readStmts _).bind fun _ =>
      onlyMalformed_ok _

/-- **A script that cannot be read is malformed.** -/
theorem onlyMalformed_readContent : ∀ c : Content String, OnlyMalformed (readContent c)
  | .functions fs => by
    intro e h
    rw [readContent] at h
    cases hfs : fs.mapM readFunction with
    | error e' =>
      rw [hfs] at h
      cases h
      exact OnlyMalformed.mapM onlyMalformed_readFunction fs e hfs
    | ok gs =>
      rw [hfs] at h
      cases h
  | .family f =>
    (onlyMalformed_require _).bind fun _ => (onlyMalformed_require _).bind fun _ =>
      (OnlyMalformed.mapM (onlyMalformed_readCase f) _).bind fun _ => onlyMalformed_ok _

end Script

/-- A unit needs only functions that some of the given units export. -/
def GeneratedUnit.Ready (before : List GeneratedUnit) (u : GeneratedUnit) : Prop :=
  ∀ d ∈ u.dependencies, ∃ v ∈ before, d ∈ v.exports

/-- A script that exports what its unit does. -/
def GeneratedUnit.IsScript (u : GeneratedUnit) : Prop :=
  ∃ m, u.source = .script m ∧ m.exports = u.exports

namespace Program

/-- A program has all that the given units export. -/
def Provides (p : Program) (us : List GeneratedUnit) : Prop :=
  ∀ u ∈ us, ∀ d ∈ u.exports, (Json.getField? p.exports d).isSome

/-- Exported functions are those of their unit, and the others those of the units that they were of. -/
theorem getField?_exported (es : List String) (n : Nat) (fields : List (String × Nat)) (d : String) :
    Json.getField? (es.foldl (fun fs e => Json.setField fs e n) fields) d =
      if d ∈ es then some n else Json.getField? fields d := by
  induction es generalizing fields with
  | nil => rw [List.foldl_nil, if_neg List.not_mem_nil]
  | cons e es ih =>
    rw [List.foldl_cons, ih, Json.getField?_setField]
    by_cases hd : d ∈ es
    · rw [if_pos hd, if_pos (List.mem_cons_of_mem e hd)]
    · rw [if_neg hd]
      exact if_congr (by simp [hd, eq_comm]) rfl rfl

/-- Exporting functions again loses none of them. -/
theorem isSome_exported {es : List String} {n : Nat} {fields : List (String × Nat)} {d : String}
    (h : d ∈ es ∨ (Json.getField? fields d).isSome) :
    (Json.getField? (es.foldl (fun fs e => Json.setField fs e n) fields) d).isSome := by
  rw [getField?_exported]
  split
  · rfl
  · next hd => exact h.resolve_left hd

/-- What a program provides after one more script, and how that can fail if nothing is missing. -/
theorem add_cases {p : Program} {before : List GeneratedUnit} {u : GeneratedUnit}
    (hp : p.Provides before) (hu : u.Ready before) (hscript : u.IsScript) :
    p.add u = .error Script.malformed ∨ ∃ q, p.add u = .ok q ∧ q.Provides (before ++ [u]) := by
  obtain ⟨m, hm, hexports⟩ := hscript
  have hnone : u.dependencies.filter (fun d => (Json.getField? p.exports d).isNone) = [] := by
    rw [List.filter_eq_nil_iff]
    intro d hd
    obtain ⟨v, hv, hdv⟩ := hu d hd
    simpa [Option.isSome_iff_ne_none] using hp v hv d hdv
  rw [add, hm]
  dsimp only
  rw [hnone]
  cases hread : Script.readContent m.content with
  | error e =>
    rw [Script.onlyMalformed_readContent m.content e hread]
    exact .inl rfl
  | ok content =>
    refine .inr ⟨_, rfl, fun v hv d hd => isSome_exported ?_⟩
    rcases List.mem_append.1 hv with hv | hv
    · exact .inr (hp v hv d hd)
    · obtain rfl := List.mem_singleton.1 hv
      exact .inl (hexports ▸ hd)

/-- Loading goes on without a missing function from any program that provides what came before. -/
theorem foldlM_add_ne_missing {us : List GeneratedUnit} : ∀ {p : Program} {before : List GeneratedUnit},
    p.Provides before → (∀ u ∈ us, u.IsScript) →
    (∀ front u rest, us = front ++ u :: rest → u.Ready (before ++ front)) →
    ∀ r missing, us.foldlM add p ≠ .error (.evaluation (.missingDependencies r missing)) := by
  induction us with
  | nil => exact fun _ _ _ _ _ => nofun
  | cons u us ih =>
    intro p before hp hscript hready r missing h
    rw [List.forall_mem_cons] at hscript
    have hu : u.Ready before := by simpa using hready [] u us rfl
    rw [List.foldlM_cons] at h
    rcases add_cases hp hu hscript.1 with hadd | ⟨q, hadd, hq⟩
    · rw [hadd] at h
      cases h
    · rw [hadd] at h
      refine ih hq hscript.2 (fun front v rest hus => ?_) r missing h
      rw [List.append_assoc]
      exact hready (u :: front) v rest (by rw [hus]; rfl)

/-- **Scripts that need only what scripts before them export are never refused for a missing
function.** -/
theorem load_ne_missing {us : List GeneratedUnit} (hscript : ∀ u ∈ us, u.IsScript)
    (hready : ∀ before u after, us = before ++ u :: after → u.Ready before) (r : String)
    (missing : List String) :
    load us ≠ .error (.evaluation (.missingDependencies r missing)) :=
  @foldlM_add_ne_missing us {} [] (by simp [Provides]) hscript (by simpa using hready) r missing

/-! ## The unit of a script -/

/-- **A script that is added becomes a unit**, which has all that it exports. -/
theorem exists_unit_of_add {p q : Program} {u : GeneratedUnit} {m : Script.Module String}
    (hm : u.source = .script m) (h : p.add u = .ok q) : ∃ content imports,
      Script.readContent m.content = .ok content ∧ (∀ n ∈ imports.map (·.1), n ∈ u.dependencies) ∧
      q.units = p.units ++ [⟨m.name, content, imports⟩] ∧
      ∀ d ∈ m.exports, Json.getField? q.exports d = some p.units.length := by
  rw [add, hm] at h
  dsimp only at h
  split at h
  · obtain ⟨content, hcontent, h⟩ := bind_ok h
    cases h
    refine ⟨content, _, hcontent, fun n hn => ?_, rfl, fun d hd => ?_⟩
    · obtain ⟨p, hp, rfl⟩ := List.mem_map.1 hn
      obtain ⟨d, hd, hp⟩ := List.mem_filterMap.1 hp
      obtain ⟨i, -, rfl⟩ := Option.map_eq_some_iff.1 hp
      exact hd
    · rw [getField?_exported, if_pos hd]
  · cases h

/-- What is imported under some names is what there was under them. -/
theorem getField?_imports (fields : List (String × Nat)) (ds : List String) (n : String) :
    Json.getField? (ds.filterMap fun d => (Json.getField? fields d).map fun i => (d, i)) n =
      if n ∈ ds then Json.getField? fields n else none := by
  induction ds with
  | nil => rfl
  | cons d ds ih =>
    rw [List.filterMap_cons]
    cases hd : Json.getField? fields d with
    | none =>
      rw [Option.map_none]
      dsimp only
      rw [ih]
      by_cases hn : n = d
      · rw [hn, hd, if_pos List.mem_cons_self]
        split <;> rfl
      · exact if_congr (by simp [hn]) rfl rfl
    | some i =>
      rw [Option.map_some]
      dsimp only
      rw [Json.getField?_cons, ih]
      by_cases hn : d = n
      · rw [if_pos hn, ← hn, hd, if_pos List.mem_cons_self]
      · rw [if_neg hn]
        exact if_congr (by simp [Ne.symm hn]) rfl rfl

/-- **A script that can be read is added** where the program has all that it needs. It imports what the program
has under these names. -/
theorem exists_add {p : Program} {u : GeneratedUnit} {m : Script.Module String}
    {content : Script.Content Script.Expression} (hm : u.source = .script m)
    (hready : ∀ d ∈ u.dependencies, (Json.getField? p.exports d).isSome)
    (hread : Script.readContent m.content = .ok content) : ∃ imports,
      p.add u = .ok ⟨p.units ++ [⟨m.name, content, imports⟩],
        m.exports.foldl (fun es e => Json.setField es e p.units.length) p.exports⟩ ∧
      ∀ n, Json.getField? imports n = if n ∈ u.dependencies then Json.getField? p.exports n else none := by
  have hnone : u.dependencies.filter (fun d => (Json.getField? p.exports d).isNone) = [] := by
    rw [List.filter_eq_nil_iff]
    exact fun d hd => by simpa [Option.isSome_iff_ne_none] using hready d hd
  refine ⟨_, ?_, getField?_imports p.exports u.dependencies⟩
  rw [add, hm]
  dsimp only
  rw [hnone]
  dsimp only
  rw [hread]
  rfl

/-- **The last script that is loaded is a unit of the program.** -/
theorem exists_unit_of_load {before : List GeneratedUnit} {u : GeneratedUnit} {p : Program}
    {m : Script.Module String} (hm : u.source = .script m) (h : load (before ++ [u]) = .ok p) :
    ∃ (i : Nat) (content : Script.Content Script.Expression) (imports : List (String × Nat)),
      Script.readContent m.content = .ok content ∧ (∀ n ∈ imports.map (·.1), n ∈ u.dependencies) ∧
      p.units[i]? = some ⟨m.name, content, imports⟩ ∧ ∀ d ∈ m.exports, Json.getField? p.exports d = some i := by
  rw [load, List.foldlM_append] at h
  obtain ⟨q, -, h⟩ := bind_ok h
  rw [List.foldlM_cons] at h
  obtain ⟨q', hadd, h⟩ := bind_ok h
  cases h
  obtain ⟨content, imports, hread, himports, hunits, hexports⟩ := exists_unit_of_add hm hadd
  refine ⟨q.units.length, content, imports, hread, himports, ?_, hexports⟩
  rw [hunits]
  simp

end Program

end RecurrenceCompiler
