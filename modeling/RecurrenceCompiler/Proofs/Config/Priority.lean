import Mathlib.Data.List.Forall2
import RecurrenceCompiler.Config.Load
import RecurrenceCompiler.Proofs.Arith.Grammar
import RecurrenceCompiler.Proofs.Json.Fields

/-!
# Priority of settings

A setting has the value of the first source that has one: the overrides, then the configuration file,
then the environment, then the defaults (`Config.load_by_priority`). A value that a setting cannot have
counts as none, so it hides nothing, and it is noted once. A source is read setting by setting; what a
reader gives and what it rejects add up (`PartialConfig.Reads.bind`).

A value is noted with its text, and a map that hides the root's `toString` has none
(`Node.exists_display_iff`), so such a value stops loading (`Config.unshown_value_stops`).
-/

namespace RecurrenceCompiler

open Arith

/-! ## Values that can be shown -/

namespace Node

/-- What has a text: scalars, lists of what has a text, and maps that do not hide the root's
`toString`. -/
inductive Shown : Node → Prop
  | scalar (v : Json) : Shown (.scalar v)
  | list {items : List Node} (hitems : ∀ n ∈ items, Shown n) : Shown (.list items)
  | map {own inherited : List (String × Node)}
      (hroot : "toString" ∉ (own ++ inherited).map (·.1)) : Shown (.map own inherited true)

/-- A map is shown as every map. -/
theorem exists_display_map_iff {own inherited : List (String × Node)} {rooted : Bool} :
    (∃ text, (Node.map own inherited rooted).display = .ok text) ↔
      (Node.map own inherited rooted).Shown := by
  have hfield : (Json.getField? (own ++ inherited) "toString").isNone = true ↔
      "toString" ∉ (own ++ inherited).map (·.1) := by
    rw [← Json.getField?_isSome]
    simp
  rw [display]
  constructor
  · rintro ⟨text, h⟩
    split at h
    · next hroot =>
      rw [Bool.and_eq_true, hfield] at hroot
      obtain ⟨rfl, hroot⟩ := hroot
      exact .map hroot
    · cases h
  · intro h
    cases h with
    | map hroot => exact ⟨_, if_pos (by rw [hfield.2 hroot]; rfl)⟩

/-- A list is shown item by item. -/
theorem exists_displayItems_cons_iff {n : Node} {ns : List Node} :
    (∃ texts, displayItems (n :: ns) = .ok texts) ↔
      (∃ text, n.display = .ok text) ∧ ∃ texts, displayItems ns = .ok texts := by
  by_cases hnull : n = .scalar .null
  · obtain rfl := hnull
    rw [displayItems]
    constructor
    · rintro ⟨texts, h⟩
      obtain ⟨text, -, h⟩ := bind_ok h
      obtain ⟨rest, hrest, -⟩ := bind_ok h
      exact ⟨⟨_, rfl⟩, rest, hrest⟩
    · rintro ⟨-, rest, hrest⟩
      rw [hrest]
      exact ⟨_, rfl⟩
  · rw [displayItems.eq_3 _ _ hnull]
    constructor
    · rintro ⟨texts, h⟩
      obtain ⟨text, htext, h⟩ := bind_ok h
      obtain ⟨rest, hrest, -⟩ := bind_ok h
      exact ⟨⟨text, htext⟩, rest, hrest⟩
    · rintro ⟨⟨text, htext⟩, rest, hrest⟩
      rw [htext, hrest]
      exact ⟨_, rfl⟩

mutual

/-- **What can be shown**, whatever is in it. -/
theorem exists_display_iff : ∀ n : Node, (∃ text, n.display = .ok text) ↔ n.Shown
  | .scalar v => ⟨fun _ => .scalar v, fun _ => ⟨_, rfl⟩⟩
  | .map _ _ _ => exists_display_map_iff
  | .list items => by
    rw [display]
    constructor
    · rintro ⟨text, h⟩
      obtain ⟨texts, htexts, -⟩ := bind_ok h
      exact .list ((exists_displayItems_iff items).1 ⟨texts, htexts⟩)
    · intro h
      cases h with
      | list hitems =>
        obtain ⟨texts, htexts⟩ := (exists_displayItems_iff items).2 hitems
        exact ⟨_, by rw [htexts]; rfl⟩

theorem exists_displayItems_iff : ∀ ns : List Node,
    (∃ texts, displayItems ns = .ok texts) ↔ ∀ n ∈ ns, n.Shown
  | [] => by simp [displayItems]
  | n :: ns => by
    rw [exists_displayItems_cons_iff, List.forall_mem_cons, exists_display_iff n,
      exists_displayItems_iff ns]

end

end Node
/-! ## Values of settings -/

namespace Setting

/-- What a setting holds. -/
def Value : Setting → Type
  | target => Target
  | optimization => Optimization
  | vecType | vecInclude | outputDir | definitionsDir => String
  | cseThreshold | tablePadding | watchDelay => Float
  | writeManifest => Bool

/-- The value that a setting takes from a node, none from a node of the wrong kind. -/
def narrow : (s : Setting) → Node → Option s.Value
  | target => PartialConfig.oneOf [("cpp", .cpp), ("js", .js)]
  | optimization => PartialConfig.oneOf [("none", .none), ("cse", .cse)]
  | vecType | vecInclude | outputDir | definitionsDir => Node.text?
  | cseThreshold | tablePadding | watchDelay => PartialConfig.wholeNumber
  | writeManifest => PartialConfig.truthValue

end Setting

/-- The value of a setting in a source. -/
def PartialConfig.get (p : PartialConfig) : (s : Setting) → Option s.Value
  | .target => p.target
  | .vecType => p.vecType
  | .vecInclude => p.vecInclude
  | .optimization => p.optimization
  | .cseThreshold => p.cseThreshold
  | .tablePadding => p.tablePadding
  | .outputDir => p.outputDir
  | .definitionsDir => p.definitionsDir
  | .watchDelay => p.watchDelay
  | .writeManifest => p.writeManifest

/-- The value of a setting; the directory of definition files may have none. -/
def Config.get (c : Config) : (s : Setting) → Option s.Value
  | .target => some c.target
  | .vecType => some c.vecType
  | .vecInclude => some c.vecInclude
  | .optimization => some c.optimization
  | .cseThreshold => some c.cseThreshold
  | .tablePadding => some c.tablePadding
  | .outputDir => some c.outputDir
  | .definitionsDir => c.definitionsDir
  | .watchDelay => some c.watchDelay
  | .writeManifest => some c.writeManifest

/-- A source is known by its values. -/
theorem PartialConfig.ext_get {p q : PartialConfig} (h : ∀ s, p.get s = q.get s) : p = q := by
  obtain ⟨⟩ := p
  obtain ⟨⟩ := q
  rw [PartialConfig.mk.injEq]
  exact ⟨h .target, h .vecType, h .vecInclude, h .optimization, h .cseThreshold, h .tablePadding,
    h .outputDir, h .definitionsDir, h .watchDelay, h .writeManifest⟩

/-- A layer hides the values below it where it has values. -/
theorem Config.get_apply (c : Config) (p : PartialConfig) (s : Setting) :
    (c.apply p).get s = (p.get s).or (c.get s) := by
  have hsome {α : Type} (o : Option α) (a : α) : some (o.getD a) = o.or (some a) := by
    cases o <;> rfl
  cases s with
  | definitionsDir => exact Option.or_eq_orElse.symm
  | _ => exact hsome _ _

namespace PartialConfig

/-! ## Reading a source -/

section
variable (look : Lookup)

/-- The value of a setting in what was found. -/
def valueIn (s : Setting) : Option s.Value :=
  (given? look s).bind s.narrow

/-- What is rejected: values that are there and that their settings cannot have, by setting. -/
def rejected : List (Setting × Node) :=
  Setting.all.flatMap fun s =>
    (((given? look s).filter fun n => (s.narrow n).isNone).map fun n => (s, n)).toList

end

/-- The message about a value that is rejected. -/
def Notes (p : Setting × Node) (message : String) : Prop :=
  ∃ text, p.2.display = .ok text ∧
    message = DiagnosticCode.unknownConfigValue.message [("field", p.1.path), ("value", text)]

/-- A reader gives a value and notes what it rejects, unless some of that cannot be shown. -/
def Reads {α : Type} (m : Reading α) (a : α) (rejects : List (Setting × Node)) : Prop :=
  ∀ b problems, m.run = ⟨.ok b, problems⟩ ↔ b = a ∧ List.Forall₂ Notes rejects problems

section
variable {α β : Type} {m : Reading α} {a : α}

theorem reads_pure (a : α) : Reads (pure a) a [] := by
  intro b problems
  change (⟨.ok a, []⟩ : Checked (Except Error α)) = _ ↔ _
  simp [eq_comm]

theorem forall₂_append_left_iff {R : Setting × Node → String → Prop} {xs ys : List (Setting × Node)}
    {ps : List String} : List.Forall₂ R (xs ++ ys) ps ↔
      ∃ qs rs, ps = qs ++ rs ∧ List.Forall₂ R xs qs ∧ List.Forall₂ R ys rs := by
  induction xs generalizing ps with
  | nil => simp
  | cons x xs ih =>
    simp only [List.cons_append, List.forall₂_cons_left_iff, ih]
    constructor
    · rintro ⟨q, _, hq, ⟨qs, rs, rfl, hqs, hrs⟩, rfl⟩
      exact ⟨q :: qs, rs, rfl, ⟨q, qs, hq, hqs, rfl⟩, hrs⟩
    · rintro ⟨_, rs, rfl, ⟨q, qs, hq, hqs, rfl⟩, hrs⟩
      exact ⟨q, _, hq, ⟨qs, rs, rfl, hqs, hrs⟩, rfl⟩

theorem exists_forall₂_iff {R : Setting × Node → String → Prop} {xs : List (Setting × Node)} :
    (∃ ps, List.Forall₂ R xs ps) ↔ ∀ x ∈ xs, ∃ p, R x p := by
  induction xs with
  | nil => simp
  | cons x xs ih =>
    rw [List.forall_mem_cons, ← ih]
    constructor
    · rintro ⟨ps, h⟩
      cases h with
      | cons hp hps => exact ⟨⟨_, hp⟩, _, hps⟩
    · rintro ⟨⟨p, hp⟩, ps, hps⟩
      exact ⟨p :: ps, .cons hp hps⟩

/-- Readers one after the other reject what each of them rejects. -/
theorem Reads.bind {f : α → Reading β} {b : β} {xs ys : List (Setting × Node)} (hm : Reads m a xs)
    (hf : Reads (f a) b ys) : Reads (m >>= f) b (xs ++ ys) := by
  intro b' problems
  rw [forall₂_append_left_iff]
  cases hrun : m.run with
  | mk value noted =>
    cases value with
    | error e =>
      have hbind : (m >>= f).run = ⟨.error e, noted ++ []⟩ := by
        change (m.run >>= _) = _
        rw [hrun]
        rfl
      rw [hbind]
      constructor
      · rintro ⟨⟩
      · rintro ⟨-, qs, -, -, hqs, -⟩
        have hok := (hm a qs).2 ⟨rfl, hqs⟩
        rw [hrun] at hok
        cases hok
    | ok a' =>
      obtain ⟨rfl, hnoted⟩ := (hm a' noted).1 hrun
      have hbind : (m >>= f).run = ⟨(f a').run.value, noted ++ (f a').run.problems⟩ := by
        change (m.run >>= _) = _
        rw [hrun]
        rfl
      rw [hbind, Checked.mk.injEq]
      constructor
      · rintro ⟨hvalue, rfl⟩
        obtain ⟨rfl, hrest⟩ := (hf b' (f a').run.problems).1 (by rw [← hvalue])
        exact ⟨rfl, noted, _, rfl, hnoted, hrest⟩
      · rintro ⟨rfl, qs, rs, rfl, hqs, hrs⟩
        have hok := (hm a' qs).2 ⟨rfl, hqs⟩
        rw [hrun, Checked.mk.injEq] at hok
        rw [(hf b' rs).2 ⟨rfl, hrs⟩, hok.2]
        exact ⟨rfl, rfl⟩

/-- A value that is rejected is noted, unless it cannot be shown. -/
theorem reads_unknownValue (s : Setting) (n : Node) :
    Reads (unknownValue s n : Reading (Option α)) none [(s, n)] := by
  intro b problems
  rw [unknownValue]
  cases hdisplay : n.display with
  | error e =>
    constructor
    · rintro ⟨⟩
    · rintro ⟨-, h⟩
      obtain ⟨m, ms, ⟨text, htext, -⟩, -, -⟩ := List.forall₂_cons_left_iff.1 h
      rw [hdisplay] at htext
      cases htext
  | ok text =>
    have hnotes (m : String) : Notes (s, n) m ↔
        m = DiagnosticCode.unknownConfigValue.message [("field", s.path), ("value", text)] := by
      simp [Notes, hdisplay]
    constructor
    · rintro ⟨⟩
      exact ⟨rfl, .cons ((hnotes _).2 rfl) .nil⟩
    · rintro ⟨rfl, h⟩
      obtain ⟨m, ms, hm, hms, rfl⟩ := List.forall₂_cons_left_iff.1 h
      cases hms
      rw [(hnotes m).1 hm]
      rfl

/-- A setting is read by narrowing the value that was found. -/
theorem reads_pick (look : Lookup) (s : Setting) (read : Node → Option α) :
    Reads (pick look s read) ((given? look s).bind read)
      (((given? look s).filter fun n => (read n).isNone).map fun n => (s, n)).toList := by
  rw [pick]
  cases given? look s with
  | none => exact reads_pure none
  | some n =>
    cases hread : read n with
    | none =>
      simp only [Option.bind_some, Option.filter, hread, Option.isNone_none]
      exact reads_unknownValue s n
    | some v =>
      simp only [Option.bind_some, Option.filter, hread, Option.isNone_some]
      exact reads_pure (some v)

/-- **A source is read setting by setting**: each one is narrowed, and what cannot be narrowed is
rejected. -/
theorem exists_reads_readSettings (look : Lookup) : ∃ p : PartialConfig,
    (∀ s, p.get s = valueIn look s) ∧ Reads (readSettings look) p (rejected look) := by
  refine ⟨⟨valueIn look .target, valueIn look .vecType, valueIn look .vecInclude,
    valueIn look .optimization, valueIn look .cseThreshold, valueIn look .tablePadding,
    valueIn look .outputDir, valueIn look .definitionsDir, valueIn look .watchDelay,
    valueIn look .writeManifest⟩, ?_, ?_⟩
  · intro s
    cases s <;> rfl
  · rw [readSettings]
    refine (reads_pick look .target _).bind ?_
    refine (reads_pick look .vecType _).bind ?_
    refine (reads_pick look .vecInclude _).bind ?_
    refine (reads_pick look .optimization _).bind ?_
    refine (reads_pick look .cseThreshold _).bind ?_
    refine (reads_pick look .tablePadding _).bind ?_
    refine (reads_pick look .outputDir _).bind ?_
    refine (reads_pick look .definitionsDir _).bind ?_
    refine (reads_pick look .watchDelay _).bind ?_
    refine (reads_pick look .writeManifest _).bind ?_
    exact reads_pure _

end

section
variable {look : Lookup}

/-- What a source gives. -/
theorem read_eq_ok_iff {c : Checked PartialConfig} : read look = .ok c ↔
    (∀ s, c.value.get s = valueIn look s) ∧ List.Forall₂ Notes (rejected look) c.problems := by
  obtain ⟨p, hp, hreads⟩ := exists_reads_readSettings look
  have hvalue : c.value = p ↔ ∀ s, c.value.get s = valueIn look s := by
    constructor
    · intro h s
      rw [h, hp]
    · intro h
      exact ext_get fun s => (h s).trans (hp s).symm
  rw [← hvalue, ← hreads]
  change ((readSettings look).run.value.map fun p => (⟨p, (readSettings look).run.problems⟩ : Checked _)) =
    .ok c ↔ _
  cases (readSettings look).run with
  | mk value problems =>
    cases value with
    | error e => simp [Except.map]
    | ok q =>
      obtain ⟨value, noted⟩ := c
      simp [Except.map]

/-- What is rejected is there and cannot be narrowed. -/
theorem mem_rejected {r : Setting × Node} :
    r ∈ rejected look ↔ given? look r.1 = some r.2 ∧ r.1.narrow r.2 = none := by
  obtain ⟨s, n⟩ := r
  have hall : ∀ s, s ∈ Setting.all := by
    intro s
    cases s <;> simp [Setting.all]
  simp only [rejected, List.mem_flatMap, Option.mem_toList, Option.map_eq_some_iff,
    Option.filter_eq_some_iff, Option.isNone_iff_eq_none, Prod.mk.injEq]
  constructor
  · rintro ⟨_, -, _, h, rfl, rfl⟩
    exact h
  · intro h
    exact ⟨s, hall s, n, h, rfl, rfl⟩

/-- A source is read if what it rejects can be shown. -/
theorem exists_read_iff : (∃ c, read look = .ok c) ↔ ∀ r ∈ rejected look, r.2.Shown := by
  have hnotes (r : Setting × Node) : (∃ m, Notes r m) ↔ r.2.Shown := by
    rw [← Node.exists_display_iff]
    constructor
    · rintro ⟨m, text, htext, -⟩
      exact ⟨text, htext⟩
    · rintro ⟨text, htext⟩
      exact ⟨_, text, htext, rfl⟩
  simp only [read_eq_ok_iff, ← hnotes, ← exists_forall₂_iff]
  constructor
  · rintro ⟨c, -, h⟩
    exact ⟨c.problems, h⟩
  · rintro ⟨ms, hms⟩
    obtain ⟨p, hp, -⟩ := exists_reads_readSettings look
    exact ⟨⟨p, ms⟩, hp, hms⟩

end

/-! ## Loading -/

/-- The variables of an environment as values of settings. -/
def inEnvironment (env : Environment) : Lookup := fun s =>
  (env (s.variableName environmentPrefix)).map fun t => .scalar (.string t)

/-- The fields of a configuration file as values of settings, none without a file. -/
def inFile (data : Option Node) : Lookup := fun s =>
  data.bind fun data => inMap data s

/-- What the configuration file holds: a map, or nothing if there is no file. -/
inductive FileHolds (w : Workspace) (file : Option String) : Option Node → Prop
  | nothing (hpath : configPath? w file = none) : FileHolds w file none
  | map {path text : String} {own inherited : List (String × Node)} {rooted : Bool}
      (hpath : configPath? w file = some path) (hexists : w.pathExists path = true)
      (htext : w.read path = .ok text) (hdata : readFormat path text = .ok (.map own inherited rooted)) :
      FileHolds w file (some (.map own inherited rooted))

theorem FileHolds.ofUsualFile_eq {w : Workspace} {file : Option String} {data : Option Node}
    (h : FileHolds w file data) : ofUsualFile w file = read (inFile data) := by
  cases h with
  | nothing hpath =>
    rw [ofUsualFile, hpath]
    rfl
  | map hpath hexists htext hdata =>
    simp only [ofUsualFile, hpath, ofFile, hexists, htext, Error.ofFile, Bool.not_true,
      Bool.false_eq_true, if_false, bind, Except.bind, hdata]
    rfl

end PartialConfig

namespace Config

open PartialConfig

/-- **Priority holds setting by setting.** Whatever map is in the configuration file, and whatever the
environment and the overrides are: loading succeeds exactly if every value of the file that is rejected can be
shown. Then each setting has the value of the overrides, else that of the file, else that of the environment,
else the default, where a value that is absent or cannot be narrowed is none, and there is one message for
each value that is rejected, first of the environment and then of the file. -/
theorem load_by_priority {w : Workspace} {env : Environment} {file : Option String} {data : Option Node}
    {overrides : PartialConfig} (h : FileHolds w file data) :
    ((∃ c, Config.load w env file overrides = .ok c) ↔ ∀ r ∈ rejected (inFile data), r.2.Shown) ∧
    ∀ c, Config.load w env file overrides = .ok c →
      (∀ s, c.value.get s = (overrides.get s).or ((valueIn (inFile data) s).or
        ((valueIn (inEnvironment env) s).or (({} : Config).get s)))) ∧
      List.Forall₂ Notes (rejected (inEnvironment env) ++ rejected (inFile data)) c.problems := by
  have henv : ∃ fromEnv, read (inEnvironment env) = .ok fromEnv := by
    rw [exists_read_iff]
    intro r hr
    obtain ⟨t, ht⟩ : ∃ t, r.2 = .scalar (.string t) := by
      have hgiven := (mem_rejected.1 hr).1
      have hfound : inEnvironment env r.1 = some r.2 := by
        rw [given?] at hgiven
        split at hgiven
        · cases hgiven
        · cases hgiven
        · exact hgiven
      obtain ⟨t, -, ht⟩ := Option.map_eq_some_iff.1 hfound
      exact ⟨t, ht.symm⟩
    rw [ht]
    exact .scalar _
  obtain ⟨fromEnv, henv⟩ := henv
  have hload : Config.load w env file overrides = (read (inFile data)).map fun fromFile =>
      ⟨.merge [fromEnv.value, fromFile.value, overrides], fromEnv.problems ++ fromFile.problems⟩ := by
    rw [Config.load, ← h.ofUsualFile_eq]
    change (read (inEnvironment env) >>= _) = _
    rw [henv]
    rfl
  rw [hload, ← exists_read_iff]
  constructor
  · cases read (inFile data) <;> simp [Except.map]
  · intro c hc
    cases hfile : read (inFile data) with
    | error e =>
      rw [hfile] at hc
      cases hc
    | ok fromFile =>
      rw [hfile] at hc
      cases hc
      obtain ⟨henvValues, henvNotes⟩ := read_eq_ok_iff.1 henv
      obtain ⟨hfileValues, hfileNotes⟩ := read_eq_ok_iff.1 hfile
      refine ⟨?_, forall₂_append_left_iff.2 ⟨_, _, rfl, henvNotes, hfileNotes⟩⟩
      intro s
      change (((({} : Config).apply fromEnv.value).apply fromFile.value).apply overrides).get s = _
      rw [get_apply, get_apply, get_apply, henvValues, hfileValues]

/-- A directory with a configuration file. -/
def configured (text : String) : Workspace where
  cwd := "/w"
  files := [("/w/recurforge.config.json", text)]

/-- A map that satisfies a property. -/
def mapWith (p : Node → Bool) : Node → Bool
  | .map own inherited rooted => p (.map own inherited rooted)
  | _ => false

/-- What the configuration file of a directory holds, by reading its text. -/
theorem exists_fileHolds {text : String} {p : Node → Bool}
    (h : (readFormat "/w/recurforge.config.json" text).toOption.any (mapWith p) = true) :
    ∃ data, FileHolds (configured text) none (some data) ∧ p data = true := by
  have hjoin : Path.join "/w" "recurforge.config.json" = "/w/recurforge.config.json" := by decide +kernel
  have hexists : (configured text).pathExists "/w/recurforge.config.json" = true := rfl
  have hpath : configPath? (configured text) none = some "/w/recurforge.config.json" := by
    simp only [configPath?, Option.filter_none, usualConfigFiles, List.map_cons]
    rw [List.find?_cons_of_pos]
    · exact congrArg some hjoin
    · exact (congrArg _ hjoin).trans hexists
  cases hdata : readFormat "/w/recurforge.config.json" text with
  | error e =>
    rw [hdata] at h
    cases h
  | ok data =>
    rw [hdata] at h
    cases data with
    | scalar value => cases h
    | list items => cases h
    | map own inherited rooted => exact ⟨_, .map hpath hexists rfl hdata, h⟩

/-- A file with a target and with a threshold that is not a number. -/
def partlyUsable : String :=
  "\x7b\"codegen\":\x7b\"target\":\"js\",\"cse_threshold\":\"q\"\x7d\x7d"

/-- What `partlyUsable` holds as values of settings. -/
def isPartlyUsable (data : Node) : Bool :=
  (rejected (inFile (some data))).map (fun r => (r.1.path, r.2.display.toOption)) ==
      [("codegen.cseThreshold", some "q")] &&
    (show Option Target from valueIn (inFile (some data)) .target) == some .js &&
    (show Option String from valueIn (inFile (some data)) .vecType) == none

/-- An environment with a target and a vector type. -/
def targetAndVecType : Environment :=
  Json.getField? [("RECURFORGE_TARGET", "cpp"), ("RECURFORGE_VEC_TYPE", "Vec4d")]

/-- The target of the file hides that of the environment, the threshold is noted and hides nothing, and an
override counts most. -/
theorem load_by_priority_sample : ∃ c : Checked Config,
    Config.load (configured partlyUsable) targetAndVecType none { optimization := some .none } = .ok c ∧
    c.value.target = .js ∧ c.value.vecType = "Vec4d" ∧ c.value.optimization = .none ∧
    c.problems = ["Unknown config value for codegen.cseThreshold: q"] := by
  obtain ⟨data, hfile, hdata⟩ : ∃ data, FileHolds (configured partlyUsable) none (some data) ∧
      isPartlyUsable data = true := exists_fileHolds (by decide +kernel)
  simp only [isPartlyUsable, Bool.and_eq_true] at hdata
  obtain ⟨⟨hrejected, htarget⟩, hvecType⟩ := hdata
  have hfileTarget : valueIn (inFile (some data)) .target = some Target.js := by
    have h : (show Option Target from valueIn (inFile (some data)) .target) = some .js := eq_of_beq htarget
    exact h
  have hfileVecType : valueIn (inFile (some data)) .vecType = none := by
    have h : (show Option String from valueIn (inFile (some data)) .vecType) = none := eq_of_beq hvecType
    exact h
  obtain ⟨⟨s, n⟩, hfileRejects, hr⟩ := List.map_eq_singleton_iff.1 (eq_of_beq hrejected)
  obtain ⟨hpath, hshown⟩ := Prod.mk.inj hr
  have hdisplay : n.display = .ok "q" := by
    cases hn : n.display with
    | error e =>
      rw [hn] at hshown
      cases hshown
    | ok text =>
      rw [hn] at hshown
      exact congrArg _ (Option.some.inj hshown)
  have henvRejects : rejected (inEnvironment targetAndVecType) = [] := by
    have : (rejected (inEnvironment targetAndVecType)).isEmpty = true := by decide +kernel
    exact List.isEmpty_iff.1 this
  have henvVecType : valueIn (inEnvironment targetAndVecType) .vecType = some "Vec4d" := by
    have h : (show Option String from valueIn (inEnvironment targetAndVecType) .vecType) = some "Vec4d" := by
      decide +kernel
    exact h
  obtain ⟨hloads, hvalues⟩ := @load_by_priority _ targetAndVecType _ _ { optimization := some .none } hfile
  obtain ⟨c, hc⟩ := hloads.2 <| by
    rw [hfileRejects]
    intro r hr
    rw [List.mem_singleton.1 hr]
    exact (n.exists_display_iff).1 ⟨"q", hdisplay⟩
  obtain ⟨hget, hnotes⟩ := hvalues c hc
  rw [henvRejects, hfileRejects, List.nil_append] at hnotes
  obtain ⟨m, ms, ⟨text, htext, hm⟩, hms, hproblems⟩ := List.forall₂_cons_left_iff.1 hnotes
  cases hms
  rw [hdisplay] at htext
  cases htext
  refine ⟨c, hc, ?_, ?_, ?_, ?_⟩
  · have hvalue := hget .target
    rw [hfileTarget] at hvalue
    exact Option.some.inj hvalue
  · have hvalue := hget .vecType
    rw [hfileVecType, henvVecType] at hvalue
    exact Option.some.inj hvalue
  · exact Option.some.inj (hget .optimization)
  · rw [hproblems, hm, hpath]
    decide +kernel

/-- A file whose target is a map with a field `toString`. -/
def shadowing : String :=
  "\x7b\"codegen\":\x7b\"target\":\x7b\"toString\":1\x7d\x7d\x7d"

/-- **A value that cannot be shown stops loading.** The target is rejected and nothing is loaded. -/
theorem unshown_value_stops : ∃ data, FileHolds (configured shadowing) none (some data) ∧
    (rejected (inFile (some data))).map (fun r => r.1.path) = ["codegen.target"] ∧
    ∀ c, Config.load (configured shadowing) (fun _ => none) none {} ≠ .ok c := by
  obtain ⟨data, hfile, hrejected⟩ : ∃ data, FileHolds (configured shadowing) none (some data) ∧
      ((rejected (inFile (some data))).map (fun r => r.1.path) == ["codegen.target"]) = true :=
    exists_fileHolds (by decide +kernel)
  have hload : (Config.load (configured shadowing) (fun _ => none) none {}).toOption.isNone = true := by
    decide +kernel
  refine ⟨data, hfile, eq_of_beq hrejected, ?_⟩
  intro c hc
  rw [hc] at hload
  cases hload

end Config

end RecurrenceCompiler
