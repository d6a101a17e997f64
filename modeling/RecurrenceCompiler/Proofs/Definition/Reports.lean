import RecurrenceCompiler.Definition.Reader
import RecurrenceCompiler.Proofs.Decimal.Spelling
import RecurrenceCompiler.Proofs.Recurrence.Steps
import RecurrenceCompiler.Proofs.RuleText.Places

/-!
# What a definition reports

The entries of a definition are performed one after another on the same recurrence, also after one that
failed. Whether an entry fails depends on the header only (`alike_run`), which no step changes, so each
entry is reported exactly if it fails alone, and once (`map_labelOf_runSteps`). Where none fails the
recurrence is the one that the builder calls make.
-/

namespace RecurrenceCompiler

/-- Whether a step fails on a recurrence. -/
def Step.fails (s : Step) (r : Recurrence) : Bool :=
  (s.run r).2.isSome

namespace Recurrence

variable {r r' : Recurrence}

/-! ## One step -/

theorem alike_parseParts (parts : List (List Char)) :
    Alike (Guard.parseParts parts) (Guard.parseParts parts) := by
  induction parts with
  | nil => exact .ok []
  | cons part parts ih =>
    rw [Guard.parseParts]
    split
    · exact ih
    · refine Alike.bind ?_ fun c => ih.bind fun cs => .ok _
      rw [Constraint.parse]
      split
      · exact .ok _
      · exact .error rfl rfl

theorem alike_readGuard (h : r'.toHeader = r.toHeader) (texts : List String) :
    Alike (r'.readGuard texts) (r.readGuard texts) := by
  refine ((alike_parseParts _).bind fun cs => .ok _).bind fun g => Alike.bind ?_ fun _ => .ok g
  rw [checkGuard, checkGuard, h]
  split
  · exact .error rfl rfl
  · exact .ok ()

theorem alike_readSlots (h : r'.toHeader = r.toHeader) (slots : List (Option Decimal.Whole))
    (bound : List (String × Float)) :
    Alike (r'.readSlots slots bound) (r.readSlots slots bound) := by
  induction bound generalizing slots with
  | nil => exact .ok slots
  | cons p bound ih =>
    rw [readSlots, readSlots, h]
    split
    · exact .error rfl rfl
    · split
      · exact .error rfl rfl
      · exact ih _

/-- Two reports of a step: it fails in both or in none, with an error that lists no problems. -/
def AlikeReports : Option Error → Option Error → Prop :=
  Option.Rel fun e e' => e.problems = [] ∧ e'.problems = []

/-- Checks that come out alike are followed by the same report. -/
theorem alikeReports_bind {α : Type} {x y : Except Error α} {f g : α → Except Error Recurrence}
    (h : Alike x y) (hfg : ∀ a, AlikeReports (r'.orKeep (f a)).2 (r.orKeep (g a)).2) :
    AlikeReports (r'.orKeep (x >>= f)).2 (r.orKeep (y >>= g)).2 := by
  cases h with
  | ok a => exact hfg a
  | error he he' => exact .some ⟨he, he'⟩

theorem alikeReports_readBranches (ctx : RuleText.Context) (i : Option Nat) (branches : List String) :
    AlikeReports (readBranches (ctx.atRule i) branches).2.2 (readBranches ctx branches).2.2 := by
  induction branches with
  | nil => exact .none
  | cons b bs ih =>
    rw [readBranches, readBranches]
    have hb := RuleText.alike_parseBody ctx i b
    generalize RuleText.parseBody (ctx.atRule i) b = x, RuleText.parseBody ctx b = y at hb ⊢
    cases hb with
    | ok e => exact ih
    | error he he' => exact .some ⟨he, he'⟩

/-- **Whether a step fails depends on the header only.** -/
theorem alikeReports_run (h : r'.toHeader = r.toHeader) (s : Step) :
    AlikeReports (s.run r').2 (s.run r).2 := by
  have hctx : r'.nextContext = r.nextContext.atRule (some r'.rules.length) := by
    rw [nextContext, h]
    rfl
  cases s with
  | validity texts => exact alikeReports_bind (alike_readGuard h texts) fun g => .none
  | base bound value =>
    have hslots : (r'.indices.map fun _ => (none : Option Decimal.Whole)) = r.indices.map fun _ => none := by
      rw [h]
    have hvalue : r'.context none = r.context none := by rw [h]
    rw [Step.run, Step.run, addBase, addBase, hslots, hvalue]
    refine alikeReports_bind (alike_readSlots h _ bound) fun slots => ?_
    split
    · exact .some ⟨rfl, rfl⟩
    · exact alikeReports_bind (RuleText.alike_parseValue (r.context none) none value) fun e => .none
  | rule guard body scale name =>
    refine alikeReports_bind (alike_readGuard h [guard]) fun g => ?_
    change AlikeReports (r'.orKeep (RuleText.parseRule r'.nextContext body scale >>= _)).2 _
    rw [hctx]
    exact alikeReports_bind (RuleText.alike_parseRule r.nextContext _ body scale) fun e => .none
  | average guard branches name =>
    rw [Step.run, Step.run, addAverage, addAverage]
    split
    · exact .some ⟨rfl, rfl⟩
    · have hguard := alike_readGuard h [guard]
      generalize r'.readGuard [guard] = x, r.readGuard [guard] = y at hguard ⊢
      cases hguard with
      | error he he' => exact .some ⟨he, he'⟩
      | ok g =>
        have hread := alikeReports_readBranches r.nextContext (some r'.rules.length) branches
        rw [← hctx, nextContext, nextContext] at hread
        dsimp only
        generalize readBranches (r'.context _) branches = read',
          readBranches (r.context _) branches = read at hread ⊢
        obtain ⟨es', ds', err'⟩ := read'
        obtain ⟨es, ds, err⟩ := read
        cases hread with
        | none => exact .none
        | some he => exact .some he

/-- A step fails on one recurrence exactly if it fails on another with its header. -/
theorem fails_congr (h : r'.toHeader = r.toHeader) (s : Step) : s.fails r' = s.fails r := by
  have hreports := alikeReports_run h s
  rw [Step.fails, Step.fails]
  generalize (s.run r').2 = x, (s.run r).2 = y at hreports
  cases hreports with
  | none | some => rfl

/-- The error of a step lists no problems. -/
theorem problems_of_run {s : Step} {e : Error} (h : (s.run r).2 = some e) : e.problems = [] := by
  have hreports := alikeReports_run (r := r) rfl s
  rw [h] at hreports
  cases hreports with
  | some he => exact he.1

end Recurrence

namespace Definition

variable {d : Definition} {r r' : Recurrence}

/-! ## Labels -/

/-- The label that a problem stands under. -/
def labelOf (problem : String) : String :=
  String.ofList (problem.toList.takeWhile (· != ':'))

/-- What stands before the colon is the label. -/
theorem labelOf_append {label : String} (h : ':' ∉ label.toList) (message : String) :
    labelOf (label ++ ": " ++ message) = label := by
  have hkept : ∀ c ∈ label.toList, (c != ':') = true := by
    intro c hc
    rw [bne_iff_ne]
    rintro rfl
    exact h hc
  rw [labelOf, String.toList_append, String.toList_append, List.append_assoc,
    List.takeWhile_append_of_pos hkept]
  exact (congrArg String.ofList (List.append_nil _)).trans String.ofList_toList

theorem colon_not_mem_entryLabel {list : String} (h : ':' ∉ list.toList) (i : Nat) :
    ':' ∉ (entryLabel list i).toList := by
  have htext : (toString i).toList = Nat.toDigits 10 i := String.toList_ofList
  have hdigits : ':' ∉ (toString i).toList := by
    rw [htext]
    intro hmem
    exact absurd (List.all_eq_true.1 (Decimal.all_isDigit_toDigits i) _ hmem) (by decide)
  simp only [entryLabel, String.toList_append, List.mem_append, not_or]
  exact ⟨⟨⟨h, by decide⟩, hdigits⟩, by decide⟩

theorem colon_not_mem_labels {p : String × Step} (hp : p ∈ d.steps) : ':' ∉ p.1.toList := by
  simp only [steps, List.cons_append, List.mem_cons, List.mem_append, List.mem_map] at hp
  obtain rfl | ⟨q, -, rfl⟩ | ⟨q, -, rfl⟩ := hp
  · change ':' ∉ "validity".toList
    decide
  · exact colon_not_mem_entryLabel (by decide) q.2
  · exact colon_not_mem_entryLabel (by decide) q.2

/-! ## A run of all steps -/

/-- **Each step that fails alone is reported, once, and no other is.** -/
theorem map_labelOf_runSteps {steps : List (String × Step)} (h : r'.toHeader = r.toHeader)
    (hlabels : ∀ p ∈ steps, ':' ∉ p.1.toList) :
    (runSteps r' steps).2.map labelOf = (steps.filter fun p => p.2.fails r).map Prod.fst := by
  induction steps generalizing r' with
  | nil => rfl
  | cons p steps ih =>
    obtain ⟨label, s⟩ := p
    rw [List.forall_mem_cons] at hlabels
    have hrest := ih ((r'.toHeader_run s).trans h) hlabels.2
    rw [runSteps, List.map_append, hrest, List.filter_cons, ← Recurrence.fails_congr h s, Step.fails]
    cases herr : (s.run r').2 with
    | none => rfl
    | some e =>
      -- an error without a list of problems is one problem
      rw [Option.map_some, Option.getD_some, labelled, Recurrence.problems_of_run herr]
      exact congrArg (· :: _) (labelOf_append hlabels.1 e.message)

/-- Where nothing is reported the steps build what the calls build. -/
theorem build_of_runSteps {steps : List (String × Step)} (h : (runSteps r steps).2 = []) :
    r.build (steps.map Prod.snd) = .ok (runSteps r steps).1 := by
  induction steps generalizing r with
  | nil => rfl
  | cons p steps ih =>
    obtain ⟨label, s⟩ := p
    rw [runSteps, List.append_eq_nil_iff] at h
    rw [List.map_cons, Recurrence.build]
    generalize hrun : s.run r = result at h
    obtain ⟨next, err⟩ := result
    cases err with
    | none =>
      rw [runSteps, hrun]
      exact ih h.2
    | some e => exact absurd h.1 (List.cons_ne_nil _ _)

/-! ## Entries -/

/-- The calls of the builder that a definition stands for, in their order. -/
def calls (d : Definition) : List Step :=
  .validity d.validity :: (d.bases.map BaseDefinition.step ++ d.rules.map RuleDefinition.step)

/-- The labels of the entries of a list that fail when each is performed alone. -/
def faultyEntries (r : Recurrence) (list : String) (entries : List Step) : List String :=
  (entries.zipIdx.filter fun p => p.1.fails r).map fun p => entryLabel list p.2

/-- The labels of the entries of a definition that fail when each is performed alone on a recurrence:
the validity, the base cases and the rules. -/
def faulty (d : Definition) (r : Recurrence) : List String :=
  (if (Step.validity d.validity).fails r then ["validity"] else []) ++
    (faultyEntries r "bases" (d.bases.map BaseDefinition.step) ++
      faultyEntries r "rules" (d.rules.map RuleDefinition.step))

theorem map_snd_steps : d.steps.map Prod.snd = d.calls := by
  have hentries {α : Type} (list : String) (step : α → Step) (entries : List α) :
      ((entries.zipIdx.map fun p => (entryLabel list p.2, step p.1)).map Prod.snd) =
        entries.map step := by
    rw [List.map_map]
    exact (List.map_map (g := step)).symm.trans (congrArg (List.map step) (List.zipIdx_map_fst 0 entries))
  simp only [steps, calls, List.cons_append, List.map_cons, List.map_append, hentries]

theorem map_fst_filter_entries {α : Type} (list : String) (step : α → Step) (entries : List α) :
    ((entries.zipIdx.map fun p => (entryLabel list p.2, step p.1)).filter fun p => p.2.fails r).map
      Prod.fst = faultyEntries r list (entries.map step) := by
  rw [faultyEntries, List.zipIdx_map, List.filter_map, List.filter_map, List.map_map, List.map_map]
  rfl

theorem map_fst_filter_steps :
    (d.steps.filter fun p => p.2.fails r).map Prod.fst = d.faulty r := by
  have hvalidity : ([("validity", Step.validity d.validity)].filter fun p => p.2.fails r).map Prod.fst =
      if (Step.validity d.validity).fails r then ["validity"] else [] := by
    cases h : (Step.validity d.validity).fails r <;> simp [h]
  rw [steps, ← List.singleton_append, List.append_assoc, List.filter_append, List.filter_append,
    List.map_append, List.map_append, hvalidity, map_fst_filter_entries, map_fst_filter_entries, faulty]

/-- **Every faulty entry is reported, and nothing else is.** Of a value that has the shape of a
definition and whose header makes a recurrence, each entry is performed on that recurrence alone. If none
fails, loading gives what the calls of the builder make in their order. Otherwise it fails, and its
problems stand under the labels of the entries that fail, in their order. -/
theorem load_reports {data : Json} (file : Option String) (hshape : (read data).problems = [])
    (hd : (read data).value = d) (hheader : d.header = .ok r) :
    (d.faulty r = [] ∧ ∃ r', r.build d.calls = .ok r' ∧ load data file = .ok ⟨r', d.moduleName⟩) ∨
    (d.faulty r ≠ [] ∧ ∃ problems,
      load data file = .error (.definition (.invalid file d.name problems)) ∧
      problems.map labelOf = d.faulty r) := by
  have hlabels := map_labelOf_runSteps (r := r) rfl fun p hp => colon_not_mem_labels (d := d) hp
  rw [map_fst_filter_steps] at hlabels
  have hload : load data file = d.build file >>= fun r => .ok ⟨r, d.moduleName⟩ := by
    rw [load, hshape, hd]
    rfl
  rw [hload, build, hheader]
  generalize hrun : runSteps r d.steps = result at hlabels
  obtain ⟨r', problems⟩ := result
  rw [← hlabels]
  cases problems with
  | nil =>
    have hbuild := build_of_runSteps (congrArg Prod.snd hrun)
    rw [map_snd_steps, hrun] at hbuild
    exact .inl ⟨rfl, r', hbuild, by simp only [hrun]; rfl⟩
  | cons p ps => exact .inr ⟨List.cons_ne_nil _ _, p :: ps, by simp only [hrun]; rfl, rfl⟩

/-- A definition with a validity that mentions an unknown index, and of whose base cases and rules every
other one is faulty; the average fails at its second branch. -/
def patchy : Json :=
  .object [("name", .string "Patchy"), ("indices", .array [.string "n"]),
    ("validity", .array [.string "m >= 0"]),
    ("bases", .array [
      .object [("at", .object [("n", .number 0.0)]), ("value", .number 1.0)],
      .object [("at", .object [("n", .number 1.0)]), ("value", .string "2 $ 3")]]),
    ("rules", .array [
      .object [("when", .string "n > 0"), ("expr", .string "E[n-1]")],
      .object [("when", .string "n > 1"),
        ("branches", .array [.string "E[n-1]", .string "E[n-2"])],
      .object [("when", .string "n > 2"), ("expr", .string "2*E[n-3]")],
      .object [("when", .string "k > 2"), ("expr", .string "E[n-1]")]])]

/-- Four entries are reported. -/
theorem load_reports_patchy : ∃ r : Recurrence, (read patchy).value.header = .ok r ∧
    (read patchy).value.faulty r = ["validity", "bases[1]", "rules[1]", "rules[3]"] ∧
    ∃ problems, load patchy none =
        .error (.definition (.invalid none (read patchy).value.name problems)) ∧
      problems.map labelOf = ["validity", "bases[1]", "rules[1]", "rules[3]"] := by
  have hshape : (read patchy).problems = [] := by decide +kernel
  have hcheck : ((read patchy).value.header.toOption.any fun r =>
      (read patchy).value.faulty r == ["validity", "bases[1]", "rules[1]", "rules[3]"]) = true := by
    decide +kernel
  obtain ⟨r, hr, hfaulty⟩ := Arith.exists_ok_of_any hcheck
  rw [beq_iff_eq] at hfaulty
  rcases load_reports none hshape rfl hr with ⟨hnone, -⟩ | ⟨-, problems, hload, hlabels⟩
  · rw [hfaulty] at hnone
    exact absurd hnone (List.cons_ne_nil _ _)
  · exact ⟨r, hr, hfaulty, problems, hload, hlabels.trans hfaulty⟩

end Definition

end RecurrenceCompiler
