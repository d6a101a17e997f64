import RecurrenceCompiler.Proofs.Artifact.Emission
import RecurrenceCompiler.Proofs.Artifact.Writing
import RecurrenceCompiler.Proofs.Recurrence.Built

/-!
# File names

The name of a file tells the kind of its unit and the name of its recurrence in lower case
(`unitFile_inj`). Names of recurrences in a catalog are distinct, but nothing keeps them distinct in
lower case, so the files of two recurrences whose names differ in case only have the same names and the
later ones overwrite the others (`case_overwrites`).

Main statement: the file names of a batch are distinct exactly if its recurrences are told apart by
their names in lower case, and then all files are found in the directory after writing, and in the
manifest (`generateAll_files_kept`).
-/

namespace RecurrenceCompiler

open Text Arith Artifact

/-! ## Names of files -/

/-- **A file name tells the kind and the name in lower case.** -/
theorem unitFile_inj {m n : String} {k l : UnitKind} {extension : String}
    (h : unitFile m k extension = unitFile n l extension) : lowercase m = lowercase n ∧ k = l := by
  have hstem : lowercase m ++ "_" ++ k.suffix = lowercase n ++ "_" ++ l.suffix := by
    simpa [unitFile] using h
  -- The kinds have different last letters.
  have hlast := congrArg (fun t : String => t.toList.getLast?) hstem
  have hkind : k = l := by
    cases k <;> cases l <;> first | rfl | simp [UnitKind.suffix] at hlast
  subst hkind
  exact ⟨by simpa using hstem, rfl⟩

/-- A small letter is no slash. -/
theorem toLower_ne_slash {c : Char} (hc : isWord c = true) : c.toNat < 128 ∧ c.toLower ≠ '/' := by
  have hlt : c.toNat < 128 := by
    simp only [isWord, isNameStart, isDigit, Bool.or_eq_true, Bool.and_eq_true, decide_eq_true_eq,
      beq_iff_eq, Char.le_def] at hc
    rcases hc with ((⟨-, hc⟩ | ⟨-, hc⟩) | rfl) | ⟨-, hc⟩
    · exact lt_of_le_of_lt hc (by decide)
    · exact lt_of_le_of_lt hc (by decide)
    · decide
    · exact lt_of_le_of_lt hc (by decide)
  refine ⟨hlt, ?_⟩
  have hall : ∀ n : Fin 128, isWord (Char.ofNat n) = true → (Char.ofNat n).toLower ≠ '/' := by decide
  have hchar := hall ⟨c.toNat, hlt⟩
  rw [Char.ofNat_toNat] at hchar
  exact hchar hc

theorem no_slash_lowercase {n : String} (hn : isIdentifier n = true) :
    '/' ∉ (lowercase n).toList := by
  rw [lowercase, String.toList_ofList]
  have hwords : ∀ c ∈ n.toList, isWord c = true := by
    rw [isIdentifier] at hn
    cases hcs : n.toList with
    | nil => exact List.forall_mem_nil _
    | cons c cs =>
      rw [hcs, isName, Bool.and_eq_true, List.all_eq_true] at hn
      exact List.forall_mem_cons.2 ⟨by simp [isWord, hn.1], hn.2⟩
  generalize n.toList = cs at hwords
  generalize ([] : List Char) = before
  induction cs generalizing before with
  | nil => exact List.not_mem_nil
  | cons c cs ih =>
    rw [List.forall_mem_cons] at hwords
    obtain ⟨hlt, hslash⟩ := toLower_ne_slash hwords.1
    rw [lowerAfter, if_pos hlt, List.singleton_append, List.mem_cons, not_or]
    exact ⟨hslash.symm, ih hwords.2 _⟩

/-- **A file name is a name in a directory**, not that of the manifest, and it can be a key. -/
theorem isName_unitFile {n : String} (hn : isIdentifier n = true) (k : UnitKind) (o : CodegenOptions) :
    Path.IsName (unitFile n k o.dialect.extension) ∧
      unitFile n k o.dialect.extension ≠ manifestFile ∧
      unitFile n k o.dialect.extension ≠ "__proto__" := by
  have hslash := no_slash_lowercase hn
  have hextension : o.dialect.extension = "hpp" ∨ o.dialect.extension = "js" := by
    rw [Dialect.extension]
    split
    · exact .inl rfl
    · exact .inr rfl
  have hmem : '_' ∈ (unitFile n k o.dialect.extension).toList := by simp [unitFile]
  have hlast : ∀ t : String, t.toList.getLast? = some 'n' ∨ t.toList.getLast? = some '_' →
      unitFile n k o.dialect.extension ≠ t := by
    rintro t ht rfl
    rw [unitFile, String.toList_append, List.getLast?_append] at ht
    revert ht
    rcases hextension with h | h
    all_goals
      rw [h]
      simp
  refine ⟨⟨?_, ?_, ?_, ?_⟩, hlast _ (.inl (by decide)), hlast _ (.inr (by decide))⟩
  · exact fun heq => by simp [heq] at hmem
  · exact fun heq => by simp [heq] at hmem
  · exact fun heq => by simp [heq] at hmem
  · rcases hextension with h | h
    all_goals cases k <;> simp [unitFile, UnitKind.suffix, h, hslash]

/-! ## Files of a batch -/

/-- The recurrences of a batch are told apart by their names in lower case. -/
def CaseDistinct (artifacts : List Artifact) : Prop :=
  ∀ a ∈ artifacts, ∀ b ∈ artifacts,
    lowercase a.recurrence.name = lowercase b.recurrence.name → a.recurrence.name = b.recurrence.name

namespace Catalog

variable {c : Catalog} {o : CodegenOptions} {rs : List Recurrence} {artifacts : List Artifact}

theorem nodup_jobs (h : c.Listed rs) : (rs.flatMap Recurrence.jobs).Nodup := by
  rw [List.nodup_flatMap]
  refine ⟨fun r _ => ?_, ?_⟩
  · refine List.Nodup.map (fun _ _ heq => congrArg Prod.snd heq) ?_
    rw [Recurrence.unitKinds]
    split <;> decide
  · refine h.distinct.of_map.imp fun hne => ?_
    intro job hleft hright
    exact hne ((Recurrence.mem_jobs.1 hleft).1.symm.trans (Recurrence.mem_jobs.1 hright).1)

theorem map_file (h : List.Forall₂ (Artifact.Does c o) (rs.flatMap Recurrence.jobs) artifacts) :
    artifacts.map (·.file) = (rs.flatMap Recurrence.jobs).map fun job =>
      job.1.fileName job.2 o.dialect.extension := by
  generalize rs.flatMap Recurrence.jobs = jobs at h
  induction h with
  | nil => rfl
  | cons hdoes _ ih => rw [List.map_cons, List.map_cons, ih, hdoes.file_eq]

theorem mem_of_mem_jobs {job : Recurrence × UnitKind} (h : job ∈ rs.flatMap Recurrence.jobs) :
    job.1 ∈ rs := by
  obtain ⟨r, hr, hjob⟩ := List.mem_flatMap.1 h
  exact (Recurrence.mem_jobs.1 hjob).1 ▸ hr

/-- Every recurrence gets code for single values. -/
theorem mem_jobs_perValue {r : Recurrence} (h : r ∈ rs) :
    (r, UnitKind.perValue) ∈ rs.flatMap Recurrence.jobs :=
  List.mem_flatMap.2 ⟨r, h, Recurrence.mem_jobs.2 ⟨rfl, Recurrence.mem_unitKinds.2 nofun⟩⟩

theorem recurrence_mem (h : List.Forall₂ (Artifact.Does c o) (rs.flatMap Recurrence.jobs) artifacts)
    {a : Artifact} (ha : a ∈ artifacts) : a.recurrence ∈ rs := by
  obtain ⟨job, hjob, hdoes⟩ := Recurrence.exists_of_forall₂ h ha
  exact hdoes.recurrence_eq ▸ mem_of_mem_jobs hjob

/-- **File names are distinct exactly if recurrences are told apart in lower case.** -/
theorem files_nodup_iff {names : Option (List String)} (h : c.generateAll o names = .ok artifacts) :
    (artifacts.map (·.file)).Nodup ↔ CaseDistinct artifacts := by
  obtain ⟨rs, hlisted, hfiles⟩ := generateAll_eq_ok h
  constructor
  · intro hnodup a ha b hb hcase
    rw [map_file hfiles] at hnodup
    -- The two recurrences have code for single values in files of the same name.
    have hfile : a.recurrence.fileName .perValue o.dialect.extension =
        b.recurrence.fileName .perValue o.dialect.extension := by
      rw [Recurrence.fileName, Recurrence.fileName, unitFile, unitFile, hcase]
    have hsame := List.inj_on_of_nodup_map hnodup (mem_jobs_perValue (recurrence_mem hfiles ha))
      (mem_jobs_perValue (recurrence_mem hfiles hb)) hfile
    rw [(Prod.mk.inj hsame).1]
  · intro hcase
    rw [map_file hfiles]
    refine (nodup_jobs hlisted).map_on fun job hjob job' hjob' heq => ?_
    obtain ⟨a, ha, hdoes⟩ := exists_right_of_forall₂ hfiles hjob
    obtain ⟨b, hb, hdoes'⟩ := exists_right_of_forall₂ hfiles hjob'
    obtain ⟨hlower, hkind⟩ := unitFile_inj heq
    have hname := hcase a ha b hb (by rwa [hdoes.recurrence_eq, hdoes'.recurrence_eq])
    rw [hdoes.recurrence_eq, hdoes'.recurrence_eq] at hname
    exact Prod.ext (List.inj_on_of_nodup_map hlisted.distinct (mem_of_mem_jobs hjob)
      (mem_of_mem_jobs hjob') hname) hkind

/-- **Generated files are kept exactly if recurrences are told apart by their names in lower case.** Then
after a batch was written into any directory every file holds its code and is in the manifest. -/
theorem generateAll_files_kept (c : Catalog) (o : CodegenOptions) (names : Option (List String))
    (artifacts : List Artifact) (hbuilt : ∀ r ∈ c.all, r.Built)
    (h : c.generateAll o names = .ok artifacts) :
    ((artifacts.map (·.file)).Nodup ↔ CaseDistinct artifacts) ∧
    (CaseDistinct artifacts → ∀ w w₁ dir, w.makeDir dir = (w₁, none) →
      (∀ n ∈ outputNames artifacts, w₁.content (Path.join dir n) ≠ .ok .directory) →
      ∃ w₂ result listing, writeArtifacts w dir artifacts true = (w₂, .ok result) ∧
        w₂.file? (Path.join dir manifestFile) = some (listingText listing) ∧
        ∀ a ∈ artifacts, w₂.file? (Path.join dir a.file) = some a.unit.code ∧
          (a.file, Sha256.textDigest a.unit.code) ∈ listing) := by
  have hiff := files_nodup_iff h
  refine ⟨hiff, fun hcase w w₁ dir hdir hfree => ?_⟩
  obtain ⟨rs, hlisted, hfiles⟩ := generateAll_eq_ok h
  have hnames : ∀ a ∈ artifacts, Path.IsName a.file ∧ a.file ≠ manifestFile ∧ a.file ≠ "__proto__" := by
    intro a ha
    obtain ⟨job, hjob, hdoes⟩ := Recurrence.exists_of_forall₂ hfiles ha
    have hreg := mem_all.2 (hlisted.registered _ (mem_of_mem_jobs hjob))
    obtain ⟨_, r₀, hcreated, hheader⟩ := (hbuilt _ hreg).exists_created
    rw [hdoes.file_eq, Recurrence.fileName, hheader]
    exact isName_unitFile hcreated.named job.2 o
  obtain ⟨loc, hwritable⟩ := exists_writable hdir (fun a ha => (hnames a ha).1) hfree
  have hnodup := nodup_outputNames (hiff.2 hcase) fun a ha => (hnames a ha).2.1
  have hdelivered := delivered hwritable hnodup
  obtain ⟨listing, hmanifest, hlists⟩ := hdelivered.listed
  refine ⟨_, _, listing, writeArtifacts_eq hdir hwritable (hiff.2 hcase), hmanifest, fun a ha => ?_⟩
  have hin : (a.file, a.unit.code) ∈ texts artifacts := List.mem_map_of_mem ha
  exact ⟨hdelivered.codes a ha, hlists.complete _ hin (hnames a ha).2.2⟩

/-! ## An example -/

/-- Two recurrences without cross calls. -/
def twoEntries (first second : String) : Except Error Catalog := do
  let r ← sampleEntry first "E[n-1]"
  let s ← sampleEntry second "E[n-1]"
  (← ({} : Catalog).register r userModule).register s userModule

theorem built_sampleEntry {name body : String} {r : Recurrence} (h : sampleEntry name body = .ok r) :
    r.Built :=
  Recurrence.Built.of_create h

theorem built_twoEntries {first second : String} (h : twoEntries first second = .ok c) :
    ∀ r ∈ c.all, r.Built := by
  obtain ⟨r, hr, h⟩ := bind_ok h
  obtain ⟨s, hs, h⟩ := bind_ok h
  obtain ⟨d, hd, h⟩ := bind_ok h
  rw [all_register h, all_register hd]
  simp [all, built_sampleEntry hr, built_sampleEntry hs]

/-- The four files of two recurrences are kept. -/
theorem generateAll_files_kept_two : ∃ c artifacts, twoEntries "Foo" "Bar" = .ok c ∧
    (∀ r ∈ c.all, r.Built) ∧ c.generateAll { target := .js } none = .ok artifacts ∧
    CaseDistinct artifacts ∧ (artifacts.map (·.file)).Nodup ∧
    ∃ w₂ result listing, writeArtifacts { cwd := "/" } "/" artifacts true = (w₂, .ok result) ∧
      w₂.file? (Path.join "/" manifestFile) = some (listingText listing) ∧
      ∀ a ∈ artifacts, w₂.file? (Path.join "/" a.file) = some a.unit.code ∧
        (a.file, Sha256.textDigest a.unit.code) ∈ listing := by
  have hcheck : ((twoEntries "Foo" "Bar").toOption.any fun c =>
      (c.generateAll { target := .js } none).toOption.any fun artifacts =>
        (artifacts.all fun a => a.recurrence.name == "Foo" || a.recurrence.name == "Bar") &&
        (outputNames artifacts).all fun n => !({ cwd := "/" } : Workspace).isDir (Path.join "/" n)) =
      true := by
    decide +kernel
  obtain ⟨c, hc, hcheck⟩ := exists_ok_of_any hcheck
  obtain ⟨artifacts, hartifacts, hcheck⟩ := exists_ok_of_any hcheck
  simp only [Bool.and_eq_true, List.all_eq_true, Bool.or_eq_true, beq_iff_eq] at hcheck
  obtain ⟨hnames, hfree⟩ := hcheck
  have hlower : lowercase "Foo" ≠ lowercase "Bar" := by decide +kernel
  have hcase : CaseDistinct artifacts := by
    intro a ha b hb heq
    rcases hnames a ha with hname | hname <;> rcases hnames b hb with hname' | hname' <;>
      rw [hname, hname'] at heq ⊢
    · exact (hlower heq).elim
    · exact (hlower heq.symm).elim
  have hroot : ({ cwd := "/" } : Workspace).IsDirAt "/" [] := ⟨by decide +kernel, rfl⟩
  have hdir := hroot.makeDir_eq
  have hkept := generateAll_files_kept c { target := .js } none artifacts (built_twoEntries hc) hartifacts
  refine ⟨c, artifacts, hc, built_twoEntries hc, hartifacts, hcase, hkept.1.2 hcase,
    hkept.2 hcase _ _ "/" hdir fun n hn hcontent => ?_⟩
  have hisDir := hfree n hn
  rw [Workspace.isDir, hcontent] at hisDir
  cases hisDir

/-- Whether the first and the third of four files have one name and export different functions. -/
def overwrites : List Artifact → Bool
  | [a, _, b, _] => a.file == b.file && a.unit.exports != b.unit.exports
  | _ => false

/-- **Files of recurrences whose names differ in case only overwrite each other**: they have one name
and export different functions, of which one is lost. -/
theorem case_overwrites : ∃ c artifacts, twoEntries "Foo" "foo" = .ok c ∧
    c.generateAll { target := .js } none = .ok artifacts ∧ ¬(artifacts.map (·.file)).Nodup ∧
    ∃ a ∈ artifacts, ∃ b ∈ artifacts, a.file = b.file ∧ a.unit.exports ≠ b.unit.exports := by
  have hcheck : ((twoEntries "Foo" "foo").toOption.any fun c =>
      (c.generateAll { target := .js } none).toOption.any overwrites) = true := by
    decide +kernel
  obtain ⟨c, hc, hcheck⟩ := exists_ok_of_any hcheck
  obtain ⟨artifacts, hartifacts, hcheck⟩ := exists_ok_of_any hcheck
  unfold overwrites at hcheck
  split at hcheck
  · next a x b y =>
    rw [Bool.and_eq_true, beq_iff_eq, bne_iff_ne] at hcheck
    refine ⟨c, [a, x, b, y], hc, hartifacts, ?_, a, by simp, b, by simp, hcheck⟩
    simp [hcheck.1]
  · cases hcheck

end Catalog

end RecurrenceCompiler
