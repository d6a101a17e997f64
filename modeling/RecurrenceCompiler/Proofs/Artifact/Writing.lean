import RecurrenceCompiler.Artifact.Write
import RecurrenceCompiler.Proofs.Json.Fields
import RecurrenceCompiler.Proofs.Sorting
import RecurrenceCompiler.Proofs.Workspace.Directory

/-!
# Writing into a directory

Writing a text into a file that holds it already would change nothing, so a conditional write leaves what
an unconditional one does and tells whether that is new (`writeIfChanged_eq`). A list of files with
distinct names is then one sequence of writes (`putAll`), what is told of each file is about the
workspace before all of them (`writeFiles_eq`), and writing all of it again changes nothing
(`putAll_eq_self`).

The manifest lists the digests of the files by name, in the order of code units (`lists_digestFiles`). Two
kinds of names are special there: the name `__proto__` cannot be a key, and names that spell array indices are
enumerated before all others.

Main statement: artifacts written with a manifest (`writeArtifacts_exact`), for names that are not special
to the directory, to the manifest or to the keys of an object (`reserved_names_not_exact`).
-/

namespace RecurrenceCompiler

/-! ## Digests -/

namespace Json

variable {α : Type}

/-- The fields that are enumerated first. -/
theorem map_numbered (fields : List (String × α)) :
    (fields.filterMap fun f => (arrayIndex? f.1).map fun n => (n, f)).map (·.2) =
      fields.filter fun f => (arrayIndex? f.1).isSome := by
  induction fields with
  | nil => rfl
  | cons f fields ih => cases hf : arrayIndex? f.1 <;> simp [hf, ih]

/-- **Enumerating permutes the fields.** -/
theorem enumerate_perm (fields : List (String × α)) : (enumerate fields).Perm fields := by
  rw [enumerate]
  have hnumbered := (sortBy_perm (fun a b : Nat × String × α => a.1 ≤ b.1)
    (fields.filterMap fun f => (arrayIndex? f.1).map fun n => (n, f))).map (·.2)
  rw [map_numbered] at hnumbered
  refine (hnumbered.append_right _).trans ?_
  simpa using List.filter_append_perm (fun f => (arrayIndex? f.1).isSome) fields

/-- Fields without array indices are enumerated in the order in which they stand. -/
theorem filter_enumerate (fields : List (String × α)) :
    (enumerate fields).filter (fun f => (arrayIndex? f.1).isNone) =
      fields.filter fun f => (arrayIndex? f.1).isNone := by
  rw [enumerate, List.filter_append, List.filter_filter]
  have hnumbered := (sortBy_perm (fun a b : Nat × String × α => a.1 ≤ b.1)
    (fields.filterMap fun f => (arrayIndex? f.1).map fun n => (n, f))).map (·.2)
  rw [map_numbered] at hnumbered
  have hnone : (((sortBy (fun a b : Nat × String × α => a.1 ≤ b.1)
      (fields.filterMap fun f => (arrayIndex? f.1).map fun n => (n, f))).map (·.2)).filter
        fun f => (arrayIndex? f.1).isNone) = [] := by
    rw [List.filter_eq_nil_iff]
    intro f hf
    rw [Bool.not_eq_true, Option.isNone_eq_false_iff]
    exact (List.mem_filter.1 (hnumbered.mem_iff.1 hf)).2
  rw [hnone]
  simp

end Json

/-- The files of a listing with their digests: each once, all but one that cannot be a key, in order. -/
structure Lists (listing files : List (String × String)) : Prop where
  nodup : (listing.map (·.1)).Nodup
  complete : ∀ f ∈ files, f.1 ≠ "__proto__" → (f.1, Sha256.textDigest f.2) ∈ listing
  sound : ∀ d ∈ listing, ∃ f ∈ files, d = (f.1, Sha256.textDigest f.2)
  sorted : ((listing.map (·.1)).filter fun n => (Json.arrayIndex? n).isNone).Pairwise fun a b =>
    Text.unitsLe a b = true

/-- **Files with distinct names are listed with their digests.** -/
theorem lists_digestFiles {files : List (String × String)} (h : (files.map (·.1)).Nodup) :
    Lists (digestFiles files) files := by
  have htexts : files.foldl (fun fs f => Json.setField fs f.1 f.2) [] = files :=
    @Json.foldl_setField _ files [] h
  have hdigest {f : String × String} (hf : f ∈ files) :
      Json.getField? files f.1 = some f.2 := Json.getField?_of_mem h hf
  let names := Text.sortByUnits ((files.map (·.1)).filter (· != "__proto__"))
  have hnames : names.Perm ((files.map (·.1)).filter (· != "__proto__")) := sortBy_perm _ _
  have hmem {n : String} : n ∈ names ↔ n ∈ files.map (·.1) ∧ n ≠ "__proto__" := by
    rw [hnames.mem_iff, List.mem_filter, bne_iff_ne]
  let entry := fun n => (n, Sha256.textDigest ((Json.getField? files n).getD ""))
  have hdigests : digestFiles files = Json.enumerate (names.map entry) := by
    change (fun texts => Json.enumerate ((Text.sortByUnits ((texts.map (·.1)).filter (· != "__proto__"))).map
      fun n => (n, Sha256.textDigest ((Json.getField? texts n).getD ""))))
        (files.foldl (fun fs f => Json.setField fs f.1 f.2) []) = _
    rw [htexts]
  have hperm : (digestFiles files).Perm (names.map entry) := hdigests ▸ Json.enumerate_perm _
  refine ⟨?_, fun f hf hproto => ?_, fun d hd => ?_, ?_⟩
  · rw [(hperm.map _).nodup_iff, List.map_map, show (·.1) ∘ entry = id from rfl, List.map_id,
      hnames.nodup_iff]
    exact h.filter _
  · rw [hperm.mem_iff, List.mem_map]
    refine ⟨f.1, hmem.2 ⟨List.mem_map_of_mem hf, hproto⟩, ?_⟩
    simp only [entry, hdigest hf, Option.getD_some]
  · obtain ⟨n, hn, rfl⟩ := List.mem_map.1 (hperm.mem_iff.1 hd)
    obtain ⟨f, hf, rfl⟩ := List.mem_map.1 (hmem.1 hn).1
    exact ⟨f, hf, by simp only [entry, hdigest hf, Option.getD_some]⟩
  · have hsorted : names.Pairwise fun a b => Text.unitsLe a b = true := Text.pairwise_sortByUnits _
    have hplain := congrArg (List.map (·.1)) (Json.filter_enumerate (names.map entry))
    rw [← hdigests, List.filter_map, List.map_map, show (·.1) ∘ entry = id from rfl, List.map_id]
      at hplain
    rw [List.filter_map]
    exact (congrArg _ hplain).mpr (hsorted.filter _)

/-! ## Files -/

namespace Workspace

variable {w : Workspace} {dir n text : String} {loc : Location} {names : List String}

/-- Files can be written under these names into a directory. -/
structure Writable (w : Workspace) (dir : String) (loc : Location) (names : List String) : Prop where
  isDirAt : w.IsDirAt dir loc
  isName : ∀ n ∈ names, Path.IsName n
  free : ∀ n ∈ names, w.occupantAt (loc ++ [n]) ≠ some .directory

/-- Names in a directory are told apart by their paths. -/
theorem pathOf_concat_inj {m : String} (h : pathOf (loc ++ [n]) = pathOf (loc ++ [m])) : n = m := by
  have hlists := congrArg String.toList h
  simp only [pathOf, String.toList_append, String.toList_intercalate, List.map_append, List.map_cons,
    List.map_nil, List.append_cancel_left_eq] at hlists
  cases loc with
  | nil => simpa [String.toList_inj] using hlists
  | cons part loc =>
    rw [intercalate_append (by simp) (by simp), intercalate_append (by simp) (by simp)] at hlists
    simpa [String.toList_inj] using hlists

theorem Writable.put (h : w.Writable dir loc names) (hn : n ∈ names) (text : String) :
    (w.put (loc ++ [n]) text).Writable dir loc names where
  isDirAt := by
    refine h.isDirAt.keeps (keeps_put ?_ (h.free n hn) text)
    exact List.forall_mem_append.2 ⟨h.isDirAt.isWay,
      List.forall_mem_singleton.2 ⟨(h.isName n hn).ne_empty, (h.isName n hn).no_slash⟩⟩
  isName := h.isName
  free := by
    intro m hm
    rw [occupantAt_put]
    split
    · nofun
    · exact h.free m hm

/-- What a directory holds after one write. -/
theorem Writable.file?_put (h : w.Writable dir loc names) (hn : n ∈ names) {m : String}
    (hm : m ∈ names) (text : String) : (w.put (loc ++ [n]) text).file? (Path.join dir m) =
      if n = m then some text else w.file? (Path.join dir m) := by
  rw [(h.put hn text).isDirAt.file?_join (h.isName m hm), h.isDirAt.file?_join (h.isName m hm),
    files_put, Json.getField?_setField]
  by_cases hnm : n = m
  · rw [if_pos hnm, if_pos (by rw [hnm])]
  · rw [if_neg hnm, if_neg (mt pathOf_concat_inj hnm)]

/-- Writing what is there changes nothing. -/
theorem Writable.put_eq_self (h : w.Writable dir loc names) (hn : n ∈ names)
    (htext : w.file? (Path.join dir n) = some text) : w.put (loc ++ [n]) text = w := by
  rw [h.isDirAt.file?_join (h.isName n hn)] at htext
  rw [Workspace.put, Json.setField_eq_self htext]

theorem Writable.write_eq (h : w.Writable dir loc names) (hn : n ∈ names) (text : String) :
    w.write (Path.join dir n) text = .ok (w.put (loc ++ [n]) text) := by
  rw [write, h.isDirAt.find_join (h.isName n hn)]
  dsimp only [bind, Except.bind]
  split
  · next hdir => exact (h.free n hn hdir).elim
  · rfl

/-- Whether a directory does not hold a file with a text. -/
def differs (w : Workspace) (dir : String) (f : String × String) : Bool :=
  w.file? (Path.join dir f.1) != some f.2

/-- **A conditional write does what an unconditional one would**, and tells whether the text is new. -/
theorem Writable.writeIfChanged_eq (h : w.Writable dir loc names) (hn : n ∈ names) (text : String) :
    w.writeIfChanged (Path.join dir n) text =
      .ok (w.put (loc ++ [n]) text, w.differs dir (n, text)) := by
  have hself : w.file? (Path.join dir n) = some text → w.put (loc ++ [n]) text = w :=
    h.put_eq_self hn
  have hcontent := content_eq (h.isDirAt.find_join (h.isName n hn))
  rw [writeIfChanged, h.write_eq hn, differs]
  rw [file?] at hself ⊢
  cases hoccupant : w.occupantAt (loc ++ [n]) with
  | none =>
    rw [hoccupant] at hcontent
    rw [hcontent]
    rfl
  | some occupant =>
    rw [hoccupant] at hcontent
    rw [hcontent] at hself ⊢
    cases occupant with
    | directory => exact (h.free n hn hoccupant).elim
    | file old =>
      by_cases hold : old = text
      · subst hold
        have hput := hself rfl
        simp [hput]
      · simp [hold, Except.map]

/-! ## Many files -/

/-- The workspace with texts under names at a location. -/
def putAll (w : Workspace) (loc : Location) (files : List (String × String)) : Workspace :=
  files.foldl (fun w f => w.put (loc ++ [f.1]) f.2) w

variable {files : List (String × String)}

theorem Writable.putAll (h : w.Writable dir loc names) (hfiles : ∀ f ∈ files, f.1 ∈ names) :
    (w.putAll loc files).Writable dir loc names := by
  induction files generalizing w with
  | nil => exact h
  | cons f files ih =>
    rw [List.forall_mem_cons] at hfiles
    exact ih (h.put hfiles.1 f.2) hfiles.2

/-- **Nothing else is changed.** -/
theorem getField?_putAll {path : String} (hpath : ∀ f ∈ files, pathOf (loc ++ [f.1]) ≠ path) :
    Json.getField? (w.putAll loc files).files path = Json.getField? w.files path := by
  induction files generalizing w with
  | nil => rfl
  | cons f files ih =>
    rw [List.forall_mem_cons] at hpath
    refine (ih hpath.2).trans ?_
    rw [files_put, Json.getField?_setField, if_neg hpath.1]

theorem putAll_same (w : Workspace) (loc : Location) (files : List (String × String)) :
    (w.putAll loc files).dirs = w.dirs ∧ (w.putAll loc files).cwd = w.cwd := by
  induction files generalizing w with
  | nil => exact ⟨rfl, rfl⟩
  | cons f files ih => exact ih (w.put (loc ++ [f.1]) f.2)

/-- **Every file holds its text**, since no other file has its name. -/
theorem Writable.file?_putAll (h : w.Writable dir loc names) (hfiles : ∀ f ∈ files, f.1 ∈ names)
    (hnodup : (files.map (·.1)).Nodup) (hf : (n, text) ∈ files) :
    (w.putAll loc files).file? (Path.join dir n) = some text := by
  rw [(h.putAll hfiles).isDirAt.file?_join (h.isName n (hfiles _ hf))]
  induction files generalizing w with
  | nil => cases hf
  | cons g files ih =>
    rw [List.forall_mem_cons] at hfiles
    rw [List.map_cons, List.nodup_cons] at hnodup
    rcases List.mem_cons.1 hf with rfl | hf
    · refine (getField?_putAll (w := w.put (loc ++ [n]) text) fun g hg => ?_).trans ?_
      · exact mt pathOf_concat_inj (ne_of_mem_of_not_mem (List.mem_map_of_mem hg) hnodup.1)
      · rw [files_put, Json.getField?_setField, if_pos rfl]
    · exact ih (h.put hfiles.1 g.2) hfiles.2 hnodup.2 hf

/-- Writing all that is there changes nothing. -/
theorem Writable.putAll_eq_self (h : w.Writable dir loc names)
    (hfiles : ∀ f ∈ files, f.1 ∈ names ∧ w.file? (Path.join dir f.1) = some f.2) :
    w.putAll loc files = w := by
  induction files with
  | nil => rfl
  | cons f files ih =>
    rw [List.forall_mem_cons] at hfiles
    rw [Workspace.putAll, List.foldl_cons, h.put_eq_self hfiles.1.1 hfiles.1.2]
    exact ih hfiles.2

end Workspace

open Workspace

variable {w : Workspace} {dir : String} {loc : Location} {names : List String}

/-- One file is written, and told as it was. The equation is taken as a whole, since those of the
single cases are slow to make. -/
theorem writeFiles_cons {w' : Workspace} {result : WriteResult} {name text : String}
    {files : List (String × String)} {changed : Bool}
    (h : w.writeIfChanged (Path.join dir name) text = .ok (w', changed)) :
    writeFiles dir (w, result) ((name, text) :: files) = writeFiles dir (w',
      if changed then { result with written := result.written ++ [name] }
      else { result with unchanged := result.unchanged ++ [name] }) files := by
  rw [writeFiles.eq_def]
  dsimp only
  rw [h]
  cases changed <;> rfl

/-- **Files with distinct names are all written**, and each is told apart by what the directory held
before any of them was. -/
theorem writeFiles_eq {files : List (String × String)} (h : w.Writable dir loc names)
    (hfiles : ∀ f ∈ files, f.1 ∈ names) (hnodup : (files.map (·.1)).Nodup) (result : WriteResult) :
    writeFiles dir (w, result) files = (w.putAll loc files, .ok { result with
      written := result.written ++ (files.filter (w.differs dir)).map (·.1)
      unchanged := result.unchanged ++ (files.filter fun f => !w.differs dir f).map (·.1) }) := by
  induction files generalizing w result with
  | nil =>
    rw [writeFiles.eq_def]
    simp [putAll]
  | cons f files ih =>
    obtain ⟨name, text⟩ := f
    rw [List.forall_mem_cons] at hfiles
    rw [List.map_cons, List.nodup_cons] at hnodup
    have hsame : ∀ g ∈ files, (w.put (loc ++ [name]) text).differs dir g = w.differs dir g := by
      intro g hg
      have hne : name ≠ g.1 := (ne_of_mem_of_not_mem (List.mem_map_of_mem hg) hnodup.1).symm
      rw [differs, differs, h.file?_put hfiles.1 (hfiles.2 g hg), if_neg hne]
    have hunchanged := List.filter_congr fun g hg => congrArg (!·) (hsame g hg)
    rw [writeFiles_cons (h.writeIfChanged_eq hfiles.1 text), ih (h.put hfiles.1 text) hfiles.2 hnodup.2,
      List.filter_congr hsame, hunchanged]
    cases hf : w.differs dir (name, text) with
    | true => simp [hf, putAll]
    | false => simp [hf, putAll]

/-! ## Artifacts with a manifest -/

namespace Artifact

/-- The names of artifacts with their code. -/
def texts (artifacts : List Artifact) : List (String × String) :=
  artifacts.map fun a => (a.file, a.unit.code)

/-- All that is written for artifacts, the manifest last. -/
def output (artifacts : List Artifact) : List (String × String) :=
  texts artifacts ++ [(manifestFile, manifestText (texts artifacts))]

/-- The names of all that is written. -/
def outputNames (artifacts : List Artifact) : List String :=
  manifestFile :: artifacts.map (·.file)

variable (artifacts : List Artifact)

theorem map_texts : (texts artifacts).map (·.1) = artifacts.map (·.file) := by
  rw [texts, List.map_map]
  rfl

theorem map_output : ((output artifacts).map (·.1)).Perm (outputNames artifacts) := by
  rw [output, List.map_append, map_texts]
  exact List.perm_append_singleton _ _

theorem mem_outputNames_of_output : ∀ f ∈ output artifacts, f.1 ∈ outputNames artifacts := fun _ hf =>
  (map_output artifacts).mem_iff.1 (List.mem_map_of_mem hf)

theorem mem_outputNames_of_texts : ∀ f ∈ texts artifacts, f.1 ∈ outputNames artifacts := fun f hf =>
  mem_outputNames_of_output artifacts f (List.mem_append_left _ hf)

end Artifact

open Artifact

variable {artifacts : List Artifact} {w₁ : Workspace}

/-- **Artifacts and their manifest are one sequence of writes.** -/
theorem writeArtifacts_eq (hdir : w.makeDir dir = (w₁, none))
    (h : w₁.Writable dir loc (outputNames artifacts)) (hnodup : (artifacts.map (·.file)).Nodup) :
    writeArtifacts w dir artifacts true = (w₁.putAll loc (output artifacts), .ok {
      written := ((texts artifacts).filter (w₁.differs dir)).map (·.1)
      unchanged := ((texts artifacts).filter fun f => !w₁.differs dir f).map (·.1)
      manifest := some (Path.join dir manifestFile) }) := by
  have hmem := mem_outputNames_of_texts artifacts
  have hwrite := writeFiles_eq h hmem (map_texts artifacts ▸ hnodup) {}
  rw [texts] at hwrite hmem
  rw [writeArtifacts, hdir]
  dsimp only
  rw [hwrite]
  dsimp only
  rw [if_pos rfl, (h.putAll hmem).writeIfChanged_eq List.mem_cons_self]
  simp [putAll, output, texts]

/-- Every file holds what was written into it. -/
theorem file?_output (h : w₁.Writable dir loc (outputNames artifacts)) (hnodup : (outputNames artifacts).Nodup)
    {n text : String} (hf : (n, text) ∈ output artifacts) :
    (w₁.putAll loc (output artifacts)).file? (Path.join dir n) = some text :=
  h.file?_putAll (mem_outputNames_of_output artifacts) ((map_output artifacts).nodup_iff.2 hnodup) hf

/-- The text of a manifest that lists these digests. -/
def listingText (listing : List (String × String)) : String :=
  (Json.object [("generator", .string "recurforge"),
    ("files", .object (listing.map fun (n, d) => (n, .string d)))]).pretty ++ "\n"

theorem manifestText_eq (files : List (String × String)) :
    manifestText files = listingText (digestFiles files) := rfl

/-- What a directory and the rest of a workspace hold after artifacts were written with a manifest, and
what is told about it, by what they held before. -/
structure Delivered (before : Workspace) (dir : String) (loc : Location) (artifacts : List Artifact)
    (after : Workspace) (result : WriteResult) : Prop where
  /-- Each file holds exactly its code. -/
  codes : ∀ a ∈ artifacts, after.file? (Path.join dir a.file) = some a.unit.code
  /-- The manifest lists the files with the digests of what they hold. -/
  listed : ∃ listing, after.file? (Path.join dir manifestFile) = some (listingText listing) ∧
    Lists listing (texts artifacts)
  /-- Every other file is as it was, wherever it is. -/
  others : ∀ path, (∀ n ∈ outputNames artifacts, pathOf (loc ++ [n]) ≠ path) →
    Json.getField? after.files path = Json.getField? before.files path
  dirs : after.dirs = before.dirs
  /-- Every file is told once, as written or as unchanged. -/
  told : (result.written ++ result.unchanged).Perm (artifacts.map (·.file))
  /-- The unchanged files are those that held their code before. -/
  unchanged : ∀ a ∈ artifacts, a.file ∈ result.unchanged ↔
    before.file? (Path.join dir a.file) = some a.unit.code
  manifest : result.manifest = some (Path.join dir manifestFile)

/-- A file is told as unchanged exactly if it held its code. -/
theorem mem_unchanged (hnodup : (artifacts.map (·.file)).Nodup) {a : Artifact} (ha : a ∈ artifacts) :
    a.file ∈ ((texts artifacts).filter fun f => !w.differs dir f).map (·.1) ↔
      w.file? (Path.join dir a.file) = some a.unit.code := by
  have hin : (a.file, a.unit.code) ∈ texts artifacts := List.mem_map_of_mem ha
  rw [List.mem_map]
  constructor
  · rintro ⟨f, hf, heq⟩
    obtain ⟨hf, hsame⟩ := List.mem_filter.1 hf
    rw [← map_texts] at hnodup
    obtain rfl := List.inj_on_of_nodup_map hnodup hf hin heq
    simpa [differs] using hsame
  · intro hsame
    exact ⟨_, List.mem_filter.2 ⟨hin, by simpa [differs] using hsame⟩, rfl⟩

theorem delivered (h : w₁.Writable dir loc (outputNames artifacts)) (hnodup : (outputNames artifacts).Nodup) :
    Delivered w₁ dir loc artifacts (w₁.putAll loc (output artifacts)) {
      written := ((texts artifacts).filter (w₁.differs dir)).map (·.1)
      unchanged := ((texts artifacts).filter fun f => !w₁.differs dir f).map (·.1)
      manifest := some (Path.join dir manifestFile) } where
  codes := by
    intro a ha
    exact file?_output h hnodup (List.mem_append_left _ (List.mem_map_of_mem ha))
  listed := by
    refine ⟨digestFiles (texts artifacts), ?_, lists_digestFiles ?_⟩
    · have hin : (manifestFile, manifestText (texts artifacts)) ∈ output artifacts :=
        List.mem_append_right _ (List.mem_singleton_self _)
      rw [← manifestText_eq]
      exact file?_output h hnodup hin
    · rw [map_texts]
      exact (List.nodup_cons.1 hnodup).2
  others := by
    intro path hpath
    exact getField?_putAll fun f hf => hpath f.1 (mem_outputNames_of_output artifacts f hf)
  dirs := (putAll_same ..).1
  told := by
    rw [← map_texts, ← List.map_append]
    exact (List.filter_append_perm (w₁.differs dir) _).map _
  unchanged := fun _ ha => mem_unchanged (List.nodup_cons.1 hnodup).2 ha
  manifest := rfl

/-- **Artifacts that are there already are told as unchanged**, and nothing is written. -/
theorem writeArtifacts_again (h : w.Writable dir loc (outputNames artifacts))
    (hnodup : (artifacts.map (·.file)).Nodup)
    (hthere : ∀ f ∈ output artifacts, w.file? (Path.join dir f.1) = some f.2) :
    writeArtifacts w dir artifacts true = (w, .ok {
      written := []
      unchanged := artifacts.map (·.file)
      manifest := some (Path.join dir manifestFile) }) := by
  have hsame : ∀ f ∈ texts artifacts, w.differs dir f = false := by
    intro f hf
    rw [differs, hthere f (List.mem_append_left _ hf), bne_self_eq_false]
  rw [writeArtifacts_eq h.isDirAt.makeDir_eq h hnodup,
    h.putAll_eq_self fun f hf => ⟨mem_outputNames_of_output artifacts f hf, hthere f hf⟩,
    List.filter_eq_nil_iff.2 fun f hf => by simp [hsame f hf],
    List.filter_eq_self.2 fun f hf => by simp [hsame f hf], map_texts]
  rfl

/-- Artifacts whose names are names in a directory can be written into one that was made. -/
theorem exists_writable (hdir : w.makeDir dir = (w₁, none))
    (hnames : ∀ a ∈ artifacts, Path.IsName a.file)
    (hfree : ∀ n ∈ outputNames artifacts, w₁.content (Path.join dir n) ≠ .ok .directory) :
    ∃ loc, w₁.Writable dir loc (outputNames artifacts) := by
  obtain ⟨⟨loc, hloc⟩, -⟩ := isDirAt_of_makeDir hdir
  have hname : ∀ n ∈ outputNames artifacts, Path.IsName n := by
    refine List.forall_mem_cons.2 ⟨⟨by decide, by decide, by decide, by decide⟩, fun n hn => ?_⟩
    obtain ⟨a, ha, rfl⟩ := List.mem_map.1 hn
    exact hnames a ha
  refine ⟨loc, hloc, hname, fun n hn hoccupied => hfree n hn ?_⟩
  rw [content_eq (hloc.find_join (hname n hn)), hoccupied]
  rfl

/-- All that is written has distinct names, if no artifact has that of the manifest. -/
theorem nodup_outputNames (hnodup : (artifacts.map (·.file)).Nodup)
    (hmanifest : ∀ a ∈ artifacts, a.file ≠ manifestFile) : (outputNames artifacts).Nodup := by
  refine List.nodup_cons.2 ⟨fun hin => ?_, hnodup⟩
  obtain ⟨a, ha, heq⟩ := List.mem_map.1 hin
  exact hmanifest a ha heq

/-- **Writing artifacts is exact, and writing them again does nothing.** Into a directory that is there or
can be made, artifacts with distinct names, none of them that of the manifest, are written such that
each file holds its code, the manifest lists them, nothing else changes and what is told is right. A
second time nothing is written. -/
theorem writeArtifacts_exact (w w₁ : Workspace) (dir : String) (artifacts : List Artifact)
    (hdir : w.makeDir dir = (w₁, none))
    (hnames : ∀ a ∈ artifacts, Path.IsName a.file ∧ a.file ≠ manifestFile)
    (hdistinct : (artifacts.map (·.file)).Nodup)
    (hfree : ∀ n ∈ outputNames artifacts, w₁.content (Path.join dir n) ≠ .ok .directory) :
    w₁.files = w.files ∧ ∃ loc w₂ result, w₁.find dir = .ok loc ∧
      writeArtifacts w dir artifacts true = (w₂, .ok result) ∧
      Delivered w₁ dir loc artifacts w₂ result ∧
      writeArtifacts w₂ dir artifacts true =
        (w₂, .ok { written := [], unchanged := artifacts.map (·.file), manifest := result.manifest }) := by
  obtain ⟨loc, h⟩ := exists_writable hdir (fun a ha => (hnames a ha).1) hfree
  have hnodup := nodup_outputNames hdistinct fun a ha => (hnames a ha).2
  refine ⟨(isDirAt_of_makeDir hdir).2, loc, _, _, h.isDirAt.find_eq,
    writeArtifacts_eq hdir h hdistinct, delivered h hnodup, ?_⟩
  exact writeArtifacts_again (h.putAll (mem_outputNames_of_output artifacts)) hdistinct
    fun f hf => file?_output h hnodup hf

/-! ## An example -/

/-- An artifact with this text. -/
def sampleArtifact (file code : String) : Artifact where
  file := file
  recurrence := {
    name := "A", indices := ["n"], runtimeVars := [], arrayVars := [], nameSpace := "", maxIndices := []
    auxIndex := none, selfName := "E", layered := false, description := "" }
  unit := {
    recurrence := "A", kind := .perValue, source := .header code, moduleName := "", exports := []
    dependencies := [], diagnostics := [], strategies := [] }

/-- A directory that holds one of two artifacts already and one more file. -/
def halfDelivered : Workspace where
  cwd := "/"
  files := [("/out/a_coeff.hpp", "x"), ("/out/notes", "y")]
  dirs := ["/out"]

/-- The artifact that is not there is written, the other one left alone. -/
theorem writeArtifacts_exact_half : ∃ w₁ artifacts, halfDelivered.makeDir "out" = (w₁, none) ∧
    artifacts = [sampleArtifact "a_coeff.hpp" "x", sampleArtifact "a_dispatch.hpp" "z"] ∧
    (∀ a ∈ artifacts, Path.IsName a.file ∧ a.file ≠ manifestFile) ∧
    (artifacts.map (·.file)).Nodup ∧
    (∀ n ∈ outputNames artifacts, w₁.content (Path.join "out" n) ≠ .ok .directory) ∧
    ∃ loc w₂ result, w₁.find "out" = .ok loc ∧
      writeArtifacts halfDelivered "out" artifacts true = (w₂, .ok result) ∧
      Delivered w₁ "out" loc artifacts w₂ result ∧
      writeArtifacts w₂ "out" artifacts true =
        (w₂, .ok { written := [], unchanged := artifacts.map (·.file), manifest := result.manifest }) := by
  let artifacts := [sampleArtifact "a_coeff.hpp" "x", sampleArtifact "a_dispatch.hpp" "z"]
  have hcheck : ((halfDelivered.makeDir "out").2.isNone &&
      (outputNames artifacts).all fun n => !(halfDelivered.makeDir "out").1.isDir (Path.join "out" n)) =
        true := by
    decide +kernel
  rw [Bool.and_eq_true, Option.isNone_iff_eq_none, List.all_eq_true] at hcheck
  have hdir : halfDelivered.makeDir "out" = ((halfDelivered.makeDir "out").1, none) :=
    Prod.ext rfl hcheck.1
  have hnames : ∀ a ∈ artifacts, Path.IsName a.file ∧ a.file ≠ manifestFile := by
    intro a ha
    rcases List.mem_pair.1 ha with rfl | rfl
    all_goals exact ⟨⟨by decide, by decide, by decide, by decide⟩, by decide⟩
  have hdistinct : (artifacts.map (·.file)).Nodup := by decide
  have hfree : ∀ n ∈ outputNames artifacts,
      (halfDelivered.makeDir "out").1.content (Path.join "out" n) ≠ .ok .directory := by
    intro n hn hcontent
    have hisDir := hcheck.2 n hn
    rw [isDir, hcontent] at hisDir
    cases hisDir
  exact ⟨_, artifacts, hdir, rfl, hnames, hdistinct, hfree,
    (writeArtifacts_exact halfDelivered _ "out" artifacts hdir hnames hdistinct hfree).2⟩

/-- **Three kinds of names are not handled as others are**: a file under the name of the manifest does
not hold its code, `__proto__` is not listed, and array indices are listed by number. -/
theorem reserved_names_not_exact :
    (writeArtifacts { cwd := "/" } "/" [sampleArtifact "manifest.json" "x"] true).1.file?
      (Path.join "/" "manifest.json") ≠ some "x" ∧
    digestFiles (texts [sampleArtifact "__proto__" "x"]) = [] ∧
    (digestFiles (texts [sampleArtifact "10" "x", sampleArtifact "9" "y"])).map (·.1) = ["9", "10"] ∧
    ¬["9", "10"].Pairwise fun a b => Text.unitsLe a b = true := by
  refine ⟨?_, ?_, ?_, ?_⟩
  · decide +kernel
  · decide +kernel
  · decide +kernel
  · decide +kernel

end RecurrenceCompiler
