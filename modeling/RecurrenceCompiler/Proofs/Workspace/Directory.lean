import RecurrenceCompiler.Proofs.Arith.Grammar
import RecurrenceCompiler.Proofs.Joined
import RecurrenceCompiler.Proofs.Json.Fields
import RecurrenceCompiler.Proofs.Workspace.Path
import RecurrenceCompiler.Workspace.Basic

/-!
# Files in a directory

A path that leads to a directory leads to one location (`IsDirAt`), and the path of a file in it to the
location under the name (`IsDirAt.find_join`): the parts that normalising leaves are a way through
directories that the walk along all parts has seen (`walk_normalized`). Walks lead to the same place as
long as no directory is lost (`Keeps`), which is so when a file is written where no directory is.

Making a directory changes no file and leads to a directory (`isDirAt_of_makeDir`); one that is there is
left as it is (`IsDirAt.makeDir_eq`).
-/

namespace RecurrenceCompiler

open Arith

namespace Workspace

variable {w w' : Workspace} {loc loc' : Location} {dir n text : String}

/-! ## Locations -/

/-- The names on the way to a location. -/
def IsWay (loc : Location) : Prop :=
  ∀ part ∈ loc, part ≠ "" ∧ '/' ∉ part.toList

theorem IsWay.step {part : String} (h : IsWay loc) (hpart : '/' ∉ part.toList) :
    IsWay (step loc part) := by
  unfold Workspace.step
  split
  · exact h
  · next hempty =>
    rw [Bool.or_eq_true, String.isEmpty_iff, not_or] at hempty
    split
    · exact fun q hq => h q (List.mem_of_mem_dropLast hq)
    · exact List.forall_mem_append.2 ⟨h, List.forall_mem_singleton.2 ⟨hempty.1, hpart⟩⟩

theorem isWay_start (w : Workspace) (p : String) : IsWay (w.start p) := by
  rw [start]
  split
  · exact List.forall_mem_nil _
  · intro part hpart
    obtain ⟨hempty, -, hslash⟩ := Path.isPart_of_mem_parts hpart
    exact ⟨hempty, hslash⟩

/-- **Locations are told apart by their paths.** -/
theorem pathOf_inj (h : IsWay loc) (h' : IsWay loc') (heq : pathOf loc = pathOf loc') :
    loc = loc' := by
  have hlists {l : Location} (hl : IsWay l) : ∀ cs ∈ l.map String.toList, cs ≠ [] ∧ '/' ∉ cs := by
    intro cs hcs
    obtain ⟨part, hpart, rfl⟩ := List.mem_map.1 hcs
    exact ⟨fun hnil => (hl part hpart).1 (String.toList_eq_nil_iff.1 hnil), (hl part hpart).2⟩
  have hjoined := congrArg String.toList heq
  rw [pathOf, pathOf, String.toList_append, String.toList_append, List.append_cancel_left_eq,
    String.toList_intercalate, String.toList_intercalate] at hjoined
  exact List.map_injective_iff.2 (fun _ _ => String.toList_inj.1)
    (intercalate_inj (hlists h) (hlists h') hjoined)

/-! ## Walks -/

theorem walk_append (loc : Location) (ps qs : List String) :
    w.walk loc (ps ++ qs) = w.walk loc ps >>= fun loc' => w.walk loc' qs := by
  induction ps generalizing loc with
  | nil => rfl
  | cons p ps ih =>
    rw [List.cons_append, walk, walk]
    split
    · rfl
    · rfl
    · exact ih _

/-- One part is taken from a directory. -/
theorem walk_cons_eq_ok {part : String} {parts : List String}
    (h : w.walk loc (part :: parts) = .ok loc') :
    w.occupantAt loc = some .directory ∧ w.walk (step loc part) parts = .ok loc' := by
  rw [walk] at h
  split at h
  · cases h
  · cases h
  · next hdir => exact ⟨hdir, h⟩

theorem walk_cons (hdir : w.occupantAt loc = some .directory) (part : String) (parts : List String) :
    w.walk loc (part :: parts) = w.walk (step loc part) parts := by
  rw [walk, hdir]

/-- An empty part only asks for a directory, which the next part asks for too. -/
theorem walk_skip {parts : List String} (hparts : parts ≠ []) :
    w.walk loc ("" :: parts) = w.walk loc parts := by
  obtain ⟨part, parts, rfl⟩ := List.exists_cons_of_ne_nil hparts
  cases hloc : w.occupantAt loc with
  | none => simp only [walk, hloc]
  | some occupant =>
    cases occupant with
    | file text => simp only [walk, hloc]
    | directory => exact walk_cons hloc "" _

theorem IsWay.walk {parts : List String} (hloc : IsWay loc) (hparts : ∀ q ∈ parts, '/' ∉ q.toList)
    (h : w.walk loc parts = .ok loc') : IsWay loc' := by
  induction parts generalizing loc with
  | nil =>
    cases h
    exact hloc
  | cons q parts ih =>
    rw [List.forall_mem_cons] at hparts
    exact ih (hloc.step hparts.1) hparts.2 (walk_cons_eq_ok h).2

/-- A name leads down. -/
theorem step_name (hempty : n ≠ "") (hdot : n ≠ ".") (hdots : n ≠ "..") : step loc n = loc ++ [n] := by
  rw [step, if_neg (by simp [hempty, hdot]), if_neg (by simp [hdots])]

/-- **Normalised parts lead where all parts lead.** The induction goes along the parts; the stack of
those before leads to where the walk has come. -/
theorem walk_normalized {absolute : Bool} {start : Location} {raw stack : List String}
    (hroot : absolute = true → start = []) (hstack : ∀ s ∈ stack, Path.IsPart s)
    (hraw : ∀ q ∈ raw, '/' ∉ q.toList) (hloc : w.walk start stack.reverse = .ok loc)
    (h : w.walk loc raw = .ok loc') :
    w.walk start (raw.foldl (Path.push absolute) stack).reverse = .ok loc' := by
  induction raw generalizing stack loc with
  | nil =>
    cases h
    exact hloc
  | cons part raw ih =>
    rw [List.forall_mem_cons] at hraw
    obtain ⟨hdir, h⟩ := walk_cons_eq_ok h
    refine ih (Path.isPart_push hstack hraw.1) hraw.2 ?_ h
    generalize hnext : Path.push absolute stack part = next
    have hdown {q : String} : w.walk start (q :: stack).reverse = .ok (step loc q) := by
      rw [List.reverse_cons, walk_append, hloc]
      exact walk_cons hdir q []
    cases hnext ▸ Path.pushed_push absolute stack part with
    | same hpart =>
      rw [hloc, step, if_pos (by simpa using hpart)]
    | root hpart habs hnil =>
      subst hnil
      cases hloc
      rw [hpart, hroot habs]
      rfl
    | above hpart _ =>
      rw [hpart]
      exact hdown
    | @back last rest hpart hlast hs =>
      subst hs
      obtain ⟨hempty, hdot, -⟩ := hstack last (by simp)
      rw [List.reverse_cons, walk_append] at hloc
      obtain ⟨above, habove, hloc⟩ := bind_ok hloc
      obtain ⟨-, hloc⟩ := walk_cons_eq_ok hloc
      cases hloc
      rw [habove, hpart, step_name hempty hdot hlast]
      exact congrArg Except.ok List.dropLast_concat.symm
    | down _ _ _ => exact hdown

/-! ## Directories -/

/-- A path leads to a directory at a location. -/
structure IsDirAt (w : Workspace) (dir : String) (loc : Location) : Prop where
  find_eq : w.find dir = .ok loc
  occupied : w.occupantAt loc = some .directory

theorem find_eq_ok (h : w.find dir = .ok loc) :
    dir ≠ "" ∧ w.walk (w.start dir) (Path.rawParts dir) = .ok loc := by
  rw [find] at h
  split at h
  · cases h
  · next hempty => exact ⟨fun heq => hempty (String.isEmpty_iff.2 heq), h⟩

theorem content_eq {p : String} (h : w.find p = .ok loc) :
    w.content p = (w.occupantAt loc).elim (.error .missing) .ok := by
  rw [content, h]
  dsimp only [bind, Except.bind]
  cases w.occupantAt loc <;> rfl

theorem isDirAt_of_content (h : w.content dir = .ok .directory) : ∃ loc, w.IsDirAt dir loc := by
  obtain ⟨loc, hfind, h⟩ := bind_ok h
  split at h
  · next occupant hoccupant =>
    cases h
    exact ⟨loc, hfind, hoccupant⟩
  · cases h

theorem IsDirAt.content_eq (h : w.IsDirAt dir loc) : w.content dir = .ok .directory := by
  rw [Workspace.content_eq h.find_eq, h.occupied]
  rfl

theorem IsDirAt.isWay (h : w.IsDirAt dir loc) : IsWay loc :=
  (isWay_start w dir).walk (fun _ => Path.no_slash_of_mem_rawParts) (find_eq_ok h.find_eq).2

/-- **A file in a directory is at the location under its name.** -/
theorem IsDirAt.find_join (h : w.IsDirAt dir loc) (hn : Path.IsName n) :
    w.find (Path.join dir n) = .ok (loc ++ [n]) := by
  obtain ⟨hdir, hwalk⟩ := find_eq_ok h.find_eq
  obtain ⟨hraw, habs, hne⟩ := Path.rawParts_join hdir hn
  have hparts : w.walk (w.start dir) (Path.parts dir) = .ok loc := by
    have hempty : w.walk (w.start dir) ([] : List String).reverse = .ok (w.start dir) := rfl
    refine walk_normalized (fun habs => ?_) (List.forall_mem_nil _)
      (fun _ => Path.no_slash_of_mem_rawParts) hempty hwalk
    rw [start, if_pos habs]
  have hname : w.walk (w.start dir) (Path.parts dir ++ [n]) = .ok (loc ++ [n]) := by
    rw [walk_append, hparts]
    change w.walk loc [n] = _
    rw [walk_cons h.occupied, step_name hn.ne_empty hn.ne_dot hn.ne_dots]
    rfl
  have hstart : w.start (Path.join dir n) = w.start dir := by
    rw [start, start, habs]
  rw [find, if_neg (mt String.isEmpty_iff.1 hne), hraw, hstart]
  split
  · exact (walk_skip (by simp)).trans hname
  · exact hname

/-- What a directory holds under a name. -/
theorem IsDirAt.file?_join (h : w.IsDirAt dir loc) (hn : Path.IsName n) :
    w.file? (Path.join dir n) = Json.getField? w.files (pathOf (loc ++ [n])) := by
  rw [file?, Workspace.content_eq (h.find_join hn), occupantAt]
  cases Json.getField? w.files (pathOf (loc ++ [n])) with
  | some text => rfl
  | none =>
    dsimp only
    split
    · next heq =>
      split at heq <;> cases heq
    · rfl

/-! ## Workspaces with more in them -/

/-- No directory is lost. -/
structure Keeps (w w' : Workspace) : Prop where
  cwd_eq : w'.cwd = w.cwd
  directory : ∀ loc, IsWay loc → w.occupantAt loc = some .directory →
    w'.occupantAt loc = some .directory

theorem Keeps.walk (h : w.Keeps w') {parts : List String} (hloc : IsWay loc)
    (hparts : ∀ q ∈ parts, '/' ∉ q.toList) (hwalk : w.walk loc parts = .ok loc') :
    w'.walk loc parts = .ok loc' := by
  induction parts generalizing loc with
  | nil => exact hwalk
  | cons q parts ih =>
    rw [List.forall_mem_cons] at hparts
    obtain ⟨hdir, hrest⟩ := walk_cons_eq_ok hwalk
    rw [walk_cons (h.directory loc hloc hdir)]
    exact ih (hloc.step hparts.1) hparts.2 hrest

theorem Keeps.start_eq (h : w.Keeps w') (p : String) : w'.start p = w.start p := by
  rw [start, start, h.cwd_eq]

/-- **A directory is still found where none is lost.** -/
theorem IsDirAt.keeps (h : w.IsDirAt dir loc) (hkeeps : w.Keeps w') : w'.IsDirAt dir loc := by
  obtain ⟨hdir, hwalk⟩ := find_eq_ok h.find_eq
  refine ⟨?_, hkeeps.directory loc h.isWay h.occupied⟩
  rw [find, if_neg (mt String.isEmpty_iff.1 hdir), hkeeps.start_eq]
  exact hkeeps.walk (isWay_start w dir) (fun _ => Path.no_slash_of_mem_rawParts) hwalk

/-- The workspace with a text at a location. -/
def put (w : Workspace) (loc : Location) (text : String) : Workspace :=
  { w with files := Json.setField w.files (pathOf loc) text }

theorem files_put (w : Workspace) (loc : Location) (text : String) :
    (w.put loc text).files = Json.setField w.files (pathOf loc) text := rfl

theorem occupantAt_put (text : String) : (w.put loc text).occupantAt loc' =
    if pathOf loc = pathOf loc' then some (.file text) else w.occupantAt loc' := by
  rw [occupantAt, files_put, Json.getField?_setField]
  by_cases h : pathOf loc = pathOf loc'
  · rw [if_pos h, if_pos h]
  · rw [if_neg h, if_neg h, occupantAt]
    rfl

/-- A file takes no directory away where there is none. -/
theorem keeps_put (hloc : IsWay loc) (hfree : w.occupantAt loc ≠ some .directory) (text : String) :
    w.Keeps (w.put loc text) where
  cwd_eq := rfl
  directory := by
    intro other hother hdir
    rw [occupantAt_put, if_neg]
    · exact hdir
    · intro heq
      obtain rfl := pathOf_inj hloc hother heq
      exact hfree hdir

/-! ## Making directories -/

/-- The workspace with one more directory. -/
theorem keeps_addDir {path : String} : w.Keeps { w with dirs := w.dirs ++ [path] } where
  cwd_eq := rfl
  directory := by
    intro loc _ hdir
    simp only [occupantAt] at hdir ⊢
    split at hdir
    · cases hdir
    · split at hdir
      · next hin => rw [if_pos (by simp_all; tauto)]
      · cases hdir

theorem occupantAt_addDir (h : w.occupantAt loc = none) :
    ({ w with dirs := w.dirs ++ [pathOf loc] } : Workspace).occupantAt loc = some .directory := by
  simp only [occupantAt] at h ⊢
  split at h
  · cases h
  · rw [if_pos (by simp)]

/-- A path ends in a part, but for empty parts after it. -/
theorem rawParts_eq_append {last : String} {front : List String}
    (h : (Path.rawParts dir).reverse.dropWhile String.isEmpty = last :: front) :
    last ≠ "" ∧ ∃ k, Path.rawParts dir = front.reverse ++ last :: List.replicate k "" := by
  have hlast : last.isEmpty = false := by
    have hhead := List.head_dropWhile_not String.isEmpty (h ▸ List.cons_ne_nil _ _)
    simpa only [h, List.head_cons] using hhead
  refine ⟨fun heq => by simp [heq] at hlast, ?_⟩
  obtain ⟨k, hk⟩ : ∃ k, (Path.rawParts dir).reverse.takeWhile String.isEmpty = List.replicate k "" :=
    ⟨_, List.eq_replicate_iff.2 ⟨rfl, fun q hq => String.isEmpty_iff.1 (List.mem_takeWhile_imp hq)⟩⟩
  have hsplit := List.takeWhile_append_dropWhile (p := String.isEmpty) (l := (Path.rawParts dir).reverse)
  rw [hk, h] at hsplit
  refine ⟨k, ?_⟩
  rw [← List.reverse_inj, ← hsplit, List.reverse_append, List.reverse_cons, List.reverse_replicate,
    List.reverse_reverse, List.append_assoc, List.singleton_append]

/-- Empty parts lead nowhere else. -/
theorem walk_replicate (h : w.occupantAt loc = some .directory) (k : Nat) :
    w.walk loc (List.replicate k "") = .ok loc := by
  induction k with
  | zero => rfl
  | succ k ih =>
    rw [List.replicate_succ, walk_cons h]
    exact ih

/-- Where empty parts can be taken, or nothing but the end is asked for, there is something. -/
theorem isSome_of_walk_replicate {k : Nat} (h : w.walk loc (List.replicate k "") = .ok loc')
    (hend : w.occupantAt loc' = some .directory) : (w.occupantAt loc).isSome = true := by
  cases k with
  | zero =>
    cases h
    rw [hend]
    rfl
  | succ k =>
    rw [List.replicate_succ] at h
    rw [(walk_cons_eq_ok h).1]
    rfl

/-- **A directory that is made is found afterwards**, and files are as they were. -/
theorem isDirAt_of_makeOne (h : w.makeOne dir = .ok w') :
    (∃ loc, w'.IsDirAt dir loc) ∧ w'.files = w.files := by
  rw [makeOne] at h
  split at h
  · cases h
  · next hempty =>
    split at h
    · cases h
    · next last front hparts =>
      obtain ⟨hlast, k, hraw⟩ := rawParts_eq_append hparts
      obtain ⟨above, habove, h⟩ := bind_ok h
      split at h
      · cases h
      · cases h
      · next hdir =>
        dsimp only at h
        split at h
        · cases h
        · next hfree =>
          cases h
          rw [Bool.or_eq_true, Bool.or_eq_true, not_or, Option.not_isSome_iff_eq_none] at hfree
          have hkeeps : w.Keeps { w with dirs := w.dirs ++ [pathOf (step above last)] } := keeps_addDir
          have hmade := occupantAt_addDir hfree.2
          refine ⟨⟨step above last, ?_, hmade⟩, rfl⟩
          rw [find, if_neg hempty, hkeeps.start_eq, hraw, walk_append]
          have hfront := hkeeps.walk (isWay_start w dir)
            (fun q hq => Path.no_slash_of_mem_rawParts (p := dir) (hraw ▸ by simp [hq])) habove
          rw [hfront]
          have hway := (isWay_start w dir).walk
            (fun q hq => Path.no_slash_of_mem_rawParts (p := dir) (hraw ▸ by simp [hq])) habove
          exact (walk_cons (hkeeps.directory above hway hdir) last _).trans (walk_replicate hmade k)

/-- **A directory that is there is taken.** -/
theorem IsDirAt.makeOne_eq (h : w.IsDirAt dir loc) : w.makeOne dir = .error .taken := by
  obtain ⟨hdir, hwalk⟩ := find_eq_ok h.find_eq
  rw [makeOne, if_neg (mt String.isEmpty_iff.1 hdir)]
  split
  · rfl
  · next last front hparts =>
    obtain ⟨-, k, hraw⟩ := rawParts_eq_append hparts
    rw [hraw, walk_append] at hwalk
    obtain ⟨above, habove, hwalk⟩ := bind_ok hwalk
    obtain ⟨hoccupied, hwalk⟩ := walk_cons_eq_ok hwalk
    rw [habove]
    dsimp only [bind, Except.bind]
    rw [hoccupied]
    dsimp only
    rw [if_pos (by simp [isSome_of_walk_replicate hwalk h.occupied])]

/-- **Making a directory that is there changes nothing.** -/
theorem IsDirAt.makeDir_eq (h : w.IsDirAt dir loc) : w.makeDir dir = (w, none) := by
  rw [makeDir, makeWithin, h.makeOne_eq, takenFault?, h.content_eq]

theorem isDirAt_of_taken {above : Bool} (h : w.takenFault? dir above = none) :
    ∃ loc, w.IsDirAt dir loc := by
  rw [takenFault?] at h
  split at h
  · next hcontent => exact isDirAt_of_content hcontent
  · cases h
  · cases h

theorem isDirAt_of_makeWithin {fuel : Nat} {above : Bool}
    (h : w.makeWithin fuel above dir = (w', none)) :
    (∃ loc, w'.IsDirAt dir loc) ∧ w'.files = w.files := by
  induction fuel generalizing w w' above dir with
  | zero => cases h
  | succ fuel ih =>
    rw [makeWithin] at h
    split at h
    · next hmade =>
      cases h
      exact isDirAt_of_makeOne hmade
    · obtain ⟨rfl, htaken⟩ := Prod.mk.inj h
      exact ⟨isDirAt_of_taken htaken, rfl⟩
    · -- There is no directory above: it is made first.
      dsimp only at h
      split at h
      · cases h
      · split at h
        · cases h
        · next mid hmid =>
          obtain ⟨-, hfiles⟩ := ih hmid
          split at h
          · next hmade =>
            cases h
            obtain ⟨hloc, hsame⟩ := isDirAt_of_makeOne hmade
            exact ⟨hloc, hsame.trans hfiles⟩
          · obtain ⟨rfl, htaken⟩ := Prod.mk.inj h
            exact ⟨isDirAt_of_taken htaken, hfiles⟩
          · cases h
    · cases h

/-- **A directory that is made is found afterwards**, with those above it made, and no file has
changed. -/
theorem isDirAt_of_makeDir (h : w.makeDir dir = (w', none)) :
    (∃ loc, w'.IsDirAt dir loc) ∧ w'.files = w.files :=
  isDirAt_of_makeWithin h

end Workspace

end RecurrenceCompiler
