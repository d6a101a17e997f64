import Mathlib
import RecurrenceCompiler.Workspace.Path

/-!
# Parts of paths

Normalising goes through the parts of a path with a stack (`pushed_push` says what one part does to it).
So the path of a file in a directory has the normalised parts of the directory and then the name
(`rawParts_join`), if that is a name of something in a directory (`IsName`).
-/

namespace RecurrenceCompiler

/-- Cutting a text is cutting a list. -/
theorem Text.splitOn_eq (sep : Char) (cs : List Char) : Text.splitOn sep cs = cs.splitOn sep := by
  induction cs with
  | nil => rfl
  | cons c cs ih =>
    rw [splitOn, ih, List.splitOn_cons_eq_if_modifyHead]
    cases hpieces : cs.splitOn sep with
    | nil => exact (List.splitOn_ne_nil sep cs hpieces).elim
    | cons piece pieces => rfl

namespace Path

/-- A name of something in a directory. -/
structure IsName (n : String) : Prop where
  ne_empty : n ≠ ""
  ne_dot : n ≠ "."
  ne_dots : n ≠ ".."
  no_slash : '/' ∉ n.toList

/-- What one part does to the parts before it: nothing, unless it leads up or down. -/
inductive Pushed (absolute : Bool) (stack : List String) (part : String) : List String → Prop
  | same : part = "" ∨ part = "." → Pushed absolute stack part stack
  | root : part = ".." → absolute = true → stack = [] → Pushed absolute stack part []
  | above : part = ".." → absolute = false ∨ stack ≠ [] → Pushed absolute stack part (".." :: stack)
  | back {last : String} {rest : List String} : part = ".." → last ≠ ".." → stack = last :: rest →
      Pushed absolute stack part rest
  | down : part ≠ "" → part ≠ "." → part ≠ ".." → Pushed absolute stack part (part :: stack)

theorem pushed_push (absolute : Bool) (stack : List String) (part : String) :
    Pushed absolute stack part (push absolute stack part) := by
  unfold push
  split
  · next h =>
    rw [Bool.or_eq_true, String.isEmpty_iff, beq_iff_eq] at h
    exact .same h
  · next h =>
    rw [Bool.or_eq_true, String.isEmpty_iff, beq_iff_eq, not_or] at h
    split
    · next hdots =>
      have hdots : part = ".." := beq_iff_eq.1 hdots
      split
      · split
        · next ha => exact .root hdots ha rfl
        · next ha => exact .above hdots (.inl (by simpa using ha))
      · exact .above hdots (.inr (by simp))
      · next hlast => exact .back hdots hlast rfl
    · next hdots => exact .down h.1 h.2 fun heq => hdots (beq_iff_eq.2 heq)

/-- A name is pushed. -/
theorem IsName.push_eq {n : String} (hn : IsName n) (absolute : Bool) (stack : List String) :
    push absolute stack n = n :: stack := by
  unfold push
  rw [if_neg (by simp [hn.ne_empty, hn.ne_dot]), if_neg (by simp [hn.ne_dots])]

/-! ## Parts -/

theorem no_slash_of_mem_rawParts {p part : String} (h : part ∈ rawParts p) : '/' ∉ part.toList := by
  rw [rawParts, Text.splitOn_eq, List.mem_map] at h
  obtain ⟨piece, hpiece, rfl⟩ := h
  rw [String.toList_ofList]
  generalize p.toList = cs at hpiece
  induction cs generalizing piece with
  | nil =>
    rw [List.splitOn_nil, List.mem_singleton] at hpiece
    simp [hpiece]
  | cons c cs ih =>
    rw [List.splitOn_cons_eq_if_modifyHead] at hpiece
    split at hpiece
    · rcases List.mem_cons.1 hpiece with rfl | hpiece
      · exact List.not_mem_nil
      · exact ih piece hpiece
    · next hc =>
      cases hrest : cs.splitOn '/' with
      | nil => exact (List.splitOn_ne_nil '/' cs hrest).elim
      | cons first pieces =>
        rw [hrest] at hpiece ih
        rcases List.mem_cons.1 hpiece with rfl | hpiece
        · rw [List.mem_cons, not_or]
          exact ⟨fun heq => hc (beq_iff_eq.2 heq.symm), ih first (by simp)⟩
        · exact ih piece (List.mem_cons_of_mem _ hpiece)

/-- What stands after a slash are parts of their own. -/
theorem rawParts_slash {p n : String} (hn : '/' ∉ n.toList) :
    rawParts (p ++ "/" ++ n) = rawParts p ++ [n] := by
  rw [rawParts, rawParts, Text.splitOn_eq, Text.splitOn_eq, String.toList_append,
    String.toList_append, List.append_assoc]
  change (List.splitOn '/' (p.toList ++ '/' :: n.toList)).map String.ofList = _
  rw [List.splitOn_append_cons_self, List.splitOn_eq_singleton hn, List.map_append]
  simp

/-- Before a slash at the start there is an empty part. -/
theorem rawParts_root (t : String) : rawParts ("/" ++ t) = "" :: rawParts t := by
  rw [rawParts, rawParts, Text.splitOn_eq, Text.splitOn_eq, String.toList_append]
  change (List.splitOn '/' ('/' :: t.toList)).map String.ofList = _
  rw [List.splitOn_cons_eq_if_modifyHead]
  rfl

/-- The parts of a normalised path lead up or down. -/
def IsPart (part : String) : Prop :=
  part ≠ "" ∧ part ≠ "." ∧ '/' ∉ part.toList

theorem isPart_push {absolute : Bool} {stack : List String} {part : String}
    (hstack : ∀ s ∈ stack, IsPart s) (hpart : '/' ∉ part.toList) :
    ∀ s ∈ push absolute stack part, IsPart s := by
  have hdots : IsPart ".." := ⟨by decide, by decide, by decide⟩
  generalize hnext : push absolute stack part = next
  cases hnext ▸ pushed_push absolute stack part with
  | same _ => exact hstack
  | root _ _ _ => exact List.forall_mem_nil _
  | above _ _ => exact List.forall_mem_cons.2 ⟨hdots, hstack⟩
  | back _ _ hs =>
    subst hs
    exact (List.forall_mem_cons.1 hstack).2
  | down hempty hdot _ => exact List.forall_mem_cons.2 ⟨⟨hempty, hdot, hpart⟩, hstack⟩

theorem isPart_of_mem_parts {p part : String} (h : part ∈ parts p) : IsPart part := by
  have hraw : ∀ q ∈ rawParts p, '/' ∉ q.toList := fun _ => no_slash_of_mem_rawParts
  rw [parts, List.mem_reverse] at h
  generalize rawParts p = raw at hraw h
  have hstack : ∀ s ∈ ([] : List String), IsPart s := List.forall_mem_nil _
  generalize ([] : List String) = stack at hstack h
  induction raw generalizing stack with
  | nil => exact hstack part h
  | cons q raw ih =>
    rw [List.forall_mem_cons] at hraw
    exact ih hraw.2 _ (isPart_push hstack hraw.1) h

/-! ## Files in directories -/

section
variable {dir n : String}

theorem isAbsolute_append (hdir : dir ≠ "") (t : String) :
    isAbsolute (dir ++ t) = isAbsolute dir := by
  have hne : dir.toList ≠ [] := fun h => hdir (String.toList_eq_nil_iff.1 h)
  rw [isAbsolute, isAbsolute, String.toList_append, List.head?_append_of_ne_nil _ hne]

theorem parts_slash (hdir : dir ≠ "") (hn : IsName n) :
    parts (dir ++ "/" ++ n) = parts dir ++ [n] := by
  rw [parts, rawParts_slash hn.no_slash, String.append_assoc, isAbsolute_append hdir,
    List.foldl_append, List.foldl_cons, List.foldl_nil, hn.push_eq, List.reverse_cons, parts]

/-- A path of parts starts at the root only if the first part does. -/
theorem head_intercalate {ps : List String} (hps : ps ≠ []) (h : ∀ q ∈ ps, IsPart q) :
    "/".intercalate ps ≠ "" ∧ ("/".intercalate ps).toList.head? ≠ some '/' := by
  obtain ⟨q, qs, rfl⟩ := List.exists_cons_of_ne_nil hps
  obtain ⟨hempty, -, hslash⟩ := h q (by simp)
  have hne : q.toList ≠ [] := fun h => hempty (String.toList_eq_nil_iff.1 h)
  rw [Ne, ← String.toList_eq_nil_iff, String.toList_intercalate, List.map_cons]
  have happend : ∃ rest, "/".toList.intercalate (q.toList :: qs.map String.toList) =
      q.toList ++ rest := by
    cases qs with
    | nil => exact ⟨[], by simp⟩
    | cons q' qs => exact ⟨_, by rw [List.map_cons, List.intercalate_cons_cons, List.append_assoc]⟩
  obtain ⟨rest, hrest⟩ := happend
  rw [hrest]
  refine ⟨by simp [hne], ?_⟩
  rw [List.head?_append_of_ne_nil _ hne]
  exact fun h => hslash (List.mem_of_mem_head? h)

/-- **The parts of the path of a file in a directory.** -/
theorem rawParts_join (hdir : dir ≠ "") (hn : IsName n) :
    rawParts (join dir n) = (if isAbsolute dir then [""] else []) ++ (parts dir ++ [n]) ∧
      isAbsolute (join dir n) = isAbsolute dir ∧ join dir n ≠ "" := by
  have hparts := parts_slash hdir hn
  have hps : ∀ q ∈ parts dir ++ [n], IsPart q := hparts ▸ fun _ => isPart_of_mem_parts
  have hne : parts dir ++ [n] ≠ [] := by simp
  obtain ⟨htext, hhead⟩ := head_intercalate hne hps
  have hraw : rawParts ("/".intercalate (parts dir ++ [n])) = parts dir ++ [n] := by
    rw [rawParts, Text.splitOn_eq, String.toList_intercalate]
    change (List.splitOn '/' (['/'].intercalate _)).map String.ofList = _
    rw [List.splitOn_intercalate '/' _ (by simp)]
    · simp [Function.comp_def]
    · intro l hl
      obtain ⟨q, hq, rfl⟩ := List.mem_map.1 hl
      exact (hps q hq).2.2
  rw [join, if_neg (by simp [hdir]), normalize, hparts, String.append_assoc, isAbsolute_append hdir]
  cases habs : isAbsolute dir with
  | true =>
    rw [if_pos rfl, if_pos rfl]
    refine ⟨?_, by simp [isAbsolute], by simp [String.ext_iff]⟩
    rw [rawParts_root, hraw]
    rfl
  | false =>
    rw [if_neg Bool.false_ne_true, if_neg (mt String.isEmpty_iff.1 htext)]
    exact ⟨hraw, by simpa [isAbsolute] using hhead, htext⟩

end

end Path

end RecurrenceCompiler
