import RecurrenceCompiler.Config.Yaml
import RecurrenceCompiler.Proofs.Decimal.Operations
import RecurrenceCompiler.Proofs.Decimal.Spelling
import RecurrenceCompiler.Proofs.Json.Fields
import RecurrenceCompiler.Proofs.RuleText.Spacing
import RecurrenceCompiler.Proofs.Workspace.Path

/-!
# Trees of maps in YAML

A tree of maps can be laid out in many ways (`Yaml.Laid`): the entries of a map stand at one indentation, which
is any that is deeper than that of the map, and lines with blanks or comments stand anywhere. Every layout is
read back as the tree (`Yaml.parse_of_laid`).

While lines are read, maps that are left are closed only when the next line comes. What counts is therefore
the state that a line of some indentation finds (`Yaml.State.openFor`): the lines of a map add its fields to
it, in order (`Yaml.openFor_read`).
-/

namespace RecurrenceCompiler.Yaml

open Text Decimal Arith RuleText

/-! ## Trees -/

/-- A key that can be laid out. -/
structure IsKey (key : String) : Prop where
  nonempty : key.toList ≠ []
  trimmed : trim key.toList = key.toList
  oneLine : '\n' ∉ key.toList
  colonless : ':' ∉ key.toList
  notComment : key.toList.head? ≠ some '#'
  isField : key ≠ "__proto__"

/-- A leaf and the text that spells it. -/
inductive Spelled : Json → String → Prop
  | bool (b : Bool) : Spelled (.bool b) (toString b)
  | null : Spelled .null "null"
  | integer {i : Int} (h : i.natAbs < 2 ^ 53) : Spelled (.number (ofInt i)) (toString i)
  | string {s : String} (h : '\n' ∉ s.toList) : Spelled (.string s) ("\"" ++ s ++ "\"")

/-- The fields of a tree of maps: distinct keys with leaves or trees of their own. -/
inductive IsTree : List (String × Node) → Prop
  | nil : IsTree []
  | leaf {key : String} {v : Json} {text : String} {fields : List (String × Node)} (hkey : IsKey key)
      (hv : Spelled v text) (hnew : key ∉ fields.map (·.1)) (hfields : IsTree fields) :
      IsTree ((key, .scalar v) :: fields)
  | map {key : String} {sub fields : List (String × Node)} (hkey : IsKey key) (hsub : IsTree sub)
      (hnew : key ∉ fields.map (·.1)) (hfields : IsTree fields) :
      IsTree ((key, .map sub [] true) :: fields)

/-! ## Layouts -/

/-- Blanks in front of a line, by their number. -/
structure IsIndent (n : Nat) (lead : String) : Prop where
  length : lead.toList.length = n
  blank : ∀ c ∈ lead.toList, isBlank c = true
  oneLine : '\n' ∉ lead.toList

/-- A line of blanks, or with a comment behind blanks. -/
structure IsSkipped (line : String) : Prop where
  oneLine : '\n' ∉ line.toList
  comment : (trimStart line.toList).head? = none ∨ (trimStart line.toList).head? = some '#'

/-- The layouts of fields as lines, with the entries at an indentation. -/
inductive Laid : Nat → List (String × Node) → List String → Prop
  | nil {n : Nat} : Laid n [] []
  | skip {n : Nat} {fields : List (String × Node)} {line : String} {lines : List String}
      (hline : IsSkipped line) (hlines : Laid n fields lines) : Laid n fields (line :: lines)
  | leaf {n : Nat} {lead key text : String} {v : Json} {fields : List (String × Node)}
      {lines : List String} (hlead : IsIndent n lead) (hv : Spelled v text)
      (hlines : Laid n fields lines) :
      Laid n ((key, .scalar v) :: fields) ((lead ++ (key ++ ": " ++ text)) :: lines)
  | map {n m : Nat} {lead key : String} {sub fields : List (String × Node)}
      {below lines : List String} (hlead : IsIndent n lead) (hdeeper : n < m) (hbelow : Laid m sub below)
      (hlines : Laid n fields lines) :
      Laid n ((key, .map sub [] true) :: fields) ((lead ++ (key ++ ":")) :: (below ++ lines))

/-- Every tree has layouts. -/
theorem IsTree.exists_laid {fields : List (String × Node)} (h : IsTree fields) (n : Nat) :
    ∃ lines, Laid n fields lines := by
  have hindent (n : Nat) : IsIndent n (String.ofList (List.replicate n ' ')) :=
    ⟨by simp, by simp; intro _; rfl, by simp⟩
  induction h generalizing n with
  | nil => exact ⟨[], .nil⟩
  | leaf _ hv _ _ ih =>
    obtain ⟨lines, hlines⟩ := ih n
    exact ⟨_, .leaf (hindent n) hv hlines⟩
  | map _ _ _ _ ihsub ih =>
    obtain ⟨below, hbelow⟩ := ihsub (n + 1)
    obtain ⟨lines, hlines⟩ := ih n
    exact ⟨_, .map (hindent n) n.lt_succ_self hbelow hlines⟩

/-! ## Lines -/

section
variable {cs : List Char}

/-- A text that is trimmed does not start with a blank. -/
theorem head_of_trim_eq (h : trim cs = cs) : ∀ c ∈ cs.head?, isBlank c = false := by
  intro c hc
  obtain ⟨rest, rfl⟩ := List.head?_eq_some_iff.1 hc
  cases hblank : isBlank c with
  | false => rfl
  | true =>
    have hlen := length_trim_le rest
    have hlead : ∀ d ∈ [c], isBlank d = true := by simpa using hblank
    have hdrop : trim (c :: rest) = trim rest := trim_blanks_append hlead rest
    rw [← hdrop, h, List.length_cons] at hlen
    omega

end

/-- A text that starts with no blank keeps its start when it is trimmed. -/
theorem trimEnd_cons {c : Char} (hc : isBlank c = false) (cs : List Char) :
    ∃ rest, trimEnd (c :: cs) = c :: rest := by
  obtain ⟨bs, heq, hbs⟩ := exists_trimEnd_append (c :: cs)
  cases htrim : trimEnd (c :: cs) with
  | nil =>
    rw [htrim, List.nil_append] at heq
    rw [hbs c (heq ▸ List.mem_cons_self)] at hc
    cases hc
  | cons d rest =>
    rw [htrim, List.cons_append] at heq
    exact ⟨rest, by rw [(List.cons.inj heq).1]⟩

theorem ofChars?_skipped {line : String} (h : IsSkipped line) : Line.ofChars? line.toList = none := by
  rw [Line.ofChars?, trim]
  rcases h.comment with hnone | hhash
  · rw [List.head?_eq_none_iff.1 hnone]
    rfl
  · obtain ⟨cs, hcs⟩ := List.head?_eq_some_iff.1 hhash
    obtain ⟨rest, hrest⟩ := trimEnd_cons (c := '#') rfl cs
    rw [hcs, hrest]
    rfl

/-- An entry with its indentation. -/
theorem ofChars?_entry {n : Nat} {lead key : String} (hlead : IsIndent n lead) (hkey : IsKey key)
    {rest : List Char} (hlast : ∀ c ∈ (':' :: rest).getLast?, isBlank c = false) :
    Line.ofChars? (lead.toList ++ (key.toList ++ ':' :: rest)) = some ⟨n, some (key, trim rest)⟩ := by
  obtain ⟨c, cs, hcs⟩ := List.exists_cons_of_ne_nil hkey.nonempty
  have hc : isBlank c = false := head_of_trim_eq hkey.trimmed c (by simp [hcs])
  have hhash : c ≠ '#' := by
    rintro rfl
    exact hkey.notComment (by rw [hcs]; rfl)
  have htrim : trim (lead.toList ++ (key.toList ++ ':' :: rest)) = c :: (cs ++ ':' :: rest) := by
    rw [trim_blanks_append hlead.blank, trim_eq_self, hcs, List.cons_append]
    · rw [hcs]
      rintro d ⟨⟩
      exact hc
    · rw [List.getLast?_append_of_ne_nil _ (by simp)]
      exact hlast
  have hindent : (lead.toList ++ (key.toList ++ ':' :: rest)).takeWhile isBlank = lead.toList := by
    rw [List.takeWhile_append_of_pos hlead.blank, hcs, List.cons_append,
      List.takeWhile_cons_of_neg (by simp [hc]), List.append_nil]
  have hcut : cutAt? [':'] (c :: (cs ++ ':' :: rest)) = some (key.toList, rest) := by
    rw [← List.cons_append, ← hcs, cutAt?_char hkey.colonless]
  rw [Line.ofChars?, htrim, hindent, hlead.length]
  split
  · next heq => cases heq
  · next heq => exact absurd (List.cons.inj heq).1 hhash
  · rw [hcut]
    change some (Line.mk n (some (String.ofList (trim key.toList), trim rest))) = _
    rw [hkey.trimmed, String.ofList_toList]

/-! ## Leaves -/

theorem not_mem_toString {c : Char} (hc : c ≠ '-') (hdigit : isDigit c = false) (i : Int) :
    c ∉ (toString i).toList := by
  intro hmem
  rw [isDigit_of_mem_toString hmem hc] at hdigit
  cases hdigit

theorem scalar_integer {i : Int} (h : i.natAbs < 2 ^ 53) :
    scalar (toString i).toList = .number (ofInt i) := by
  have hne {word : List Char} {c : Char} (hmem : c ∈ word) (hc : c ≠ '-') (hdigit : isDigit c = false) :
      ((toString i).toList == word) = false := by
    rw [beq_eq_false_iff_ne]
    rintro rfl
    exact not_mem_toString hc hdigit i hmem
  have hplain : isPlainNumber (toString i).toList = true := by
    have hcut : cutAt? ['.'] (toString i).toList = none := by
      rw [cutAt?_eq_none (by simp)]
      intro hdots
      exact not_mem_toString (by decide) (by decide) i (hdots.subset (List.mem_singleton_self '.'))
    rw [isPlainNumber, hcut]
    exact isInteger_toString i
  have hvalue : signedLiteral? (toString i).toList = some (ofInt i) := by
    have htext : intText i = toString i := if_pos h.le
    rw [← htext]
    exact (spells_intText i).signedLiteral?_eq (isInt_ofInt h.le).finite (isNegativeZero_ofInt i)
  rw [scalar, hne (c := 't') (by simp) (by decide) (by decide),
    hne (c := 'f') (by simp) (by decide) (by decide), hne (c := 'n') (by simp) (by decide) (by decide),
    hplain, hvalue]
  rfl

theorem scalar_string (s : String) : scalar ("\"" ++ s ++ "\"").toList = .string s := by
  have hchars : ("\"" ++ s ++ "\"").toList = '"' :: (s.toList ++ ['"']) := by simp
  have hplain : isPlainNumber ('"' :: (s.toList ++ ['"'])) = false := by
    rw [isPlainNumber, cutAt?, if_neg (by simp)]
    cases cutAt? ['.'] (s.toList ++ ['"']) <;> rfl
  have hquoted : isQuoted '"' ('"' :: (s.toList ++ ['"'])) = true := by
    rw [isQuoted, ← List.cons_append, List.getLast?_concat]
    rfl
  rw [hchars, scalar, if_neg (by simp), if_neg (by simp), if_neg (by simp), hplain, hquoted]
  simp

/-- **A leaf is read back from its text.** -/
theorem scalar_of_spelled {v : Json} {text : String} (h : Spelled v text) : scalar text.toList = v := by
  cases h with
  | bool b => cases b <;> rfl
  | null => rfl
  | integer h => exact scalar_integer h
  | string h => exact scalar_string _

/-- The text of a leaf is not empty, and no blanks stand around it. -/
theorem Spelled.visible {v : Json} {text : String} (h : Spelled v text) :
    text.toList ≠ [] ∧ trim text.toList = text.toList ∧
      ∀ c ∈ text.toList.getLast?, isBlank c = false := by
  have hvisible {cs : List Char} (hne : cs ≠ []) (hcs : ∀ c ∈ cs, isBlank c = false) :
      cs ≠ [] ∧ trim cs = cs ∧ ∀ c ∈ cs.getLast?, isBlank c = false :=
    ⟨hne, trim_of_visible hcs, fun c hc => hcs c (List.mem_of_mem_getLast? hc)⟩
  have hwords {cs : List Char} (hne : cs ≠ []) (hcs : cs.all isWord = true) :=
    hvisible hne fun c hc => isBlank_of_isWord (List.all_eq_true.1 hcs c hc)
  cases h with
  | bool b => cases b <;> exact hwords (by decide) (by decide)
  | null => exact hwords (by decide) (by decide)
  | @integer i h =>
    refine hvisible ?_ fun c hc => ?_
    · intro hnil
      have hint := isInteger_toString i
      rw [hnil] at hint
      cases hint
    · by_cases hminus : c = '-'
      · rw [hminus]
        rfl
      · exact isBlank_of_isWord (by simp [isWord, isDigit_of_mem_toString hc hminus])
  | @string s h =>
    have hchars : ("\"" ++ s ++ "\"").toList = '"' :: s.toList ++ ['"'] := by simp
    have hlast : ∀ c ∈ ('"' :: s.toList ++ ['"']).getLast?, isBlank c = false := by
      rw [List.getLast?_concat]
      rintro c ⟨⟩
      rfl
    rw [hchars]
    exact ⟨by simp, trim_eq_self (by rintro c ⟨⟩; rfl) hlast, hlast⟩

theorem Spelled.oneLine {v : Json} {text : String} (h : Spelled v text) : '\n' ∉ text.toList := by
  cases h with
  | bool b => cases b <;> decide
  | null => decide
  | integer h => exact not_mem_toString (by decide) (by decide) _
  | string h => simpa using h

/-! ## States -/

/-- The state that a line of an indentation finds. -/
def State.openFor (s : State) (n : Nat) : State :=
  closeTo n s.root none s.frames

/-- A state with one more map that is open. -/
def State.push (s : State) (f : Frame) : State :=
  { s with frames := f :: s.frames }

/-- The open maps are for lines that are indented less. -/
def State.Below (s : State) (n : Nat) : Prop :=
  ∀ f ∈ s.frames.head?, f.indent < n

/-- Set fields of the innermost map. -/
def State.setAll (s : State) (fields : List (String × Node)) : State :=
  fields.foldl (fun s f => s.set f.1 f.2) s

/-- Set fields. -/
def Fields.putAll (fs : Fields) (fields : List (String × Node)) : Fields :=
  fields.foldl (fun fs f => fs.put f.1 f.2) fs

theorem closeTo_closeTo {n m : Nat} (h : n ≤ m) (root : Fields) (closed : Option (String × Node))
    (frames : List Frame) :
    (closeTo m root closed frames).openFor n = closeTo n root closed frames := by
  induction frames generalizing closed with
  | nil => rfl
  | cons f frames ih =>
    by_cases hf : f.indent < m
    · rw [closeTo, if_pos hf]
      rfl
    · rw [closeTo, if_neg hf, ih, closeTo, if_neg (by omega)]

namespace State

variable {s : State} {n m : Nat}

/-- A line that is indented less finds what it would find without the lines between. -/
theorem openFor_openFor (h : n ≤ m) (s : State) : (s.openFor m).openFor n = s.openFor n :=
  closeTo_closeTo h _ _ _

theorem Below.openFor_eq (h : s.Below n) : s.openFor n = s := by
  obtain ⟨frames, root⟩ := s
  cases frames with
  | nil => rfl
  | cons f frames =>
    have hf : f.indent < n := h f rfl
    rw [openFor, closeTo, if_pos hf]
    rfl

theorem below_openFor (s : State) (n : Nat) : (s.openFor n).Below n := by
  have h (root : Fields) (closed : Option (String × Node)) (frames : List Frame) :
      (closeTo n root closed frames).Below n := by
    induction frames generalizing closed with
    | nil => simp [closeTo, Below]
    | cons f frames ih =>
      rw [closeTo]
      split
      · next hf =>
        rintro f' ⟨⟩
        exact hf
      · exact ih _
  exact h _ _ _

theorem Below.set (h : s.Below n) (key : String) (value : Node) : (s.set key value).Below n := by
  obtain ⟨frames, root⟩ := s
  cases frames with
  | nil => simp [State.set, Below]
  | cons f frames =>
    rintro f' ⟨⟩
    exact h f rfl

/-- Lines of a map that is open deeper set its fields, not those of the maps around it. -/
theorem setAll_push (s : State) (f : Frame) (fields : List (String × Node)) :
    (s.push f).setAll fields = s.push { f with fields := f.fields.putAll fields } := by
  induction fields generalizing f with
  | nil => rfl
  | cons p fields ih => exact ih _

/-- A map that is left becomes a field of the map around it. -/
theorem openFor_push (h : s.Below n) (key : String) (fields : Fields) :
    (s.push ⟨n, key, fields⟩).openFor n = s.set key fields.node := by
  obtain ⟨frames, root⟩ := s
  rw [openFor, push, closeTo, if_neg (lt_irrefl n)]
  cases frames with
  | nil => rfl
  | cons f frames =>
    have hf : f.indent < n := h f rfl
    rw [closeTo, if_pos hf]
    rfl

end State

/-! ## Reading layouts -/

section
variable {fields : List (String × Node)}

theorem IsTree.isField (h : IsTree fields) : ∀ f ∈ fields, f.1 ≠ "__proto__" := by
  induction h with
  | nil => simp
  | leaf hkey _ _ _ ih => exact List.forall_mem_cons.2 ⟨hkey.isField, ih⟩
  | map hkey _ _ _ _ ih => exact List.forall_mem_cons.2 ⟨hkey.isField, ih⟩

theorem IsTree.nodup (h : IsTree fields) : (fields.map (·.1)).Nodup := by
  induction h with
  | nil => exact List.nodup_nil
  | leaf _ _ hnew _ ih => exact List.nodup_cons.2 ⟨hnew, ih⟩
  | map _ _ hnew _ _ ih => exact List.nodup_cons.2 ⟨hnew, ih⟩

/-- The fields of a tree make the map of the tree. -/
theorem IsTree.putAll (h : IsTree fields) : ({} : Fields).putAll fields = { own := fields } := by
  have hput {fields : List (String × Node)} (hfields : ∀ f ∈ fields, f.1 ≠ "__proto__")
      (own : List (String × Node)) : ({ own } : Fields).putAll fields =
        { own := fields.foldl (fun fs f => Json.setField fs f.1 f.2) own } := by
    induction fields generalizing own with
    | nil => rfl
    | cons f fields ih =>
      obtain ⟨hf, hfields⟩ := List.forall_mem_cons.1 hfields
      have hone : ({ own } : Fields).put f.1 f.2 = { own := Json.setField own f.1 f.2 } := by
        simp [Fields.put, hf]
      rw [Fields.putAll, List.foldl_cons, hone]
      exact ih hfields _
  rw [hput h.isField, Json.foldl_setField h.nodup, List.nil_append]

/-- What a line is read as. -/
def read? (line : String) : Option Line :=
  Line.ofChars? line.toList

/-- The lines of a layout are lines. -/
theorem Laid.oneLine {n : Nat} {lines : List String} (htree : IsTree fields) (h : Laid n fields lines) :
    ∀ line ∈ lines, '\n' ∉ line.toList := by
  induction h with
  | nil => simp
  | skip hline _ ih => exact List.forall_mem_cons.2 ⟨hline.oneLine, ih htree⟩
  | leaf hlead hv _ ih =>
    cases htree with
    | leaf hkey _ _ hfields =>
      refine List.forall_mem_cons.2 ⟨?_, ih hfields⟩
      simp [hlead.oneLine, hkey.oneLine, hv.oneLine]
  | map hlead _ _ _ ihbelow ih =>
    cases htree with
    | map hkey hsub _ hfields =>
      refine List.forall_mem_cons.2 ⟨?_, List.forall_mem_append.2 ⟨ihbelow hsub, ih hfields⟩⟩
      simp [hlead.oneLine, hkey.oneLine]

/-- The line of a leaf. -/
theorem read?_leaf {n : Nat} {lead key text : String} {v : Json} (hlead : IsIndent n lead)
    (hkey : IsKey key) (hv : Spelled v text) :
    read? (lead ++ (key ++ ": " ++ text)) = some ⟨n, some (key, text.toList)⟩ := by
  obtain ⟨hne, htrim, hlast⟩ := hv.visible
  have hchars : (lead ++ (key ++ ": " ++ text)).toList =
      lead.toList ++ (key.toList ++ ':' :: ' ' :: text.toList) := by simp
  have hend : ∀ c ∈ (':' :: ' ' :: text.toList).getLast?, isBlank c = false := by
    rw [List.getLast?_cons_cons, List.getLast?_cons_of_ne_nil hne]
    exact hlast
  rw [read?, hchars, ofChars?_entry hlead hkey hend, trim_cons_blank, htrim]

/-- The line of a map. -/
theorem read?_map {n : Nat} {lead key : String} (hlead : IsIndent n lead) (hkey : IsKey key) :
    read? (lead ++ (key ++ ":")) = some ⟨n, some (key, [])⟩ := by
  have hchars : (lead ++ (key ++ ":")).toList = lead.toList ++ (key.toList ++ [':']) := by simp
  rw [read?, hchars, ofChars?_entry hlead hkey (by rintro c ⟨⟩; rfl)]
  rfl

theorem State.add_leaf (s : State) (n : Nat) (key : String) {value : List Char} (h : value ≠ []) :
    s.add ⟨n, some (key, value)⟩ = (s.openFor n).set key (.scalar (scalar value)) := by
  cases value with
  | nil => exact absurd rfl h
  | cons c cs => rfl

theorem State.add_map (s : State) (n : Nat) (key : String) :
    s.add ⟨n, some (key, [])⟩ = (s.openFor n).push ⟨n, key, {}⟩ := rfl

/-- **The lines of a map add its fields**, in order, to the map that a line of their indentation finds
open. -/
theorem openFor_read {n : Nat} {lines : List String} (htree : IsTree fields) (h : Laid n fields lines)
    (s : State) :
    ((lines.filterMap read?).foldl State.add s).openFor n = (s.openFor n).setAll fields := by
  induction h generalizing s with
  | nil => rfl
  | @skip n fields line lines hline _ ih =>
    have hread : read? line = none := ofChars?_skipped hline
    rw [List.filterMap_cons_none hread]
    exact ih htree s
  | @leaf n lead key text v fields lines hlead hv hlines ih =>
    cases htree with
    | leaf hkey _ _ hfields =>
      have hbelow := (s.below_openFor n).set key (.scalar v)
      rw [List.filterMap_cons_some (read?_leaf hlead hkey hv), List.foldl_cons,
        s.add_leaf n key hv.visible.1, scalar_of_spelled hv, ih hfields, hbelow.openFor_eq]
      rfl
  | @map n m lead key sub fields below lines hlead hdeeper hbelow hlines ihbelow ih =>
    cases htree with
    | map hkey hsub _ hfields =>
      -- The lines below find the new map open, and those behind them close it.
      have hopen : ((s.openFor n).push ⟨n, key, {}⟩).Below m := by
        rintro f ⟨⟩
        exact hdeeper
      have hsublines : (((below.filterMap read?).foldl State.add
          ((s.openFor n).push ⟨n, key, {}⟩))).openFor n =
            (s.openFor n).set key (.map sub [] true) := by
        rw [← State.openFor_openFor hdeeper.le, ihbelow hsub, hopen.openFor_eq, State.setAll_push,
          hsub.putAll, State.openFor_push (s.below_openFor n)]
        rfl
      rw [List.filterMap_cons_some (read?_map hlead hkey), List.foldl_cons, s.add_map,
        List.filterMap_append, List.foldl_append, ih hfields, hsublines]
      rfl

end

/-- The lines of a text that joins them. -/
theorem lines_intercalate {ls : List String} (h : ∀ l ∈ ls, '\n' ∉ l.toList) :
    lines ("\n".intercalate ls) = ls.filterMap read? := by
  cases ls with
  | nil => rfl
  | cons l ls =>
    have hlines : ∀ cs ∈ (l :: ls).map String.toList, '\n' ∉ cs := by simpa using h
    rw [lines, Text.splitOn_eq, String.toList_intercalate]
    change List.filterMap _ (List.splitOn '\n' (List.intercalate ['\n'] _)) = _
    rw [List.splitOn_intercalate _ hlines (by simp), List.filterMap_map]
    rfl

/-- **Every layout of a tree is read back as the tree.** Every tree of maps has layouts, at every
indentation, and all of them are read as the tree: with entries that stand at any indentation that is deeper
than that of their map, and with lines of blanks or comments anywhere. -/
theorem parse_of_laid {fields : List (String × Node)} (htree : IsTree fields) :
    (∀ n, ∃ lines, Laid n fields lines) ∧
      ∀ n lines, Laid n fields lines → parse ("\n".intercalate lines) = .map fields [] true := by
  refine ⟨htree.exists_laid, ?_⟩
  intro n lines h
  have hread := openFor_read htree h {}
  have hroot (fs : Fields) : ({ root := fs } : State).setAll fields =
      { root := fs.putAll fields } := by
    clear htree h hread
    induction fields generalizing fs with
    | nil => rfl
    | cons f fields ih => exact ih _
  have hfinish : (((lines.filterMap read?).foldl State.add {}).openFor 0).root = { own := fields } := by
    rw [← State.openFor_openFor n.zero_le, hread]
    change ((({ root := {} } : State).setAll fields).openFor 0).root = _
    rw [hroot, htree.putAll]
    rfl
  rw [parse, lines_intercalate (h.oneLine htree)]
  exact congrArg Fields.node hfinish

/-- Two levels, and a map without entries. -/
def sampleFields : List (String × Node) :=
  [("codegen", .map [("target", .scalar (.string "js")), ("empty", .map [] [] true)] [] true),
    ("threshold", .scalar (.number (ofInt (-3))))]

/-- A layout of the sample, with lines that are skipped. -/
def sampleText : String :=
  "# settings\ncodegen:\n\n   target: \"js\"\n   empty:\n  # done\nthreshold: -3"

/-- A map without entries ends with its line, whatever comment follows. -/
theorem parse_of_laid_sample : IsTree sampleFields ∧ ∃ lines, sampleText = "\n".intercalate lines ∧
    Laid 0 sampleFields lines ∧ parse sampleText = .map sampleFields [] true := by
  have hkey {key : String} (hne : key.toList ≠ []) (hword : key.toList.all isWord = true)
      (hfield : key ≠ "__proto__") : IsKey key := by
    have hmem {c : Char} (hc : isWord c = false) : c ∉ key.toList := by
      intro hmem
      rw [List.all_eq_true.1 hword c hmem] at hc
      cases hc
    exact {
      nonempty := hne
      trimmed := trim_of_visible fun c hc => isBlank_of_isWord (List.all_eq_true.1 hword c hc)
      oneLine := hmem (by decide)
      colonless := hmem (by decide)
      notComment := fun hhead => hmem (by decide) (List.mem_of_mem_head? hhead)
      isField := hfield }
  have hjs : Spelled (.string "js") ("\"" ++ "js" ++ "\"") := .string (by decide)
  have hthreshold : Spelled (.number (ofInt (-3))) (toString (-3 : Int)) := .integer (by decide)
  have htree : IsTree sampleFields :=
    .map (hkey (by decide) (by decide) (by decide))
      (.leaf (hkey (by decide) (by decide) (by decide)) hjs (by decide)
        (.map (hkey (by decide) (by decide) (by decide)) .nil (by decide) .nil)) (by decide)
      (.leaf (hkey (by decide) (by decide) (by decide)) hthreshold (by decide) .nil)
  have hnone : IsIndent 0 "" := ⟨rfl, by simp, by decide⟩
  have hthree : IsIndent 3 "   " := ⟨rfl, List.all_eq_true.1 rfl, by decide⟩
  have hfirst : IsSkipped "# settings" := ⟨by decide, .inr (by decide)⟩
  have hempty : IsSkipped "" := ⟨by decide, .inl (by decide)⟩
  have hdone : IsSkipped "  # done" := ⟨by decide, .inr (by decide)⟩
  have hinner : Laid 3 [("target", .scalar (.string "js")), ("empty", .map [] [] true)] _ :=
    .skip hempty (.leaf hthree hjs (.map hthree (Nat.lt_succ_self 3) .nil .nil))
  obtain ⟨lines, hlaid, htext⟩ : ∃ lines, Laid 0 sampleFields lines ∧
      sampleText = "\n".intercalate lines :=
    ⟨_, .skip hfirst (.map hnone (by decide) hinner (.skip hdone (.leaf hnone hthreshold .nil))),
      by decide⟩
  refine ⟨htree, lines, htext, hlaid, ?_⟩
  rw [htext]
  exact (parse_of_laid htree).2 0 lines hlaid

end RecurrenceCompiler.Yaml
