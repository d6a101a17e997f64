import RecurrenceCompiler.Codegen.Dispatcher
import RecurrenceCompiler.Proofs.Arith.Grammar
import RecurrenceCompiler.Proofs.Decimal.Spelling
import RecurrenceCompiler.Recurrence.Builder

/-!
# Dispatchers

The body of a C++ dispatcher is read line by line (`Switch.read`) and executed as C++ executes switches
(`Switch.run`): a switch goes on behind the label with the value of its index, else behind `default`, and
labels that are met on the way are passed. A nest of switches over a box of indices then returns the leaf for
the values of the indices, or zero if one of them has no label (`Switch.run_marks`), and it has one leaf for
each tuple of the box, in lexicographic order (`dispatcher_enumerates_box`).
-/

namespace RecurrenceCompiler

open Text Decimal Arith

namespace Switch

/-! ## Reading -/

/-- What the lines of a body are made of. -/
inductive Mark where
  /-- `switch (index) {` -/
  | enter (index : String)
  /-- `case value:` -/
  | label (value : Int)
  /-- `default:` -/
  | fallback
  /-- `return result;` -/
  | give (result : String)
  /-- `}` -/
  | leave
deriving DecidableEq

/-- The text between an opening and a closing. -/
def between? (opening closing : String) (cs : List Char) : Option String :=
  (opening.toList.isPrefixOf? cs).bind fun rest => (closing.toList.isSuffixOf? rest).map String.ofList

/-- Reads a statement. -/
def readStatement (cs : List Char) : Option Mark :=
  if cs = ['}'] then some .leave
  else ((between? "switch (" ") \x7b" cs).map .enter).or ((between? "return " ";" cs).map .give)

/-- Reads what stands behind a label: a colon, and a statement unless the line ends. -/
def readBehind : List Char → Option (List Mark)
  | [':'] => some []
  | ':' :: ' ' :: cs => (readStatement cs).map ([·])
  | _ => none

/-- Reads a line without the blanks in front: a label or a statement. -/
def readChars (cs : List Char) : Option (List Mark) :=
  match "case ".toList.isPrefixOf? cs with
  | some rest =>
    (String.ofList (rest.takeWhile (· != ':'))).toInt?.bind fun v =>
      (readBehind (rest.dropWhile (· != ':'))).map (.label v :: ·)
  | none =>
    match "default".toList.isPrefixOf? cs with
    | some rest => (readBehind rest).map (.fallback :: ·)
    | none => (readStatement cs).map ([·])

/-- Reads a line. -/
def readLine (line : String) : Option (List Mark) :=
  readChars (line.toList.dropWhile (· == ' '))

/-- Reads lines. -/
def read : List String → Option (List Mark)
  | [] => some []
  | line :: lines => (readLine line).bind fun ms => (read lines).map (ms ++ ·)

/-! ## Execution -/

/-- How many switches one is in behind a mark. -/
def Mark.depthAfter (d : Nat) : Mark → Nat
  | enter _ => d + 1
  | leave => d - 1
  | label _ | fallback | give _ => d

/-- What stands behind a mark of the switch that one is in; the switches inside are passed over. -/
def seek (stop : Mark) : Nat → List Mark → Option (List Mark)
  | _, [] => none
  | d, m :: rest =>
    if d = 0 ∧ m = stop then some rest
    else if d = 0 ∧ m = .leave then none
    else seek stop (m.depthAfter d) rest

/-- Where a switch goes on: behind the label with the value, else behind `default`, else behind its end. -/
def jump (value : Int) (ms : List Mark) : List Mark :=
  ((seek (.label value) 0 ms).or ((seek .fallback 0 ms).or (seek .leave 0 ms))).getD []

theorem length_seek_lt {stop : Mark} {d : Nat} {ms ms' : List Mark} (h : seek stop d ms = some ms') :
    ms'.length < ms.length := by
  fun_induction seek stop d ms with
  | case1 => cases h
  | case2 => simp_all
  | case3 => cases h
  | case4 d m rest _ _ ih =>
    have := ih h
    rw [List.length_cons]
    omega

theorem length_jump_le (value : Int) (ms : List Mark) : (jump value ms).length ≤ ms.length := by
  rw [jump]
  cases h : (seek (.label value) 0 ms).or ((seek .fallback 0 ms).or (seek .leave 0 ms)) with
  | none => exact Nat.zero_le _
  | some ms' =>
    rw [Option.or_eq_some_iff, Option.or_eq_some_iff] at h
    rcases h with h | ⟨-, h | ⟨-, h⟩⟩ <;> exact (length_seek_lt h).le

/-- What a body returns: switches jump, labels and ends of switches are passed. -/
def run (values : String → Int) : List Mark → Option String
  | [] => none
  | .enter index :: rest => run values (jump (values index) rest)
  | .give result :: _ => some result
  | .label _ :: rest | .fallback :: rest | .leave :: rest => run values rest
termination_by ms => ms.length
decreasing_by
  · exact Nat.lt_succ_of_le (length_jump_le _ _)
  all_goals exact Nat.lt_succ_self _

/-- What is returned for the labels with a value. -/
def calls : List Mark → List String
  | [] => []
  | .give result :: rest => result :: calls rest
  | .fallback :: .give _ :: rest => calls rest
  | .enter _ :: rest | .label _ :: rest | .fallback :: rest | .leave :: rest => calls rest

/-! ## Marks of a nest -/

section
variable (leaf : List Int → String) (zero : String)

/-- Labels, each with the marks behind it. -/
def caseMarks (behind : Int → List Mark) (vs : List Int) : List Mark :=
  vs.flatMap fun v => .label v :: behind v

/-- The marks of a nest over indices with their bounds, after a tuple was read. -/
def marks : List (String × Option Int) → List Int → List Mark
  | [], tuple => [.give (leaf tuple)]
  | (index, bound) :: rest, tuple =>
    .enter index :: caseMarks (fun v => marks rest (tuple ++ [v])) (upTo bound) ++
      [.fallback, .give zero, .leave]

end

section
variable {leaf : List Int → String} {zero : String}

/-- A text does not start with a word that has another first character. -/
theorem isPrefixOf?_eq_none {word cs : List Char} {c d : Char} (hd : word.head? = some d) (hne : d ≠ c) :
    word.isPrefixOf? (c :: cs) = none := by
  cases word with
  | nil => cases hd
  | cons e word =>
    obtain rfl := Option.some.inj hd
    rw [List.isPrefixOf?, if_neg (by simpa using hne)]

theorem between?_eq_some (opening closing s : String) :
    between? opening closing (opening.toList ++ (s.toList ++ closing.toList)) = some s := by
  rw [between?, List.isPrefixOf?_eq_some_iff_append_eq.2 rfl, Option.bind_some,
    List.isSuffixOf?_eq_some_iff_append_eq.2 rfl, Option.map_some, String.ofList_toList]

theorem readStatement_enter (index : String) :
    readStatement ("switch (" ++ index ++ ") \x7b").toList = some (.enter index) := by
  rw [String.toList_append, String.toList_append, List.append_assoc, readStatement, between?_eq_some,
    if_neg (by simp)]
  rfl

theorem readStatement_give (text : String) :
    readStatement ("return " ++ text ++ ";").toList = some (.give text) := by
  have hswitch (cs : List Char) : between? "switch (" ") \x7b" ("return ".toList ++ cs) = none := by
    rw [between?]
    change (List.isPrefixOf? _ ('r' :: _)).bind _ = _
    rw [isPrefixOf?_eq_none (d := 's') rfl (by decide)]
    rfl
  rw [String.toList_append, String.toList_append, List.append_assoc, readStatement, between?_eq_some,
    hswitch, if_neg (by simp)]
  rfl

/-- Blanks in front of a line do not count. -/
theorem readLine_pad (k : Nat) (line : String) :
    readLine (String.ofList (List.replicate k ' ') ++ line) = readLine line := by
  rw [readLine, readLine, String.toList_append, String.toList_ofList,
    List.dropWhile_append_of_pos (by simp)]

/-- A line that starts as no label does is a statement. -/
theorem readLine_statement {line : String} {c : Char} (h : line.toList.head? = some c)
    (hc : c ∉ [' ', 'c', 'd']) : readLine line = (readStatement line.toList).map ([·]) := by
  obtain ⟨cs, h⟩ := List.head?_eq_some_iff.1 h
  simp only [List.mem_cons, List.not_mem_nil, or_false, not_or] at hc
  rw [readLine, h, List.dropWhile_cons_of_neg (by simpa using hc.1), readChars,
    isPrefixOf?_eq_none (d := 'c') rfl (Ne.symm hc.2.1),
    isPrefixOf?_eq_none (d := 'd') rfl (Ne.symm hc.2.2)]

theorem readLine_enter (index : String) :
    readLine ("switch (" ++ index ++ ") \x7b") = some [.enter index] := by
  rw [readLine_statement (c := 's') (by simp) (by decide), readStatement_enter]
  rfl

theorem readLine_give (text : String) : readLine ("return " ++ text ++ ";") = some [.give text] := by
  rw [readLine_statement (c := 'r') (by simp) (by decide), readStatement_give]
  rfl

theorem readLine_leave : readLine "\x7d" = some [.leave] :=
  readLine_statement (c := '}') rfl (by decide)

/-- The value of a label is read up to the colon. -/
theorem readLine_label (v : Int) {behind : String} {cs : List Char} (h : behind.toList = ':' :: cs) :
    readLine ("    case " ++ toString v ++ behind) = (readBehind (':' :: cs)).map (.label v :: ·) := by
  have hdigits : ∀ c ∈ (toString v).toList, (c != ':') = true := by
    intro c hc
    rw [bne_iff_ne]
    rintro rfl
    exact absurd (isDigit_of_mem_toString hc (by decide)) (by decide)
  have hchars : ("    case " ++ toString v ++ behind).toList.dropWhile (· == ' ') =
      "case ".toList ++ ((toString v).toList ++ ':' :: cs) := by
    rw [String.toList_append, String.toList_append, h, List.append_assoc]
    rfl
  rw [readLine, hchars, readChars, List.isPrefixOf?_eq_some_iff_append_eq.2 rfl]
  dsimp only
  rw [List.takeWhile_append_of_pos hdigits, List.dropWhile_append_of_pos hdigits,
    List.takeWhile_cons_of_neg (by decide), List.dropWhile_cons_of_neg (by decide), List.append_nil,
    String.ofList_toList, Int.toString_eq_repr, Int.toInt?_repr]
  rfl

theorem readLine_fallback (text : String) :
    readLine ("    default: return " ++ text ++ ";") = some [.fallback, .give text] := by
  have hchars : ("    default: return " ++ text ++ ";").toList.dropWhile (· == ' ') =
      "default".toList ++ (':' :: ' ' :: ("return " ++ text ++ ";").toList) := by
    rw [String.toList_append, String.toList_append, String.toList_append, String.toList_append]
    rfl
  have hcase : "case ".toList.isPrefixOf? ("default".toList ++
      (':' :: ' ' :: ("return " ++ text ++ ";").toList)) = none :=
    isPrefixOf?_eq_none (d := 'c') rfl (by decide)
  rw [readLine, hchars, readChars, hcase, List.isPrefixOf?_eq_some_iff_append_eq.2 rfl]
  dsimp only
  rw [readBehind, readStatement_give]
  rfl

theorem read_cons {line : String} {lines : List String} {ms ms' : List Mark}
    (h : readLine line = some ms) (h' : read lines = some ms') :
    read (line :: lines) = some (ms ++ ms') := by
  rw [read, h, h']
  rfl

/-- Lines that are read one after the other. -/
theorem read_append {lines lines' : List String} {ms ms' : List Mark} (h : read lines = some ms)
    (h' : read lines' = some ms') : read (lines ++ lines') = some (ms ++ ms') := by
  induction lines generalizing ms with
  | nil =>
    cases h
    exact h'
  | cons line lines ih =>
    obtain ⟨ns, hline, h⟩ := Option.bind_eq_some_iff.1 h
    obtain ⟨ns', hlines, rfl⟩ := Option.map_eq_some_iff.1 h
    rw [List.append_assoc]
    exact read_cons hline (ih hlines)

theorem read_indent (depth : Nat) (lines : List String) : read (indent depth lines) = read lines := by
  induction lines with
  | nil => rfl
  | cons line lines ih =>
    have hline : readLine (if line.isEmpty then line
        else String.ofList (List.replicate (4 * depth) ' ') ++ line) = readLine line := by
      split
      · rfl
      · exact readLine_pad _ line
    rw [indent, List.map_cons, read, read, hline]
    exact congrArg _ (funext fun ns => congrArg _ ih)

/-- A case that is a nest of its own is written below its label. -/
theorem renderCases_cons {leafText : List Int → String} {v : Int} {s : Switch}
    {cases : List (Int × Switch)} (h : (s.render leafText zero).length ≠ 1) :
    renderCases leafText zero ((v, s) :: cases) =
      ("    case " ++ toString v ++ ":") :: indent 2 (s.render leafText zero) ++
        renderCases leafText zero cases := by
  rw [renderCases]
  split
  · next line hline => simp [hline] at h
  · rfl

/-- The lines of the cases are read as those of their nests behind their labels. -/
theorem read_renderCases {box : List (String × Option Int)}
    (ih : ∀ tuple, read ((nest box tuple).render (fun t => "return " ++ leaf t ++ ";") zero) =
      some (marks leaf zero box tuple)) (tuple vs : List Int) :
    read (renderCases (fun t => "return " ++ leaf t ++ ";") zero
      (vs.map fun v => (v, nest box (tuple ++ [v])))) =
      some (caseMarks (fun v => marks leaf zero box (tuple ++ [v])) vs) := by
  induction vs with
  | nil => rfl
  | cons v vs ihvs =>
    rw [List.map_cons, caseMarks, List.flatMap_cons]
    cases box with
    | nil =>
      have hbehind : (": " ++ ("return " ++ leaf (tuple ++ [v]) ++ ";")).toList =
          ':' :: ' ' :: ("return " ++ leaf (tuple ++ [v]) ++ ";").toList := by
        rw [String.toList_append]
        rfl
      refine read_cons ?_ ihvs
      rw [String.append_assoc, readLine_label v hbehind, readBehind, readStatement_give]
      rfl
    | cons p box =>
      have hbehind : ":".toList = [':'] := rfl
      have hline : readLine ("    case " ++ toString v ++ ":") = some [.label v] := readLine_label v hbehind
      rw [renderCases_cons (by simp [nest, render])]
      exact read_append (read_cons hline ((read_indent _ _).trans (ih _))) ihvs

/-- **The lines of a nest are read as its marks.** -/
theorem read_render (box : List (String × Option Int)) (tuple : List Int) :
    read ((nest box tuple).render (fun t => "return " ++ leaf t ++ ";") zero) =
      some (marks leaf zero box tuple) := by
  induction box generalizing tuple with
  | nil => exact read_cons (readLine_give _) rfl
  | cons p box ih =>
    rw [nest, render, marks]
    have hleave : read ["\x7d"] = some [.leave] := read_cons readLine_leave (by rw [read])
    have hend := read_cons (readLine_fallback zero) hleave
    exact read_append (read_cons (readLine_enter p.1) (read_renderCases ih tuple _)) hend

/-! ## Executing a nest -/

/-- The values that have a label. -/
theorem mem_upTo {bound : Option Int} {v : Int} :
    v ∈ upTo bound ↔ ∃ m, bound = some m ∧ 0 ≤ v ∧ v ≤ m := by
  rw [upTo, List.mem_map]
  cases bound with
  | none => simp
  | some m =>
    simp only [List.mem_range, Option.getD_some, Option.some.injEq, exists_eq_left']
    constructor
    · rintro ⟨k, hk, rfl⟩
      change 0 ≤ (k : Int) ∧ (k : Int) ≤ m
      omega
    · intro h
      exact ⟨v.toNat, by omega, Int.toNat_of_nonneg h.1⟩

/-- A mark that a search may look for. -/
def Mark.IsStop : Mark → Prop
  | label _ | fallback | leave => True
  | enter _ | give _ => False

/-- Marks that every search passes over. -/
def Passed (ms : List Mark) : Prop :=
  ∀ stop d rest, stop.IsStop → seek stop d (ms ++ rest) = seek stop d rest

section
variable {stop : Mark} {d : Nat}

/-- Inside a switch that is passed over every mark is passed. -/
theorem seek_succ (m : Mark) (rest : List Mark) :
    seek stop (d + 1) (m :: rest) = seek stop (m.depthAfter (d + 1)) rest := by
  rw [seek, if_neg (by simp), if_neg (by simp)]

/-- A mark that is not looked for is passed. -/
theorem seek_of_ne {m : Mark} (hne : m ≠ stop) (hleave : m ≠ .leave) (rest : List Mark) :
    seek stop d (m :: rest) = seek stop (m.depthAfter d) rest := by
  rw [seek, if_neg (by simp [hne]), if_neg (by simp [hleave])]

/-- A mark that is looked for is found. -/
theorem seek_self (stop : Mark) (rest : List Mark) : seek stop 0 (stop :: rest) = some rest := by
  rw [seek, if_pos ⟨rfl, rfl⟩]

end

section
variable {behind : Int → List Mark} {stop : Mark} {v : Int} {vs : List Int}

theorem caseMarks_cons (v : Int) (vs : List Int) (rest : List Mark) :
    caseMarks behind (v :: vs) ++ rest = .label v :: (behind v ++ (caseMarks behind vs ++ rest)) := by
  simp [caseMarks]

/-- Cases inside a switch that is passed over are passed over. -/
theorem seek_caseMarks_succ (hbehind : ∀ v, Passed (behind v)) (hstop : stop.IsStop) (d : Nat)
    (vs : List Int) (rest : List Mark) :
    seek stop (d + 1) (caseMarks behind vs ++ rest) = seek stop (d + 1) rest := by
  induction vs with
  | nil => rfl
  | cons v vs ih => rw [caseMarks_cons, seek_succ, Mark.depthAfter, hbehind v _ _ _ hstop, ih]

/-- Cases without the label that is looked for are passed over. -/
theorem seek_caseMarks (hbehind : ∀ v, Passed (behind v)) (hstop : stop.IsStop)
    (hlabel : ∀ v ∈ vs, stop ≠ .label v) (rest : List Mark) :
    seek stop 0 (caseMarks behind vs ++ rest) = seek stop 0 rest := by
  induction vs with
  | nil => rfl
  | cons v vs ih =>
    obtain ⟨hv, hvs⟩ := List.forall_mem_cons.1 hlabel
    rw [caseMarks_cons, seek_of_ne hv.symm (by simp), Mark.depthAfter, hbehind v _ _ _ hstop, ih hvs]

/-- A label among the cases is found. -/
theorem seek_label_of_mem (hbehind : ∀ v, Passed (behind v)) (h : v ∈ vs) (rest : List Mark) :
    ∃ after, seek (.label v) 0 (caseMarks behind vs ++ rest) = some (behind v ++ after) := by
  have hstop : (Mark.label v).IsStop := trivial
  induction vs with
  | nil => cases h
  | cons w vs ih =>
    rw [caseMarks_cons]
    by_cases hw : w = v
    · subst hw
      exact ⟨_, seek_self _ _⟩
    · rw [seek_of_ne (by simpa using hw) (by simp), Mark.depthAfter, hbehind w _ _ _ hstop]
      exact ih ((List.mem_cons.1 h).resolve_left (Ne.symm hw))

/-- A switch with a label for the value goes on behind it. -/
theorem jump_of_mem (hbehind : ∀ v, Passed (behind v)) (h : v ∈ vs) (rest : List Mark) :
    ∃ after, jump v (caseMarks behind vs ++ rest) = behind v ++ after := by
  obtain ⟨after, hafter⟩ := seek_label_of_mem hbehind h rest
  refine ⟨after, ?_⟩
  rw [jump, hafter]
  rfl

/-- A switch without a label for the value goes on behind `default`. -/
theorem jump_of_notMem (hbehind : ∀ v, Passed (behind v)) (h : v ∉ vs) (result : String)
    (rest : List Mark) :
    jump v (caseMarks behind vs ++ .fallback :: .give result :: .leave :: rest) =
      .give result :: .leave :: rest := by
  have hlabel : seek (.label v) 0 (.fallback :: .give result :: .leave :: rest) = none := by
    rw [seek_of_ne (by simp) (by simp), Mark.depthAfter, seek_of_ne (by simp) (by simp),
      Mark.depthAfter, seek, if_neg (by simp), if_pos ⟨rfl, rfl⟩]
  have hne : ∀ w ∈ vs, Mark.label v ≠ .label w := by
    intro w hw heq
    exact h (Mark.label.inj heq ▸ hw)
  have hstop : (Mark.label v).IsStop ∧ Mark.fallback.IsStop := ⟨trivial, trivial⟩
  rw [jump, seek_caseMarks hbehind hstop.1 hne, hlabel, seek_caseMarks hbehind hstop.2 (by simp),
    seek_self]
  rfl

end

/-- **A nest is passed over.** -/
theorem passed_marks (box : List (String × Option Int)) (tuple : List Int) :
    Passed (marks leaf zero box tuple) := by
  induction box generalizing tuple with
  | nil =>
    intro stop d rest hstop
    exact seek_of_ne (by rintro rfl; exact hstop) (by simp) rest
  | cons p box ih =>
    intro stop d rest hstop
    rw [marks, List.append_assoc, List.cons_append,
      seek_of_ne (by rintro rfl; exact hstop) (by simp), Mark.depthAfter,
      seek_caseMarks_succ (fun v => ih _) hstop]
    simp only [List.cons_append, List.nil_append, seek_succ, Mark.depthAfter, Nat.add_sub_cancel]

/-- **A nest returns the leaf for the values of the indices**, zero if one of them has no label. -/
theorem run_marks (values : String → Int) (box : List (String × Option Int)) (tuple : List Int)
    (rest : List Mark) : run values (marks leaf zero box tuple ++ rest) =
      some (if ∀ p ∈ box, values p.1 ∈ upTo p.2 then leaf (tuple ++ box.map fun p => values p.1)
        else zero) := by
  induction box generalizing tuple rest with
  | nil => simp [marks, run]
  | cons p box ih =>
    have hpassed (v : Int) : Passed (marks leaf zero box (tuple ++ [v])) := passed_marks _ _
    rw [marks, List.append_assoc, List.cons_append, run]
    by_cases hp : values p.1 ∈ upTo p.2
    · obtain ⟨after, hafter⟩ := jump_of_mem hpassed hp (.fallback :: .give zero :: .leave :: rest)
      simp only [List.cons_append, List.nil_append, hafter, ih, List.forall_mem_cons, hp, true_and,
        List.append_assoc, List.map_cons]
    · simp only [List.cons_append, List.nil_append, jump_of_notMem hpassed hp, run,
        List.forall_mem_cons, hp, false_and, if_false]

/-! ## The leaves of a nest -/

/-- The tuples of a box, in lexicographic order. -/
def tuples : List (String × Option Int) → List (List Int)
  | [] => [[]]
  | (_, bound) :: rest => (upTo bound).flatMap fun v => (tuples rest).map (v :: ·)

theorem mem_tuples {box : List (String × Option Int)} {tuple : List Int} :
    tuple ∈ tuples box ↔ List.Forall₂ (fun p v => v ∈ upTo p.2) box tuple := by
  induction box generalizing tuple with
  | nil => simp [tuples]
  | cons p box ih =>
    simp only [tuples, List.mem_flatMap, List.mem_map, ih]
    constructor
    · rintro ⟨v, hv, rest, hrest, rfl⟩
      exact .cons hv hrest
    · intro h
      cases h with
      | cons hv hrest => exact ⟨_, hv, _, hrest, rfl⟩

theorem pairwise_upTo (bound : Option Int) : (upTo bound).Pairwise (· < ·) :=
  List.pairwise_map.2 (List.pairwise_lt_range.imp Int.ofNat_lt.2)

/-- The tuples of a box come in lexicographic order, each once. -/
theorem pairwise_tuples (box : List (String × Option Int)) : (tuples box).Pairwise (· < ·) := by
  induction box with
  | nil => exact List.pairwise_singleton _ _
  | cons p box ih =>
    rw [tuples, List.pairwise_flatMap]
    refine ⟨fun v _ => List.pairwise_map.2 (ih.imp fun h => List.cons_lt_cons_iff.2 (.inr ⟨rfl, h⟩)),
      (pairwise_upTo p.2).imp fun hlt => ?_⟩
    intro t ht t' ht'
    obtain ⟨_, -, rfl⟩ := List.mem_map.1 ht
    obtain ⟨_, -, rfl⟩ := List.mem_map.1 ht'
    exact List.cons_lt_cons_iff.2 (.inl hlt)

/-- A nest has one leaf for each tuple of its box. -/
theorem calls_marks (box : List (String × Option Int)) (tuple : List Int) (rest : List Mark) :
    calls (marks leaf zero box tuple ++ rest) =
      (tuples box).map (fun t => leaf (tuple ++ t)) ++ calls rest := by
  induction box generalizing tuple rest with
  | nil => simp [marks, tuples, calls]
  | cons p box ih =>
    have hcases (vs : List Int) (rest : List Mark) :
        calls (caseMarks (fun v => marks leaf zero box (tuple ++ [v])) vs ++ rest) =
          (vs.flatMap fun v => (tuples box).map (v :: ·)).map (fun t => leaf (tuple ++ t)) ++
            calls rest := by
      induction vs with
      | nil => rfl
      | cons v vs ihvs =>
        rw [caseMarks_cons, List.flatMap_cons, calls, ih, ihvs, List.map_append, List.map_map,
          List.append_assoc]
        simp [Function.comp_def]
    rw [marks, List.append_assoc, List.cons_append, calls, hcases, tuples]
    rfl

end

end Switch

namespace Recurrence

variable {r : Recurrence} {o : CodegenOptions}

/-- The value of an index is in the box: it is between zero and the maximum of the index. -/
def InBox (r : Recurrence) (index : String) (v : Int) : Prop :=
  ∃ m, r.maxOf? index = some m ∧ 0 ≤ v ∧ v ≤ m

/-- The labels for an index are its values in the box. -/
theorem mem_upTo_maxOf? {index : String} {v : Int} :
    v ∈ Switch.upTo (r.maxOf? index) ↔ r.InBox index v :=
  Switch.mem_upTo

theorem forall_mem_box {values : String → Int} :
    (∀ p ∈ r.box, values p.1 ∈ Switch.upTo p.2) ↔ ∀ i ∈ r.indices, r.InBox i (values i) := by
  simp [box, mem_upTo_maxOf?]

theorem mem_tuples_box {tuple : List Int} :
    tuple ∈ Switch.tuples r.box ↔ List.Forall₂ r.InBox r.indices tuple := by
  simp [Switch.mem_tuples, box, List.forall₂_map_left_iff, mem_upTo_maxOf?]

/-- A file has the dispatching function in it. -/
theorem cppDispatcher_eq (layered : Bool) : ∃ front back, r.cppDispatcher o layered =
    "\n".intercalate (front ++ r.dispatchHead o :: (r.dispatchBody o ++ "\x7d" :: back)) := by
  have h (a b c back : List String) (head : String) :
      a ++ b ++ [head] ++ c ++ ["\x7d"] ++ back = (a ++ b) ++ head :: (c ++ "\x7d" :: back) := by simp
  rw [cppDispatcher, List.append_assoc _ _ [""]]
  exact ⟨_, _, congrArg _ (h _ _ _ _ _)⟩

/-- What the body of a dispatcher returns. -/
theorem run_box (zero : String) (values : String → Int) :
    Switch.run values (Switch.marks r.specializationCall zero r.box []) =
      some (if ∀ p ∈ r.box, values p.1 ∈ Switch.upTo p.2 then
        r.specializationCall (r.indices.map values) else zero) := by
  rw [← List.append_nil (Switch.marks _ _ _ _), Switch.run_marks, List.nil_append, box, List.map_map]
  rfl

/-- What the body of a dispatcher calls. -/
theorem calls_box (zero : String) :
    Switch.calls (Switch.marks r.specializationCall zero r.box []) =
      (Switch.tuples r.box).map r.specializationCall := by
  rw [← List.append_nil (Switch.marks _ _ _ _), Switch.calls_marks, Switch.calls, List.append_nil]
  rfl

/-- **A dispatcher enumerates the box of its indices.** The C++ dispatcher of any recurrence has a body that
is read as C++. For any values of the indices it returns the call of the specialisation for these values if
each of them is in the box, and zero if one is not. The calls behind its labels are those for the tuples of
the box, in lexicographic order and each once. -/
theorem dispatcher_enumerates_box (ho : o.target = .cpp) (layered : Bool) :
    ∃ front back marks,
      (r.generateDispatcher o layered).code =
        "\n".intercalate (front ++ r.dispatchHead o :: (r.dispatchBody o ++ "\x7d" :: back)) ∧
      Switch.read (r.dispatchBody o) = some marks ∧
      (∀ values : String → Int,
        ((∀ i ∈ r.indices, r.InBox i (values i)) →
          Switch.run values marks = some (r.specializationCall (r.indices.map values))) ∧
        ((∃ i ∈ r.indices, ¬ r.InBox i (values i)) →
          Switch.run values marks = some (o.vecType ++ "(0.0)"))) ∧
      ∃ tuples : List (List Int), Switch.calls marks = tuples.map r.specializationCall ∧
        tuples.Pairwise (· < ·) ∧
        ∀ tuple, tuple ∈ tuples ↔ List.Forall₂ r.InBox r.indices tuple := by
  have hzero : o.dialect.zero = o.vecType ++ "(0.0)" := by
    rw [CodegenOptions.dialect, ho]
    rfl
  have hcode : (r.generateDispatcher o layered).code = r.cppDispatcher o layered := by
    rw [generateDispatcher, ho]
    rfl
  have hread : Switch.read (r.dispatchBody o) =
      some (Switch.marks r.specializationCall o.dialect.zero r.box []) := by
    rw [dispatchBody, Switch.read_indent, Switch.read_render]
  obtain ⟨front, back, hfile⟩ := r.cppDispatcher_eq (o := o) layered
  refine ⟨front, back, _, hcode.trans hfile, hread, fun values => ⟨?_, ?_⟩,
    Switch.tuples r.box, calls_box _, Switch.pairwise_tuples _, fun tuple => mem_tuples_box⟩
  · intro hin
    rw [run_box, if_pos (forall_mem_box.2 hin)]
  · rintro ⟨i, hi, hout⟩
    rw [run_box, if_neg fun hin => hout (forall_mem_box.1 hin i hi), hzero]

/-- A recurrence with two indices of different maxima. -/
def twoIndices : Except Error Recurrence :=
  create "Pair" ["n", "k"] ["x"] { maxIndices := [("n", 1), ("k", 2)] }

/-- A dispatcher over two times three values. -/
theorem dispatcher_enumerates_box_pair : ∃ r, twoIndices = .ok r ∧
    ({} : CodegenOptions).target = .cpp ∧ ∃ front back marks,
      (r.generateDispatcher {} false).code =
        "\n".intercalate (front ++ r.dispatchHead {} :: (r.dispatchBody {} ++ "\x7d" :: back)) ∧
      Switch.read (r.dispatchBody {}) = some marks ∧
      Switch.run (fun i => if i = "n" then 1 else 2) marks = some "PairCoeff<1, 2>::compute(x)" ∧
      Switch.run (fun i => if i = "n" then 2 else 1) marks = some "Vec8d(0.0)" ∧
      ∃ tuples : List (List Int), Switch.calls marks = tuples.map r.specializationCall ∧
        tuples.Pairwise (· < ·) ∧ [1, 2] ∈ tuples ∧ [2, 1] ∉ tuples := by
  have hcheck : (twoIndices.toOption.any fun r => r.indices == ["n", "k"] &&
      r.maxOf? "n" == some 1 && r.maxOf? "k" == some 2 &&
      r.specializationCall [1, 2] == "PairCoeff<1, 2>::compute(x)") = true := by
    decide +kernel
  obtain ⟨r, hr, hcheck⟩ := exists_ok_of_any hcheck
  simp only [Bool.and_eq_true, beq_iff_eq] at hcheck
  obtain ⟨⟨⟨hindices, hn⟩, hk⟩, hcall⟩ := hcheck
  obtain ⟨front, back, marks, hcode, hread, hrun, tuples, hcalls, hsorted, hmem⟩ :=
    dispatcher_enumerates_box (r := r) (o := {}) rfl false
  have hn (v : Int) : r.InBox "n" v ↔ 0 ≤ v ∧ v ≤ 1 := by simp [InBox, hn]
  have hk (v : Int) : r.InBox "k" v ↔ 0 ≤ v ∧ v ≤ 2 := by simp [InBox, hk]
  rw [hindices] at hrun hmem
  refine ⟨r, hr, rfl, front, back, marks, hcode, hread, ?_, ?_, tuples, hcalls, hsorted, ?_, ?_⟩
  · rw [(hrun _).1 (by simp [hn, hk])]
    exact congrArg some hcall
  · rw [(hrun _).2 ⟨"n", by simp, by simp [hn]⟩]
    rfl
  · simp [hmem, hn, hk]
  · simp [hmem, hn, hk]

end Recurrence

end RecurrenceCompiler
