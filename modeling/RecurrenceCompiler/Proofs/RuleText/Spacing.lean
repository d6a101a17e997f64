import RecurrenceCompiler.Proofs.RuleText.Products

/-!
# Blanks in rule text

Rule text is cut after its blanks are collapsed and those around it are trimmed. Neither changes the characters
that stand for something (`collapseBlanks_append_visible`), the brackets (`balanced_collapseBlanks`) or where
the text is cut (`splitTerms_trim`).
-/

namespace RecurrenceCompiler.RuleText

open Text Decimal Arith

/-- A run of blanks, or nothing. -/
def Blanks (cs : List Char) : Prop :=
  ∀ c ∈ cs, isBlank c

theorem Blanks.nil : Blanks [] := by
  simp [Blanks]

theorem Blanks.append {a b : List Char} (ha : Blanks a) (hb : Blanks b) : Blanks (a ++ b) :=
  List.forall_mem_append.2 ⟨ha, hb⟩

theorem Blanks.reverse {cs : List Char} (h : Blanks cs) : Blanks cs.reverse :=
  fun c hc => h c (List.mem_reverse.1 hc)

theorem Blanks.plain {cs : List Char} (h : Blanks cs) : ∀ c ∈ cs, isPlain c :=
  fun c hc => isPlain_of_isBlank (h c hc)

/-- A character that is no blank does not stand among blanks. -/
theorem Blanks.not_mem {cs : List Char} (h : Blanks cs) {c : Char} (hc : isBlank c = false) : c ∉ cs := by
  intro hmem
  rw [h c hmem] at hc
  cases hc

/-! ## Trimming -/

/-- A text without blanks is trimmed. -/
theorem trim_of_visible {cs : List Char} (h : ∀ c ∈ cs, isBlank c = false) : trim cs = cs :=
  trim_eq_self (fun c hc => h c (List.mem_of_mem_head? hc)) fun c hc => h c (List.mem_of_mem_getLast? hc)

/-- Blanks in front do not count, up to a character that is none. -/
theorem trimStart_blanks_append {gap : List Char} (h : Blanks gap) {c : Char} (hc : isBlank c = false)
    (cs : List Char) : trimStart (gap ++ c :: cs) = c :: cs := by
  rw [trimStart, List.dropWhile_append_of_pos h, List.dropWhile_cons_of_neg (by simp [hc])]

/-- Blanks in front do not count when a text is trimmed. -/
theorem trim_blanks_append {gap : List Char} (h : Blanks gap) (cs : List Char) :
    trim (gap ++ cs) = trim cs := by
  rw [trim, trim, trimStart, trimStart, List.dropWhile_append_of_pos h]

theorem trimEnd_append_blanks {gap : List Char} (h : Blanks gap) (cs : List Char) :
    trimEnd (cs ++ gap) = trimEnd cs := by
  rw [trimEnd, trimEnd, List.reverse_append, List.dropWhile_append_of_pos h.reverse]

/-- A text is what trimming leaves of it between blanks. -/
theorem exists_trim (cs : List Char) :
    ∃ gap gap', Blanks gap ∧ Blanks gap' ∧ cs = gap ++ (trim cs ++ gap') := by
  obtain ⟨gap', heq, hgap'⟩ := exists_trimEnd_append (trimStart cs)
  have hgap : Blanks (cs.takeWhile isBlank) := List.all_eq_true.1 List.all_takeWhile
  refine ⟨_, gap', hgap, hgap', ?_⟩
  rw [trim, ← heq, trimStart, List.takeWhile_append_dropWhile]

/-- Blanks behind do not count when a text is trimmed. -/
theorem trim_append_blanks {gap : List Char} (h : Blanks gap) (cs : List Char) :
    trim (cs ++ gap) = trim cs := by
  rw [trim, trim, trimStart, trimStart, List.dropWhile_append]
  split
  · next hnil =>
    rw [List.dropWhile_eq_nil_iff.2 h, List.isEmpty_iff.1 hnil]
  · exact trimEnd_append_blanks h _

/-- A text with more than blanks is not trimmed away. -/
theorem trim_ne_nil_of_mem {c : Char} {cs : List Char} (hmem : c ∈ cs) (hc : isBlank c = false) :
    trim cs ≠ [] := by
  intro hnil
  obtain ⟨gap, gap', hgap, hgap', heq⟩ := exists_trim cs
  rw [hnil, List.nil_append] at heq
  exact (hgap.append hgap').not_mem hc (heq ▸ hmem)

/-- A text is plain if what trimming leaves of it is. -/
theorem plain_of_trim {cs : List Char} (h : ∀ c ∈ trim cs, isPlain c) : ∀ c ∈ cs, isPlain c := by
  obtain ⟨gap, gap', hgap, hgap', heq⟩ := exists_trim cs
  rw [heq]
  exact List.forall_mem_append.2 ⟨hgap.plain, List.forall_mem_append.2 ⟨h, hgap'.plain⟩⟩

/-- Trimming reaches from behind to the last character that is no blank. -/
theorem trimEnd_append_cons {c : Char} (hc : isBlank c = false) (cs rest : List Char) :
    trimEnd (cs ++ c :: rest) = cs ++ c :: trimEnd rest := by
  have hstop : (c :: cs.reverse).dropWhile isBlank = c :: cs.reverse :=
    List.dropWhile_cons_of_neg (by simp [hc])
  rw [trimEnd, trimEnd, List.reverse_append, List.reverse_cons, List.append_assoc, List.singleton_append,
    List.dropWhile_append, hstop]
  split
  · next hnil => simp [List.isEmpty_iff.1 hnil]
  · simp

/-- Between two characters that are no blanks nothing is trimmed. -/
theorem trim_between {b c : Char} (hb : isBlank b = false) (hc : isBlank c = false)
    (cs rest : List Char) : trim (b :: (cs ++ c :: rest)) = b :: (cs ++ c :: trimEnd rest) := by
  rw [trim, trimStart, List.dropWhile_cons_of_neg (by simp [hb]), ← List.cons_append,
    trimEnd_append_cons hc, List.cons_append]

/-! ## Collapsing -/

/-- Blanks collapse to blanks. -/
theorem Blanks.collapseFrom {gap : List Char} (h : Blanks gap) (afterBlank : Bool) :
    Blanks (collapseFrom afterBlank gap) := by
  induction gap generalizing afterBlank with
  | nil => exact .nil
  | cons c gap ih =>
    have hgap : Blanks gap := fun d hd => h d (by simp [hd])
    rw [Text.collapseFrom, if_pos (h c (by simp))]
    split
    · exact ih hgap true
    · exact List.forall_mem_cons.2 ⟨rfl, ih hgap true⟩

/-- A character that is no blank stays, and what stands behind it collapses by itself. -/
theorem collapseFrom_append_cons {c : Char} (hc : isBlank c = false) (afterBlank : Bool)
    (cs rest : List Char) : collapseFrom afterBlank (cs ++ c :: rest) =
      collapseFrom afterBlank cs ++ c :: collapseFrom false rest := by
  induction cs generalizing afterBlank with
  | nil => simp [collapseFrom, hc]
  | cons d cs ih =>
    rw [List.cons_append, collapseFrom, collapseFrom, ih, ih]
    split
    · split <;> rfl
    · rfl

theorem collapseBlanks_append_cons {c : Char} (hc : isBlank c = false) (cs rest : List Char) :
    collapseBlanks (cs ++ c :: rest) = collapseBlanks cs ++ c :: collapseBlanks rest :=
  collapseFrom_append_cons hc false cs rest

/-- A character at the end that is no blank stays. -/
theorem collapseBlanks_concat {c : Char} (hc : isBlank c = false) (cs : List Char) :
    collapseBlanks (cs ++ [c]) = collapseBlanks cs ++ [c] :=
  collapseBlanks_append_cons hc cs []

/-- Blanks collapse to blanks. -/
theorem Blanks.collapseBlanks {gap : List Char} (h : Blanks gap) : Blanks (collapseBlanks gap) :=
  h.collapseFrom false

/-- A word without blanks stays, and what stands around it collapses by itself. -/
theorem collapseBlanks_append_visible {word : List Char} (hne : word ≠ [])
    (hword : ∀ c ∈ word, isBlank c = false) (cs rest : List Char) :
    collapseBlanks (cs ++ (word ++ rest)) = collapseBlanks cs ++ (word ++ collapseBlanks rest) := by
  have hbehind (word rest : List Char) (hword : ∀ c ∈ word, isBlank c = false) :
      collapseFrom false (word ++ rest) = word ++ collapseFrom false rest := by
    induction word with
    | nil => rfl
    | cons c word ih =>
      rw [List.cons_append, collapseFrom, if_neg (by simp [hword c]), ih fun d hd => hword d (by simp [hd]),
        List.cons_append]
  obtain ⟨c, word, rfl⟩ := List.exists_cons_of_ne_nil hne
  rw [collapseBlanks, List.cons_append, collapseFrom_append_cons (hword c (by simp)),
    hbehind word rest fun d hd => hword d (by simp [hd])]
  rfl

/-- What collapses to blanks is made of blanks. -/
theorem Blanks.of_collapseFrom {afterBlank : Bool} {cs : List Char} (h : Blanks (Text.collapseFrom afterBlank cs)) :
    Blanks cs := by
  induction cs generalizing afterBlank with
  | nil => exact .nil
  | cons c cs ih =>
    rw [Text.collapseFrom] at h
    by_cases hc : isBlank c
    · refine List.forall_mem_cons.2 ⟨hc, ?_⟩
      rw [if_pos hc] at h
      split at h
      · exact ih h
      · exact ih (List.forall_mem_cons.1 h).2
    · rw [if_neg hc] at h
      exact absurd (List.forall_mem_cons.1 h).1 hc

/-- What stands around a character after blanks collapse stands around it before. -/
theorem collapseFrom_eq_append_cons {c : Char} (hc : isBlank c = false) {afterBlank : Bool} {cs a b : List Char}
    (h : collapseFrom afterBlank cs = a ++ c :: b) :
    ∃ a' b', cs = a' ++ c :: b' ∧ collapseFrom afterBlank a' = a ∧ collapseBlanks b' = b := by
  induction cs generalizing afterBlank a with
  | nil => simp [collapseFrom] at h
  | cons d cs ih =>
    rw [collapseFrom] at h
    split at h
    · next hd =>
      split at h
      · next hafter =>
        obtain ⟨a', b', rfl, rfl, hb⟩ := ih h
        exact ⟨d :: a', b', rfl, by rw [collapseFrom, if_pos hd, if_pos hafter], hb⟩
      · next hafter =>
        cases a with
        | nil =>
          obtain rfl : ' ' = c := (List.cons.inj h).1
          cases hc
        | cons x a =>
          obtain ⟨rfl, hrest⟩ := List.cons.inj h
          obtain ⟨a', b', rfl, rfl, hb⟩ := ih hrest
          exact ⟨d :: a', b', rfl, by rw [collapseFrom, if_pos hd, if_neg hafter], hb⟩
    · next hd =>
      cases a with
      | nil =>
        obtain ⟨rfl, rfl⟩ := List.cons.inj h
        exact ⟨[], cs, rfl, rfl, rfl⟩
      | cons x a =>
        obtain ⟨rfl, hrest⟩ := List.cons.inj h
        obtain ⟨a', b', rfl, rfl, hb⟩ := ih hrest
        exact ⟨d :: a', b', rfl, by rw [collapseFrom, if_neg hd], hb⟩

theorem collapseBlanks_eq_append_cons {c : Char} (hc : isBlank c = false) {cs a b : List Char}
    (h : collapseBlanks cs = a ++ c :: b) :
    ∃ a' b', cs = a' ++ c :: b' ∧ collapseBlanks a' = a ∧ collapseBlanks b' = b :=
  collapseFrom_eq_append_cons hc h

/-- What stands around a word after blanks collapse stands around it before. -/
theorem collapseBlanks_eq_append_visible {word : List Char} (hne : word ≠ [])
    (hword : ∀ c ∈ word, isBlank c = false) {cs a b : List Char} (h : collapseBlanks cs = a ++ (word ++ b)) :
    ∃ a' b', cs = a' ++ (word ++ b') ∧ collapseBlanks a' = a ∧ collapseBlanks b' = b := by
  have hbehind {word : List Char} (hword : ∀ c ∈ word, isBlank c = false) {cs : List Char}
      (h : collapseBlanks cs = word ++ b) : ∃ b', cs = word ++ b' ∧ collapseBlanks b' = b := by
    induction word generalizing cs with
    | nil => exact ⟨cs, rfl, h⟩
    | cons c word ih =>
      obtain ⟨a', b', rfl, ha, hrest⟩ := collapseBlanks_eq_append_cons (a := []) (hword c (by simp)) h
      obtain rfl : a' = [] := by
        cases a' with
        | nil => rfl
        | cons d a' =>
          rw [collapseBlanks, collapseFrom] at ha
          split at ha <;> cases ha
      obtain ⟨b', rfl, hb⟩ := ih (fun d hd => hword d (by simp [hd])) hrest
      exact ⟨b', rfl, hb⟩
  obtain ⟨c, word, rfl⟩ := List.exists_cons_of_ne_nil hne
  obtain ⟨a', b', rfl, ha, hrest⟩ := collapseBlanks_eq_append_cons (hword c (by simp)) h
  obtain ⟨b', rfl, hb⟩ := hbehind (fun d hd => hword d (by simp [hd])) hrest
  exact ⟨a', b', rfl, ha, hb⟩

/-- What closes behind a character in the same way closes in the same way. -/
theorem balancedFrom_cons_congr {a b : List Char} (h : ∀ s, balancedFrom s a = balancedFrom s b) (c : Char)
    (s : List Char) : balancedFrom s (c :: a) = balancedFrom s (c :: b) := by
  rcases isOpening_or_isClosing_or_isPlain c with hc | hc | hc
  · rw [balancedFrom_opening hc, balancedFrom_opening hc, h]
  · rw [Bool.eq_iff_iff, balancedFrom_closing hc, balancedFrom_closing hc]
    simp only [h]
  · rw [balancedFrom_plain hc, balancedFrom_plain hc, h]

/-- Collapsing leaves the brackets as they are. -/
theorem balanced_collapseBlanks (cs : List Char) : balanced (collapseBlanks cs) = balanced cs := by
  have hfrom (s : List Char) (afterBlank : Bool) :
      balancedFrom s (collapseFrom afterBlank cs) = balancedFrom s cs := by
    induction cs generalizing s afterBlank with
    | nil => rfl
    | cons c cs ih =>
      rw [collapseFrom]
      split
      · next hc =>
        rw [balancedFrom_plain (isPlain_of_isBlank hc)]
        split
        · exact ih s true
        · rw [balancedFrom_plain rfl]
          exact ih s true
      · exact balancedFrom_cons_congr (fun s => ih s false) c s
  exact hfrom [] false

/-- Plain text inside another does not change how its brackets close. -/
theorem balanced_append_plain {word : List Char} (hword : ∀ c ∈ word, isPlain c) (a b : List Char) :
    balanced (a ++ (word ++ b)) = balanced (a ++ b) := by
  have hskip (s : List Char) : balancedFrom s (word ++ b) = balancedFrom s b := by
    induction word with
    | nil => rfl
    | cons c word ih =>
      rw [List.cons_append, balancedFrom_plain (hword c (by simp)), ih fun d hd => hword d (by simp [hd])]
  have hfrom (s : List Char) : balancedFrom s (a ++ (word ++ b)) = balancedFrom s (a ++ b) := by
    induction a generalizing s with
    | nil => exact hskip s
    | cons c a ih => exact balancedFrom_cons_congr ih c s
  exact hfrom []

/-! ## Terms -/

/-- Blanks are not split. -/
theorem Blanks.unsplit {gap : List Char} (h : Blanks gap) (depth : Int) (seen : List Char) :
    unsplit depth seen gap :=
  unsplit_of_not_mem (h.not_mem rfl) (h.not_mem rfl) depth seen

/-- Where a fresh start stands no digits are taken. -/
theorem span_digits_append {a : List Char} (ha : startsFresh a) (cs : List Char) :
    (cs ++ a).takeWhile isDigit = cs.takeWhile isDigit ∧
      (cs ++ a).dropWhile isDigit = cs.dropWhile isDigit ++ a := by
  have hdrop := dropWhile_isDigit_of_startsFresh ha
  have htake : a.takeWhile isDigit = [] := by
    have hsplit := List.takeWhile_append_dropWhile (p := isDigit) (l := a)
    rw [hdrop] at hsplit
    exact List.append_left_eq_self.1 hsplit
  induction cs with
  | nil => exact ⟨htake, hdrop⟩
  | cons c cs ih =>
    by_cases hc : isDigit c
    · simp [hc, ih]
    · simp [hc]

theorem startsFresh_append {a : List Char} (ha : startsFresh a) (cs : List Char) :
    startsFresh (cs ++ a) = startsFresh cs := by
  cases cs with
  | nil => exact ha
  | cons c cs => rfl

/-- The sign of an exponent is known by what stands behind a fresh start. -/
theorem afterExponent_append {a : List Char} (ha : startsFresh a) (seen : List Char) :
    afterExponent (seen ++ a) = afterExponent seen := by
  cases seen with
  | nil =>
    cases a with
    | nil => rfl
    | cons c a =>
      have hc : isWord c = false := by
        rw [startsFresh, Bool.not_eq_true', Bool.or_eq_false_iff] at ha
        exact ha.1
      have hletter : (c == 'e' || c == 'E') = false := by
        rw [Bool.or_eq_false_iff, beq_eq_false_iff_ne, beq_eq_false_iff_ne]
        constructor <;> rintro rfl <;> cases hc
      rw [List.nil_append, afterExponent, afterExponent, hletter, Bool.false_and]
  | cons e before =>
    obtain ⟨htake, hdrop⟩ := span_digits_append ha before
    rw [List.cons_append, afterExponent, afterExponent, htake, hdrop]
    cases before.dropWhile isDigit with
    | nil =>
      cases a with
      | nil => rfl
      | cons c a =>
        have hpoint : c ≠ '.' := by
          rintro rfl
          cases ha
        have hfresh : startsFresh (c :: a) = startsFresh [] := ha
        simp [hpoint, hfresh]
    | cons c rest =>
      obtain ⟨htake, hdrop⟩ := span_digits_append ha rest
      by_cases hpoint : c = '.'
      · subst hpoint
        simp [htake, hdrop, startsFresh_append ha]
      · simp [hpoint, startsFresh]

/-- Of the text before a sign only what stands behind a fresh start counts. -/
theorem splitTermsFrom_append_seen {a b : List Char} (ha : startsFresh a) (hb : startsFresh b)
    (h : ∀ seen, afterOperand (seen ++ a) = afterOperand (seen ++ b)) (depth : Int)
    (seen cur : List Char) (negated : Bool) (cs : List Char) :
    splitTermsFrom depth (seen ++ a) cur negated cs = splitTermsFrom depth (seen ++ b) cur negated cs := by
  induction cs generalizing depth seen cur negated with
  | nil => rfl
  | cons c cs ih =>
    rw [splitTermsFrom, splitTermsFrom, afterExponent_append ha, afterExponent_append hb, h]
    have hcons := fun depth cur negated => ih depth (c :: seen) cur negated
    simp only [List.cons_append] at hcons
    rw [hcons, hcons]

theorem Blanks.startsFresh {gap : List Char} (h : Blanks gap) : startsFresh gap := by
  cases gap with
  | nil => rfl
  | cons c gap =>
    have hjoint := isJoint_of_isBlank (h c (by simp))
    have hpoint : c ≠ '.' := by
      rintro rfl
      cases hjoint
    simp [RuleText.startsFresh, isWord_of_isJoint hjoint, hpoint]

/-- No operand is made of blanks. -/
theorem afterOperand_append_blanks {gap : List Char} (h : Blanks gap) (seen : List Char) :
    afterOperand (seen ++ gap) = afterOperand seen := by
  rw [afterOperand, afterOperand, List.dropWhile_append]
  cases hdrop : seen.dropWhile isBlank with
  | nil => rw [if_pos (by rfl), List.dropWhile_eq_nil_iff.2 h]
  | cons c cs => rfl

theorem afterOperand_blanks_append {gap : List Char} (h : Blanks gap) (seen : List Char) :
    afterOperand (gap ++ seen) = afterOperand seen := by
  rw [afterOperand, afterOperand, List.dropWhile_append_of_pos h]

/-- Blanks at the start of a term are trimmed. -/
theorem splitTermsFrom_append_cur {gap : List Char} (h : Blanks gap) (depth : Int)
    (seen cur : List Char) (negated : Bool) (cs : List Char) :
    splitTermsFrom depth seen (cur ++ gap) negated cs = splitTermsFrom depth seen cur negated cs := by
  induction cs generalizing depth seen cur with
  | nil =>
    rw [splitTermsFrom, splitTermsFrom, List.reverse_append, trim_blanks_append h.reverse]
  | cons c cs ih =>
    rw [splitTermsFrom, splitTermsFrom, ← List.cons_append, ih, List.reverse_append,
      trim_blanks_append h.reverse]

/-- Blanks at the end of a text are trimmed. -/
theorem splitTermsFrom_append_blanks {gap : List Char} (h : Blanks gap) (depth : Int)
    (seen cur : List Char) (negated : Bool) (cs : List Char) :
    splitTermsFrom depth seen cur negated (cs ++ gap) = splitTermsFrom depth seen cur negated cs := by
  induction cs generalizing depth seen cur negated with
  | nil =>
    have hskip := splitTermsFrom_append (h.unsplit depth seen) cur negated []
    rw [List.append_nil] at hskip
    rw [List.nil_append, hskip, splitTermsFrom, splitTermsFrom, List.reverse_append, List.reverse_reverse,
      trim_append_blanks h]
  | cons c cs ih =>
    rw [List.cons_append, splitTermsFrom, splitTermsFrom, ih, ih]

/-- **Blanks around a text do not change its terms.** -/
theorem splitTerms_trim (cs : List Char) : splitTerms (trim cs) = splitTerms cs := by
  obtain ⟨gap, gap', hgap, hgap', heq⟩ := exists_trim cs
  have hfront (rest : List Char) : splitTerms (gap ++ rest) = splitTerms rest := by
    rw [splitTerms, splitTermsFrom_append (hgap.unsplit 0 []), foldl_depthAfter_plain hgap.plain,
      List.append_nil]
    have hseen := splitTermsFrom_append_seen hgap.reverse.startsFresh (b := []) rfl
      (fun seen => by rw [afterOperand_append_blanks hgap.reverse, List.append_nil]) 0 []
    have hcur := splitTermsFrom_append_cur hgap.reverse 0 [] []
    simp only [List.nil_append] at hseen hcur
    rw [hseen, hcur, splitTerms]
  conv => rhs; rw [heq]
  rw [hfront, splitTerms, splitTerms, splitTermsFrom_append_blanks hgap']

/-- What stands before a part of a text is cut in the same way whatever the part is. -/
theorem exists_splitTermsFrom_append (depth : Int) (seen cur : List Char) (negated : Bool)
    (cs : List Char) : ∃ ps cur' negated', ∀ rest, splitTermsFrom depth seen cur negated (cs ++ rest) =
      ps ++ splitTermsFrom (cs.foldl depthAfter depth) (cs.reverse ++ seen) cur' negated' rest := by
  induction cs generalizing depth seen cur negated with
  | nil => exact ⟨[], cur, negated, fun rest => rfl⟩
  | cons c cs ih =>
    by_cases hc : depth == 0 && (c == '+' || c == '-') && afterOperand seen && !afterExponent seen
    · have hdepth : depthAfter depth c = 0 := by
        simp only [Bool.and_eq_true, Bool.or_eq_true, beq_iff_eq] at hc
        obtain ⟨⟨⟨rfl, rfl | rfl⟩, -⟩, -⟩ := hc <;> rfl
      obtain ⟨ps, cur', negated', h⟩ := ih 0 (c :: seen) [] (c == '-')
      refine ⟨⟨trim cur.reverse, negated⟩ :: ps, cur', negated', fun rest => ?_⟩
      rw [List.cons_append, splitTermsFrom, if_pos hc, h, List.foldl_cons, hdepth]
      simp
    · obtain ⟨ps, cur', negated', h⟩ := ih (depthAfter depth c) (c :: seen) (c :: cur) negated
      refine ⟨ps, cur', negated', fun rest => ?_⟩
      rw [List.cons_append, splitTermsFrom, if_neg hc, h]
      simp

/-- **What stands behind a star is cut in the same way whatever stands before it.** -/
theorem exists_splitTermsFrom_star (depth : Int) (seen : List Char) (negated : Bool) (cs : List Char) :
    ∃ text ps, ∀ before cur, splitTermsFrom depth (seen ++ '*' :: before) cur negated cs =
      ⟨trim (cur.reverse ++ text), negated⟩ :: ps := by
  have hoperand (before seen : List Char) :
      afterOperand (seen ++ '*' :: before) = afterOperand (seen ++ ['*']) := by
    rw [afterOperand, afterOperand, List.dropWhile_append, List.dropWhile_append]
    cases seen.dropWhile isBlank <;> rfl
  induction cs generalizing depth seen negated with
  | nil => exact ⟨[], [], fun before cur => by rw [splitTermsFrom, List.append_nil]⟩
  | cons c cs ih =>
    have hexponent (before : List Char) : afterExponent (seen ++ '*' :: before) = afterExponent seen :=
      afterExponent_append rfl seen
    by_cases hc : depth == 0 && (c == '+' || c == '-') && afterOperand (seen ++ ['*']) &&
        !afterExponent seen
    · obtain ⟨text, ps, h⟩ := ih 0 (c :: seen) (c == '-')
      refine ⟨[], ⟨trim text, c == '-'⟩ :: ps, fun before cur => ?_⟩
      rw [splitTermsFrom, hoperand, hexponent, if_pos hc, ← List.cons_append, h, List.append_nil]
      rfl
    · obtain ⟨text, ps, h⟩ := ih (depthAfter depth c) (c :: seen) negated
      refine ⟨c :: text, ps, fun before cur => ?_⟩
      rw [splitTermsFrom, hoperand, hexponent, if_neg hc, ← List.cons_append, h]
      simp

end RecurrenceCompiler.RuleText
