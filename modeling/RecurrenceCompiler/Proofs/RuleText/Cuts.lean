import RecurrenceCompiler.Proofs.Constraint.Key
import RecurrenceCompiler.Proofs.RuleText.Brackets

/-!
# Where rule text is not cut

A text in which no separator stands outside all brackets is passed over as a whole when it is cut
(`splitTopFrom_append`, `splitTermsFrom_append`). The pieces of a text are such texts
(`uncut_splitTop`), and so is whatever stands in brackets (`uncut_brackets`, `unsplit_brackets`).
-/

namespace RecurrenceCompiler.RuleText

open Text Decimal Arith

/-! ## Separators -/

/-- Whether no separator of a text stands outside all brackets, from a depth on. -/
def uncut (sep : Char) : Int → List Char → Bool
  | _, [] => true
  | depth, c :: cs => !(depth == 0 && c == sep) && uncut sep (depthAfter depth c) cs

theorem uncut_append {sep : Char} {depth : Int} (a b : List Char) :
    uncut sep depth (a ++ b) = (uncut sep depth a && uncut sep (a.foldl depthAfter depth) b) := by
  induction a generalizing depth with
  | nil => rfl
  | cons c a ih => simp [uncut, ih, Bool.and_assoc]

/-- A text without the separator is not cut. -/
theorem uncut_of_not_mem {sep : Char} {cs : List Char} (h : sep ∉ cs) (depth : Int) :
    uncut sep depth cs := by
  induction cs generalizing depth with
  | nil => rfl
  | cons c cs ih =>
    rw [List.mem_cons, not_or] at h
    simp [uncut, ih h.2, Ne.symm h.1]

/-- What is not cut is passed over. -/
theorem splitTopFrom_append {sep : Char} {depth : Int} {a : List Char} (h : uncut sep depth a)
    (cur rest : List Char) : splitTopFrom sep depth cur (a ++ rest) =
      splitTopFrom sep (a.foldl depthAfter depth) (a.reverse ++ cur) rest := by
  induction a generalizing depth cur with
  | nil => rfl
  | cons c a ih =>
    rw [uncut, Bool.and_eq_true, Bool.not_eq_true'] at h
    rw [List.cons_append, splitTopFrom, if_neg (by simp [h.1]), ih h.2]
    simp

/-- Plain characters do not change the depth. -/
theorem depthAfter_plain {c : Char} (h : isPlain c) (depth : Int) : depthAfter depth c = depth := by
  simp only [isPlain, Bool.and_eq_true, Bool.not_eq_true'] at h
  simp [depthAfter, h]

theorem foldl_depthAfter_plain {cs : List Char} (h : ∀ c ∈ cs, isPlain c) (depth : Int) :
    cs.foldl depthAfter depth = depth := by
  induction cs with
  | nil => rfl
  | cons c cs ih =>
    rw [List.foldl_cons, depthAfter_plain (h c (by simp))]
    exact ih fun d hd => h d (by simp [hd])

/-- One character of a text that closes what is open, and what is open after it. -/
theorem balancedFrom_step {s a : List Char} {c : Char} (h : balancedFrom s (c :: a) = true) :
    ∃ s', balancedFrom s' a = true ∧ ∀ depth : Int, depthAfter (s.length + depth) c = s'.length + depth := by
  rcases isOpening_or_isClosing_or_isPlain c with hc | hc | hc
  · rw [balancedFrom_opening hc] at h
    exact ⟨c :: s, h, fun depth => by simp [depthAfter, hc]; ring⟩
  · obtain ⟨o, s, rfl, -, h⟩ := (balancedFrom_closing hc).1 h
    exact ⟨s, h, fun depth => by simp [depthAfter, hc, not_isOpening_of_isClosing hc]; ring⟩
  · rw [balancedFrom_plain hc] at h
    exact ⟨s, h, fun depth => depthAfter_plain hc _⟩

/-- What closes `s` takes the depth down by as much. -/
theorem foldl_depthAfter_balancedFrom {s a : List Char} (h : balancedFrom s a = true) (depth : Int) :
    a.foldl depthAfter (s.length + depth) = depth := by
  induction a generalizing s with
  | nil =>
    obtain rfl : s = [] := by simpa [balancedFrom] using h
    simp
  | cons c a ih =>
    obtain ⟨s', h, hstep⟩ := balancedFrom_step h
    rw [List.foldl_cons, hstep]
    exact ih h

/-- A balanced text ends at the depth where it starts. -/
theorem foldl_depthAfter_balanced {a : List Char} (h : balanced a) (depth : Int) :
    a.foldl depthAfter depth = depth := by
  simpa using foldl_depthAfter_balancedFrom (s := []) h depth

theorem uncut_of_balancedFrom {sep : Char} {s a : List Char} (h : balancedFrom s a = true) {depth : Int}
    (hdepth : 0 < depth) : uncut sep (s.length + depth) a := by
  induction a generalizing s with
  | nil => rfl
  | cons c a ih =>
    obtain ⟨s', h, hstep⟩ := balancedFrom_step h
    have hne : (s.length + depth == (0 : Int)) = false := by
      rw [beq_eq_false_iff_ne]
      omega
    rw [uncut, hne, Bool.false_and, Bool.not_false, Bool.true_and, hstep]
    exact ih h

/-- What stands in brackets is not cut. -/
theorem uncut_brackets {sep o c : Char} (ho : isOpening o) (hsep : o ≠ sep)
    {a : List Char} (h : balanced a) : uncut sep 0 (o :: a ++ [c]) := by
  have hopen : depthAfter 0 o = 1 := by simp [depthAfter, ho]
  have hinside : uncut sep 1 a := by
    simpa using uncut_of_balancedFrom (s := []) h Int.one_pos
  rw [List.cons_append, uncut, hopen, uncut_append, hinside, foldl_depthAfter_balanced h]
  simp [uncut, hsep]

/-- The depth before the blanks at the front of a text is that after them. -/
theorem uncut_trim {sep : Char} {cs : List Char} (h : uncut sep 0 cs) : uncut sep 0 (trim cs) := by
  obtain ⟨bs, heq, -⟩ := exists_trimEnd_append (trimStart cs)
  have hcs : cs = cs.takeWhile isBlank ++ (trim cs ++ bs) := by
    rw [trim, ← heq, trimStart, List.takeWhile_append_dropWhile]
  rw [hcs, uncut_append, uncut_append, foldl_depthAfter_plain fun c hc =>
    isPlain_of_isBlank (List.all_eq_true.1 List.all_takeWhile c hc)] at h
  simp only [Bool.and_eq_true] at h
  exact h.2.1

theorem uncut_splitTopFrom {sep : Char} {cur cs : List Char} (h : uncut sep 0 cur.reverse) :
    ∀ p ∈ splitTopFrom sep (cur.reverse.foldl depthAfter 0) cur cs, uncut sep 0 p := by
  induction cs generalizing cur with
  | nil => simpa [splitTopFrom] using uncut_trim h
  | cons c cs ih =>
    rw [splitTopFrom]
    split
    · exact List.forall_mem_cons.2 ⟨uncut_trim h, @ih [] rfl⟩
    · next hc =>
      rw [← foldl_depthAfter_reverse_cons]
      refine ih ?_
      rw [List.reverse_cons, uncut_append, h, Bool.true_and, uncut, uncut, Bool.and_true,
        Bool.not_eq_true', ← Bool.not_eq_true]
      exact hc

/-- **The pieces between separators are cut no further.** -/
theorem uncut_splitTop {sep : Char} (cs : List Char) : ∀ p ∈ splitTop sep cs, uncut sep 0 p :=
  @uncut_splitTopFrom sep [] cs rfl

/-- A text that is not cut is its only piece. -/
theorem splitTop_of_uncut {sep : Char} {cs : List Char} (h : uncut sep 0 cs) :
    splitTop sep cs = [trim cs] := by
  have hskip := splitTopFrom_append h [] []
  rw [List.append_nil, List.append_nil] at hskip
  rw [splitTop, hskip, splitTopFrom, List.reverse_reverse]

/-- A blank or nothing. -/
def IsGap (cs : List Char) : Prop :=
  cs = [] ∨ cs = [' ']

theorem IsGap.trim {a b : List Char} (ha : IsGap a) (hb : IsGap b) (t : List Char) :
    trim (a ++ t ++ b) = trim t := by
  rcases ha with rfl | rfl <;> rcases hb with rfl | rfl <;>
    simp only [List.nil_append, List.append_nil, List.singleton_append, trim_cons_blank, trim_append_blank]

theorem splitTopFrom_intercalate {sep : Char} (hsep : sep ≠ ' ') {before cur t : List Char}
    {ts : List (List Char)} (hbefore : IsGap before) (hcur : IsGap cur)
    (h : ∀ u ∈ t :: ts, uncut sep 0 u ∧ balanced u ∧ trim u = u) :
    splitTopFrom sep 0 cur ((before ++ [sep, ' ']).intercalate (t :: ts)) = t :: ts := by
  have hreverse {cs : List Char} (h : IsGap cs) : cs.reverse = cs := by rcases h with rfl | rfl <;> rfl
  induction ts generalizing cur t with
  | nil =>
    obtain ⟨huncut, hbal, htrim⟩ := h t (by simp)
    have hskip := splitTopFrom_append huncut cur []
    rw [List.append_nil, foldl_depthAfter_balanced hbal] at hskip
    rw [List.intercalate_singleton, hskip, splitTopFrom, List.reverse_append, List.reverse_reverse,
      hreverse hcur, ← List.append_nil (cur ++ t), hcur.trim (.inl rfl), htrim]
  | cons u us ih =>
    obtain ⟨huncut, hbal, htrim⟩ := h t (by simp)
    have hgap : uncut sep 0 before ∧ before.foldl depthAfter 0 = 0 := by
      rcases hbefore with rfl | rfl <;> simp [uncut, depthAfter, isOpening, isClosing, hsep.symm]
    rw [List.intercalate_cons_cons, List.append_assoc, List.append_assoc, splitTopFrom_append huncut,
      foldl_depthAfter_balanced hbal, splitTopFrom_append hgap.1, hgap.2]
    have hcut (cur rest : List Char) : splitTopFrom sep 0 cur (sep :: ' ' :: rest) =
        Text.trim cur.reverse :: splitTopFrom sep 0 [' '] rest := by
      simp [splitTopFrom, depthAfter, isOpening, isClosing, hsep.symm]
    rw [List.cons_append, List.singleton_append, hcut, ih (.inr rfl) fun v hv => h v (by simp [hv]),
      List.reverse_append, List.reverse_append, List.reverse_reverse, List.reverse_reverse, hreverse hcur,
      hcur.trim hbefore, htrim]

/-- **Texts that are not cut are cut apart at the separators between them.** -/
theorem splitTop_intercalate {sep : Char} (hsep : sep ≠ ' ') {before : List Char} (hbefore : IsGap before)
    {ts : List (List Char)} (hne : ts ≠ []) (h : ∀ u ∈ ts, uncut sep 0 u ∧ balanced u ∧ trim u = u) :
    splitTop sep ((before ++ [sep, ' ']).intercalate ts) = ts := by
  cases ts with
  | nil => exact absurd rfl hne
  | cons t ts => exact splitTopFrom_intercalate hsep hbefore (.inl rfl) h

/-! ## Signs -/

/-- Whether no sign of a text separates two terms, from a depth on; `seen` is the text before, last
character first. -/
def unsplit : Int → List Char → List Char → Bool
  | _, _, [] => true
  | depth, seen, c :: cs =>
    !(depth == 0 && (c == '+' || c == '-') && afterOperand seen && !afterExponent seen) &&
      unsplit (depthAfter depth c) (c :: seen) cs

theorem unsplit_append {depth : Int} {seen : List Char} (a b : List Char) :
    unsplit depth seen (a ++ b) =
      (unsplit depth seen a && unsplit (a.foldl depthAfter depth) (a.reverse ++ seen) b) := by
  induction a generalizing depth seen with
  | nil => rfl
  | cons c a ih => simp [unsplit, ih, Bool.and_assoc]

/-- What is not split is passed over. -/
theorem splitTermsFrom_append {depth : Int} {seen a : List Char} (h : unsplit depth seen a)
    (cur : List Char) (negated : Bool) (rest : List Char) :
    splitTermsFrom depth seen cur negated (a ++ rest) =
      splitTermsFrom (a.foldl depthAfter depth) (a.reverse ++ seen) (a.reverse ++ cur) negated rest := by
  induction a generalizing depth seen cur with
  | nil => rfl
  | cons c a ih =>
    rw [unsplit, Bool.and_eq_true, Bool.not_eq_true'] at h
    rw [List.cons_append, splitTermsFrom, if_neg (by rw [h.1]; decide), ih h.2]
    simp

/-- A text without signs is not split. -/
theorem unsplit_of_not_mem {cs : List Char} (hplus : '+' ∉ cs) (hminus : '-' ∉ cs) (depth : Int)
    (seen : List Char) : unsplit depth seen cs := by
  induction cs generalizing depth seen with
  | nil => rfl
  | cons c cs ih =>
    rw [List.mem_cons, not_or] at hplus hminus
    simp [unsplit, ih hplus.2 hminus.2, Ne.symm hplus.1, Ne.symm hminus.1]

theorem unsplit_of_balancedFrom {s a : List Char} (h : balancedFrom s a = true) {depth : Int}
    (hdepth : 0 < depth) (seen : List Char) : unsplit (s.length + depth) seen a := by
  induction a generalizing s seen with
  | nil => rfl
  | cons c a ih =>
    obtain ⟨s', h, hstep⟩ := balancedFrom_step h
    have hne : (s.length + depth == (0 : Int)) = false := by
      rw [beq_eq_false_iff_ne]
      omega
    rw [unsplit, hne, hstep]
    exact ih h (c :: seen)

/-- What stands in brackets is not split. -/
theorem unsplit_brackets {o c : Char} (ho : isOpening o) {a : List Char}
    (h : balanced a) (seen : List Char) : unsplit 0 seen (o :: a ++ [c]) := by
  have hopen : depthAfter 0 o = 1 := by simp [depthAfter, ho]
  have hsign : (o == '+' || o == '-') = false := by
    simp only [isOpening, Bool.or_eq_true, beq_iff_eq] at ho
    rcases ho with rfl | rfl <;> rfl
  have hinside : unsplit 1 (o :: seen) a := by
    simpa using unsplit_of_balancedFrom (s := []) h Int.one_pos (o :: seen)
  rw [List.cons_append, unsplit, hsign, hopen, unsplit_append, hinside, foldl_depthAfter_balanced h]
  rfl

end RecurrenceCompiler.RuleText
