import RecurrenceCompiler.RuleText.Split
import RecurrenceCompiler.Proofs.RuleText.Coefficient

/-!
# Brackets that close in order

A balanced text can be skipped wherever it stands (`balancedFrom_append`), so balanced texts can be
joined and cut apart. Where rule text is cut, the pieces of a balanced text are balanced: at
separators and signs outside all brackets (`balanced_splitTop`, `balanced_splitTerms`), at the
parentheses around the whole (`balanced_peel`), and before a call (`balanced_before_call`).
-/

namespace RecurrenceCompiler.RuleText

open Text Decimal Arith

/-- A character that neither opens nor closes. -/
def isPlain (c : Char) : Bool :=
  !isOpening c && !isClosing c

theorem isPlain_of_not_isJoint {c : Char} (h : isJoint c = false) : isPlain c := by
  simp only [isPlain, isOpening, isClosing, Bool.and_eq_true, Bool.not_eq_true', Bool.or_eq_false_iff,
    beq_eq_false_iff_ne]
  refine ⟨⟨?_, ?_⟩, ?_, ?_⟩ <;> rintro rfl <;> cases h

theorem isPlain_of_isBlank {c : Char} (h : isBlank c) : isPlain c := by
  simp only [isPlain, isOpening, isClosing, Bool.and_eq_true, Bool.not_eq_true', Bool.or_eq_false_iff,
    beq_eq_false_iff_ne]
  refine ⟨⟨?_, ?_⟩, ?_, ?_⟩ <;> rintro rfl <;> cases h

theorem isPlain_of_isWord {c : Char} (h : isWord c) : isPlain c :=
  isPlain_of_not_isJoint (isJoint_of_isWord h)

/-! ## Joining -/

section
variable {s : List Char} {c : Char} {cs : List Char}

theorem balancedFrom_opening (h : isOpening c) : balancedFrom s (c :: cs) = balancedFrom (c :: s) cs := by
  rw [balancedFrom.eq_def]
  simp only [h, if_true]

theorem not_isOpening_of_isClosing (h : isClosing c) : isOpening c = false := by
  simp only [isClosing, Bool.or_eq_true, beq_iff_eq] at h
  rcases h with rfl | rfl <;> rfl

theorem balancedFrom_closing (h : isClosing c) : balancedFrom s (c :: cs) = true ↔
    ∃ o s', s = o :: s' ∧ (o = '(' ↔ c = ')') ∧ balancedFrom s' cs = true := by
  rw [balancedFrom.eq_def]
  simp only [not_isOpening_of_isClosing h, h, Bool.false_eq_true, if_false, if_true]
  cases s with
  | nil => simp
  | cons o s =>
    rw [Bool.and_eq_true, beq_iff_eq, Bool.eq_iff_iff, beq_iff_eq, beq_iff_eq]
    simp

@[simp] theorem balancedFrom_plain (h : isPlain c) : balancedFrom s (c :: cs) = balancedFrom s cs := by
  simp only [isPlain, Bool.and_eq_true, Bool.not_eq_true'] at h
  rw [balancedFrom.eq_def]
  simp only [h, Bool.false_eq_true, if_false]

/-- A character opens, closes or does neither. -/
theorem isOpening_or_isClosing_or_isPlain (c : Char) : isOpening c ∨ isClosing c ∨ isPlain c := by
  cases ho : isOpening c <;> cases hc : isClosing c <;> simp [isPlain, ho, hc]

end

/-- **What closes all it was given can be skipped.** -/
theorem balancedFrom_append {a s : List Char} (h : balancedFrom s a = true) (stack b : List Char) :
    balancedFrom (s ++ stack) (a ++ b) = balancedFrom stack b := by
  induction a generalizing s with
  | nil =>
    obtain rfl : s = [] := by simpa [balancedFrom] using h
    rfl
  | cons c a ih =>
    rcases isOpening_or_isClosing_or_isPlain c with hc | hc | hc
    · rw [balancedFrom_opening hc] at h
      rw [List.cons_append, balancedFrom_opening hc]
      exact ih h
    · obtain ⟨o, s', rfl, hmatch, h⟩ := (balancedFrom_closing hc).1 h
      rw [← ih h, Bool.eq_iff_iff, List.cons_append, List.cons_append, balancedFrom_closing hc]
      simp [hmatch]
    · rw [balancedFrom_plain hc] at h
      rw [List.cons_append, balancedFrom_plain hc]
      exact ih h

/-- A balanced text can be skipped. -/
theorem balanced_append {a : List Char} (h : balanced a) (b : List Char) :
    balanced (a ++ b) = balanced b :=
  balancedFrom_append (s := []) h [] b

/-- A run without brackets is balanced. -/
theorem balanced_of_plain {cs : List Char} (h : ∀ c ∈ cs, isPlain c) : balanced cs := by
  induction cs with
  | nil => rfl
  | cons c cs ih =>
    rw [balanced, balancedFrom_plain (h c (by simp))]
    exact ih fun d hd => h d (by simp [hd])

/-- Plain characters around a text do not matter. -/
theorem balanced_between {a cs b : List Char} (ha : ∀ c ∈ a, isPlain c) (hb : ∀ c ∈ b, isPlain c) :
    balanced (a ++ cs ++ b) = balanced cs := by
  rw [List.append_assoc, balanced_append (balanced_of_plain ha)]
  have hb {s : List Char} : balancedFrom s (cs ++ b) = balancedFrom s cs := by
    induction cs generalizing s with
    | nil =>
      induction b with
      | nil => rfl
      | cons c b ih =>
        rw [List.nil_append, balancedFrom_plain (hb c (by simp))]
        exact ih fun d hd => hb d (by simp [hd])
    | cons c cs ih => simp only [List.cons_append, balancedFrom, ih]
  exact hb

/-- A balanced text in parentheses is balanced. -/
theorem balanced_paren {cs : List Char} (h : balanced cs) : balanced ('(' :: cs ++ [')']) := by
  rw [balanced, List.cons_append, balancedFrom_opening rfl]
  exact (balancedFrom_append (s := []) h ['('] [')']).trans rfl

/-- After a balanced text nothing is left to close. -/
theorem not_balanced_closing {a b : List Char} (h : balanced a) : ¬ balanced (a ++ ')' :: b) := by
  rw [balanced_append h]
  simp [balanced, balancedFrom, isOpening, isClosing]

@[simp] theorem balanced_trim (cs : List Char) : balanced (trim cs) = balanced cs := by
  obtain ⟨bs, heq, hbs⟩ := exists_trimEnd_append (trimStart cs)
  have hcs : cs = cs.takeWhile isBlank ++ trim cs ++ bs := by
    rw [List.append_assoc, trim, ← heq, trimStart, List.takeWhile_append_dropWhile]
  conv => rhs; rw [hcs]
  refine (balanced_between (fun c hc => ?_) fun c hc => isPlain_of_isBlank (hbs c hc)).symm
  exact isPlain_of_isBlank (List.all_eq_true.1 List.all_takeWhile c hc)

/-! ## Cutting outside all brackets -/

/-- A balanced text is cut into balanced ones where nothing is open. -/
theorem balanced_of_depth {a b s : List Char} (h : balancedFrom s (a ++ b) = true)
    (hdepth : a.foldl depthAfter s.length = 0) : balancedFrom s a = true ∧ balanced b = true := by
  induction a generalizing s with
  | nil =>
    obtain rfl : s = [] := List.length_eq_zero_iff.1 (by simpa using hdepth)
    exact ⟨rfl, h⟩
  | cons c a ih =>
    rw [List.cons_append] at h
    rw [List.foldl_cons] at hdepth
    rcases isOpening_or_isClosing_or_isPlain c with hc | hc | hc
    · rw [balancedFrom_opening hc] at h ⊢
      exact ih h (by simpa [depthAfter, hc] using hdepth)
    · obtain ⟨o, s', rfl, hmatch, h⟩ := (balancedFrom_closing hc).1 h
      obtain ⟨ha, hb⟩ := ih h (by
        simpa [depthAfter, hc, not_isOpening_of_isClosing hc] using hdepth)
      exact ⟨(balancedFrom_closing hc).2 ⟨o, s', rfl, hmatch, ha⟩, hb⟩
    · have hplain := hc
      simp only [isPlain, Bool.and_eq_true, Bool.not_eq_true'] at hplain
      rw [balancedFrom_plain hc] at h ⊢
      exact ih h (by simpa [depthAfter, hplain] using hdepth)

/-- No front of a balanced text closes more than it opened. -/
theorem depth_nonneg {a b s : List Char} (h : balancedFrom s (a ++ b) = true) :
    0 ≤ a.foldl depthAfter s.length := by
  induction a generalizing s with
  | nil => exact Int.natCast_nonneg _
  | cons c a ih =>
    rw [List.cons_append] at h
    rw [List.foldl_cons]
    rcases isOpening_or_isClosing_or_isPlain c with hc | hc | hc
    · rw [balancedFrom_opening hc] at h
      simpa [depthAfter, hc] using ih h
    · obtain ⟨o, s', rfl, -, h⟩ := (balancedFrom_closing hc).1 h
      simpa [depthAfter, hc, not_isOpening_of_isClosing hc] using ih h
    · have hplain := hc
      simp only [isPlain, Bool.and_eq_true, Bool.not_eq_true'] at hplain
      rw [balancedFrom_plain hc] at h
      simpa [depthAfter, hplain] using ih h

/-- The text read so far keeps its depth. -/
theorem foldl_depthAfter_reverse_cons (c : Char) (cur : List Char) :
    (c :: cur).reverse.foldl depthAfter 0 = depthAfter (cur.reverse.foldl depthAfter 0) c := by
  simp

theorem balanced_splitTopFrom {sep : Char} (hsep : isPlain sep) {cur cs : List Char}
    (h : balanced (cur.reverse ++ cs)) :
    ∀ p ∈ splitTopFrom sep (cur.reverse.foldl depthAfter 0) cur cs, balanced p := by
  induction cs generalizing cur with
  | nil => simpa [splitTopFrom] using h
  | cons c cs ih =>
    rw [splitTopFrom]
    split
    · next hc =>
      obtain ⟨hdepth, rfl⟩ : cur.reverse.foldl depthAfter 0 = 0 ∧ c = sep := by simpa using hc
      obtain ⟨hcur, hcs⟩ := balanced_of_depth (s := []) h hdepth
      rw [balanced, balancedFrom_plain hsep] at hcs
      exact List.forall_mem_cons.2 ⟨by rw [balanced_trim]; exact hcur, @ih [] hcs⟩
    · rw [← foldl_depthAfter_reverse_cons]
      exact ih (by simpa using h)

/-- **The pieces between top-level separators are balanced.** -/
theorem balanced_splitTop {sep : Char} (hsep : isPlain sep) {cs : List Char} (h : balanced cs) :
    ∀ p ∈ splitTop sep cs, balanced p :=
  @balanced_splitTopFrom sep hsep [] cs h

theorem balanced_splitTermsFrom {seen cur cs : List Char} {negated : Bool}
    (h : balanced (cur.reverse ++ cs)) :
    ∀ p ∈ splitTermsFrom (cur.reverse.foldl depthAfter 0) seen cur negated cs, balanced p.text := by
  induction cs generalizing seen cur negated with
  | nil => simpa [splitTermsFrom] using h
  | cons c cs ih =>
    rw [splitTermsFrom]
    split
    · next hc =>
      obtain ⟨⟨⟨hdepth, hsign⟩, -⟩, -⟩ : ((cur.reverse.foldl depthAfter 0 = 0 ∧ (c = '+' ∨ c = '-')) ∧
        afterOperand seen = true) ∧ afterExponent seen = false := by simpa using hc
      obtain ⟨hcur, hcs⟩ := balanced_of_depth (s := []) h hdepth
      rw [balanced, balancedFrom_plain (by rcases hsign with rfl | rfl <;> rfl)] at hcs
      exact List.forall_mem_cons.2 ⟨by rw [balanced_trim]; exact hcur, @ih (c :: seen) [] (c == '-') hcs⟩
    · rw [← foldl_depthAfter_reverse_cons]
      exact ih (by simpa using h)

/-- **The terms of a balanced sum are balanced.** -/
theorem balanced_splitTerms {cs : List Char} (h : balanced cs) :
    ∀ p ∈ splitTerms cs, balanced p.text :=
  @balanced_splitTermsFrom [] [] cs false h

/-! ## Taking off parentheses -/

/-- The depth of parentheses after a character. -/
def parensAfter (depth : Int) (c : Char) : Int :=
  if c == '(' then depth + 1 else if c == ')' then depth - 1 else depth

theorem closesLast_cons {d : Int} {c : Char} {cs : List Char} (hcs : cs ≠ [])
    (h : closesLast d (c :: cs) = true) : parensAfter d c ≠ 0 ∧ closesLast (parensAfter d c) cs = true := by
  have hstep : closesLast d (c :: cs) =
      if parensAfter d c == 0 && !cs.isEmpty then false else closesLast (parensAfter d c) cs := rfl
  rw [hstep] at h
  split at h
  · cases h
  · next hopen => exact ⟨by simpa [hcs] using hopen, h⟩

/-- If the parenthesis at the bottom closes last, what stands before its end closes all above it. -/
theorem balancedFrom_of_closesLast {inner s : List Char}
    (h : balancedFrom (s ++ ['(']) (inner ++ [')']) = true)
    (hclose : closesLast (s.count '(' + 1) (inner ++ [')']) = true) : balancedFrom s inner = true := by
  induction inner generalizing s with
  | nil =>
    obtain ⟨o, s', hs, -, hrest⟩ := (balancedFrom_closing rfl).1 h
    obtain rfl : s' = [] := by simpa [balancedFrom] using hrest
    obtain rfl : s = [] := by simpa using congrArg List.length hs
    rfl
  | cons c inner ih =>
    rw [List.cons_append] at h hclose
    obtain ⟨hopen, hclose⟩ := closesLast_cons (by simp) hclose
    rcases isOpening_or_isClosing_or_isPlain c with hc | hc | hc
    · rw [balancedFrom_opening hc] at h ⊢
      refine ih h ?_
      rcases (by simpa [isOpening] using hc : c = '(' ∨ c = '[') with rfl | rfl <;>
        simpa [parensAfter] using hclose
    · obtain ⟨o, s', hs, hmatch, h⟩ := (balancedFrom_closing hc).1 h
      cases s with
      | nil =>
        -- The parenthesis at the bottom would close here.
        obtain ⟨rfl, rfl⟩ := List.cons.inj hs
        simp [parensAfter, hmatch.1 rfl] at hopen
      | cons p s =>
        obtain ⟨rfl, rfl⟩ := List.cons.inj hs
        refine (balancedFrom_closing hc).2 ⟨p, s, rfl, hmatch, ih h ?_⟩
        rcases (by simpa [isClosing] using hc : c = ')' ∨ c = ']') with rfl | rfl
        · simpa [parensAfter, hmatch.2 rfl] using hclose
        · have hp : p ≠ '(' := fun hp => absurd (hmatch.1 hp) (by decide)
          simpa [parensAfter, hp] using hclose
    · have hplain : c ≠ '(' ∧ c ≠ ')' := by
        constructor <;> rintro rfl <;> cases hc
      rw [balancedFrom_plain hc] at h ⊢
      exact ih h (by simpa [parensAfter, hplain] using hclose)

/-- **A balanced text without the parentheses around it is balanced.** -/
theorem balanced_peel {cs : List Char} (hw : isWrapped cs) (h : balanced cs) : balanced (peel cs) := by
  have hclose : closesLast 0 cs = true := by
    simp only [isWrapped, Bool.and_eq_true] at hw
    exact hw.2
  rw [eq_paren_of_isWrapped hw] at h hclose
  rw [balanced, List.cons_append, balancedFrom_opening rfl] at h
  exact balancedFrom_of_closesLast (s := []) h (closesLast_cons (by simp) hclose).2

theorem balanced_unwrap {cs : List Char} (h : balanced cs) : balanced (unwrap cs) := by
  have hwithin (fuel : Nat) {cs : List Char} (h : balanced cs) : balanced (unwrapWithin fuel cs) := by
    induction fuel generalizing cs with
    | zero => exact h
    | succ fuel ih =>
      rw [unwrapWithin]
      split
      · next hw => exact ih (by rw [balanced_trim]; exact balanced_peel hw h)
      · exact h
  exact hwithin _ (by rwa [balanced_trim])

/-! ## The text before a call -/

/-- A square bracket that closes before all others do stands on nothing. -/
theorem eq_nil_of_square {ps s inside after : List Char} (hps : ∀ p ∈ ps, p = '(')
    (hopen : '[' ∉ inside) (hclose : ']' ∉ inside) (hafter : ∀ c ∈ after, isPlain c)
    (h : balancedFrom (ps ++ '[' :: s) (inside ++ ']' :: after) = true) : s = [] := by
  induction inside generalizing ps with
  | nil =>
    obtain ⟨o, s', hs, hmatch, h⟩ := (balancedFrom_closing rfl).1 h
    cases ps with
    | nil =>
      obtain ⟨rfl, rfl⟩ := List.cons.inj hs
      have hskip := balancedFrom_append (s := []) (balanced_of_plain hafter) s []
      rw [List.append_nil, List.nil_append, h] at hskip
      simpa [balancedFrom] using hskip.symm
    | cons p ps =>
      obtain ⟨rfl, -⟩ := List.cons.inj hs
      exact absurd (hmatch.1 (hps p (by simp))) (by decide)
  | cons c inside ih =>
    rw [List.mem_cons, not_or] at hopen hclose
    rw [List.cons_append] at h
    rcases isOpening_or_isClosing_or_isPlain c with hc | hc | hc
    · rw [balancedFrom_opening hc] at h
      obtain rfl : c = '(' := by simpa [isOpening, Ne.symm hopen.1] using hc
      exact @ih ('(' :: ps) (by simpa using hps) hopen.2 hclose.2 h
    · obtain rfl : c = ')' := by simpa [isClosing, Ne.symm hclose.1] using hc
      obtain ⟨o, s', hs, hmatch, h⟩ := (balancedFrom_closing hc).1 h
      cases ps with
      | nil =>
        obtain ⟨rfl, -⟩ := List.cons.inj hs
        exact absurd (hmatch.2 rfl) (by decide)
      | cons p ps =>
        obtain ⟨-, rfl⟩ := List.cons.inj hs
        exact ih (fun q hq => hps q (by simp [hq])) hopen.2 hclose.2 h
    · rw [balancedFrom_plain hc] at h
      exact ih hps hopen.2 hclose.2 h

/-- **What stands before the only pair of square brackets of a balanced text is balanced**, if nothing
else follows them. -/
theorem balanced_before_call {head inside after : List Char} (hopen : '[' ∉ inside) (hclose : ']' ∉ inside)
    (hafter : ∀ c ∈ after, isPlain c) (h : balanced (head ++ '[' :: (inside ++ ']' :: after))) :
    balanced head := by
  have hfrom {s : List Char} (hs : balancedFrom s (head ++ '[' :: (inside ++ ']' :: after)) = true) :
      balancedFrom s head = true := by
    clear h
    induction head generalizing s with
    | nil =>
      obtain rfl := @eq_nil_of_square [] _ _ _ (by simp) hopen hclose hafter
        ((balancedFrom_opening rfl).symm.trans hs)
      rfl
    | cons c head ih =>
      rw [List.cons_append] at hs
      rcases isOpening_or_isClosing_or_isPlain c with hc | hc | hc
      · rw [balancedFrom_opening hc] at hs ⊢
        exact ih hs
      · obtain ⟨o, s', rfl, hmatch, hs⟩ := (balancedFrom_closing hc).1 hs
        exact (balancedFrom_closing hc).2 ⟨o, s', rfl, hmatch, ih hs⟩
      · rw [balancedFrom_plain hc] at hs ⊢
        exact ih hs
  exact hfrom h

end RecurrenceCompiler.RuleText
