import RecurrenceCompiler.Proofs.RuleText.RoundTrip

/-!
# Number literals as coefficients

The sign in the exponent of a number does not separate terms, but the exponent is known only behind a digit
that no point stands before: a literal that starts with a point and has a sign in its exponent is cut at that
sign (`cutOff?`). Every other literal can be written where a coefficient can be, and is read as the number that
it stands for (`parseBody_literal`).
-/

namespace RecurrenceCompiler.RuleText

open Text Decimal Arith

variable {ctx : Context}

/-! ## Literals -/

/-- A sign. -/
def isSign (c : Char) : Bool :=
  c == '+' || c == '-'

theorem not_isSign_of_isDigit {c : Char} (hc : isDigit c) : isSign c = false := by
  simp only [isSign, Bool.or_eq_false_iff, beq_eq_false_iff_ne]
  constructor <;> rintro rfl <;> cases hc

/-- The part of a literal that is cut off as a term of its own: if the literal starts with a point, what stands
before the sign of the exponent. -/
def cutOff? (cs : List Char) : Option (List Char) :=
  let text := trim cs
  if (text.dropWhile isSign).head? == some '.' && (text.drop 1).any isSign then
    some (text.take 1 ++ (text.drop 1).takeWhile fun c => !isSign c)
  else none

/-- The characters of a literal, and the sign before it. -/
structure IsSigned (sign : List Char) (l : Literal) : Prop where
  sign : sign = [] ∨ sign = ['+'] ∨ sign = ['-']
  wellFormed : l.WellFormed

theorem exists_of_ofChars? {cs : List Char} {α : Type} {f : Literal → α} {x : α}
    (h : (Literal.ofChars? cs).map f = some x) : ∃ l : Literal, l.WellFormed ∧ cs = l.chars := by
  obtain ⟨l, hl, -⟩ := Option.map_eq_some_iff.1 h
  rw [Literal.ofChars?] at hl
  split at hl
  · next hscan =>
    cases hl
    exact ⟨l, wellFormed_of_scan? hscan, by simpa using chars_of_scan? hscan⟩
  · cases hl

/-- A literal has at most one sign before it. -/
theorem exists_of_literal? {cs : List Char} {x : Float} (h : literal? cs = some x) :
    ∃ sign l, IsSigned sign l ∧ trim cs = sign ++ l.chars := by
  unfold literal? signedLiteral? at h
  split at h
  · next r htrim =>
    obtain ⟨l, hl, rfl⟩ := exists_of_ofChars? h
    exact ⟨['-'], l, ⟨.inr (.inr rfl), hl⟩, htrim⟩
  · next r htrim =>
    obtain ⟨l, hl, rfl⟩ := exists_of_ofChars? h
    exact ⟨['+'], l, ⟨.inr (.inl rfl), hl⟩, htrim⟩
  · obtain ⟨l, hl, htrim⟩ := exists_of_ofChars? h
    exact ⟨[], l, ⟨.inl rfl, hl⟩, htrim⟩

/-- A text that is a literal is read as a number in the same way. -/
theorem readNumber?_of_literal? {cs : List Char} {x : Float} (h : literal? cs = some x) :
    readNumber? cs = some x := by
  rw [literal?] at h
  rw [readNumber?]
  split <;> rename_i htrim
  all_goals try rw [htrim] at h
  all_goals try cases h
  have hword (word : String) (hnone : signedLiteral? word.toList = none) :
      (trim cs == word.toList) = false := by
    rw [beq_eq_false_iff_ne]
    intro heq
    rw [heq, hnone] at h
    cases h
  rw [hword "Infinity" rfl, hword "+Infinity" rfl, hword "-Infinity" rfl]
  exact h

section
variable {sign : List Char} {l : Literal} (h : IsSigned sign l)
include h

theorem IsSigned.not_isJoint : ∀ c ∈ sign ++ l.chars, isJoint c = false := by
  refine List.forall_mem_append.2 ⟨?_, h.wellFormed.not_isJoint⟩
  rcases h.sign with rfl | rfl | rfl <;> simp <;> rfl

theorem IsSigned.ne_nil : sign ++ l.chars ≠ [] := by
  obtain ⟨c, cs, hcs, -⟩ := h.wellFormed.head
  simp [hcs]

/-- The sign of a literal is no separator where no operand stands before it. -/
theorem IsSigned.unsplit_sign_append {seen : List Char} (hseen : afterOperand seen = false) (cs : List Char) :
    unsplit 0 seen (sign ++ cs) = unsplit 0 (sign.reverse ++ seen) cs := by
  rcases h.sign with rfl | rfl | rfl
  · rfl
  all_goals
    rw [List.singleton_append, unsplit, hseen]
    rfl

theorem IsSigned.fresh {seen : List Char} (hseen : startsFresh seen) :
    startsFresh (sign.reverse ++ seen) := by
  rcases h.sign with rfl | rfl | rfl
  · exact hseen
  all_goals rfl

/-- What stands behind the sign of a literal. -/
theorem IsSigned.dropWhile_isSign : (sign ++ l.chars).dropWhile isSign = l.chars := by
  obtain ⟨c, cs, hcs, hc⟩ := h.wellFormed.head
  have hfirst : isSign c = false := by
    rcases hc with hc | rfl
    · exact not_isSign_of_isDigit hc
    · rfl
  rw [hcs]
  rcases h.sign with rfl | rfl | rfl
  · exact List.dropWhile_cons_of_neg (by simp [hfirst])
  all_goals
    rw [List.singleton_append, List.dropWhile_cons_of_pos rfl]
    exact List.dropWhile_cons_of_neg (by simp [hfirst])

/-- A literal without digits before its point: the point, digits, and an exponent without a sign or with one. -/
theorem IsSigned.chars_of_point (hwhole : l.whole = []) : ∃ ds rest, l.chars = '.' :: (ds ++ rest) ∧
    ds.all isDigit ∧ ((∀ c ∈ rest, isSign c = false) ∨
      ∃ e s es, (e = 'e' ∨ e = 'E') ∧ isSign s ∧ rest = e :: s :: es) := by
  have hpoint : l.point = true := by
    by_contra hpoint
    have hnone := h.wellFormed.point (by simpa using hpoint)
    exact h.wellFormed.digits.elim (absurd hwhole) (absurd hnone)
  rw [Literal.chars, hwhole, hpoint]
  cases hexponent : l.exponent with
  | none => exact ⟨l.fraction, [], by simp, h.wellFormed.fraction, .inl (by simp)⟩
  | some p =>
    obtain ⟨e, s, es⟩ := p
    obtain ⟨he, hs, -, hes⟩ := h.wellFormed.exponent e s es hexponent
    refine ⟨l.fraction, e :: (s.toList ++ es), by simp, h.wellFormed.fraction, ?_⟩
    cases s with
    | none =>
      refine .inl (List.forall_mem_cons.2 ⟨by rcases he with rfl | rfl <;> rfl, fun c hc => ?_⟩)
      exact not_isSign_of_isDigit (List.all_eq_true.1 hes c hc)
    | some s =>
      refine .inr ⟨e, s, es, he, ?_, rfl⟩
      rcases hs with hs | hs | hs <;> cases hs <;> rfl

/-- The signs of a literal that starts with a point, the first character apart. -/
theorem IsSigned.any_isSign {cs : List Char} (hchars : l.chars = '.' :: cs) :
    ((sign ++ l.chars).drop 1).any isSign = cs.any isSign := by
  rw [hchars]
  rcases h.sign with rfl | rfl | rfl <;> rfl

/-- **A literal stands in one term if nothing is cut off it.** -/
theorem IsSigned.unsplit_chars {cs : List Char} (htrim : trim cs = sign ++ l.chars) (hcut : cutOff? cs = none)
    {seen : List Char} (hfresh : startsFresh seen) (hoperand : afterOperand seen = false) :
    unsplit 0 seen (sign ++ l.chars) := by
  rw [h.unsplit_sign_append hoperand]
  by_cases hwhole : l.whole = []
  · obtain ⟨ds, rest, hchars, -⟩ := h.chars_of_point hwhole
    have hsigns : (ds ++ rest).any isSign = false := by
      rw [cutOff?, htrim, h.dropWhile_isSign, h.any_isSign hchars] at hcut
      by_contra hsigns
      rw [if_pos (by rw [Bool.not_eq_false] at hsigns; rw [hsigns, hchars]; rfl)] at hcut
      cases hcut
    rw [List.any_eq_false] at hsigns
    have hnot : ∀ c ∈ l.chars, isSign c = false := by
      rw [hchars]
      exact List.forall_mem_cons.2 ⟨rfl, fun c hc => by simpa using hsigns c hc⟩
    exact unsplit_of_not_mem (fun hmem => by cases hnot _ hmem) (fun hmem => by cases hnot _ hmem) _ _
  · exact (solid_literal h.wellFormed hwhole).unsplit _ (h.fresh hfresh)

/-- **What is cut off a literal**: its sign, its point and the digits behind, and the letter of the exponent. -/
theorem IsSigned.eq_of_cutOff? {cs m : List Char} (htrim : trim cs = sign ++ l.chars)
    (hcut : cutOff? cs = some m) : ∃ ds e s es, m = sign ++ '.' :: (ds ++ [e]) ∧ ds.all isDigit ∧
      (e = 'e' ∨ e = 'E') ∧ isSign s ∧ sign ++ l.chars = m ++ s :: es := by
  rw [cutOff?, htrim, h.dropWhile_isSign] at hcut
  split at hcut
  · next hcond =>
    rw [Bool.and_eq_true, beq_iff_eq] at hcond
    obtain ⟨hpoint, hsigns⟩ := hcond
    have hwhole : l.whole = [] := by
      cases hw : l.whole with
      | nil => rfl
      | cons d ds =>
        have hd := h.wellFormed.whole
        rw [Literal.chars, hw] at hpoint
        rw [hw, List.all_cons, Option.some.inj hpoint] at hd
        cases hd
    obtain ⟨ds, rest, hchars, hds, hrest⟩ := h.chars_of_point hwhole
    have hdigits : ∀ c ∈ ds, isSign c = false := fun c hc =>
      not_isSign_of_isDigit (List.all_eq_true.1 hds c hc)
    rw [h.any_isSign hchars, List.any_eq_true] at hsigns
    obtain ⟨c, hc, hsign⟩ := hsigns
    rcases hrest with hrest | ⟨e, s, es, he, hs, rfl⟩
    · have hnone := List.forall_mem_append.2 ⟨hdigits, hrest⟩ c hc
      rw [hsign] at hnone
      cases hnone
    · have hletter : isSign e = false := by rcases he with rfl | rfl <;> rfl
      have hall : (ds ++ [e]).all (fun c => !isSign c) := by
        simpa [hletter] using hdigits
      have htake : (ds ++ e :: s :: es).takeWhile (fun c => !isSign c) = ds ++ [e] := by
        have hsplit : ds ++ e :: s :: es = (ds ++ [e]) ++ s :: es := by simp
        rw [hsplit, takeWhile_append_of_all hall, List.takeWhile_cons_of_neg (by simp [hs]), List.append_nil]
      have hm : m = sign ++ '.' :: (ds ++ [e]) := by
        rw [← Option.some.inj hcut, hchars, ← htake]
        rcases h.sign with rfl | rfl | rfl <;> rfl
      exact ⟨ds, e, s, es, hm, hds, he, hs, by rw [hm, hchars]; simp⟩
  · cases hcut

/-- What is cut off a literal stands in one term, and the sign behind it separates. -/
theorem IsSigned.unsplit_cut {ds : List Char} {e : Char} (hds : ds.all isDigit) (he : e = 'e' ∨ e = 'E')
    {seen : List Char} (hfresh : startsFresh seen) (hoperand : afterOperand seen = false) :
    RuleText.unsplit 0 seen (sign ++ '.' :: (ds ++ [e])) ∧
      afterOperand ((sign ++ '.' :: (ds ++ [e])).reverse ++ seen) ∧
      afterExponent ((sign ++ '.' :: (ds ++ [e])).reverse ++ seen) = false := by
  have hnot : ∀ c ∈ '.' :: (ds ++ [e]), isSign c = false := by
    simp only [List.forall_mem_cons, List.forall_mem_append]
    refine ⟨rfl, fun c hc => not_isSign_of_isDigit (List.all_eq_true.1 hds c hc), ?_, by simp⟩
    rcases he with rfl | rfl <;> rfl
  have hreverse : (sign ++ '.' :: (ds ++ [e])).reverse ++ seen =
      e :: (ds.reverse ++ '.' :: (sign.reverse ++ seen)) := by simp
  have hdigits : ds.reverse.all isDigit := by rwa [List.all_reverse]
  refine ⟨?_, ?_, ?_⟩
  · rw [h.unsplit_sign_append hoperand]
    exact unsplit_of_not_mem (fun hmem => by cases hnot _ hmem) (fun hmem => by cases hnot _ hmem) _ _
  · rw [hreverse]
    rcases he with rfl | rfl <;> rfl
  · -- No digit stands before the point.
    have hbefore : (sign.reverse ++ seen).takeWhile isDigit = [] :=
      (span_digits_append (h.fresh hfresh) []).1
    rw [hreverse, afterExponent, dropWhile_append_of_all hdigits, List.dropWhile_cons_of_neg (by decide)]
    simp only [hbefore]
    simp

end

/-! ## Places -/

/-- The text before a term of a sum: nothing, or a text that ends with a call and a sign, outside all brackets.
The flag says that the term is subtracted. -/
inductive Opens : List Char → Bool → Prop
  | first : Opens [] false
  | behind {before : List Char} {sign : Char} (hbalanced : balanced before)
      (hcall : (trimEnd before).getLast? = some ']') (hsign : sign = '+' ∨ sign = '-') :
      Opens (before ++ [sign]) (sign == '-')

/-- A place for a coefficient: before it a term starts, and behind it a star and a call stand. -/
structure CoefficientPlace (front : List Char) (negated : Bool) (back : List Char) : Prop where
  opens : ∃ before gap, front = before ++ gap ∧ Opens before negated ∧ Blanks gap
  calls : ∃ gap gap' name gap'' rest, back = gap ++ '*' :: (gap' ++ (name ++ (gap'' ++ '[' :: rest))) ∧
    Blanks gap ∧ Blanks gap' ∧ isName name ∧ Blanks gap''

section
variable {before : List Char} {negated : Bool}

/-- What stands behind the start of a term collapses by itself. -/
theorem Opens.collapseBlanks_append (h : Opens before negated) (rest : List Char) :
    collapseBlanks (before ++ rest) = collapseBlanks before ++ collapseBlanks rest := by
  cases h with
  | first => rfl
  | @behind before sign _ _ hsign =>
    have hblank : isBlank sign = false := by rcases hsign with rfl | rfl <;> rfl
    rw [collapseBlanks_concat hblank, List.append_assoc, List.append_assoc, List.singleton_append,
      List.singleton_append, collapseBlanks_append_cons hblank]

/-- Where a term starts no operand stands. -/
theorem Opens.fresh (h : Opens before negated) : afterOperand (collapseBlanks before).reverse = false ∧
    startsFresh (collapseBlanks before).reverse := by
  cases h with
  | first => exact ⟨rfl, rfl⟩
  | @behind before sign _ _ hsign =>
    have hblank : isBlank sign = false := by rcases hsign with rfl | rfl <;> rfl
    rw [collapseBlanks_concat hblank, List.reverse_append]
    rcases hsign with rfl | rfl <;> exact ⟨rfl, rfl⟩

/-- **The text before a term is cut off.** -/
theorem Opens.exists_splitTerms (h : Opens before negated) : ∃ ps, ∀ rest,
    splitTerms (collapseBlanks before ++ rest) =
      ps ++ splitTermsFrom 0 (collapseBlanks before).reverse [] negated rest := by
  cases h with
  | first => exact ⟨[], fun rest => rfl⟩
  | @behind before sign hbalanced hcall hsign =>
    have hblank : isBlank sign = false := by rcases hsign with rfl | rfl <;> rfl
    have hdepth : (collapseBlanks before).foldl depthAfter 0 = 0 :=
      foldl_depthAfter_balanced (by rwa [balanced_collapseBlanks]) 0
    -- The call is an operand, and no number.
    obtain ⟨cs, gap, hgap, hreverse⟩ : ∃ cs gap, Blanks gap ∧
        (collapseBlanks before).reverse = gap ++ ']' :: cs := by
      obtain ⟨gap, hbefore, hgap⟩ := exists_trimEnd_append before
      obtain ⟨init, hinit⟩ := List.getLast?_eq_some_iff.1 hcall
      refine ⟨(collapseBlanks init).reverse, (collapseBlanks gap).reverse,
        (Blanks.collapseBlanks hgap).reverse, ?_⟩
      rw [hbefore, hinit, List.append_assoc, List.singleton_append, collapseBlanks_append_cons rfl]
      simp
    have hoperand : afterOperand (collapseBlanks before).reverse = true := by
      rw [hreverse, afterOperand_blanks_append hgap]
      rfl
    have hexponent : afterExponent (collapseBlanks before).reverse = false := by
      rw [hreverse, afterExponent_append rfl, ← List.nil_append gap, afterExponent_append hgap.startsFresh]
      rfl
    obtain ⟨ps, cur, negated, hps⟩ := exists_splitTermsFrom_append 0 [] [] false (collapseBlanks before)
    refine ⟨ps ++ [⟨trim cur.reverse, negated⟩], fun rest => ?_⟩
    have hseparates : ((0 : Int) == 0 && (sign == '+' || sign == '-') &&
        afterOperand (collapseBlanks before).reverse && !afterExponent (collapseBlanks before).reverse) =
          true := by
      rw [hoperand, hexponent]
      rcases hsign with rfl | rfl <;> rfl
    rw [collapseBlanks_concat hblank, List.append_assoc, splitTerms, hps, hdepth, List.append_nil, List.append_assoc,
      List.cons_append, splitTermsFrom, if_pos hseparates, List.reverse_append]
    simp

end

/-! ## Terms -/

/-- A name is found before blanks. -/
theorem endingName?_append_blanks {gap : List Char} (h : Blanks gap) (cs : List Char) :
    endingName? (cs ++ gap) = endingName? cs := by
  rw [endingName?, endingName?, List.reverse_append, List.dropWhile_append_of_pos h.reverse]

/-- A literal is read as a coefficient of one factor. -/
theorem parseCoeff_literal {cs : List Char} {x : Float} (hx : literal? cs = some x)
    (hne : cs ≠ []) (htrim : trim cs = cs) (hjoint : ∀ c ∈ cs, isJoint c = false) :
    parseCoeff ctx cs = .ok (.number x) := by
  obtain ⟨fuel, hfuel⟩ : ∃ fuel, 3 * cs.length + 4 = fuel + 3 := ⟨3 * cs.length + 1, rfl⟩
  have hfactor : factorWithin ctx (fuel + 1) cs = .ok (.number x) := by
    unfold factorWithin
    simp only [hx]
  have huncut : uncut '*' 0 cs := uncut_of_not_mem (fun hmem => by cases hjoint _ hmem) 0
  rw [parseCoeff, hfuel]
  exact coeffWithin_factor hne htrim huncut hfactor

/-- A literal with a star behind it is the coefficient before a call. -/
theorem parseFront_literal {cs gap gap' : List Char} {x : Float} (hx : literal? cs = some x)
    (hne : cs ≠ []) (hjoint : ∀ c ∈ cs, isJoint c = false) (hgap : Blanks gap) (hgap' : Blanks gap')
    (text : List Char) : parseFront ctx text (cs ++ (gap ++ '*' :: gap')) = .ok (.number x) := by
  obtain ⟨hhead, hlast⟩ := ends_of_not_isJoint hjoint
  have htrim : trim (cs ++ (gap ++ '*' :: gap')) = (cs ++ gap) ++ ['*'] := by
    have hsplit : cs ++ (gap ++ '*' :: gap') = ((cs ++ gap) ++ ['*']) ++ gap' := by simp
    rw [hsplit, trim_append_blanks hgap']
    refine trim_eq_self ?_ (by rw [List.getLast?_concat]; rintro d ⟨⟩; rfl)
    rw [List.append_assoc, List.head?_append_of_ne_nil _ hne]
    exact hhead
  have hcoeff : trim (cs ++ gap) = cs := by
    rw [trim_append_blanks hgap, trim_eq_self hhead hlast]
  rw [parseFront, htrim]
  split
  · next hnil => simp at hnil
  · next hminus => simp [List.append_eq_singleton_iff] at hminus
  · rw [List.getLast?_concat, List.dropLast_concat, hcoeff, if_neg (by simp)]
    simp only [List.isEmpty_iff, hne, if_false]
    exact parseCoeff_literal hx hne (trim_eq_self hhead hlast) hjoint

/-- The text behind an opening bracket ends a call. -/
def ClosesCall (ctx : Context) (name inside : List Char) (c : Call) : Prop :=
  ∃ shifts after, '[' ∉ inside ∧ cutAt? [']'] inside = some (shifts, after) ∧ trim after = [] ∧
    parseCall ctx name shifts = .ok c

/-- A term is read if what stands behind the bracket ends a call and what stands before it is a coefficient. -/
theorem parseTerm_open {head front name inside : List Char} (hhead : '[' ∉ head)
    (hname : endingName? head = some (front, name)) {negated : Bool} {t : Term Expr} :
    parseTerm ctx ⟨head ++ '[' :: inside, negated⟩ = .ok t ↔ ∃ c coeff, ClosesCall ctx name inside c ∧
      parseFront ctx (head ++ '[' :: inside) front = .ok coeff ∧
        t = ⟨if negated then negate coeff else coeff, .call c⟩ := by
  rw [parseTerm, cutAt?_char hhead]
  dsimp only
  constructor
  · intro h
    split at h
    · cases h
    · next hinside =>
      split at h
      · cases h
      · next shifts after hclose =>
        split at h
        · cases h
        · next hafter =>
          rw [hname] at h
          obtain ⟨c, hc, h⟩ := bind_ok h
          obtain ⟨coeff, hcoeff, h⟩ := bind_ok h
          cases h
          exact ⟨c, coeff, ⟨shifts, after, by simpa using hinside, hclose, by simpa using hafter, hc⟩, hcoeff,
            rfl⟩
  · rintro ⟨c, coeff, ⟨shifts, after, hinside, hclose, hafter, hc⟩, hcoeff, rfl⟩
    rw [if_neg (by simpa using hinside), hclose]
    dsimp only
    rw [if_neg (by simp [hafter]), hname]
    dsimp only
    rw [hc, hcoeff]
    rfl

/-- **A literal before a call is its coefficient.** -/
theorem parseTerm_literal {cs gap gap₁ name gap₂ inside : List Char} {x : Float} (hx : literal? cs = some x)
    (hne : cs ≠ []) (hjoint : ∀ c ∈ cs, isJoint c = false) (hgap : Blanks gap) (hgap₁ : Blanks gap₁)
    (hname : isName name) (hgap₂ : Blanks gap₂) {negated : Bool} {t : Term Expr} :
    parseTerm ctx ⟨cs ++ (gap ++ '*' :: (gap₁ ++ (name ++ gap₂))) ++ '[' :: inside, negated⟩ = .ok t ↔
      ∃ c, ClosesCall ctx name inside c ∧ t = ⟨.number (if negated then -x else x), .call c⟩ := by
  have hhead : '[' ∉ cs ++ (gap ++ '*' :: (gap₁ ++ (name ++ gap₂))) := by
    have hcs : '[' ∉ cs := fun hmem => by cases hjoint _ hmem
    simp [hcs, hgap.not_mem, hgap₁.not_mem, (solid_name hname).square, hgap₂.not_mem, show isBlank '[' = false from rfl]
  have hending : endingName? (cs ++ (gap ++ '*' :: (gap₁ ++ (name ++ gap₂)))) =
      some (cs ++ (gap ++ '*' :: gap₁), name) := by
    have hsplit : cs ++ (gap ++ '*' :: (gap₁ ++ (name ++ gap₂))) =
        (cs ++ (gap ++ '*' :: gap₁)) ++ name ++ gap₂ := by simp
    rw [hsplit, endingName?_append_blanks hgap₂]
    refine endingName?_append hname fun c hc => ?_
    -- The last character before the name is the star or a blank.
    rw [← List.append_assoc, List.getLast?_append_of_ne_nil _ (by simp)] at hc
    rcases List.mem_cons.1 (List.mem_of_mem_getLast? hc) with rfl | hc
    · rfl
    · exact isWord_of_isJoint (isJoint_of_isBlank (hgap₁ c hc))
  have hfront := @parseFront_literal ctx cs gap gap₁ x hx hne hjoint hgap hgap₁
  rw [parseTerm_open hhead hending]
  simp only [hfront]
  constructor
  · rintro ⟨c, coeff, hc, hcoeff, rfl⟩
    cases hcoeff
    refine ⟨c, hc, ?_⟩
    cases negated <;> rfl
  · rintro ⟨c, hc, rfl⟩
    refine ⟨c, _, hc, rfl, ?_⟩
    cases negated <;> rfl

/-- The terms of pieces, one after the other. -/
theorem parseTerms_append {body : List Char} {ps qs : List RuleText.Piece} {ts : List (Term Expr)}
    (h : parseTerms ctx body (ps ++ qs) = .ok ts) : ∃ as bs, ts = as ++ bs ∧
      parseTerms ctx body qs = .ok bs ∧ ∀ body' rs, parseTerms ctx body' (ps ++ rs) =
        (parseTerms ctx body' rs).map (as ++ ·) := by
  induction ps generalizing ts with
  | nil =>
    refine ⟨[], ts, rfl, h, fun body' rs => ?_⟩
    cases hrs : parseTerms ctx body' rs <;> rw [List.nil_append, hrs] <;> rfl
  | cons p ps ih =>
    rw [List.cons_append, parseTerms] at h
    split at h
    · cases h
    · next hp =>
      obtain ⟨t, ht, h⟩ := bind_ok h
      obtain ⟨us, hus, h⟩ := bind_ok h
      cases h
      obtain ⟨as, bs, rfl, hbs, hall⟩ := ih hus
      refine ⟨t :: as, bs, rfl, hbs, fun body' rs => ?_⟩
      rw [List.cons_append, parseTerms, if_neg hp, ht, hall]
      cases parseTerms ctx body' rs <;> rfl

/-! ## Sums -/

/-- A word that stands in one term where a term starts. -/
structure StartsTerm (cs : List Char) : Prop where
  ne_nil : cs ≠ []
  not_isJoint : ∀ c ∈ cs, isJoint c = false
  unsplit : ∀ seen, startsFresh seen → afterOperand seen = false → unsplit 0 seen cs

theorem StartsTerm.plain {cs : List Char} (h : StartsTerm cs) : ∀ c ∈ cs, isPlain c :=
  fun c hc => isPlain_of_not_isJoint (h.not_isJoint c hc)

/-- A literal starts a term if nothing is cut off it. -/
theorem IsSigned.startsTerm {sign : List Char} {l : Literal} (h : IsSigned sign l) {cs : List Char}
    (htrim : trim cs = sign ++ l.chars) (hcut : cutOff? cs = none) : StartsTerm (trim cs) := by
  rw [htrim]
  exact ⟨h.ne_nil, h.not_isJoint, fun _ => h.unsplit_chars htrim hcut⟩

/-- The blanks around a coefficient collapse by themselves, those of its text included. -/
theorem collapseBlanks_placed {before gap gap' gap₁ name gap₂ text : List Char} {negated : Bool}
    (hopens : Opens before negated) (hgap : Blanks gap) (hgap' : Blanks gap') (hname : isName name)
    (hne : trim text ≠ []) (hjoint : ∀ c ∈ trim text, isJoint c = false) (rest : List Char) :
    ∃ gapBefore gapBehind, Blanks gapBefore ∧ Blanks gapBehind ∧
      collapseBlanks (before ++ gap ++ text ++ (gap' ++ '*' :: (gap₁ ++ (name ++ (gap₂ ++ '[' :: rest))))) =
        collapseBlanks before ++ (gapBefore ++ (trim text ++ (gapBehind ++ '*' ::
          (collapseBlanks gap₁ ++ (name ++ (collapseBlanks gap₂ ++ '[' :: collapseBlanks rest)))))) := by
  have hvisible {word : List Char} (hword : ∀ c ∈ word, isJoint c = false) : ∀ c ∈ word, isBlank c = false :=
    fun c hc => isBlank_of_not_isJoint (hword c hc)
  have hwords := fun c hc => isJoint_of_isWord (isWord_of_isName hname c hc)
  obtain ⟨lead, trail, hlead, htrail, htext⟩ := exists_trim text
  refine ⟨_, _, (hgap.append hlead).collapseBlanks, (htrail.append hgap').collapseBlanks, ?_⟩
  have hsplit : before ++ gap ++ text ++ (gap' ++ '*' :: (gap₁ ++ (name ++ (gap₂ ++ '[' :: rest)))) =
      before ++ ((gap ++ lead) ++ (trim text ++ ((trail ++ gap') ++ '*' ::
        (gap₁ ++ (name ++ (gap₂ ++ '[' :: rest)))))) := by
    conv => lhs; rw [htext]
    simp
  rw [hsplit, hopens.collapseBlanks_append, collapseBlanks_append_visible hne (hvisible hjoint),
    collapseBlanks_append_cons rfl, collapseBlanks_append_visible (solid_name hname).ne_nil (hvisible hwords),
    collapseBlanks_append_cons rfl]

section
variable {seen gap : List Char} (hfresh : startsFresh seen) (hoperand : afterOperand seen = false)
  (hgap : Blanks gap)
include hfresh hoperand hgap

/-- Blanks do not end the start of a term. -/
theorem fresh_append_blanks :
    startsFresh (gap.reverse ++ seen) ∧ afterOperand (gap.reverse ++ seen) = false :=
  ⟨(startsFresh_append hfresh _).trans hgap.reverse.startsFresh,
    (afterOperand_blanks_append hgap.reverse _).trans hoperand⟩

theorem StartsTerm.unsplit_blanks_append {cs : List Char} (h : StartsTerm cs) :
    RuleText.unsplit 0 seen (gap ++ cs) := by
  obtain ⟨hfresh, hoperand⟩ := fresh_append_blanks hfresh hoperand hgap
  rw [RuleText.unsplit_append, hgap.unsplit, foldl_depthAfter_plain hgap.plain, Bool.true_and]
  exact h.unsplit _ hfresh hoperand

/-- **What is cut off a literal is a term of its own.** -/
theorem IsSigned.splitTermsFrom_cut {sign : List Char} {l : Literal} (h : IsSigned sign l) {cs m : List Char}
    (htrim : trim cs = sign ++ l.chars) (hcut : cutOff? cs = some m) (negated : Bool) (rest : List Char) :
    ∃ qs, splitTermsFrom 0 seen [] negated (gap ++ (sign ++ l.chars ++ rest)) = ⟨m, negated⟩ :: qs := by
  obtain ⟨ds, e, s, es, rfl, hds, he, hs, hchars⟩ := h.eq_of_cutOff? htrim hcut
  obtain ⟨hfresh, hoperand⟩ := fresh_append_blanks hfresh hoperand hgap
  obtain ⟨hunsplit, hafter, hexponent⟩ := h.unsplit_cut hds he hfresh hoperand
  generalize hm : sign ++ '.' :: (ds ++ [e]) = m at *
  have hjoint : ∀ c ∈ m, isJoint c = false := fun c hc =>
    h.not_isJoint c (by rw [hchars]; exact List.mem_append_left _ hc)
  obtain ⟨hhead, hlast⟩ := ends_of_not_isJoint hjoint
  have hplain : ∀ c ∈ gap ++ m, isPlain c := List.forall_mem_append.2
    ⟨hgap.plain, fun c hc => isPlain_of_not_isJoint (hjoint c hc)⟩
  have hskip : RuleText.unsplit 0 seen (gap ++ m) := by
    rw [RuleText.unsplit_append, hgap.unsplit, foldl_depthAfter_plain hgap.plain, hunsplit]
    rfl
  have hseparates : ((0 : Int) == 0 && (s == '+' || s == '-') && afterOperand ((gap ++ m).reverse ++ seen) &&
      !afterExponent ((gap ++ m).reverse ++ seen)) = true := by
    rw [List.reverse_append, List.append_assoc, hafter, hexponent]
    simpa [isSign] using hs
  have hsplit : gap ++ (sign ++ l.chars ++ rest) = (gap ++ m) ++ s :: (es ++ rest) := by
    rw [hchars]
    simp
  rw [hsplit, splitTermsFrom_append hskip, foldl_depthAfter_plain hplain, splitTermsFrom, if_pos hseparates,
    List.append_nil, List.reverse_reverse, trim_blanks_append hgap, trim_eq_self hhead hlast]
  exact ⟨_, rfl⟩

end

/-- **A coefficient starts a term, and what stands behind the star does not depend on it.** -/
theorem exists_splitTermsFrom_placed (negated : Bool) {gap₁ name gap₂ : List Char} (hgap₁ : Blanks gap₁)
    (hname : isName name) (hgap₂ : Blanks gap₂) (rest : List Char) : ∃ inside qs,
    ∀ {seen gap cs gap'}, startsFresh seen → afterOperand seen = false → Blanks gap → StartsTerm cs →
      Blanks gap' →
        splitTermsFrom 0 seen [] negated (gap ++ (cs ++ (gap' ++ '*' :: (gap₁ ++ (name ++ (gap₂ ++ '[' :: rest)))))) =
          ⟨cs ++ (gap' ++ '*' :: (gap₁ ++ (name ++ gap₂))) ++ '[' :: inside, negated⟩ :: qs := by
  have hwords := isWord_of_isName hname
  obtain ⟨text, qs, h⟩ :=
    exists_splitTermsFrom_star 1 (gap₁ ++ (name ++ (gap₂ ++ ['[']))).reverse negated rest
  refine ⟨trimEnd text, qs, fun {seen gap cs gap'} hfresh hoperand hgap hcs hgap' => ?_⟩
  obtain ⟨c, cs, rfl⟩ := List.exists_cons_of_ne_nil hcs.ne_nil
  have hblank : isBlank c = false := isBlank_of_not_isJoint (hcs.not_isJoint c (by simp))
  -- The text up to the bracket has no sign but those of the coefficient.
  have hcall : ∀ d ∈ gap' ++ '*' :: (gap₁ ++ (name ++ gap₂)), isPlain d ∧ d ≠ '+' ∧ d ≠ '-' := by
    have hplain {d : Char} (hd : isBlank d ∨ isWord d ∨ d = '*') : isPlain d ∧ d ≠ '+' ∧ d ≠ '-' := by
      rcases hd with hd | hd | rfl
      · refine ⟨isPlain_of_isBlank hd, ?_, ?_⟩ <;> rintro rfl <;> cases hd
      · refine ⟨isPlain_of_isWord hd, ?_, ?_⟩ <;> rintro rfl <;> cases hd
      · exact ⟨rfl, by decide, by decide⟩
    simp only [List.forall_mem_append, List.forall_mem_cons]
    exact ⟨fun d hd => hplain (.inl (hgap' d hd)), hplain (.inr (.inr rfl)),
      fun d hd => hplain (.inl (hgap₁ d hd)), fun d hd => hplain (.inr (.inl (hwords d hd))),
      fun d hd => hplain (.inl (hgap₂ d hd))⟩
  generalize hhead : gap ++ (c :: cs ++ (gap' ++ '*' :: (gap₁ ++ (name ++ gap₂)))) = head
  have hplain : ∀ d ∈ head, isPlain d := by
    rw [← hhead]
    exact List.forall_mem_append.2 ⟨hgap.plain, List.forall_mem_append.2 ⟨hcs.plain, fun d hd => (hcall d hd).1⟩⟩
  have hunsplit : unsplit 0 seen head := by
    rw [← hhead, ← List.append_assoc, unsplit_append, hcs.unsplit_blanks_append hfresh hoperand hgap, Bool.true_and]
    exact unsplit_of_not_mem (fun hmem => (hcall _ hmem).2.1 rfl) (fun hmem => (hcall _ hmem).2.2 rfl) _ _
  have htext : gap ++ (c :: cs ++ (gap' ++ '*' :: (gap₁ ++ (name ++ (gap₂ ++ '[' :: rest))))) =
      head ++ '[' :: rest := by
    rw [← hhead]
    simp
  have hseen : '[' :: (head.reverse ++ seen) = (gap₁ ++ (name ++ (gap₂ ++ ['[']))).reverse ++
      '*' :: (gap'.reverse ++ ((c :: cs).reverse ++ (gap.reverse ++ seen))) := by
    rw [← hhead]
    simp
  have htrim : trim (('[' :: (head.reverse ++ [])).reverse ++ text) =
      c :: cs ++ (gap' ++ '*' :: (gap₁ ++ (name ++ gap₂))) ++ '[' :: trimEnd text := by
    have hsplit : ('[' :: (head.reverse ++ [])).reverse ++ text =
        gap ++ c :: ((cs ++ (gap' ++ '*' :: (gap₁ ++ (name ++ gap₂)))) ++ '[' :: text) := by
      rw [← hhead]
      simp
    rw [hsplit, trim_blanks_append hgap, trim_between hblank rfl]
    simp
  rw [htext, splitTermsFrom_append hunsplit, foldl_depthAfter_plain hplain, splitTermsFrom, if_neg (by simp),
    hseen]
  exact (h _ _).trans (by rw [htrim])

/-- Terms that are read do not depend on the text that they were cut from. -/
theorem parseTerms_congr {body : List Char} {ps : List RuleText.Piece} {ts : List (Term Expr)}
    (h : parseTerms ctx body ps = .ok ts) (body' : List Char) : parseTerms ctx body' ps = .ok ts := by
  rw [← List.append_nil ps] at h ⊢
  obtain ⟨as, bs, rfl, hbs, hall⟩ := parseTerms_append h
  cases hbs
  exact hall body' []

/-- What is cut off a literal is no term. -/
theorem IsSigned.parseTerms_cut {sign : List Char} {l : Literal} (h : IsSigned sign l) {cs m : List Char}
    (htrim : trim cs = sign ++ l.chars) (hcut : cutOff? cs = some m) (negated : Bool) (body : List Char)
    (ps : List RuleText.Piece) :
    parseTerms ctx body (⟨m, negated⟩ :: ps) = .error (ctx.fault .noCall m) := by
  obtain ⟨ds, e, s, es, hm, -, -, -, hchars⟩ := h.eq_of_cutOff? htrim hcut
  have hopen : '[' ∉ m := fun hmem => by
    cases h.not_isJoint '[' (by rw [hchars]; exact List.mem_append_left _ hmem)
  have hnone : cutAt? ['['] m = none :=
    (cutAt?_eq_none (by simp)).2 (by rwa [List.singleton_infix_iff])
  have hne : m.isEmpty = false := by simp [hm]
  rw [parseTerms]
  simp only [hne, parseTerm, hnone]
  rfl

/-- A text with brackets that close in order is read term by term. -/
theorem parseBody_of_balanced {cs : List Char} (hne : trim (collapseBlanks cs) ≠ []) (hbal : balanced cs) :
    parseBody ctx (String.ofList cs) =
      (parseTerms ctx (trim (collapseBlanks cs)) (splitTerms (collapseBlanks cs))).map .sum := by
  rw [parseBody, String.toList_ofList, parseSum]
  simp only [List.isEmpty_iff, hne, if_false, balanced_trim, balanced_collapseBlanks, hbal, splitTerms_trim,
    Bool.not_true, Bool.false_eq_true]

/-- A literal has no brackets. -/
theorem balanced_append_literal {text : List Char} {x : Float} (hx : literal? text = some x)
    (front back : List Char) : balanced (front ++ text ++ back) = balanced (front ++ back) := by
  obtain ⟨sign, l, h, htrim⟩ := exists_of_literal? hx
  have hplain := plain_of_trim fun c hc => isPlain_of_not_isJoint (h.not_isJoint c (htrim ▸ hc))
  rw [List.append_assoc, balanced_append_plain hplain]

/-- What a text is cut into that has a literal in the place of a coefficient: the pieces around the literal are
those around every literal, and its own is a term with the literal as its coefficient or what is cut off. -/
structure IsPlaced (ps qs : List RuleText.Piece) (name inside : List Char) (negated : Bool) (cs text : List Char)
    (x : Float) : Prop where
  visible : trim cs ≠ []
  intact : cutOff? text = none → ∃ piece, splitTerms cs = ps ++ ⟨piece, negated⟩ :: qs ∧ piece ≠ [] ∧
    ∀ (ctx : Context) (t : Term Expr), parseTerm ctx ⟨piece, negated⟩ = .ok t ↔
      ∃ c, ClosesCall ctx name inside c ∧ t = ⟨.number (if negated then -x else x), .call c⟩
  cut : ∀ m, cutOff? text = some m → ∃ qs', splitTerms cs = ps ++ ⟨m, negated⟩ :: qs'

/-- **What stands around a coefficient is cut in the same way whatever literal it is.** -/
theorem CoefficientPlace.exists_pieces {front back : List Char} {negated : Bool}
    (h : CoefficientPlace front negated back) : ∃ ps qs name inside, ∀ {text x}, literal? text = some x →
      IsPlaced ps qs name inside negated (collapseBlanks (front ++ text ++ back)) text x := by
  obtain ⟨before, gap, rfl, hopens, hgap⟩ := h.opens
  obtain ⟨gap', gap₁, name, gap₂, rest, rfl, hgap', hgap₁, hname, hgap₂⟩ := h.calls
  obtain ⟨ps, hps⟩ := hopens.exists_splitTerms
  obtain ⟨hoperand, hfresh⟩ := hopens.fresh
  obtain ⟨inside, qs, hqs⟩ := exists_splitTermsFrom_placed negated hgap₁.collapseBlanks hname
    hgap₂.collapseBlanks (collapseBlanks rest)
  refine ⟨ps, qs, name, inside, fun {text x} hx => ?_⟩
  obtain ⟨sign, l, hsigned, htrim⟩ := exists_of_literal? hx
  have hne : trim text ≠ [] := by
    rw [htrim]
    exact hsigned.ne_nil
  have hjoint : ∀ c ∈ trim text, isJoint c = false := by
    rw [htrim]
    exact hsigned.not_isJoint
  have hliteral : literal? (trim text) = some x := by rwa [literal?, trim_trim]
  obtain ⟨gapBefore, gapBehind, hbefore, hbehind, hcollapse⟩ :=
    @collapseBlanks_placed before gap gap' gap₁ name gap₂ text negated hopens hgap hgap' hname hne hjoint rest
  rw [hcollapse]
  constructor
  case visible => exact trim_ne_nil_of_mem (c := '*') (by simp) rfl
  case intact =>
    intro hcut
    refine ⟨_, by rw [hps, hqs hfresh hoperand hbefore (hsigned.startsTerm htrim hcut) hbehind], by simp, ?_⟩
    intro ctx t
    exact parseTerm_literal hliteral hne hjoint hbehind hgap₁.collapseBlanks hname hgap₂.collapseBlanks
  case cut =>
    intro m hcut
    obtain ⟨qs', hqs'⟩ := hsigned.splitTermsFrom_cut hfresh hoperand hbefore htrim hcut negated (gapBehind ++
      '*' :: (collapseBlanks gap₁ ++ (name ++ (collapseBlanks gap₂ ++ '[' :: collapseBlanks rest))))
    exact ⟨qs', by rw [hps, htrim, hqs']⟩

/-- **Number literals as coefficients.** Where one is a coefficient, each literal is a coefficient that stands
for its number, and the rest of the sum stays as it is; but a literal that starts with a point and has a sign in
its exponent is cut there, and its first part is no term. -/
theorem parseBody_literal {front back : List Char} {negated : Bool} (hplace : CoefficientPlace front negated back)
    {e : Expr} (hone : parseBody ctx (String.ofList (front ++ '1' :: back)) = .ok e) : ∃ ts c us,
      e = .sum (ts ++ ⟨.number (if negated then -1.0 else 1.0), .call c⟩ :: us) ∧
        ∀ text, isNumberLiteral text → ∃ x, readNumber? text = some x ∧
          (cutOff? text = none → parseBody ctx (String.ofList (front ++ text ++ back)) =
            .ok (.sum (ts ++ ⟨.number (if negated then -x else x), .call c⟩ :: us))) ∧
          ∀ m, cutOff? text = some m → parseBody ctx (String.ofList (front ++ text ++ back)) =
            .error (ctx.fault .noCall m) := by
  have hunit : literal? ['1'] = some 1.0 := by decide +kernel
  obtain ⟨ps, qs, name, inside, hplaced⟩ := hplace.exists_pieces
  -- The terms of the text with the coefficient one.
  obtain ⟨terms, body, rfl, rfl, hbal, hts⟩ := parseBody_eq_ok hone
  have hsplit : front ++ '1' :: back = front ++ ['1'] ++ back := by simp
  obtain ⟨piece, hpieces, hne, hterm⟩ := (hplaced hunit).intact (by decide)
  rw [String.toList_ofList, hsplit, balanced_trim, balanced_collapseBlanks, balanced_append_literal hunit] at hbal
  rw [String.toList_ofList, hsplit, splitTerms_trim, hpieces] at hts
  obtain ⟨ts, bs, rfl, hbs, hall⟩ := parseTerms_append hts
  rw [parseTerms, if_neg (by simpa using hne)] at hbs
  obtain ⟨t, ht, hbs⟩ := bind_ok hbs
  obtain ⟨us, hus, hbs⟩ := bind_ok hbs
  cases hbs
  obtain ⟨c, hc, rfl⟩ := (hterm ctx t).1 ht
  refine ⟨ts, c, us, rfl, fun text htext => ?_⟩
  -- The same terms around another literal.
  obtain ⟨x, hx⟩ : ∃ x, literal? text = some x := Option.isSome_iff_exists.1 htext
  have hread := @parseBody_of_balanced ctx _ (hplaced hx).visible (by rwa [balanced_append_literal hx])
  refine ⟨x, readNumber?_of_literal? hx, fun hcut => ?_, fun m hcut => ?_⟩
  · obtain ⟨piece, hpieces, hne, hterm⟩ := (hplaced hx).intact hcut
    rw [hread, hpieces, hall, parseTerms, if_neg (by simpa using hne), (hterm ctx _).2 ⟨c, hc, rfl⟩,
      parseTerms_congr hus]
    rfl
  · obtain ⟨sign, l, hsigned, htrim⟩ := exists_of_literal? hx
    obtain ⟨qs', hpieces⟩ := (hplaced hx).cut m hcut
    rw [hread, hpieces, hall, hsigned.parseTerms_cut htrim hcut]
    rfl

/-- A coefficient that is subtracted, with the exponent of its literal signed. -/
theorem parseBody_literal_subtracted : ∃ ts c us x, readNumber? "2.5e-3".toList = some x ∧
    parseBody sampleContext "E[n-2] - 2.5e-3 * E[n-1]" = .ok (.sum (ts ++ ⟨.number (-x), .call c⟩ :: us)) := by
  have hplace : CoefficientPlace "E[n-2] - ".toList true " * E[n-1]".toList :=
    ⟨⟨"E[n-2] -".toList, [' '], rfl, @Opens.behind "E[n-2] ".toList '-' rfl rfl (.inr rfl), by simp [Blanks]; rfl⟩,
      [' '], [' '], ['E'], [], "n-1]".toList, rfl, by simp [Blanks]; rfl, by simp [Blanks]; rfl, rfl, .nil⟩
  have hrun : (parseBody sampleContext "E[n-2] - 1 * E[n-1]").toOption.isSome := by decide +kernel
  obtain ⟨e, he⟩ := Option.isSome_iff_exists.1 hrun
  obtain ⟨ts, c, us, -, hall⟩ := parseBody_literal hplace (toOption_eq_some_iff.1 he)
  obtain ⟨x, hx, hintact, -⟩ := hall "2.5e-3".toList (by decide +kernel)
  exact ⟨ts, c, us, x, hx, hintact (by decide +kernel)⟩

/-- The literal `.5e-3` is no coefficient: the body `.5e-3*E[n-1]` is cut at the sign of the exponent. -/
theorem point_literal_rejected : isNumberLiteral ".5e-3".toList ∧
    (∃ e, parseBody sampleContext "1*E[n-1]" = .ok e) ∧
      ∀ e, parseBody sampleContext ".5e-3*E[n-1]" ≠ .ok e := by
  have hone : (parseBody sampleContext "1*E[n-1]").toOption.isSome := by decide +kernel
  have hpoint : (parseBody sampleContext ".5e-3*E[n-1]").toOption.isNone := by decide +kernel
  obtain ⟨e, he⟩ := Option.isSome_iff_exists.1 hone
  refine ⟨by decide +kernel, ⟨e, toOption_eq_some_iff.1 he⟩, fun e he => ?_⟩
  rw [he] at hpoint
  cases hpoint

end RecurrenceCompiler.RuleText
