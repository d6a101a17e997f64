import RecurrenceCompiler.Proofs.RuleText.LiteralCoefficients

/-!
# Where coefficients stand

Each term of a sum that is read stands at the start of the text or behind another call and a sign
(`opens_of_mem_splitTerms`), and what its coefficient is read from stands before a star and a call. So each
coefficient is at a place for one (`CoefficientPlace`): what is known of literals at such places is known of every
term of every sum (`exists_coefficientPlace`).
-/

namespace RecurrenceCompiler.RuleText

open Text Decimal Arith

variable {ctx : Context}

/-! ## Terms in their text -/

/-- A term of a sum is the first, or it stands behind another and the sign between them, outside all brackets.
What was seen so far is `before`, up to the term that is open, and `cur`, that term, last character first. -/
theorem mem_splitTermsFrom {depth : Int} {before cur cs : List Char} {negated : Bool} {p : RuleText.Piece}
    (hdepth : (before ++ cur.reverse).foldl depthAfter 0 = depth)
    (hp : p ∈ splitTermsFrom depth (before ++ cur.reverse).reverse cur negated cs) :
    (∃ own rest, cs = own ++ rest ∧ p = ⟨trim (cur.reverse ++ own), negated⟩) ∨
      ∃ q ∈ splitTermsFrom depth (before ++ cur.reverse).reverse cur negated cs,
        ∃ front text sign own rest, before ++ cur.reverse ++ cs = front ++ text ++ sign :: (own ++ rest) ∧
          (front ++ text).foldl depthAfter 0 = 0 ∧ (sign = '+' ∨ sign = '-') ∧ q.text = trim text ∧
            p = ⟨trim own, sign == '-'⟩ := by
  induction cs generalizing depth before cur negated with
  | nil => exact .inl ⟨[], [], rfl, by simpa [splitTermsFrom] using hp⟩
  | cons c cs ih =>
    have hseen : c :: (before ++ cur.reverse).reverse = (before ++ (c :: cur).reverse).reverse := by simp
    have htext : before ++ cur.reverse ++ c :: cs = before ++ (c :: cur).reverse ++ cs := by simp
    rw [splitTermsFrom] at hp ⊢
    split at hp
    · next hcut =>
      obtain ⟨⟨⟨rfl, hsign⟩, -⟩, -⟩ : ((depth = 0 ∧ (c = '+' ∨ c = '-')) ∧ _) ∧ _ := by simpa using hcut
      rw [if_pos hcut]
      have hstart : (before ++ (c :: cur).reverse ++ ([] : List Char).reverse).reverse =
          c :: (before ++ cur.reverse).reverse := by simp
      rcases List.mem_cons.1 hp with rfl | hp
      · exact .inl ⟨[], c :: cs, rfl, by simp⟩
      · have hdepth' : (before ++ (c :: cur).reverse ++ ([] : List Char).reverse).foldl depthAfter 0 = 0 := by
          simp only [List.reverse_nil, List.append_nil, List.reverse_cons, ← List.append_assoc,
            List.foldl_append, List.foldl_cons, List.foldl_nil]
          rw [← List.foldl_append, hdepth]
          rcases hsign with rfl | rfl <;> rfl
        rw [← hstart] at hp
        rcases ih hdepth' hp with ⟨own, rest, rfl, rfl⟩ | ⟨q, hq, front, text, sign, own, rest, heq, h⟩
        · exact .inr ⟨_, List.mem_cons_self, before, cur.reverse, c, own, rest, by simp, hdepth, hsign, rfl, by simp⟩
        · refine .inr ⟨q, List.mem_cons_of_mem _ (hstart ▸ hq), front, text, sign, own, rest, ?_, h⟩
          rw [htext, ← heq]
          simp
    · next hcut =>
      rw [if_neg hcut]
      have hdepth' : (before ++ (c :: cur).reverse).foldl depthAfter 0 = depthAfter depth c := by
        rw [List.reverse_cons, ← List.append_assoc, List.foldl_append, hdepth]
        rfl
      rw [hseen] at hp ⊢
      rw [htext]
      rcases ih hdepth' hp with ⟨own, rest, rfl, rfl⟩ | h
      · exact .inl ⟨c :: own, rest, rfl, by simp⟩
      · exact .inr h

/-- What stands before the name of the call, in the text of a term. -/
theorem Piece.exists_of_front? {p : RuleText.Piece} {front : List Char} (h : p.front? = some front) :
    ∃ name gap inside, p.text = front ++ (name ++ gap) ++ '[' :: inside ∧ '[' ∉ front ++ (name ++ gap) ∧
      endingName? (front ++ (name ++ gap)) = some (front, name) ∧ isName name ∧ Blanks gap := by
  obtain ⟨⟨head, inside⟩, hcut, h⟩ := Option.bind_eq_some_iff.1 h
  obtain ⟨⟨front', name⟩, hname, h⟩ := Option.map_eq_some_iff.1 h
  cases h
  obtain ⟨hisName, gap, rfl, hgap⟩ := endingName?_eq_some hname
  obtain ⟨htext, hfirst⟩ := cutAt?_eq_some (by simp) hcut
  exact ⟨name, gap, inside, htext, by simpa [List.singleton_infix_iff] using hfirst, hname, hisName, hgap⟩

/-- A term that is read ends with its call. -/
theorem exists_of_parseTerm {p : RuleText.Piece} {t : Term Expr} (hbal : balanced p.text)
    (h : parseTerm ctx p = .ok t) : ∃ init gap, p.text = init ++ ']' :: gap ∧ Blanks gap := by
  obtain ⟨front, -, -, -, -, -, -, -, hfront, -⟩ := parseTerm_eq_ok hbal h
  obtain ⟨name, gap, inside, htext, hopen, hname, -, -⟩ := Piece.exists_of_front? hfront
  obtain ⟨text, negated⟩ := p
  subst htext
  obtain ⟨c, coeff, ⟨shifts, after, -, hclose, hafter, -⟩, -⟩ := (parseTerm_open hopen hname).1 h
  obtain ⟨rfl, -⟩ := cutAt?_eq_some (by simp) hclose
  refine ⟨front ++ (name ++ gap) ++ '[' :: shifts, after, by simp, fun c hc => ?_⟩
  by_contra hblank
  exact trim_ne_nil_of_mem hc (by simpa using hblank) hafter

/-- Behind a call and a sign a term starts. -/
theorem Opens.of_call {init gap : List Char} (hgap : Blanks gap) (hbal : balanced (init ++ ']' :: gap))
    {sign : Char} (hsign : sign = '+' ∨ sign = '-') : Opens (init ++ ']' :: gap ++ [sign]) (sign == '-') := by
  refine .behind hbal ?_ hsign
  have hnil : trimEnd gap = [] := trimEnd_append_blanks hgap []
  rw [trimEnd_append_cons rfl, hnil]
  simp

/-- Each piece of a text that is read is read. -/
theorem exists_parseTerm_of_mem {body : List Char} {ps : List RuleText.Piece} {ts : List (Term Expr)}
    (h : parseTerms ctx body ps = .ok ts) : ∀ p ∈ ps, ∃ t, parseTerm ctx p = .ok t := by
  intro p hp
  obtain ⟨ps, qs, rfl⟩ := List.append_of_mem hp
  obtain ⟨-, us, -, hus, -⟩ := parseTerms_append h
  rw [parseTerms] at hus
  split at hus
  · cases hus
  · obtain ⟨t, ht, -⟩ := bind_ok hus
    exact ⟨t, ht⟩

/-- **Where the terms of a sum start**: each stands at the start of the text or behind a call and a sign. -/
theorem opens_of_mem_splitTerms {body cs : List Char} {ts : List (Term Expr)} (hbal : balanced cs)
    (h : parseTerms ctx body (splitTerms cs) = .ok ts) {p : RuleText.Piece} (hp : p ∈ splitTerms cs) :
    ∃ before own rest, cs = before ++ (own ++ rest) ∧ Opens before p.negated ∧ p.text = trim own := by
  rcases @mem_splitTermsFrom 0 [] [] cs false p rfl hp with
    ⟨own, rest, rfl, rfl⟩ | ⟨q, hq, front, text, sign, own, rest, heq, hdepth, hsign, hqtext, rfl⟩
  · exact ⟨[], own, rest, rfl, .first, by simp⟩
  · obtain rfl : cs = front ++ text ++ sign :: (own ++ rest) := by simpa using heq
    obtain ⟨t, ht⟩ := exists_parseTerm_of_mem h q hq
    obtain ⟨init, gap, hcall, hgap⟩ := exists_of_parseTerm (balanced_splitTerms hbal q hq) ht
    obtain ⟨gap₁, gap₂, -, hgap₂, htext⟩ := exists_trim text
    obtain ⟨hbefore, -⟩ := balanced_of_depth (s := []) hbal hdepth
    have hfront : front ++ text = front ++ gap₁ ++ init ++ ']' :: (gap ++ gap₂) := by
      rw [htext, ← hqtext, hcall]
      simp
    rw [hfront] at hbefore ⊢
    exact ⟨_, own, rest, by simp, .of_call (hgap.append hgap₂) hbefore hsign, rfl⟩

/-! ## Coefficients in their terms -/

/-- What stands with a star before a call that is read. -/
theorem exists_of_starred? {text front coeff : List Char} {e : Expr} (h : parseFront ctx text front = .ok e)
    (hcoeff : starred? front = some coeff) : ∃ before gap gap', front = before ++ (coeff ++ (gap ++ '*' :: gap')) ∧
      Blanks before ∧ Blanks gap ∧ Blanks gap' := by
  obtain ⟨lead, trail, hlead, htrail, hfront⟩ := exists_trim front
  rw [starred?] at hcoeff
  split at hcoeff
  · cases hcoeff
  · next hne =>
    rw [not_or] at hne
    cases hcoeff
    rw [parseFront] at h
    split at h
    · next hnil => exact absurd hnil hne.1
    · next hminus => exact absurd hminus hne.2
    · split at h
      · cases h
      · next hstar =>
        obtain ⟨init, hinit⟩ := List.getLast?_eq_some_iff.1 (by simpa using hstar)
        obtain ⟨gap₁, gap₂, hgap₁, hgap₂, htrim⟩ := exists_trim init
        refine ⟨lead ++ gap₁, gap₂, trail, ?_, hlead.append hgap₁, hgap₂, htrail⟩
        rw [hinit, List.dropLast_concat]
        conv => lhs; rw [hfront, hinit, htrim]
        simp

/-- A trimmed text has no blanks in front. -/
theorem eq_nil_of_trim_eq {own gap cs : List Char} (hgap : Blanks gap) (h : trim own = gap ++ cs) :
    gap = [] := by
  have hlength := length_trim_le cs
  rw [← trim_blanks_append hgap, ← h, trim_trim, h, List.length_append] at hlength
  exact List.length_eq_zero_iff.1 (by omega)

/-- **Each coefficient of a sum that is read stands at a place for one**, where the text of its term
starts. -/
theorem exists_place_of_mem_splitTerms {body cs : List Char} {ts : List (Term Expr)} (hbal : balanced cs)
    (h : parseTerms ctx body (splitTerms cs) = .ok ts) {p : RuleText.Piece} (hp : p ∈ splitTerms cs)
    {coeff : List Char} (hcoeff : p.front?.bind starred? = some coeff) :
    ∃ front back, cs = front ++ (coeff ++ back) ∧ CoefficientPlace front p.negated back ∧
      p.text <+: coeff ++ back := by
  obtain ⟨before, own, rest, rfl, hopens, htext⟩ := opens_of_mem_splitTerms hbal h hp
  obtain ⟨t, ht⟩ := exists_parseTerm_of_mem h p hp
  obtain ⟨front, hfront, hstar⟩ := Option.bind_eq_some_iff.1 hcoeff
  obtain ⟨name, gap, inside, hcall, hopen, hname, hisName, hgap⟩ := Piece.exists_of_front? hfront
  obtain ⟨lead, trail, hlead, -, hown⟩ := exists_trim own
  have hread : ∃ e, parseFront ctx p.text front = .ok e := by
    obtain ⟨text, negated⟩ := p
    subst hcall
    obtain ⟨-, e, -, he, -⟩ := (parseTerm_open hopen hname).1 ht
    exact ⟨e, he⟩
  obtain ⟨e, he⟩ := hread
  obtain ⟨gap₁, gap₂, gap₃, rfl, hgap₁, hgap₂, hgap₃⟩ := exists_of_starred? he hstar
  obtain rfl : gap₁ = [] := by
    rw [htext, List.append_assoc, List.append_assoc] at hcall
    exact eq_nil_of_trim_eq hgap₁ hcall
  refine ⟨before ++ lead, gap₂ ++ '*' :: (gap₃ ++ (name ++ (gap ++ '[' :: (inside ++ trail ++ rest)))), ?_,
    ⟨⟨before, _, rfl, hopens, hlead⟩, _, _, _, _, _, rfl, hgap₂, hgap₃, hisName, hgap⟩, trail ++ rest, ?_⟩
  · conv => lhs; rw [hown, ← htext, hcall]
    simp
  · rw [hcall]
    simp

/-! ## Places before blanks collapse -/

/-- Where a term starts after blanks collapse one starts before. -/
theorem Opens.of_collapseBlanks {cs before gap : List Char} {negated : Bool} (h : Opens before negated)
    (hgap : Blanks gap) (heq : collapseBlanks cs = before ++ gap) :
    ∃ before' gap', cs = before' ++ gap' ∧ Opens before' negated ∧ Blanks gap' := by
  cases h with
  | first =>
    rw [List.nil_append] at heq
    exact ⟨[], cs, rfl, .first, Blanks.of_collapseFrom (heq ▸ hgap)⟩
  | @behind before sign hbalanced hcall hsign =>
    have hblank : isBlank sign = false := by rcases hsign with rfl | rfl <;> rfl
    rw [List.append_assoc, List.singleton_append] at heq
    obtain ⟨text, gap', rfl, rfl, rfl⟩ := collapseBlanks_eq_append_cons hblank heq
    rw [balanced_collapseBlanks] at hbalanced
    -- The call before the sign ends with a bracket and blanks.
    obtain ⟨trail, htext, htrail⟩ := exists_trimEnd_append (collapseBlanks text)
    obtain ⟨init, hinit⟩ := List.getLast?_eq_some_iff.1 hcall
    rw [hinit, List.append_assoc, List.singleton_append] at htext
    obtain ⟨init, trail, rfl, -, rfl⟩ := collapseBlanks_eq_append_cons rfl htext
    exact ⟨_, gap', by simp, .of_call (Blanks.of_collapseFrom htrail) hbalanced hsign, .of_collapseFrom hgap⟩

/-- A place for a coefficient after blanks collapse is one before. -/
theorem CoefficientPlace.of_collapseBlanks {front back : List Char} {negated : Bool}
    (h : CoefficientPlace (collapseBlanks front) negated (collapseBlanks back)) :
    CoefficientPlace front negated back := by
  obtain ⟨before, gap, hfront, hopens, hgap⟩ := h.opens
  obtain ⟨gap₁, gap₂, name, gap₃, rest, hback, hgap₁, hgap₂, hname, hgap₃⟩ := h.calls
  refine ⟨hopens.of_collapseBlanks hgap hfront, ?_⟩
  have hvisible : ∀ c ∈ name, isBlank c = false := fun c hc =>
    isBlank_of_isWord (isWord_of_isName hname c hc)
  obtain ⟨gap₁, call, rfl, rfl, hcall⟩ := collapseBlanks_eq_append_cons rfl hback
  obtain ⟨gap₂, shifts, rfl, rfl, hshifts⟩ :=
    collapseBlanks_eq_append_visible (solid_name hname).ne_nil hvisible hcall
  obtain ⟨gap₃, rest, rfl, rfl, -⟩ := collapseBlanks_eq_append_cons rfl hshifts
  exact ⟨gap₁, gap₂, name, gap₃, rest, rfl, .of_collapseFrom hgap₁, .of_collapseFrom hgap₂, hname,
    .of_collapseFrom hgap₃⟩

/-- **A coefficient one of a body that is read stands at a place for a coefficient**, in the text as it is
written: what stands from it on has the text of its term in front, once blanks collapse. -/
theorem exists_coefficientPlace {cs : List Char} {e : Expr} (h : parseBody ctx (String.ofList cs) = .ok e)
    {p : RuleText.Piece} (hp : p ∈ splitTerms (collapseBlanks cs)) (hone : p.front?.bind starred? = some ['1']) :
    ∃ front back, cs = front ++ '1' :: back ∧ CoefficientPlace front p.negated back ∧
      p.text <+: '1' :: collapseBlanks back := by
  obtain ⟨ts, body, -, rfl, hbal, hts⟩ := parseBody_eq_ok h
  rw [String.toList_ofList, splitTerms_trim] at hts
  rw [String.toList_ofList, balanced_trim] at hbal
  obtain ⟨front, back, heq, hplace, htext⟩ := exists_place_of_mem_splitTerms hbal hts hp hone
  obtain ⟨front, back, rfl, rfl, rfl⟩ := collapseBlanks_eq_append_cons rfl heq
  exact ⟨front, back, rfl, hplace.of_collapseBlanks, htext⟩

end RecurrenceCompiler.RuleText
