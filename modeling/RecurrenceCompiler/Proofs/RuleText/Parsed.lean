import RecurrenceCompiler.Proofs.Constraint.Key
import RecurrenceCompiler.Proofs.Expr.Signature
import RecurrenceCompiler.RuleText.Parser

/-!
# The shape of what is read

Rule text is read into sums of terms, each a coefficient times a call, possibly scaled
(`isRule_parseRule`). A coefficient is a product of numbers and texts, and a text that stays is legible
(`isCoefficient_parseCoeff`): it consists of tokens, so it has no colon, and it is cut from a balanced
text, so its brackets close in order. A call has a shift that is a double for each index and its target
is a name (`spelled_parseCall`).
-/

namespace RecurrenceCompiler

open Text Decimal Arith

/-- A term as it is read: a coefficient times a call. -/
def Term.Spelled (rank : Nat) (t : Term Expr) : Prop :=
  t.coeff.IsCoefficient ∧ ∃ c, t.factor = .call c ∧ c.Spelled rank

namespace Expr

/-- A sum of terms. -/
def IsBody (rank : Nat) (e : Expr) : Prop :=
  ∃ ts, e = .sum ts ∧ ∀ t ∈ ts, t.Spelled rank

/-- The right-hand side of a rule: a sum, a scaled sum or an average of sums. -/
inductive IsRule (rank : Nat) : Expr → Prop
  | body {e : Expr} : e.IsBody rank → IsRule rank e
  | scaled {e scale : Expr} {division : Bool} : e.IsBody rank → scale.IsCoefficient →
      IsRule rank (.scaled e scale division)
  | average {branches : List Expr} {scale : Expr} : branches ≠ [] →
      (∀ b ∈ branches, b.IsBody rank) → scale.IsCoefficient → IsRule rank (.average branches scale)

end Expr

theorem Legible.paren {cs : List Char} (h : Legible (String.ofList cs)) :
    Legible ("(" ++ String.ofList cs ++ ")") := by
  obtain ⟨hbal, hcolon⟩ := h
  rw [String.toList_ofList] at hbal hcolon
  rw [← RuleText.ofList_paren]
  constructor
  · rw [String.toList_ofList]
    exact RuleText.balanced_paren hbal
  · rw [String.toList_ofList]
    simp [hcolon]

namespace RuleText

variable {ctx : Context}

/-! ## Coefficients -/

/-- Text that consists of tokens is legible if it is balanced. -/
theorem legible_of_checkTokens {cs : List Char} (hbal : balanced cs) (h : checkTokens ctx cs = .ok ()) :
    Legible (String.ofList cs) := by
  rw [checkTokens] at h
  split at h
  · next hsome =>
    obtain ⟨ts, hts⟩ := Option.isSome_iff_exists.1 hsome
    refine ⟨by rwa [String.toList_ofList], ?_⟩
    rw [String.toList_ofList]
    exact not_mem_of_tokens? hts rfl rfl rfl
  · cases h

/-- A name is legible. -/
theorem legible_of_isIdentifier {n : String} (h : isIdentifier n) : Legible n :=
  ⟨balanced_of_plain fun c hc => isPlain_of_isWord (isWord_of_isIdentifier h c hc),
    fun hmem => by cases isWord_of_isIdentifier h _ hmem⟩

theorem isCoefficient_negate {e : Expr} (h : e.IsCoefficient) : (negate e).IsCoefficient := by
  unfold negate
  split
  · exact .number _
  · exact .mul (.number _) h

/-- What is read within a bound is a coefficient, one field a function of the parser. -/
structure ReadsCoefficients (ctx : Context) (fuel : Nat) : Prop where
  coeff : ∀ {cs e}, coeffWithin ctx fuel cs = .ok e → balanced cs → e.IsCoefficient
  factors : ∀ {whole acc fs e}, factorsWithin ctx fuel whole acc fs = .ok e →
    (∀ f ∈ fs, balanced f) → (∀ a, acc = some a → a.IsCoefficient) → e.IsCoefficient
  factor : ∀ {cs e}, factorWithin ctx fuel cs = .ok e → balanced cs → e.IsCoefficient

/-- One more level of nesting. -/
theorem readsCoefficients_succ (hvars : ∀ v ∈ ctx.runtimeVars, isIdentifier v) {fuel : Nat}
    (ih : ReadsCoefficients ctx fuel) : ReadsCoefficients ctx (fuel + 1) where
  coeff := by
    intro cs e h hbal
    rw [coeffWithin] at h
    exact ih.factors h (balanced_splitTop rfl (by rwa [balanced_trim])) (by simp)
  factors := by
    intro whole acc fs e h hfs hacc
    cases fs with
    | nil =>
      cases acc with
      | none => cases h
      | some a =>
        cases h
        exact hacc _ rfl
    | cons f fs =>
      rw [factorsWithin] at h
      split at h
      · cases h
      · obtain ⟨a, ha, h⟩ := bind_ok h
        have ha := ih.factor ha (hfs f (by simp))
        refine ih.factors h (fun g hg => hfs g (by simp [hg])) fun b hb => ?_
        cases acc with
        | none =>
          cases hb
          exact ha
        | some a' =>
          cases hb
          exact .mul (hacc a' rfl) ha
  factor := by
    intro cs e h hbal
    unfold factorWithin at h
    dsimp only at h
    split at h
    · cases h
      exact .number _
    · split at h
      · next hrun =>
        cases h
        exact .var (legible_of_isIdentifier (hvars _ (by simpa using hrun)))
      · split at h
        · obtain ⟨⟨⟩, hcheck, h⟩ := bind_ok h
          cases h
          exact .index (legible_of_checkTokens (balanced_unwrap hbal) hcheck)
        · split at h
          · next hw => exact ih.coeff h (balanced_peel hw hbal)
          · split at h
            · next rest _ _ _ _ =>
              split at h
              · cases h
              · cases hf : factorWithin ctx fuel (trim rest) with
                | error err =>
                  rw [hf] at h
                  cases h
                | ok a =>
                  rw [hf] at h
                  cases h
                  rw [balanced, balancedFrom_plain rfl] at hbal
                  exact isCoefficient_negate (ih.factor hf (by rwa [balanced_trim]))
            · obtain ⟨⟨⟩, hcheck, h⟩ := bind_ok h
              cases h
              have hlegible := legible_of_checkTokens hbal hcheck
              split
              · exact .var hlegible
              · exact .var hlegible.paren

theorem readsCoefficients (hvars : ∀ v ∈ ctx.runtimeVars, isIdentifier v) :
    ∀ fuel, ReadsCoefficients ctx fuel
  | 0 => ⟨fun h => (by cases h), fun h => (by cases h), fun h => (by cases h)⟩
  | fuel + 1 => readsCoefficients_succ hvars (readsCoefficients hvars fuel)

/-- **Balanced text is read into a coefficient with legible texts.** -/
theorem isCoefficient_parseCoeff (hvars : ∀ v ∈ ctx.runtimeVars, isIdentifier v) {cs : List Char}
    {e : Expr} (hbal : balanced cs) (h : parseCoeff ctx cs = .ok e) : e.IsCoefficient :=
  (readsCoefficients hvars _).coeff h hbal

/-! ## Calls -/

theorem onGrid_natAbs {k : Int} (h : onDoubleGrid k = k) (negative : Bool) :
    (⟨negative, k.natAbs⟩ : Whole).OnGrid := by
  have habs := onDoubleGrid_natAbs h
  cases negative with
  | false => exact habs
  | true => exact (onDoubleGrid_neg _).trans (congrArg Neg.neg habs)

/-- Digits are read as a double. -/
theorem onGrid_read (cs : List Char) : (Whole.read cs).OnGrid := by
  have hread : onDoubleGrid (readInteger cs) = readInteger cs := by
    unfold readInteger
    split <;> exact onDoubleGrid_onDoubleGrid _
  unfold Whole.read
  split <;> exact onGrid_natAbs hread _

/-- The magnitude of a whole number that is a double is one too. -/
theorem onGrid_magnitude {w : Whole} (h : w.OnGrid) : onDoubleGrid w.magnitude = w.magnitude := by
  have h := onDoubleGrid_natAbs h
  rwa [Whole.toInt, apply_ite Int.natAbs, Int.natAbs_neg, ite_self, Int.natAbs_natCast] at h

theorem onGrid_negate {w : Whole} (h : w.OnGrid) : w.negate.OnGrid := by
  have habs := onGrid_magnitude h
  rw [Whole.OnGrid, Whole.toInt, Whole.negate]
  split
  · rw [onDoubleGrid_neg, habs]
  · exact habs

/-- The amount of a shift is a double. -/
theorem onGrid_shift? {cs : List Char} {name : String} {w : Whole} (h : shift? cs = some (name, w)) :
    w.OnGrid := by
  unfold shift? at h
  split at h
  · cases h
  · dsimp only at h
    have hamount {ds : List Char} {n : Whole}
        (h : (if isNatural (trimStart ds) then some (Whole.read (trimStart ds)) else none) = some n) :
        n.OnGrid := by
      split at h
      · cases h
        exact onGrid_read _
      · cases h
    split at h
    · cases h
      exact onGrid_zero
    · obtain ⟨n, hn, heq⟩ := Option.map_eq_some_iff.1 h
      cases heq
      exact hamount hn
    · obtain ⟨n, hn, heq⟩ := Option.map_eq_some_iff.1 h
      cases heq
      exact onGrid_negate (hamount hn)
    · cases h

theorem shifts_parseShifts {seen : List String} {shifts shifts' : List Whole} {cs : List (List Char)}
    (h : parseShifts ctx seen shifts cs = .ok shifts')
    (hshifts : ∀ w ∈ shifts, w.OnGrid) :
    shifts'.length = shifts.length ∧ ∀ w ∈ shifts', w.OnGrid := by
  induction cs generalizing seen shifts with
  | nil =>
    cases h
    exact ⟨rfl, hshifts⟩
  | cons c cs ih =>
    rw [parseShifts] at h
    split at h
    · cases h
    · next name w hshift =>
      split at h
      · cases h
      · obtain ⟨hlen, hexact⟩ := ih h fun v hv => by
          rcases List.mem_or_eq_of_mem_set hv with hv | rfl
          · exact hshifts v hv
          · exact onGrid_shift? hshift
        exact ⟨hlen.trans (List.length_set ..), hexact⟩

/-- **A call is read with a shift for each index.** -/
theorem spelled_parseCall {name text : List Char} {c : Call} (hname : isName name)
    (h : parseCall ctx name text = .ok c) : c.Spelled ctx.indices.length := by
  rw [parseCall] at h
  split at h
  · cases h
  · obtain ⟨shifts, hshifts, h⟩ := bind_ok h
    cases h
    obtain ⟨hlen, hexact⟩ := shifts_parseShifts hshifts (by simp [onGrid_zero])
    refine ⟨fun t ht => ?_, by simpa using hlen, hexact⟩
    dsimp only at ht
    split at ht
    · cases ht
    · cases ht
      rwa [isIdentifier, String.toList_ofList]

/-! ## Terms and bodies -/

/-- The name that ends a text, before blanks. -/
theorem endingName?_eq_some {cs front name : List Char} (h : endingName? cs = some (front, name)) :
    isName name ∧ ∃ gap, cs = front ++ (name ++ gap) ∧ ∀ c ∈ gap, isBlank c := by
  rw [endingName?] at h
  split at h
  · cases h
  · next hname =>
    cases h
    generalize hrev : cs.reverse.dropWhile isBlank = rev at hname ⊢
    have hword : ∀ c ∈ (rev.takeWhile isWord).reverse, isWord c := by
      intro c hc
      exact List.all_eq_true.1 List.all_takeWhile c (List.mem_reverse.1 hc)
    generalize hw : (rev.takeWhile isWord).reverse = word at hname hword ⊢
    constructor
    · cases hd : word.dropWhile isDigit with
      | nil => simp [hd] at hname
      | cons c cs =>
        have hsub : c :: cs ⊆ word := hd ▸ (List.dropWhile_sublist _).subset
        have hhead := List.head?_dropWhile_not isDigit word
        rw [hd] at hhead
        have hc := hword c (hsub (by simp))
        rw [isName, Bool.and_eq_true, List.all_eq_true]
        refine ⟨?_, fun d hd => hword d (hsub (by simp [hd]))⟩
        simp only [List.head?_cons] at hhead
        simpa [isWord, hhead] using hc
    · have hcs : cs = (rev.dropWhile isWord).reverse ++ word ++ (cs.reverse.takeWhile isBlank).reverse := by
        rw [← hw, ← List.reverse_append, List.takeWhile_append_dropWhile, ← hrev, ← List.reverse_append,
          List.takeWhile_append_dropWhile, List.reverse_reverse]
      refine ⟨(cs.reverse.takeWhile isBlank).reverse, ?_, fun c hc =>
        List.all_eq_true.1 List.all_takeWhile c (List.mem_reverse.1 hc)⟩
      rw [List.append_assoc, ← List.append_assoc (word.takeWhile isDigit),
        List.takeWhile_append_dropWhile, ← List.append_assoc]
      exact hcs

/-- A balanced text without plain characters at its end is balanced. -/
theorem balanced_of_append_plain {cs after : List Char} (hafter : ∀ c ∈ after, isPlain c)
    (h : balanced (cs ++ after)) : balanced cs :=
  (balanced_between (a := []) (by simp) hafter).symm.trans h

/-- What trimming leaves nothing of is plain. -/
theorem plain_of_trim_eq_nil {cs : List Char} (h : trim cs = []) : ∀ c ∈ cs, isPlain c := by
  obtain ⟨bs, heq, hbs⟩ := exists_trimEnd_append (trimStart cs)
  rw [show trimEnd (trimStart cs) = [] from h, List.nil_append] at heq
  intro c hc
  rw [← List.takeWhile_append_dropWhile (p := isBlank) (l := cs)] at hc
  rcases List.mem_append.1 hc with hc | hc
  · exact isPlain_of_isBlank (List.all_eq_true.1 List.all_takeWhile c hc)
  · exact isPlain_of_isBlank (hbs c (heq ▸ hc))

/-- The coefficient that stands with a star before a call, if there is one. -/
def starred? (front : List Char) : Option (List Char) :=
  if trim front = [] ∨ trim front = ['-'] then none else some (trim (trim front).dropLast)

/-- What stands before the name of the call in a term. -/
def Piece.front? (p : RuleText.Piece) : Option (List Char) :=
  (cutAt? ['['] p.text).bind fun (head, _) => (endingName? head).map Prod.fst

/-- What stands before a call: nothing, a minus sign, or a coefficient and a star. -/
theorem parseFront_eq_ok {text front : List Char} {e : Expr} (hbal : balanced front)
    (h : parseFront ctx text front = .ok e) : (starred? front = none ∧ ∃ x, e = .number x) ∨
      ∃ cs, starred? front = some cs ∧ parseCoeff ctx cs = .ok e ∧ balanced cs ∧ cs <:+: front := by
  have hpart := infix_of_trim front
  rw [← balanced_trim] at hbal
  rw [parseFront] at h
  unfold starred?
  generalize trim front = front' at h hbal hpart ⊢
  split at h
  · cases h
    exact .inl ⟨if_pos (.inl rfl), _, rfl⟩
  · cases h
    exact .inl ⟨if_pos (.inr rfl), _, rfl⟩
  · next hne hminus =>
    split at h
    · cases h
    · next hstar =>
      dsimp only at h
      split at h
      · cases h
      · obtain ⟨init, rfl⟩ := List.getLast?_eq_some_iff.1 (by simpa using hstar)
        rw [List.dropLast_concat] at h
        refine .inr ⟨_, by rw [if_neg (not_or.2 ⟨hne, hminus⟩), List.dropLast_concat], h, ?_,
          (infix_of_trim init).trans ((List.prefix_append _ _).isInfix.trans hpart)⟩
        rw [balanced_trim]
        exact balanced_of_append_plain (by simp; rfl) hbal

/-- A term is a call with what stands before it. -/
theorem parseTerm_eq_ok {p : RuleText.Piece} {t : Term Expr} (hbal : balanced p.text)
    (h : parseTerm ctx p = .ok t) : ∃ front name inside call coeff,
      parseCall ctx name inside = .ok call ∧ isName name ∧ parseFront ctx p.text front = .ok coeff ∧
        p.front? = some front ∧ balanced front ∧ front <:+: p.text ∧
          t = ⟨if p.negated then negate coeff else coeff, .call call⟩ := by
  rw [parseTerm] at h
  split at h
  · cases h
  · next head rest hopen =>
    split at h
    · cases h
    · next hrest =>
      split at h
      · cases h
      · next inside after hclose =>
        split at h
        · cases h
        · next hafter =>
          split at h
          · cases h
          · next front name hname =>
            obtain ⟨call, hcall, h⟩ := bind_ok h
            obtain ⟨coeff, hcoeff, h⟩ := bind_ok h
            cases h
            have hfront : p.front? = some front := by simp [Piece.front?, hopen, hname]
            obtain ⟨hisName, gap, rfl, hgap⟩ := endingName?_eq_some hname
            have hbehind : ∀ c ∈ name ++ gap, isPlain c := List.forall_mem_append.2
              ⟨fun c hc => isPlain_of_isWord (isWord_of_isName hisName c hc),
                fun c hc => isPlain_of_isBlank (hgap c hc)⟩
            obtain ⟨htext, -⟩ := cutAt?_eq_some (by simp) hopen
            obtain ⟨hinside, hfirst⟩ := cutAt?_eq_some (by simp) hclose
            have hopen : '[' ∉ inside := fun hmem => hrest (by simp [hinside, hmem])
            have hclose : ']' ∉ inside := by simpa [List.singleton_infix_iff] using hfirst
            have hblank : ∀ c ∈ after, isPlain c := plain_of_trim_eq_nil (by simpa using hafter)
            have hhead : balanced (front ++ (name ++ gap)) := by
              refine balanced_before_call hopen hclose hblank ?_
              rw [htext, hinside] at hbal
              exact hbal
            have hpart : front <:+: p.text := by
              rw [htext, List.append_assoc]
              exact (List.prefix_append _ _).isInfix
            exact ⟨front, name, inside, call, coeff, hcall, hisName, hcoeff, hfront,
              balanced_of_append_plain hbehind hhead, hpart, rfl⟩

theorem isCoefficient_parseFront (hvars : ∀ v ∈ ctx.runtimeVars, isIdentifier v)
    {text front : List Char} {e : Expr} (hbal : balanced front)
    (h : parseFront ctx text front = .ok e) : e.IsCoefficient := by
  rcases parseFront_eq_ok hbal h with ⟨-, x, rfl⟩ | ⟨cs, -, hcs, hbal, -⟩
  · exact .number x
  · exact isCoefficient_parseCoeff hvars hbal hcs

theorem spelled_parseTerm (hvars : ∀ v ∈ ctx.runtimeVars, isIdentifier v) {p : RuleText.Piece}
    {t : Term Expr} (hbal : balanced p.text) (h : parseTerm ctx p = .ok t) :
    t.Spelled ctx.indices.length := by
  obtain ⟨front, name, inside, call, coeff, hcall, hname, hcoeff, -, hfront, -, rfl⟩ :=
    parseTerm_eq_ok hbal h
  have hcoeff := isCoefficient_parseFront hvars hfront hcoeff
  refine ⟨?_, call, rfl, spelled_parseCall hname hcall⟩
  dsimp only
  split
  · exact isCoefficient_negate hcoeff
  · exact hcoeff

theorem spelled_parseTerms (hvars : ∀ v ∈ ctx.runtimeVars, isIdentifier v) {body : List Char}
    {ps : List RuleText.Piece} {ts : List (Term Expr)} (hbal : ∀ p ∈ ps, balanced p.text)
    (h : parseTerms ctx body ps = .ok ts) : ∀ t ∈ ts, t.Spelled ctx.indices.length := by
  induction ps generalizing ts with
  | nil =>
    cases h
    simp
  | cons p ps ih =>
    rw [parseTerms] at h
    split at h
    · cases h
    · obtain ⟨t, ht, h⟩ := bind_ok h
      obtain ⟨ts', hts', h⟩ := bind_ok h
      cases h
      exact List.forall_mem_cons.2 ⟨spelled_parseTerm hvars (hbal p (by simp)) ht,
        ih (fun q hq => hbal q (by simp [hq])) hts'⟩

/-- A body is the sum of the terms that its text is cut into. -/
theorem parseBody_eq_ok {text : String} {e : Expr} (h : parseBody ctx text = .ok e) :
    ∃ ts body, e = .sum ts ∧ body = trim (collapseBlanks text.toList) ∧ balanced body ∧
      parseTerms ctx body (splitTerms body) = .ok ts := by
  rw [parseBody] at h
  cases hts : parseSum ctx text.toList with
  | error err =>
    rw [hts] at h
    cases h
  | ok ts =>
    rw [hts] at h
    cases h
    rw [parseSum] at hts
    split at hts
    · cases hts
    · split at hts
      · cases hts
      · next hbal => exact ⟨ts, _, rfl, rfl, by simpa using hbal, hts⟩

/-- **A rule body is read into a sum of terms.** Its brackets are checked. -/
theorem isBody_parseBody (hvars : ∀ v ∈ ctx.runtimeVars, isIdentifier v) {text : String} {e : Expr}
    (h : parseBody ctx text = .ok e) : e.IsBody ctx.indices.length := by
  obtain ⟨ts, body, rfl, -, hbal, hts⟩ := parseBody_eq_ok h
  exact ⟨ts, rfl, spelled_parseTerms hvars (balanced_splitTerms hbal) hts⟩

/-! ## Scales and rules -/

theorem exists_blanks_append (cs : List Char) :
    ∃ bs, cs = bs ++ trimStart cs ∧ ∀ c ∈ bs, isPlain c :=
  ⟨cs.takeWhile isBlank, List.takeWhile_append_dropWhile.symm, fun c hc =>
    isPlain_of_isBlank (List.all_eq_true.1 List.all_takeWhile c hc)⟩

/-- A point, zeros and blanks may stand after the one. -/
theorem exists_point_append (cs : List Char) : ∃ before, cs = before ++ trimStart (match cs with
    | '.' :: r => r.dropWhile (· == '0')
    | r => r) ∧ ∀ c ∈ before, isPlain c := by
  split
  · next r =>
    obtain ⟨bs, hbs, hplain⟩ := exists_blanks_append (r.dropWhile (· == '0'))
    refine ⟨'.' :: r.takeWhile (· == '0') ++ bs, ?_, ?_⟩
    · rw [List.append_assoc, ← hbs, List.cons_append, List.takeWhile_append_dropWhile]
    · refine List.forall_mem_append.2 ⟨List.forall_mem_cons.2 ⟨rfl, fun c hc => ?_⟩, hplain⟩
      obtain rfl : c = '0' := by simpa using List.all_eq_true.1 List.all_takeWhile c hc
      rfl
  · exact exists_blanks_append _

/-- The text that is divided by ends the text. -/
theorem divisor?_eq_some {cs d : List Char} (h : divisor? cs = some d) :
    ∃ before, cs = before ++ d ∧ ∀ c ∈ before, isPlain c := by
  unfold divisor? at h
  split at h
  · next rest =>
    obtain ⟨point, hpoint, hplain⟩ := exists_point_append rest
    dsimp only at h
    split at h
    · next r hr =>
      split at h
      · cases h
      · cases h
        obtain ⟨bs, hbs, hbsplain⟩ := exists_blanks_append r
        refine ⟨'1' :: point ++ '/' :: bs, ?_, ?_⟩
        · rw [List.append_assoc, List.cons_append, List.cons_append, ← hbs, ← hr]
          exact congrArg ('1' :: ·) hpoint
        · simp only [List.forall_mem_append, List.forall_mem_cons]
          exact ⟨⟨rfl, hplain⟩, rfl, hbsplain⟩
    · cases h
  · cases h

/-- The coefficient that a scale multiplies with or divides by. -/
def scaleText (cs : List Char) : List Char :=
  (divisor? (trim cs)).getD (trim cs)

/-- A scale is read as a coefficient. -/
theorem parseScaleChars_eq_ok {cs : List Char} {e : Expr} {division : Bool}
    (h : parseScaleChars ctx cs = .ok (e, division)) : parseCoeff ctx (scaleText cs) = .ok e := by
  have hmap {ds : List Char} {b : Bool}
      (h : ((parseCoeff ctx ds).map fun e => (e, b)) = .ok (e, division)) :
      parseCoeff ctx ds = .ok e := by
    cases hc : parseCoeff ctx ds with
    | error err =>
      rw [hc] at h
      cases h
    | ok c =>
      rw [hc] at h
      cases h
      rfl
  rw [parseScaleChars] at h
  rw [scaleText]
  split at h
  · next d hd =>
    rw [hd]
    exact hmap h
  · next hd =>
    split at h
    · cases h
    · rw [hd]
      exact hmap h

/-- The brackets of a scale close in order without the one that it divides, too. -/
theorem balanced_scaleText {cs : List Char} (h : balanced cs) : balanced (scaleText cs) := by
  rw [← balanced_trim] at h
  rw [scaleText]
  cases hd : divisor? (trim cs) with
  | none => exact h
  | some d =>
    obtain ⟨before, hcs, hbefore⟩ := divisor?_eq_some hd
    rwa [hcs, balanced_append (balanced_of_plain hbefore)] at h

theorem isCoefficient_parseScaleChars (hvars : ∀ v ∈ ctx.runtimeVars, isIdentifier v) {cs : List Char}
    {e : Expr} {division : Bool} (hbal : balanced cs)
    (h : parseScaleChars ctx cs = .ok (e, division)) : e.IsCoefficient :=
  isCoefficient_parseCoeff hvars (balanced_scaleText hbal) (parseScaleChars_eq_ok h)

/-- **A rule is read into a sum of terms or a scaled one**, if the brackets of the scale close in
order. -/
theorem isRule_parseRule (hvars : ∀ v ∈ ctx.runtimeVars, isIdentifier v) {text : String}
    {scale : Option String} {e : Expr} (hbal : ∀ s, scale = some s → balanced s.toList)
    (h : parseRule ctx text scale = .ok e) : e.IsRule ctx.indices.length := by
  obtain ⟨body, hbody, h⟩ := bind_ok h
  have hbody := isBody_parseBody hvars hbody
  cases scale with
  | none =>
    cases h
    exact .body hbody
  | some s =>
    obtain ⟨⟨factor, division⟩, hscale, h⟩ := bind_ok h
    cases h
    exact .scaled hbody (isCoefficient_parseScaleChars hvars (hbal s rfl) hscale)

end RuleText

end RecurrenceCompiler
