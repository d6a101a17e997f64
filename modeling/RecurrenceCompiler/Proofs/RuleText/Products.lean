import RecurrenceCompiler.Proofs.RuleText.Leaves

/-!
# Products read back

The printer writes a product as its factors with stars between them. Each factor is solid: it is cut
neither at stars nor at signs (`Leaf.solid`), and it is read back as it is (`Leaf.reads`). So the text
of a product is read as the product of the same factors, taken from left to right
(`parseCoeff_joined`), whatever their grouping was.
-/

namespace RecurrenceCompiler

open Text Decimal Arith

/-- The product of the factors, taken from left to right. -/
def Expr.leftNested (e : Expr) : Expr :=
  match e.factors with
  | [] => e
  | f :: fs => fs.foldl (.binop .mul) f

namespace RuleText

/-! ## Solid texts -/

/-- A text that stands in one term wherever it is put, and has no call. -/
structure Unbroken (cs : List Char) : Prop where
  ne_nil : cs ≠ []
  head : ∀ c ∈ cs.head?, isBlank c = false
  last : ∀ c ∈ cs.getLast?, isBlank c = false
  balanced : balanced cs
  square : '[' ∉ cs
  unsplit : ∀ seen, startsFresh seen → unsplit 0 seen cs

/-- A text that stands for one factor wherever it is put. -/
structure Solid (cs : List Char) : Prop extends Unbroken cs where
  uncut : uncut '*' 0 cs

theorem Unbroken.trimmed {cs : List Char} (h : Unbroken cs) : trim cs = cs :=
  trim_eq_self h.head h.last

theorem isBlank_of_not_isJoint {c : Char} (h : isJoint c = false) : isBlank c = false := by
  cases hb : isBlank c with
  | false => rfl
  | true => rw [isJoint_of_isBlank hb] at h; cases h

theorem isBlank_of_isWord {c : Char} (h : isWord c) : isBlank c = false :=
  isBlank_of_not_isJoint (isJoint_of_isWord h)

theorem ends_of_not_isJoint {cs : List Char} (h : ∀ c ∈ cs, isJoint c = false) :
    (∀ c ∈ cs.head?, isBlank c = false) ∧ ∀ c ∈ cs.getLast?, isBlank c = false :=
  ⟨fun c hc => isBlank_of_not_isJoint (h c (List.mem_of_mem_head? hc)),
    fun c hc => isBlank_of_not_isJoint (h c (List.mem_of_mem_getLast? hc))⟩

theorem solid_of_not_isJoint {cs : List Char} (hne : cs ≠ []) (h : ∀ c ∈ cs, isJoint c = false)
    (hsplit : ∀ seen, startsFresh seen → unsplit 0 seen cs) : Solid cs where
  ne_nil := hne
  head := (ends_of_not_isJoint h).1
  last := (ends_of_not_isJoint h).2
  balanced := balanced_of_plain fun c hc => isPlain_of_not_isJoint (h c hc)
  square hmem := by cases h _ hmem
  uncut := uncut_of_not_mem (fun hmem => by cases h _ hmem) 0
  unsplit := hsplit

theorem solid_name {cs : List Char} (h : isName cs) : Solid cs := by
  have hword := isWord_of_isName h
  refine solid_of_not_isJoint (by rintro rfl; cases h) (fun c hc => isJoint_of_isWord (hword c hc)) ?_
  intro seen _
  exact unsplit_of_not_mem (fun hmem => by cases hword _ hmem) (fun hmem => by cases hword _ hmem) 0 seen

/-- A text in parentheses is solid. -/
theorem solid_paren {cs : List Char} (hbal : balanced cs) (hsquare : '[' ∉ cs) :
    Solid ('(' :: cs ++ [')']) where
  ne_nil := by simp
  head := by rintro c ⟨⟩; rfl
  last := by rw [List.getLast?_concat]; rintro c ⟨⟩; rfl
  balanced := balanced_paren hbal
  square := by simp [hsquare]
  uncut := uncut_brackets rfl (by decide) hbal
  unsplit seen _ := unsplit_brackets rfl hbal seen

/-- No sign stands in digits and a point. -/
theorem sign_not_mem_of_digits {cs : List Char} (h : ∀ c ∈ cs, isDigit c ∨ c = '.') :
    '+' ∉ cs ∧ '-' ∉ cs := by
  constructor <;> intro hmem <;> rcases h _ hmem with hd | hd <;> cases hd

/-- A fresh start is no digit. -/
theorem dropWhile_isDigit_of_startsFresh {seen : List Char} (h : startsFresh seen) :
    seen.dropWhile isDigit = seen := by
  cases seen with
  | nil => rfl
  | cons c seen =>
    refine List.dropWhile_cons_of_neg fun hc => ?_
    simp [startsFresh, isWord, hc] at h

/-- The sign of an exponent is known by the number before it. -/
theorem afterExponent_digits {l : Literal} (h : l.WellFormed) (hfirst : l.whole ≠ []) {e : Char}
    (he : e = 'e' ∨ e = 'E') {seen : List Char} (hseen : startsFresh seen) :
    afterExponent (e :: ((l.whole ++ (if l.point then ['.'] else []) ++ l.fraction).reverse ++ seen)) := by
  have hwhole : l.whole.reverse.all isDigit := by rw [List.all_reverse]; exact h.whole
  have hfraction : l.fraction.reverse.all isDigit := by rw [List.all_reverse]; exact h.fraction
  have hletter : (e == 'e' || e == 'E') = true := by rcases he with rfl | rfl <;> rfl
  have htake (rest : List Char) : ((l.whole.reverse ++ rest).takeWhile isDigit).isEmpty = false := by
    rw [takeWhile_append_of_all hwhole]
    simp [hfirst]
  have hdrop : (l.whole.reverse ++ seen).dropWhile isDigit = seen := by
    rw [dropWhile_append_of_all hwhole, dropWhile_isDigit_of_startsFresh hseen]
  rw [afterExponent, hletter, Bool.true_and]
  cases hpoint : l.point with
  | true =>
    have hbefore : ((l.whole ++ (if true then ['.'] else []) ++ l.fraction).reverse ++ seen) =
        l.fraction.reverse ++ '.' :: (l.whole.reverse ++ seen) := by simp
    rw [hbefore, dropWhile_append_of_all hfraction, List.dropWhile_cons_of_neg (by decide)]
    simp only [htake, hdrop, hseen]
    rfl
  | false =>
    have hbefore : ((l.whole ++ (if false then ['.'] else []) ++ l.fraction).reverse ++ seen) =
        l.whole.reverse ++ seen := by simp [h.point hpoint]
    rw [hbefore, hdrop, htake]
    split
    · cases hseen
    · simp [hseen]

/-- A number with a digit before the point is solid. -/
theorem solid_literal {l : Literal} (h : l.WellFormed) (hfirst : l.whole ≠ []) : Solid l.chars := by
  obtain ⟨c, cs, hcs, -⟩ := h.head
  refine solid_of_not_isJoint (by simp [hcs]) h.not_isJoint fun seen hseen => ?_
  have hdigit {ds : List Char} (hds : ds.all isDigit) : ∀ c ∈ ds, isDigit c ∨ c = '.' :=
    fun c hc => .inl (List.all_eq_true.1 hds c hc)
  have hfront : ∀ c ∈ l.whole ++ (if l.point then ['.'] else []) ++ l.fraction, isDigit c ∨ c = '.' := by
    intro c hc
    simp only [List.mem_append] at hc
    rcases hc with (hc | hc) | hc
    · exact hdigit h.whole c hc
    · split at hc <;> simp_all
    · exact hdigit h.fraction c hc
  obtain ⟨hplus, hminus⟩ := sign_not_mem_of_digits hfront
  have hplain : ∀ c ∈ l.whole ++ (if l.point then ['.'] else []) ++ l.fraction, isPlain c := by
    intro c hc
    rcases hfront c hc with hd | rfl
    · exact isPlain_of_not_isJoint (isJoint_of_isDigit hd)
    · rfl
  rw [Literal.chars, unsplit_append, unsplit_of_not_mem hplus hminus, foldl_depthAfter_plain hplain,
    Bool.true_and]
  cases hexp : l.exponent with
  | none => rfl
  | some p =>
    obtain ⟨e, sign, digits⟩ := p
    obtain ⟨he, hsign, -, hdigits⟩ := h.exponent e sign digits hexp
    obtain ⟨hplus, hminus⟩ := sign_not_mem_of_digits (hdigit hdigits)
    have hafter := afterExponent_digits h hfirst he hseen
    have hletter : (e == '+' || e == '-') = false ∧ depthAfter 0 e = 0 := by
      rcases he with rfl | rfl <;> exact ⟨rfl, rfl⟩
    dsimp only
    rw [unsplit, hletter.1, hletter.2]
    rcases hsign with rfl | rfl | rfl
    · simpa using unsplit_of_not_mem hplus hminus 0 _
    all_goals
      rw [Option.toList_some, List.singleton_append, unsplit, hafter]
      simpa using unsplit_of_not_mem hplus hminus _ _

/-! ## Leaves as they are printed -/

/-- The text of a leaf. -/
def leafChars : Expr → List Char
  | .const c => (printConstant c).toList
  | .var n => n.toList
  | .index t => if isIdentifier t then t.toList else '(' :: t.toList ++ [')']
  | _ => []

variable {ctx : Context} {whole : List Char}

/-- The printer writes a leaf as its text. -/
theorem printExpr_leaf {l : Expr} (h : Leaf ctx whole l) (names : PrintContext) :
    printExpr names l = .ok (String.ofList (leafChars l)) := by
  cases h with
  | number x => simp [Expr.number, printExpr, leafChars]
  | runtime | name | verbatim => simp [printExpr, leafChars]
  | @index cs =>
    rw [printExpr, leafChars]
    split
    · rw [String.ofList_toList]
    · rw [ofList_paren, String.ofList_toList]

/-- The text of a number: a literal with a digit before the point, or a negative one in parentheses. -/
theorem leafChars_number {x : Float} (hx : IsFinite x) : ∃ l : Literal, l.WellFormed ∧ l.whole ≠ [] ∧
    (leafChars (.number x) = l.chars ∧ numberChars x = l.chars ∨
      ∃ n, leafChars (.number x) = '(' :: numberChars x ++ [')'] ∧ numberChars x = signed n l.chars) := by
  obtain ⟨n, l, hl, hfirst, htext, hneg⟩ := exists_literal_numberChars hx
  refine ⟨l, hl, hfirst, ?_⟩
  rw [Expr.number, leafChars, printConstant]
  split
  · exact .inr ⟨n, by simp [numberText], htext⟩
  · next hpos =>
    cases n with
    | true => exact absurd (hneg rfl) hpos
    | false => exact .inl ⟨by rw [numberText, String.toList_ofList]; exact htext, htext⟩

theorem balanced_numberChars (x : Float) : balanced (numberChars x) :=
  balanced_of_plain fun c hc => isPlain_of_not_isJoint ((spells_numberChars x).not_isJoint c hc)

theorem square_not_mem_numberChars (x : Float) : '[' ∉ numberChars x := fun hmem => by
  cases (spells_numberChars x).not_isJoint _ hmem

theorem square_not_mem {cs : List Char} (h : (tokens? cs).isSome) : '[' ∉ cs := by
  obtain ⟨ts, hts⟩ := Option.isSome_iff_exists.1 h
  exact not_mem_of_tokens? hts rfl rfl rfl

/-- Constants that are read back: finite and not negative zero. -/
def Readable (e : Expr) : Prop :=
  ∀ x, e = .number x → IsFinite x ∧ isNegativeZero x = false

/-- **The text of a leaf is solid.** -/
theorem Leaf.solid (hctx : ctx.WellNamed) {l : Expr} (h : Leaf ctx whole l) (hread : Readable l) :
    Solid (leafChars l) := by
  cases h with
  | number x =>
    obtain ⟨l, hl, hfirst, ⟨htext, -⟩ | ⟨-, htext, -⟩⟩ := leafChars_number (hread x rfl).1
    · rw [htext]
      exact solid_literal hl hfirst
    · rw [htext]
      exact solid_paren (balanced_numberChars x) (square_not_mem_numberChars x)
  | runtime hv => exact solid_name (hctx.runtimeVars _ hv)
  | name hn => exact solid_name hn
  | verbatim hv =>
    rw [leafChars, String.toList_ofList]
    exact solid_paren hv.balanced (square_not_mem hv.tokens)
  | index hi =>
    rw [leafChars]
    split
    · next hname => exact solid_name hname
    · rw [String.toList_ofList]
      exact solid_paren hi.balanced (square_not_mem hi.tokens)

/-! ## Reading a leaf -/

theorem literal?_paren (cs : List Char) : literal? ('(' :: cs ++ [')']) = none := by
  have hscan := scan?_eq_none (c := '(') rfl (by decide) (cs ++ [')'])
  rw [literal?, trim_paren, signedLiteral?]
  · rw [List.cons_append, Literal.ofChars?, hscan]
    rfl
  · simp
  · simp

theorem literal?_name {cs : List Char} (h : isName cs) : literal? cs = none := by
  rw [literal?, (solid_name h).trimmed]
  cases cs with
  | nil => cases h
  | cons c cs =>
    have hc := (Bool.and_eq_true_iff.1 h).1
    rw [signedLiteral?, Literal.ofChars?, scan?_eq_none_of_isNameStart hc]
    · rfl
    · rintro r ⟨⟩
      cases hc
    · rintro r ⟨⟩
      cases hc

/-- What stands in parentheses is no runtime variable. -/
theorem runtimeVars_paren (hctx : ctx.WellNamed) (cs : List Char) :
    ctx.runtimeVars.contains (String.ofList ('(' :: cs ++ [')'])) = false := by
  rw [← Bool.not_eq_true, List.contains_iff_mem]
  intro hmem
  have hname := hctx.runtimeVars _ hmem
  rw [isIdentifier, String.toList_ofList] at hname
  cases hname

theorem any_namesIn_paren (cs : List Char) :
    (namesIn (String.ofList ('(' :: cs ++ [')']))).any ctx.indices.contains =
      (namesIn (String.ofList cs)).any ctx.indices.contains := by
  rw [Bool.eq_iff_iff, any_namesIn, any_namesIn, String.toList_ofList, String.toList_ofList,
    pieceNames_paren]

section
variable {fuel : Nat} {cs : List Char} {e : Expr}

/-- A runtime variable is read as such. -/
theorem factorWithin_runtime (hliteral : literal? cs = none)
    (hrun : ctx.runtimeVars.contains (String.ofList cs) = true) :
    factorWithin ctx (fuel + 1) cs = .ok (.var (String.ofList cs)) := by
  unfold factorWithin
  simp only [hliteral, hrun, if_true]

/-- Index arithmetic is kept without its parentheses. -/
theorem factorWithin_index (hliteral : literal? cs = none)
    (hrun : ctx.runtimeVars.contains (String.ofList cs) = false)
    (hindex : (namesIn (String.ofList cs)).any ctx.indices.contains = true)
    (htokens : (tokens? (unwrap cs)).isSome) :
    factorWithin ctx (fuel + 1) cs = .ok (.index (String.ofList (unwrap cs))) := by
  unfold factorWithin
  simp only [hliteral, hrun, hindex, Bool.false_eq_true, if_false, if_true, checkTokens_eq_ok.2 htokens]
  rfl

/-- A text without index names, parentheses around it and a sign in front is kept. -/
theorem factorWithin_kept (hliteral : literal? cs = none)
    (hrun : ctx.runtimeVars.contains (String.ofList cs) = false)
    (hindex : (namesIn (String.ofList cs)).any ctx.indices.contains = false)
    (hwrapped : isWrapped cs = false) (hsign : cs.head? ≠ some '-') (htokens : (tokens? cs).isSome) :
    factorWithin ctx (fuel + 1) cs =
      .ok (.var (if isName cs then String.ofList cs else String.ofList ('(' :: cs ++ [')']))) := by
  unfold factorWithin
  simp only [hliteral, hrun, hindex, hwrapped, Bool.false_eq_true, if_false]
  split
  · exact absurd rfl hsign
  · rw [checkTokens_eq_ok.2 htokens, ofList_paren, isIdentifier, String.toList_ofList]
    rfl

/-- A product of one factor is the factor. -/
theorem coeffWithin_factor (hne : cs ≠ []) (htrim : trim cs = cs) (huncut : uncut '*' 0 cs)
    (h : factorWithin ctx (fuel + 1) cs = .ok e) : coeffWithin ctx (fuel + 3) cs = .ok e := by
  rw [coeffWithin, htrim, splitTop_of_uncut huncut, htrim, factorsWithin, if_neg (by simpa using hne), h]
  rfl

/-- A factor in parentheses is the factor, if it has no index names. -/
theorem factorWithin_paren (hctx : ctx.WellNamed) (hne : cs ≠ []) (htrim : trim cs = cs)
    (huncut : uncut '*' 0 cs) (hbal : balanced cs)
    (hindex : (namesIn (String.ofList cs)).any ctx.indices.contains = false)
    (h : factorWithin ctx (fuel + 1) cs = .ok e) :
    factorWithin ctx (fuel + 4) ('(' :: cs ++ [')']) = .ok e := by
  have hcoeff := coeffWithin_factor hne htrim huncut h
  unfold factorWithin
  simp only [literal?_paren, runtimeVars_paren hctx, any_namesIn_paren, hindex, isWrapped_paren hbal,
    peel_paren, if_true, Bool.false_eq_true, if_false, hcoeff]

end

/-- A name is one token. -/
theorem tokens?_name {cs : List Char} (h : isName cs) :
    tokens? cs = some [.name (String.ofList cs)] := by
  cases cs with
  | nil => cases h
  | cons c cs =>
    obtain ⟨hc, hcs⟩ := Bool.and_eq_true_iff.1 h
    have hblank := isBlank_of_isWord (c := c) (by simp [isWord, hc])
    have htake : cs.takeWhile isWord = cs := List.takeWhile_eq_self_iff.2 (List.all_eq_true.1 hcs)
    have hdrop : cs.dropWhile isWord = [] := List.dropWhile_eq_nil_iff.2 (List.all_eq_true.1 hcs)
    have hfirst : Token.first? (c :: cs) = some (.name (String.ofList (c :: cs)), []) := by
      simp [Token.first?, scan?_eq_none_of_isNameStart hc, hc, htake, hdrop]
    rw [tokens?_first hblank hfirst]
    rfl

theorem not_isWrapped_name {cs : List Char} (h : isName cs) : isWrapped cs = false := by
  rw [← Bool.not_eq_true]
  intro hw
  rw [eq_paren_of_isWrapped hw] at h
  cases h

/-- There are no parentheses around a name. -/
theorem unwrap_name {cs : List Char} (h : isName cs) : unwrap cs = cs := by
  have hlen : cs.length = cs.length - 1 + 1 := by
    have := List.length_pos_iff.2 (solid_name h).ne_nil
    omega
  rw [unwrap, (solid_name h).trimmed, hlen, unwrapWithin, if_neg (by simp [not_isWrapped_name h])]

theorem sign_of_name {cs : List Char} (h : isName cs) : cs.head? ≠ some '-' := by
  intro hhead
  obtain ⟨rest, rfl⟩ := List.head?_eq_some_iff.1 hhead
  cases h

/-- **A leaf is read back from its text.** -/
theorem Leaf.reads (hctx : ctx.WellNamed) {l : Expr} (h : Leaf ctx whole l) (hread : Readable l)
    (fuel : Nat) : factorWithin ctx (fuel + 4) (leafChars l) = .ok l := by
  cases h with
  | number x =>
    obtain ⟨hfinite, hzero⟩ := hread x rfl
    obtain ⟨hhead, hlast⟩ := ends_of_not_isJoint (spells_numberChars x).not_isJoint
    have htrim := trim_eq_self hhead hlast
    have hliteral : literal? (numberChars x) = some x := by
      rw [literal?, htrim]
      exact (spells_numberChars x).signedLiteral?_eq hfinite hzero
    have hnumber (fuel : Nat) : factorWithin ctx (fuel + 1) (numberChars x) = .ok (.number x) := by
      simp only [factorWithin, hliteral]
    obtain ⟨l, hl, -, ⟨htext, hchars⟩ | ⟨n, htext, hchars⟩⟩ := leafChars_number hfinite
    · rw [htext, ← hchars]
      exact hnumber (fuel + 3)
    · have hnames : (namesIn (String.ofList (numberChars x))).any ctx.indices.contains = false := by
        have hnone : pieceNames (numberChars x) = [] := by
          rw [hchars]
          cases n with
          | false => exact pieceNames_literal hl
          | true =>
            refine (pieceNames_append (c := '-') rfl (by decide) [] l.chars).trans ?_
            rw [pieceNames_literal hl]
            rfl
        rw [← Bool.not_eq_true, any_namesIn, String.toList_ofList, hnone]
        simp
      rw [htext]
      exact factorWithin_paren hctx (spells_numberChars x).ne_nil htrim
        (uncut_of_not_mem (fun hmem => by cases (spells_numberChars x).not_isJoint _ hmem) 0)
        (balanced_numberChars x) hnames (hnumber fuel)
  | @runtime v hv =>
    have hread : factorWithin ctx (fuel + 4) v.toList = _ :=
      factorWithin_runtime (literal?_name (hctx.runtimeVars _ hv)) (by simpa using hv)
    rwa [String.ofList_toList] at hread
  | @name n hn hrun hindex =>
    have hnames : (namesIn (String.ofList n.toList)).any ctx.indices.contains = false := by
      rwa [← Bool.not_eq_true, String.ofList_toList, any_namesIn_name hn]
    have hkept : factorWithin ctx (fuel + 4) n.toList = _ :=
      factorWithin_kept (literal?_name hn) (by simpa using hrun) hnames (not_isWrapped_name hn)
        (sign_of_name hn) (by rw [tokens?_name hn]; rfl)
    rw [isIdentifier] at hn
    rwa [if_pos hn, String.ofList_toList] at hkept
  | @verbatim cs hv =>
    have hrun : ctx.runtimeVars.contains (String.ofList cs) = false := by
      rw [← Bool.not_eq_true, List.contains_iff_mem]
      intro hmem
      have hname := hctx.runtimeVars _ hmem
      rw [isIdentifier, String.toList_ofList, hv.unnamed] at hname
      cases hname
    have hkept : factorWithin ctx (fuel + 1) cs = _ :=
      factorWithin_kept hv.literal hrun hv.unindexed hv.unwrapped hv.unsigned hv.tokens
    rw [hv.unnamed, if_neg (by decide)] at hkept
    rw [leafChars, String.toList_ofList]
    exact factorWithin_paren hctx hv.ne_nil hv.trimmed hv.uncut hv.balanced hv.unindexed hkept
  | @index cs hi =>
    rw [leafChars, String.toList_ofList]
    split
    · next hname =>
      have hmem := (any_namesIn_name hname).1 hi.indexed
      have hrun : ctx.runtimeVars.contains (String.ofList cs) = false := by
        rw [← Bool.not_eq_true, List.contains_iff_mem]
        exact fun hv => hctx.disjoint _ hv hmem
      rw [isIdentifier, String.toList_ofList] at hname
      have hread : factorWithin ctx (fuel + 4) cs = _ :=
        factorWithin_index (literal?_name hname) hrun hi.indexed (by rw [unwrap_name hname]; exact hi.tokens)
      rwa [unwrap_name hname] at hread
    · have hunwrap := unwrap_paren hi.balanced hi.trimmed hi.unwrapped
      have hread : factorWithin ctx (fuel + 4) ('(' :: cs ++ [')']) = _ :=
        factorWithin_index (literal?_paren cs) (runtimeVars_paren hctx cs)
          (by rw [any_namesIn_paren]; exact hi.indexed) (by rw [hunwrap]; exact hi.tokens)
      rwa [hunwrap] at hread

/-! ## Factors with stars between them -/

/-- Texts with stars between them. -/
def starred (ts : List (List Char)) : List Char :=
  [' ', '*', ' '].intercalate ts

theorem starred_append {as bs : List (List Char)} (ha : as ≠ []) (hb : bs ≠ []) :
    starred (as ++ bs) = starred as ++ [' ', '*', ' '] ++ starred bs :=
  intercalate_append ha hb

theorem Unbroken.star {a b : List Char} (ha : Unbroken a) (hb : Unbroken b) :
    Unbroken (a ++ [' ', '*', ' '] ++ b) where
  ne_nil := by simp
  head := by
    rw [List.append_assoc, List.head?_append_of_ne_nil _ ha.ne_nil]
    exact ha.head
  last := by
    rw [List.getLast?_append_of_ne_nil _ hb.ne_nil]
    exact hb.last
  balanced := by
    rw [List.append_assoc, balanced_append ha.balanced]
    exact hb.balanced
  square := by
    simp [ha.square, hb.square]
  unsplit seen hseen := by
    rw [List.append_assoc, unsplit_append, ha.unsplit seen hseen, foldl_depthAfter_balanced ha.balanced]
    exact hb.unsplit _ rfl

theorem unbroken_starred {ts : List (List Char)} (hne : ts ≠ []) (h : ∀ t ∈ ts, Unbroken t) :
    Unbroken (starred ts) := by
  rw [starred]
  induction ts with
  | nil => exact absurd rfl hne
  | cons t ts ih =>
    cases ts with
    | nil =>
      rw [List.intercalate_singleton]
      exact h t (by simp)
    | cons t' ts =>
      rw [List.intercalate_cons_cons]
      exact (h t (by simp)).star (ih (by simp) fun u hu => h u (by simp [hu]))

/-- **Solid texts with stars between them are cut apart again.** -/
theorem splitTop_starred {ts : List (List Char)} (hne : ts ≠ []) (h : ∀ t ∈ ts, Solid t) :
    splitTop '*' (starred ts) = ts :=
  splitTop_intercalate (by decide) (.inr rfl) hne fun t ht =>
    ⟨(h t ht).uncut, (h t ht).balanced, (h t ht).trimmed⟩

theorem length_le_starred {ts : List (List Char)} (h : ∀ t ∈ ts, t ≠ []) :
    ts.length ≤ (starred ts).length := by
  rw [starred]
  induction ts with
  | nil => exact Nat.zero_le _
  | cons t ts ih =>
    have ht := List.length_pos_iff.2 (h t (by simp))
    have ih := ih fun u hu => h u (by simp [hu])
    cases ts with
    | nil =>
      rw [List.intercalate_singleton]
      exact ht
    | cons u us =>
      simp only [List.intercalate_cons_cons, List.length_append, List.length_cons] at ih ⊢
      omega

/-! ## Coefficients -/

theorem factors_ne_nil (e : Expr) : e.factors ≠ [] := by
  fun_induction Expr.factors e with
  | case1 l r ihl ihr => simp [ihl]
  | case2 => simp

/-- The printer writes a product as its factors with stars between them. -/
theorem printExpr_product {names : PrintContext} {e : Expr} (h : ∀ l ∈ e.factors, Leaf ctx whole l) :
    printExpr names e = .ok (String.ofList (starred (e.factors.map leafChars))) := by
  fun_induction Expr.factors e with
  | case1 l r ihl ihr =>
    obtain ⟨hl, hr⟩ := List.forall_mem_append.1 h
    rw [printExpr, ihl hl, ihr hr, List.map_append, starred_append (by simpa using factors_ne_nil l)
      (by simpa using factors_ne_nil r)]
    refine congrArg Except.ok ?_
    apply String.toList_inj.1
    simp
  | case2 e =>
    rw [List.map_singleton, starred, List.intercalate_singleton]
    exact printExpr_leaf (h e (by simp)) names

/-- The factors are read one after the other. -/
theorem factorsWithin_leaves (hctx : ctx.WellNamed) {ls : List Expr} (hls : ∀ l ∈ ls, Leaf ctx whole l)
    (hread : ∀ l ∈ ls, Readable l) (fuel : Nat) (text : List Char) (e : Expr) :
    factorsWithin ctx (fuel + 4 + ls.length) text (some e) (ls.map leafChars) =
      .ok (ls.foldl (.binop .mul) e) := by
  induction ls generalizing e with
  | nil => rfl
  | cons l ls ih =>
    have hl := hls l (by simp)
    have hne := (hl.solid hctx (hread l (by simp))).ne_nil
    have hfactor : factorWithin ctx (fuel + 4 + ls.length) (leafChars l) = .ok l := by
      rw [Nat.add_right_comm]
      exact hl.reads hctx (hread l (by simp)) (fuel + ls.length)
    rw [List.length_cons, ← Nat.add_assoc, List.map_cons, factorsWithin, if_neg (by simpa using hne), hfactor]
    exact ih (fun m hm => hls m (by simp [hm])) (fun m hm => hread m (by simp [hm])) (.binop .mul e l)

/-- **The text of a product is read as the product of its factors, from left to right.** -/
theorem parseCoeff_starred (hctx : ctx.WellNamed) {e : Expr} (h : ∀ l ∈ e.factors, Leaf ctx whole l)
    (hread : ∀ l ∈ e.factors, Readable l) :
    parseCoeff ctx (starred (e.factors.map leafChars)) = .ok e.leftNested := by
  have hsolid : ∀ t ∈ e.factors.map leafChars, Solid t :=
    List.forall_mem_map.2 fun l hl => (h l hl).solid hctx (hread l hl)
  have hne : e.factors.map leafChars ≠ [] := by simpa using factors_ne_nil e
  have hlen := length_le_starred fun t ht => (hsolid t ht).ne_nil
  rw [parseCoeff, coeffWithin, (unbroken_starred hne fun t ht => (hsolid t ht).toUnbroken).trimmed,
    splitTop_starred hne hsolid, Expr.leftNested]
  generalize starred (e.factors.map leafChars) = text at hlen
  cases hfactors : e.factors with
  | nil => exact absurd hfactors (factors_ne_nil e)
  | cons f fs =>
    rw [hfactors] at h hread hlen
    obtain ⟨hf, hfs⟩ := List.forall_mem_cons.1 h
    obtain ⟨hreadf, hreadfs⟩ := List.forall_mem_cons.1 hread
    rw [List.length_map, List.length_cons] at hlen
    obtain ⟨fuel, hfuel⟩ : ∃ fuel, 3 * text.length + 3 = fuel + 4 + fs.length + 1 :=
      ⟨3 * text.length - fs.length - 2, by omega⟩
    have hfactor : factorWithin ctx (fuel + 4 + fs.length) (leafChars f) = .ok f := by
      rw [Nat.add_right_comm]
      exact hf.reads hctx hreadf (fuel + fs.length)
    rw [hfuel, List.map_cons, factorsWithin, if_neg (by simpa using (hf.solid hctx hreadf).ne_nil), hfactor]
    exact factorsWithin_leaves hctx hfs hreadfs fuel text f

end RuleText

end RecurrenceCompiler
