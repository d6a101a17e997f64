import RecurrenceCompiler.RuleText.Parser
import RecurrenceCompiler.Expr.Eval
import RecurrenceCompiler.Proofs.Arith.Sentence
import RecurrenceCompiler.Proofs.Arith.Exact

/-!
# The meaning of coefficients

A coefficient is cut at its top-level stars, its enclosing parentheses are taken off, and so is a
minus sign in front of a factor. None of this follows the grammar of arithmetic, where a sum binds
more weakly than a star and a minus sign binds more strongly than both.

* `parsed_eval_of_grouped`: over exact arithmetic the parsed coefficient has the value of its text, as
  long as the text is a product wherever it is cut at a star or loses a minus sign (`CoeffGrouped`).
* `parsed_eval_needs_grouped`: without that, `x - y*x` is read as `(x - y)*x`.
-/

namespace RecurrenceCompiler.RuleText

open Text Decimal Arith

/-! ## Brackets of a text and of its tokens -/

/-- A character that is no joint is no bracket. -/
theorem depthAfter_of_not_isJoint {c : Char} (h : isJoint c = false) (d : Int) :
    depthAfter d c = d := by
  have ho : isOpening c = false := by
    simp only [isOpening, Bool.or_eq_false_iff, beq_eq_false_iff_ne]
    constructor <;> rintro rfl <;> contradiction
  have hc : isClosing c = false := by
    simp only [isClosing, Bool.or_eq_false_iff, beq_eq_false_iff_ne]
    constructor <;> rintro rfl <;> contradiction
  simp [depthAfter, ho, hc]

/-- A blank is no bracket. -/
theorem depthAfter_of_isBlank {c : Char} (h : isBlank c) (d : Int) : depthAfter d c = d := by
  have ho : isOpening c = false := by
    simp only [isOpening, Bool.or_eq_false_iff, beq_eq_false_iff_ne]
    constructor <;> rintro rfl <;> contradiction
  have hc : isClosing c = false := by
    simp only [isClosing, Bool.or_eq_false_iff, beq_eq_false_iff_ne]
    constructor <;> rintro rfl <;> contradiction
  simp [depthAfter, ho, hc]

/-- A run without joints has no brackets. -/
theorem foldl_depthAfter_of_not_isJoint {cs : List Char} (h : ∀ c ∈ cs, isJoint c = false)
    (d : Int) : cs.foldl depthAfter d = d := by
  induction cs with
  | nil => rfl
  | cons c cs ih =>
    rw [List.foldl_cons, depthAfter_of_not_isJoint (h c (by simp))]
    exact ih fun e he => h e (by simp [he])

/-- The brackets that the characters of a token open and close. -/
theorem foldl_depthAfter_lexeme {t : Token} {lex : List Char} (h : Lexeme t lex) (d : Int) :
    lex.foldl depthAfter d = d + nesting [t] := by
  cases t with
  | op o =>
    cases h
    cases o <;> simp [nesting, depthAfter, Op.char, isOpening, isClosing]; rfl
  | num x => exact (foldl_depthAfter_of_not_isJoint (h.not_isJoint (by simp)) d).trans (by simp [nesting])
  | name n => exact (foldl_depthAfter_of_not_isJoint (h.not_isJoint (by simp)) d).trans (by simp [nesting])

/-- **The brackets of a text are the parentheses of its tokens.** -/
theorem foldl_depthAfter {cs : List Char} {ts : List Token} (h : tokens? cs = some ts) (d : Int) :
    cs.foldl depthAfter d = d + nesting ts := by
  refine tokens?_induction (P := fun cs ts => ∀ d, cs.foldl depthAfter d = d + nesting ts)
    ?_ ?_ ?_ h d
  · intro d
    simp [nesting]
  · intro c cs ts hc _ ih d
    rw [List.foldl_cons, depthAfter_of_isBlank hc, ih]
  · intro lex rest t ts hlex _ _ ih d
    rw [List.foldl_append, foldl_depthAfter_lexeme hlex, ih, ← List.singleton_append (l := ts),
      nesting_append]
    omega

/-! ## Cutting at stars -/

/-- There is at least one piece. -/
theorem splitTopFrom_ne_nil {sep : Char} : ∀ {depth : Int} {cur cs : List Char},
    splitTopFrom sep depth cur cs ≠ []
  | _, _, [] => by simp [splitTopFrom]
  | _, _, _ :: _ => by
    rw [splitTopFrom]
    split
    · simp
    · exact splitTopFrom_ne_nil

/-- A text without a top-level separator is one piece. -/
theorem splitTopFrom_of_length {sep : Char} : ∀ {depth : Int} {cur cs : List Char},
    (splitTopFrom sep depth cur cs).length = 1 →
    splitTopFrom sep depth cur cs = [trim (cur.reverse ++ cs)]
  | _, cur, [], _ => by simp [splitTopFrom]
  | depth, cur, c :: cs, h => by
    rw [splitTopFrom] at h ⊢
    split
    · next hc =>
      rw [if_pos hc, List.length_cons] at h
      exact absurd (List.length_eq_zero_iff.1 (Nat.succ.inj h)) splitTopFrom_ne_nil
    · next hc =>
      rw [if_neg hc] at h
      rw [splitTopFrom_of_length h]
      simp

/-! ## Taking off parentheses -/

/-- A joint that is neither blank nor an operator is no token. -/
theorem not_mem_of_tokens? {cs : List Char} {ts : List Token} (h : tokens? cs = some ts) {c : Char}
    (hjoint : isJoint c) (hblank : isBlank c = false) (hop : Op.ofChar? c = none) : c ∉ cs := by
  intro hmem
  obtain ⟨a, b, rfl⟩ := List.append_of_mem hmem
  have hnone : tokens? (c :: b) = none := by
    have hscan : Literal.scan? (c :: b) = none :=
      scan?_eq_none (isDigit_of_isJoint hjoint) (by rintro rfl; cases hjoint) b
    refine tokens?_none hblank ?_
    simp [Token.first?, hscan, isNameStart_of_isJoint hjoint, hop]
  rw [tokens?_append hjoint, hnone] at h
  cases hts : tokens? a <;> simp [hts] at h

/-- Where one pair of parentheses encloses a text, the first one is open at every place inside. -/
theorem closesLast_open : ∀ {a b : List Char} {d : Int}, closesLast d (a ++ b) = true → a ≠ [] →
    b ≠ [] → '[' ∉ a → ']' ∉ a → a.foldl depthAfter d ≠ 0
  | [], _, _, _, ha, _, _, _ => absurd rfl ha
  | c :: a, b, d, h, _, hb, ho, hc => by
    have hstep : (if c == '(' then d + 1 else if c == ')' then d - 1 else d) = depthAfter d c := by
      have hcs : c ≠ '[' ∧ c ≠ ']' :=
        ⟨fun h => ho (h ▸ List.mem_cons_self), fun h => hc (h ▸ List.mem_cons_self)⟩
      simp [depthAfter, isOpening, isClosing, hcs]
    rw [List.cons_append, closesLast, hstep] at h
    rw [List.foldl_cons]
    split at h
    · cases h
    · next hne =>
      rcases a with _ | ⟨e, a⟩
      · simpa [hb] using hne
      · exact closesLast_open h (by simp) hb (by simp_all) (by simp_all)

/-- A wrapped text is its inside in parentheses. -/
theorem eq_paren_of_isWrapped {cs : List Char} (h : isWrapped cs) : cs = '(' :: peel cs ++ [')'] := by
  simp only [isWrapped, Bool.and_eq_true, beq_iff_eq] at h
  obtain ⟨⟨hhead, hlast⟩, -⟩ := h
  obtain ⟨rest, rfl⟩ := List.head?_eq_some_iff.1 hhead
  rcases List.eq_nil_or_concat rest with rfl | ⟨m, c, rfl⟩
  · cases hlast
  · rw [List.concat_eq_append, ← List.cons_append, List.getLast?_concat] at hlast
    obtain rfl := Option.some.inj hlast
    simp [peel]

/-- **Parentheses around a whole text leave no trace in its tree.** -/
theorem derives_peel {cs : List Char} {ts : List Token} {t : Tree} (hw : isWrapped cs)
    (hts : tokens? cs = some ts) (ht : Derives .expr ts [t]) :
    ∃ ms, tokens? (peel cs) = some ms ∧ Derives .expr ms [t] := by
  have hclose : closesLast 0 cs = true := by
    simp only [isWrapped, Bool.and_eq_true] at hw
    exact hw.2
  have hcs := eq_paren_of_isWrapped hw
  obtain ⟨ms, hms⟩ : ∃ ms, tokens? (peel cs) = some ms := by
    rw [hcs] at hts
    obtain ⟨rest, hrest, -⟩ := Option.map_eq_some_iff.1 ((tokens?_op .left _).symm.trans hts)
    obtain ⟨ms, _, hms, -⟩ := (tokens?_cut (o := .right) rfl).1 hrest
    exact ⟨ms, hms⟩
  have hparen := tokens?_paren hms
  rw [← hcs, hts] at hparen
  refine ⟨ms, hms, ht.unwrap (by simp) rfl (Option.some.inj hparen) fun p q hpq hp hq => ?_⟩
  obtain ⟨a, b, rfl, ha, hb⟩ := exists_cut_of_tokens? hts p q hpq
  have hopen := closesLast_open hclose (by rintro rfl; exact hp (by simpa using ha.symm))
    (by rintro rfl; exact hq (by simpa using hb.symm)) (not_mem_of_tokens? ha rfl rfl rfl)
    (not_mem_of_tokens? ha rfl rfl rfl)
  rw [foldl_depthAfter ha] at hopen
  omega

/-- **Parentheses around a whole text do not change its value.** -/
theorem hasValue_peel {α : Type} [Carrier α] {env : Env α} {cs : List Char} {v : α}
    (hw : isWrapped cs) (h : HasValue env cs v) : HasValue env (peel cs) v := by
  obtain ⟨ts, t, hts, ht, hv⟩ := h
  obtain ⟨ms, hms, hm⟩ := derives_peel hw hts ht
  exact ⟨ms, t, hms, hm, hv⟩

/-- Taking off all parentheses and blanks does not change the value. -/
theorem hasValue_unwrap {α : Type} [Carrier α] {env : Env α} {cs : List Char} {v : α}
    (h : HasValue env cs v) : HasValue env (unwrap cs) v := by
  have hwithin : ∀ (fuel : Nat) {cs : List Char}, HasValue env cs v →
      HasValue env (unwrapWithin fuel cs) v := by
    intro fuel
    induction fuel with
    | zero => exact id
    | succ fuel ih =>
      intro cs h
      rw [unwrapWithin]
      split
      · next hw => exact ih (hasValue_trim.2 (hasValue_peel hw h))
      · exact h
  exact hwithin _ (hasValue_trim.2 h)

/-! ## Products -/

/-- A text that is a product: no sign outside its parentheses separates two terms of a sum. -/
def IsProduct (cs : List Char) : Prop :=
  ∃ ts t, tokens? cs = some ts ∧ Derives .term ts [t]

/-- A product that has a value has it as a product. -/
theorem IsProduct.hasProduct {α : Type} [Carrier α] {env : Env α} {cs : List Char} {v : α}
    (h : IsProduct cs) (hv : HasValue env cs v) :
    ∃ ts, tokens? cs = some ts ∧ HasProduct env ts v := by
  obtain ⟨ts, t, hts, ht⟩ := h
  obtain ⟨us, u, hus, hu, huv⟩ := hv
  obtain rfl := Option.some.inj (hts.symm.trans hus)
  refine ⟨ts, hts, t, ht, ?_⟩
  rw [← evalTokens_of_derives env (.ofTerm ht), evalTokens_of_derives env hu, huv]

/-- What has a value as a product has it. -/
theorem hasValue_of_hasProduct {α : Type} [Carrier α] {env : Env α} {cs : List Char}
    {ts : List Token} {v : α} (hts : tokens? cs = some ts)
    (h : HasProduct env ts v) : HasValue env cs v := by
  obtain ⟨t, ht, hv⟩ := h
  exact ⟨ts, t, hts, .ofTerm ht, hv⟩

section

variable {K : Type} [Field K] [Carrier K] [FieldCarrier K] {env : Env K}

/-- **A product is the product of the pieces between its top-level stars.** -/
theorem splitTopFrom_product : ∀ {cs cur : List Char} {ts : List Token} {v : K},
    tokens? (cur.reverse ++ cs) = some ts → HasProduct env ts v →
    ∃ xs : List K, List.Forall₂ (fun f x => ∃ us, tokens? f = some us ∧ HasProduct env us x)
      (splitTopFrom '*' (cur.reverse.foldl depthAfter 0) cur cs) xs ∧ v = xs.prod
  | [], cur, ts, v, hts, hv => by
    rw [List.append_nil] at hts
    exact ⟨[v], .cons ⟨ts, by rwa [tokens?_trim], hv⟩ .nil, by simp⟩
  | c :: cs, cur, ts, v, hts, hv => by
    rw [splitTopFrom]
    split
    · next hc =>
      obtain ⟨hdepth, rfl⟩ : cur.reverse.foldl depthAfter 0 = 0 ∧ c = '*' := by simpa using hc
      obtain ⟨as, bs, has, hbs, rfl⟩ := (tokens?_cut (o := .times) rfl).1 hts
      have hnest : nesting as = 0 := by
        have hfold := foldl_depthAfter has 0
        omega
      obtain ⟨t, ht, htv⟩ := hv
      obtain ⟨x, y, hx, hy, rfl⟩ := ht.cut_times rfl hnest htv
      obtain ⟨ys, hys, rfl⟩ := splitTopFrom_product (show tokens? ([].reverse ++ cs) = _ from hbs) hy
      exact ⟨x :: ys, .cons ⟨as, by rwa [tokens?_trim], hx⟩ hys, by simp⟩
    · have hcur : (c :: cur).reverse ++ cs = cur.reverse ++ c :: cs := by simp
      have hfold : (c :: cur).reverse.foldl depthAfter 0 =
          depthAfter (cur.reverse.foldl depthAfter 0) c := by simp
      rw [← hfold]
      exact splitTopFrom_product (by rwa [hcur]) hv

/-! ## Parsed coefficients -/

/-- A number has the value of its constant. -/
theorem hasValue_literal {cs : List Char} {x : Float} (h : literal? cs = some x) :
    HasValue env cs (Carrier.ofFloat x) := by
  rw [← hasValue_trim]
  unfold literal? signedLiteral? at h
  split at h
  · next r hr =>
    obtain ⟨l, hl, rfl⟩ := Option.map_eq_some_iff.1 h
    refine ⟨[.op .minus, .num l.value], _, ?_, .ofTerm (.ofUnary (.neg (.ofPrimary .num))), ?_⟩
    · exact hr ▸ (tokens?_op .minus r).trans (by rw [tokens?_literal hl]; rfl)
    · rw [FieldCarrier.ofFloat_neg, ← FieldCarrier.neg_eq]
      rfl
  · next r hr =>
    obtain ⟨l, hl, rfl⟩ := Option.map_eq_some_iff.1 h
    refine ⟨[.op .plus, .num l.value], _, ?_, .ofTerm (.ofUnary (.pos (.ofPrimary .num))), rfl⟩
    exact hr ▸ (tokens?_op .plus r).trans (by rw [tokens?_literal hl]; rfl)
  · obtain ⟨l, hl, rfl⟩ := Option.map_eq_some_iff.1 h
    exact ⟨_, _, tokens?_literal hl, .ofTerm (.ofUnary (.ofPrimary .num)), rfl⟩

/-- A coefficient with its sign changed has the opposite value. -/
theorem negate_eval {s : Scope K} {call : Call → Except Error K} {e : Expr} {v : K}
    (h : e.eval s call = .ok v) : (negate e).eval s call = .ok (-v) := by
  have hmul : ∀ e : Expr, e.eval s call = .ok v →
      (Expr.binop .mul (.number (-1.0)) e).eval s call = .ok (-v) := by
    intro e he
    have hone : (Carrier.ofFloat (-1.0) : K) = -1 := by
      rw [FieldCarrier.ofFloat_neg, FieldCarrier.ofFloat_one]
    rw [Expr.eval, Expr.number, Expr.eval, he]
    change Except.ok (Carrier.mul (Carrier.ofFloat (-1.0)) v) = _
    rw [hone, FieldCarrier.mul_eq, neg_one_mul]
  unfold negate
  split
  · next x =>
    rw [Expr.eval] at h
    cases h
    rw [Expr.number, Expr.eval, FieldCarrier.ofFloat_neg]
    rfl
  · exact hmul e h

/-- The value of the factors multiplied so far. -/
def ValueSoFar (s : Scope K) (call : Call → Except Error K) (acc : Option Expr) (y : K) : Prop :=
  match acc with
  | none => y = 1
  | some e => e.eval s call = .ok y

/-- One more factor. -/
theorem ValueSoFar.mul {s : Scope K} {call : Call → Except Error K} {acc : Option Expr} {e : Expr}
    {x y : K} (hacc : ValueSoFar s call acc y) (he : e.eval s call = .ok x) :
    ValueSoFar s call (some ((acc.map (.binop .mul · e)).getD e)) (y * x) := by
  cases acc with
  | none =>
    obtain rfl : y = 1 := hacc
    rw [one_mul]
    exact he
  | some a =>
    change (Expr.binop .mul a e).eval s call = .ok (y * x)
    rw [Expr.eval, show a.eval s call = .ok y from hacc, he, ← FieldCarrier.mul_eq]
    rfl

mutual

/-- A coefficient that is a product wherever it is cut at stars or loses a minus sign. -/
inductive CoeffGrouped (ctx : Context) : List Char → Prop
  | mk {cs} : ((splitTop '*' (trim cs)).length = 1 ∨ IsProduct cs) →
      (∀ f ∈ splitTop '*' (trim cs), FactorGrouped ctx f) → CoeffGrouped ctx cs

/-- A factor that is a product wherever it is cut at stars or loses a minus sign. Numbers, runtime
variables and factors that mention an index are not cut. -/
inductive FactorGrouped (ctx : Context) : List Char → Prop
  | number {cs x} : literal? cs = some x → FactorGrouped ctx cs
  | runtime {cs} : ctx.runtimeVars.contains (String.ofList cs) → FactorGrouped ctx cs
  | index {cs} : (namesIn (String.ofList cs)).any ctx.indices.contains → FactorGrouped ctx cs
  | wrapped {cs} : isWrapped cs → CoeffGrouped ctx (peel cs) → FactorGrouped ctx cs
  | negated {rest} : IsProduct ('-' :: rest) → FactorGrouped ctx (trim rest) →
      FactorGrouped ctx ('-' :: rest)
  | verbatim {cs} : isWrapped cs = false → cs.head? ≠ some '-' → FactorGrouped ctx cs

end

/-- A factor that is unwrapped is grouped inside. -/
theorem FactorGrouped.peel {ctx : Context} {cs : List Char} (h : FactorGrouped ctx cs)
    (hlit : literal? cs = none) (hrun : ¬ctx.runtimeVars.contains (String.ofList cs))
    (hidx : ¬(namesIn (String.ofList cs)).any ctx.indices.contains) (hw : isWrapped cs) :
    CoeffGrouped ctx (peel cs) := by
  cases h with
  | number hx => cases hlit.symm.trans hx
  | runtime hr => exact absurd hr hrun
  | index hi => exact absurd hi hidx
  | wrapped _ hc => exact hc
  | negated => cases hw
  | verbatim hn => exact absurd hw (by simp [hn])

/-- A factor that loses its minus sign is a product, and grouped without it. -/
theorem FactorGrouped.tail {ctx : Context} {rest : List Char} (h : FactorGrouped ctx ('-' :: rest))
    (hlit : literal? ('-' :: rest) = none)
    (hrun : ¬ctx.runtimeVars.contains (String.ofList ('-' :: rest)))
    (hidx : ¬(namesIn (String.ofList ('-' :: rest))).any ctx.indices.contains) :
    IsProduct ('-' :: rest) ∧ FactorGrouped ctx (trim rest) := by
  cases h with
  | number hx => cases hlit.symm.trans hx
  | runtime hr => exact absurd hr hrun
  | index hi => exact absurd hi hidx
  | wrapped hw _ => cases hw
  | negated hp ht => exact ⟨hp, ht⟩
  | verbatim _ hh => exact absurd rfl hh

/-- What is parsed within a bound has the value of its text, one field a function of the parser. -/
structure Faithful (ctx : Context) (s : Scope K) (call : Call → Except Error K) (fuel : Nat) :
    Prop where
  coeff : ∀ {cs e v}, coeffWithin ctx fuel cs = .ok e → CoeffGrouped ctx cs →
    HasValue s.value cs v → e.eval s call = .ok v
  factors : ∀ {whole acc fs e xs y}, factorsWithin ctx fuel whole acc fs = .ok e →
    (∀ f ∈ fs, FactorGrouped ctx f) → List.Forall₂ (HasValue s.value) fs xs →
    ValueSoFar s call acc y → e.eval s call = .ok (y * xs.prod)
  factor : ∀ {cs e v}, factorWithin ctx fuel cs = .ok e → FactorGrouped ctx cs →
    HasValue s.value cs v → e.eval s call = .ok v

omit [Field K] [FieldCarrier K] in
/-- Text that is kept has the value that it has. -/
theorem eval_text {s : Scope K} {call : Call → Except Error K} {cs : List Char} {v : K}
    (h : HasValue s.value cs v) :
    (Expr.var (String.ofList cs)).eval s call = .ok v ∧
      (Expr.index (String.ofList cs)).eval s call = .ok v := by
  simp only [Expr.eval, eval_ofList h]
  exact ⟨rfl, rfl⟩

/-- Text in parentheses, as a list of characters. -/
theorem ofList_paren (cs : List Char) :
    String.ofList ('(' :: cs ++ [')']) = "(" ++ String.ofList cs ++ ")" := by
  apply String.toList_inj.1
  simp

/-- One more level of nesting. -/
theorem faithful_succ {ctx : Context} {s : Scope K} {call : Call → Except Error K} {fuel : Nat}
    (ih : Faithful ctx s call fuel) : Faithful ctx s call (fuel + 1) where
  coeff := by
    intro cs e v h hg hv
    rw [coeffWithin] at h
    obtain ⟨hcut, hfs⟩ := hg
    rcases hcut with hone | hprod
    · have hsplit := splitTopFrom_of_length hone
      rw [List.reverse_nil, List.nil_append] at hsplit
      have hvalues : List.Forall₂ (HasValue s.value) (splitTop '*' (trim cs)) [v] := by
        rw [splitTop, hsplit]
        exact .cons (hasValue_trim.2 (hasValue_trim.2 hv)) .nil
      have hfacts := ih.factors h hfs hvalues (show ValueSoFar s call none 1 from rfl)
      simpa using hfacts
    · obtain ⟨ts, hts, hp⟩ := hprod.hasProduct hv
      have htrim : tokens? ([].reverse ++ trim cs) = some ts := (tokens?_trim cs).trans hts
      obtain ⟨xs, hxs, rfl⟩ := splitTopFrom_product htrim hp
      have hvalues : List.Forall₂ (HasValue s.value) (splitTop '*' (trim cs)) xs :=
        hxs.imp fun f x ⟨us, hus, hx⟩ => hasValue_of_hasProduct hus hx
      have hfacts := ih.factors h hfs hvalues (show ValueSoFar s call none 1 from rfl)
      simpa using hfacts
  factors := by
    intro whole acc fs e xs y h hfs hxs hacc
    cases hxs with
    | nil =>
      cases acc with
      | none => cases h
      | some a =>
        cases h
        rw [List.prod_nil, mul_one]
        exact hacc
    | @cons f x fs xs hx hxs =>
      rw [factorsWithin] at h
      split at h
      · cases h
      · obtain ⟨a, ha, h⟩ := bind_ok h
        have hval := ih.factor ha (hfs f (by simp)) hx
        have hrest := ih.factors h (fun g hg => hfs g (by simp [hg])) hxs (hacc.mul hval)
        rw [List.prod_cons, ← mul_assoc]
        exact hrest
  factor := by
    intro cs e v h hg hv
    unfold factorWithin at h
    dsimp only at h
    split at h
    · next x hx =>
      cases h
      rw [hv.unique (hasValue_literal hx)]
      rfl
    · next hlit =>
      split at h
      · cases h
        exact (eval_text hv).1
      · next hrun =>
        split at h
        · obtain ⟨_, -, h⟩ := bind_ok h
          cases h
          exact (eval_text (hasValue_unwrap hv)).2
        · next hidx =>
          split at h
          · next hw =>
            exact ih.coeff h (hg.peel hlit hrun hidx hw) (hasValue_peel hw hv)
          · split at h
            · next rest _ =>
              split at h
              · cases h
              · obtain ⟨hprod, htail⟩ := hg.tail hlit hrun hidx
                obtain ⟨ts, hts, t, ht, htv⟩ := hprod.hasProduct hv
                obtain ⟨us, hus, rfl⟩ :=
                  Option.map_eq_some_iff.1 ((tokens?_op .minus rest).symm.trans hts)
                have hrest := hasValue_of_hasProduct hus (ht.cut_minus rfl htv)
                cases hf : factorWithin ctx fuel (trim rest) with
                | error err =>
                  rw [hf] at h
                  cases h
                | ok a =>
                  rw [hf] at h
                  cases h
                  have ha := negate_eval (ih.factor hf htail (hasValue_trim.2 hrest))
                  rwa [neg_neg] at ha
            · obtain ⟨_, -, h⟩ := bind_ok h
              cases h
              split
              · exact (eval_text hv).1
              · rw [← ofList_paren]
                exact (eval_text hv.paren).1

/-- **Whatever is parsed has the value of its text.** -/
theorem faithful (ctx : Context) (s : Scope K) (call : Call → Except Error K) :
    ∀ fuel, Faithful ctx s call fuel
  | 0 => ⟨fun h => (by cases h), fun h => (by cases h), fun h => (by cases h)⟩
  | fuel + 1 => faithful_succ (faithful ctx s call fuel)

/-- A table entry has a bracket. -/
theorem mem_of_table? {cs : List Char} {p} (h : table? cs = some p) : '[' ∈ cs := by
  unfold table? at h
  split at h
  · cases h
  · next name rest hname =>
    have hrest : rest ⊆ cs := by
      unfold startingName? at hname
      split at hname
      · cases hname
      · split at hname
        · cases hname
          exact List.subset_cons_of_subset _ (List.dropWhile_sublist _).subset
        · cases hname
    split at h
    · next inside htrim =>
      have hmem : '[' ∈ trimStart rest := by simp [htrim]
      exact hrest ((List.dropWhile_sublist _).subset hmem)
    · cases h

/-- **A parsed coefficient or base value has the value of its text**, in exact arithmetic, if the text
is a product wherever it is cut at stars or loses a minus sign. -/
theorem parsed_eval_of_grouped (ctx : Context) (s : Scope K) (call : Call → Except Error K)
    {text : String} {v : K} {e : Expr} (hv : Arith.eval s.value text = .ok v)
    (hg : CoeffGrouped ctx text.toList)
    (hp : parseCoefficient ctx text = .ok e ∨ parseValue ctx (.raw text) = .ok e) :
    e.eval s call = .ok v := by
  have hvalue := eval_eq_ok_iff.1 hv
  rcases hp with hp | hp
  · exact (faithful ctx s call _).coeff hp hg hvalue
  · have htrim := hasValue_trim.2 hvalue
    have hcoeff : ∀ {e}, parseCoeff ctx (trim text.toList) = .ok e → e.eval s call = .ok v := by
      intro e he
      refine (faithful ctx s call _).coeff he ?_ htrim
      obtain ⟨hcut, hfs⟩ := hg
      refine .mk ?_ (by rwa [trim_trim])
      rcases hcut with hone | ⟨ts, t, hts, ht⟩
      · exact .inl (by rwa [trim_trim])
      · exact .inr ⟨ts, t, by rwa [tokens?_trim], ht⟩
    unfold parseValue at hp
    dsimp only at hp
    split at hp
    · cases hp
    · split at hp
      · next x hx =>
        cases hp
        rw [htrim.unique (hasValue_literal hx)]
        rfl
      · split at hp
        · cases hp
          exact (eval_text htrim).1
        · split at hp
          · next htab =>
            obtain ⟨ts, t, hts, -⟩ := htrim
            exact absurd (mem_of_table? htab) (not_mem_of_tokens? hts rfl rfl rfl)
          · exact hcoeff hp


end

/-! ## A coefficient that is cut, and one that must not be -/

/-- A recurrence with one index and two runtime variables. -/
def sampleContext : Context where
  name := "Seq"
  indices := ["n"]
  runtimeVars := ["x", "y"]
  selfName := "E"

/-- Two and three for the runtime variables. -/
def sampleScope : Scope ℚ where
  value n := if n = "x" then some 2 else if n = "y" then some 3 else none
  table _ := none

/-- No call is made. -/
def noCall (_ : Call) : Except Error ℚ :=
  .error (invalid "")

/-- The text `-(x - y)*x/y` is cut at its star, its first factor loses the sign and then the
parentheses, and the value is kept. -/
theorem parsed_eval_of_grouped_quotient :
    ∃ e, parseCoefficient sampleContext "-(x - y)*x/y" = .ok e ∧
      e.eval sampleScope noCall = .ok (2 / 3) := by
  have hparse : (parseCoefficient sampleContext "-(x - y)*x/y").toOption.isSome := by
    decide +kernel
  obtain ⟨e, he⟩ := Option.isSome_iff_exists.1 hparse
  have he := toOption_eq_some_iff.1 he
  have hinside : Derives .expr [.name "x", .op .minus, .name "y"] _ :=
    .sub (.ofTerm (.ofUnary (.ofPrimary .name))) (.ofUnary (.ofPrimary .name))
  have hsign : Derives .unary
      [.op .minus, .op .left, .name "x", .op .minus, .name "y", .op .right] _ :=
    .neg (.ofPrimary (.paren hinside))
  have hgrouped : CoeffGrouped sampleContext "-(x - y)*x/y".toList := by
    refine .mk (.inr ⟨_, _, by with_unfolding_all rfl,
      .div (.mul (.ofUnary hsign) (.ofPrimary .name)) (.ofPrimary .name)⟩) fun f hf => ?_
    have hpieces : splitTop '*' (trim "-(x - y)*x/y".toList) =
        [['-', '(', 'x', ' ', '-', ' ', 'y', ')'], ['x', '/', 'y']] := by decide
    rw [hpieces] at hf
    rcases List.mem_pair.1 hf with rfl | rfl
    · refine .negated ⟨_, _, by with_unfolding_all rfl, .ofUnary hsign⟩
        (.wrapped (by decide) (.mk (.inl (by decide)) fun g hg => ?_))
      obtain rfl : g = ['x', ' ', '-', ' ', 'y'] := List.mem_singleton.1 hg
      exact .verbatim (by decide) (by decide)
    · exact .verbatim (by decide) (by decide)
  exact ⟨e, he, parsed_eval_of_grouped sampleContext sampleScope noCall
    (toOption_eq_some_iff.1 (by decide +kernel)) hgrouped (.inl he)⟩

/-- **A sum must not be cut at a star**: with two for `x` and three for `y` the text `x - y*x` is
minus four, and as the value of a base case it is read as `(x - y)*x`, which is minus two. -/
theorem parsed_eval_needs_grouped :
    Arith.eval sampleScope.value "x - y*x" = .ok (-4) ∧
      ∃ e, parseValue sampleContext (.raw "x - y*x") = .ok e ∧
        e.eval sampleScope noCall = .ok (-2) := by
  refine ⟨toOption_eq_some_iff.1 (by decide +kernel), ?_⟩
  have hrun : (parseValue sampleContext (.raw "x - y*x") >>= fun e =>
      e.eval sampleScope noCall) = .ok (-2) := toOption_eq_some_iff.1 (by decide +kernel)
  exact bind_ok hrun

end RecurrenceCompiler.RuleText
