import RecurrenceCompiler.Proofs.Arith.Splitting
import RecurrenceCompiler.Proofs.RuleText.Reading

/-!
# Which texts are kept

The parser checks that a text consists of tokens, and no more. So what it keeps is a sentence of
arithmetic exactly if the text that it was given is one: cutting at a star outside all brackets, taking
off parentheses, blanks or a minus sign lead from sentences to sentences and back
(`isSentence_splitTop`, `isSentence_unwrap`, `isSentence_minus`). The way back needs brackets that close
in order, since a text such as `x)+(y` is kept in parentheses.

* `Reads.sentences`: from a sentence only sentences are kept;
* `Reads.isSentence`: a balanced text of which only sentences are kept is a sentence.
-/

namespace RecurrenceCompiler

open Text Decimal Arith

/-! ## The texts of an expression -/

namespace Expr

/-- The arithmetic text that a leaf holds. -/
def leafText? : Expr → Option String
  | .var n => some n
  | .index t => some t
  | .lookup _ i => some i
  | _ => none

/-- The arithmetic texts that an expression holds. -/
def texts (e : Expr) : List String :=
  e.leaves.filterMap leafText?

/-- Whether all texts that an expression holds are sentences. -/
def Sentences (e : Expr) : Prop :=
  ∀ t ∈ e.texts, IsSentence t.toList

variable {e : Expr}

@[simp] theorem sentences_number (x : Float) : (number x).Sentences := by
  simp [Sentences, texts, number, leaves, leafText?]

@[simp] theorem sentences_var {n : String} : (var n).Sentences ↔ IsSentence n.toList := by
  simp [Sentences, texts, leaves, leafText?]

@[simp] theorem sentences_index {t : String} : (index t).Sentences ↔ IsSentence t.toList := by
  simp [Sentences, texts, leaves, leafText?]

@[simp] theorem sentences_lookup {table i : String} :
    (lookup table i).Sentences ↔ IsSentence i.toList := by
  simp [Sentences, texts, leaves, leafText?]

@[simp] theorem sentences_binop {op : BinOp} {l r : Expr} :
    (binop op l r).Sentences ↔ l.Sentences ∧ r.Sentences := by
  simp only [Sentences, texts, leaves, List.filterMap_append, List.forall_mem_append]

@[simp] theorem sentences_scaled {inner scale : Expr} {division : Bool} :
    (scaled inner scale division).Sentences ↔ inner.Sentences ∧ scale.Sentences := by
  simp only [Sentences, texts, leaves, List.filterMap_append, List.forall_mem_append]

theorem sentences_sum {ts : List (Term Expr)} :
    (sum ts).Sentences ↔ ∀ t ∈ ts, t.coeff.Sentences := by
  have hfactor (f : Factor) : leafText? f.expr = none := by
    cases f <;> rfl
  induction ts with
  | nil => simp [Sentences, texts, leaves, leavesOfTerms]
  | cons t ts ih =>
    have hcons : (sum (t :: ts)).Sentences ↔ t.coeff.Sentences ∧ (sum ts).Sentences := by
      simp [Sentences, texts, leaves, leavesOfTerms, hfactor, or_imp, forall_and]
    simp only [hcons, ih, List.forall_mem_cons]

theorem sentences_average {bs : List Expr} {scale : Expr} :
    (average bs scale).Sentences ↔ (∀ b ∈ bs, b.Sentences) ∧ scale.Sentences := by
  have hbranches : (∀ t ∈ (leavesOfList bs).filterMap leafText?, IsSentence t.toList) ↔
      ∀ b ∈ bs, b.Sentences := by
    induction bs with
    | nil => simp [leavesOfList]
    | cons b bs ih =>
      rw [List.forall_mem_cons, ← ih]
      simp only [leavesOfList, List.filterMap_append, List.forall_mem_append]
      rfl
  rw [← hbranches]
  simp only [Sentences, texts, leaves, List.filterMap_append, List.forall_mem_append]

end Expr

namespace RuleText

variable {ctx : Context}

@[simp] theorem sentences_negate {e : Expr} : (negate e).Sentences ↔ e.Sentences := by
  unfold negate
  split
  · exact iff_of_true (Expr.sentences_number _) (Expr.sentences_number _)
  · rw [Expr.sentences_binop]
    exact and_iff_right (Expr.sentences_number _)

/-! ## Steps of the parser on sentences -/

/-- A star outside all brackets. -/
theorem isSentence_star {a b : List Char} (ha : a.foldl depthAfter 0 = 0) :
    IsSentence (a ++ '*' :: b) ↔ IsSentence a ∧ IsSentence b := by
  constructor
  · rintro ⟨ts, hts, hsentence⟩
    obtain ⟨as, bs, has, hbs, rfl⟩ := (tokens?_cut (o := .times) rfl).1 hts
    rw [foldl_depthAfter has, Int.zero_add] at ha
    obtain ⟨hl, hr⟩ := hsentence.cut_times ha
    exact ⟨⟨as, has, hl⟩, bs, hbs, hr⟩
  · rintro ⟨⟨as, has, hl⟩, bs, hbs, hr⟩
    exact ⟨_, (tokens?_cut (o := .times) rfl).2 ⟨as, bs, has, hbs, rfl⟩, hl.times hr⟩

theorem isSentence_splitTopFrom {cs cur : List Char} :
    (∀ f ∈ splitTopFrom '*' (cur.reverse.foldl depthAfter 0) cur cs, IsSentence f) ↔
      IsSentence (cur.reverse ++ cs) := by
  induction cs generalizing cur with
  | nil => rw [splitTopFrom, List.forall_mem_singleton, isSentence_trim, List.append_nil]
  | cons c cs ih =>
    rw [splitTopFrom]
    split
    · next hc =>
      obtain ⟨hdepth, rfl⟩ : cur.reverse.foldl depthAfter 0 = 0 ∧ c = '*' := by simpa using hc
      have hrest : (∀ f ∈ splitTopFrom '*' 0 [] cs, IsSentence f) ↔ IsSentence cs := @ih []
      rw [List.forall_mem_cons, isSentence_trim, hrest, isSentence_star hdepth]
    · rw [← foldl_depthAfter_reverse_cons, ih]
      simp

/-- **A text is a sentence exactly if the pieces between its top-level stars are.** -/
theorem isSentence_splitTop {cs : List Char} :
    (∀ f ∈ splitTop '*' cs, IsSentence f) ↔ IsSentence cs :=
  @isSentence_splitTopFrom cs []

theorem isSentence_peel {cs : List Char} (hw : isWrapped cs) :
    IsSentence (peel cs) ↔ IsSentence cs := by
  constructor
  · intro h
    rw [eq_paren_of_isWrapped hw]
    exact h.paren
  · rintro ⟨ts, hts, t, ht⟩
    obtain ⟨ms, hms, hm⟩ := derives_peel hw hts ht
    exact ⟨ms, hms, t, hm⟩

/-- **Parentheses and blanks around a text make no difference.** -/
theorem isSentence_unwrap {cs : List Char} : IsSentence (unwrap cs) ↔ IsSentence cs := by
  have hwithin (fuel : Nat) {cs : List Char} :
      IsSentence (unwrapWithin fuel cs) ↔ IsSentence cs := by
    induction fuel generalizing cs with
    | zero => rfl
    | succ fuel ih =>
      rw [unwrapWithin]
      split
      · next hw => rw [ih, isSentence_trim, isSentence_peel hw]
      · rfl
  rw [unwrap, hwithin, isSentence_trim]

/-- **A minus sign in front makes no difference.** -/
theorem isSentence_minus {cs : List Char} : IsSentence ('-' :: cs) ↔ IsSentence cs := by
  have hminus : tokens? ('-' :: cs) = (tokens? cs).map (.op .minus :: ·) := tokens?_op .minus cs
  constructor
  · rintro ⟨ts, hts, h⟩
    obtain ⟨us, hus, rfl⟩ := Option.map_eq_some_iff.1 (hminus.symm.trans hts)
    exact ⟨us, hus, sentence_minus.1 h⟩
  · rintro ⟨ts, hts, h⟩
    exact ⟨_, by rw [hminus, hts]; rfl, sentence_minus.2 h⟩

theorem isSentence_name {cs : List Char} (h : isName cs) : IsSentence cs :=
  ⟨_, tokens?_name h, _, .ofTerm (.ofUnary (.ofPrimary .name))⟩

theorem isSentence_literal {cs : List Char} {x : Float} (h : literal? cs = some x) : IsSentence cs :=
  (@hasValue_literal ℚ _ _ _ (fun _ => none) cs x h).isSentence

/-- The tokens of a balanced text never close more than they opened. -/
theorem neverBelow_of_balanced {cs : List Char} {ts : List Token} (hts : tokens? cs = some ts)
    (h : balanced cs) : NeverBelow ts := by
  rintro p q rfl
  obtain ⟨a, b, rfl, ha, -⟩ := exists_cut_of_tokens? hts p q rfl
  have hdepth : 0 ≤ a.foldl depthAfter 0 := depth_nonneg (s := []) h
  rwa [foldl_depthAfter ha, Int.zero_add] at hdepth

/-- A text closes the parentheses that are open before it, if its tokens do. -/
theorem balancedFrom_of_tokens {cs : List Char} {ts : List Token} (h : tokens? cs = some ts) :
    ∀ {s : List Char}, (∀ c ∈ s, c = '(') → (∀ p q, ts = p ++ q → 0 ≤ s.length + nesting p) →
      s.length + nesting ts = 0 → balancedFrom s cs = true := by
  refine tokens?_induction (P := fun cs ts => ∀ {s : List Char}, (∀ c ∈ s, c = '(') →
    (∀ p q, ts = p ++ q → 0 ≤ s.length + nesting p) → s.length + nesting ts = 0 →
      balancedFrom s cs = true) ?_ ?_ ?_ h
  · intro s _ _ hend
    obtain rfl : s = [] := List.length_eq_zero_iff.1 (by simpa [nesting] using hend)
    rfl
  · intro c cs ts hc _ ih s hs hopen hend
    rw [balancedFrom_plain (isPlain_of_isBlank hc)]
    exact ih hs hopen hend
  · intro lex rest t ts hlex _ _ ih s hs hopen hend
    have hrest (p q : List Token) (hp : ts = p ++ q) : 0 ≤ s.length + (nesting [t] + nesting p) := by
      rw [← nesting_append]
      exact hopen ([t] ++ p) q (by rw [hp]; rfl)
    have hnest : nesting (t :: ts) = nesting [t] + nesting ts := nesting_append [t] ts
    rw [hnest] at hend
    by_cases hparen : t = .op .left ∨ t = .op .right
    · rcases hparen with rfl | rfl
      · cases hlex
        refine (balancedFrom_opening rfl).trans (ih ?_ ?_ ?_)
        · exact List.forall_mem_cons.2 ⟨rfl, hs⟩
        · intro p q hp
          have hp := hrest p q hp
          simp only [nesting, List.length_cons] at hp ⊢
          omega
        · simp only [nesting, List.length_cons] at hend ⊢
          omega
      · cases hlex
        cases s with
        | nil =>
          -- the parenthesis that closes here is not open
          have hclose := hrest [] ts rfl
          simp [nesting] at hclose
        | cons o s =>
          obtain ⟨rfl, hbelow⟩ := List.forall_mem_cons.1 hs
          refine (balancedFrom_closing rfl).2 ⟨_, s, rfl, by simp [Op.char], ih hbelow ?_ ?_⟩
          · intro p q hp
            have hp := hrest p q hp
            simp only [nesting, List.length_cons] at hp
            omega
          · simp only [nesting, List.length_cons] at hend
            omega
    · have hzero : nesting [t] = 0 := by
        cases t with
        | op o => cases o <;> first | rfl | simp at hparen
        | _ => rfl
      have hplain : ∀ c ∈ lex, isPlain c := by
        cases t with
        | op o =>
          cases hlex
          cases o <;> first | (simp; rfl) | simp at hparen
        | _ => exact fun c hc => isPlain_of_not_isJoint (hlex.not_isJoint (by simp) c hc)
      have hskip : balancedFrom s (lex ++ rest) = balancedFrom s rest :=
        balancedFrom_append (s := []) (balanced_of_plain hplain) s rest
      rw [hskip]
      refine ih hs (fun p q hp => ?_) (by omega)
      have hp := hrest p q hp
      omega

/-- **The brackets of a sentence close in order.** -/
theorem balanced_of_isSentence {cs : List Char} (h : IsSentence cs) : balanced cs := by
  obtain ⟨ts, hts, t, ht⟩ := h
  refine balancedFrom_of_tokens hts (by simp) (fun p q hp => ?_) ?_
  · have hbelow := ht.neverBelow p q hp
    simpa using hbelow
  · rw [ht.nesting_eq]
    rfl

/-- **A balanced text is a sentence if it is one in parentheses.** -/
theorem isSentence_of_paren {cs : List Char} (hbal : balanced cs) (htokens : (tokens? cs).isSome)
    (h : IsSentence ('(' :: cs ++ [')'])) : IsSentence cs := by
  obtain ⟨ts, hts⟩ := Option.isSome_iff_exists.1 htokens
  obtain ⟨us, hus, t, ht⟩ := h
  obtain rfl := Option.some.inj ((tokens?_paren hts).symm.trans hus)
  refine ⟨ts, hts, t, ht.unwrap (by simp) rfl rfl fun p q hpq hp hq => ?_⟩
  have hopen := (neverBelow_of_balanced hts hbal).open_of_paren hp hq hpq
  omega

/-! ## What is kept of a coefficient -/

namespace Reading

/-- The texts still to be read are sentences, and so are those that were kept so far. -/
def Sentences : Reading → Prop
  | .coeff cs | .factor cs => IsSentence cs
  | .factors acc fs => (∀ a ∈ acc, a.Sentences) ∧ ∀ f ∈ fs, IsSentence f

/-- The brackets of the texts still to be read close in order. -/
def Balanced : Reading → Prop
  | .coeff cs | .factor cs => balanced cs
  | .factors _ fs => ∀ f ∈ fs, balanced f

end Reading

/-- What is kept after one more factor. -/
theorem sentences_next {acc : Option Expr} {a : Expr} :
    (∀ b ∈ some ((acc.map (.binop .mul · a)).getD a), b.Sentences) ↔
      (∀ b ∈ acc, b.Sentences) ∧ a.Sentences := by
  cases acc <;> simp

/-- **From a sentence only sentences are kept.** -/
theorem Reads.sentences {g : Reading} {e : Expr} (h : Reads ctx g e) (hg : g.Sentences) :
    e.Sentences := by
  induction h with
  | coeff _ ih => exact ih ⟨nofun, isSentence_splitTop.2 (isSentence_trim.2 hg)⟩
  | done => exact hg.1 _ rfl
  | next _ _ ihf ihfs =>
    obtain ⟨hacc, hfs⟩ := hg
    rw [List.forall_mem_cons] at hfs
    exact ihfs ⟨sentences_next.2 ⟨hacc, ihf hfs.1⟩, hfs.2⟩
  | number => exact Expr.sentences_number _
  | runtime | name => exact Expr.sentences_var.2 (by rwa [String.toList_ofList])
  | index => exact Expr.sentences_index.2 (by rwa [String.toList_ofList, isSentence_unwrap])
  | wrapped hw _ ih => exact ih ((isSentence_peel hw).2 hg)
  | negated _ ih => exact sentences_negate.2 (ih (isSentence_trim.2 (isSentence_minus.1 hg)))
  | verbatim => exact Expr.sentences_var.2 (by rw [String.toList_ofList]; exact IsSentence.paren hg)

/-- **A balanced text of which only sentences are kept is a sentence.** -/
theorem Reads.isSentence {g : Reading} {e : Expr} (hvars : ∀ v ∈ ctx.runtimeVars, isIdentifier v)
    (h : Reads ctx g e) (hbal : g.Balanced) (he : e.Sentences) : g.Sentences := by
  induction h with
  | @coeff cs e _ ih =>
    have hpieces : ∀ f ∈ splitTop '*' (trim cs), balanced f :=
      balanced_splitTop rfl (by rwa [balanced_trim])
    exact isSentence_trim.1 (isSentence_splitTop.1 (ih hpieces he).2)
  | done =>
    refine ⟨?_, nofun⟩
    rintro _ ⟨⟩
    exact he
  | next _ _ ihf ihfs =>
    obtain ⟨hf, hfs⟩ := List.forall_mem_cons.1 hbal
    obtain ⟨hacc, hrest⟩ := ihfs hfs he
    obtain ⟨hacc, ha⟩ := sentences_next.1 hacc
    exact ⟨hacc, List.forall_mem_cons.2 ⟨ihf hf ha, hrest⟩⟩
  | number hx => exact isSentence_literal hx
  | @runtime cs hmem => exact isSentence_name (by simpa [isIdentifier] using hvars _ hmem)
  | index =>
    rw [Expr.sentences_index, String.toList_ofList, isSentence_unwrap] at he
    exact he
  | wrapped hw _ ih => exact (isSentence_peel hw).1 (ih (balanced_peel hw hbal) he)
  | @negated rest e _ ih =>
    have hrest : balanced rest := (balancedFrom_plain rfl).symm.trans hbal
    exact isSentence_minus.2 (isSentence_trim.1 (ih (by rwa [Reading.Balanced, balanced_trim])
      (sentences_negate.1 he)))
  | name hn => exact isSentence_name hn
  | verbatim htokens =>
    rw [Expr.sentences_var, String.toList_ofList] at he
    exact isSentence_of_paren hbal htokens he

/-- **A coefficient that is read is a sentence exactly if its brackets close in order and what is kept
of it are sentences.** -/
theorem isSentence_iff_of_parseCoeff (hvars : ∀ v ∈ ctx.runtimeVars, isIdentifier v) {cs : List Char}
    {e : Expr} (h : parseCoeff ctx cs = .ok e) : IsSentence cs ↔ balanced cs ∧ e.Sentences := by
  have hreads := reads_parseCoeff h
  constructor
  · exact fun hcs => ⟨balanced_of_isSentence hcs, hreads.sentences hcs⟩
  · rintro ⟨hbal, he⟩
    exact hreads.isSentence hvars hbal he

/-! ## What is kept of the texts of a step -/

/-- The coefficient in front of the call of a term, if there is one. -/
def Piece.coefficient? (p : RuleText.Piece) : Option (List Char) :=
  p.front?.bind starred?

/-- The coefficients of a rule body. -/
def bodyTexts (text : String) : List (List Char) :=
  (splitTerms (trim (collapseBlanks text.toList))).filterMap Piece.coefficient?

/-- The arithmetic text of the value of a base case: the index of a table entry, or all of it. -/
def valueTexts (ctx : Context) : Constant → List (List Char)
  | .number _ => []
  | .raw value =>
    match table? (trim value.toList) with
    | some (name, index) =>
      if ctx.arrayVars.contains (String.ofList name) then [trim index] else [trim value.toList]
    | none => [trim value.toList]

/-- A term keeps sentences exactly if its coefficient is one. -/
theorem sentences_parseTerm (hvars : ∀ v ∈ ctx.runtimeVars, isIdentifier v) {p : RuleText.Piece}
    {t : Term Expr} (hbal : balanced p.text) (h : parseTerm ctx p = .ok t) :
    t.coeff.Sentences ↔ ∀ cs ∈ p.coefficient?, IsSentence cs := by
  obtain ⟨front, name, inside, call, coeff, -, -, hcoeff, hfront, hfrontbal, -, rfl⟩ :=
    parseTerm_eq_ok hbal h
  have hsign : (if p.negated then negate coeff else coeff).Sentences ↔ coeff.Sentences := by
    split
    · exact sentences_negate
    · rfl
  rw [Piece.coefficient?, hfront, Option.bind_some, hsign]
  rcases parseFront_eq_ok hfrontbal hcoeff with ⟨hnone, x, rfl⟩ | ⟨cs, hsome, hcs, hcsbal, -⟩
  · simp [hnone]
  · have hiff := isSentence_iff_of_parseCoeff hvars hcs
    simp [hsome, hiff, hcsbal]

theorem sentences_parseTerms (hvars : ∀ v ∈ ctx.runtimeVars, isIdentifier v) {body : List Char}
    {ps : List RuleText.Piece} {ts : List (Term Expr)} (hbal : ∀ p ∈ ps, balanced p.text)
    (h : parseTerms ctx body ps = .ok ts) :
    (∀ t ∈ ts, t.coeff.Sentences) ↔ ∀ cs ∈ ps.filterMap Piece.coefficient?, IsSentence cs := by
  induction ps generalizing ts with
  | nil =>
    cases h
    simp
  | cons p ps ih =>
    rw [parseTerms] at h
    split at h
    · cases h
    · obtain ⟨t, ht, h⟩ := bind_ok h
      obtain ⟨ts', hts', h⟩ := bind_ok h
      cases h
      have hp := sentences_parseTerm hvars (hbal p (by simp)) ht
      have hps := ih (fun q hq => hbal q (by simp [hq])) hts'
      rw [List.forall_mem_cons, hp, hps, List.filterMap_cons]
      cases p.coefficient? <;> simp

/-- **A body keeps sentences exactly if its coefficients are sentences.** -/
theorem sentences_parseBody (hvars : ∀ v ∈ ctx.runtimeVars, isIdentifier v) {text : String} {e : Expr}
    (h : parseBody ctx text = .ok e) :
    e.Sentences ↔ ∀ cs ∈ bodyTexts text, IsSentence cs := by
  obtain ⟨ts, body, rfl, rfl, hbal, hts⟩ := parseBody_eq_ok h
  rw [Expr.sentences_sum]
  exact sentences_parseTerms hvars (balanced_splitTerms hbal) hts

/-- A table entry is no sentence. -/
theorem table?_of_isSentence {cs : List Char} (h : IsSentence cs) : table? cs = none := by
  obtain ⟨ts, hts, -⟩ := h
  cases htab : table? cs with
  | none => rfl
  | some p => exact absurd (mem_of_table? htab) (not_mem_of_tokens? hts rfl rfl rfl)

/-- **The value of a base case keeps sentences exactly if its text is one**, and balanced. -/
theorem sentences_parseValue (hvars : ∀ v ∈ ctx.runtimeVars, isIdentifier v) {value : Constant}
    {e : Expr} (h : parseValue ctx value = .ok e) :
    (∀ cs ∈ valueTexts ctx value, IsSentence cs) ↔
      (∀ cs ∈ valueTexts ctx value, balanced cs) ∧ e.Sentences := by
  cases value with
  | number x =>
    cases h
    simp [valueTexts]
  | raw text =>
    have hone {cs : List Char} (htexts : valueTexts ctx (.raw text) = [cs])
        (hcs : IsSentence cs ↔ balanced cs ∧ e.Sentences) :
        (∀ cs ∈ valueTexts ctx (.raw text), IsSentence cs) ↔
          (∀ cs ∈ valueTexts ctx (.raw text), balanced cs) ∧ e.Sentences := by
      rw [htexts, List.forall_mem_singleton, List.forall_mem_singleton]
      exact hcs
    -- a text that is a sentence by itself is no table entry
    have hplain (hs : IsSentence (trim text.toList)) (he : e.Sentences) :=
      hone (by simp [valueTexts, table?_of_isSentence hs])
        (iff_of_true hs ⟨balanced_of_isSentence hs, he⟩)
    unfold parseValue at h
    dsimp only at h
    split at h
    · cases h
    · split at h
      · next x hx =>
        cases h
        exact hplain (isSentence_literal hx) (Expr.sentences_number x)
      · split at h
        · next hrun =>
          cases h
          have hname := hvars _ (List.contains_iff_mem.1 hrun)
          rw [isIdentifier, String.toList_ofList] at hname
          exact hplain (isSentence_name hname)
            (Expr.sentences_var.2 (by rw [String.toList_ofList]; exact isSentence_name hname))
        · split at h
          · next name index htab =>
            split at h
            · next harray =>
              cases h
              refine @hone (trim index) (by simp only [valueTexts, htab, if_pos harray]) ?_
              rw [Expr.sentences_lookup, String.toList_ofList]
              exact ⟨fun hs => ⟨balanced_of_isSentence hs, hs⟩, And.right⟩
            · next harray =>
              exact hone (by simp only [valueTexts, htab, if_neg harray])
                (isSentence_iff_of_parseCoeff hvars h)
          · next htab =>
            exact hone (by simp only [valueTexts, htab]) (isSentence_iff_of_parseCoeff hvars h)

end RuleText

end RecurrenceCompiler
