import RecurrenceCompiler.Proofs.Arith.Names
import RecurrenceCompiler.Proofs.RuleText.Cuts
import RecurrenceCompiler.Proofs.RuleText.Parsed
import RecurrenceCompiler.RuleText.Printer

/-!
# The leaves of a coefficient

A coefficient is a product, and its factors are leaves as they are cut out of the text
(`leaf_parseCoeff`): numbers, names, texts that are kept in parentheses and texts that mention an
index. The parser reads each of them back from its printed text (`Leaf.reads`).
-/

namespace RecurrenceCompiler

open Text Decimal Arith

/-- The factors of a product, from left to right. -/
def Expr.factors : Expr → List Expr
  | .binop .mul l r => l.factors ++ r.factors
  | e => [e]

namespace RuleText

/-! ## Enclosing parentheses -/

/-- The parenthesis below what a text closes stays open. -/
theorem closesLast_of_balancedFrom {s inner : List Char} (h : balancedFrom s inner = true) :
    closesLast (s.count '(' + 1) (inner ++ [')']) = true := by
  induction inner generalizing s with
  | nil =>
    obtain rfl : s = [] := by simpa [balancedFrom] using h
    rfl
  | cons c inner ih =>
    have hstep {d : Nat} (hd : parensAfter (s.count '(' + 1) c = (d : Int) + 1)
        (h : closesLast ((d : Int) + 1) (inner ++ [')']) = true) :
        closesLast (s.count '(' + 1) (c :: inner ++ [')']) = true := by
      change (if parensAfter (s.count '(' + 1) c == 0 && _ then false
        else closesLast (parensAfter (s.count '(' + 1) c) (inner ++ [')'])) = true
      rw [hd, if_neg]
      · exact h
      · have hne : ((d : Int) + 1 == 0) = false := by
          rw [beq_eq_false_iff_ne]
          omega
        simp [hne]
    rcases isOpening_or_isClosing_or_isPlain c with hc | hc | hc
    · rw [balancedFrom_opening hc] at h
      refine hstep ?_ (ih h)
      rcases (by simpa [isOpening] using hc : c = '(' ∨ c = '[') with rfl | rfl <;> simp [parensAfter]
    · obtain ⟨o, s, rfl, hmatch, h⟩ := (balancedFrom_closing hc).1 h
      refine hstep ?_ (ih h)
      rcases (by simpa [isClosing] using hc : c = ')' ∨ c = ']') with rfl | rfl
      · obtain rfl : o = '(' := hmatch.2 rfl
        simp [parensAfter]
      · have ho : o ≠ '(' := fun ho => absurd (hmatch.1 ho) (by decide)
        simp [parensAfter, ho]
    · rw [balancedFrom_plain hc] at h
      refine hstep ?_ (ih h)
      have hplain : c ≠ '(' ∧ c ≠ ')' := by
        constructor <;> rintro rfl <;> cases hc
      simp [parensAfter, hplain]

theorem isWrapped_paren {cs : List Char} (h : balanced cs) : isWrapped ('(' :: cs ++ [')']) := by
  have hclose := closesLast_of_balancedFrom (s := []) h
  have hopen : closesLast 0 ('(' :: cs ++ [')']) = true := by
    simpa [closesLast] using hclose
  rw [isWrapped, hopen, List.getLast?_concat]
  rfl

@[simp] theorem peel_paren (cs : List Char) : peel ('(' :: cs ++ [')']) = cs := by
  simp [peel]

/-- A text whose first and last character are no blanks has no blanks around it. -/
theorem trim_eq_self {cs : List Char} (hhead : ∀ c ∈ cs.head?, isBlank c = false)
    (hlast : ∀ c ∈ cs.getLast?, isBlank c = false) : trim cs = cs := by
  have hstart : trimStart cs = cs := by
    cases cs with
    | nil => rfl
    | cons c cs => exact List.dropWhile_cons_of_neg (by simp [hhead c rfl])
  rw [trim, hstart, trimEnd]
  rcases List.eq_nil_or_concat cs with rfl | ⟨init, c, rfl⟩
  · rfl
  · rw [List.concat_eq_append] at hlast ⊢
    rw [List.reverse_append, List.reverse_singleton, List.singleton_append,
      List.dropWhile_cons_of_neg (by simp [hlast c (by simp)])]
    simp

theorem trim_paren (cs : List Char) : trim ('(' :: cs ++ [')']) = '(' :: cs ++ [')'] :=
  trim_eq_self (by rintro c ⟨⟩; rfl) (by rw [List.getLast?_concat]; rintro c ⟨⟩; rfl)

/-- The parentheses around a text that has none of its own come off. -/
theorem unwrap_paren {cs : List Char} (hbal : balanced cs) (htrim : trim cs = cs)
    (hwrapped : isWrapped cs = false) : unwrap ('(' :: cs ++ [')']) = cs := by
  have hlen : ('(' :: cs ++ [')']).length = cs.length + 1 + 1 := by simp
  rw [unwrap, trim_paren, hlen, unwrapWithin, if_pos (isWrapped_paren hbal), peel_paren, htrim,
    unwrapWithin, if_neg (by simp [hwrapped])]

theorem length_trim_le (cs : List Char) : (trim cs).length ≤ cs.length :=
  (infix_of_trim cs).length_le

/-- Parentheses have no names. -/
theorem pieceNames_paren (cs : List Char) : pieceNames ('(' :: cs ++ [')']) = pieceNames cs := by
  rw [pieceNames_append rfl (by decide), show '(' :: cs = [] ++ '(' :: cs from rfl,
    pieceNames_append rfl (by decide)]
  simp [show pieceNames [] = [] from rfl]

/-- What taking off parentheses leaves: a part of the text with the same names, without blanks or
parentheses around it. -/
theorem unwrap_spec (cs : List Char) : trim (unwrap cs) = unwrap cs ∧ isWrapped (unwrap cs) = false ∧
    unwrap cs <:+: cs ∧ pieceNames (unwrap cs) = pieceNames cs := by
  have hwithin : ∀ (fuel : Nat) {cs : List Char}, cs.length ≤ fuel → trim cs = cs →
      trim (unwrapWithin fuel cs) = unwrapWithin fuel cs ∧ isWrapped (unwrapWithin fuel cs) = false ∧
        unwrapWithin fuel cs <:+: cs ∧ pieceNames (unwrapWithin fuel cs) = pieceNames cs := by
    intro fuel
    induction fuel with
    | zero =>
      intro cs hlen htrim
      obtain rfl := List.length_eq_zero_iff.1 (Nat.le_zero.1 hlen)
      exact ⟨rfl, rfl, List.infix_rfl, rfl⟩
    | succ fuel ih =>
      intro cs hlen htrim
      rw [unwrapWithin]
      split
      · next hw =>
        have hcs := eq_paren_of_isWrapped hw
        have hpeel : peel cs <:+: cs := ⟨['('], [')'], hcs.symm⟩
        have hshort : (peel cs).length + 2 = cs.length := by
          conv => rhs; rw [hcs]
          simp
        have := length_trim_le (peel cs)
        obtain ⟨h1, h2, h3, h4⟩ := @ih (trim (peel cs)) (by omega) (trim_trim _)
        refine ⟨h1, h2, h3.trans ((infix_of_trim _).trans hpeel), ?_⟩
        rw [h4, pieceNames_trim, ← pieceNames_paren, ← hcs]
      · next hw => exact ⟨htrim, by simpa using hw, List.infix_rfl, rfl⟩
  obtain ⟨h1, h2, h3, h4⟩ := hwithin cs.length (length_trim_le cs) (trim_trim cs)
  exact ⟨h1, h2, h3.trans (infix_of_trim cs), h4.trans (pieceNames_trim cs)⟩

/-! ## What the parser cuts out -/

/-- The names that a context knows are names, and none is both an index and a runtime variable. -/
structure Context.WellNamed (ctx : Context) : Prop where
  selfName : isIdentifier ctx.selfName
  indices : ∀ i ∈ ctx.indices, isIdentifier i
  nodup : ctx.indices.Nodup
  runtimeVars : ∀ v ∈ ctx.runtimeVars, isIdentifier v
  disjoint : ∀ v ∈ ctx.runtimeVars, v ∉ ctx.indices

/-- A factor as it is cut out of a text. -/
structure Cut (whole cs : List Char) : Prop where
  balanced : balanced cs
  trimmed : trim cs = cs
  uncut : uncut '*' 0 cs
  part : cs <:+: whole

/-- A factor without index names that is kept as it is, in parentheses. -/
structure Verbatim (ctx : Context) (whole cs : List Char) : Prop extends Cut whole cs where
  ne_nil : cs ≠ []
  literal : literal? cs = none
  unindexed : (namesIn (String.ofList cs)).any ctx.indices.contains = false
  unwrapped : isWrapped cs = false
  unsigned : cs.head? ≠ some '-'
  tokens : (tokens? cs).isSome
  unnamed : isName cs = false

/-- Index arithmetic that is kept as it is. -/
structure Indexed (ctx : Context) (whole cs : List Char) : Prop where
  balanced : balanced cs
  trimmed : trim cs = cs
  unwrapped : isWrapped cs = false
  part : cs <:+: whole
  tokens : (tokens? cs).isSome
  indexed : (namesIn (String.ofList cs)).any ctx.indices.contains

/-- A leaf of a coefficient that is read from a text. -/
inductive Leaf (ctx : Context) (whole : List Char) : Expr → Prop
  | number (x : Float) : Leaf ctx whole (.number x)
  | runtime {v : String} : v ∈ ctx.runtimeVars → Leaf ctx whole (.var v)
  | name {n : String} : isIdentifier n → n ∉ ctx.runtimeVars → n ∉ ctx.indices → Leaf ctx whole (.var n)
  | verbatim {cs : List Char} : Verbatim ctx whole cs →
      Leaf ctx whole (.var (String.ofList ('(' :: cs ++ [')'])))
  | index {cs : List Char} : Indexed ctx whole cs → Leaf ctx whole (.index (String.ofList cs))

variable {ctx : Context} {whole : List Char}

theorem any_namesIn {text : String} : (namesIn text).any ctx.indices.contains = true ↔
    ∃ n ∈ pieceNames text.toList, n ∈ ctx.indices := by
  simp only [List.any_eq_true, List.contains_iff_mem, namesIn, mem_distinct]
  rfl

/-- The names of a name are itself. -/
theorem any_namesIn_name {n : String} (h : isIdentifier n) :
    (namesIn n).any ctx.indices.contains = true ↔ n ∈ ctx.indices := by
  rw [any_namesIn, pieceNames_name h]
  simp

theorem infix_splitTopFrom {sep : Char} {depth : Int} {cur cs : List Char} :
    ∀ p ∈ splitTopFrom sep depth cur cs, p <:+: cur.reverse ++ cs := by
  induction cs generalizing depth cur with
  | nil => simpa [splitTopFrom] using infix_of_trim cur.reverse
  | cons c cs ih =>
    rw [splitTopFrom]
    split
    · refine List.forall_mem_cons.2 ⟨?_, fun p hp => ?_⟩
      · exact (infix_of_trim _).trans (List.prefix_append _ _).isInfix
      · refine (ih p hp).trans ⟨cur.reverse ++ [c], [], by simp⟩
    · intro p hp
      simpa using ih p hp

theorem trim_splitTopFrom {sep : Char} {depth : Int} {cur cs : List Char} :
    ∀ p ∈ splitTopFrom sep depth cur cs, trim p = p := by
  induction cs generalizing depth cur with
  | nil => simp [splitTopFrom, trim_trim]
  | cons c cs ih =>
    rw [splitTopFrom]
    split
    · exact List.forall_mem_cons.2 ⟨trim_trim _, ih⟩
    · exact ih

/-- The pieces between stars are cut out of the text. -/
theorem cut_splitTop {cs : List Char} (hbal : balanced cs) (hpart : cs <:+: whole) :
    ∀ f ∈ splitTop '*' (trim cs), Cut whole f := fun f hf =>
  ⟨balanced_splitTop rfl (by rwa [balanced_trim]) f hf, trim_splitTopFrom f hf, uncut_splitTop _ f hf,
    (by simpa using infix_splitTopFrom f hf : f <:+: trim cs).trans ((infix_of_trim cs).trans hpart)⟩

/-- A factor after its minus sign. -/
theorem Cut.tail {rest : List Char} (h : Cut whole ('-' :: rest)) : Cut whole (trim rest) where
  balanced := by
    have hbal := h.balanced
    rw [RuleText.balanced, balancedFrom_plain rfl] at hbal
    rwa [balanced_trim]
  trimmed := trim_trim rest
  uncut := by
    have huncut := h.uncut
    rw [RuleText.uncut, Bool.and_eq_true] at huncut
    exact uncut_trim huncut.2
  part := (infix_of_trim rest).trans ((List.suffix_cons '-' rest).isInfix.trans h.part)

theorem leaf_negate {e : Expr} (h : ∀ l ∈ e.factors, Leaf ctx whole l) :
    ∀ l ∈ (negate e).factors, Leaf ctx whole l := by
  unfold negate
  split
  · simpa [Expr.factors, Expr.number] using Leaf.number _
  · exact List.forall_mem_cons.2 ⟨.number _, h⟩

theorem checkTokens_eq_ok {cs : List Char} : checkTokens ctx cs = .ok () ↔ (tokens? cs).isSome := by
  rw [checkTokens]
  split <;> simp_all

/-- What is read within a bound has leaves that are cut out of the text, one field a function of the
parser. -/
structure ReadsLeaves (ctx : Context) (whole : List Char) (fuel : Nat) : Prop where
  coeff : ∀ {cs e}, coeffWithin ctx fuel cs = .ok e → balanced cs → cs <:+: whole →
    ∀ l ∈ e.factors, Leaf ctx whole l
  factors : ∀ {text acc fs e}, factorsWithin ctx fuel text acc fs = .ok e → (∀ f ∈ fs, Cut whole f) →
    (∀ a, acc = some a → ∀ l ∈ a.factors, Leaf ctx whole l) → ∀ l ∈ e.factors, Leaf ctx whole l
  factor : ∀ {cs e}, factorWithin ctx fuel cs = .ok e → Cut whole cs → cs ≠ [] →
    ∀ l ∈ e.factors, Leaf ctx whole l

/-- One more level of nesting. -/
theorem readsLeaves_succ {fuel : Nat} (ih : ReadsLeaves ctx whole fuel) :
    ReadsLeaves ctx whole (fuel + 1) where
  coeff := by
    intro cs e h hbal hpart
    rw [coeffWithin] at h
    exact ih.factors h (cut_splitTop hbal hpart) (by simp)
  factors := by
    intro text acc fs e h hfs hacc
    cases fs with
    | nil =>
      cases acc with
      | none => cases h
      | some a =>
        cases h
        exact hacc _ rfl
    | cons f fs =>
      rw [factorsWithin] at h
      split at h
      · cases h
      · next hne =>
        obtain ⟨a, ha, h⟩ := bind_ok h
        have ha := ih.factor ha (hfs f (by simp)) (by simpa using hne)
        refine ih.factors h (fun g hg => hfs g (by simp [hg])) fun b hb => ?_
        cases acc with
        | none =>
          cases hb
          exact ha
        | some a' =>
          cases hb
          exact List.forall_mem_append.2 ⟨hacc a' rfl, ha⟩
  factor := by
    intro cs e h hcut hne
    unfold factorWithin at h
    dsimp only at h
    split at h
    · cases h
      exact List.forall_mem_singleton.2 (.number _)
    · next hliteral =>
      split at h
      · next hrun =>
        cases h
        exact List.forall_mem_singleton.2 (.runtime (by simpa using hrun))
      · next hrun =>
        split at h
        · next hindex =>
          obtain ⟨⟨⟩, hcheck, h⟩ := bind_ok h
          cases h
          obtain ⟨htrim, hwrapped, hpart, hnames⟩ := unwrap_spec cs
          refine List.forall_mem_singleton.2 (.index ⟨balanced_unwrap hcut.balanced, htrim, hwrapped,
            hpart.trans hcut.part, checkTokens_eq_ok.1 hcheck, ?_⟩)
          rw [any_namesIn, String.toList_ofList] at hindex ⊢
          rwa [hnames]
        · next hindex =>
          split at h
          · next hw =>
            have hpeel : peel cs <:+: cs := ⟨['('], [')'], (eq_paren_of_isWrapped hw).symm⟩
            exact ih.coeff h (balanced_peel hw hcut.balanced) (hpeel.trans hcut.part)
          · next hw =>
            split at h
            · next rest =>
              split at h
              · cases h
              · next hrest =>
                cases hf : factorWithin ctx fuel (trim rest) with
                | error err =>
                  rw [hf] at h
                  cases h
                | ok a =>
                  rw [hf] at h
                  cases h
                  exact leaf_negate (ih.factor hf hcut.tail (by simpa using hrest))
            · next hsign =>
              obtain ⟨⟨⟩, hcheck, h⟩ := bind_ok h
              cases h
              have hcheck := checkTokens_eq_ok.1 hcheck
              refine List.forall_mem_singleton.2 ?_
              split
              · next hname =>
                refine .name hname (by simpa using hrun) fun hmem => hindex ?_
                exact (any_namesIn_name hname).2 hmem
              · next hname =>
                rw [← ofList_paren]
                refine .verbatim { hcut with
                  ne_nil := hne
                  literal := hliteral
                  unindexed := by simpa using hindex
                  unwrapped := by simpa using hw
                  unsigned := ?_
                  tokens := hcheck
                  unnamed := by simpa [isIdentifier] using hname }
                intro hhead
                obtain ⟨rest, rfl⟩ := List.head?_eq_some_iff.1 hhead
                exact hsign rest rfl

theorem readsLeaves : ∀ fuel, ReadsLeaves ctx whole fuel
  | 0 => ⟨fun h => (by cases h), fun h => (by cases h), fun h => (by cases h)⟩
  | fuel + 1 => readsLeaves_succ (readsLeaves fuel)

/-- **The factors of a coefficient that is read from a balanced text are leaves of it.** -/
theorem leaf_parseCoeff {cs : List Char} {e : Expr} (hbal : balanced cs)
    (h : parseCoeff ctx cs = .ok e) : ∀ l ∈ e.factors, Leaf ctx cs l :=
  (readsLeaves _).coeff h hbal List.infix_rfl

end RuleText

end RecurrenceCompiler
