import RecurrenceCompiler.Proofs.RuleText.Calls

/-!
# Rule text read back

What the parser reads the printer writes, and the parser reads what is written
(`parseRule_printRule`): the same terms with the same calls and the same factors, except that every
product is taken from left to right (`Expr.regroup`). So a rule comes back as it was exactly if its
products are grouped that way, and `E[n-1] - x*y*E[n-2]` does not (`product_regrouped`).
-/

namespace RecurrenceCompiler

open Text Decimal Arith

/-! ## Grouping -/

namespace Expr

/-- Whether an expression is a product. -/
def isProduct : Expr → Bool
  | .binop .mul _ _ => true
  | _ => false

/-- Whether a product is taken from left to right. -/
def isLeftNested : Expr → Bool
  | .binop .mul l r => l.isLeftNested && !r.isProduct
  | _ => true

/-- A rule with its products taken from left to right. -/
def regroup : Expr → Expr
  | .sum ts => .sum (ts.map fun t => ⟨t.coeff.leftNested, t.factor⟩)
  | .scaled inner scale division => .scaled inner.regroup scale.leftNested division
  | e => e

/-- Whether the products of a rule are taken from left to right. -/
def isGrouped : Expr → Bool
  | .sum ts => ts.all fun t => t.coeff.isLeftNested
  | .scaled inner scale _ => inner.isGrouped && scale.isLeftNested
  | _ => true

theorem factors_of_not_isProduct {e : Expr} (h : e.isProduct = false) : e.factors = [e] := by
  unfold factors
  split
  · cases h
  · rfl

theorem not_isProduct_of_mem_factors {e l : Expr} (h : l ∈ e.factors) : l.isProduct = false := by
  fun_induction factors e with
  | case1 l r ihl ihr => exact (List.mem_append.1 h).elim ihl ihr
  | case2 e he =>
    rw [List.mem_singleton.1 h, isProduct]
    exact he

theorem leftNested_mul {l r : Expr} (hr : r.isProduct = false) :
    (Expr.binop .mul l r).leftNested = .binop .mul l.leftNested r := by
  rw [leftNested, leftNested, factors, factors_of_not_isProduct hr]
  cases hl : l.factors with
  | nil => exact absurd hl (RuleText.factors_ne_nil l)
  | cons f fs => simp

theorem isLeftNested_foldl {ls : List Expr} (h : ∀ l ∈ ls, l.isProduct = false) {e : Expr}
    (he : e.isLeftNested) : (ls.foldl (.binop .mul) e).isLeftNested := by
  induction ls generalizing e with
  | nil => exact he
  | cons l ls ih =>
    refine ih (fun m hm => h m (by simp [hm])) ?_
    simp [isLeftNested, he, h l (by simp)]

theorem isLeftNested_of_not_isProduct {e : Expr} (h : e.isProduct = false) : e.isLeftNested := by
  unfold isLeftNested
  split
  · cases h
  · rfl

/-- **A product is the product of its factors from left to right exactly if it is taken that way.** -/
theorem leftNested_eq_self_iff {e : Expr} : e.leftNested = e ↔ e.isLeftNested := by
  constructor
  · intro h
    rw [← h, leftNested]
    have hfactors : ∀ l ∈ e.factors, l.isProduct = false := fun l => not_isProduct_of_mem_factors
    cases hls : e.factors with
    | nil => exact absurd hls (RuleText.factors_ne_nil e)
    | cons f fs =>
      rw [hls] at hfactors
      obtain ⟨hf, hfs⟩ := List.forall_mem_cons.1 hfactors
      exact isLeftNested_foldl hfs (isLeftNested_of_not_isProduct hf)
  · intro h
    fun_induction isLeftNested e with
    | case1 l r ih =>
      obtain ⟨hl, hr⟩ := Bool.and_eq_true_iff.1 h
      rw [leftNested_mul (by simpa using hr), ih hl]
    | case2 e he =>
      have hproduct : e.isProduct = false := by
        rw [isProduct]
        exact he
      rw [leftNested, factors_of_not_isProduct hproduct]
      rfl

/-- **A rule comes back as it was exactly if its products are taken from left to right.** -/
theorem regroup_eq_self_iff {e : Expr} : e.regroup = e ↔ e.isGrouped := by
  fun_induction regroup e with
  | case1 ts =>
    rw [isGrouped, List.all_eq_true, Expr.sum.injEq]
    nth_rewrite 2 [← List.map_id ts]
    rw [List.map_inj_left]
    refine forall₂_congr fun t _ => ?_
    rw [← leftNested_eq_self_iff]
    obtain ⟨coeff, factor⟩ := t
    simp
  | case2 inner scale division ih =>
    rw [isGrouped, Bool.and_eq_true, ← ih, ← leftNested_eq_self_iff]
    simp
  | case3 e hsum hscaled =>
    rw [isGrouped]
    · exact ⟨fun _ => rfl, fun _ => rfl⟩
    · exact hsum
    · exact hscaled

end Expr

namespace RuleText

variable {ctx : Context} {whole : List Char}

/-! ## Blanks -/

/-- A text whose blanks are single spaces. -/
structure Tidy (cs : List Char) : Prop where
  apart : cs.IsChain fun a b => isBlank a = false ∨ isBlank b = false
  space : ∀ c ∈ cs, isBlank c → c = ' '

theorem Tidy.of_part {cs ds : List Char} (h : Tidy ds) (hpart : cs <:+: ds) : Tidy cs where
  apart := List.IsChain.infix h.apart hpart
  space c hc := h.space c (hpart.subset hc)

theorem tidy_of_not_isBlank {cs : List Char} (h : ∀ c ∈ cs, isBlank c = false) : Tidy cs where
  apart := by
    induction cs with
    | nil => exact .nil
    | cons c cs ih =>
      exact List.isChain_cons.2 ⟨fun d _ => .inl (h c (by simp)), ih fun d hd => h d (by simp [hd])⟩
  space c hc hblank := by
    rw [h c hc] at hblank
    cases hblank

theorem tidy_of_not_isJoint {cs : List Char} (h : ∀ c ∈ cs, isJoint c = false) : Tidy cs :=
  tidy_of_not_isBlank fun c hc => isBlank_of_not_isJoint (h c hc)

theorem Tidy.append {a b : List Char} (ha : Tidy a) (hb : Tidy b)
    (hjoin : (∀ c ∈ a.getLast?, isBlank c = false) ∨ ∀ c ∈ b.head?, isBlank c = false) : Tidy (a ++ b) where
  apart := by
    refine List.isChain_append.2 ⟨ha.apart, hb.apart, fun x hx y hy => ?_⟩
    exact hjoin.imp (fun h => h x hx) fun h => h y hy
  space := List.forall_mem_append.2 ⟨ha.space, hb.space⟩

theorem Tidy.paren {cs : List Char} (h : Tidy cs) : Tidy ('(' :: cs ++ [')']) := by
  have hopen : Tidy ['('] := tidy_of_not_isBlank (by simp; rfl)
  have hclose : Tidy [')'] := tidy_of_not_isBlank (by simp; rfl)
  exact (hopen.append h (.inl (by simp; rfl))).append hclose (.inr (by simp; rfl))

theorem tidy_collapseFrom (cs : List Char) (afterBlank : Bool) : Tidy (collapseFrom afterBlank cs) ∧
    (afterBlank = true → ∀ c ∈ (collapseFrom afterBlank cs).head?, isBlank c = false) := by
  induction cs generalizing afterBlank with
  | nil => exact ⟨⟨.nil, nofun⟩, fun _ => nofun⟩
  | cons c cs ih =>
    rw [collapseFrom]
    split
    · split
      · next h =>
        subst h
        exact ih true
      · next hfirst =>
        obtain ⟨htidy, hhead⟩ := ih true
        refine ⟨⟨List.isChain_cons.2 ⟨fun d hd => .inr (hhead rfl d hd), htidy.apart⟩, ?_⟩,
          fun h => absurd h hfirst⟩
        exact List.forall_mem_cons.2 ⟨fun _ => rfl, htidy.space⟩
    · next hc =>
      have hc : isBlank c = false := by simpa using hc
      obtain ⟨htidy, -⟩ := ih false
      refine ⟨⟨List.isChain_cons.2 ⟨fun d _ => .inl hc, htidy.apart⟩, ?_⟩, fun _ d hd => ?_⟩
      · exact List.forall_mem_cons.2 ⟨fun h => absurd h (by simp [hc]), htidy.space⟩
      · cases hd
        exact hc

/-- Collapsing blanks tidies a text. -/
theorem tidy_collapseBlanks (cs : List Char) : Tidy (collapseBlanks cs) :=
  (tidy_collapseFrom cs false).1

/-- A tidy text is not changed. -/
theorem Tidy.collapseBlanks_eq {cs : List Char} (h : Tidy cs) : collapseBlanks cs = cs := by
  have hfrom {cs : List Char} {afterBlank : Bool} (h : Tidy cs)
      (hhead : afterBlank = true → ∀ c ∈ cs.head?, isBlank c = false) : collapseFrom afterBlank cs = cs := by
    induction cs generalizing afterBlank with
    | nil => rfl
    | cons c cs ih =>
      obtain ⟨hapart, hchain⟩ := List.isChain_cons.1 h.apart
      have htidy : Tidy cs := ⟨hchain, fun d hd => h.space d (by simp [hd])⟩
      rw [collapseFrom]
      split
      · next hc =>
        have hflag : ¬ afterBlank = true := fun hflag => by
          have hnot := hhead hflag c rfl
          rw [hc] at hnot
          cases hnot
        rw [if_neg hflag, ih htidy fun _ d hd => (hapart d hd).resolve_left (by simp [hc]),
          h.space c (by simp) hc]
      · rw [@ih false htidy fun hflag => by cases hflag]
  exact hfrom h fun hflag => by cases hflag

/-! ## Terms -/

theorem Leaf.mono {part : List Char} {l : Expr} (h : Leaf ctx part l) (hpart : part <:+: whole) :
    Leaf ctx whole l := by
  cases h with
  | number x => exact .number x
  | runtime hv => exact .runtime hv
  | name hn hrun hindex => exact .name hn hrun hindex
  | verbatim hv => exact .verbatim { hv with part := hv.part.trans hpart }
  | index hi => exact .index { hi with part := hi.part.trans hpart }

/-- A term as it is read out of a text. -/
structure IsTerm (ctx : Context) (whole : List Char) (t : Term Expr) : Prop where
  call : ∃ c, t.factor = .call c ∧ IsCall ctx c
  leaves : ∀ l ∈ t.coeff.factors, Leaf ctx whole l

theorem isTerm_parseTerm {p : RuleText.Piece} {t : Term Expr} (hbal : balanced p.text)
    (hpart : p.text <:+: whole) (h : parseTerm ctx p = .ok t) : IsTerm ctx whole t := by
  obtain ⟨front, name, inside, call, coeff, hcall, hname, hfront, -, hfrontbal, hfrontpart, rfl⟩ :=
    parseTerm_eq_ok hbal h
  have hleaves : ∀ l ∈ coeff.factors, Leaf ctx whole l := by
    rcases parseFront_eq_ok hfrontbal hfront with ⟨-, x, rfl⟩ | ⟨cs, -, hcs, hcsbal, hcspart⟩
    · exact List.forall_mem_singleton.2 (.number x)
    · intro l hl
      exact (leaf_parseCoeff hcsbal hcs l hl).mono (hcspart.trans (hfrontpart.trans hpart))
  refine ⟨⟨call, rfl, isCall_parseCall hname hcall⟩, ?_⟩
  dsimp only
  split
  · exact leaf_negate hleaves
  · exact hleaves

theorem infix_splitTermsFrom {depth : Int} {seen cur cs : List Char} {negated : Bool} :
    ∀ p ∈ splitTermsFrom depth seen cur negated cs, p.text <:+: cur.reverse ++ cs := by
  induction cs generalizing depth seen cur negated with
  | nil => simpa [splitTermsFrom] using infix_of_trim cur.reverse
  | cons c cs ih =>
    rw [splitTermsFrom]
    split
    · refine List.forall_mem_cons.2 ⟨?_, fun p hp => ?_⟩
      · exact (infix_of_trim _).trans (List.prefix_append _ _).isInfix
      · exact (ih p hp).trans ⟨cur.reverse ++ [c], [], by simp⟩
    · intro p hp
      simpa using ih p hp

theorem isTerm_parseTerms {body : List Char} {ps : List RuleText.Piece} {ts : List (Term Expr)}
    (hps : ∀ p ∈ ps, balanced p.text ∧ p.text <:+: whole) (h : parseTerms ctx body ps = .ok ts) :
    ts.length = ps.length ∧ ∀ t ∈ ts, IsTerm ctx whole t := by
  induction ps generalizing ts with
  | nil =>
    cases h
    simp
  | cons p ps ih =>
    rw [parseTerms] at h
    split at h
    · cases h
    · obtain ⟨t, ht, h⟩ := bind_ok h
      obtain ⟨ts', hts', h⟩ := bind_ok h
      cases h
      obtain ⟨hbal, hpart⟩ := hps p (by simp)
      obtain ⟨hlen, hts'⟩ := ih (fun q hq => hps q (by simp [hq])) hts'
      exact ⟨by simp [hlen], List.forall_mem_cons.2 ⟨isTerm_parseTerm hbal hpart ht, hts'⟩⟩

/-- What is printed before a call. -/
def frontChars (coeff : Expr) : List Char :=
  if coeff.isUnit then [] else starred (coeff.factors.map leafChars) ++ [' ', '*', ' ']

/-- A call, as it is printed. -/
def callChars (ctx : Context) (c : Call) : List Char :=
  callName ctx c ++ '[' :: (insideChars ctx c ++ [']'])

/-- A term that its text gives back: its constants are finite and no negative zero, and its shifts are
written in digits. -/
structure Spellable (t : Term Expr) : Prop where
  numbers : ∀ l ∈ t.coeff.factors, Readable l
  shifts : ∀ c, t.factor = .call c → ∀ w ∈ c.shifts, w.Written

/-- A term and its text. -/
structure Prints (ctx : Context) (whole : List Char) (t : Term Expr) (text : String) : Prop where
  chars : ∃ c, t.factor = .call c ∧ IsCall ctx c ∧ text.toList = frontChars t.coeff ++ callChars ctx c
  leaves : ∀ l ∈ t.coeff.factors, Leaf ctx whole l
  spellable : Spellable t

/-- The printer writes the terms one by one. -/
theorem printTerms_eq {ts : List (Term Expr)} (h : ∀ t ∈ ts, IsTerm ctx whole t ∧ Spellable t) :
    ∃ texts, printTerms ctx.names ts = .ok texts ∧ List.Forall₂ (Prints ctx whole) ts texts := by
  induction ts with
  | nil => exact ⟨[], rfl, .nil⟩
  | cons t ts ih =>
    obtain ⟨⟨ht, hspell⟩, hts⟩ := List.forall_mem_cons.1 h
    obtain ⟨⟨c, hfactor, hcall⟩, hleaves⟩ := ht
    obtain ⟨texts, htexts, hall⟩ := ih hts
    have hprint : printFactor ctx.names t.factor = printCall ctx.names c := by rw [hfactor]; rfl
    rw [printTerms, htexts, hprint]
    by_cases hunit : t.coeff.isUnit
    · refine ⟨_, by rw [if_pos hunit]; rfl, .cons ⟨⟨c, hfactor, hcall, ?_⟩, hleaves, hspell⟩ hall⟩
      rw [frontChars, if_pos hunit, toList_printCall hcall]
      rfl
    · refine ⟨_, by rw [if_neg hunit, printExpr_product hleaves]; rfl,
        .cons ⟨⟨c, hfactor, hcall, ?_⟩, hleaves, hspell⟩ hall⟩
      rw [frontChars, if_neg hunit, String.toList_append, toList_printCall hcall]
      simp [callChars]

/-- The name at the end of a text, if no word character stands before it. -/
theorem endingName?_append {front name : List Char} (h : isName name)
    (hfront : ∀ c ∈ front.getLast?, isWord c = false) : endingName? (front ++ name) = some (front, name) := by
  have hword := isWord_of_isName h
  have hall : name.reverse.all isWord := by
    rw [List.all_reverse, List.all_eq_true]
    exact hword
  have hstop : front.reverse.takeWhile isWord = [] ∧ front.reverse.dropWhile isWord = front.reverse := by
    rw [← List.head?_reverse] at hfront
    cases hrev : front.reverse with
    | nil => exact ⟨rfl, rfl⟩
    | cons c cs => simp [hfront c (by rw [hrev]; rfl)]
  have hrev : (front ++ name).reverse.dropWhile isBlank = name.reverse ++ front.reverse := by
    rw [List.reverse_append]
    cases hname : name.reverse with
    | nil =>
      rw [List.reverse_eq_nil_iff.1 hname] at h
      cases h
    | cons c cs =>
      have hc : isBlank c = false :=
        isBlank_of_isWord (hword c (List.mem_reverse.1 (by rw [hname]; simp)))
      exact List.dropWhile_cons_of_neg (by simp [hc])
  have hdigits : name.dropWhile isDigit = name ∧ name.takeWhile isDigit = [] := by
    cases name with
    | nil => cases h
    | cons c cs =>
      have hc : isDigit c = false := by
        rw [← Bool.not_eq_true]
        intro hd
        have hstart := (Bool.and_eq_true_iff.1 h).1
        rw [isNameStart_of_isDigit hd] at hstart
        cases hstart
      simp [hc]
  rw [endingName?, hrev]
  simp only [takeWhile_append_of_all hall, dropWhile_append_of_all hall, hstop.1, hstop.2, List.append_nil,
    List.reverse_reverse, hdigits.1, hdigits.2]
  rw [if_neg (by simpa using (solid_name h).ne_nil)]

theorem exists_of_isUnit {e : Expr} (h : e.isUnit = true) : ∃ x, e = .number x ∧ (x == 1.0) = true := by
  unfold Expr.isUnit at h
  split at h
  · exact ⟨_, rfl, h⟩
  · cases h

section
variable {coeff : Expr} {c : Call} (hctx : ctx.WellNamed) (hleaves : ∀ l ∈ coeff.factors, Leaf ctx whole l)
  (hread : ∀ l ∈ coeff.factors, Readable l)
include hctx hleaves hread

/-- The text of a coefficient stands in one term. -/
theorem unbroken_coeff : Unbroken (starred (coeff.factors.map leafChars)) :=
  unbroken_starred (by simpa using factors_ne_nil coeff) <| List.forall_mem_map.2 fun l hl =>
    ((hleaves l hl).solid hctx (hread l hl)).toUnbroken

/-- **What stands before a call is read back.** -/
theorem parseFront_frontChars (text : List Char) :
    parseFront ctx text (frontChars coeff) = .ok coeff.leftNested := by
  rw [frontChars]
  split
  · next hunit =>
    obtain ⟨x, rfl, hx⟩ := exists_of_isUnit hunit
    obtain rfl := eq_one_of_beq (hread _ (by simp [Expr.number, Expr.factors]) x rfl).1 hx
    rfl
  · have hcoeff := unbroken_coeff hctx hleaves hread
    have hparse := parseCoeff_starred hctx hleaves hread
    generalize starred (coeff.factors.map leafChars) = cs at hcoeff hparse
    have htrim : trim (cs ++ [' ', '*', ' ']) = (cs ++ [' ']) ++ ['*'] := by
      have hends : trim ((cs ++ [' ']) ++ ['*']) = (cs ++ [' ']) ++ ['*'] := by
        refine trim_eq_self ?_ (by rw [List.getLast?_concat]; rintro d ⟨⟩; rfl)
        rw [List.append_assoc, List.head?_append_of_ne_nil _ hcoeff.ne_nil]
        exact hcoeff.head
      have hblank := trim_append_blank ((cs ++ [' ']) ++ ['*'])
      rw [hends, List.append_assoc, List.append_assoc] at hblank
      exact hblank
    have hne := hcoeff.ne_nil
    rw [parseFront, htrim]
    split
    · next hnil => simp at hnil
    · next hminus => simp [List.append_eq_singleton_iff] at hminus
    · rw [List.getLast?_concat, List.dropLast_concat, trim_append_blank, hcoeff.trimmed, if_neg (by simp)]
      simp only [List.isEmpty_iff, hne, if_false]
      exact hparse

end

/-- What is printed of a term before its call. -/
structure IsFront (cs : List Char) : Prop where
  square : '[' ∉ cs
  balanced : balanced cs
  head : ∀ c ∈ cs.head?, isBlank c = false
  last : ∀ c ∈ cs.getLast?, isWord c = false
  unsplit : ∀ seen, startsFresh seen → unsplit 0 seen cs
  fresh : ∀ seen, startsFresh seen → startsFresh (cs.reverse ++ seen)

theorem isFront_frontChars {coeff : Expr} (hctx : ctx.WellNamed)
    (hleaves : ∀ l ∈ coeff.factors, Leaf ctx whole l) (hread : ∀ l ∈ coeff.factors, Readable l) :
    IsFront (frontChars coeff) := by
  rw [frontChars]
  split
  · exact ⟨by simp, rfl, by simp, by simp, fun _ _ => rfl, fun _ h => h⟩
  · have hcoeff := unbroken_coeff hctx hleaves hread
    generalize starred (coeff.factors.map leafChars) = cs at hcoeff
    refine ⟨by simp [hcoeff.square], ?_, ?_, ?_, fun seen hseen => ?_, fun seen _ => ?_⟩
    · rw [balanced_append hcoeff.balanced]
      rfl
    · rw [List.head?_append_of_ne_nil _ hcoeff.ne_nil]
      exact hcoeff.head
    · rw [List.getLast?_append_of_ne_nil _ (by simp)]
      rintro d ⟨⟩
      rfl
    · rw [unsplit_append, hcoeff.unsplit seen hseen, Bool.true_and]
      exact unsplit_of_not_mem (by decide) (by decide) _ _
    · rw [List.reverse_append]
      rfl

/-- A text that is one term of a sum. -/
structure IsTermText (cs : List Char) : Prop where
  balanced : balanced cs
  head : ∀ c ∈ cs.head?, isBlank c = false
  last : cs.getLast? = some ']'
  unsplit : ∀ seen, startsFresh seen → unsplit 0 seen cs

theorem IsTermText.trimmed {cs : List Char} (h : IsTermText cs) : trim cs = cs :=
  trim_eq_self h.head (by rw [h.last]; rintro d ⟨⟩; rfl)

section
variable {front : List Char} {c : Call} (hctx : ctx.WellNamed) (hcall : IsCall ctx c)
  (hwritten : ∀ w ∈ c.shifts, w.Written) (hfront : IsFront front)
include hctx hcall hwritten hfront

/-- **A term is read back.** -/
theorem parseTerm_printed {coeff : Expr} (hcoeff : ∀ text, parseFront ctx text front = .ok coeff) :
    parseTerm ctx ⟨front ++ callChars ctx c, false⟩ = .ok ⟨coeff, .call c⟩ := by
  have hname := isName_callName hctx hcall
  have hinside {d : Char} (hd : isJoint d) (hcomma : d ≠ ',') (hblank : d ≠ ' ') : d ∉ insideChars ctx c := by
    intro hmem
    rcases mem_insideChars hctx hwritten hmem with hd' | rfl | rfl
    · rw [hd] at hd'
      cases hd'
    · exact hcomma rfl
    · exact hblank rfl
  have hopen : '[' ∉ front ++ callName ctx c := by
    simp [hfront.square, (solid_name hname).square]
  have hrest : (insideChars ctx c ++ [']']).contains '[' = false := by
    rw [← Bool.not_eq_true, List.contains_iff_mem]
    simpa using hinside rfl (by decide) (by decide)
  have hclose := cutAt?_char (hinside (d := ']') rfl (by decide) (by decide)) []
  rw [parseTerm, callChars, ← List.append_assoc, cutAt?_char hopen]
  simp only [hrest, hclose, endingName?_append hname hfront.last, hcoeff,
    parseCall_inside hctx hwritten hcall, Bool.false_eq_true, if_false]
  rfl

/-- The text of a term stands by itself in a sum. -/
theorem isTermText_printed : IsTermText (front ++ callChars ctx c) := by
  have hname := solid_name (isName_callName hctx hcall)
  have hinside : balanced (insideChars ctx c) := by
    refine balanced_of_plain fun d hd => ?_
    rcases mem_insideChars hctx hwritten hd with hd | rfl | rfl
    · exact isPlain_of_not_isJoint hd
    · rfl
    · rfl
  have hbrackets : balanced ('[' :: (insideChars ctx c ++ [']'])) := by
    rw [balanced, balancedFrom_opening rfl]
    exact (balancedFrom_append (s := []) hinside ['['] [']']).trans rfl
  refine ⟨?_, ?_, ?_, fun seen hseen => ?_⟩
  · rw [balanced_append hfront.balanced, callChars, balanced_append hname.balanced]
    exact hbrackets
  · cases front with
    | nil =>
      rw [List.nil_append, callChars, List.head?_append_of_ne_nil _ hname.ne_nil]
      exact hname.head
    | cons d ds => exact hfront.head
  · rw [callChars, ← List.cons_append, ← List.append_assoc, ← List.append_assoc, List.getLast?_concat]
  · rw [unsplit_append, hfront.unsplit seen hseen, foldl_depthAfter_balanced hfront.balanced, callChars,
      unsplit_append, hname.unsplit _ (hfront.fresh seen hseen), foldl_depthAfter_balanced hname.balanced,
      ← List.cons_append, Bool.true_and, Bool.true_and]
    exact @unsplit_brackets '[' ']' rfl _ hinside _

end

theorem head?_intercalate {glue t : List Char} (ht : t ≠ []) (ts : List (List Char)) :
    (glue.intercalate (t :: ts)).head? = t.head? := by
  cases ts with
  | nil => rw [List.intercalate_singleton]
  | cons u us => rw [List.intercalate_cons_cons, List.append_assoc, List.head?_append_of_ne_nil _ ht]

theorem tidy_intercalate {glue : List Char} {ts : List (List Char)} (hglue : Tidy glue)
    (h : ∀ t ∈ ts, Tidy t ∧ t ≠ [] ∧ (∀ c ∈ t.head?, isBlank c = false) ∧
      ∀ c ∈ t.getLast?, isBlank c = false) : Tidy (glue.intercalate ts) := by
  induction ts with
  | nil => exact ⟨.nil, nofun⟩
  | cons t ts ih =>
    obtain ⟨htidy, -, -, hlast⟩ := h t (by simp)
    have ih := ih fun u hu => h u (by simp [hu])
    cases ts with
    | nil => rwa [List.intercalate_singleton]
    | cons u us =>
      obtain ⟨-, hne, hhead, -⟩ := h u (by simp)
      rw [List.intercalate_cons_cons]
      exact (htidy.append hglue (.inl hlast)).append ih (.inr (by rwa [head?_intercalate hne]))

theorem Leaf.tidy (hctx : ctx.WellNamed) (hwhole : Tidy whole) {l : Expr} (h : Leaf ctx whole l) :
    Tidy (leafChars l) := by
  have hname {n : String} (hn : isIdentifier n) : Tidy n.toList :=
    tidy_of_not_isJoint fun c hc => isJoint_of_isWord (isWord_of_isIdentifier hn c hc)
  cases h with
  | number x =>
    have hnumber : Tidy (numberChars x) := tidy_of_not_isJoint (spells_numberChars x).not_isJoint
    rw [Expr.number, leafChars, printConstant]
    split
    · simpa [numberText] using hnumber.paren
    · simpa [numberText] using hnumber
  | runtime hv => exact hname (hctx.runtimeVars _ hv)
  | name hn => exact hname hn
  | verbatim hv =>
    rw [leafChars, String.toList_ofList]
    exact (hwhole.of_part hv.part).paren
  | index hi =>
    rw [leafChars]
    split
    · next hn => exact hname hn
    · rw [String.toList_ofList]
      exact (hwhole.of_part hi.part).paren

theorem tidy_spaced {d : Char} (hd : isBlank d = false) : Tidy [' ', d, ' '] :=
  ⟨by simp [hd], by simp [hd]⟩

theorem tidy_comma : Tidy [',', ' '] :=
  (tidy_spaced rfl).of_part ⟨[' '], [], rfl⟩

/-- The blanks of a printed term are single spaces. -/
theorem tidy_printed {coeff : Expr} {c : Call} (hctx : ctx.WellNamed) (hwhole : Tidy whole)
    (hcall : IsCall ctx c) (hwritten : ∀ w ∈ c.shifts, w.Written)
    (hleaves : ∀ l ∈ coeff.factors, Leaf ctx whole l) (hread : ∀ l ∈ coeff.factors, Readable l) :
    Tidy (frontChars coeff ++ callChars ctx c) := by
  have hname := solid_name (isName_callName hctx hcall)
  have hends {p : List Char} (hp : p ≠ []) (hjoint : ∀ d ∈ p, isJoint d = false) :=
    And.intro (tidy_of_not_isJoint hjoint) (And.intro hp (ends_of_not_isJoint hjoint))
  have hinside : Tidy (insideChars ctx c) :=
    tidy_intercalate tidy_comma fun p hp =>
      have ⟨hne, hjoint⟩ := components_not_isJoint hctx hwritten p hp
      hends hne hjoint
  have hopen : Tidy ['['] := tidy_of_not_isBlank (by simp; rfl)
  have hclose : Tidy [']'] := tidy_of_not_isBlank (by simp; rfl)
  have hbrackets : Tidy ('[' :: (insideChars ctx c ++ [']'])) :=
    hopen.append (hinside.append hclose (.inr (by simp; rfl))) (.inl (by simp; rfl))
  have hword := isWord_of_isName (isName_callName hctx hcall)
  have hcallTidy : Tidy (callChars ctx c) :=
    (tidy_of_not_isJoint fun d hd => isJoint_of_isWord (hword d hd)).append hbrackets (.inl hname.last)
  rw [frontChars]
  split
  · exact hcallTidy
  · have hcoeff := unbroken_coeff hctx hleaves hread
    have hstarred : Tidy (starred (coeff.factors.map leafChars)) := by
      refine tidy_intercalate (tidy_spaced rfl) (List.forall_mem_map.2 fun l hl => ?_)
      have hsolid := (hleaves l hl).solid hctx (hread l hl)
      exact ⟨(hleaves l hl).tidy hctx hwhole, hsolid.ne_nil, hsolid.head, hsolid.last⟩
    refine (hstarred.append (tidy_spaced rfl) (.inl hcoeff.last)).append hcallTidy (.inr ?_)
    rw [callChars, List.head?_append_of_ne_nil _ hname.ne_nil]
    exact hname.head

/-! ## Sums -/

/-- Texts with plus signs between them. -/
def summed (ts : List (List Char)) : List Char :=
  [' ', '+', ' '].intercalate ts

theorem splitTermsFrom_summed {t seen cur : List Char} {ts : List (List Char)} {negated : Bool}
    (hcur : IsGap cur) (hseen : startsFresh seen) (h : ∀ u ∈ t :: ts, IsTermText u) :
    splitTermsFrom 0 seen cur negated (summed (t :: ts)) =
      ⟨t, negated⟩ :: ts.map fun u => ⟨u, false⟩ := by
  rw [summed]
  have hreverse : cur.reverse = cur := by rcases hcur with rfl | rfl <;> rfl
  have ht := h t (by simp)
  induction ts generalizing t seen cur negated with
  | nil =>
    have hskip := splitTermsFrom_append (ht.unsplit seen hseen) cur negated []
    rw [List.append_nil, foldl_depthAfter_balanced ht.balanced] at hskip
    rw [List.intercalate_singleton, hskip, splitTermsFrom, List.reverse_append, List.reverse_reverse,
      hreverse, ← List.append_nil (cur ++ t), hcur.trim (.inl rfl), ht.trimmed]
    rfl
  | cons u us ih =>
    obtain ⟨init, hinit⟩ := List.getLast?_eq_some_iff.1 ht.last
    have hoperand : afterOperand (' ' :: (t.reverse ++ seen)) = true := by
      rw [hinit, List.reverse_append]
      rfl
    have hcut (rest : List Char) : splitTermsFrom 0 (t.reverse ++ seen) (t.reverse ++ cur) negated
        (' ' :: '+' :: ' ' :: rest) = ⟨trim (' ' :: (t.reverse ++ cur)).reverse, negated⟩ ::
          splitTermsFrom 0 (' ' :: '+' :: ' ' :: (t.reverse ++ seen)) [' '] false rest := by
      have hblank : depthAfter 0 ' ' = 0 := rfl
      have hexponent : afterExponent (' ' :: (t.reverse ++ seen)) = false := rfl
      rw [splitTermsFrom, if_neg (by simp), hblank, splitTermsFrom, hoperand, hexponent, if_pos (by decide),
        splitTermsFrom, if_neg (by simp), hblank]
      rfl
    rw [List.intercalate_cons_cons, List.append_assoc, splitTermsFrom_append (ht.unsplit seen hseen),
      foldl_depthAfter_balanced ht.balanced]
    refine (hcut _).trans ?_
    rw [List.reverse_cons, List.reverse_append, List.reverse_reverse, hreverse, hcur.trim (.inr rfl),
      ht.trimmed, List.map_cons]
    refine congrArg _ (ih (.inr rfl) rfl ?_ rfl ?_)
    · exact fun v hv => h v (by simp [hv])
    · exact h u (by simp)

/-- **The terms of a printed sum are cut apart again.** -/
theorem splitTerms_summed {ts : List (List Char)} (hne : ts ≠ []) (h : ∀ t ∈ ts, IsTermText t) :
    splitTerms (summed ts) = ts.map fun t => ⟨t, false⟩ := by
  cases ts with
  | nil => exact absurd rfl hne
  | cons t ts => exact splitTermsFrom_summed (.inl rfl) rfl h

theorem Prints.isTermText (hctx : ctx.WellNamed) {t : Term Expr} {text : String}
    (h : Prints ctx whole t text) : IsTermText text.toList := by
  obtain ⟨c, hfactor, hcall, htext⟩ := h.chars
  rw [htext]
  exact isTermText_printed hctx hcall (h.spellable.shifts c hfactor)
    (isFront_frontChars hctx h.leaves h.spellable.numbers)

theorem Prints.tidy (hctx : ctx.WellNamed) (hwhole : Tidy whole) {t : Term Expr} {text : String}
    (h : Prints ctx whole t text) : Tidy text.toList := by
  obtain ⟨c, hfactor, hcall, htext⟩ := h.chars
  rw [htext]
  exact tidy_printed hctx hwhole hcall (h.spellable.shifts c hfactor) h.leaves h.spellable.numbers

theorem Prints.parseTerm_eq (hctx : ctx.WellNamed) {t : Term Expr} {text : String}
    (h : Prints ctx whole t text) :
    parseTerm ctx ⟨text.toList, false⟩ = .ok ⟨t.coeff.leftNested, t.factor⟩ := by
  obtain ⟨c, hfactor, hcall, htext⟩ := h.chars
  rw [htext, hfactor]
  exact parseTerm_printed hctx hcall (h.spellable.shifts c hfactor)
    (isFront_frontChars hctx h.leaves h.spellable.numbers)
    (parseFront_frontChars hctx h.leaves h.spellable.numbers)

theorem parseTerms_printed (hctx : ctx.WellNamed) {ts : List (Term Expr)} {texts : List String}
    (h : List.Forall₂ (Prints ctx whole) ts texts) (body : List Char) :
    parseTerms ctx body ((texts.map String.toList).map fun text => ⟨text, false⟩) =
      .ok (ts.map fun t => ⟨t.coeff.leftNested, t.factor⟩) := by
  induction h with
  | nil => rfl
  | @cons t text ts texts hprints _ ih =>
    have hne : text.toList.isEmpty = false := by
      have hlast := (hprints.isTermText hctx).last
      rw [List.isEmpty_eq_false_iff]
      rintro hnil
      rw [hnil] at hlast
      cases hlast
    rw [List.map_cons, List.map_cons, parseTerms, hne, if_neg (by decide), hprints.parseTerm_eq hctx, ih]
    rfl

theorem IsTermText.ne_nil {cs : List Char} (h : IsTermText cs) : cs ≠ [] := by
  rintro rfl
  cases h.last

/-- A sum of terms ends as a term does. -/
theorem getLast?_summed {ts : List (List Char)} (hne : ts ≠ []) (h : ∀ t ∈ ts, IsTermText t) :
    (summed ts).getLast? = some ']' := by
  obtain ⟨init, t, rfl⟩ := (List.eq_nil_or_concat ts).resolve_left hne
  have ht := h t (by simp)
  rw [List.concat_eq_append, summed]
  cases init with
  | nil =>
    rw [List.nil_append, List.intercalate_singleton, ht.last]
  | cons u us =>
    rw [intercalate_append (by simp) (by simp), List.intercalate_singleton,
      List.getLast?_append_of_ne_nil _ ht.ne_nil, ht.last]

theorem balanced_summed {ts : List (List Char)} (h : ∀ t ∈ ts, IsTermText t) : balanced (summed ts) := by
  rw [summed]
  induction ts with
  | nil => rfl
  | cons t ts ih =>
    have ht := (h t (by simp)).balanced
    have ih := ih fun u hu => h u (by simp [hu])
    cases ts with
    | nil => rwa [List.intercalate_singleton]
    | cons u us =>
      rw [List.intercalate_cons_cons, List.append_assoc, balanced_append ht]
      exact ih

/-- A sum of terms has no blanks around it. -/
theorem trim_summed {ts : List (List Char)} (hne : ts ≠ []) (h : ∀ t ∈ ts, IsTermText t) :
    trim (summed ts) = summed ts := by
  refine trim_eq_self ?_ (by rw [getLast?_summed hne h]; rintro d ⟨⟩; rfl)
  cases ts with
  | nil => exact absurd rfl hne
  | cons t ts =>
    have ht := h t (by simp)
    rw [summed, head?_intercalate ht.ne_nil]
    exact ht.head

/-- **A sum of terms is read back from its text**, the products taken from left to right. -/
theorem parseBody_printExpr (hctx : ctx.WellNamed) (hwhole : Tidy whole) {ts : List (Term Expr)}
    (hne : ts ≠ []) (hts : ∀ t ∈ ts, IsTerm ctx whole t ∧ Spellable t) :
    ∃ body, printExpr ctx.names (.sum ts) = .ok body ∧
      parseBody ctx body = .ok (Expr.sum ts).regroup := by
  obtain ⟨texts, htexts, hall⟩ := printTerms_eq hts
  have hnetexts : texts ≠ [] := by
    rintro rfl
    cases hall
    exact hne rfl
  have hterms : ∀ cs ∈ texts.map String.toList, IsTermText cs ∧ Tidy cs := by
    clear htexts hnetexts hne hts
    induction hall with
    | nil => simp
    | cons h _ ih => exact List.forall_mem_cons.2 ⟨⟨h.isTermText hctx, h.tidy hctx hwhole⟩, ih⟩
  have hnil : texts.map String.toList ≠ [] := by simpa using hnetexts
  refine ⟨" + ".intercalate texts, ?_, ?_⟩
  · rw [printExpr, htexts]
    change Except.ok (if texts.isEmpty then _ else _) = _
    rw [if_neg (by simpa using hnetexts)]
  · have hcs : (" + ".intercalate texts).toList = summed (texts.map String.toList) := by
      rw [String.toList_intercalate]
      rfl
    have hterm := fun cs h => (hterms cs h).1
    have htidy : Tidy (summed (texts.map String.toList)) :=
      tidy_intercalate (tidy_spaced rfl) fun cs h =>
        ⟨(hterms cs h).2, (hterm cs h).ne_nil, (hterm cs h).head, by rw [(hterm cs h).last]; rintro d ⟨⟩; rfl⟩
    have hempty : (summed (texts.map String.toList)).isEmpty = false := by
      rw [List.isEmpty_eq_false_iff]
      intro hnone
      have hlast := getLast?_summed hnil hterm
      rw [hnone] at hlast
      cases hlast
    rw [parseBody, hcs, parseSum]
    simp only [htidy.collapseBlanks_eq, trim_summed hnil hterm, hempty, balanced_summed hterm,
      splitTerms_summed hnil hterm, Bool.false_eq_true, if_false, Bool.not_true, parseTerms_printed hctx hall]
    rfl

/-! ## Scales -/

/-- Neither nothing nor a star is a slash. -/
theorem trimStart_ne_slash {a rest : List Char} (ha : ∀ c ∈ a, isJoint c = false)
    (hrest : rest = [] ∨ ∃ r, rest = ' ' :: '*' :: r) (d : List Char) :
    trimStart (a ++ rest) ≠ '/' :: d := by
  cases a with
  | nil => rcases hrest with rfl | ⟨r, rfl⟩ <;> simp [trimStart, isBlank]
  | cons c a =>
    have hc := ha c (by simp)
    rw [trimStart, List.cons_append, List.dropWhile_cons_of_neg (by simp [isBlank_of_not_isJoint hc])]
    rintro ⟨⟩
    cases hc

/-- A number or a name is not one over something. -/
theorem divisor?_eq_none {a rest : List Char} (hne : a ≠ []) (ha : ∀ c ∈ a, isJoint c = false)
    (hrest : rest = [] ∨ ∃ r, rest = ' ' :: '*' :: r) : divisor? (a ++ rest) = none := by
  obtain ⟨c, a, rfl⟩ := List.exists_cons_of_ne_nil hne
  have ha' : ∀ d ∈ a, isJoint d = false := fun d hd => ha d (by simp [hd])
  have hzeros : rest.dropWhile (· == '0') = rest := by
    rcases hrest with rfl | ⟨r, rfl⟩ <;> rfl
  rw [List.cons_append]
  unfold divisor?
  split
  · next hcs =>
    obtain ⟨-, rfl⟩ := List.cons.inj hcs
    dsimp only
    split
    · next d hd =>
      -- A point and zeros may go; what follows them is still no slash.
      split at hd
      · next q hq =>
        cases a with
        | nil => rcases hrest with rfl | ⟨r, rfl⟩ <;> cases hq
        | cons e a =>
          have hdrop : q.dropWhile (· == '0') = a.dropWhile (· == '0') ++ rest := by
            rw [← (List.cons.inj hq).2, List.append_eq, List.dropWhile_append]
            split
            · next hempty => rw [hzeros, List.isEmpty_iff.1 hempty, List.nil_append]
            · rfl
          rw [hdrop] at hd
          refine absurd hd (trimStart_ne_slash (fun f hf => ha' f ?_) hrest d)
          exact List.mem_cons_of_mem _ ((List.dropWhile_sublist _).subset hf)
      · exact absurd hd (trimStart_ne_slash ha' hrest d)
    · rfl
  · rfl

/-- The text of a leaf is a number, a name or a text in parentheses. -/
theorem Leaf.joint_or_paren (hctx : ctx.WellNamed) {l : Expr} (h : Leaf ctx whole l) :
    (∀ c ∈ leafChars l, isJoint c = false) ∨ (leafChars l).head? = some '(' := by
  have hname {n : String} (hn : isIdentifier n) : ∀ c ∈ n.toList, isJoint c = false :=
    fun c hc => isJoint_of_isWord (isWord_of_isIdentifier hn c hc)
  cases h with
  | number x =>
    rw [Expr.number, leafChars, printConstant]
    split
    · simp
    · rw [numberText, String.toList_ofList]
      exact .inl (spells_numberChars x).not_isJoint
  | runtime hv => exact .inl (hname (hctx.runtimeVars _ hv))
  | name hn => exact .inl (hname hn)
  | verbatim hv => simp [leafChars]
  | index hi =>
    rw [leafChars]
    split
    · next hn => exact .inl (hname hn)
    · simp

section
variable {scale : Expr} (hctx : ctx.WellNamed) (hleaves : ∀ l ∈ scale.factors, Leaf ctx whole l)
  (hread : ∀ l ∈ scale.factors, Readable l)
include hctx hleaves hread

/-- The text of a scale is not one over something. -/
theorem divisor?_starred : divisor? (starred (scale.factors.map leafChars)) = none := by
  cases hfactors : scale.factors with
  | nil => exact absurd hfactors (factors_ne_nil scale)
  | cons f fs =>
    have hf := hleaves f (by simp [hfactors])
    have hne := (hf.solid hctx (hread f (by simp [hfactors]))).ne_nil
    obtain ⟨rest, htext, hrest⟩ : ∃ rest, starred ((f :: fs).map leafChars) = leafChars f ++ rest ∧
        (rest = [] ∨ ∃ r, rest = ' ' :: '*' :: r) := by
      rw [starred]
      cases fs with
      | nil => exact ⟨[], by simp, .inl rfl⟩
      | cons g gs =>
        rw [List.map_cons, List.map_cons, List.intercalate_cons_cons, List.append_assoc]
        exact ⟨_, rfl, .inr ⟨_, rfl⟩⟩
    rw [htext]
    rcases hf.joint_or_paren hctx with hjoint | hparen
    · exact divisor?_eq_none hne hjoint hrest
    · obtain ⟨cs, hcs⟩ := List.head?_eq_some_iff.1 hparen
      rw [hcs]
      rfl

/-- **A scale is read back from its text**, the product taken from left to right. -/
theorem parseScaleChars_printed (division : Bool) :
    parseScaleChars ctx ((if division then ['1', '/'] else []) ++ starred (scale.factors.map leafChars)) =
      .ok (scale.leftNested, division) := by
  have hsolid := unbroken_coeff hctx hleaves hread
  have hparse := parseCoeff_starred hctx hleaves hread
  have hdivisor := divisor?_starred hctx hleaves hread
  generalize starred (scale.factors.map leafChars) = cs at hsolid hparse hdivisor
  cases division with
  | false =>
    rw [if_neg (by decide), List.nil_append, parseScaleChars]
    simp only [hsolid.trimmed, hdivisor, List.isEmpty_iff, hsolid.ne_nil, if_false, hparse]
    rfl
  | true =>
    have htrim : trim (['1', '/'] ++ cs) = '1' :: '/' :: cs := by
      refine trim_eq_self (by rintro d ⟨⟩; rfl) ?_
      rw [List.getLast?_append_of_ne_nil _ hsolid.ne_nil]
      exact hsolid.last
    have hstart : trimStart cs = cs := by
      obtain ⟨d, ds, rfl⟩ := List.exists_cons_of_ne_nil hsolid.ne_nil
      exact List.dropWhile_cons_of_neg (by simp [hsolid.head d rfl])
    have hdivisor : divisor? ('1' :: '/' :: cs) = some cs := by
      have hslash : trimStart ('/' :: cs) = '/' :: cs := rfl
      simp [divisor?, hslash, hstart, hsolid.ne_nil]
    rw [if_pos rfl, parseScaleChars]
    simp only [htrim, hdivisor, hparse]
    rfl

end

/-! ## Rules -/

theorem splitTermsFrom_ne_nil {depth : Int} {seen cur cs : List Char} {negated : Bool} :
    splitTermsFrom depth seen cur negated cs ≠ [] := by
  induction cs generalizing depth seen cur negated with
  | nil => simp [splitTermsFrom]
  | cons c cs ih =>
    rw [splitTermsFrom]
    split
    · simp
    · exact ih

/-- The terms of a body that is read. -/
theorem isTerm_parseBody {text : String} {e : Expr} (h : parseBody ctx text = .ok e) :
    ∃ ts body, e = .sum ts ∧ ts ≠ [] ∧ Tidy body ∧ ∀ t ∈ ts, IsTerm ctx body t := by
  obtain ⟨ts, body, rfl, rfl, hbal, hts⟩ := parseBody_eq_ok h
  obtain ⟨hlen, hterms⟩ := isTerm_parseTerms (fun p hp =>
    ⟨balanced_splitTerms hbal p hp, by simpa using infix_splitTermsFrom p hp⟩) hts
  refine ⟨ts, _, rfl, ?_, (tidy_collapseBlanks _).of_part (infix_of_trim _), hterms⟩
  rintro rfl
  exact splitTermsFrom_ne_nil (List.length_eq_zero_iff.1 hlen.symm)

theorem number_mem_leaves {e : Expr} {x : Float} (h : .number x ∈ e.factors) : .number x ∈ e.leaves := by
  fun_induction Expr.factors e with
  | case1 l r ihl ihr =>
    rw [Expr.leaves]
    exact List.mem_append.2 ((List.mem_append.1 h).imp ihl ihr)
  | case2 e he =>
    rw [← List.mem_singleton.1 h]
    simp [Expr.number, Expr.leaves]

/-- Whether a constant is given back by its text: it is finite and not the negative zero. -/
def isSpelledNumber (x : Float) : Bool :=
  match Reading.ofFloat x with
  | .finite .. | .zero false => true
  | _ => false

/-- Whether a shift is given back by its text: it is not the negative zero, and it is written in
digits. -/
def isSpelledShift (w : Whole) : Bool :=
  (!w.negative || w.magnitude != 0) && isNatural (intText w.magnitude).toList

/-- Whether a leaf is given back by its text. -/
def isSpelled : Expr → Bool
  | .const (.number x) => isSpelledNumber x
  | .call c => c.shifts.all isSpelledShift
  | _ => true

theorem readable_of_isSpelledNumber {x : Float} (h : isSpelledNumber x) :
    IsFinite x ∧ isNegativeZero x = false := by
  have hagrees := agrees x
  rw [isSpelledNumber] at h
  rw [IsFinite, isNegativeZero]
  cases hu : x.toModel.unpack <;> cases hr : Reading.ofFloat x <;> rw [hu, hr] at hagrees <;>
    try exact hagrees.elim
  case notANumber.nan | infinity.infinite =>
    rw [hr] at h
    cases h
  case zero.zero s n =>
    rw [hr] at h
    cases n with
    | true => cases h
    | false => exact ⟨trivial, rfl⟩
  case finite.finite => exact ⟨trivial, rfl⟩

theorem written_of_isSpelledShift {w : Whole} (h : isSpelledShift w) : w.Written := by
  obtain ⟨hsign, hdigits⟩ := Bool.and_eq_true_iff.1 h
  refine ⟨fun hneg => ?_, hdigits⟩
  rw [hneg] at hsign
  simpa using hsign

/-- The factors of a product whose leaves are spelled. -/
theorem readable_of_isSpelled {e : Expr} (h : e.leaves.all isSpelled) : ∀ l ∈ e.factors, Readable l := by
  rintro l hl x rfl
  exact readable_of_isSpelledNumber (List.all_eq_true.1 h _ (number_mem_leaves hl))

/-- The terms of a sum whose leaves are spelled. -/
theorem spellable_of_isSpelled {ts : List (Term Expr)} (h : (Expr.sum ts).leaves.all isSpelled) :
    ∀ t ∈ ts, Spellable t := by
  intro t ht
  have hsub := Expr.leaves_term_subset ht
  rw [Expr.leaves] at hsub
  refine ⟨readable_of_isSpelled (List.all_eq_true.2 fun l hl => List.all_eq_true.1 h l
    (hsub (List.mem_append_left _ hl))), fun c hc w hw => ?_⟩
  have hcall : isSpelled (.call c) = true :=
    List.all_eq_true.1 h _ (hsub (List.mem_append_right _ (by simp [hc, Factor.expr])))
  exact written_of_isSpelledShift (List.all_eq_true.1 hcall w hw)

/-- **A rule that is read is printed, and what is printed is read as the rule with its products taken
from left to right**: the same terms, calls and factors. It is the rule itself exactly if its products
are grouped that way. -/
theorem parseRule_printRule (hctx : ctx.WellNamed) {text : String} {scale : Option String} {e : Expr}
    (hscale : ∀ s, scale = some s → balanced s.toList) (h : parseRule ctx text scale = .ok e)
    (hspelled : e.leaves.all isSpelled) :
    ∃ p, printRule ctx.names e = .ok p ∧ parseRule ctx p.body p.scale = .ok e.regroup ∧
      (e.regroup = e ↔ e.isGrouped = true) := by
  obtain ⟨body, hbody, h⟩ := bind_ok h
  obtain ⟨ts, whole, rfl, hne, htidy, hts⟩ := isTerm_parseBody hbody
  have hread (hspelled : (Expr.sum ts).leaves.all isSpelled) := parseBody_printExpr hctx htidy hne
    fun t ht => ⟨hts t ht, spellable_of_isSpelled hspelled t ht⟩
  cases scale with
  | none =>
    cases h
    obtain ⟨printed, hprint, hread⟩ := hread hspelled
    refine ⟨⟨printed, none⟩, ?_, ?_, Expr.regroup_eq_self_iff⟩
    · rw [printRule, hprint]
      · rfl
      · simp
    · rw [parseRule, hread]
      rfl
  | some s =>
    obtain ⟨⟨factor, division⟩, hfactor, h⟩ := bind_ok h
    cases h
    have hcs := parseScaleChars_eq_ok hfactor
    have hbal := balanced_scaleText (hscale s rfl)
    have hleaves := leaf_parseCoeff hbal hcs
    rw [Expr.leaves, List.all_append, Bool.and_eq_true] at hspelled
    obtain ⟨printed, hprint, hread⟩ := hread hspelled.1
    have hscaled := parseScaleChars_printed hctx hleaves (readable_of_isSpelled hspelled.2) division
    refine ⟨⟨printed, some (String.ofList ((if division then ['1', '/'] else []) ++
      starred (factor.factors.map leafChars)))⟩, ?_, ?_, Expr.regroup_eq_self_iff⟩
    · rw [printRule, printExpr_product hleaves, hprint]
      cases division with
      | false => rfl
      | true =>
        refine congrArg (fun t => Except.ok (PrintedRule.mk printed (some t))) ?_
        apply String.toList_inj.1
        simp
    · rw [parseRule, hread]
      simp only [String.toList_ofList, hscaled]
      rfl

theorem wellNamed_sampleContext : sampleContext.WellNamed where
  selfName := by decide
  indices := by decide
  nodup := by decide
  runtimeVars := by decide
  disjoint := by decide

/-- A scaled rule with index arithmetic, a runtime variable and a negative term comes back as it was. -/
theorem parseRule_printRule_scaled : ∃ e p,
    parseRule sampleContext "(2*n - 1) * x * E[n-1] - E[n-2]" (some "1/n") = .ok e ∧
      printRule sampleContext.names e = .ok p ∧ parseRule sampleContext p.body p.scale = .ok e := by
  have hrun : ((parseRule sampleContext "(2*n - 1) * x * E[n-1] - E[n-2]" (some "1/n")).toOption.map fun e =>
      (e.leaves.all isSpelled, e.isGrouped)) = some (true, true) := by
    decide +kernel
  obtain ⟨e, he, hchecks⟩ := Option.map_eq_some_iff.1 hrun
  obtain ⟨hspelled, hgrouped⟩ := Prod.mk.inj hchecks
  have he := toOption_eq_some_iff.1 he
  obtain ⟨p, hp, hread, hiff⟩ := parseRule_printRule wellNamed_sampleContext (by rintro s ⟨⟩; decide) he hspelled
  exact ⟨e, p, he, hp, by rw [hread, hiff.2 hgrouped]⟩

/-- **A negated product does not come back**: the rule `E[n-1] - x*y*E[n-2]` has minus one times the
product of `x` and `y`, and is printed with the factors minus one, `x` and `y`. -/
theorem product_regrouped : ∃ e p, parseRule sampleContext "E[n-1] - x*y*E[n-2]" none = .ok e ∧
    printRule sampleContext.names e = .ok p ∧ parseRule sampleContext p.body p.scale ≠ .ok e := by
  have hrun : (do
      let e ← parseRule sampleContext "E[n-1] - x*y*E[n-2]" none
      let p ← printRule sampleContext.names e
      let e' ← parseRule sampleContext p.body p.scale
      return (e.isGrouped, e'.isGrouped) : Except Error (Bool × Bool)) = .ok (false, true) :=
    toOption_eq_some_iff.1 (by decide +kernel)
  obtain ⟨e, he, hrun⟩ := bind_ok hrun
  obtain ⟨p, hp, hrun⟩ := bind_ok hrun
  obtain ⟨e', he', hrun⟩ := bind_ok hrun
  obtain ⟨hgrouped, hgrouped'⟩ := Prod.mk.inj (Except.ok.inj hrun)
  refine ⟨e, p, he, hp, fun hback => ?_⟩
  obtain rfl := Except.ok.inj (he'.symm.trans hback)
  rw [hgrouped] at hgrouped'
  cases hgrouped'

end RuleText

end RecurrenceCompiler
