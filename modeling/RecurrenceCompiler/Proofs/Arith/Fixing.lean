import RecurrenceCompiler.Proofs.Arith.Names
import RecurrenceCompiler.Proofs.Decimal.Operations
import RecurrenceCompiler.Proofs.Decimal.Spelling

/-!
# Fixing names in text

`substitute` writes numbers for names without reading the text around them. In a sentence that is safe:
behind every number and every name an operator follows or the text ends, and this stays so when numbers
are written for names, so each token is read where it stood before (`Fixing.reads`). A negative number is
read as two tokens, a minus sign and a number. In the grammar it is a signed primary where the name was a
primary, and a sentence stays one with a tree of the same value (`Derives.fix`, `Tree.eval_fix`). Only a
name that is called may not be fixed.

So a text with names fixed has the value that the text itself has where the names are bound
(`HasValue.substitute`).
-/

namespace RecurrenceCompiler.Arith

open Text Decimal

/-! ## Numbers in place of names -/

/-- Numbers to fix names at. They are finite, so their texts are numbers of arithmetic, and none is
negative zero, which is written as zero is. -/
structure Fixing where
  value : String → Option Float
  finite : ∀ {n x}, value n = some x → IsFinite x
  not_negativeZero : ∀ {n x}, value n = some x → isNegativeZero x = false

/-- Whether a number is written with a minus sign. -/
def isSigned (x : Float) : Bool :=
  (numberChars x).head? == some '-'

/-- The tokens of the text of a number. -/
def numberTokens (x : Float) : List Token :=
  if isSigned x then [.op .minus, .num (-x)] else [.num x]

/-- The tree of the text of a number. -/
def numberTree (x : Float) : Tree :=
  if isSigned x then .neg (.num (-x)) else .num x

namespace Fixing

/-- Names fixed at integers up to which doubles count. -/
def ofInts (is : List (String × Int)) (h : ∀ p ∈ is, p.2.natAbs ≤ 2 ^ 53) : Fixing where
  value n := (is.find? (·.1 == n)).map fun p => ofInt p.2
  finite hn := by
    obtain ⟨p, hp, rfl⟩ := Option.map_eq_some_iff.1 hn
    exact (isInt_ofInt (h p (List.mem_of_find?_eq_some hp))).finite
  not_negativeZero hn := by
    obtain ⟨p, -, rfl⟩ := Option.map_eq_some_iff.1 hn
    exact isNegativeZero_ofInt p.2

theorem mem_of_ofInts {is : List (String × Int)} {h : ∀ p ∈ is, p.2.natAbs ≤ 2 ^ 53} {n : String}
    {x : Float} (hn : (ofInts is h).value n = some x) : n ∈ is.map (·.1) := by
  obtain ⟨p, hp, -⟩ := Option.map_eq_some_iff.1 hn
  have hname := List.find?_some hp
  exact List.mem_map.2 ⟨p, List.mem_of_find?_eq_some hp, beq_iff_eq.1 hname⟩

/-- The texts that are written for names. -/
def text (f : Fixing) (n : String) : Option String :=
  (f.value n).map numberText

/-- The environment with the names bound. -/
def bind (f : Fixing) (env : Env Float) : Env Float :=
  fun n => (f.value n).or (env n)

/-- The tokens that are read where a token was. -/
def token (f : Fixing) : Token → List Token
  | .name n => ((f.value n).map numberTokens).getD [.name n]
  | t => [t]

/-- The tokens of a text with the names fixed. -/
def tokens (f : Fixing) (ts : List Token) : List Token :=
  ts.flatMap f.token

end Fixing

mutual

/-- A tree with the names fixed. -/
def Tree.fix (f : Fixing) : Tree → Tree
  | .num x => .num x
  | .name n => ((f.value n).map numberTree).getD (.name n)
  | .call n us => .call n (Tree.fixAll f us)
  | .neg t => .neg (Tree.fix f t)
  | .pos t => .pos (Tree.fix f t)
  | .bin op l r => .bin op (Tree.fix f l) (Tree.fix f r)

/-- Trees with the names fixed. -/
def Tree.fixAll (f : Fixing) : List Tree → List Tree
  | [] => []
  | t :: ts => Tree.fix f t :: Tree.fixAll f ts

end

theorem Tree.fixAll_append (f : Fixing) (us vs : List Tree) :
    Tree.fixAll f (us ++ vs) = Tree.fixAll f us ++ Tree.fixAll f vs := by
  induction us with
  | nil => rfl
  | cons u us ih => rw [List.cons_append, Tree.fixAll, Tree.fixAll, ih, List.cons_append]

/-! ## The value of a tree -/

theorem eval_numberTree (env : Env Float) (x : Float) : (numberTree x).eval env = .ok x := by
  rw [numberTree]
  split
  · exact congrArg Except.ok (double_neg_neg x)
  · rfl

mutual

/-- **A tree with names fixed has the value of the tree where they are bound**, failures included. -/
theorem Tree.eval_fix (f : Fixing) (env : Env Float) :
    ∀ t : Tree, (t.fix f).eval env = t.eval (f.bind env)
  | .num x => rfl
  | .name n => by
    rw [Tree.fix, Tree.eval, Fixing.bind]
    cases f.value n with
    | none => rfl
    | some x => exact eval_numberTree env x
  | .call n us => by
    rw [Tree.fix, Tree.eval, Tree.eval, Tree.evalAll_fixAll f env us]
  | .neg t => by
    rw [Tree.fix, Tree.eval, Tree.eval, Tree.eval_fix f env t]
  | .pos t => by
    rw [Tree.fix, Tree.eval, Tree.eval, Tree.eval_fix f env t]
  | .bin op l r => by
    rw [Tree.fix, Tree.eval, Tree.eval, Tree.eval_fix f env l, Tree.eval_fix f env r]

theorem Tree.evalAll_fixAll (f : Fixing) (env : Env Float) :
    ∀ us : List Tree, Tree.evalAll env (Tree.fixAll f us) = Tree.evalAll (f.bind env) us
  | [] => rfl
  | t :: us => by
    rw [Tree.fixAll, Tree.evalAll, Tree.evalAll, Tree.eval_fix f env t, Tree.evalAll_fixAll f env us]

end

/-! ## The grammar -/

/-- The names that are called among some tokens. -/
def calledNames : List Token → List String
  | .name n :: .op .left :: ts => n :: calledNames ts
  | _ :: ts => calledNames ts
  | [] => []

/-- A name in front of a parenthesis is called. -/
theorem mem_calledNames {n : String} {ts : List Token} (h : [.name n, .op .left] <:+: ts) :
    n ∈ calledNames ts := by
  fun_induction calledNames ts with
  | case1 m ts ih =>
    rcases List.infix_cons_iff.1 h with ⟨us, hus⟩ | h
    · cases (List.cons.inj hus).1
      exact List.mem_cons_self
    · rcases List.infix_cons_iff.1 h with ⟨us, hus⟩ | h
      · cases (List.cons.inj hus).1
      · exact List.mem_cons_of_mem _ (ih h)
  | case2 t ts hcall ih =>
    rcases List.infix_cons_iff.1 h with ⟨us, hus⟩ | h
    · obtain ⟨rfl, rfl⟩ := List.cons.inj hus
      exact (hcall n us rfl rfl).elim
    · exact ih h
  | case3 => simp at h

/-- An operator that opens no arguments stands between the names that are called before it and those
after it. -/
theorem calledNames_append_op {o : Op} (ho : o ≠ .left) (as bs : List Token) :
    calledNames (as ++ .op o :: bs) = calledNames as ++ calledNames bs := by
  fun_induction calledNames as with
  | case1 n ts ih => rw [List.cons_append, List.cons_append, calledNames, ih, List.cons_append]
  | case2 t ts hcall ih =>
    rw [List.cons_append, calledNames, ih]
    rintro n us rfl hus
    cases ts with
    | nil => exact ho (Token.op.inj (List.cons.inj hus).1)
    | cons u ts =>
      obtain ⟨rfl, -⟩ := List.cons.inj hus
      exact hcall n ts rfl rfl
  | case3 =>
    rw [List.nil_append, List.nil_append, calledNames]
    rintro n us ⟨⟩

theorem calledNames_op (o : Op) (ts : List Token) : calledNames (.op o :: ts) = calledNames ts := by
  rw [calledNames]
  rintro n us ⟨⟩

theorem calledNames_paren (ts : List Token) :
    calledNames (.op .left :: ts ++ [.op .right]) = calledNames ts := by
  rw [List.cons_append, calledNames_op, calledNames_append_op (by decide), calledNames, List.append_nil]

theorem Tree.evalAll_singleton {α : Type} [Carrier α] {env : Env α} {t : Tree} {v : α}
    (h : t.eval env = .ok v) : Tree.evalAll env [t] = .ok [v] := by
  rw [Tree.evalAll, h]
  rfl

/-- **Trees with values call elementary functions only.** -/
theorem Derives.elementary {nt ts us} (h : Derives nt ts us) {α : Type} [Carrier α] {env : Env α} :
    ∀ {vs : List α}, Tree.evalAll env us = .ok vs → ∀ n ∈ calledNames ts, (MathFn.ofName? n).isSome := by
  induction h with
  | ofTerm _ ih | ofUnary _ ih | ofPrimary _ ih | one _ ih => exact ih
  | @add as bs l r _ _ ihl ihr | @sub as bs l r _ _ ihl ihr | @mul as bs l r _ _ ihl ihr
  | @div as bs l r _ _ ihl ihr =>
    intro vs hvs
    obtain ⟨x, hx, -⟩ := bind_ok hvs
    obtain ⟨y, hy, hx⟩ := bind_ok hx
    obtain ⟨z, hz, -⟩ := bind_ok hx
    rw [calledNames_append_op (by decide)]
    exact List.forall_mem_append.2
      ⟨ihl (Tree.evalAll_singleton hy), ihr (Tree.evalAll_singleton hz)⟩
  | neg _ ih =>
    intro vs hvs
    obtain ⟨x, hx, -⟩ := bind_ok hvs
    obtain ⟨y, hy, -⟩ := bind_ok hx
    rw [calledNames_op]
    exact ih (Tree.evalAll_singleton hy)
  | pos _ ih =>
    intro vs hvs
    rw [calledNames_op]
    exact ih hvs
  | num | name => simp [calledNames]
  | @call n ts us _ ih =>
    intro vs hvs
    obtain ⟨x, hx, -⟩ := bind_ok hvs
    rw [Tree.eval] at hx
    split at hx
    · cases hx
    · next f hf =>
      obtain ⟨xs, hxs, -⟩ := bind_ok hx
      rw [List.cons_append, List.cons_append, calledNames, calledNames_append_op (by decide), calledNames,
        List.append_nil]
      refine List.forall_mem_cons.2 ⟨?_, ih hxs⟩
      rw [hf]
      rfl
  | paren _ ih =>
    intro vs hvs
    rw [calledNames_paren]
    exact ih hvs
  | more _ _ ihl ihr =>
    intro vs hvs
    rw [Tree.evalAll_concat] at hvs
    obtain ⟨xs, hxs, hvs⟩ := bind_ok hvs
    obtain ⟨y, hy, -⟩ := bind_ok hvs
    rw [calledNames_append_op (by decide)]
    exact List.forall_mem_append.2 ⟨ihl hxs, ihr (Tree.evalAll_singleton hy)⟩

/-- What a nonterminal becomes where a negative number may stand for a name. -/
def Nonterminal.signed : Nonterminal → Nonterminal
  | .primary => .unary
  | nt => nt

/-- The text of a number is a signed primary. -/
theorem derives_number (x : Float) : Derives .unary (numberTokens x) [numberTree x] := by
  rw [numberTokens, numberTree]
  split
  · exact .neg (.ofPrimary .num)
  · exact .ofPrimary .num

section
variable {f : Fixing} {as bs ts : List Token} {o : Op}

/-- None of the names that are fixed is called. -/
def Fixing.Uncalled (f : Fixing) (ts : List Token) : Prop :=
  ∀ n, [.name n, .op .left] <:+: ts → f.value n = none

theorem Fixing.Uncalled.of_infix (h : f.Uncalled ts) (hsub : as <:+: ts) : f.Uncalled as :=
  fun n hn => h n (hn.trans hsub)

theorem Fixing.Uncalled.append_op (h : f.Uncalled (as ++ .op o :: bs)) :
    f.Uncalled as ∧ f.Uncalled bs :=
  ⟨h.of_infix (List.prefix_append ..).isInfix,
    h.of_infix ((List.suffix_cons ..).trans (List.suffix_append ..)).isInfix⟩

theorem Fixing.Uncalled.cons (h : f.Uncalled (.op o :: ts)) : f.Uncalled ts :=
  h.of_infix (List.suffix_cons ..).isInfix

/-- What stands in parentheses calls none. -/
theorem Fixing.Uncalled.paren (h : f.Uncalled (Token.op .left :: ts ++ [Token.op .right])) :
    f.Uncalled ts :=
  h.append_op.1.cons

/-- A name that is called is not fixed. -/
theorem Fixing.Uncalled.call {n : String}
    (h : f.Uncalled (Token.name n :: .op .left :: ts ++ [Token.op .right])) :
    f.value n = none ∧ f.Uncalled ts := by
  have hhead : [.name n, .op .left] <+: Token.name n :: .op .left :: ts ++ [Token.op .right] :=
    List.prefix_append [Token.name n, .op .left] (ts ++ [Token.op .right])
  have hrest : Token.op .left :: ts ++ [Token.op .right] <:+
      Token.name n :: .op .left :: ts ++ [Token.op .right] := List.suffix_cons _ _
  exact ⟨h n hhead.isInfix, (h.of_infix hrest.isInfix).paren⟩

theorem Fixing.tokens_append_op (f : Fixing) (as bs : List Token) (o : Op) :
    f.tokens (as ++ .op o :: bs) = f.tokens as ++ .op o :: f.tokens bs :=
  List.flatMap_append

theorem Fixing.tokens_singleton (f : Fixing) (t : Token) : f.tokens [t] = f.token t :=
  List.flatMap_singleton ..

theorem Fixing.tokens_paren (f : Fixing) (ts : List Token) :
    f.tokens (Token.op .left :: ts ++ [Token.op .right]) =
      Token.op .left :: f.tokens ts ++ [Token.op .right] := by
  rw [f.tokens_append_op]
  rfl

/-- **What is derived stays derived with names fixed**, as long as none of them is called. -/
theorem Derives.fix {nt us} (h : Derives nt ts us) (hcalled : f.Uncalled ts) :
    Derives nt.signed (f.tokens ts) (Tree.fixAll f us) := by
  induction h with
  | ofTerm _ ih => exact .ofTerm (ih hcalled)
  | ofUnary _ ih => exact .ofUnary (ih hcalled)
  -- What was a primary has become a signed one already.
  | ofPrimary _ ih => exact ih hcalled
  | add _ _ ihl ihr =>
    rw [f.tokens_append_op]
    exact .add (ihl hcalled.append_op.1) (ihr hcalled.append_op.2)
  | sub _ _ ihl ihr =>
    rw [f.tokens_append_op]
    exact .sub (ihl hcalled.append_op.1) (ihr hcalled.append_op.2)
  | mul _ _ ihl ihr =>
    rw [f.tokens_append_op]
    exact .mul (ihl hcalled.append_op.1) (ihr hcalled.append_op.2)
  | div _ _ ihl ihr =>
    rw [f.tokens_append_op]
    exact .div (ihl hcalled.append_op.1) (ihr hcalled.append_op.2)
  | neg _ ih => exact .neg (ih hcalled.cons)
  | pos _ ih => exact .pos (ih hcalled.cons)
  | num => exact .ofPrimary .num
  | @name n =>
    rw [Tree.fixAll, Tree.fixAll, Tree.fix, f.tokens_singleton, Fixing.token]
    cases f.value n with
    | none => exact .ofPrimary .name
    | some x => exact derives_number x
  | @call n ts us _ ih =>
    obtain ⟨hn, hargs⟩ := hcalled.call
    have hname : f.token (.name n) = [.name n] := by
      rw [Fixing.token, hn]
      rfl
    have htokens : f.tokens (Token.name n :: .op .left :: ts ++ [Token.op .right]) =
        Token.name n :: .op .left :: f.tokens ts ++ [Token.op .right] := by
      rw [List.cons_append, Fixing.tokens, List.flatMap_cons, hname]
      exact congrArg (.name n :: ·) (f.tokens_paren ts)
    rw [htokens]
    exact .ofPrimary (.call (ih hargs))
  | @paren ts _ _ ih =>
    rw [f.tokens_paren]
    exact .ofPrimary (.paren (ih hcalled.paren))
  | one _ ih => exact .one (ih hcalled)
  | more _ _ ihl ihr =>
    rw [f.tokens_append_op, Tree.fixAll_append]
    exact .more (ihl hcalled.append_op.1) (ihr hcalled.append_op.2)

end

/-! ## The tokens of the text -/

/-- What goes on neither with a number nor with a name. -/
def Closes (rest : List Char) : Prop :=
  ∀ c ∈ rest.head?, isWord c = false ∧ c ≠ '.'

theorem closes_cons {c : Char} (hw : isWord c = false) (hd : c ≠ '.') {cs : List Char} :
    Closes (c :: cs) := by
  intro d hc
  obtain rfl := Option.some.inj hc
  exact ⟨hw, hd⟩

theorem Closes.stops {rest : List Char} (h : Closes rest) (l : Literal) : l.Stops rest where
  digit c hc := (Bool.or_eq_false_iff.1 (h c hc).1).2
  exponent _ := by
    cases rest with
    | nil => rfl
    | cons c cs =>
      have hc : (c == 'e' || c == 'E') = false := by
        by_contra he
        have hword := (h c rfl).1
        simp only [Bool.not_eq_false, Bool.or_eq_true, beq_iff_eq] at he
        rcases he with rfl | rfl <;> cases hword
      simp [scanExponent?, hc]
  point _ _ hdot := (h _ hdot).2 rfl

/-- A name is read up to what closes it. -/
theorem Token.first?_name {c : Char} {ws rest : List Char} (hc : isNameStart c) (hws : ws.all isWord)
    (hrest : Closes rest) :
    Token.first? (c :: ws ++ rest) = some (.name (String.ofList (c :: ws)), rest) := by
  have hstop : rest.takeWhile isWord = [] ∧ rest.dropWhile isWord = rest := by
    cases rest with
    | nil => exact ⟨rfl, rfl⟩
    | cons d rest => simp [(hrest d rfl).1]
  simp only [List.cons_append, Token.first?, scan?_eq_none_of_isNameStart hc, hc, if_true,
    takeWhile_append_of_all hws, dropWhile_append_of_all hws, hstop, List.append_nil]

/-- The text of a number is read as its tokens. -/
theorem tokens?_numberChars {x : Float} (hx : IsFinite x) (hzero : isNegativeZero x = false)
    {rest : List Char} (hrest : Closes rest) :
    tokens? (numberChars x ++ rest) = (tokens? rest).map (numberTokens x ++ ·) := by
  obtain ⟨n, l, hl, -, htext, -⟩ := exists_literal_numberChars hx
  have hread := (spells_numberChars x).signedLiteral?_eq hx hzero
  have hsigned : isSigned x = n := by
    rw [isSigned, htext]
    cases n with
    | false => simpa [signed] using hl.head_ne (c := '-') rfl (by decide)
    | true => rfl
  have hliteral : tokens? (l.chars ++ rest) = (tokens? rest).map (.num l.value :: ·) :=
    tokens?_lexeme (.num hl) (Token.first?_chars hl (hrest.stops l))
  rw [htext, signedLiteral?_signed hl, Option.some.injEq] at hread
  rw [numberTokens, hsigned, htext]
  cases n with
  | false =>
    rw [if_neg (by decide)] at hread
    rw [if_neg (by decide), ← hread]
    exact hliteral
  | true =>
    rw [if_pos rfl] at hread
    rw [if_pos rfl, ← hread, double_neg_neg]
    have hminus := tokens?_op .minus (l.chars ++ rest)
    rw [hliteral, Option.map_map] at hminus
    exact hminus

namespace Fixing

variable (f : Fixing)

/-- The characters of a text with the names fixed. -/
def chars (cs : List Char) : List Char :=
  (pieces cs).flatMap (Piece.replace f.text)

theorem chars_other {c : Char} (hw : isWord c = false) (hd : c ≠ '.') (cs : List Char) :
    f.chars (c :: cs) = c :: f.chars cs := by
  rw [chars, pieces_other hw hd]
  rfl

theorem chars_literal {l : Literal} (h : l.WellFormed) {rest : List Char}
    (hrest : ∀ c ∈ rest.head?, isNameStart c = false) :
    f.chars (l.chars ++ rest) = l.chars ++ f.chars rest := by
  have hkept : (l.chars.map Piece.other).flatMap (Piece.replace f.text) = l.chars := by
    rw [List.flatMap_map]
    exact List.flatMap_singleton' l.chars
  rw [chars, pieces_literal h hrest, List.flatMap_append, hkept, chars]

theorem chars_name {c : Char} {ws rest : List Char} (hc : isNameStart c) (hws : ws.all isWord)
    (hrest : ∀ c ∈ rest.head?, isWord c = false) :
    f.chars (c :: ws ++ rest) =
      ((f.value (String.ofList (c :: ws))).map numberChars).getD (c :: ws) ++ f.chars rest := by
  rw [chars, pieces_name hc hws hrest, List.flatMap_cons, Piece.replace, text, chars]
  cases f.value (String.ofList (c :: ws)) with
  | none => rfl
  | some x => exact congrArg (· ++ f.chars rest) String.toList_ofList

/-- How a text is read with the names fixed. -/
structure Reads (cs : List Char) (ts : List Token) : Prop where
  tokens : tokens? (f.chars cs) = some (f.tokens ts)
  /-- What follows a number or a name still closes it. -/
  closes : (∀ t ∈ ts.head?, ∃ o, t = .op o) → Closes (f.chars cs)

/-- **With names fixed, a text is read as its tokens with the names fixed**, if no two numbers or names
stand side by side. -/
theorem reads {cs : List Char} {ts : List Token} (h : tokens? cs = some ts) (hsep : Separated ts) :
    f.Reads cs ts := by
  refine tokens?_induction (P := fun cs ts => Separated ts → f.Reads cs ts) ?_ ?_ ?_ h hsep
  · intro _
    exact ⟨rfl, by simp [Closes, chars, pieces, piecesFrom]⟩
  · intro c cs ts hc _ ih hsep
    have hw := isWord_of_isJoint (isJoint_of_isBlank hc)
    have hd : c ≠ '.' := by
      rintro rfl
      cases hc
    refine ⟨?_, fun _ => ?_⟩
    · rw [f.chars_other hw hd, tokens?_blank hc, (ih hsep).tokens]
    · rw [f.chars_other hw hd]
      exact closes_cons hw hd
  · intro lex rest t ts hlex hfirst hts ih hsep
    obtain ⟨hnext, hsep⟩ := List.isChain_cons.1 hsep
    have hrest := ih hsep
    -- A number or a name has an operator behind it, or nothing.
    have hop (ht : ∀ o, t ≠ .op o) : ∀ u ∈ ts.head?, ∃ o, u = .op o := by
      intro u hu
      refine (hnext u hu).resolve_left ?_
      rintro ⟨o, ho⟩
      exact ht o ho
    have hhead {p : Prop} (ht : ∀ o, t ≠ .op o) (h : ∀ u ∈ (t :: ts).head?, ∃ o, u = .op o) : p := by
      obtain ⟨o, ho⟩ := h t rfl
      exact absurd ho (ht o)
    cases hlex with
    | @num l hl =>
      have hop := hop (by simp)
      refine ⟨?_, hhead (by simp)⟩
      have hnumber := tokens?_lexeme (.num hl) (Token.first?_chars hl ((hrest.closes hop).stops l))
      rw [hrest.tokens] at hnumber
      rw [f.chars_literal hl (isNameStart_of_op hts hop), hnumber]
      rfl
    | @name c ws hc hws =>
      have hcloses := hrest.closes (hop (by simp))
      refine ⟨?_, hhead (by simp)⟩
      rw [f.chars_name hc hws (isWord_after_name hc hws hfirst), Fixing.tokens, List.flatMap_cons, token]
      cases hx : f.value (String.ofList (c :: ws)) with
      | none =>
        have hname := tokens?_lexeme (.name hc hws) (Token.first?_name hc hws hcloses)
        rw [hrest.tokens] at hname
        exact hname
      | some x =>
        have hnumber := tokens?_numberChars (f.finite hx) (f.not_negativeZero hx) hcloses
        rw [hrest.tokens] at hnumber
        exact hnumber
    | op o =>
      have hw : isWord o.char = false := by cases o <;> rfl
      have hd : o.char ≠ '.' := by cases o <;> decide
      rw [List.singleton_append]
      refine ⟨?_, fun _ => ?_⟩
      · rw [f.chars_other hw hd, tokens?_op, hrest.tokens]
        rfl
      · rw [f.chars_other hw hd]
        exact closes_cons hw hd

end Fixing

/-- The names that a text uses as functions. -/
def functionsIn (text : String) : List String :=
  calledNames ((tokens? text.toList).getD [])

/-- A text with a value calls elementary functions only. -/
theorem HasValue.elementary {α : Type} [Carrier α] {env : Env α} {text : String} {v : α}
    (h : HasValue env text.toList v) : ∀ n ∈ functionsIn text, (MathFn.ofName? n).isSome := by
  obtain ⟨ts, t, hts, ht, hv⟩ := h
  rw [functionsIn, hts]
  exact ht.elementary (Tree.evalAll_singleton hv)

/-- **A text with names fixed has the value that the text has where they are bound**, as long as it
calls none of them. -/
theorem HasValue.substitute {f : Fixing} {env : Env Float} {text : String} {v : Float}
    (h : HasValue (f.bind env) text.toList v) (hcalled : ∀ n ∈ functionsIn text, f.value n = none) :
    HasValue env (Arith.substitute f.text text).toList v := by
  obtain ⟨ts, t, hts, ht, hv⟩ := h
  have huncalled : f.Uncalled ts := by
    intro n hn
    refine hcalled n ?_
    rw [functionsIn, hts]
    exact mem_calledNames hn
  refine ⟨f.tokens ts, t.fix f, ?_, ht.fix huncalled, ?_⟩
  · rw [Arith.substitute, String.toList_ofList]
    exact (f.reads hts ht.separated).tokens
  · rw [Tree.eval_fix, hv]

theorem eval_substitute {f : Fixing} {env : Env Float} {text : String} {v : Float}
    (h : eval (f.bind env) text = .ok v) (hcalled : ∀ n ∈ functionsIn text, f.value n = none) :
    eval env (Arith.substitute f.text text) = .ok v :=
  eval_eq_ok_iff.2 ((eval_eq_ok_iff.1 h).substitute hcalled)

/-- The same for a text that must be a whole number. -/
theorem evalIndex_substitute {f : Fixing} {env : Env Float} {text : String} {v : Float}
    (h : evalIndex (f.bind env) text = .ok v) (hcalled : ∀ n ∈ functionsIn text, f.value n = none) :
    evalIndex env (Arith.substitute f.text text) = .ok v := by
  obtain ⟨w, hw, h⟩ := bind_ok h
  split at h
  · next hwhole =>
    cases h
    simp only [evalIndex, eval_substitute hw hcalled, bind, Except.bind]
    rw [if_pos hwhole]
    rfl
  · cases h

end RecurrenceCompiler.Arith
