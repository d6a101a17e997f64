import RecurrenceCompiler.Proofs.Arith.Lexing
import RecurrenceCompiler.Proofs.Arith.Names
import RecurrenceCompiler.Proofs.Script.Grammar
import RecurrenceCompiler.Recurrence.Builder
import RecurrenceCompiler.Script.Run

/-!
# Arithmetic text in scripts

Generated scripts contain arithmetic text as it stands. Scripts read text by rules of their own: the
longest operator counts, so `--` is one operator, and digits that start with a zero are octal. On a text
without either, and without words that scripts reserve, the two readings agree: the text is an expression
of scripts with the same value (`verbatim_eval`).
-/

namespace RecurrenceCompiler.Script

open Text Decimal

/-! ## Texts that both read alike -/

/-- A number that scripts read as octal: its whole part starts with a zero and goes on with octal
digits. -/
def isOctal (l : Literal) : Bool :=
  match l.whole with
  | '0' :: _ :: _ => l.whole.all (· < '8')
  | _ => false

/-- A text that scripts cut into tokens as arithmetic does: no sign is doubled, and no number is
octal. -/
structure Plain (cs : List Char) : Prop where
  minus : ¬ ['-', '-'] <:+: cs
  plus : ¬ ['+', '+'] <:+: cs
  decimal : ∀ l ∈ Arith.literals cs, isOctal l = false

/-- What is left of such a text. -/
theorem Plain.of_suffix {cs rest : List Char} (h : Plain cs) (hsuffix : rest <:+ cs)
    (hlit : Arith.literals rest ⊆ Arith.literals cs) : Plain rest where
  minus hi := h.minus (hi.trans hsuffix.isInfix)
  plus hi := h.plus (hi.trans hsuffix.isInfix)
  decimal l hl := h.decimal l (hlit hl)

/-! ## Tokens -/

/-- An operator of arithmetic in scripts. -/
def Mark.ofOp : Arith.Op → Mark
  | .plus => .op .add
  | .minus => .op .sub
  | .times => .op .mul
  | .slash => .op .div
  | .left => .left
  | .right => .right
  | .comma => .comma

/-- A token of arithmetic in scripts. -/
def Token.ofArith : Arith.Token → Token
  | .num x => .num x
  | .name n => .name n
  | .op o => .mark (.ofOp o)

/-- The whole part of a literal is the digits at the front. -/
theorem whole_of_scan? {cs rest : List Char} {l : Literal} (h : Literal.scan? cs = some (l, rest)) :
    cs.takeWhile isDigit = l.whole := by
  have hexp {l l' : Literal} {cs rest : List Char} (h : l.withExponent cs = (l', rest)) :
      l.whole = l'.whole := by
    unfold Literal.withExponent at h
    split at h <;> cases h <;> rfl
  unfold Literal.scan? at h
  dsimp only at h
  split at h
  · split at h
    · cases h
    · exact hexp (Option.some.inj h)
  · split at h
    · cases h
    · exact hexp (Option.some.inj h)

/-- A number that is not octal is read as in arithmetic. -/
theorem number?_of_scan? {cs rest : List Char} {l : Literal} (h : Literal.scan? cs = some (l, rest))
    (hoctal : isOctal l = false) : number? cs = some (l.value, rest) := by
  rw [number?, whole_of_scan? h]
  dsimp only
  split
  · next hwhole =>
    have hall : l.whole.all (· < '8') = false := by
      rw [isOctal, hwhole] at hoctal
      rw [hwhole]
      exact hoctal
    rw [hall, h]
    rfl
  · rw [h]
    rfl

/-- What starts with neither a digit nor a point is no number. -/
theorem number?_eq_none {c : Char} (hd : isDigit c = false) (hp : c ≠ '.') (cs : List Char) :
    number? (c :: cs) = none := by
  rw [number?, List.takeWhile_cons_of_neg (by simp [hd])]
  dsimp only
  rw [scan?_eq_none hd hp]
  rfl

/-- A name is read as in arithmetic, up to what ends it. -/
theorem first?_name {c : Char} {ws rest : List Char} (hc : isNameStart c) (hws : ws.all isWord)
    (hrest : ∀ d ∈ rest.head?, continuesName d = false) :
    Token.first? (c :: ws ++ rest) = some (.name (String.ofList (c :: ws)), rest) := by
  have hdigit : isDigit c = false := by
    cases hd : isDigit c with
    | false => rfl
    | true => simp [isNameStart_of_isDigit hd] at hc
  have hdot : c ≠ '.' := by
    rintro rfl
    cases hc
  have hcontinues : ws.all continuesName := by
    simp only [List.all_eq_true, isWord, Bool.or_eq_true] at hws ⊢
    intro d hd
    rcases hws d hd with h | h <;> simp [continuesName, startsName, h]
  have hstop : rest.takeWhile continuesName = [] ∧ rest.dropWhile continuesName = rest := by
    cases rest with
    | nil => simp
    | cons d rest => simp [hrest d rfl]
  have hstart : startsName c = true := by simp [startsName, hc]
  rw [List.cons_append, Token.first?, number?_eq_none hdigit hdot]
  simp only [hstart, if_true, takeWhile_append_of_all hcontinues, dropWhile_append_of_all hcontinues,
    hstop, List.append_nil]

/-- The characters with which an operator goes on as another one. -/
def joins : Arith.Op → Char → Bool
  | .plus, c => c == '+' || c == '='
  | .minus, c => c == '-' || c == '='
  | .times, c => c == '*' || c == '='
  | .slash, c => c == '/' || c == '*' || c == '='
  | _, _ => false

/-- The operators of scripts that start like one of arithmetic: that one, and those that go on. -/
theorem mark_of_head (o : Arith.Op) : ∀ m ∈ marks, m.1.toList.head? = some o.char →
    m = (String.singleton o.char, some (.ofOp o)) ∨ m.1.toList[1]?.any (joins o) = true := by
  cases o <;> decide

/-- The operators of arithmetic are among those of scripts. -/
theorem mem_marks (o : Arith.Op) : (String.singleton o.char, some (Mark.ofOp o)) ∈ marks := by
  cases o <;> decide

/-- An operator is read as in arithmetic, unless it goes on as another one. -/
theorem mark?_op {o : Arith.Op} {rest : List Char} (hrest : ∀ d ∈ rest.head?, joins o d = false) :
    mark? (o.char :: rest) = some (.ofOp o, rest) := by
  have hsingle : (String.singleton o.char).toList = [o.char] := by cases o <;> rfl
  have hsome : (marks.find? fun m => m.1.toList.isPrefixOf (o.char :: rest)).isSome :=
    List.find?_isSome.2 ⟨_, mem_marks o, by rw [hsingle]; simp⟩
  obtain ⟨m, hm⟩ := Option.isSome_iff_exists.1 hsome
  have hprefix : m.1.toList <+: o.char :: rest := by simpa using List.find?_some hm
  have hne : ∀ m ∈ marks, m.1.toList ≠ [] := by decide
  have hmem := List.mem_of_find?_eq_some hm
  obtain ⟨c, cs, hcs⟩ := List.exists_cons_of_ne_nil (hne m hmem)
  rw [hcs, List.cons_prefix_cons] at hprefix
  obtain ⟨rfl, hprefix⟩ := hprefix
  rcases mark_of_head o m hmem (by rw [hcs]; rfl) with rfl | hjoins
  · rw [mark?, hm]
    cases o <;> rfl
  · -- The second character of the operator follows in the text.
    cases cs with
    | nil =>
      rw [hcs] at hjoins
      cases hjoins
    | cons d cs =>
      obtain ⟨rest', rfl⟩ := hprefix
      rw [hcs] at hjoins
      have hd := hrest d rfl
      simp [hd] at hjoins

theorem first?_op {o : Arith.Op} {rest : List Char} (hrest : ∀ d ∈ rest.head?, joins o d = false) :
    Token.first? (o.char :: rest) = some (.mark (.ofOp o), rest) := by
  have hdigit : isDigit o.char = false := by cases o <;> rfl
  have hdot : o.char ≠ '.' := by cases o <;> decide
  have hstart : startsName o.char = false := by cases o <;> rfl
  rw [Token.first?, number?_eq_none hdigit hdot]
  simp [hstart, mark?_op hrest]

/-! ## Texts of sentences -/

/-- A star or a slash. -/
def isStar : Arith.Token → Bool
  | .op .times | .op .slash => true
  | _ => false

/-- No two stars or slashes stand side by side. -/
def Spaced (ts : List Arith.Token) : Prop :=
  ts.IsChain fun t u => isStar t = false ∨ isStar u = false

/-- No two stars or slashes stand side by side, nor one at either end. -/
structure Factored (ts : List Arith.Token) : Prop where
  head : ∀ t ∈ ts.head?, isStar t = false
  last : ∀ t ∈ ts.getLast?, isStar t = false
  spaced : Spaced ts

theorem factored_singleton {t : Arith.Token} (h : isStar t = false) : Factored [t] := by
  refine ⟨?_, ?_, .singleton t⟩ <;> rintro _ ⟨⟩ <;> exact h

/-- Two runs, one behind the other. -/
theorem Factored.append {as bs : List Arith.Token} (ha : Factored as) (hb : Factored bs) :
    Factored (as ++ bs) := by
  refine ⟨fun t ht => ?_, fun t ht => ?_, List.isChain_append.2 ⟨ha.spaced, hb.spaced, ?_⟩⟩
  · rw [List.head?_append, Option.mem_def, Option.or_eq_some_iff] at ht
    rcases ht with ht | ⟨-, ht⟩
    · exact ha.head t ht
    · exact hb.head t ht
  · rw [List.getLast?_append, Option.mem_def, Option.or_eq_some_iff] at ht
    rcases ht with ht | ⟨-, ht⟩
    · exact hb.last t ht
    · exact ha.last t ht
  · intro t ht _ _
    exact .inl (ha.last t ht)

/-- Two runs with an operator between them. -/
theorem Factored.join {o : Arith.Token} {as bs : List Arith.Token} (ha : Factored as)
    (hb : Factored bs) (has : 0 < as.length) (hbs : 0 < bs.length) : Factored (as ++ o :: bs) := by
  obtain ⟨a, as, rfl⟩ := List.exists_cons_of_length_pos has
  obtain ⟨b, bs, rfl⟩ := List.exists_cons_of_length_pos hbs
  refine ⟨ha.head, fun t ht => hb.last t ?_,
    List.isChain_append.2 ⟨ha.spaced, List.isChain_cons.2 ⟨?_, hb.spaced⟩, ?_⟩⟩
  · rw [List.getLast?_append, List.getLast?_cons_cons] at ht
    simpa using ht
  · rintro _ ⟨⟩
    exact .inr (hb.head b rfl)
  · intro t ht _ _
    exact .inl (ha.last t ht)

/-- **In what the grammar derives each star and slash stands between two operands.** -/
theorem factored_of_derives {nt ts us} (h : Arith.Derives nt ts us) : Factored ts := by
  induction h with
  | ofTerm _ ih | ofUnary _ ih | ofPrimary _ ih | one _ ih => exact ih
  | add hl hr ihl ihr | sub hl hr ihl ihr | mul hl hr ihl ihr | div hl hr ihl ihr
  | more hl hr ihl ihr => exact ihl.join ihr hl.length_pos hr.length_pos
  | neg _ ih | pos _ ih => exact (factored_singleton rfl).append ih
  | num | name => exact factored_singleton rfl
  | paren _ ih => exact ((factored_singleton rfl).append ih).append (factored_singleton rfl)
  | call _ ih =>
    exact (factored_singleton rfl).append
      (((factored_singleton rfl).append ih).append (factored_singleton rfl))

/-- What a text of arithmetic starts with: a blank, or its first token. -/
theorem head_of_tokens? {c : Char} {cs : List Char} {ts : List Arith.Token}
    (h : Arith.tokens? (c :: cs) = some ts) :
    isBlank c ∨ ∃ t us lex, ts = t :: us ∧ Arith.Lexeme t (c :: lex) := by
  by_cases hc : isBlank c
  · exact .inl hc
  · right
    have hc : isBlank c = false := by simpa using hc
    cases hf : Arith.Token.first? (c :: cs) with
    | none => simp [Arith.tokens?_none hc hf] at h
    | some p =>
      obtain ⟨t, rest⟩ := p
      rw [Arith.tokens?_first hc hf] at h
      obtain ⟨us, -, rfl⟩ := Option.map_eq_some_iff.1 h
      obtain ⟨lex, hlex, hcs, -⟩ := Arith.Token.exists_lexeme hf
      obtain ⟨d, ds, rfl, -⟩ := hlex.exists_cons
      obtain ⟨rfl, -⟩ := List.cons.inj hcs
      exact ⟨t, us, ds, rfl, hlex⟩

/-- Before an operator or the end of a text no name goes on, and none starts. -/
theorem continuesName_of_op {cs : List Char} {ts : List Arith.Token} (h : Arith.tokens? cs = some ts)
    (hop : ∀ t ∈ ts.head?, ∃ o, t = .op o) : ∀ c ∈ cs.head?, continuesName c = false := by
  intro c hc
  obtain ⟨cs, rfl⟩ : ∃ r, cs = c :: r := List.head?_eq_some_iff.1 hc
  rcases head_of_tokens? h with hblank | ⟨t, us, lex, rfl, hlex⟩
  · exact continuesName_of_isBlank hblank
  · obtain ⟨o, rfl⟩ := hop t rfl
    cases hlex
    cases o <;> rfl

/-- A text of arithmetic has no equals sign. -/
theorem tokens?_equals (cs : List Char) : Arith.tokens? ('=' :: cs) = none := by
  have hfirst : Arith.Token.first? ('=' :: cs) = none := by
    rw [Arith.Token.first?, scan?_eq_none rfl (by decide)]
    rfl
  exact Arith.tokens?_none rfl hfirst

/-- After an operator of a sentence nothing makes it another one of scripts, if no sign is doubled. -/
theorem joins_of_factored {o : Arith.Op} {cs : List Char} {ts : List Arith.Token}
    (h : Arith.tokens? cs = some ts) (hstar : ∀ t ∈ ts.head?, isStar (.op o) = false ∨ isStar t = false)
    (hminus : ¬ ['-', '-'] <+: o.char :: cs) (hplus : ¬ ['+', '+'] <+: o.char :: cs) :
    ∀ c ∈ cs.head?, joins o c = false := by
  intro c hc
  obtain ⟨cs, rfl⟩ : ∃ r, cs = c :: r := List.head?_eq_some_iff.1 hc
  -- The operator that follows is the first token of the rest.
  have hfollows {p : Arith.Op} (hp : c = p.char) : ts.head? = some (.op p) := by
    subst hp
    rw [Arith.tokens?_op] at h
    obtain ⟨us, -, rfl⟩ := Option.map_eq_some_iff.1 h
    rfl
  have hequals : c ≠ '=' := by
    rintro rfl
    rw [tokens?_equals] at h
    cases h
  by_contra hjoins
  cases o with
  | plus =>
    obtain rfl : c = '+' := by simpa [joins, hequals] using hjoins
    exact hplus (by simp [Arith.Op.char])
  | minus =>
    obtain rfl : c = '-' := by simpa [joins, hequals] using hjoins
    exact hminus (by simp [Arith.Op.char])
  | times =>
    have hc : c = '*' := by simpa [joins, hequals] using hjoins
    simpa [isStar] using hstar _ (hfollows (p := .times) hc)
  | slash =>
    have hc : c = '/' ∨ c = '*' := by simpa [joins, hequals, or_iff_not_imp_left] using hjoins
    rcases hc with hc | hc
    · simpa [isStar] using hstar _ (hfollows (p := .slash) hc)
    · simpa [isStar] using hstar _ (hfollows (p := .times) hc)
  | left | right | comma => exact hjoins rfl

/-- A token is read as in arithmetic, unless its number is octal or what follows goes on with it. -/
theorem first?_of_arith {c : Char} {cs rest : List Char} {t : Arith.Token}
    (h : Arith.Token.first? (c :: cs) = some (t, rest))
    (hoctal : ∀ l r, Literal.scan? (c :: cs) = some (l, r) → isOctal l = false)
    (hend : (∀ o, t ≠ .op o) → ∀ d ∈ rest.head?, continuesName d = false)
    (hjoins : ∀ o, t = .op o → ∀ d ∈ rest.head?, joins o d = false) :
    Token.first? (c :: cs) = some (.ofArith t, rest) := by
  rw [Arith.Token.first?] at h
  split at h
  · next l r hscan =>
    cases h
    have hname : rest.head?.any startsName = false := by
      cases hd : rest.head? with
      | none => rfl
      | some d => exact (Bool.or_eq_false_iff.1 (hend (by simp) d hd)).1
    rw [Token.first?, number?_of_scan? hscan (hoctal l _ hscan)]
    simp only [hname]
    rfl
  · split at h
    · next hc =>
      cases h
      have hread := first?_name hc (List.all_takeWhile (p := isWord) (l := cs)) (hend (by simp))
      rwa [List.cons_append, List.takeWhile_append_dropWhile] at hread
    · obtain ⟨o, ho, heq⟩ := Option.map_eq_some_iff.1 h
      cases heq
      obtain rfl := Arith.Op.char_of_ofChar? ho
      exact first?_op (hjoins o rfl)

/-- **The tokens of a sentence are those that scripts read.** -/
theorem tokens?_of_arith {cs : List Char} {ts : List Arith.Token} (h : Arith.tokens? cs = some ts) :
    Arith.Separated ts → Spaced ts → Plain cs → tokens? cs = some (ts.map .ofArith) := by
  refine Arith.tokens?_induction (P := fun cs ts => Arith.Separated ts → Spaced ts → Plain cs →
    tokens? cs = some (ts.map .ofArith)) ?_ ?_ ?_ h
  · intros
    rfl
  · intro c cs ts hc _ ih hsep hspaced hplain
    rw [tokens?_blank hc]
    exact ih hsep hspaced (hplain.of_suffix (List.suffix_cons c cs) (Arith.literals_blank hc cs ▸ List.Subset.refl _))
  · intro lex rest t ts hlex hfirst hts ih hsep hspaced hplain
    obtain ⟨hnext, hsep⟩ := List.isChain_cons.1 hsep
    obtain ⟨hstar, hspaced⟩ := List.isChain_cons.1 hspaced
    obtain ⟨c, cs, rfl, hc⟩ := hlex.exists_cons
    rw [List.cons_append] at hfirst hplain ⊢
    have hlit := Arith.literals_first hc hfirst
    have hread : Token.first? (c :: (cs ++ rest)) = some (.ofArith t, rest) := by
      refine first?_of_arith hfirst (fun l r hl => ?_) (fun ht => ?_) ?_
      · exact hplain.decimal l (by rw [hlit, hl]; simp)
      · -- What follows a number or a name is an operator.
        exact continuesName_of_op hts fun u hu => (hnext u hu).resolve_left fun ⟨o, ho⟩ => ht o ho
      · rintro o rfl
        obtain ⟨rfl, rfl⟩ : c = o.char ∧ cs = [] := by
          cases hlex
          exact ⟨rfl, rfl⟩
        exact joins_of_factored hts hstar (fun hp => hplain.minus hp.isInfix)
          (fun hp => hplain.plus hp.isInfix)
    have hrest := hplain.of_suffix (List.suffix_append (c :: cs) rest)
      (hlit ▸ List.subset_append_right _ _)
    rw [tokens?_first hc hread, ih hsep hspaced hrest]
    rfl

/-! ## Expressions -/

/-- An operator of arithmetic in scripts. -/
def Operator.ofBinOp : BinOp → Operator
  | .add => .add
  | .sub => .sub
  | .mul => .mul
  | .div => .div

mutual

/-- The expression of scripts with the tree of a sentence. -/
def Expression.ofTree : Arith.Tree → Expression
  | .num x => .num x
  | .name n => .name n
  | .call f us => .call (.name f) (Expression.ofTrees us)
  | .neg t => .negate (Expression.ofTree t)
  | .pos t => .positive (Expression.ofTree t)
  | .bin op l r => .binary (.ofBinOp op) (Expression.ofTree l) (Expression.ofTree r)

/-- The expressions of the arguments of a call. -/
def Expression.ofTrees : List Arith.Tree → List Expression
  | [] => []
  | t :: us => Expression.ofTree t :: Expression.ofTrees us

end

theorem ofTrees_eq_map (us : List Arith.Tree) : Expression.ofTrees us = us.map Expression.ofTree := by
  induction us with
  | nil => rfl
  | cons t us ih => rw [Expression.ofTrees, ih, List.map_cons]

/-- A name that is not reserved stands for itself. -/
theorem nameExpression?_of_not_reserved {n : String} (h : n ∉ reservedWords) :
    nameExpression? n = some (.name n) := by
  have hne {w : String} (hw : w ∈ reservedWords) : n ≠ w := fun heq => h (heq ▸ hw)
  have htrue := hne (w := "true") (by decide)
  have hfalse := hne (w := "false") (by decide)
  have hnull := hne (w := "null") (by decide)
  have hthis := hne (w := "this") (by decide)
  simp [nameExpression?, htrue, hfalse, hnull, hthis, h]

/-- What scripts read where arithmetic reads a nonterminal. Sums join at level five and products at
level six. -/
def ParsesAs : Arith.Nonterminal → List Arith.Token → List Arith.Tree → Prop
  | .expr, ts, us => ∀ level ≤ 5, Parses (.binary level) (ts.map .ofArith) (Expression.ofTrees us)
  | .term, ts, us => ∀ level ≤ 6, Parses (.binary level) (ts.map .ofArith) (Expression.ofTrees us)
  | .unary, ts, us => Parses .unary (ts.map .ofArith) (Expression.ofTrees us)
  | .primary, ts, us => Parses .operand (ts.map .ofArith) (Expression.ofTrees us)
  | .args, ts, us => Parses .args (ts.map .ofArith) (Expression.ofTrees us)

/-- **What arithmetic derives, scripts parse as the same tree.** -/
theorem parses_of_derives {nt ts us} (h : Arith.Derives nt ts us)
    (hnames : ∀ n, .name n ∈ ts → n ∉ reservedWords) : ParsesAs nt ts us := by
  induction h with
  | ofTerm _ ih => exact fun level hl => ih hnames level (by omega)
  | @add as bs l r _ _ ihl ihr | @sub as bs l r _ _ ihl ihr =>
    intro level hl
    have hleft := ihl (fun n hn => hnames n (by simp [hn])) 5 le_rfl
    have hright := ihr (fun n hn => hnames n (by simp [hn])) 6 le_rfl
    rw [List.map_append, List.map_cons]
    exact .join rfl hl hleft hright
  | ofUnary _ ih => exact fun level _ => .ofUnary (ih hnames)
  | @mul as bs l r _ _ ihl ihr | @div as bs l r _ _ ihl ihr =>
    intro level hl
    have hleft := ihl (fun n hn => hnames n (by simp [hn])) 6 le_rfl
    have hright := ihr fun n hn => hnames n (by simp [hn])
    rw [List.map_append, List.map_cons]
    exact .join rfl hl hleft (.ofUnary hright)
  | ofPrimary _ ih => exact .ofOperand (ih hnames)
  | neg _ ih => exact .negate (ih fun n hn => hnames n (by simp [hn]))
  | pos _ ih => exact .positive (ih fun n hn => hnames n (by simp [hn]))
  | num => exact .num
  | name => exact .name (nameExpression?_of_not_reserved (hnames _ (by simp)))
  | @call n ts us _ ih =>
    have hargs := ih fun n hn => hnames n (by simp [hn])
    have hname := Parses.name (nameExpression?_of_not_reserved (hnames n (by simp)))
    simpa [ParsesAs, Token.ofArith, Mark.ofOp, Expression.ofTrees, Expression.ofTree] using
      hname.call hargs
  | @paren ts t _ ih =>
    have hinside := ih (fun n hn => hnames n (by simp [hn])) 1 (by omega)
    simpa [ParsesAs, Token.ofArith, Mark.ofOp, Expression.ofTrees] using
      Parses.paren (.ofBinary hinside)
  | one _ ih => exact .one (.ofBinary (ih hnames 1 (by omega)))
  | @more as bs us t _ _ ihl ihr =>
    have hleft := ihl fun n hn => hnames n (by simp [hn])
    have hright := ihr (fun n hn => hnames n (by simp [hn])) 1 (by omega)
    simpa [ParsesAs, Token.ofArith, Mark.ofOp, ofTrees_eq_map] using hleft.concat (.ofBinary hright)

/-! ## Values -/

section
variable {α : Type} [Carrier α]

/-- A scope of a script where arithmetic has its names: the variables with their values, and under its
name each elementary function. -/
structure Serves (env : Arith.Env α) (names : Expression.Names α) (functions : Expression.Functions α) :
    Prop where
  values : ∀ n v, env n = some v → names n = .ok (.num v)
  named : ∀ f : MathFn, names f.name = .ok (.function (.math f))
  apply : ∀ (f : MathFn) (vs : List α), vs.length = f.arity →
    functions (.math f) (vs.map .num) = .ok (.num (Carrier.apply f vs))

theorem ofName?_eq_some {n : String} {f : MathFn} (h : MathFn.ofName? n = some f) : f.name = n := by
  simpa using List.find?_some h

variable {env : Arith.Env α} {names : Expression.Names α} {functions : Expression.Functions α}

/-- The value of an operator on two numbers. -/
theorem ofBinOp_apply (op : BinOp) (x y : α) :
    (Operator.ofBinOp op).apply (.num x) (.num y) = .num (op.apply x y) := by
  cases op <;> rfl

mutual

/-- **The value of a tree is that of its expression.** -/
theorem eval_ofTree (h : Serves env names functions) : ∀ {t : Arith.Tree} {v : α},
    t.eval env = .ok v → (Expression.ofTree t).eval names functions = .ok (.num v)
  | .num x, v, hv => by
    cases hv
    rfl
  | .name n, v, hv => by
    rw [Arith.Tree.eval] at hv
    split at hv
    · next hn =>
      cases hv
      exact h.values n _ hn
    · cases hv
  | .call n us, v, hv => by
    rw [Arith.Tree.eval] at hv
    split at hv
    · cases hv
    · next f hf =>
      obtain ⟨vs, hvs, hv⟩ := Arith.bind_ok hv
      split at hv
      · next harity =>
        cases hv
        have hname := h.named f
        rw [ofName?_eq_some hf] at hname
        rw [Expression.ofTree, Expression.eval, Expression.eval, hname, evalAll_ofTrees h hvs]
        exact h.apply f vs (by simpa using harity)
      · cases hv
  | .neg t, v, hv => by
    obtain ⟨x, hx, hv⟩ := Arith.bind_ok hv
    cases hv
    rw [Expression.ofTree, Expression.eval, eval_ofTree h hx]
    rfl
  | .pos t, v, hv => by
    rw [Expression.ofTree, Expression.eval, eval_ofTree h (t := t) hv]
    rfl
  | .bin op l r, v, hv => by
    obtain ⟨x, hx, hv⟩ := Arith.bind_ok hv
    obtain ⟨y, hy, hv⟩ := Arith.bind_ok hv
    cases hv
    rw [Expression.ofTree, Expression.eval, eval_ofTree h hx, eval_ofTree h hy]
    exact congrArg Except.ok (ofBinOp_apply op x y)

theorem evalAll_ofTrees (h : Serves env names functions) : ∀ {us : List Arith.Tree} {vs : List α},
    Arith.Tree.evalAll env us = .ok vs →
      Expression.evalAll names functions (Expression.ofTrees us) = .ok (vs.map .num)
  | [], vs, hvs => by
    cases hvs
    rfl
  | t :: us, vs, hvs => by
    obtain ⟨x, hx, hvs⟩ := Arith.bind_ok hvs
    obtain ⟨xs, hxs, hvs⟩ := Arith.bind_ok hvs
    cases hvs
    rw [Expression.ofTrees, Expression.evalAll, eval_ofTree h hx, evalAll_ofTrees h hxs]
    rfl

end

/-! ## Text in a running function -/

/-- An elementary function on numbers. -/
theorem applyMath_map (f : MathFn) {vs : List α} (h : vs.length = f.arity) :
    Value.applyMath f (vs.map .num) = .num (Carrier.apply f vs) := by
  have hargs : (List.range f.arity).map (fun i => ((vs.map Value.num)[i]?.getD .undefined).toNumber) =
      vs := by
    refine List.ext_getElem (by simp [h]) fun i hi hi' => ?_
    simp [hi', Value.toNumber]
  rw [Value.applyMath, hargs]

/-- A running function of a unit that has the variables of arithmetic with their values, and leaves the
names of the elementary functions alone. -/
structure Scoped (p : Program) (unit : Nat) (s : Locals α) (env : Arith.Env α) : Prop where
  values : ∀ n v, env n = some v → s.find? n = some ⟨n, some (.num v)⟩
  functions : ∀ f : MathFn, s.find? f.name = none
  unit : ∃ u, p.units[unit]? = some u ∧ ∀ f : MathFn, u.content.defines f.name = false

/-- What surrounds a running function of a unit. -/
def unitWorld (p : Program) (unit : Nat) (limits : Limits) (depth : Nat) : World α :=
  ⟨p.nameIn unit, p.invoke limits depth⟩

/-- Such a function serves arithmetic. -/
theorem Scoped.serves {p : Program} {unit : Nat} {s : Locals α} (h : Scoped p unit s env)
    (limits : Limits) (depth : Nat) :
    Serves env (s.read (p.nameIn unit)) (unitWorld p unit limits (depth + 1)).value where
  values n v hn := by rw [Locals.read, h.values n v hn]
  named f := by
    obtain ⟨u, hu, hdefines⟩ := h.unit
    have hname : MathFn.ofName? f.name = some f := by cases f <;> rfl
    rw [Locals.read, h.functions f]
    simp [Program.nameIn, hu, hdefines f, hname]
  apply f vs hvs := congrArg Except.ok (applyMath_map f hvs)

/-- A text that scripts read as arithmetic does: its tokens are the same, and no name is reserved. -/
structure Verbatim (text : String) : Prop where
  plain : Plain text.toList
  names : ∀ n ∈ reservedWords, Arith.mentions text n = false

/-- **Arithmetic text means the same in a script**: where it has a value, it is an expression of
scripts, and a function that has its variables gives it that value. -/
theorem verbatim_eval {p : Program} {unit : Nat} {s : Locals α} {text : String} {v : α}
    (hs : Scoped p unit s env) (htext : Verbatim text) (h : Arith.eval env text = .ok v)
    (limits : Limits) (depth : Nat) :
    ∃ e, Expression.parse? text = some e ∧
      (unitWorld p unit limits (depth + 1)).eval s e = .ok (.num v) := by
  obtain ⟨ts, t, hts, ht, hv⟩ := Arith.eval_eq_ok_iff.1 h
  have htokens := tokens?_of_arith hts ht.separated (factored_of_derives ht).spaced htext.plain
  have hnames : ∀ n, .name n ∈ ts → n ∉ reservedWords := by
    intro n hn hres
    have hmem := Arith.mentions_iff.2 (Arith.mem_pieceNames hts ht.separated n hn)
    rw [htext.names n hres] at hmem
    cases hmem
  have hparse := parses_of_derives ht hnames 1 (by omega)
  refine ⟨Expression.ofTree t, ?_, eval_ofTree (hs.serves limits depth) hv⟩
  rw [Expression.parse?, htokens, Option.bind_eq_bind, Option.bind_some]
  rw [read?_of_parses (.ofBinary hparse)]

end

/-! ## A text that means the same, and one that does not -/

/-- A program with one unit, which defines nothing. -/
def emptyUnit : Program where
  units := [⟨"Seq", .functions [], []⟩]

/-- A running function with the variable `n`. -/
def indexLocals (n : Float) : Locals Float :=
  [⟨"n", some (.num n)⟩]

/-- The value of `n` in arithmetic. -/
def indexEnv (n : Float) : Arith.Env Float := fun name => if name = "n" then some n else none

theorem scoped_indexLocals (n : Float) : Scoped emptyUnit 0 (indexLocals n) (indexEnv n) where
  values name v h := by
    rw [indexEnv] at h
    split at h
    · next hname =>
      cases h
      subst hname
      rfl
    · cases h
  functions f := by cases f <;> rfl
  unit := ⟨_, rfl, fun f => by cases f <;> rfl⟩

/-- A signed quotient with a decimal fraction. -/
theorem verbatim_eval_quotient : ∃ e v, Expression.parse? "-(n + 10.5)/2" = some e ∧
    Arith.eval (indexEnv 1) "-(n + 10.5)/2" = .ok v ∧
      (unitWorld emptyUnit 0 Program.standardLimits 1).eval (indexLocals 1) e = .ok (.num v) := by
  have htext : Verbatim "-(n + 10.5)/2" := ⟨⟨by decide, by decide, by decide⟩, by decide +kernel⟩
  have hsome : ((Arith.eval (indexEnv 1) "-(n + 10.5)/2").toOption.any fun _ => true) = true := by
    decide +kernel
  obtain ⟨v, hv, -⟩ := Arith.exists_ok_of_any hsome
  obtain ⟨e, he, hvalue⟩ :=
    verbatim_eval (scoped_indexLocals 1) htext hv Program.standardLimits 0
  exact ⟨e, v, he, hv, hvalue⟩

/-- A recurrence whose coefficient adds a number with a leading zero. -/
def octalRule : Except Error Recurrence := do
  let r ← Recurrence.create "Seq" ["n"] [] {}
  r.build [.base [("n", 0)] (.number 1), .rule "n > 0" "(n+010)*E[n-1]" none none]

/-- The texts of the coefficients of a sum that are index arithmetic. -/
def coefficientTexts : Expr → List String
  | .sum terms => terms.filterMap fun t => match t.coeff with
    | .index text => some text
    | _ => none
  | _ => []

/-- **A number with a leading zero is octal in scripts**: the builder takes the coefficient `(n+010)`
as it is, at one its value is eleven, and in a script it is nine. -/
theorem octal_not_verbatim : ∃ r e v w, octalRule = .ok r ∧ r.diagnostics.isEmpty ∧
    r.rules.map (fun rule => coefficientTexts rule.expr) = [["n+010"]] ∧
      Arith.eval (indexEnv 1) "n+010" = .ok v ∧ (v == 11) = true ∧
      Expression.parse? "n+010" = some e ∧
      (unitWorld emptyUnit 0 Program.standardLimits 1).eval (indexLocals 1) e = .ok (.num w) ∧
      (w == 9) = true := by
  have hcheck : (octalRule.toOption.any fun r => r.diagnostics.isEmpty &&
      r.rules.map (fun rule => coefficientTexts rule.expr) == [["n+010"]]) = true := by
    decide +kernel
  have hvalue : ((Arith.eval (indexEnv 1) "n+010").toOption.any (· == 11)) = true := by
    decide +kernel
  have hscript : ((Expression.parse? "n+010").any fun e =>
      ((unitWorld emptyUnit 0 Program.standardLimits 1).eval (indexLocals 1) e).toOption.any fun x =>
        x.number?.any (· == 9)) = true := by
    decide +kernel
  obtain ⟨r, hr, hcheck⟩ := Arith.exists_ok_of_any hcheck
  obtain ⟨v, hv, heleven⟩ := Arith.exists_ok_of_any hvalue
  rw [Bool.and_eq_true, beq_iff_eq] at hcheck
  rw [Option.any_eq_true] at hscript
  obtain ⟨e, he, hscript⟩ := hscript
  obtain ⟨x, hx, hnine⟩ := Arith.exists_ok_of_any hscript
  cases x with
  | num w => exact ⟨r, e, v, w, hr, hcheck.1, hcheck.2, hv, heleven, he, hx, hnine⟩
  | _ => cases hnine

end RecurrenceCompiler.Script
