import RecurrenceCompiler.Proofs.Script.Arithmetic

/-!
# Texts of script expressions

Generated text is put together from smaller texts. Where two of them meet, a blank, a bracket or a comma
stands on one side; nothing before such a character goes on behind it, so the tokens of the whole are
those of the parts (`tokens?_append`). `IsText` says that a text is one of an expression, and there is a
lemma for each way in which the generators put texts together.
-/

namespace RecurrenceCompiler.Script

open Text Decimal

/-! ## Where texts meet -/

/-- The brackets and the comma. -/
def brackets : List (Char × Mark) :=
  [('(', .left), (')', .right), ('[', .leftSquare), (']', .rightSquare), (',', .comma)]

/-- A character that goes on with nothing before it: a blank, a bracket or a comma. -/
def isGap (c : Char) : Bool :=
  isBlank c || brackets.any (·.1 == c)

theorem isGap_of_mem {p : Char × Mark} (h : p ∈ brackets) : isGap p.1 = true := by
  rw [isGap, Bool.or_eq_true, List.any_eq_true]
  exact .inr ⟨p, h, beq_self_eq_true p.1⟩

/-- A gap is a blank or a bracket. -/
theorem blank_or_bracket {c : Char} (h : isGap c) : isBlank c ∨ ∃ p ∈ brackets, p.1 = c := by
  simpa [isGap] using h

/-- A gap is a joint that no name goes on with. -/
theorem isJoint_of_isGap {c : Char} (h : isGap c) : isJoint c ∧ continuesName c = false := by
  rcases blank_or_bracket h with h | ⟨p, hp, rfl⟩
  · exact ⟨isJoint_of_isBlank h, continuesName_of_isBlank h⟩
  · have hall : ∀ p ∈ brackets, isJoint p.1 ∧ continuesName p.1 = false := by decide
    exact hall p hp

theorem startsName_of_isGap {c : Char} (h : isGap c) : startsName c = false :=
  (Bool.or_eq_false_iff.1 (isJoint_of_isGap h).2).1

/-- No operator has a gap in it, unless it is the bracket itself. -/
theorem mark_of_isGap {c : Char} (h : isGap c) {m : String × Option Mark} (hm : m ∈ marks)
    (hc : c ∈ m.1.toList) : m.1.toList = [c] := by
  rcases blank_or_bracket h with h | ⟨p, hp, rfl⟩
  · have hall : ∀ m ∈ marks, m.1.toList.any isBlank = false := by decide
    have hblank := List.any_eq_false.1 (hall m hm) c hc
    exact absurd h hblank
  · have hall : ∀ p ∈ brackets, ∀ m ∈ marks, p.1 ∈ m.1.toList → m.1.toList = [p.1] := by
      decide
    exact hall p hp m hm hc

/-- A number ends before a gap. -/
theorem number?_append {c : Char} (h : isGap c) (a b : List Char) :
    number? (a ++ c :: b) = (number? a).map fun p => (p.1, p.2 ++ c :: b) := by
  have hjoint := (isJoint_of_isGap h).1
  have hdigit := isDigit_of_isJoint hjoint
  have hscan := Literal.scan?_append hjoint a b
  simp only [number?, takeWhile_append_stop hdigit, dropWhile_append_stop hdigit, hscan]
  split
  · split
    · rfl
    · cases Literal.scan? a <;> rfl
  · cases Literal.scan? a <;> rfl

/-- An operator starts a text exactly if it starts the part before a gap. -/
theorem isPrefixOf_append {c : Char} (h : isGap c) {m : String × Option Mark} (hm : m ∈ marks)
    {a : List Char} (ha : a ≠ []) (b : List Char) :
    m.1.toList.isPrefixOf (a ++ c :: b) = m.1.toList.isPrefixOf a := by
  rw [Bool.eq_iff_iff, List.isPrefixOf_iff_prefix, List.isPrefixOf_iff_prefix]
  refine ⟨fun hp => ?_, fun hp => hp.trans (List.prefix_append _ _)⟩
  obtain ⟨rest, hrest⟩ := hp
  rcases List.append_eq_append_iff.1 hrest with ⟨t, rfl, -⟩ | ⟨t, ht, hgap⟩
  · exact List.prefix_append _ _
  · cases t with
    | nil => simp [ht]
    | cons d t =>
      -- The operator would go on with the gap.
      obtain ⟨rfl, -⟩ := List.cons.inj hgap
      have hsingle := mark_of_isGap h hm (by rw [ht]; simp)
      rw [hsingle] at ht
      obtain ⟨e, a, rfl⟩ := List.exists_cons_of_ne_nil ha
      simp at ht

/-- An operator is read up to a gap. -/
theorem mark?_append {c : Char} (h : isGap c) {a : List Char} (ha : a ≠ []) (b : List Char) :
    mark? (a ++ c :: b) = (mark? a).map fun p => (p.1, p.2 ++ c :: b) := by
  have hfind : (marks.find? fun m => m.1.toList.isPrefixOf (a ++ c :: b)) =
      marks.find? fun m => m.1.toList.isPrefixOf a :=
    List.find?_congr fun m hm => isPrefixOf_append h hm ha b
  rw [mark?, mark?, hfind]
  cases hm : marks.find? fun m => m.1.toList.isPrefixOf a with
  | none => rfl
  | some m =>
    obtain ⟨text, m⟩ := m
    cases m with
    | none => rfl
    | some m =>
      have hprefix : text.toList <+: a := by simpa using List.find?_some hm
      have hle : text.length ≤ a.length := String.length_toList ▸ hprefix.length_le
      simp [List.drop_append_of_le_length hle]

/-- The first token of a text ends before a gap. -/
theorem Token.first?_append {c : Char} (h : isGap c) {a : List Char} (ha : a ≠ []) (b : List Char) :
    Token.first? (a ++ c :: b) = (Token.first? a).map fun p => (p.1, p.2 ++ c :: b) := by
  obtain ⟨d, a, rfl⟩ := List.exists_cons_of_ne_nil ha
  have hnumber := number?_append h (d :: a) b
  have hmark := mark?_append h ha b
  have hcontinues := (isJoint_of_isGap h).2
  rw [List.cons_append] at hnumber hmark
  simp only [List.cons_append, Token.first?, hnumber]
  cases hn : number? (d :: a) with
  | some p =>
    obtain ⟨x, rest⟩ := p
    cases rest with
    | nil => simp [startsName_of_isGap h]
    | cons e rest =>
      simp only [Option.map_some, List.cons_append, List.head?_cons, Option.any_some]
      by_cases he : startsName e <;> simp [he]
  | none =>
    simp only [Option.map_none, takeWhile_append_stop hcontinues, dropWhile_append_stop hcontinues,
      hmark]
    split
    · rfl
    · cases mark? (d :: a) <;> rfl

/-- **A text cut before a gap has the tokens of its two parts.** -/
theorem tokens?_append {c : Char} (h : isGap c) (a b : List Char) :
    tokens? (a ++ c :: b) = (tokens? a).bind fun ts => (tokens? (c :: b)).map (ts ++ ·) := by
  match a with
  | [] => simp
  | d :: a =>
    by_cases hd : isBlank d
    · rw [List.cons_append, tokens?_blank hd, tokens?_blank hd, tokens?_append h a b]
    · have hd : isBlank d = false := by simpa using hd
      have hfirst := Token.first?_append h (List.cons_ne_nil d a) b
      cases ht : Token.first? (d :: a) with
      | none =>
        rw [ht, List.cons_append] at hfirst
        rw [tokens?_none hd ht, List.cons_append, tokens?_none hd hfirst]
        rfl
      | some p =>
        obtain ⟨t, rest⟩ := p
        have hlt := Token.length_of_first? ht
        rw [ht, List.cons_append] at hfirst
        rw [tokens?_first hd ht, List.cons_append, tokens?_first hd hfirst, tokens?_append h rest b]
        cases tokens? rest <;> cases tokens? (c :: b) <;> rfl
termination_by a.length
decreasing_by all_goals simp_all

/-- A bracket or a comma is a token of its own. -/
theorem tokens?_bracket {p : Char × Mark} (h : p ∈ brackets) (cs : List Char) :
    tokens? (p.1 :: cs) = (tokens? cs).map (.mark p.2 :: ·) := by
  have hall : ∀ p ∈ brackets, isBlank p.1 = false ∧ isDigit p.1 = false ∧ p.1 ≠ '.' ∧
      startsName p.1 = false ∧ mark? [p.1] = some (p.2, []) := by decide +kernel
  obtain ⟨hblank, hdigit, hdot, hstart, hmark⟩ := hall p h
  refine tokens?_first hblank ?_
  have hmark : mark? (p.1 :: cs) = some (p.2, cs) := by
    have hfind : (marks.find? fun m => m.1.toList.isPrefixOf (p.1 :: cs)) =
        marks.find? fun m => m.1.toList.isPrefixOf [p.1] :=
      List.find?_congr fun m hm => by
        rw [Bool.eq_iff_iff, List.isPrefixOf_iff_prefix, List.isPrefixOf_iff_prefix]
        refine ⟨fun hp => ?_, fun hp => hp.trans (List.prefix_append [p.1] cs)⟩
        cases htext : m.1.toList with
        | nil => exact List.nil_prefix
        | cons d ds =>
          rw [htext] at hp
          obtain ⟨rfl, -⟩ := List.cons_prefix_cons.1 hp
          have hsingle := mark_of_isGap (isGap_of_mem h) hm (by rw [htext]; simp)
          rw [← htext, hsingle]
    rw [mark?, hfind]
    rw [mark?] at hmark
    split at hmark
    · next text m hm =>
      obtain ⟨rfl, -⟩ := Prod.mk.inj (Option.some.inj hmark)
      have hprefix : text.toList <+: [p.1] := by simpa using List.find?_some hm
      have hne : ∀ m ∈ marks, m.1.toList ≠ [] := by decide
      have hlen : text.length = 1 := by
        have hle : text.toList.length ≤ 1 := hprefix.length_le
        have hpos : 0 < text.toList.length :=
          List.length_pos_iff.2 (hne _ (List.mem_of_find?_eq_some hm))
        rw [String.length_toList] at hle hpos
        omega
      simp [hlen]
    · cases hmark
  rw [Token.first?, number?_eq_none hdigit hdot]
  simp [hstart, hmark]

/-- The tokens of two texts that meet at a gap. -/
theorem tokens?_meet {c : Char} (h : isGap c) {a b : List Char} {ts us : List Token}
    (ha : tokens? a = some ts) (hb : tokens? (c :: b) = some us) :
    tokens? (a ++ c :: b) = some (ts ++ us) := by
  rw [tokens?_append h, ha, hb]
  rfl

/-! ## Texts -/

/-- A text is one of expressions: of a single one, or of the arguments of a call. -/
def IsText (g : Goal) (text : String) (es : List Expression) : Prop :=
  ∃ ts, tokens? text.toList = some ts ∧ Parses g ts es

/-- A text of an expression is read as that expression. -/
theorem IsText.parse? {text : String} {e : Expression} (h : IsText .cond text [e]) :
    Expression.parse? text = some e := by
  obtain ⟨ts, hts, hparse⟩ := h
  rw [Expression.parse?, hts, Option.bind_eq_bind, Option.bind_some, read?_of_parses hparse]

theorem IsText.readText {text : String} {e : Expression} (h : IsText .cond text [e]) :
    readText text = .ok e := by
  rw [Script.readText, h.parse?]
  rfl

/-- Where operators of a level are read, an operand may stand. -/
theorem IsText.binary {text : String} {e : Expression} (h : IsText .operand text [e]) (level : Nat) :
    IsText (.binary level) text [e] := by
  obtain ⟨ts, hts, hparse⟩ := h
  exact ⟨ts, hts, .ofUnary (.ofOperand hparse)⟩

theorem IsText.cond {text : String} {e : Expression} (h : IsText (.binary 1) text [e]) :
    IsText .cond text [e] := by
  obtain ⟨ts, hts, hparse⟩ := h
  exact ⟨ts, hts, .ofBinary hparse⟩

theorem IsText.ofUnary {text : String} {e : Expression} (h : IsText .unary text [e]) (level : Nat) :
    IsText (.binary level) text [e] := by
  obtain ⟨ts, hts, hparse⟩ := h
  exact ⟨ts, hts, .ofUnary hparse⟩

/-- A condition in parentheses is negated by a mark before it. -/
theorem IsText.not {text : String} {e : Expression} (hopen : text.toList.head? = some '(')
    (h : IsText .operand text [e]) : IsText .unary ("!" ++ text) [.not e] := by
  obtain ⟨rest, hopen⟩ := List.head?_eq_some_iff.1 hopen
  obtain ⟨ts, hts, hparse⟩ := h
  refine ⟨.mark .not :: ts, ?_, .not (.ofOperand hparse)⟩
  rw [hopen] at hts
  rw [String.toList_append, hopen]
  exact tokens?_meet (a := ['!']) (by decide) rfl hts

/-- A text in parentheses is an operand. -/
theorem IsText.paren {text : String} {e : Expression} (h : IsText .cond text [e]) :
    IsText .operand ("(" ++ text ++ ")") [e] := by
  obtain ⟨ts, hts, hparse⟩ := h
  refine ⟨_, ?_, hparse.paren⟩
  have hopen := tokens?_bracket (p := ('(', .left)) (by decide) (text.toList ++ [')'])
  have hclose := tokens?_bracket (p := (')', .right)) (by decide) []
  have hinside := tokens?_meet (c := ')') (by decide) hts hclose
  rw [hinside] at hopen
  simpa using hopen

/-- Two operands with an operator between them. -/
theorem IsText.join {m : Mark} {k level : Nat} {build : Expression → Expression → Expression}
    {symbol l r : String} {x y : Expression} (hm : m.binary? = some (k, build))
    (hsymbol : tokens? symbol.toList = some [.mark m]) (hlevel : level ≤ k)
    (hl : IsText (.binary k) l [x]) (hr : IsText (.binary (k + 1)) r [y]) :
    IsText (.binary level) (l ++ " " ++ symbol ++ " " ++ r) [build x y] := by
  obtain ⟨ts, hts, hleft⟩ := hl
  obtain ⟨us, hus, hright⟩ := hr
  refine ⟨ts ++ .mark m :: us, ?_, .join hm hlevel hleft hright⟩
  have hrest : tokens? (symbol.toList ++ ' ' :: r.toList) = some ([.mark m] ++ us) :=
    tokens?_meet (by decide) hsymbol (by rw [tokens?_blank (by decide), hus])
  have hwhole : tokens? (l.toList ++ ' ' :: (symbol.toList ++ ' ' :: r.toList)) =
      some (ts ++ ([.mark m] ++ us)) :=
    tokens?_meet (by decide) hts (by rw [tokens?_blank (by decide), hrest])
  simpa using hwhole

/-- A choice between two values. -/
theorem IsText.choice {test yes no : String} {t y n : Expression} (ht : IsText (.binary 1) test [t])
    (hy : IsText .cond yes [y]) (hn : IsText .cond no [n]) :
    IsText .cond (test ++ " ? " ++ yes ++ " : " ++ no) [.cond t y n] := by
  obtain ⟨as, has, htest⟩ := ht
  obtain ⟨bs, hbs, hyes⟩ := hy
  obtain ⟨cs, hcs, hno⟩ := hn
  refine ⟨as ++ .mark .question :: (bs ++ .mark .colon :: cs), ?_, .ofCond htest hyes hno⟩
  have hsecond : tokens? ([':'] ++ ' ' :: no.toList) = some ([.mark .colon] ++ cs) :=
    tokens?_meet (by decide) rfl (by rw [tokens?_blank (by decide), hcs])
  have hrest : tokens? (yes.toList ++ ' ' :: ([':'] ++ ' ' :: no.toList)) =
      some (bs ++ ([.mark .colon] ++ cs)) :=
    tokens?_meet (by decide) hbs (by rw [tokens?_blank (by decide), hsecond])
  have hfirst : tokens? (['?'] ++ ' ' :: (yes.toList ++ ' ' :: ([':'] ++ ' ' :: no.toList))) =
      some ([.mark .question] ++ (bs ++ ([.mark .colon] ++ cs))) :=
    tokens?_meet (by decide) rfl (by rw [tokens?_blank (by decide), hrest])
  have hwhole := tokens?_meet (c := ' ') (by decide) has
    (by rw [tokens?_blank (by decide), hfirst])
  simpa using hwhole

/-- An entry of a table. -/
theorem IsText.element {table index : String} {t i : Expression} (ht : IsText .operand table [t])
    (hi : IsText .cond index [i]) : IsText .operand (table ++ "[" ++ index ++ "]") [.element t i] := by
  obtain ⟨ts, hts, htable⟩ := ht
  obtain ⟨us, hus, hindex⟩ := hi
  refine ⟨_, ?_, .element htable hindex⟩
  have hopen := tokens?_bracket (p := ('[', .leftSquare)) (by decide) (index.toList ++ [']'])
  have hclose := tokens?_bracket (p := (']', .rightSquare)) (by decide) []
  have hinside := tokens?_meet (c := ']') (by decide) hus hclose
  rw [hinside] at hopen
  simpa using tokens?_meet (by decide) hts hopen

/-- A call. -/
theorem IsText.call {callee args : String} {f : Expression} {es : List Expression}
    (hf : IsText .operand callee [f]) (hargs : IsText .args args es) :
    IsText .operand (callee ++ "(" ++ args ++ ")") [.call f es] := by
  obtain ⟨ts, hts, hcallee⟩ := hf
  obtain ⟨us, hus, hargs⟩ := hargs
  refine ⟨_, ?_, .call hcallee hargs⟩
  have hopen := tokens?_bracket (p := ('(', .left)) (by decide) (args.toList ++ [')'])
  have hclose := tokens?_bracket (p := (')', .right)) (by decide) []
  have hinside := tokens?_meet (c := ')') (by decide) hus hclose
  rw [hinside] at hopen
  simpa using tokens?_meet (by decide) hts hopen

theorem IsText.arg {text : String} {e : Expression} (h : IsText .cond text [e]) :
    IsText .args text [e] := by
  obtain ⟨ts, hts, hparse⟩ := h
  exact ⟨ts, hts, .one hparse⟩

theorem IsText.consArg {text args : String} {e : Expression} {es : List Expression}
    (h : IsText .cond text [e]) (hargs : IsText .args args es) :
    IsText .args (text ++ ", " ++ args) (e :: es) := by
  obtain ⟨ts, hts, hparse⟩ := h
  obtain ⟨us, hus, hargs⟩ := hargs
  refine ⟨_, ?_, .more hparse hargs⟩
  have hcomma := tokens?_bracket (p := (',', .comma)) (by decide) (' ' :: args.toList)
  rw [tokens?_blank (c := ' ') (by decide), hus] at hcomma
  simpa using tokens?_meet (by decide) hts hcomma

/-- **Arguments separated by commas.** -/
theorem isText_args {texts : List String} {es : List Expression}
    (h : List.Forall₂ (fun text e => IsText .cond text [e]) texts es) (hne : texts ≠ []) :
    IsText .args (", ".intercalate texts) es := by
  induction h with
  | nil => exact absurd rfl hne
  | @cons text e texts es he hrest ih =>
    cases hrest with
    | nil => simpa using he.arg
    | @cons text' e' texts es he' hrest =>
      have hargs := he.consArg (ih (by simp))
      rwa [String.intercalate_cons_cons]

/-! ## Names -/

/-- A name of a script: an identifier, in which dollar signs may follow the first character. -/
def isScriptName (n : String) : Bool :=
  match n.toList with
  | [] => false
  | c :: cs => isNameStart c && cs.all continuesName

theorem isScriptName_of_isIdentifier {n : String} (h : isIdentifier n) : isScriptName n := by
  unfold isIdentifier isName at h
  unfold isScriptName
  cases hn : n.toList with
  | nil =>
    rw [hn] at h
    cases h
  | cons c cs =>
    rw [hn] at h
    simp only [Bool.and_eq_true, List.all_eq_true, isWord, Bool.or_eq_true] at h ⊢
    refine ⟨h.1, fun d hd => ?_⟩
    rcases h.2 d hd with h | h <;> simp [continuesName, startsName, h]

/-- A name is one token. -/
theorem tokens?_name {n : String} (h : isScriptName n) : tokens? n.toList = some [.name n] := by
  unfold isScriptName at h
  split at h
  · cases h
  · next c cs hn =>
    rw [Bool.and_eq_true] at h
    obtain ⟨hc, hcs⟩ := h
    have hjoint : isJoint c = false := isJoint_of_isWord (by simp [isWord, hc])
    have hblank : isBlank c = false := by
      cases hb : isBlank c with
      | false => rfl
      | true => simp [isJoint_of_isBlank hb] at hjoint
    have hdigit : isDigit c = false := by
      cases hd : isDigit c with
      | false => rfl
      | true => simp [isNameStart_of_isDigit hd] at hc
    have hdot : c ≠ '.' := by
      rintro rfl
      cases hc
    have hfirst : Token.first? (c :: cs) = some (.name n, []) := by
      rw [Token.first?, number?_eq_none hdigit hdot]
      have htake : cs.takeWhile continuesName = cs := List.takeWhile_eq_self_iff.2 (by simpa using hcs)
      have hdrop : cs.dropWhile continuesName = [] := List.dropWhile_eq_nil_iff.2 (by simpa using hcs)
      simp [startsName, hc, htake, hdrop, ← hn]
    rw [hn, tokens?_first hblank hfirst]
    rfl

/-- A name that is not reserved is an operand. -/
theorem isText_name {n : String} (h : isScriptName n) (hres : n ∉ reservedWords) :
    IsText .operand n [.name n] :=
  ⟨_, tokens?_name h, .name (nameExpression?_of_not_reserved hres)⟩

end RecurrenceCompiler.Script
