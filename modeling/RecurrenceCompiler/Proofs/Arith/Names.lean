import RecurrenceCompiler.Arith.Name
import RecurrenceCompiler.Proofs.Arith.Sentence

/-!
# Names of a sentence

`namesIn` looks for names without reading a text as arithmetic. In a sentence no two numbers or names
stand side by side (`Derives.separated`), so there the two readings meet: the pieces of the text are
its tokens (`pieces_name`, `pieces_literal`), the names that are read are those that are found
(`pieceNames_eq`), and the value depends on those names only (`HasValue.congr`).
-/

namespace RecurrenceCompiler.Arith

open Text Decimal

/-! ## Pieces -/

/-- A character that is in no name and in no number starts a new piece. -/
theorem pieces_other {c : Char} (hw : isWord c = false) (hd : c ≠ '.') (cs : List Char) :
    pieces (c :: cs) = .other c :: pieces cs := by
  have hs : isNameStart c = false := (Bool.or_eq_false_iff.1 hw).1
  simp [pieces, piecesFrom, Scan.after, hs, hw, hd]

/-- Whether a name may start or not makes no difference where none does. -/
theorem piecesFrom_blocked {cs : List Char} (h : ∀ c ∈ cs.head?, isNameStart c = false) :
    piecesFrom .blocked cs = pieces cs := by
  cases cs with
  | nil => rfl
  | cons c cs => simp [pieces, piecesFrom, h c (by simp)]

/-- The pieces from inside a name on. -/
theorem piecesFrom_inside {ws rest : List Char} (hws : ws.all isWord)
    (hrest : ∀ c ∈ rest.head?, isWord c = false) (rev : List Char) :
    piecesFrom (.inside rev) (ws ++ rest) = .name (rev.reverse ++ ws) :: pieces rest := by
  induction ws generalizing rev with
  | nil =>
    cases rest with
    | nil => simp [piecesFrom, pieces]
    | cons c rest =>
      have hw : isWord c = false := hrest c (by simp)
      have hs : isNameStart c = false := (Bool.or_eq_false_iff.1 hw).1
      simp [piecesFrom, pieces, hw, hs]
  | cons w ws ih =>
    simp only [List.all_cons, Bool.and_eq_true] at hws
    simp [piecesFrom, hws.1, ih hws.2]

/-- A name is a piece. -/
theorem pieces_name {c : Char} {ws rest : List Char} (hc : isNameStart c) (hws : ws.all isWord)
    (hrest : ∀ c ∈ rest.head?, isWord c = false) :
    pieces (c :: ws ++ rest) = .name (c :: ws) :: pieces rest := by
  rw [List.cons_append, pieces, piecesFrom, if_pos hc, piecesFrom_inside hws hrest]
  rfl

/-- A run of digits and points is in no name, and no name starts right after it. -/
theorem piecesFrom_digits {s : Scan} (hs : s = .free ∨ s = .blocked) {ds : List Char}
    (hds : ∀ c ∈ ds, isDigit c ∨ c = '.') (hne : ds ≠ []) (rest : List Char) :
    piecesFrom s (ds ++ rest) = ds.map .other ++ piecesFrom .blocked rest := by
  induction ds generalizing s with
  | nil => exact absurd rfl hne
  | cons d ds ih =>
    have hd : isNameStart d = false ∧ Scan.after d = .blocked := by
      rcases hds d (by simp) with hd | rfl
      · exact ⟨isNameStart_of_isDigit hd, by simp [Scan.after, isWord, hd]⟩
      · exact ⟨rfl, rfl⟩
    have hstep : piecesFrom s (d :: (ds ++ rest)) = .other d :: piecesFrom .blocked (ds ++ rest) := by
      rcases hs with rfl | rfl <;> simp [piecesFrom, hd]
    rw [List.cons_append, hstep, List.map_cons, List.cons_append]
    congr 1
    cases ds with
    | nil => rfl
    | cons d' ds => exact ih (.inr rfl) (fun c hc => hds c (List.mem_cons_of_mem _ hc)) (by simp)

/-- A number has no name in it. -/
theorem pieces_literal {l : Literal} (h : l.WellFormed) {rest : List Char}
    (hrest : ∀ c ∈ rest.head?, isNameStart c = false) :
    pieces (l.chars ++ rest) = l.chars.map .other ++ pieces rest := by
  have hdigit {ds : List Char} (hds : ds.all isDigit) : ∀ c ∈ ds, isDigit c ∨ c = '.' :=
    fun c hc => .inl (List.all_eq_true.1 hds c hc)
  -- The digits with their point, then the exponent.
  obtain ⟨front, hfront, hne, hchars⟩ : ∃ front : List Char, (∀ c ∈ front, isDigit c ∨ c = '.') ∧
      front ≠ [] ∧ l.chars = front ++
        l.exponent.elim [] fun p => p.1 :: (p.2.1.toList ++ p.2.2) := by
    refine ⟨l.whole ++ (if l.point then ['.'] else []) ++ l.fraction, ?_, ?_, ?_⟩
    · intro c hc
      simp only [List.mem_append] at hc
      rcases hc with (hc | hc) | hc
      · exact hdigit h.whole c hc
      · split at hc <;> simp_all
      · exact hdigit h.fraction c hc
    · rcases h.digits with hd | hd <;> simp [hd]
    · rw [Literal.chars]
      cases l.exponent <;> rfl
  rw [hchars, List.append_assoc, pieces, piecesFrom_digits (.inl rfl) hfront hne, List.map_append,
    List.append_assoc]
  congr 1
  cases hexp : l.exponent with
  | none => exact piecesFrom_blocked hrest
  | some p =>
    obtain ⟨e, sign, digits⟩ := p
    obtain ⟨he, hsign, hne, hdigits⟩ := h.exponent e sign digits hexp
    have hafter : Scan.after e = .blocked := by rcases he with rfl | rfl <;> rfl
    have hstep : piecesFrom .blocked (e :: (sign.toList ++ digits) ++ rest) =
        .other e :: piecesFrom .blocked (sign.toList ++ (digits ++ rest)) := by
      simp [piecesFrom, hafter]
    have hdigits' {s : Scan} (hs : s = .free ∨ s = .blocked) :
        piecesFrom s (digits ++ rest) = digits.map .other ++ pieces rest := by
      rw [piecesFrom_digits hs (hdigit hdigits) hne, piecesFrom_blocked hrest]
    rw [Option.elim_some, hstep, List.map_cons, List.map_append, List.cons_append, List.append_assoc]
    congr 1
    rcases hsign with rfl | rfl | rfl
    · exact hdigits' (.inr rfl)
    · exact congrArg _ (hdigits' (.inl rfl))
    · exact congrArg _ (hdigits' (.inl rfl))

/-! ## Sentences -/

/-- No two numbers or names stand side by side. -/
def Separated (ts : List Token) : Prop :=
  ts.IsChain fun t u => (∃ o, t = .op o) ∨ ∃ o, u = .op o

theorem Separated.cons_op {o : Op} {ts : List Token} (h : Separated ts) :
    Separated (.op o :: ts) :=
  List.isChain_cons.2 ⟨fun _ _ => .inl ⟨o, rfl⟩, h⟩

/-- Two runs with an operator between them. -/
theorem Separated.append_op {o : Op} {as bs : List Token} (ha : Separated as) (hb : Separated bs) :
    Separated (as ++ .op o :: bs) := by
  refine List.isChain_append.2 ⟨ha, hb.cons_op, fun _ _ u hu => .inr ⟨o, ?_⟩⟩
  simpa using hu.symm

/-- **In what the grammar derives there is an operator between any two numbers or names.** -/
theorem Derives.separated {nt ts us} (h : Derives nt ts us) : Separated ts := by
  induction h with
  | ofTerm _ ih | ofUnary _ ih | ofPrimary _ ih | one _ ih => exact ih
  | add _ _ ihl ihr | sub _ _ ihl ihr | mul _ _ ihl ihr | div _ _ ihl ihr | more _ _ ihl ihr =>
    exact ihl.append_op ihr
  | neg _ ih | pos _ ih => exact ih.cons_op
  | num | name => exact .singleton _
  | paren _ ih => exact (ih.append_op .nil).cons_op
  | call _ ih => exact .cons_cons (.inr ⟨_, rfl⟩) (ih.append_op .nil).cons_op

section
variable {α : Type} [Carrier α] {env env' : Env α}

/-- Trees with the same values have the same list of values. -/
theorem Tree.evalAll_congr {us : List Tree} (h : ∀ t ∈ us, t.eval env = t.eval env') :
    Tree.evalAll env us = Tree.evalAll env' us := by
  induction us with
  | nil => rfl
  | cons t us ih =>
    rw [Tree.evalAll, Tree.evalAll, h t (by simp), ih fun u hu => h u (by simp [hu])]

/-- The value of what is derived depends on the names among the tokens. -/
theorem Derives.eval_congr {nt ts us} (h : Derives nt ts us)
    (henv : ∀ n, .name n ∈ ts → env n = env' n) : ∀ t ∈ us, t.eval env = t.eval env' := by
  induction h with
  | ofTerm _ ih | ofUnary _ ih | ofPrimary _ ih | one _ ih => exact ih henv
  | add _ _ ihl ihr | sub _ _ ihl ihr | mul _ _ ihl ihr | div _ _ ihl ihr =>
    have hl := ihl (fun n hn => henv n (by simp [hn])) _ (List.mem_singleton_self _)
    have hr := ihr (fun n hn => henv n (by simp [hn])) _ (List.mem_singleton_self _)
    simp only [List.mem_singleton, forall_eq, Tree.eval, hl, hr]
  | more _ _ ihl ihr =>
    have hl := ihl fun n hn => henv n (by simp [hn])
    have hr := ihr (fun n hn => henv n (by simp [hn])) _ (List.mem_singleton_self _)
    simpa [or_imp, forall_and] using ⟨hl, hr⟩
  | neg _ ih | pos _ ih =>
    have ht := ih (fun n hn => henv n (by simp [hn])) _ (List.mem_singleton_self _)
    simp only [List.mem_singleton, forall_eq, Tree.eval, ht]
  | num => simp [Tree.eval]
  | name => simp [Tree.eval, henv _ (List.mem_singleton_self _)]
  | paren _ ih => exact ih fun n hn => henv n (by simp [hn])
  | call _ ih =>
    have hus := Tree.evalAll_congr (ih fun n hn => henv n (by simp [hn]))
    simp only [List.mem_singleton, forall_eq, Tree.eval, hus]

end

/-! ## Names -/

/-- The names among the pieces of a text. -/
def pieceNames (cs : List Char) : List String :=
  (pieces cs).filterMap Piece.name?

theorem mem_distinct {xs : List String} {x : String} : x ∈ distinct xs ↔ x ∈ xs := by
  have key : ∀ xs seen : List String,
      x ∈ xs.foldl (fun seen x => if seen.contains x then seen else seen ++ [x]) seen ↔
        x ∈ seen ∨ x ∈ xs := by
    intro xs
    induction xs with
    | nil => simp
    | cons y ys ih =>
      intro seen
      rw [List.foldl_cons, ih]
      split
      · next h =>
        have hy : y ∈ seen := by simpa using h
        grind
      · grind
  exact (key xs []).trans (by simp)

theorem mentions_iff {text name : String} :
    mentions text name = true ↔ name ∈ pieceNames text.toList := by
  rw [mentions, namesIn, List.contains_iff_mem, mem_distinct]
  rfl

/-- A character that is in no name and in no number ends every name before it. -/
theorem names_piecesFrom_append {c : Char} (hw : isWord c = false) (hd : c ≠ '.') (a b : List Char)
    (s : Scan) : (piecesFrom s (a ++ c :: b)).filterMap Piece.name? =
      (piecesFrom s a).filterMap Piece.name? ++ pieceNames b := by
  have hs : isNameStart c = false := (Bool.or_eq_false_iff.1 hw).1
  have hafter : Scan.after c = .free := by simp [Scan.after, hw, hd]
  induction a generalizing s with
  | nil => cases s <;> simp [piecesFrom, List.filterMap_cons, hs, hw, hafter, Piece.name?, pieceNames, pieces]
  | cons d a ih =>
    cases s with
    | blocked => simp [piecesFrom, List.filterMap_cons, Piece.name?, ih]
    | free | inside =>
      simp only [List.cons_append, piecesFrom]
      split <;> simp [List.filterMap_cons, Piece.name?, ih]

theorem pieceNames_append {c : Char} (hw : isWord c = false) (hd : c ≠ '.') (a b : List Char) :
    pieceNames (a ++ c :: b) = pieceNames a ++ pieceNames b :=
  names_piecesFrom_append hw hd a b .free

/-- Blanks around a text have no names. -/
theorem pieceNames_trim (cs : List Char) : pieceNames (trim cs) = pieceNames cs := by
  have hblank {c : Char} (hc : isBlank c) (a b : List Char) :
      pieceNames (a ++ c :: b) = pieceNames a ++ pieceNames b :=
    pieceNames_append (isWord_of_isJoint (isJoint_of_isBlank hc)) (by rintro rfl; cases hc) a b
  have hfront : pieceNames (trimStart cs) = pieceNames cs := by
    induction cs with
    | nil => rfl
    | cons c cs ih =>
      by_cases hc : isBlank c
      · rw [trimStart, List.dropWhile_cons_of_pos hc]
        exact ih.trans (hblank hc [] cs).symm
      · rw [trimStart, List.dropWhile_cons_of_neg hc]
  obtain ⟨bs, heq, hbs⟩ := exists_trimEnd_append (trimStart cs)
  have hend {cs : List Char} : pieceNames (cs ++ bs) = pieceNames cs := by
    clear heq
    induction bs generalizing cs with
    | nil => rw [List.append_nil]
    | cons c bs ih =>
      rw [List.forall_mem_cons] at hbs
      have hnil := @ih hbs.2 []
      rw [List.nil_append] at hnil
      rw [hblank hbs.1, hnil, show pieceNames [] = [] from rfl, List.append_nil]
  rw [trim, ← hend, ← heq, hfront]

/-- A name is the only name in it. -/
theorem pieceNames_name {cs : List Char} (h : isName cs) : pieceNames cs = [String.ofList cs] := by
  cases cs with
  | nil => cases h
  | cons c cs =>
    obtain ⟨hc, hcs⟩ := Bool.and_eq_true_iff.1 h
    have hpieces := @pieces_name c cs [] hc hcs (by simp)
    rw [List.append_nil] at hpieces
    rw [pieceNames, hpieces]
    rfl

/-- There is no name in a number. -/
theorem pieceNames_literal {l : Literal} (h : l.WellFormed) : pieceNames l.chars = [] := by
  have hpieces := @pieces_literal l h [] (by simp)
  rw [List.append_nil] at hpieces
  rw [pieceNames, hpieces]
  simp [Piece.name?, pieces, piecesFrom]

/-- What follows a name that is read does not continue it. -/
theorem isWord_after_name {c : Char} {ws rest : List Char} {t : Token} (hc : isNameStart c)
    (hws : ws.all isWord) (h : Token.first? (c :: ws ++ rest) = some (t, rest)) :
    ∀ d ∈ rest.head?, isWord d = false := by
  intro d hd
  obtain ⟨rest, rfl⟩ : ∃ r, rest = d :: r := by
    cases rest with
    | nil => cases hd
    | cons e r => exact ⟨r, by rw [Option.mem_some.1 hd]⟩
  simp only [List.cons_append, Token.first?, scan?_eq_none_of_isNameStart hc, hc, if_true,
    dropWhile_append_of_all hws, Option.some.injEq, Prod.mk.injEq] at h
  have hhead := List.head?_dropWhile_not isWord (d :: rest)
  rw [h.2] at hhead
  simpa using hhead

/-- A text whose first token is an operator, or which has none, starts with no name. -/
theorem isNameStart_of_op {cs : List Char} {ts : List Token} (h : tokens? cs = some ts)
    (hop : ∀ t ∈ ts.head?, ∃ o, t = .op o) : ∀ c ∈ cs.head?, isNameStart c = false := by
  intro c hc
  obtain ⟨cs, rfl⟩ : ∃ r, cs = c :: r := by
    cases cs with
    | nil => cases hc
    | cons e r => exact ⟨r, by rw [Option.mem_some.1 hc]⟩
  by_contra hn
  have hn : isNameStart c := by simpa using hn
  have hblank : isBlank c = false := by
    cases hb : isBlank c with
    | false => rfl
    | true => simp [isNameStart_of_isJoint (isJoint_of_isBlank hb)] at hn
  have hfirst : Token.first? (c :: cs) =
      some (.name (String.ofList (c :: cs.takeWhile isWord)), cs.dropWhile isWord) := by
    simp [Token.first?, scan?_eq_none_of_isNameStart hn, hn]
  rw [tokens?_first hblank hfirst] at h
  obtain ⟨us, -, rfl⟩ := Option.map_eq_some_iff.1 h
  obtain ⟨o, ho⟩ := hop _ rfl
  cases ho

/-- The name that a token is. -/
def Token.name? : Token → Option String
  | .name n => some n
  | _ => none

/-- **The names of a sentence are found without reading it**, in their order and as often as they
stand there. -/
theorem pieceNames_eq {cs : List Char} {ts : List Token} (h : tokens? cs = some ts)
    (hsep : Separated ts) : pieceNames cs = ts.filterMap Token.name? := by
  refine tokens?_induction (P := fun cs ts => Separated ts → pieceNames cs = ts.filterMap Token.name?)
    ?_ ?_ ?_ h hsep
  · intro _
    rfl
  · intro c cs ts hc _ ih hsep
    have hj := isJoint_of_isBlank hc
    have hdot : c ≠ '.' := by
      rintro rfl
      cases hj
    rw [pieceNames, pieces_other (isWord_of_isJoint hj) hdot]
    exact ih hsep
  · intro lex rest t ts hlex hfirst hts ih hsep
    obtain ⟨hnext, hsep⟩ := List.isChain_cons.1 hsep
    have hrest := ih hsep
    rw [pieceNames] at *
    cases hlex with
    | @num l hl =>
      have hop : ∀ t ∈ ts.head?, ∃ o, t = .op o := fun t ht => by
        simpa using hnext t ht
      have hnumber : (l.chars.map Piece.other).filterMap Piece.name? = [] := by
        simp [Piece.name?]
      rw [pieces_literal hl (isNameStart_of_op hts hop), List.filterMap_append, hnumber, hrest]
      rfl
    | @name c ws hc hws =>
      rw [pieces_name hc hws (isWord_after_name hc hws hfirst), List.filterMap_cons, hrest]
      rfl
    | op o =>
      rw [List.singleton_append, pieces_other (by cases o <;> rfl) (by cases o <;> decide)]
      exact hrest

theorem mem_pieceNames {cs : List Char} {ts : List Token} (h : tokens? cs = some ts)
    (hsep : Separated ts) (n : String) (hn : .name n ∈ ts) : n ∈ pieceNames cs := by
  rw [pieceNames_eq h hsep]
  exact List.mem_filterMap.2 ⟨_, hn, rfl⟩

/-- **The value of a text depends on the names it mentions.** -/
theorem HasValue.congr {α : Type} [Carrier α] {env env' : Env α} {text : String} {v : α}
    (h : HasValue env text.toList v) (henv : ∀ n, mentions text n = true → env n = env' n) :
    HasValue env' text.toList v := by
  obtain ⟨ts, t, hts, ht, hv⟩ := h
  refine ⟨ts, t, hts, ht, ?_⟩
  rw [← ht.eval_congr (fun n hn => henv n ?_) t (by simp), hv]
  exact mentions_iff.2 (mem_pieceNames hts ht.separated n hn)

/-!
## Scanning and reading find the same names

Whether a text mentions an index is decided by scanning its characters for names, and what its value
depends on by reading its tokens. On a sentence of arithmetic the two agree: `namesIn` lists the names
among the tokens, each where it occurs first (`namesIn_eq_tokens`).
-/

/-! ### First occurrences -/

section
variable {α : Type} [BEq α] [LawfulBEq α] {xs : List α} {x : α}

omit [LawfulBEq α] in
theorem distinct_concat : distinct (xs ++ [x]) =
    if (distinct xs).contains x then distinct xs else distinct xs ++ [x] := by
  rw [distinct, List.foldl_concat, ← distinct]

/-- Repetitions are left out, first occurrences are kept. -/
theorem distinct_eq_eraseDups (xs : List α) : distinct xs = xs.eraseDups := by
  induction xs using List.reverseRecOn with
  | nil => rfl
  | append_singleton xs x ih =>
    rw [distinct_concat, ih, List.eraseDups_append]
    by_cases h : x ∈ xs
    · simp [List.removeAll, h]
    · simp [List.removeAll, h, List.eraseDups_cons]

/-- The elements stand in the order of their first occurrences. -/
theorem pairwise_idxOf_eraseDups (xs : List α) :
    xs.eraseDups.Pairwise fun x y => xs.idxOf x < xs.idxOf y := by
  induction xs using List.reverseRecOn with
  | nil => exact .nil
  | append_singleton xs x ih =>
    -- The last element is new, or it stands in the front already.
    have hfront {y : α} (hy : y ∈ xs.eraseDups) : (xs ++ [x]).idxOf y = xs.idxOf y :=
      List.idxOf_append_of_mem (List.mem_eraseDups.1 hy)
    have hkept : xs.eraseDups.Pairwise fun y z => (xs ++ [x]).idxOf y < (xs ++ [x]).idxOf z :=
      ih.imp_of_mem fun hy hz h => by rwa [hfront hy, hfront hz]
    rw [← distinct_eq_eraseDups, distinct_concat, distinct_eq_eraseDups]
    split
    · exact hkept
    · next hx =>
      have hx : x ∉ xs := by simpa using hx
      refine List.pairwise_append.2 ⟨hkept, List.pairwise_singleton _ _, fun y hy z hz => ?_⟩
      obtain rfl := List.mem_singleton.1 hz
      rw [hfront hy, List.idxOf_append_of_notMem hx]
      have hlt := List.idxOf_lt_length_of_mem (List.mem_eraseDups.1 hy)
      omega

/-- No element is left twice. -/
theorem nodup_distinct (xs : List α) : (distinct xs).Nodup := by
  rw [distinct_eq_eraseDups]
  refine (pairwise_idxOf_eraseDups xs).imp ?_
  rintro x y hlt rfl
  exact lt_irrefl _ hlt

end

/-! ### Names of a sentence -/

/-- **Scanning a sentence for names finds the names among its tokens**, each once and in the order of first
occurrences. So a name is mentioned exactly if it is a token. -/
theorem namesIn_eq_tokens {text : String} (h : IsSentence text.toList) :
    ∃ ts, tokenize text = .ok ts ∧ namesIn text = (ts.filterMap Token.name?).eraseDups ∧
      ((namesIn text).Pairwise fun m n =>
        (ts.filterMap Token.name?).idxOf m < (ts.filterMap Token.name?).idxOf n) ∧
      ∀ n, mentions text n = true ↔ .name n ∈ ts := by
  obtain ⟨ts, hts, t, ht⟩ := h
  have hpieces := pieceNames_eq hts ht.separated
  have hnames : namesIn text = (ts.filterMap Token.name?).eraseDups := by
    rw [← hpieces, ← distinct_eq_eraseDups]
    rfl
  refine ⟨ts, by rw [tokenize, hts], hnames, ?_, fun n => ?_⟩
  · rw [hnames]
    exact pairwise_idxOf_eraseDups _
  · rw [mentions_iff, hpieces, List.mem_filterMap]
    constructor
    · rintro ⟨t, ht, hn⟩
      cases t <;> cases hn
      exact ht
    · exact fun hn => ⟨_, hn, rfl⟩

/-- Exponents, points and a function beside names that look like exponents. -/
theorem namesIn_eq_tokens_exponents : ∃ ts, tokenize "2.e1*e1 - pow(n, .5E-3) / 1e5 + n*e1" = .ok ts ∧
    namesIn "2.e1*e1 - pow(n, .5E-3) / 1e5 + n*e1" = (ts.filterMap Token.name?).eraseDups ∧
    ((namesIn "2.e1*e1 - pow(n, .5E-3) / 1e5 + n*e1").Pairwise fun m n =>
      (ts.filterMap Token.name?).idxOf m < (ts.filterMap Token.name?).idxOf n) ∧
    ∀ n, mentions "2.e1*e1 - pow(n, .5E-3) / 1e5 + n*e1" n = true ↔ .name n ∈ ts := by
  have hvalue : (eval (fun _ => some (1 : Float)) "2.e1*e1 - pow(n, .5E-3) / 1e5 + n*e1").toOption.isSome =
      true := by
    decide +kernel
  obtain ⟨v, hv, -⟩ := exists_ok_of_any (p := fun _ => true) (by simpa using hvalue)
  exact namesIn_eq_tokens (eval_eq_ok_iff.1 hv).isSentence

example : namesIn "2.e1*e1 - pow(n, .5E-3) / 1e5 + n*e1" = ["e1", "pow", "n"] := by
  decide +kernel

end RecurrenceCompiler.Arith
