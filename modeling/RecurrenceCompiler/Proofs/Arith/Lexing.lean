import RecurrenceCompiler.Arith.Token
import RecurrenceCompiler.Proofs.Decimal.Scan

/-!
# Cutting arithmetic text

What the tokens of a text are made of. A text that is cut before a joint (a blank, a bracket, a comma,
a star or a slash) has the tokens of its two parts (`tokens?_append`), so blanks around it count for
nothing (`tokens?_trim`) and a bracket or a star is a token wherever it stands (`tokens?_cut`). The two
signs are not joints: they may belong to the exponent of a number.
-/

namespace RecurrenceCompiler.Arith

open Text Decimal

/-! ## The bound on the number of tokens -/

/-- Reading a token takes at least one character. -/
theorem Token.length_of_first? {cs rest : List Char} {t} (h : Token.first? cs = some (t, rest)) :
    rest.length < cs.length := by
  unfold Token.first? at h
  split at h
  · contradiction
  · next c cs =>
    split at h
    · next l r hl =>
      cases h
      exact length_of_scan? hl
    · split at h
      · cases h
        have hle := (List.dropWhile_suffix (l := cs) isWord).length_le
        rw [List.length_cons]
        omega
      · obtain ⟨op, -, hop⟩ := Option.map_eq_some_iff.1 h
        cases hop
        simp

/-- Trimming makes a text no longer. -/
theorem length_trimStart (cs : List Char) : (trimStart cs).length ≤ cs.length :=
  (List.dropWhile_suffix isBlank).length_le

/-- Two bounds that are large enough give the same tokens. -/
theorem tokensWithin_congr : ∀ {m n : Nat} {cs : List Char}, cs.length ≤ m → cs.length ≤ n →
    tokensWithin m cs = tokensWithin n cs
  | 0, 0, _, _, _ => rfl
  | 0, n + 1, cs, hm, _ => by
    obtain rfl := List.length_eq_zero_iff.1 (Nat.le_zero.1 hm)
    rfl
  | m + 1, 0, cs, _, hn => by
    obtain rfl := List.length_eq_zero_iff.1 (Nat.le_zero.1 hn)
    rfl
  | m + 1, n + 1, cs, hm, hn => by
    have hle := length_trimStart cs
    simp only [tokensWithin]
    split
    · rfl
    · next c rest hc =>
      split
      · rfl
      · next t rest ht =>
        have hlt := Token.length_of_first? ht
        rw [hc] at hle
        rw [tokensWithin_congr (m := m) (n := n) (by omega) (by omega)]

/-- The empty text has no tokens. -/
@[simp] theorem tokens?_nil : tokens? [] = some [] := rfl

/-- A blank at the front counts for nothing. -/
theorem tokens?_blank {c : Char} (h : isBlank c) (cs : List Char) :
    tokens? (c :: cs) = tokens? cs := by
  have htrim : trimStart (c :: cs) = trimStart cs := List.dropWhile_cons_of_pos h
  calc tokens? (c :: cs) = tokensWithin (cs.length + 1) cs := by
        simp only [tokens?, tokensWithin, List.length_cons, htrim]
    _ = tokens? cs := tokensWithin_congr (by omega) (by omega)

/-- The first token of a text, then those of the rest. -/
theorem tokens?_first {c : Char} (h : isBlank c = false) {cs rest : List Char} {t}
    (ht : Token.first? (c :: cs) = some (t, rest)) :
    tokens? (c :: cs) = (tokens? rest).map (t :: ·) := by
  have hlt := Token.length_of_first? ht
  have htrim : trimStart (c :: cs) = c :: cs := List.dropWhile_cons_of_neg (by simp [h])
  simp only [tokens?, List.length_cons, tokensWithin, htrim, ht]
  rw [tokensWithin_congr (m := cs.length) (n := rest.length) (Nat.le_of_lt_succ hlt) (Nat.le_refl _)]

/-- A text whose first token is none has none. -/
theorem tokens?_none {c : Char} (h : isBlank c = false) {cs : List Char}
    (ht : Token.first? (c :: cs) = none) : tokens? (c :: cs) = none := by
  have htrim : trimStart (c :: cs) = c :: cs := List.dropWhile_cons_of_neg (by simp [h])
  simp only [tokens?, List.length_cons, tokensWithin, htrim, ht]

/-! ## Cutting at a joint -/

/-- The first token of a text ends before a joint. -/
theorem Token.first?_append {c : Char} (h : isJoint c) {a : List Char} (ha : a ≠ [])
    (b : List Char) :
    Token.first? (a ++ c :: b) = (Token.first? a).map fun p => (p.1, p.2 ++ c :: b) := by
  obtain ⟨d, a, rfl⟩ := List.exists_cons_of_ne_nil ha
  have hscan := Literal.scan?_append h (d :: a) b
  rw [List.cons_append] at hscan
  simp only [List.cons_append, Token.first?, hscan]
  cases Literal.scan? (d :: a) with
  | some p => rfl
  | none =>
    simp only [Option.map_none, takeWhile_append_stop (isWord_of_isJoint h),
      dropWhile_append_stop (isWord_of_isJoint h)]
    split
    · rfl
    · cases Op.ofChar? d <;> rfl

/-- **A text cut before a joint has the tokens of its two parts.** -/
theorem tokens?_append {c : Char} (h : isJoint c) (a b : List Char) :
    tokens? (a ++ c :: b) = (tokens? a).bind fun ts => (tokens? (c :: b)).map (ts ++ ·) := by
  match a with
  | [] => simp
  | d :: a =>
    by_cases hd : isBlank d
    · rw [List.cons_append, tokens?_blank hd, tokens?_blank hd, tokens?_append h a b]
    · have hd : isBlank d = false := by simpa using hd
      have hfirst := Token.first?_append h (List.cons_ne_nil d a) b
      cases ht : Token.first? (d :: a) with
      | none =>
        rw [ht, List.cons_append] at hfirst
        rw [tokens?_none hd ht, List.cons_append, tokens?_none hd hfirst]
        rfl
      | some p =>
        obtain ⟨t, rest⟩ := p
        have hlt := Token.length_of_first? ht
        rw [ht, List.cons_append] at hfirst
        rw [tokens?_first hd ht, List.cons_append, tokens?_first hd hfirst, tokens?_append h rest b]
        cases tokens? rest <;> cases tokens? (c :: b) <;> rfl
termination_by a.length
decreasing_by all_goals simp_all

/-- Blanks at the end count for nothing. -/
theorem tokens?_append_blanks (a : List Char) {bs : List Char} (h : ∀ c ∈ bs, isBlank c) :
    tokens? (a ++ bs) = tokens? a := by
  have hnone : ∀ {bs : List Char}, (∀ c ∈ bs, isBlank c) → tokens? bs = some [] := by
    intro bs h
    induction bs with
    | nil => rfl
    | cons c bs ih =>
      rw [tokens?_blank (h c (by simp)), ih fun d hd => h d (by simp [hd])]
  cases bs with
  | nil => rw [List.append_nil]
  | cons c bs =>
    rw [tokens?_append (isJoint_of_isBlank (h c (by simp))), hnone h]
    cases tokens? a <;> simp

/-- Blanks at the front count for nothing. -/
theorem tokens?_trimStart (cs : List Char) : tokens? (trimStart cs) = tokens? cs := by
  induction cs with
  | nil => rfl
  | cons c cs ih =>
    by_cases h : isBlank c
    · rw [tokens?_blank h, ← ih]
      congr 1
      exact List.dropWhile_cons_of_pos h
    · congr 1
      exact List.dropWhile_cons_of_neg h

/-- A text is its trimmed end and blanks. -/
theorem exists_trimEnd_append (cs : List Char) :
    ∃ bs, cs = trimEnd cs ++ bs ∧ ∀ c ∈ bs, isBlank c := by
  refine ⟨(cs.reverse.takeWhile isBlank).reverse, ?_, ?_⟩
  · rw [trimEnd, ← List.reverse_append, List.takeWhile_append_dropWhile, List.reverse_reverse]
  · intro c hc
    exact List.all_eq_true.1 List.all_takeWhile c (List.mem_reverse.1 hc)

/-- Trimming twice is trimming once. -/
theorem trim_trim (cs : List Char) : trim (trim cs) = trim cs := by
  have hend : trimEnd (trimEnd (trimStart cs)) = trimEnd (trimStart cs) := by
    simp only [trimEnd, List.reverse_reverse, List.dropWhile_idempotent]
  have hstart : trimStart (trimEnd (trimStart cs)) = trimEnd (trimStart cs) := by
    obtain ⟨bs, heq, -⟩ := exists_trimEnd_append (trimStart cs)
    rcases htrim : trimEnd (trimStart cs) with _ | ⟨d, ds⟩
    · rfl
    · have hhead := List.head?_dropWhile_not isBlank cs
      rw [show cs.dropWhile isBlank = trimStart cs from rfl, heq, htrim] at hhead
      exact List.dropWhile_cons_of_neg (by simpa using hhead)
  rw [trim, trim, hstart, hend]

/-- **Blanks around a text count for nothing.** -/
theorem tokens?_trim (cs : List Char) : tokens? (trim cs) = tokens? cs := by
  obtain ⟨bs, heq, hbs⟩ := exists_trimEnd_append (trimStart cs)
  rw [← tokens?_trimStart cs, trim]
  conv => rhs; rw [heq]
  rw [tokens?_append_blanks _ hbs]

/-! ## Operators as tokens -/

/-- The character of an operator is read as that operator. -/
@[simp] theorem Op.ofChar?_char (o : Op) : Op.ofChar? o.char = some o := by
  cases o <;> rfl

/-- The character of an operator is the first token wherever a text starts with it. -/
theorem tokens?_op (o : Op) (cs : List Char) :
    tokens? (o.char :: cs) = (tokens? cs).map (.op o :: ·) := by
  have hblank : isBlank o.char = false := by cases o <;> decide
  refine tokens?_first hblank ?_
  have hscan : Literal.scan? (o.char :: cs) = none :=
    scan?_eq_none (by cases o <;> rfl) (by cases o <;> decide) cs
  have hname : isNameStart o.char = false := by cases o <;> decide
  simp [Token.first?, hscan, hname]

/-- **An operator other than a sign is a token wherever it stands**: the text has the tokens of what
stands before it and of what follows it. -/
theorem tokens?_cut {o : Op} (h : isJoint o.char) {a b : List Char} {ts : List Token} :
    tokens? (a ++ o.char :: b) = some ts ↔
      ∃ as bs, tokens? a = some as ∧ tokens? b = some bs ∧ ts = as ++ .op o :: bs := by
  rw [tokens?_append h, tokens?_op]
  cases tokens? a <;> cases tokens? b <;> simp [eq_comm]

/-! ## Cutting between tokens -/

/-- The characters of a token. -/
inductive Lexeme : Token → List Char → Prop
  | num {l : Literal} : l.WellFormed → Lexeme (.num l.value) l.chars
  | name {c cs} : isNameStart c → cs.all isWord → Lexeme (.name (String.ofList (c :: cs))) (c :: cs)
  | op (o : Op) : Lexeme (.op o) [o.char]

/-- A token has at least one character, and its first one is no blank. -/
theorem Lexeme.exists_cons {t : Token} {lex : List Char} (h : Lexeme t lex) :
    ∃ c cs, lex = c :: cs ∧ isBlank c = false := by
  have hblank : ∀ {c : Char}, isJoint c = false → isBlank c = false := fun {c} hc => by
    cases hb : isBlank c with
    | false => rfl
    | true => exact absurd (isJoint_of_isBlank hb) (by simp [hc])
  cases h with
  | @num l hl =>
    have hscan := Literal.scan?_chars hl l.stops_nil
    rw [List.append_nil] at hscan
    obtain ⟨c, cs, hcs⟩ := List.exists_cons_of_length_pos (length_of_scan? hscan)
    rw [hcs] at hscan
    refine ⟨c, cs, hcs, hblank ?_⟩
    rcases head_of_scan? hscan with hd | rfl
    · simp [isJoint, isWord, hd]
    · rfl
  | name hc _ => exact ⟨_, _, rfl, hblank (by simp [isJoint, isWord, hc])⟩
  | op o => exact ⟨_, _, rfl, by cases o <;> decide⟩

/-- No character of a number or a name is a joint. -/
theorem Lexeme.not_isJoint {t : Token} {lex : List Char} (h : Lexeme t lex) (ht : ∀ o, t ≠ .op o) :
    ∀ c ∈ lex, isJoint c = false := by
  cases h with
  | num hl => exact hl.not_isJoint
  | name hc hcs =>
    rintro d (_ | ⟨_, hd⟩)
    · exact isJoint_of_isWord (by simp [isWord, hc])
    · exact isJoint_of_isWord (List.all_eq_true.1 hcs d hd)
  | op o => exact absurd rfl (ht o)

/-- The character of an operator. -/
theorem Op.char_of_ofChar? {c : Char} {o : Op} (h : Op.ofChar? c = some o) : c = o.char := by
  unfold Op.ofChar? at h
  split at h <;> cases h <;> rfl

/-- A literal is read as a number up to what stops it. -/
theorem Token.first?_chars {l : Literal} (h : l.WellFormed) {rest : List Char}
    (hrest : l.Stops rest) : Token.first? (l.chars ++ rest) = some (.num l.value, rest) := by
  have hback := Literal.scan?_chars h hrest
  obtain ⟨d, ds, hd, -⟩ := (Lexeme.num h).exists_cons
  rw [hd, List.cons_append] at hback ⊢
  simp only [Token.first?, hback]

/-- The first token of a text ends where it ends, however much of what follows is kept. -/
theorem Token.exists_lexeme {cs rest : List Char} {t} (h : Token.first? cs = some (t, rest)) :
    ∃ lex, Lexeme t lex ∧ cs = lex ++ rest ∧
      ∀ a b, rest = a ++ b → Token.first? (lex ++ a) = some (t, a) := by
  unfold Token.first? at h
  split at h
  · contradiction
  · next c cs =>
    split at h
    · next l r hl =>
      cases h
      have hwf := wellFormed_of_scan? hl
      refine ⟨l.chars, .num hwf, chars_of_scan? hl, fun a b hr => Token.first?_chars hwf ?_⟩
      exact (hr ▸ stops_of_scan? hl).of_append
    · split at h
      · next hc =>
        cases h
        have hall := List.all_takeWhile (p := isWord) (l := cs)
        refine ⟨c :: cs.takeWhile isWord, .name hc hall, by simp, fun a b hr => ?_⟩
        have hstop : a.takeWhile isWord = [] ∧ a.dropWhile isWord = a := by
          cases a with
          | nil => simp
          | cons d a =>
            have hhead := List.head?_dropWhile_not isWord cs
            rw [hr] at hhead
            simp_all
        simp only [List.cons_append, Token.first?, scan?_eq_none_of_isNameStart hc, hc, if_true,
          takeWhile_append_of_all hall, dropWhile_append_of_all hall, hstop, List.append_nil]
      · next hc =>
        obtain ⟨o, ho, heq⟩ := Option.map_eq_some_iff.1 h
        cases heq
        obtain rfl := Op.char_of_ofChar? ho
        refine ⟨[o.char], .op o, rfl, fun a b hr => ?_⟩
        have hd : Literal.scan? (o.char :: a) = none :=
          scan?_eq_none (by cases o <;> rfl) (by cases o <;> decide) a
        simp [Token.first?, hd, hc]

/-- A property of texts and their tokens is proved token by token. -/
theorem tokens?_induction {P : List Char → List Token → Prop} (nil : P [] [])
    (blank : ∀ {c cs ts}, isBlank c → tokens? cs = some ts → P cs ts → P (c :: cs) ts)
    (token : ∀ {lex rest t ts}, Lexeme t lex → Token.first? (lex ++ rest) = some (t, rest) →
      tokens? rest = some ts → P rest ts → P (lex ++ rest) (t :: ts)) :
    ∀ {cs ts}, tokens? cs = some ts → P cs ts
  | [], ts, h => by
    obtain rfl : ts = [] := by simpa using h.symm
    exact nil
  | c :: cs, ts, h => by
    by_cases hc : isBlank c
    · rw [tokens?_blank hc] at h
      exact blank hc h (tokens?_induction nil blank token h)
    · have hc : isBlank c = false := by simpa using hc
      cases hf : Token.first? (c :: cs) with
      | none => simp [tokens?_none hc hf] at h
      | some p =>
        obtain ⟨t, rest⟩ := p
        have hlt := Token.length_of_first? hf
        rw [tokens?_first hc hf] at h
        obtain ⟨us, hus, rfl⟩ := Option.map_eq_some_iff.1 h
        obtain ⟨lex, hlex, hcs, -⟩ := Token.exists_lexeme hf
        rw [hcs] at hf ⊢
        exact token hlex hf hus (tokens?_induction nil blank token hus)
termination_by cs => cs.length
decreasing_by
  · simp
  · exact hlt

/-- A text that starts with the characters of a token, up to where the token ends. -/
theorem tokens?_lexeme {t : Token} {lex rest : List Char} (hlex : Lexeme t lex)
    (hf : Token.first? (lex ++ rest) = some (t, rest)) :
    tokens? (lex ++ rest) = (tokens? rest).map (t :: ·) := by
  obtain ⟨c, cs, rfl, hc⟩ := hlex.exists_cons
  exact tokens?_first hc hf

/-- **A text can be cut between any two of its tokens.** -/
theorem exists_cut_of_tokens? {cs : List Char} {ts : List Token} (h : tokens? cs = some ts) :
    ∀ as bs, ts = as ++ bs → ∃ a b, cs = a ++ b ∧ tokens? a = some as ∧ tokens? b = some bs := by
  refine tokens?_induction (P := fun cs ts => ∀ as bs, ts = as ++ bs →
    ∃ a b, cs = a ++ b ∧ tokens? a = some as ∧ tokens? b = some bs) ?_ ?_ ?_ h
  · intro as bs heq
    obtain ⟨rfl, rfl⟩ := List.append_eq_nil_iff.1 heq.symm
    exact ⟨[], [], rfl, rfl, rfl⟩
  · intro c cs ts hc _ ih as bs heq
    obtain ⟨a, b, rfl, ha, hb⟩ := ih as bs heq
    exact ⟨c :: a, b, rfl, by rwa [tokens?_blank hc], hb⟩
  · rintro lex rest t ts hlex hf hts ih (_ | ⟨t', as⟩) bs heq
    · exact ⟨[], lex ++ rest, rfl, rfl, by rw [tokens?_lexeme hlex hf, hts]; exact congrArg _ heq⟩
    · obtain ⟨rfl, hts'⟩ := List.cons.inj heq
      obtain ⟨a, b, rfl, ha, hb⟩ := ih as bs hts'
      obtain ⟨lex', hlex', hcs, hcut⟩ := Token.exists_lexeme hf
      obtain rfl : lex = lex' := List.append_cancel_right hcs
      refine ⟨lex ++ a, b, by simp, ?_, hb⟩
      rw [tokens?_lexeme hlex (hcut a b rfl), ha]
      rfl

/-- A text that is a literal is one token. -/
theorem tokens?_literal {cs : List Char} {l : Literal} (h : Literal.ofChars? cs = some l) :
    tokens? cs = some [.num l.value] := by
  have hscan : Literal.scan? cs = some (l, []) := by
    unfold Literal.ofChars? at h
    split at h
    · next heq =>
      cases h
      exact heq
    · cases h
  have hwf := wellFormed_of_scan? hscan
  rw [chars_of_scan? hscan, tokens?_lexeme (.num hwf) (Token.first?_chars hwf l.stops_nil)]
  rfl

/-!
## Numbers as they are written

A token of arithmetic text keeps the value of a number and forgets how it is written. Other readers of the
same text may care: to a script `010` is eight, and to compiled code `2.0` is no integer. `literals` lists
the numbers of a text in their spelling.
-/

/-- The numbers of a text, with a bound on the tokens that are read. -/
def literalsWithin : Nat → List Char → List Literal
  | 0, _ => []
  | fuel + 1, cs =>
    match Token.first? (trimStart cs) with
    | none => []
    | some (_, rest) =>
      ((Literal.scan? (trimStart cs)).map (·.1)).toList ++ literalsWithin fuel rest

/-- The numbers of a text as they are written. -/
def literals (cs : List Char) : List Literal :=
  literalsWithin cs.length cs

/-- Two bounds that are large enough give the same numbers. -/
theorem literalsWithin_congr : ∀ {m n : Nat} {cs : List Char}, cs.length ≤ m → cs.length ≤ n →
    literalsWithin m cs = literalsWithin n cs
  | 0, 0, _, _, _ => rfl
  | 0, n + 1, cs, hm, _ => by
    obtain rfl := List.length_eq_zero_iff.1 (Nat.le_zero.1 hm)
    rfl
  | m + 1, 0, cs, _, hn => by
    obtain rfl := List.length_eq_zero_iff.1 (Nat.le_zero.1 hn)
    rfl
  | m + 1, n + 1, cs, hm, hn => by
    have hle := length_trimStart cs
    rw [literalsWithin, literalsWithin]
    split
    · rfl
    · next t rest ht =>
      have hlt := Token.length_of_first? ht
      rw [literalsWithin_congr (m := m) (n := n) (by omega) (by omega)]

/-- A blank at the front counts for nothing. -/
theorem literals_blank {c : Char} (h : isBlank c) (cs : List Char) : literals (c :: cs) = literals cs := by
  have htrim : trimStart (c :: cs) = trimStart cs := List.dropWhile_cons_of_pos h
  calc literals (c :: cs) = literalsWithin (cs.length + 1) cs := by
        rw [literals, List.length_cons, literalsWithin, literalsWithin, htrim]
    _ = literals cs := literalsWithin_congr (by omega) (by omega)

/-- The number at the front of a text, if there is one, then those of the rest. -/
theorem literals_first {c : Char} (h : isBlank c = false) {cs rest : List Char} {t}
    (ht : Token.first? (c :: cs) = some (t, rest)) :
    literals (c :: cs) = ((Literal.scan? (c :: cs)).map (·.1)).toList ++ literals rest := by
  have hlt := Token.length_of_first? ht
  have htrim : trimStart (c :: cs) = c :: cs := List.dropWhile_cons_of_neg (by simp [h])
  rw [literals, List.length_cons, literalsWithin, htrim, ht]
  dsimp only
  rw [literalsWithin_congr (m := cs.length) (n := rest.length) (Nat.le_of_lt_succ hlt) le_rfl, literals]

end RecurrenceCompiler.Arith
