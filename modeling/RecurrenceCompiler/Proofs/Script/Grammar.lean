import Mathlib
import RecurrenceCompiler.Proofs.Decimal.Scan
import RecurrenceCompiler.Script.Expression

/-!
# Reading script text

Tokens are read one after the other, blanks between them counting for nothing (`tokens?_first`,
`tokens?_blank`): each takes at least one character, so the length of a text bounds their number.

`Parses` is the part of the grammar that generated code uses, as a relation between what is read, a
run of tokens and the expressions it stands for. Whatever it relates is read (`read_of_parses`): the
reader builds the same expression, stops behind the run, and has the fuel to get there.
-/

namespace RecurrenceCompiler.Script

open Text Decimal

/-- No name goes on with a blank. -/
theorem continuesName_of_isBlank {c : Char} (h : isBlank c) : continuesName c = false := by
  have hjoint := isJoint_of_isBlank h
  have hdollar : c ≠ '$' := by
    rintro rfl
    cases h
  simp [continuesName, startsName, isNameStart_of_isJoint hjoint, isDigit_of_isJoint hjoint, hdollar, h]

/-! ## The bound on the number of tokens -/

/-- Reading a number takes at least one character. -/
theorem length_of_number? {cs rest : List Char} {x} (h : number? cs = some (x, rest)) :
    rest.length < cs.length := by
  have hscan (h : (Literal.scan? cs).map (fun p => (p.1.value, p.2)) = some (x, rest)) :
      rest.length < cs.length := by
    obtain ⟨⟨l, r⟩, hl, heq⟩ := Option.map_eq_some_iff.1 h
    cases heq
    exact length_of_scan? hl
  unfold number? at h
  dsimp only at h
  split at h
  · next d ds hd =>
    split at h
    · obtain ⟨-, rfl⟩ := Prod.mk.inj (Option.some.inj h)
      have hlen := congrArg List.length (List.takeWhile_append_dropWhile (p := isDigit) (l := cs))
      rw [List.length_append, hd, List.length_cons, List.length_cons] at hlen
      omega
    · exact hscan h
  · exact hscan h

/-- An operator that is read is a prefix of the text, not empty. -/
theorem length_of_mark? {cs rest : List Char} {m} (h : mark? cs = some (m, rest)) :
    rest.length < cs.length := by
  unfold mark? at h
  split at h
  · next text m hfind =>
    cases h
    have hmem := List.mem_of_find?_eq_some hfind
    have hpos : 0 < text.length := by
      have hall : ∀ p ∈ marks, 0 < p.1.length := by decide
      exact hall _ hmem
    have hprefix := List.find?_some hfind
    have hle : text.toList.length ≤ cs.length := (List.isPrefixOf_iff_prefix.1 hprefix).length_le
    rw [String.length_toList] at hle
    rw [List.length_drop]
    omega
  · cases h

/-- Reading a token takes at least one character. -/
theorem Token.length_of_first? {cs rest : List Char} {t} (h : Token.first? cs = some (t, rest)) :
    rest.length < cs.length := by
  unfold Token.first? at h
  split at h
  · next x r hx =>
    split at h
    · cases h
    · cases h
      exact length_of_number? hx
  · split at h
    · cases h
    · next c cs _ =>
      split at h
      · cases h
        have hle := (List.dropWhile_suffix (l := cs) continuesName).length_le
        rw [List.length_cons]
        omega
      · obtain ⟨⟨m, r⟩, hm, heq⟩ := Option.map_eq_some_iff.1 h
        cases heq
        exact length_of_mark? hm

/-- Two bounds that are large enough give the same tokens. -/
theorem tokensWithin_congr : ∀ {m n : Nat} {cs : List Char}, cs.length ≤ m → cs.length ≤ n →
    tokensWithin m cs = tokensWithin n cs
  | 0, 0, _, _, _ => rfl
  | 0, n + 1, cs, hm, _ => by
    obtain rfl := List.length_eq_zero_iff.1 (Nat.le_zero.1 hm)
    rfl
  | m + 1, 0, cs, _, hn => by
    obtain rfl := List.length_eq_zero_iff.1 (Nat.le_zero.1 hn)
    rfl
  | m + 1, n + 1, cs, hm, hn => by
    have hle := (List.dropWhile_suffix (l := cs) isBlank).length_le
    simp only [tokensWithin, trimStart]
    split
    · rfl
    · cases ht : Token.first? (cs.dropWhile isBlank) with
      | none => rfl
      | some p =>
        obtain ⟨t, rest⟩ := p
        have hlt := Token.length_of_first? ht
        simp only [Option.bind_eq_bind, Option.bind_some]
        rw [tokensWithin_congr (m := m) (n := n) (by omega) (by omega)]

@[simp] theorem tokens?_nil : tokens? [] = some [] := rfl

/-- A blank at the front counts for nothing. -/
theorem tokens?_blank {c : Char} (h : isBlank c) (cs : List Char) :
    tokens? (c :: cs) = tokens? cs := by
  have htrim : trimStart (c :: cs) = trimStart cs := List.dropWhile_cons_of_pos h
  calc tokens? (c :: cs) = tokensWithin (cs.length + 1) cs := by
        simp only [tokens?, tokensWithin, List.length_cons, htrim]
    _ = tokens? cs := tokensWithin_congr (by omega) (by omega)

/-- The first token of a text, then those of the rest. -/
theorem tokens?_first {c : Char} (h : isBlank c = false) {cs rest : List Char} {t}
    (ht : Token.first? (c :: cs) = some (t, rest)) :
    tokens? (c :: cs) = (tokens? rest).map (t :: ·) := by
  have hlt := Token.length_of_first? ht
  have htrim : trimStart (c :: cs) = c :: cs := List.dropWhile_cons_of_neg (by simp [h])
  simp only [tokens?, List.length_cons, tokensWithin, htrim, ht, Option.bind_eq_bind,
    Option.bind_some]
  rw [tokensWithin_congr (m := cs.length) (n := rest.length) (Nat.le_of_lt_succ hlt) (Nat.le_refl _)]
  cases tokensWithin rest.length rest <;> rfl

/-- A text whose first token is none has none. -/
theorem tokens?_none {c : Char} (h : isBlank c = false) {cs : List Char}
    (ht : Token.first? (c :: cs) = none) : tokens? (c :: cs) = none := by
  have htrim : trimStart (c :: cs) = c :: cs := List.dropWhile_cons_of_neg (by simp [h])
  simp only [tokens?, List.length_cons, tokensWithin, htrim, ht, Option.bind_eq_bind,
    Option.bind_none]

/-! ## The grammar -/

/-- What is read: a conditional expression, operators of at least a level, an operand with its signs,
an operand with its suffixes, or the arguments of a call. -/
inductive Goal where
  | cond
  | binary (level : Nat)
  | unary
  | operand
  | args

/-- A run of tokens and the expressions that it stands for: the arguments of a call, or one
expression. -/
inductive Parses : Goal → List Token → List Expression → Prop
  | ofBinary {ts e} : Parses (.binary 1) ts [e] → Parses .cond ts [e]
  | ofCond {as bs cs t y n} : Parses (.binary 1) as [t] → Parses .cond bs [y] → Parses .cond cs [n] →
      Parses .cond (as ++ .mark .question :: (bs ++ .mark .colon :: cs)) [.cond t y n]
  | ofUnary {level ts e} : Parses .unary ts [e] → Parses (.binary level) ts [e]
  | join {level as bs l r m k build} : m.binary? = some (k, build) → level ≤ k →
      Parses (.binary k) as [l] → Parses (.binary (k + 1)) bs [r] →
      Parses (.binary level) (as ++ .mark m :: bs) [build l r]
  | ofOperand {ts e} : Parses .operand ts [e] → Parses .unary ts [e]
  | negate {ts e} : Parses .unary ts [e] → Parses .unary (.mark (.op .sub) :: ts) [.negate e]
  | positive {ts e} : Parses .unary ts [e] → Parses .unary (.mark (.op .add) :: ts) [.positive e]
  | not {ts e} : Parses .unary ts [e] → Parses .unary (.mark .not :: ts) [.not e]
  | num {x} : Parses .operand [.num x] [.num x]
  | name {n e} : nameExpression? n = some e → Parses .operand [.name n] [e]
  | paren {ts e} : Parses .cond ts [e] → Parses .operand (.mark .left :: ts ++ [.mark .right]) [e]
  | element {as bs t i} : Parses .operand as [t] → Parses .cond bs [i] →
      Parses .operand (as ++ .mark .leftSquare :: (bs ++ [.mark .rightSquare])) [.element t i]
  | call {as bs f es} : Parses .operand as [f] → Parses .args bs es →
      Parses .operand (as ++ .mark .left :: (bs ++ [.mark .right])) [.call f es]
  | one {ts e} : Parses .cond ts [e] → Parses .args ts [e]
  | more {as bs e es} : Parses .cond as [e] → Parses .args bs es →
      Parses .args (as ++ .mark .comma :: bs) (e :: es)

/-- One more argument at the end. -/
theorem Parses.concat {as bs es e} (h : Parses .args as es) (he : Parses .cond bs [e]) :
    Parses .args (as ++ .mark .comma :: bs) (es ++ [e]) := by
  generalize hg : Goal.args = g at h
  induction h with
  | one h => exact .more h (.one he)
  | more h _ _ ih =>
    have := Parses.more h (ih hg)
    simpa using this
  | _ => cases hg

/-- A token that an expression can start with. -/
def Token.starts : Token → Bool
  | .mark (.op .sub) | .mark (.op .add) | .mark .not | .mark .left => true
  | .mark _ => false
  | _ => true

/-- What is parsed starts like an expression. -/
theorem Parses.starts {g ts es} (h : Parses g ts es) : ∃ t us, ts = t :: us ∧ t.starts = true := by
  induction h with
  | ofBinary _ ih | ofUnary _ ih | ofOperand _ ih | one _ ih => exact ih
  | ofCond _ _ _ ih _ _ | join _ _ _ _ ih _ | element _ _ ih _ | call _ _ ih _ | more _ _ ih _ =>
    obtain ⟨t, us, rfl, ht⟩ := ih
    exact ⟨t, _, rfl, ht⟩
  | negate | positive | not | num | name | paren => exact ⟨_, _, rfl, rfl⟩

/-! ## Where reading stops -/

/-- A token that goes on with an operand. -/
def Token.isSuffix : Token → Bool
  | .mark .leftSquare | .mark .dot | .mark .left => true
  | _ => false

/-- The level of a token that joins operands. -/
def Token.level? : Token → Option Nat
  | .mark m => m.binary?.map (·.1)
  | _ => none

/-- The tokens after an expression whose operators have at least a level: no suffix comes, and no
operator that binds more tightly. -/
structure Follows (level : Nat) (rest : List Token) : Prop where
  suffix : ∀ t ∈ rest.head?, t.isSuffix = false
  level : ∀ t ∈ rest.head?, ∀ k ∈ t.level?, k ≤ level

/-- The tokens after an operand with its suffixes. -/
def EndsOperand (rest : List Token) : Prop :=
  ∀ t ∈ rest.head?, t.isSuffix = false

/-- The tokens after a conditional expression. -/
structure Ends (rest : List Token) : Prop where
  suffix : EndsOperand rest
  level : ∀ t ∈ rest.head?, t.level? = none
  question : ∀ t ∈ rest.head?, t ≠ .mark .question

/-- Suffixes end before a token that is none. -/
theorem readSuffixes_stop {fuel : Nat} {e : Expression} {rest : List Token} (hf : 0 < fuel)
    (h : EndsOperand rest) : readSuffixes fuel e rest = some (e, rest) := by
  obtain ⟨fuel, rfl⟩ := Nat.exists_eq_add_of_le' hf
  cases rest with
  | nil => rfl
  | cons t rest =>
    have ht := h t rfl
    cases t with
    | num | name => rfl
    | mark m => cases m <;> first | rfl | cases ht

/-- Operators end before a token that joins less tightly. -/
theorem readRest_stop {fuel level : Nat} {e : Expression} {rest : List Token} (hf : 0 < fuel)
    (h : ∀ t ∈ rest.head?, ∀ k ∈ t.level?, k < level) : readRest fuel level e rest = some (e, rest) := by
  obtain ⟨fuel, rfl⟩ := Nat.exists_eq_add_of_le' hf
  cases rest with
  | nil => rfl
  | cons t rest =>
    cases t with
    | num | name => rfl
    | mark m =>
      rw [readRest]
      cases hm : m.binary? with
      | none => rfl
      | some p =>
        obtain ⟨k, build⟩ := p
        have hk : k < level := h (.mark m) rfl k (by simp [Token.level?, hm])
        simp [Nat.not_le.2 hk]

/-- A binary operator joins at level one or more. -/
theorem Mark.level_pos {m : Mark} {k build} (h : m.binary? = some (k, build)) : 1 ≤ k ∧ k ≤ 6 := by
  cases m with
  | op o =>
    cases h
    cases o <;> decide
  | and | or =>
    cases h
    decide
  | _ => cases h

/-! ## Reading -/

/-- What the reader does with a run of tokens, with fuel in proportion to its length. Operators and
suffixes join to the left, so behind a run of them the reader is about to look for more; the fuel
that is asked for then is a parameter. -/
def Read : Goal → List Token → Expression → Prop
  | .cond, ts, e => ∀ rest, Ends rest → ∀ fuel, 8 * ts.length + 2 ≤ fuel →
      readCond fuel (ts ++ rest) = some (e, rest)
  | .binary level, ts, e => ∀ level' ≤ level, ∀ rest, Follows level rest →
      ∀ fuel left, 8 * ts.length + left ≤ fuel →
      ∃ fuel', left ≤ fuel' ∧ readBinary fuel level' (ts ++ rest) = readRest fuel' level' e rest
  | .unary, ts, e => ∀ rest, EndsOperand rest → ∀ fuel, 8 * ts.length ≤ fuel + 1 →
      readUnary fuel (ts ++ rest) = some (e, rest)
  | .operand, ts, e => ∀ rest, ∀ fuel left, 8 * ts.length + left ≤ fuel + 4 →
      ∃ fuel', left ≤ fuel' ∧ readUnary fuel (ts ++ rest) = readSuffixes fuel' e rest
  | .args, _, _ => True

/-- What the reader does with the arguments of a call. -/
def ReadArgs (ts : List Token) (es : List Expression) : Prop :=
  ∀ rest, ∀ fuel, 8 * ts.length + 4 ≤ fuel → readArgs fuel (ts ++ .mark .right :: rest) = some (es, rest)

/-- An operand without a sign is read as such. -/
theorem readUnary_operand {fuel : Nat} {t : Token} {ts : List Token} (ht : ∀ m, t = .mark m → m = .left) :
    readUnary (fuel + 1) (t :: ts) = (readPrimary fuel (t :: ts)).bind fun p =>
      readSuffixes fuel p.1 p.2 := by
  cases t with
  | num | name => rfl
  | mark m =>
    obtain rfl := ht m rfl
    rfl

/-- An argument that is read, with those behind it. -/
def argsFrom (fuel : Nat) (p : Expression × List Token) : Option (List Expression × List Token) :=
  match p.2 with
  | .mark .comma :: ts => (readArgs fuel ts).bind fun q => some (p.1 :: q.1, q.2)
  | .mark .right :: ts => some ([p.1], ts)
  | _ => none

/-- Arguments that do not end at once. -/
theorem readArgs_cons {fuel : Nat} {t : Token} {ts : List Token} (ht : t.starts = true) :
    readArgs (fuel + 1) (t :: ts) = (readCond fuel (t :: ts)).bind (argsFrom fuel) := by
  cases t with
  | num | name => rfl
  | mark m =>
    cases m with
    | right => cases ht
    | _ => rfl

theorem ends_mark {m : Mark} {rest : List Token} (hs : (Token.mark m).isSuffix = false)
    (hl : (Token.mark m).level? = none) (hq : m ≠ .question) : Ends (.mark m :: rest) := by
  constructor
  · rintro _ ⟨⟩
    exact hs
  · rintro _ ⟨⟩
    exact hl
  · rintro _ ⟨⟩ h
    exact hq (Token.mark.inj h)

/-- **What is parsed is read.** -/
theorem read_of_parses {g ts es} (h : Parses g ts es) :
    (∀ e, es = [e] → Read g ts e) ∧ (g = .args → ReadArgs ts es) := by
  induction h with
  | @ofBinary ts e h ih =>
    refine ⟨?_, nofun⟩
    rintro _ ⟨⟩ rest hrest fuel hfuel
    obtain ⟨fuel, rfl⟩ : ∃ n, fuel = n + 1 := ⟨fuel - 1, by omega⟩
    have hfollows : Follows 1 rest := ⟨hrest.suffix, fun t ht k hk => by
      rw [hrest.level t ht] at hk
      cases hk⟩
    obtain ⟨fuel', hfuel', hread⟩ := ih.1 e rfl 1 le_rfl rest hfollows fuel 1 (by omega)
    have hstop : readRest fuel' 1 e rest = some (e, rest) := readRest_stop (by omega) fun t ht k hk => by
      rw [hrest.level t ht] at hk
      cases hk
    rw [readCond, hread, hstop]
    cases rest with
    | nil => rfl
    | cons t rest =>
      have hq := hrest.question t rfl
      cases t with
      | num | name => rfl
      | mark m =>
        cases m with
        | question => exact absurd rfl hq
        | _ => rfl
  | @ofCond as bs cs t y n _ _ _ iht ihy ihn =>
    refine ⟨?_, nofun⟩
    rintro _ ⟨⟩ rest hrest fuel hfuel
    simp only [List.length_append, List.length_cons] at hfuel
    obtain ⟨fuel, rfl⟩ : ∃ n, fuel = n + 1 := ⟨fuel - 1, by omega⟩
    have hfollows : Follows 1 (.mark .question :: (bs ++ .mark .colon :: (cs ++ rest))) := by
      constructor
      · rintro _ ⟨⟩
        rfl
      · rintro _ ⟨⟩ k hk
        cases hk
    obtain ⟨fuel', hfuel', hread⟩ := iht.1 t rfl 1 le_rfl _ hfollows fuel 1 (by omega)
    have hstop : readRest fuel' 1 t (.mark .question :: (bs ++ .mark .colon :: (cs ++ rest))) =
        some (t, .mark .question :: (bs ++ .mark .colon :: (cs ++ rest))) :=
      readRest_stop (by omega) (by
        rintro _ ⟨⟩ k hk
        cases hk)
    have hyes := ihy.1 y rfl (.mark .colon :: (cs ++ rest)) (ends_mark rfl rfl (by decide)) fuel
      (by omega)
    have hno := ihn.1 n rfl rest hrest fuel (by omega)
    simp only [List.append_assoc, List.cons_append]
    rw [readCond, hread, hstop]
    simp only [Option.bind_eq_bind, Option.bind_some]
    rw [hyes]
    simp only [Option.bind_some]
    rw [hno]
    rfl
  | @ofUnary level ts e h ih =>
    refine ⟨?_, nofun⟩
    rintro _ ⟨⟩ level' _ rest hrest fuel left hfuel
    have hpos : 0 < ts.length := by
      obtain ⟨t, us, rfl, -⟩ := h.starts
      simp
    obtain ⟨fuel, rfl⟩ : ∃ n, fuel = n + 1 := ⟨fuel - 1, by omega⟩
    refine ⟨fuel, by omega, ?_⟩
    rw [readBinary, ih.1 e rfl rest hrest.suffix fuel (by omega)]
    rfl
  | @join level as bs l r m k build hm hk _ _ ihl ihr =>
    refine ⟨?_, nofun⟩
    rintro _ ⟨⟩ level' hlevel rest hrest fuel left hfuel
    simp only [List.length_append, List.length_cons] at hfuel
    have hsuffix : (Token.mark m).isSuffix = false := by
      cases m <;> first | rfl | cases hm
    have hmark : Follows k (.mark m :: (bs ++ rest)) := by
      constructor
      · rintro _ ⟨⟩
        exact hsuffix
      · rintro _ ⟨⟩ j hj
        simp only [Token.level?, hm, Option.map_some, Option.mem_def, Option.some.injEq] at hj
        exact hj.ge
    obtain ⟨fuel₁, hfuel₁, hleft⟩ := ihl.1 l rfl level' (by omega) _ hmark fuel
      (8 * bs.length + 8 + left) (by omega)
    obtain ⟨fuel₁, rfl⟩ : ∃ n, fuel₁ = n + 1 := ⟨fuel₁ - 1, by omega⟩
    have hnext : Follows (k + 1) rest := ⟨hrest.suffix, fun t ht j hj =>
      (hrest.level t ht j hj).trans (by omega)⟩
    obtain ⟨fuel₂, hfuel₂, hright⟩ := ihr.1 r rfl (k + 1) le_rfl rest hnext fuel₁ 1 (by omega)
    -- What follows joins less tightly than the right operand, so that operand ends there.
    have hstop : readRest fuel₂ (k + 1) r rest = some (r, rest) :=
      readRest_stop (by omega) fun t ht j hj => by
        have := hrest.level t ht j hj
        omega
    refine ⟨fuel₁, by omega, ?_⟩
    rw [List.append_assoc, List.cons_append, hleft, readRest]
    simp only [hm, show level' ≤ k by omega, if_true, Option.bind_eq_bind]
    rw [hright, hstop]
    rfl
  | @ofOperand ts e _ ih =>
    refine ⟨?_, nofun⟩
    rintro _ ⟨⟩ rest hrest fuel hfuel
    obtain ⟨fuel', hfuel', hread⟩ := ih.1 e rfl rest fuel 1 (by omega)
    rw [hread, readSuffixes_stop (by omega) hrest]
  | @negate ts e _ ih | @positive ts e _ ih | @not ts e _ ih =>
    refine ⟨?_, nofun⟩
    rintro _ ⟨⟩ rest hrest fuel hfuel
    rw [List.length_cons] at hfuel
    obtain ⟨fuel, rfl⟩ : ∃ n, fuel = n + 1 := ⟨fuel - 1, by omega⟩
    rw [List.cons_append, readUnary, ih.1 e rfl rest hrest fuel (by omega)]
    rfl
  | num =>
    refine ⟨?_, nofun⟩
    rintro _ ⟨⟩ rest fuel left hfuel
    simp only [List.length_singleton] at hfuel
    obtain ⟨fuel, rfl⟩ : ∃ n, fuel = n + 2 := ⟨fuel - 2, by omega⟩
    refine ⟨fuel + 1, by omega, ?_⟩
    rw [List.singleton_append, readUnary_operand (by simp), readPrimary]
    rfl
  | name hn =>
    refine ⟨?_, nofun⟩
    rintro _ ⟨⟩ rest fuel left hfuel
    simp only [List.length_singleton] at hfuel
    obtain ⟨fuel, rfl⟩ : ∃ n, fuel = n + 2 := ⟨fuel - 2, by omega⟩
    refine ⟨fuel + 1, by omega, ?_⟩
    rw [List.singleton_append, readUnary_operand (by simp), readPrimary, hn]
    rfl
  | @paren ts e _ ih =>
    refine ⟨?_, nofun⟩
    rintro _ ⟨⟩ rest fuel left hfuel
    simp only [List.length_append, List.length_cons, List.length_nil] at hfuel
    obtain ⟨fuel, rfl⟩ : ∃ n, fuel = n + 2 := ⟨fuel - 2, by omega⟩
    have hinside := ih.1 e rfl (.mark .right :: rest) (ends_mark rfl rfl (by decide)) fuel (by omega)
    refine ⟨fuel + 1, by omega, ?_⟩
    simp only [List.cons_append, List.append_assoc, List.nil_append]
    rw [readUnary_operand (by simp), readPrimary, hinside]
    rfl
  | @element as bs t i _ _ iht ihi =>
    refine ⟨?_, nofun⟩
    rintro _ ⟨⟩ rest fuel left hfuel
    simp only [List.length_append, List.length_cons, List.length_nil] at hfuel
    obtain ⟨fuel', hfuel', hread⟩ := iht.1 t rfl (.mark .leftSquare :: (bs ++ .mark .rightSquare :: rest))
      fuel (8 * bs.length + 16 + left) (by omega)
    obtain ⟨fuel', rfl⟩ : ∃ n, fuel' = n + 1 := ⟨fuel' - 1, by omega⟩
    have hindex := ihi.1 i rfl (.mark .rightSquare :: rest) (ends_mark rfl rfl (by decide)) fuel'
      (by omega)
    refine ⟨fuel', by omega, ?_⟩
    simp only [List.append_assoc, List.cons_append, List.nil_append]
    rw [hread, readSuffixes, hindex]
    rfl
  | @call as bs f es _ _ ihf ihargs =>
    refine ⟨?_, nofun⟩
    rintro _ ⟨⟩ rest fuel left hfuel
    simp only [List.length_append, List.length_cons, List.length_nil] at hfuel
    obtain ⟨fuel', hfuel', hread⟩ := ihf.1 f rfl (.mark .left :: (bs ++ .mark .right :: rest))
      fuel (8 * bs.length + 16 + left) (by omega)
    obtain ⟨fuel', rfl⟩ : ∃ n, fuel' = n + 1 := ⟨fuel' - 1, by omega⟩
    have hargs := ihargs.2 rfl rest fuel' (by omega)
    refine ⟨fuel', by omega, ?_⟩
    simp only [List.append_assoc, List.cons_append, List.nil_append]
    rw [hread, readSuffixes, hargs]
    rfl
  | @one ts e h ih =>
    refine ⟨fun _ _ => trivial, fun _ rest fuel hfuel => ?_⟩
    obtain ⟨t, us, rfl, ht⟩ := h.starts
    obtain ⟨fuel, rfl⟩ : ∃ n, fuel = n + 1 := ⟨fuel - 1, by omega⟩
    have hcond := ih.1 e rfl (.mark .right :: rest) (ends_mark rfl rfl (by decide)) fuel (by omega)
    rw [List.cons_append] at hcond ⊢
    rw [readArgs_cons ht, hcond]
    rfl
  | @more as bs e es h _ ihe ihargs =>
    refine ⟨fun _ _ => trivial, fun _ rest fuel hfuel => ?_⟩
    obtain ⟨t, us, rfl, ht⟩ := h.starts
    simp only [List.length_append, List.length_cons] at hfuel
    obtain ⟨fuel, rfl⟩ : ∃ n, fuel = n + 1 := ⟨fuel - 1, by omega⟩
    have hcond := ihe.1 e rfl (.mark .comma :: (bs ++ .mark .right :: rest))
      (ends_mark rfl rfl (by decide)) fuel (by simp only [List.length_cons]; omega)
    have hargs := ihargs.2 rfl rest fuel (by omega)
    simp only [List.append_assoc, List.cons_append] at hcond ⊢
    rw [readArgs_cons ht, hcond]
    dsimp only [Option.bind_some, argsFrom]
    rw [hargs]
    rfl

/-- **An expression that is parsed is read to its end.** -/
theorem read?_of_parses {ts e} (h : Parses .cond ts [e]) : Expression.read? ts = some (e, []) := by
  have hread := (read_of_parses h).1 e rfl [] ⟨nofun, nofun, nofun⟩ (8 * ts.length + 8) (by omega)
  rwa [List.append_nil] at hread

end RecurrenceCompiler.Script
