import RecurrenceCompiler.Proofs.Arith.Grammar
import RecurrenceCompiler.Proofs.Arith.Lexing

/-!
# Sentences and their values

The parentheses of a derived run close in order: a run is balanced (`Derives.nesting_eq`) and no
front of it closes more than it opened (`Derives.nesting_nonneg`). So a place outside all parentheses
can be told by counting, and a product can be cut at any star there (`Derives.cut_times`), whichever
star the grammar puts at the root of the tree.

`HasValue` says through the grammar that a text has a value, and `eval_eq_ok_iff` that evaluation
finds exactly those values. Blanks and parentheses around a text do not change its value
(`hasValue_trim`, `HasValue.paren`).

A text that is a sentence can still fail to have a value, for a name without one, say. It is never the
text that is wrong then (`IsSentence.eval_error`).
-/

namespace RecurrenceCompiler.Arith

/-! ## Nesting inside a sentence -/

/-- The parentheses that a run of tokens opens, less those that it closes. -/
def nesting : List Token → Int
  | [] => 0
  | .op .left :: ts => nesting ts + 1
  | .op .right :: ts => nesting ts - 1
  | _ :: ts => nesting ts

/-- What one run opens, the next may close. -/
@[simp] theorem nesting_append (as bs : List Token) :
    nesting (as ++ bs) = nesting as + nesting bs := by
  induction as using nesting.induct <;> simp_all [nesting] <;> omega

/-- An operator between two runs neither opens nor closes. -/
theorem nesting_cons_op {o : Op} (hl : o ≠ .left) (hr : o ≠ .right) (ts : List Token) :
    nesting (.op o :: ts) = nesting ts := by
  cases o <;> first | rfl | contradiction

/-- A derived run closes what it opens. -/
theorem Derives.nesting_eq {nt ts us} (h : Derives nt ts us) : nesting ts = 0 := by
  induction h <;> simp_all [nesting]

/-- No front of a run closes more than it opened. -/
def NeverBelow (ts : List Token) : Prop :=
  ∀ p q, ts = p ++ q → 0 ≤ nesting p

/-- A token that is no parenthesis may stand before. -/
theorem NeverBelow.cons {t : Token} {ts : List Token} (ht : nesting [t] = 0)
    (h : NeverBelow ts) : NeverBelow (t :: ts) := by
  rintro (_ | ⟨t', p⟩) q hp
  · exact Int.le_refl 0
  · obtain ⟨rfl, rfl⟩ := List.cons.inj hp
    have hq := h p q rfl
    rw [← List.singleton_append, nesting_append, ht]
    omega

/-- A front of two runs ends in the first or in the second. -/
theorem NeverBelow.append {as bs : List Token} (ha : NeverBelow as) (has : nesting as = 0)
    (hb : NeverBelow bs) : NeverBelow (as ++ bs) := by
  intro p q h
  rcases List.append_eq_append_iff.1 h with ⟨r, rfl, hr⟩ | ⟨r, rfl, -⟩
  · have hq := hb r q hr
    rw [nesting_append, has]
    omega
  · exact ha p r rfl

/-- A front of a parenthesised run, however much of it is kept, has the parenthesis open or is
balanced. -/
theorem NeverBelow.paren {ts : List Token} (h : NeverBelow ts) (hts : nesting ts = 0) :
    NeverBelow (.op .left :: ts ++ [.op .right]) := by
  rintro (_ | ⟨t, p⟩) q hp
  · exact Int.le_refl 0
  · obtain ⟨rfl, hrest⟩ := List.cons.inj hp
    rcases List.append_eq_append_iff.1 hrest with ⟨r, rfl, hr⟩ | ⟨r, rfl, -⟩
    · rcases List.singleton_eq_append_iff.1 hr with ⟨rfl, -⟩ | ⟨rfl, -⟩ <;>
        simp [nesting, hts]
    · have hq := h p r rfl
      simp only [nesting]
      omega

/-- No front of a derived run closes more than it opened. -/
theorem Derives.neverBelow {nt ts us} (h : Derives nt ts us) : NeverBelow ts := by
  induction h with
  | ofTerm _ ih | ofUnary _ ih | ofPrimary _ ih | one _ ih => exact ih
  | add hl _ ihl ihr | sub hl _ ihl ihr | mul hl _ ihl ihr | div hl _ ihl ihr
  | more hl _ ihl ihr => exact ihl.append hl.nesting_eq (ihr.cons rfl)
  | neg _ ih | pos _ ih => exact ih.cons rfl
  | num | name =>
    rintro (_ | ⟨t, p⟩) q hp
    · exact Int.le_refl 0
    · obtain ⟨rfl, hrest⟩ := List.cons.inj hp
      obtain ⟨rfl, -⟩ := List.append_eq_nil_iff.1 hrest.symm
      exact Int.le_refl 0
  | call h ih => exact (ih.paren h.nesting_eq).cons rfl
  | paren h ih => exact ih.paren h.nesting_eq

/-! ## Operators outside all parentheses -/

/-- Inside a parenthesised run the parenthesis is open. -/
theorem NeverBelow.open_of_paren {ts : List Token} (h : NeverBelow ts) {p q : List Token}
    (hp : p ≠ []) (hq : q ≠ []) (heq : .op .left :: ts ++ [.op .right] = p ++ q) :
    0 < nesting p := by
  obtain ⟨t, p, rfl⟩ := List.exists_cons_of_ne_nil hp
  obtain ⟨rfl, hrest⟩ := List.cons.inj heq
  rcases List.append_eq_append_iff.1 hrest with ⟨r, rfl, hr⟩ | ⟨r, rfl, -⟩
  · rcases List.singleton_eq_append_iff.1 hr with ⟨rfl, -⟩ | ⟨-, rfl⟩
    · have hn := h ts [] (by simp)
      simp only [List.append_nil, nesting]
      omega
    · contradiction
  · have hn := h p r rfl
    simp only [nesting]
    omega

/-- A star or a slash inside a signed primary stands inside parentheses. -/
theorem Derives.nesting_pos {nt ts us} (h : Derives nt ts us) (hnt : nt = .unary ∨ nt = .primary)
    {o : Op} (ho : o = .times ∨ o = .slash) {a b : List Token} (heq : ts = a ++ .op o :: b) :
    0 < nesting a := by
  induction h generalizing a with
  | ofPrimary _ ih => exact ih (.inr rfl) heq
  | neg _ ih | pos _ ih =>
    rcases a with _ | ⟨t, a⟩
    · rcases ho with rfl | rfl <;> cases heq
    · obtain ⟨rfl, hrest⟩ := List.cons.inj heq
      have hpos : 0 < nesting a := ih (.inl rfl) hrest
      exact hpos
  | num | name =>
    rcases a with _ | ⟨t, a⟩
    · cases heq
    · simp at heq
  | @call n ts us h _ =>
    rcases a with _ | ⟨t, a⟩
    · cases heq
    · obtain ⟨rfl, hrest⟩ := List.cons.inj heq
      refine h.neverBelow.open_of_paren (p := a) ?_ (by simp) hrest
      rintro rfl
      rcases ho with rfl | rfl <;> cases hrest
  | @paren ts t h _ =>
    refine h.neverBelow.open_of_paren ?_ (by simp) heq
    rintro rfl
    rcases ho with rfl | rfl <;> cases heq
  | _ => rcases hnt with hnt | hnt <;> cases hnt

/-! ## Parentheses around a whole sentence -/

/-- A run whose first parenthesis closes at its end is that parenthesis and a sum inside it. -/
theorem Derives.unwrap {nt ts us} (h : Derives nt ts us) (hnt : nt ≠ .args) {m : List Token} {t}
    (hus : us = [t]) (hts : ts = .op .left :: m ++ [.op .right])
    (hopen : ∀ p q, ts = p ++ q → p ≠ [] → q ≠ [] → nesting p ≠ 0) : Derives .expr m [t] := by
  have hsplit : ∀ {as bs : List Token} {o : Token} {nt us}, Derives nt as us →
      ts = as ++ o :: bs → False := fun ha heq =>
    hopen _ _ heq (List.ne_nil_of_length_pos ha.length_pos) (by simp) ha.nesting_eq
  induction h with
  | ofTerm _ ih | ofUnary _ ih | ofPrimary _ ih => exact ih (by simp) hus hts hopen hsplit
  | add hl _ | sub hl _ | mul hl _ | div hl _ => exact (hsplit hl rfl).elim
  | neg | pos | num | name | call => cases hts
  | @paren ts u h _ =>
    obtain rfl : ts = m := by simpa using hts
    obtain rfl : u = t := by simpa using hus
    exact h
  | one | more => exact absurd rfl hnt

/-! ## The value of a text -/

open Text Decimal

section

variable {α : Type} [Carrier α] {env : Env α}

/-- A text is a sentence, and its tree has that value. -/
def HasValue (env : Env α) (cs : List Char) (v : α) : Prop :=
  ∃ ts t, tokens? cs = some ts ∧ Derives .expr ts [t] ∧ t.eval env = .ok v

/-- **A text evaluates to a value exactly if it has it.** -/
theorem eval_eq_ok_iff {text : String} {v : α} :
    eval env text = .ok v ↔ HasValue env text.toList v := by
  constructor
  · intro h
    obtain ⟨ts, hts, h⟩ := bind_ok h
    have htok : tokens? text.toList = some ts := by
      unfold tokenize at hts
      split at hts
      · next heq =>
        cases hts
        exact heq
      · cases hts
    have hv : evalTokens env ts = .ok v := by
      cases he : evalTokens env ts with
      | ok w =>
        rw [he] at h
        cases h
        rfl
      | error e =>
        rw [he] at h
        cases h
    obtain ⟨t, ht⟩ := derives_of_evalTokens env hv
    exact ⟨ts, t, htok, ht, by rw [← evalTokens_of_derives env ht, hv]⟩
  · rintro ⟨ts, t, htok, ht, hv⟩
    simp only [eval, tokenize, htok]
    change (evalTokens env ts).mapError _ = _
    rw [evalTokens_of_derives env ht, hv]
    rfl

/-- The same for a text given by its characters. -/
theorem eval_ofList {cs : List Char} {v : α} (h : HasValue env cs v) :
    eval env (String.ofList cs) = .ok v :=
  eval_eq_ok_iff.2 (by rwa [String.toList_ofList])

/-- A text has one value. -/
theorem HasValue.unique {cs : List Char} {v w : α} (hv : HasValue env cs v)
    (hw : HasValue env cs w) : v = w :=
  Except.ok.inj ((eval_ofList hv).symm.trans (eval_ofList hw))

/-- Blanks around a text do not change its value. -/
theorem hasValue_trim {cs : List Char} {v : α} : HasValue env (trim cs) v ↔ HasValue env cs v := by
  simp only [HasValue, tokens?_trim]

/-- The tokens of a text in parentheses. -/
theorem tokens?_paren {cs : List Char} {ts : List Token} (h : tokens? cs = some ts) :
    tokens? ('(' :: cs ++ [')']) = some (.op .left :: ts ++ [.op .right]) := by
  have hcut : tokens? (cs ++ [')']) = some (ts ++ [.op .right]) :=
    (tokens?_cut (o := .right) rfl).2 ⟨ts, [], h, rfl, rfl⟩
  exact (tokens?_op .left (cs ++ [')'])).trans (by rw [hcut]; rfl)

/-- Parentheses around a text do not change its value. -/
theorem HasValue.paren {cs : List Char} {v : α} (h : HasValue env cs v) :
    HasValue env ('(' :: cs ++ [')']) v := by
  obtain ⟨ts, t, hts, ht, hv⟩ := h
  exact ⟨_, t, tokens?_paren hts, .ofTerm (.ofUnary (.ofPrimary (.paren ht))), hv⟩

/-! ## Texts that are sentences -/

/-- A text that is a sentence of arithmetic. -/
def IsSentence (cs : List Char) : Prop :=
  ∃ ts, tokens? cs = some ts ∧ Sentence ts

omit [Carrier α] in
theorem isSentence_trim {cs : List Char} : IsSentence (trim cs) ↔ IsSentence cs := by
  simp only [IsSentence, tokens?_trim]

omit [Carrier α] in
theorem IsSentence.paren {cs : List Char} (h : IsSentence cs) : IsSentence ('(' :: cs ++ [')']) := by
  obtain ⟨ts, hts, t, ht⟩ := h
  exact ⟨_, tokens?_paren hts, t, .ofTerm (.ofUnary (.ofPrimary (.paren ht)))⟩

theorem HasValue.isSentence {cs : List Char} {v : α} (h : HasValue env cs v) : IsSentence cs := by
  obtain ⟨ts, t, hts, ht, -⟩ := h
  exact ⟨ts, hts, t, ht⟩

mutual

/-- A tree fails for its names and functions only. -/
theorem Tree.eval_ne_invalid : ∀ t : Tree, t.eval env ≠ .error .invalid
  | .num _ => nofun
  | .name n => by
    rw [Tree.eval]
    split <;> nofun
  | .call n us => by
    intro h
    rw [Tree.eval] at h
    split at h
    · cases h
    · rcases bind_error h with h | ⟨vs, -, h⟩
      · exact Tree.evalAll_ne_invalid us h
      · split at h <;> cases h
  | .neg t => by
    intro h
    rw [Tree.eval] at h
    rcases bind_error h with h | ⟨v, -, h⟩
    · exact Tree.eval_ne_invalid t h
    · cases h
  | .pos t => by
    rw [Tree.eval]
    exact Tree.eval_ne_invalid t
  | .bin _ l r => by
    intro h
    rw [Tree.eval] at h
    rcases bind_error h with h | ⟨v, -, h⟩
    · exact Tree.eval_ne_invalid l h
    · rcases bind_error h with h | ⟨w, -, h⟩
      · exact Tree.eval_ne_invalid r h
      · cases h

theorem Tree.evalAll_ne_invalid : ∀ us : List Tree, Tree.evalAll env us ≠ .error .invalid
  | [] => nofun
  | u :: us => by
    intro h
    rw [Tree.evalAll] at h
    rcases bind_error h with h | ⟨v, -, h⟩
    · exact Tree.eval_ne_invalid u h
    · rcases bind_error h with h | ⟨vs, -, h⟩
      · exact Tree.evalAll_ne_invalid us h
      · cases h

end

/-- **A sentence that has no value is not malformed.** -/
theorem IsSentence.eval_error {text : String} (h : IsSentence text.toList) {e : Error}
    (he : eval env text = .error e) : ∃ what, e = .evaluation what := by
  obtain ⟨ts, hts, t, ht⟩ := h
  simp only [eval, tokenize, hts] at he
  change (evalTokens env ts).mapError _ = _ at he
  rw [evalTokens_of_derives env ht] at he
  cases hv : t.eval env with
  | ok v =>
    rw [hv] at he
    cases he
  | error f =>
    rw [hv] at he
    cases he
    cases f with
    | invalid => exact absurd hv (Tree.eval_ne_invalid t)
    | _ => exact ⟨_, rfl⟩

end

end RecurrenceCompiler.Arith
