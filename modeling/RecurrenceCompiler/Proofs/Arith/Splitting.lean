import RecurrenceCompiler.Proofs.Arith.Exact

/-!
# Sentences around a star

Whether a run of tokens is a sentence does not depend on how a star binds. A star between two sentences
makes a sentence (`Sentence.times`), although it takes a factor only from each of them, and at a star
outside all parentheses a sentence falls into two (`Sentence.cut_times`). In the same way a minus sign
may be put in front of a sentence or taken from it, since its first factor may be any other
(`Derives.exists_first`, `sentence_minus`).
-/

namespace RecurrenceCompiler.Arith

/-! ## Putting together -/

/-- Runs with two operators between them, cut at the second or at the first. -/
theorem append_cons_append_cons (as bs cs : List Token) (o p : Token) :
    as ++ o :: (bs ++ p :: cs) = (as ++ o :: bs) ++ p :: cs := by
  simp

/-- A star between two products. -/
theorem Derives.times_term {as : List Token} {l : Tree} (hl : Derives .term as [l]) :
    ∀ {bs : List Token} {r : Tree}, Derives .term bs [r] →
      ∃ t, Derives .term (as ++ .op .times :: bs) [t]
  | _, _, .ofUnary hr => ⟨_, .mul hl hr⟩
  | _, _, .mul h hr => by
    obtain ⟨t, ht⟩ := hl.times_term h
    rw [append_cons_append_cons]
    exact ⟨_, .mul ht hr⟩
  | _, _, .div h hr => by
    obtain ⟨t, ht⟩ := hl.times_term h
    rw [append_cons_append_cons]
    exact ⟨_, .div ht hr⟩

/-- A star between a sum and a product belongs to the last term of the sum. -/
theorem Derives.times_expr {bs : List Token} {r : Tree} (hr : Derives .term bs [r]) :
    ∀ {as : List Token} {l : Tree}, Derives .expr as [l] → Sentence (as ++ .op .times :: bs)
  | _, _, .ofTerm hl => by
    obtain ⟨t, ht⟩ := hl.times_term hr
    exact ⟨t, .ofTerm ht⟩
  | _, _, .add h hl => by
    obtain ⟨t, ht⟩ := hl.times_term hr
    rw [← append_cons_append_cons]
    exact ⟨_, .add h ht⟩
  | _, _, .sub h hl => by
    obtain ⟨t, ht⟩ := hl.times_term hr
    rw [← append_cons_append_cons]
    exact ⟨_, .sub h ht⟩

theorem Derives.times {as : List Token} {l : Tree} (hl : Derives .expr as [l]) :
    ∀ {bs : List Token} {r : Tree}, Derives .expr bs [r] → Sentence (as ++ .op .times :: bs)
  | _, _, .ofTerm hr => hr.times_expr hl
  | _, _, .add h hr => by
    obtain ⟨t, ht⟩ := hl.times h
    rw [append_cons_append_cons]
    exact ⟨_, .add ht hr⟩
  | _, _, .sub h hr => by
    obtain ⟨t, ht⟩ := hl.times h
    rw [append_cons_append_cons]
    exact ⟨_, .sub ht hr⟩

/-- **A star between two sentences makes a sentence.** -/
theorem Sentence.times {as bs : List Token} (ha : Sentence as) (hb : Sentence bs) :
    Sentence (as ++ .op .times :: bs) := by
  obtain ⟨l, hl⟩ := ha
  obtain ⟨r, hr⟩ := hb
  exact hl.times hr

/-! ## Taking apart -/

/-- What stands between a derived run and a star outside all parentheses closes what it opens. -/
theorem Derives.nesting_between {nt : Nonterminal} {as c : List Token} {us : List Tree} {o : Op}
    (h : Derives nt as us) (ho : nesting [.op o] = 0) (ha : nesting (as ++ .op o :: c) = 0) :
    nesting c = 0 := by
  rw [nesting_append, h.nesting_eq, ← List.singleton_append (l := c), nesting_append, ho] at ha
  omega

/-- A star outside all parentheses cuts a product into two. -/
theorem Derives.cut_term : ∀ {ts a b : List Token} {t : Tree}, Derives .term ts [t] →
    ts = a ++ .op .times :: b → nesting a = 0 →
    (∃ l, Derives .term a [l]) ∧ ∃ r, Derives .term b [r]
  | _, _, _, _, .ofUnary h, heq, ha => by
    have hpos := h.nesting_pos (.inl rfl) (.inl rfl) heq
    omega
  | _, _, _, _, .mul hl hr, heq, ha => by
    rcases append_cons_eq_append_cons heq with ⟨rfl, -, rfl⟩ | ⟨c, rfl, rfl⟩ | ⟨c, rfl, rfl⟩
    · exact ⟨⟨_, hl⟩, _, .ofUnary hr⟩
    · have hpos := hr.nesting_pos (.inl rfl) (.inl rfl) rfl
      have hzero := hl.nesting_between rfl ha
      omega
    · obtain ⟨hal, u, hu⟩ := hl.cut_term rfl ha
      exact ⟨hal, _, .mul hu hr⟩
  | _, _, _, _, .div hl hr, heq, ha => by
    rcases append_cons_eq_append_cons heq with ⟨-, hot, -⟩ | ⟨c, rfl, rfl⟩ | ⟨c, rfl, rfl⟩
    · cases hot
    · have hpos := hr.nesting_pos (.inl rfl) (.inl rfl) rfl
      have hzero := hl.nesting_between rfl ha
      omega
    · obtain ⟨hal, u, hu⟩ := hl.cut_term rfl ha
      exact ⟨hal, _, .div hu hr⟩

/-- A star outside all parentheses cuts a sum into two. -/
theorem Derives.cut_expr : ∀ {ts a b : List Token} {t : Tree}, Derives .expr ts [t] →
    ts = a ++ .op .times :: b → nesting a = 0 → Sentence a ∧ Sentence b
  | _, _, _, _, .ofTerm h, heq, ha => by
    obtain ⟨⟨l, hl⟩, r, hr⟩ := h.cut_term heq ha
    exact ⟨⟨l, .ofTerm hl⟩, r, .ofTerm hr⟩
  | _, _, _, _, .add hl hr, heq, ha => by
    rcases append_cons_eq_append_cons heq with ⟨-, hot, -⟩ | ⟨c, rfl, rfl⟩ | ⟨c, rfl, rfl⟩
    · cases hot
    · obtain ⟨⟨u, hu⟩, v, hv⟩ := hr.cut_term rfl (hl.nesting_between rfl ha)
      exact ⟨⟨_, .add hl hu⟩, v, .ofTerm hv⟩
    · obtain ⟨hal, u, hu⟩ := hl.cut_expr rfl ha
      exact ⟨hal, _, .add hu hr⟩
  | _, _, _, _, .sub hl hr, heq, ha => by
    rcases append_cons_eq_append_cons heq with ⟨-, hot, -⟩ | ⟨c, rfl, rfl⟩ | ⟨c, rfl, rfl⟩
    · cases hot
    · obtain ⟨⟨u, hu⟩, v, hv⟩ := hr.cut_term rfl (hl.nesting_between rfl ha)
      exact ⟨⟨_, .sub hl hu⟩, v, .ofTerm hv⟩
    · obtain ⟨hal, u, hu⟩ := hl.cut_expr rfl ha
      exact ⟨hal, _, .sub hu hr⟩

/-- **At a star outside all parentheses a sentence falls into two.** -/
theorem Sentence.cut_times {a b : List Token} (h : Sentence (a ++ .op .times :: b))
    (ha : nesting a = 0) : Sentence a ∧ Sentence b := by
  obtain ⟨t, ht⟩ := h
  exact ht.cut_expr rfl ha

/-! ## Signs -/

/-- A run of a nonterminal that starts with the first run, also with another factor in its place. -/
def StartsWith (nt : Nonterminal) (as bs : List Token) : Prop :=
  (∃ u, Derives .unary as [u]) ∧
    ∀ {cs u}, Derives .unary cs [u] → ∃ t, Derives nt (cs ++ bs) [t]

/-- One more operand behind. -/
theorem StartsWith.append {nt : Nonterminal} {as bs cs : List Token} {o : Op}
    (h : StartsWith nt as bs)
    (hmore : ∀ {ts l}, Derives nt ts [l] → ∃ t, Derives nt (ts ++ .op o :: cs) [t]) :
    StartsWith nt as (bs ++ .op o :: cs) := by
  refine ⟨h.1, fun hu => ?_⟩
  obtain ⟨l, hl⟩ := h.2 hu
  rw [← List.append_assoc]
  exact hmore hl

/-- **The first factor of a sum or of a product may be any other.** -/
theorem Derives.exists_first {nt ts us} (h : Derives nt ts us) (hnt : nt = .expr ∨ nt = .term) :
    ∃ as bs, ts = as ++ bs ∧ StartsWith nt as bs := by
  induction h with
  | ofTerm _ ih =>
    obtain ⟨as, bs, rfl, hu, hany⟩ := ih (.inr rfl)
    refine ⟨as, bs, rfl, hu, fun hc => ?_⟩
    obtain ⟨t, ht⟩ := hany hc
    exact ⟨t, .ofTerm ht⟩
  | ofUnary h => exact ⟨_, [], (List.append_nil _).symm, ⟨_, h⟩, fun hc => ⟨_, by simpa using .ofUnary hc⟩⟩
  | add _ hr ih =>
    obtain ⟨as, bs, rfl, hfirst⟩ := ih (.inl rfl)
    exact ⟨as, _, List.append_assoc .., hfirst.append fun hl => ⟨_, .add hl hr⟩⟩
  | sub _ hr ih =>
    obtain ⟨as, bs, rfl, hfirst⟩ := ih (.inl rfl)
    exact ⟨as, _, List.append_assoc .., hfirst.append fun hl => ⟨_, .sub hl hr⟩⟩
  | mul _ hr ih =>
    obtain ⟨as, bs, rfl, hfirst⟩ := ih (.inr rfl)
    exact ⟨as, _, List.append_assoc .., hfirst.append fun hl => ⟨_, .mul hl hr⟩⟩
  | div _ hr ih =>
    obtain ⟨as, bs, rfl, hfirst⟩ := ih (.inr rfl)
    exact ⟨as, _, List.append_assoc .., hfirst.append fun hl => ⟨_, .div hl hr⟩⟩
  | _ => rcases hnt with h | h <;> cases h

/-- **A minus sign in front makes no difference.** -/
theorem sentence_minus {ts : List Token} : Sentence (.op .minus :: ts) ↔ Sentence ts := by
  constructor
  · rintro ⟨t, ht⟩
    obtain ⟨as, bs, heq, ⟨u, hu⟩, hany⟩ := ht.exists_first (.inl rfl)
    obtain ⟨cs, rfl⟩ : ∃ cs, as = .op .minus :: cs := by
      cases as with
      | nil => cases hu.length_pos
      | cons o cs => exact ⟨cs, by rw [(List.cons.inj heq).1]⟩
    obtain rfl : ts = cs ++ bs := (List.cons.inj heq).2
    cases hu with
    | neg hc => exact hany hc
    | ofPrimary h => cases h
  · rintro ⟨t, ht⟩
    obtain ⟨as, bs, rfl, ⟨u, hu⟩, hany⟩ := ht.exists_first (.inl rfl)
    exact hany (.neg hu)

end RecurrenceCompiler.Arith
