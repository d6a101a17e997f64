import RecurrenceCompiler.Proofs.Script.Texts

/-!
# Where scripts read tables

An expression reads a table only where its text has a square bracket. If square brackets stand only in
whole operands that are known, then whatever the rest of the text is, and however it is grouped, those
operands are the only parts that read tables (`over_of_chunked`).
-/

namespace RecurrenceCompiler.Script

open Text Decimal

/-! ## More fuel -/

/-- What is read with some fuel is read with one more. -/
structure Grows (fuel : Nat) : Prop where
  cond : ∀ {ts r}, readCond fuel ts = some r → readCond (fuel + 1) ts = some r
  binary : ∀ {level ts r}, readBinary fuel level ts = some r → readBinary (fuel + 1) level ts = some r
  rest : ∀ {level e ts r}, readRest fuel level e ts = some r → readRest (fuel + 1) level e ts = some r
  unary : ∀ {ts r}, readUnary fuel ts = some r → readUnary (fuel + 1) ts = some r
  primary : ∀ {ts r}, readPrimary fuel ts = some r → readPrimary (fuel + 1) ts = some r
  suffixes : ∀ {e ts r}, readSuffixes fuel e ts = some r → readSuffixes (fuel + 1) e ts = some r
  args : ∀ {ts r}, readArgs fuel ts = some r → readArgs (fuel + 1) ts = some r

section
variable {fuel level : Nat} {e : Expression} {ts : List Token} {r : Expression × List Token}
  (h : Grows fuel)
include h

theorem Grows.succ_cond (hread : readCond (fuel + 1) ts = some r) : readCond (fuel + 2) ts = some r := by
  rw [readCond] at hread ⊢
  obtain ⟨⟨test, us⟩, htest, hread⟩ := Option.bind_eq_some_iff.1 hread
  refine Option.bind_eq_some_iff.2 ⟨_, h.binary htest, ?_⟩
  cases us with
  | nil => exact hread
  | cons t us =>
    cases t with
    | num | name => exact hread
    | mark m =>
      cases m with
      | question =>
        obtain ⟨⟨yes, us⟩, hyes, hread⟩ := Option.bind_eq_some_iff.1 hread
        refine Option.bind_eq_some_iff.2 ⟨_, h.cond hyes, ?_⟩
        cases us with
        | nil => cases hread
        | cons t us =>
          cases t with
          | num | name => cases hread
          | mark m =>
            cases m with
            | colon =>
              obtain ⟨no, hno, hread⟩ := Option.bind_eq_some_iff.1 hread
              exact Option.bind_eq_some_iff.2 ⟨_, h.cond hno, hread⟩
            | _ => cases hread
      | _ => exact hread

theorem Grows.succ_binary (hread : readBinary (fuel + 1) level ts = some r) :
    readBinary (fuel + 2) level ts = some r := by
  rw [readBinary] at hread ⊢
  obtain ⟨p, hp, hread⟩ := Option.bind_eq_some_iff.1 hread
  exact Option.bind_eq_some_iff.2 ⟨p, h.unary hp, h.rest hread⟩

theorem Grows.succ_rest (hread : readRest (fuel + 1) level e ts = some r) :
    readRest (fuel + 2) level e ts = some r := by
  cases ts with
  | nil => exact hread
  | cons t ts =>
    cases t with
    | num | name => exact hread
    | mark m =>
      rw [readRest] at hread ⊢
      cases hm : m.binary? with
      | none =>
        rw [hm] at hread
        exact hread
      | some p =>
        rw [hm] at hread
        dsimp only at hread ⊢
        split at hread
        · next hle =>
          rw [if_pos hle]
          obtain ⟨q, hq, hread⟩ := Option.bind_eq_some_iff.1 hread
          exact Option.bind_eq_some_iff.2 ⟨q, h.binary hq, h.rest hread⟩
        · next hlt =>
          rw [if_neg hlt]
          exact hread

theorem Grows.operand (hread : (readPrimary fuel ts).bind (fun p => readSuffixes fuel p.1 p.2) = some r) :
    (readPrimary (fuel + 1) ts).bind (fun p => readSuffixes (fuel + 1) p.1 p.2) = some r := by
  obtain ⟨p, hp, hread⟩ := Option.bind_eq_some_iff.1 hread
  exact Option.bind_eq_some_iff.2 ⟨p, h.primary hp, h.suffixes hread⟩

theorem Grows.succ_unary (hread : readUnary (fuel + 1) ts = some r) : readUnary (fuel + 2) ts = some r := by
  have hsigned {sign : Expression → Expression} {us : List Token}
      (hread : (readUnary fuel us).bind (fun p => some (sign p.1, p.2)) = some r) :
      (readUnary (fuel + 1) us).bind (fun p => some (sign p.1, p.2)) = some r := by
    obtain ⟨p, hp, hread⟩ := Option.bind_eq_some_iff.1 hread
    exact Option.bind_eq_some_iff.2 ⟨p, h.unary hp, hread⟩
  cases ts with
  | nil => exact h.operand hread
  | cons t ts =>
    cases t with
    | num | name => exact h.operand hread
    | mark m =>
      cases m with
      | op o =>
        cases o with
        | sub | add => exact hsigned hread
        | _ => exact h.operand hread
      | not => exact hsigned hread
      | _ => exact h.operand hread

theorem Grows.succ_primary (hread : readPrimary (fuel + 1) ts = some r) :
    readPrimary (fuel + 2) ts = some r := by
  cases ts with
  | nil => exact hread
  | cons t ts =>
    cases t with
    | num | name => exact hread
    | mark m =>
      cases m with
      | left =>
        obtain ⟨p, hp, hread⟩ := Option.bind_eq_some_iff.1 hread
        exact Option.bind_eq_some_iff.2 ⟨p, h.cond hp, hread⟩
      | _ => exact hread

theorem Grows.succ_suffixes (hread : readSuffixes (fuel + 1) e ts = some r) :
    readSuffixes (fuel + 2) e ts = some r := by
  cases ts with
  | nil => exact hread
  | cons t ts =>
    cases t with
    | num | name => exact hread
    | mark m =>
      cases m with
      | leftSquare =>
        obtain ⟨⟨i, us⟩, hi, hread⟩ := Option.bind_eq_some_iff.1 hread
        refine Option.bind_eq_some_iff.2 ⟨_, h.cond hi, ?_⟩
        dsimp only at hread ⊢
        split at hread
        · exact h.suffixes hread
        · cases hread
      | dot =>
        cases ts with
        | nil => exact hread
        | cons t ts =>
          cases t with
          | name n => exact h.suffixes hread
          | _ => exact hread
      | left =>
        obtain ⟨p, hp, hread⟩ := Option.bind_eq_some_iff.1 hread
        exact Option.bind_eq_some_iff.2 ⟨p, h.args hp, h.suffixes hread⟩
      | _ => exact hread

theorem Grows.succ_args {r : List Expression × List Token} (hread : readArgs (fuel + 1) ts = some r) :
    readArgs (fuel + 2) ts = some r := by
  have hmore (hread : (readCond fuel ts).bind (argsFrom fuel) = some r) :
      (readCond (fuel + 1) ts).bind (argsFrom (fuel + 1)) = some r := by
    obtain ⟨p, hp, hread⟩ := Option.bind_eq_some_iff.1 hread
    refine Option.bind_eq_some_iff.2 ⟨p, h.cond hp, ?_⟩
    rw [argsFrom] at hread ⊢
    split at hread
    · obtain ⟨q, hq, hread⟩ := Option.bind_eq_some_iff.1 hread
      exact Option.bind_eq_some_iff.2 ⟨q, h.args hq, hread⟩
    · exact hread
    · cases hread
  cases ts with
  | nil => exact hmore hread
  | cons t ts =>
    cases t with
    | num | name => exact hmore hread
    | mark m =>
      cases m with
      | right => exact hread
      | _ => exact hmore hread

end

theorem grows : ∀ fuel, Grows fuel
  | 0 => by constructor <;> intros <;> contradiction
  | fuel + 1 =>
    have h := grows fuel
    ⟨h.succ_cond, h.succ_binary, h.succ_rest, h.succ_unary, h.succ_primary, h.succ_suffixes, h.succ_args⟩

/-- Whatever has the fuel to read an expression that is parsed reads that expression. -/
theorem Parses.cond_eq {fuel : Nat} {ts rest : List Token} {e : Expression} {r : Expression × List Token}
    (h : Parses .cond ts [e]) (hrest : Ends rest) (hread : readCond fuel (ts ++ rest) = some r) :
    r = (e, rest) := by
  have hmore : ∀ n, readCond (fuel + n) (ts ++ rest) = some r := by
    intro n
    induction n with
    | zero => exact hread
    | succ n ih => exact (grows _).cond ih
  have hparsed := (read_of_parses h).1 e rfl rest hrest (fuel + (8 * ts.length + 2)) (by omega)
  exact Option.some.inj ((hmore _).symm.trans hparsed)

theorem Parses.args_eq {fuel : Nat} {ts rest : List Token} {es : List Expression}
    {r : List Expression × List Token} (h : Parses .args ts es)
    (hread : readArgs fuel (ts ++ .mark .right :: rest) = some r) : r = (es, rest) := by
  have hmore : ∀ n, readArgs (fuel + n) (ts ++ .mark .right :: rest) = some r := by
    intro n
    induction n with
    | zero => exact hread
    | succ n ih => exact (grows _).args ih
  have hparsed := (read_of_parses h).2 rfl rest (fuel + (8 * ts.length + 4)) (by omega)
  exact Option.some.inj ((hmore _).symm.trans hparsed)

/-! ## Whole operands -/

/-- Wherever an operand is read and these tokens come, they are read as a whole, and suffixes are looked
for behind them. -/
def StartsOperand (ts : List Token) (e : Expression) : Prop :=
  ∀ fuel rest r, readUnary fuel (ts ++ rest) = some r →
    ∃ fuel' < fuel, readSuffixes fuel' e rest = some r

/-- **A whole operand is read as such wherever one is looked for.** -/
theorem Parses.startsOperand {ts : List Token} {e : Expression} (h : Parses .operand ts [e]) :
    StartsOperand ts e := by
  generalize hg : Goal.operand = g at h
  generalize hes : [e] = es at h
  induction h generalizing e with
  | @num x =>
    cases hes
    intro fuel rest r hread
    obtain ⟨fuel, rfl⟩ : ∃ n, fuel = n + 1 := ⟨fuel - 1, by cases fuel <;> first | omega | cases hread⟩
    rw [List.singleton_append, readUnary_operand (by simp)] at hread
    cases fuel with
    | zero => cases hread
    | succ fuel => exact ⟨fuel + 1, by omega, hread⟩
  | @name n e hn =>
    cases hes
    intro fuel rest r hread
    obtain ⟨fuel, rfl⟩ : ∃ n, fuel = n + 1 := ⟨fuel - 1, by cases fuel <;> first | omega | cases hread⟩
    rw [List.singleton_append, readUnary_operand (by simp)] at hread
    cases fuel with
    | zero => cases hread
    | succ fuel =>
      rw [readPrimary, hn] at hread
      exact ⟨fuel + 1, by omega, hread⟩
  | @paren ts e hinside _ =>
    cases hes
    intro fuel rest r hread
    obtain ⟨fuel, rfl⟩ : ∃ n, fuel = n + 1 := ⟨fuel - 1, by cases fuel <;> first | omega | cases hread⟩
    simp only [List.cons_append, List.append_assoc, List.nil_append] at hread
    rw [readUnary_operand (by simp)] at hread
    cases fuel with
    | zero => cases hread
    | succ fuel =>
      obtain ⟨p, hp, hread⟩ := Option.bind_eq_some_iff.1 hread
      rw [readPrimary] at hp
      obtain ⟨q, hq, hp⟩ := Option.bind_eq_some_iff.1 hp
      obtain rfl := hinside.cond_eq (ends_mark rfl rfl (by decide)) hq
      cases hp
      exact ⟨fuel + 1, by omega, hread⟩
  | @element as bs t i _ hindex ih _ =>
    cases hes
    intro fuel rest r hread
    simp only [List.append_assoc, List.cons_append, List.nil_append] at hread
    obtain ⟨fuel', hlt, hread⟩ := ih rfl rfl fuel _ r hread
    cases fuel' with
    | zero => cases hread
    | succ fuel' =>
      obtain ⟨q, hq, hread⟩ := Option.bind_eq_some_iff.1 hread
      obtain rfl := hindex.cond_eq (ends_mark rfl rfl (by decide)) hq
      exact ⟨fuel', by omega, hread⟩
  | @call as bs f es _ hargs ih _ =>
    cases hes
    intro fuel rest r hread
    simp only [List.append_assoc, List.cons_append, List.nil_append] at hread
    obtain ⟨fuel', hlt, hread⟩ := ih rfl rfl fuel _ r hread
    cases fuel' with
    | zero => cases hread
    | succ fuel' =>
      obtain ⟨q, hq, hread⟩ := Option.bind_eq_some_iff.1 hread
      obtain rfl := hargs.args_eq hq
      exact ⟨fuel', by omega, hread⟩
  | _ => cases hg

/-! ## Expressions over known parts -/

/-- An expression that reads no table but in parts of a kind. -/
inductive Expression.Over (part : Expression → Prop) : Expression → Prop
  | part {e} : part e → Over part e
  | num {x} : Over part (.num x)
  | name {n} : Over part (.name n)
  | truth {b} : Over part (.truth b)
  | null : Over part .null
  | undefined : Over part .undefined
  | negate {e} : Over part e → Over part (.negate e)
  | positive {e} : Over part e → Over part (.positive e)
  | not {e} : Over part e → Over part (.not e)
  | binary {op l r} : Over part l → Over part r → Over part (.binary op l r)
  | both {l r} : Over part l → Over part r → Over part (.both l r)
  | either {l r} : Over part l → Over part r → Over part (.either l r)
  | cond {t y n} : Over part t → Over part y → Over part n → Over part (.cond t y n)
  | member {e n} : Over part e → Over part (.member e n)
  | call {f args} : Over part f → (∀ a ∈ args, Over part a) → Over part (.call f args)

/-- A token behind which an operand is looked for. -/
def Token.opens : Token → Bool
  | .mark .right | .mark .rightSquare | .mark .dot => false
  | .mark _ => true
  | _ => false

/-- Tokens in which square brackets stand in known operands only, each where an operand is looked for. The
flags say whether one is looked for before the tokens, and behind them. -/
inductive Chunked (part : Expression → Prop) : Bool → List Token → Bool → Prop
  | nil {b} : Chunked part b [] b
  | token {b t ts b'} : t ≠ .mark .leftSquare → Chunked part t.opens ts b' → Chunked part b (t :: ts) b'
  | chunk {us e ts b'} : Parses .operand us [e] → part e → Chunked part false ts b' →
      Chunked part true (us ++ ts) b'

section
variable {part : Expression → Prop} {b b' : Bool} {ts us : List Token} {t : Token}

/-- Where an operand is looked for, what may stand elsewhere may stand too. -/
theorem Chunked.atOperand (h : Chunked part false ts b') : ∃ b', Chunked part true ts b' := by
  cases h with
  | nil => exact ⟨true, .nil⟩
  | token ht h => exact ⟨_, .token ht h⟩

theorem Chunked.append {b'' : Bool} (h : Chunked part b ts b') (hu : Chunked part b' us b'') :
    Chunked part b (ts ++ us) b'' := by
  induction h with
  | nil => exact hu
  | token ht _ ih => exact .token ht (ih hu)
  | chunk hparse hpart _ ih =>
    rw [List.append_assoc]
    exact .chunk hparse hpart (ih hu)

/-- Behind an operand a token is none of a known one. -/
theorem Chunked.tail (h : Chunked part false (t :: ts) b') :
    t ≠ .mark .leftSquare ∧ Chunked part t.opens ts b' := by
  cases h with
  | token ht h => exact ⟨ht, h⟩

/-- An operator joins expressions over the known parts to such an expression. -/
theorem over_of_binary? {m : Mark} {k : Nat} {build : Expression → Expression → Expression}
    (hm : m.binary? = some (k, build)) {x y : Expression} (hx : x.Over part) (hy : y.Over part) :
    (Token.mark m).opens = true ∧ (build x y).Over part := by
  cases m with
  | op o =>
    cases hm
    exact ⟨rfl, .binary hx hy⟩
  | and =>
    cases hm
    exact ⟨rfl, .both hx hy⟩
  | or =>
    cases hm
    exact ⟨rfl, .either hx hy⟩
  | _ => cases hm

theorem over_of_nameExpression? {n : String} {e : Expression} (h : nameExpression? n = some e) :
    e.Over part := by
  unfold nameExpression? at h
  split at h
  · cases h
    exact .truth
  · split at h
    · cases h
      exact .truth
    · split at h
      · cases h
        exact .null
      · split at h
        · cases h
          exact .name
        · split at h
          · cases h
          · cases h
            exact .name

/-- What the reader gives for tokens of this kind is over the known parts, and so are the tokens that are
left. -/
structure ReadsOver (part : Expression → Prop) (b' : Bool) (fuel : Nat) : Prop where
  cond : ∀ {ts e rest}, Chunked part true ts b' → readCond fuel ts = some (e, rest) →
    e.Over part ∧ Chunked part false rest b'
  binary : ∀ {level ts e rest}, Chunked part true ts b' → readBinary fuel level ts = some (e, rest) →
    e.Over part ∧ Chunked part false rest b'
  rest : ∀ {level l ts e rest}, l.Over part → Chunked part false ts b' →
    readRest fuel level l ts = some (e, rest) → e.Over part ∧ Chunked part false rest b'
  unary : ∀ {ts e rest}, Chunked part true ts b' → readUnary fuel ts = some (e, rest) →
    e.Over part ∧ Chunked part false rest b'
  suffixes : ∀ {f ts e rest}, f.Over part → Chunked part false ts b' →
    readSuffixes fuel f ts = some (e, rest) → e.Over part ∧ Chunked part false rest b'
  args : ∀ {ts es rest}, Chunked part true ts b' → readArgs fuel ts = some (es, rest) →
    (∀ e ∈ es, e.Over part) ∧ Chunked part false rest b'

section
variable {fuel level : Nat} {l e : Expression} {rest : List Token}
  (ih : ∀ f ≤ fuel, ReadsOver part b' f)
include ih

theorem ReadsOver.succ_cond (h : Chunked part true ts b') (hread : readCond (fuel + 1) ts = some (e, rest)) :
    e.Over part ∧ Chunked part false rest b' := by
  rw [readCond] at hread
  obtain ⟨⟨test, us⟩, hfirst, hread⟩ := Option.bind_eq_some_iff.1 hread
  obtain ⟨htest, hus⟩ := (ih fuel le_rfl).binary h hfirst
  dsimp only at hread
  split at hread
  · obtain ⟨⟨yes, vs⟩, hsecond, hread⟩ := Option.bind_eq_some_iff.1 hread
    obtain ⟨hyes, hvs⟩ := (ih fuel le_rfl).cond hus.tail.2 hsecond
    dsimp only at hread
    split at hread
    · obtain ⟨⟨no, ws⟩, hthird, hread⟩ := Option.bind_eq_some_iff.1 hread
      obtain ⟨hno, hws⟩ := (ih fuel le_rfl).cond hvs.tail.2 hthird
      cases hread
      exact ⟨.cond htest hyes hno, hws⟩
    · cases hread
  · cases hread
    exact ⟨htest, hus⟩

theorem ReadsOver.succ_binary (h : Chunked part true ts b')
    (hread : readBinary (fuel + 1) level ts = some (e, rest)) :
    e.Over part ∧ Chunked part false rest b' := by
  rw [readBinary] at hread
  obtain ⟨⟨first, us⟩, hfirst, hread⟩ := Option.bind_eq_some_iff.1 hread
  obtain ⟨hfirst, hus⟩ := (ih fuel le_rfl).unary h hfirst
  exact (ih fuel le_rfl).rest hfirst hus hread

theorem ReadsOver.succ_rest (hl : l.Over part) (h : Chunked part false ts b')
    (hread : readRest (fuel + 1) level l ts = some (e, rest)) :
    e.Over part ∧ Chunked part false rest b' := by
  have hstop (heq : some (l, ts) = some (e, rest)) : e.Over part ∧ Chunked part false rest b' := by
    cases heq
    exact ⟨hl, h⟩
  cases ts with
  | nil => exact hstop hread
  | cons t ts =>
    cases t with
    | num | name => exact hstop hread
    | mark m =>
      rw [readRest] at hread
      cases hm : m.binary? with
      | none =>
        rw [hm] at hread
        exact hstop hread
      | some p =>
        obtain ⟨k, build⟩ := p
        rw [hm] at hread
        dsimp only at hread
        split at hread
        · obtain ⟨⟨right, us⟩, hright, hread⟩ := Option.bind_eq_some_iff.1 hread
          have hopens := (over_of_binary? hm hl hl).1
          obtain ⟨hright, hus⟩ := (ih fuel le_rfl).binary (hopens ▸ h.tail.2) hright
          exact (ih fuel le_rfl).rest (over_of_binary? hm hl hright).2 hus hread
        · exact hstop hread

theorem ReadsOver.succ_unary (h : Chunked part true ts b')
    (hread : readUnary (fuel + 1) ts = some (e, rest)) : e.Over part ∧ Chunked part false rest b' := by
  -- A sign before an operand.
  have hsigned {sign : Expression → Expression} {us : List Token} (h : Chunked part true us b')
      (hsign : ∀ {x}, Expression.Over part x → (sign x).Over part)
      (hread : (readUnary fuel us).bind (fun p => some (sign p.1, p.2)) = some (e, rest)) :
      e.Over part ∧ Chunked part false rest b' := by
    obtain ⟨⟨x, vs⟩, hx, hread⟩ := Option.bind_eq_some_iff.1 hread
    obtain ⟨hx, hvs⟩ := (ih fuel le_rfl).unary h hx
    cases hread
    exact ⟨hsign hx, hvs⟩
  cases h with
  | nil => cases fuel <;> cases hread
  | @chunk us x ts _ hparse hpart h =>
    obtain ⟨fuel', hlt, hread⟩ := hparse.startsOperand _ _ _ hread
    exact (ih fuel' (by omega)).suffixes (.part hpart) h hread
  | @token _ t ts _ ht h =>
    cases t with
    | num x =>
      cases fuel with
      | zero => cases hread
      | succ fuel => exact (ih (fuel + 1) le_rfl).suffixes .num h hread
    | name n =>
      cases fuel with
      | zero => cases hread
      | succ fuel =>
        obtain ⟨⟨x, us⟩, hx, hread⟩ := Option.bind_eq_some_iff.1 hread
        obtain ⟨y, hy, heq⟩ := Option.map_eq_some_iff.1 hx
        cases heq
        exact (ih (fuel + 1) le_rfl).suffixes (over_of_nameExpression? hy) h hread
    | mark m =>
      cases m with
      | op o =>
        cases o with
        | sub => exact hsigned h .negate hread
        | add => exact hsigned h .positive hread
        | _ => cases fuel <;> cases hread
      | not => exact hsigned h .not hread
      | left =>
        cases fuel with
        | zero => cases hread
        | succ fuel =>
          obtain ⟨⟨x, us⟩, hx, hread⟩ := Option.bind_eq_some_iff.1 hread
          obtain ⟨⟨y, vs⟩, hy, hx⟩ := Option.bind_eq_some_iff.1 hx
          obtain ⟨hover, hvs⟩ := (ih fuel (by omega)).cond h hy
          dsimp only at hx
          split at hx
          · cases hx
            exact (ih (fuel + 1) le_rfl).suffixes hover hvs.tail.2 hread
          · cases hx
      | _ => cases fuel <;> cases hread

theorem ReadsOver.succ_suffixes (hl : l.Over part) (h : Chunked part false ts b')
    (hread : readSuffixes (fuel + 1) l ts = some (e, rest)) : e.Over part ∧ Chunked part false rest b' := by
  have hstop (heq : some (l, ts) = some (e, rest)) : e.Over part ∧ Chunked part false rest b' := by
    cases heq
    exact ⟨hl, h⟩
  cases ts with
  | nil => exact hstop hread
  | cons t ts =>
    cases t with
    | num | name => exact hstop hread
    | mark m =>
      cases m with
      | leftSquare => exact absurd rfl h.tail.1
      | dot =>
        cases ts with
        | nil => exact hstop hread
        | cons t ts =>
          cases t with
          | name n => exact (ih fuel le_rfl).suffixes (.member hl) h.tail.2.tail.2 hread
          | _ => exact hstop hread
      | left =>
        obtain ⟨⟨es, us⟩, hes, hread⟩ := Option.bind_eq_some_iff.1 hread
        obtain ⟨hover, hus⟩ := (ih fuel le_rfl).args h.tail.2 hes
        exact (ih fuel le_rfl).suffixes (.call hl hover) hus hread
      | _ => exact hstop hread

theorem ReadsOver.succ_args {es : List Expression} (h : Chunked part true ts b')
    (hread : readArgs (fuel + 1) ts = some (es, rest)) :
    (∀ e ∈ es, e.Over part) ∧ Chunked part false rest b' := by
  have hmore (hread : (readCond fuel ts).bind (argsFrom fuel) = some (es, rest)) :
      (∀ e ∈ es, e.Over part) ∧ Chunked part false rest b' := by
    obtain ⟨⟨x, us⟩, hx, hread⟩ := Option.bind_eq_some_iff.1 hread
    obtain ⟨hover, hus⟩ := (ih fuel le_rfl).cond h hx
    dsimp only [argsFrom] at hread
    split at hread
    · obtain ⟨⟨ys, vs⟩, hys, hread⟩ := Option.bind_eq_some_iff.1 hread
      obtain ⟨hovers, hvs⟩ := (ih fuel le_rfl).args hus.tail.2 hys
      cases hread
      exact ⟨List.forall_mem_cons.2 ⟨hover, hovers⟩, hvs⟩
    · cases hread
      exact ⟨List.forall_mem_singleton.2 hover, hus.tail.2⟩
    · cases hread
  cases h with
  | nil => exact hmore hread
  | @chunk us x ts _ hparse hpart h =>
    obtain ⟨t, us, rfl, ht⟩ := hparse.starts
    rw [List.cons_append, readArgs_cons ht] at hread
    exact hmore hread
  | @token _ t ts _ ht h =>
    cases t with
    | num | name => exact hmore hread
    | mark m =>
      cases m with
      | right =>
        cases hread
        exact ⟨by simp, h⟩
      | _ => exact hmore hread

end

theorem readsOver (part : Expression → Prop) (b' : Bool) (fuel : Nat) : ReadsOver part b' fuel := by
  induction fuel using Nat.strong_induction_on with
  | _ fuel ih =>
    cases fuel with
    | zero => constructor <;> intros <;> contradiction
    | succ fuel =>
      have ih : ∀ f ≤ fuel, ReadsOver part b' f := fun f hf => ih f (by omega)
      exact {
        cond := ReadsOver.succ_cond ih
        binary := ReadsOver.succ_binary ih
        rest := ReadsOver.succ_rest ih
        unary := ReadsOver.succ_unary ih
        suffixes := ReadsOver.succ_suffixes ih
        args := ReadsOver.succ_args ih }

end

/-! ## Texts -/

/-- What is left behind a token is the end of the text. -/
theorem Token.suffix_of_first? {cs rest : List Char} {t : Token} (h : Token.first? cs = some (t, rest)) :
    rest <:+ cs := by
  have hscan {x : Float} {rest : List Char}
      (h : (Literal.scan? cs).map (fun p => (p.1.value, p.2)) = some (x, rest)) : rest <:+ cs := by
    obtain ⟨⟨l, r⟩, hl, heq⟩ := Option.map_eq_some_iff.1 h
    cases heq
    exact ⟨l.chars, (chars_of_scan? hl).symm⟩
  have hnumber {x : Float} {rest : List Char} (h : number? cs = some (x, rest)) : rest <:+ cs := by
    unfold number? at h
    dsimp only at h
    split at h
    · split at h
      · cases h
        exact List.dropWhile_suffix _
      · exact hscan h
    · exact hscan h
  unfold Token.first? at h
  split at h
  · next x r hx =>
    split at h
    · cases h
    · cases h
      exact hnumber hx
  · split at h
    · cases h
    · next c cs _ =>
      split at h
      · cases h
        exact (List.dropWhile_suffix _).trans (List.suffix_cons c cs)
      · obtain ⟨⟨m, r⟩, hm, heq⟩ := Option.map_eq_some_iff.1 h
        cases heq
        unfold mark? at hm
        split at hm
        · cases hm
          exact List.drop_suffix _ _
        · cases hm

/-- A square bracket among the tokens is one in the text. -/
theorem mem_of_first?_leftSquare {cs rest : List Char}
    (h : Token.first? cs = some (.mark .leftSquare, rest)) : '[' ∈ cs := by
  unfold Token.first? at h
  split at h
  · split at h <;> cases h
  · split at h
    · cases h
    · next c cs _ =>
      split at h
      · cases h
      · obtain ⟨⟨m, r⟩, hm, heq⟩ := Option.map_eq_some_iff.1 h
        cases heq
        unfold mark? at hm
        split at hm
        · next text m hfind =>
          cases hm
          have hspelled : ∀ p ∈ marks, p.2 = some .leftSquare → '[' ∈ p.1.toList := by decide
          have hprefix : text.toList <+: c :: cs := by simpa using List.find?_some hfind
          exact hprefix.subset (hspelled _ (List.mem_of_find?_eq_some hfind) rfl)
        · cases hm

/-- **A text without square brackets has no token that is one.** -/
theorem not_leftSquare_of_notMem (cs : List Char) (h : '[' ∉ cs) {ts : List Token}
    (hts : tokens? cs = some ts) : ∀ t ∈ ts, t ≠ .mark .leftSquare := by
  match cs with
  | [] =>
    cases hts
    exact nofun
  | c :: cs =>
    by_cases hc : isBlank c
    · rw [tokens?_blank hc] at hts
      exact not_leftSquare_of_notMem cs (fun hmem => h (List.mem_cons_of_mem c hmem)) hts
    · have hc : isBlank c = false := by simpa using hc
      cases ht : Token.first? (c :: cs) with
      | none =>
        rw [tokens?_none hc ht] at hts
        cases hts
      | some p =>
        obtain ⟨t, rest⟩ := p
        have hlt := Token.length_of_first? ht
        rw [tokens?_first hc ht] at hts
        obtain ⟨us, hus, rfl⟩ := Option.map_eq_some_iff.1 hts
        refine List.forall_mem_cons.2 ⟨?_, not_leftSquare_of_notMem rest
          (fun hmem => h ((Token.suffix_of_first? ht).subset hmem)) hus⟩
        rintro rfl
        exact h (mem_of_first?_leftSquare ht)
termination_by cs.length
decreasing_by all_goals simp_all

/-- A text in which square brackets stand in known operands only. -/
def Segmented (part : Expression → Prop) (text : String) : Prop :=
  ∀ ts, tokens? text.toList = some ts → ∃ b', Chunked part true ts b'

section
variable {part : Expression → Prop} {text l r symbol : String} {e : Expression} {m : Mark}

/-- **An expression reads tables in the known operands of its text only.** -/
theorem Segmented.over (h : Segmented part text) (hread : readText text = .ok e) : e.Over part := by
  rw [readText, Expression.parse?] at hread
  cases hts : tokens? text.toList with
  | none =>
    rw [hts] at hread
    cases hread
  | some ts =>
    rw [hts] at hread
    obtain ⟨b', hchunked⟩ := h ts hts
    cases hr : Expression.read? ts with
    | none =>
      simp only [Option.bind_eq_bind, Option.bind_some, hr] at hread
      cases hread
    | some p =>
      obtain ⟨x, rest⟩ := p
      have hover := ((readsOver part b' _).cond hchunked hr).1
      simp only [Option.bind_eq_bind, Option.bind_some, hr] at hread
      cases rest with
      | nil =>
        cases hread
        exact hover
      | cons t rest => cases hread

theorem segmented_of_notMem (h : '[' ∉ text.toList) : Segmented part text := by
  intro ts hts
  have hall := not_leftSquare_of_notMem _ h hts
  clear hts
  suffices hchunked : ∀ b, ∃ b', Chunked part b ts b' from hchunked true
  induction ts with
  | nil => exact fun b => ⟨b, .nil⟩
  | cons t ts ih =>
    rw [List.forall_mem_cons] at hall
    intro b
    obtain ⟨b', hts⟩ := ih hall.2 t.opens
    exact ⟨b', .token hall.1 hts⟩

/-- A known operand. -/
theorem IsText.segmented (h : IsText .operand text [e]) (he : part e) : Segmented part text := by
  intro ts hts
  obtain ⟨us, hus, hparse⟩ := h
  obtain rfl : us = ts := Option.some.inj (hus.symm.trans hts)
  have hchunk : Chunked part true (us ++ []) false := .chunk hparse he .nil
  rw [List.append_nil] at hchunk
  exact ⟨false, hchunk⟩

theorem Segmented.paren (h : Segmented part text) : Segmented part ("(" ++ text ++ ")") := by
  intro ts hts
  have hopen := tokens?_bracket (p := ('(', .left)) (by decide) (text.toList ++ [')'])
  have hclose := tokens?_bracket (p := (')', .right)) (by decide) []
  have htext : ("(" ++ text ++ ")").toList = '(' :: (text.toList ++ [')']) := by simp
  rw [htext, hopen, tokens?_append (c := ')') (by decide), hclose] at hts
  obtain ⟨us, hus, rfl⟩ := Option.map_eq_some_iff.1 hts
  obtain ⟨vs, hvs, hus⟩ := Option.bind_eq_some_iff.1 hus
  cases hus
  obtain ⟨b', hchunked⟩ := h vs hvs
  exact ⟨false, .token (by simp) (hchunked.append (.token (by simp) .nil))⟩

/-- Two texts with an operator between them. -/
theorem Segmented.join (hsymbol : tokens? symbol.toList = some [.mark m]) (hm : (Token.mark m).opens = true)
    (hsquare : m ≠ .leftSquare) (hl : Segmented part l) (hr : Segmented part r) :
    Segmented part (l ++ " " ++ symbol ++ " " ++ r) := by
  intro ts hts
  have htext : (l ++ " " ++ symbol ++ " " ++ r).toList =
      l.toList ++ ' ' :: (symbol.toList ++ ' ' :: r.toList) := by simp
  rw [htext, tokens?_append (c := ' ') (by decide), tokens?_blank (by decide),
    tokens?_append (c := ' ') (by decide), tokens?_blank (by decide), hsymbol] at hts
  obtain ⟨us, hus, hts⟩ := Option.bind_eq_some_iff.1 hts
  obtain ⟨vs, hvs, rfl⟩ := Option.map_eq_some_iff.1 hts
  obtain ⟨ws, hws, rfl⟩ := Option.map_eq_some_iff.1 hvs
  obtain ⟨b₁, hleft⟩ := hl us hus
  obtain ⟨b₂, hright⟩ := hr ws hws
  exact ⟨b₂, hleft.append (.token (by simpa using hsquare) (hm.symm ▸ hright))⟩

end

end RecurrenceCompiler.Script
