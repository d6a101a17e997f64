import RecurrenceCompiler.Proofs.Arith.Sentence

/-!
# What the evaluator accepts

Evaluation of a text gives a value exactly if the text is a sentence whose names have values and whose
calls fit their functions, and the value is the one that the sentence denotes
(`eval_accepts_sentences`); any other text is refused.

`Denotes` is the meaning of a tree, with nothing assumed of the operations. A sum is one term after
another, each joined to what stands before it (`derives_expr_iff`), and so is a product
(`derives_term_iff`).

Evaluation ends because each step reads a token or goes one level down the grammar: a bound of four
steps a token is never met, so a greater one changes neither values nor errors (`evalExpr_fuel`).
-/

namespace RecurrenceCompiler.Arith

open Decimal

/-! ## Sums and products as chains -/

/-- A part of a sum or product behind the operator that joins it to what stands before. -/
structure Link where
  op : Op
  bin : BinOp
  tokens : List Token
  tree : Tree

/-- The tokens of a link. -/
def Link.run (k : Link) : List Token :=
  .op k.op :: k.tokens

/-- A chain of parts that one nonterminal derives, joined by some operators to the left. -/
def Chain (nt : Nonterminal) (ops : List (Op × BinOp)) (ts : List Token) (t : Tree) : Prop :=
  ∃ as l, Derives nt as [l] ∧
    ∃ ks : List Link, (∀ k ∈ ks, (k.op, k.bin) ∈ ops ∧ Derives nt k.tokens [k.tree]) ∧
      ts = as ++ ks.flatMap Link.run ∧ t = ks.foldl (fun l k => .bin k.bin l k.tree) l

/-- One part is a chain. -/
theorem Chain.single {nt : Nonterminal} {ops : List (Op × BinOp)} {ts : List Token} {t : Tree}
    (h : Derives nt ts [t]) : Chain nt ops ts t :=
  ⟨ts, t, h, [], by simp, by simp, rfl⟩

/-- A chain goes on with one more part. -/
theorem Chain.concat {nt : Nonterminal} {ops : List (Op × BinOp)} {as bs : List Token} {l r : Tree}
    (h : Chain nt ops as l) {o : Op} {b : BinOp} (ho : (o, b) ∈ ops) (hr : Derives nt bs [r]) :
    Chain nt ops (as ++ .op o :: bs) (.bin b l r) := by
  obtain ⟨as, l, hl, ks, hks, rfl, rfl⟩ := h
  refine ⟨as, l, hl, ks ++ [⟨o, b, bs, r⟩], ?_, ?_, ?_⟩
  · exact List.forall_mem_append.2 ⟨hks, by simpa using ⟨ho, hr⟩⟩
  · simp [Link.run]
  · simp

/-- A chain is derived if the nonterminal above takes a part and goes on with one. -/
theorem Chain.derives {nt above : Nonterminal} {ops : List (Op × BinOp)} {ts : List Token} {t : Tree}
    (h : Chain nt ops ts t) (hone : ∀ {ts t}, Derives nt ts [t] → Derives above ts [t])
    (hmore : ∀ {as bs l r o b}, (o, b) ∈ ops → Derives above as [l] → Derives nt bs [r] →
      Derives above (as ++ .op o :: bs) [.bin b l r]) : Derives above ts [t] := by
  obtain ⟨as, l, hl, ks, hks, rfl, rfl⟩ := h
  replace hl := hone hl
  induction ks generalizing as l with
  | nil => simpa using hl
  | cons k ks ih =>
    obtain ⟨⟨ho, hr⟩, hks⟩ := List.forall_mem_cons.1 hks
    have hnext := ih (as ++ k.run) (.bin k.bin l k.tree) hks (hmore ho hl hr)
    rwa [List.append_assoc] at hnext

/-- **A sum is a chain of terms**, joined to the left. -/
theorem derives_expr_iff {ts : List Token} {t : Tree} :
    Derives .expr ts [t] ↔ Chain .term [(.plus, .add), (.minus, .sub)] ts t := by
  constructor
  · intro h
    generalize hnt : Nonterminal.expr = nt, hus : [t] = us at h
    induction h generalizing t with
    | ofTerm h =>
      obtain rfl := List.singleton_inj.1 hus
      exact .single h
    | add _ hr ih | sub _ hr ih =>
      obtain rfl := List.singleton_inj.1 hus
      exact (ih rfl rfl).concat (by simp) hr
    | _ => cases hnt
  · intro h
    refine h.derives .ofTerm fun ho hl hr => ?_
    simp only [List.mem_cons, List.not_mem_nil, or_false, Prod.mk.injEq] at ho
    rcases ho with ⟨rfl, rfl⟩ | ⟨rfl, rfl⟩
    · exact .add hl hr
    · exact .sub hl hr

/-- **A product is a chain of signed primaries**, joined to the left. -/
theorem derives_term_iff {ts : List Token} {t : Tree} :
    Derives .term ts [t] ↔ Chain .unary [(.times, .mul), (.slash, .div)] ts t := by
  constructor
  · intro h
    generalize hnt : Nonterminal.term = nt, hus : [t] = us at h
    induction h generalizing t with
    | ofUnary h =>
      obtain rfl := List.singleton_inj.1 hus
      exact .single h
    | mul _ hr ih | div _ hr ih =>
      obtain rfl := List.singleton_inj.1 hus
      exact (ih rfl rfl).concat (by simp) hr
    | _ => cases hnt
  · intro h
    refine h.derives .ofUnary fun ho hl hr => ?_
    simp only [List.mem_cons, List.not_mem_nil, or_false, Prod.mk.injEq] at ho
    rcases ho with ⟨rfl, rfl⟩ | ⟨rfl, rfl⟩
    · exact .mul hl hr
    · exact .div hl hr

section

variable {α : Type} [Carrier α] (env : Env α)

/-! ## What a tree denotes -/

/-- A tree denotes a value: each of its names is bound, each call is one of a known function at as
many arguments as it takes, and the operations are those of the number system. -/
inductive Tree.Denotes : Tree → α → Prop
  | num {x} : Denotes (.num x) (Carrier.ofFloat x)
  | name {n v} : env n = some v → Denotes (.name n) v
  | call {n us f vs} : MathFn.ofName? n = some f → us.length = f.arity →
      List.Forall₂ Denotes us vs → Denotes (.call n us) (Carrier.apply f vs)
  | neg {t v} : Denotes t v → Denotes (.neg t) (Carrier.neg v)
  | pos {t v} : Denotes t v → Denotes (.pos t) v
  | bin {op l r v w} : Denotes l v → Denotes r w → Denotes (.bin op l r) (op.apply v w)

mutual

/-- **The value of a tree is what it denotes.** -/
theorem Tree.eval_eq_ok : ∀ {t : Tree} {v : α}, t.eval env = .ok v ↔ t.Denotes env v
  | .num _, v => by
    rw [Tree.eval, Except.ok.injEq]
    exact ⟨fun h => h ▸ .num, fun h => by cases h; rfl⟩
  | .name n, v => by
    rw [Tree.eval]
    constructor
    · intro h
      cases hn : env n with
      | none => simp [hn] at h
      | some w =>
        obtain rfl : w = v := by simpa [hn] using h
        exact .name hn
    · rintro ⟨⟩
      next hn => rw [hn]
  | .call n us, v => by
    rw [Tree.eval]
    constructor
    · intro h
      cases hn : MathFn.ofName? n with
      | none => simp [hn] at h
      | some f =>
        rw [hn] at h
        obtain ⟨vs, hvs, h⟩ := bind_ok h
        have hall := (Tree.evalAll_eq_ok (l := us)).1 hvs
        split at h
        · next hlen =>
          cases h
          exact .call hn (hall.length_eq.trans (by simpa using hlen)) hall
        · cases h
    · rintro ⟨⟩
      next f vs hn hlen hall =>
        have hvs := (Tree.evalAll_eq_ok (l := us)).2 hall
        have hfit : (vs.length == f.arity) = true := by simpa [← hall.length_eq] using hlen
        simp only [hn, hvs]
        exact if_pos hfit
  | .neg t, v => by
    rw [Tree.eval]
    constructor
    · intro h
      obtain ⟨w, hw, h⟩ := bind_ok h
      cases h
      exact .neg (Tree.eval_eq_ok.1 hw)
    · rintro ⟨⟩
      next ht => rw [(Tree.eval_eq_ok (t := t)).2 ht]; rfl
  | .pos t, v => by
    rw [Tree.eval, Tree.eval_eq_ok (t := t)]
    exact ⟨.pos, fun h => by cases h; assumption⟩
  | .bin op l r, v => by
    rw [Tree.eval]
    constructor
    · intro h
      obtain ⟨x, hx, h⟩ := bind_ok h
      obtain ⟨y, hy, h⟩ := bind_ok h
      cases h
      exact .bin (Tree.eval_eq_ok.1 hx) (Tree.eval_eq_ok.1 hy)
    · rintro ⟨⟩
      next hl hr => rw [(Tree.eval_eq_ok (t := l)).2 hl, (Tree.eval_eq_ok (t := r)).2 hr]; rfl

theorem Tree.evalAll_eq_ok : ∀ {l : List Tree} {vs : List α},
    Tree.evalAll env l = .ok vs ↔ List.Forall₂ (Tree.Denotes env) l vs
  | [], vs => by
    rw [Tree.evalAll, Except.ok.injEq, List.forall₂_nil_left_iff]
    exact eq_comm
  | u :: us, vs => by
    rw [Tree.evalAll, List.forall₂_cons_left_iff]
    constructor
    · intro h
      obtain ⟨v, hv, h⟩ := bind_ok h
      obtain ⟨ws, hws, h⟩ := bind_ok h
      cases h
      exact ⟨v, ws, Tree.eval_eq_ok.1 hv, Tree.evalAll_eq_ok.1 hws, rfl⟩
    · rintro ⟨v, ws, hv, hws, rfl⟩
      rw [(Tree.eval_eq_ok (t := u)).2 hv, (Tree.evalAll_eq_ok (l := us)).2 hws]
      rfl

end

/-! ## Evaluation ends -/

/-- A read run is not empty, so the rest is shorter. -/
theorem Derives.rest_lt {nt : Nonterminal} {ts used rest : List Token} {us : List Tree}
    (h : Derives nt used us) (hts : ts = used ++ rest) : rest.length < ts.length := by
  have hpos := h.length_pos
  rw [hts, List.length_append]
  omega

/-- A computation of two steps changes neither with its first step nor with what the second step
does on results of the first. -/
theorem bind_congr_ok {ε β γ : Type} {x y : Except ε β} {f g : β → Except ε γ} (hx : x = y)
    (hf : ∀ b, y = .ok b → f b = g b) : x >>= f = y >>= g := by
  subst hx
  cases x with
  | error e => rfl
  | ok b => exact hf b rfl

omit [Carrier α] in
/-- A run that starts with one of some operators. -/
theorem exists_op_of_not_free {ops : List Op} {ts : List Token} (h : ¬Free ops ts) :
    ∃ o rest, ts = .op o :: rest ∧ o ∈ ops := by
  match ts with
  | .op o :: rest => exact ⟨o, rest, rfl, not_not.1 h⟩
  | [] | .num _ :: _ | .name _ :: _ => exact (h trivial).elim

/-- What starts with no sign is a primary. -/
theorem evalUnary_of_free {ts : List Token} (h : Free [.plus, .minus] ts) (fuel : Nat) :
    evalUnary env (fuel + 1) ts = evalPrimary env fuel ts := by
  unfold evalUnary
  split <;> simp_all [Free]

/-- A name that is not called has its value. -/
theorem evalPrimary_name {n : String} {ts : List Token} (h : Free [.left] ts) (fuel : Nat) :
    evalPrimary env (fuel + 1) (.name n :: ts) =
      match env n with
      | some v => .ok (v, ts)
      | none => .error (.unbound n) := by
  match ts with
  | [] | .num _ :: _ | .name _ :: _ => rfl
  | .op o :: ts =>
    cases o with
    | left => simp [Free] at h
    | _ => rfl

/-- One more step than a bound changes nothing for runs short enough, one field a function. -/
structure Settled (fuel : Nat) : Prop where
  expr : ∀ ts : List Token, 4 * ts.length + 4 ≤ fuel →
    evalExpr env (fuel + 1) ts = evalExpr env fuel ts
  sum : ∀ (v : α) (ts : List Token), 4 * ts.length + 4 ≤ fuel →
    evalSum env (fuel + 1) v ts = evalSum env fuel v ts
  term : ∀ ts : List Token, 4 * ts.length + 3 ≤ fuel →
    evalTerm env (fuel + 1) ts = evalTerm env fuel ts
  product : ∀ (v : α) (ts : List Token), 4 * ts.length + 4 ≤ fuel →
    evalProduct env (fuel + 1) v ts = evalProduct env fuel v ts
  unary : ∀ ts : List Token, 4 * ts.length + 2 ≤ fuel →
    evalUnary env (fuel + 1) ts = evalUnary env fuel ts
  primary : ∀ ts : List Token, 4 * ts.length + 1 ≤ fuel →
    evalPrimary env (fuel + 1) ts = evalPrimary env fuel ts
  args : ∀ (vs : List α) (ts : List Token), 4 * ts.length + 4 ≤ fuel →
    evalArgs env (fuel + 1) vs ts = evalArgs env fuel vs ts

/-- A term and the rest of its sum. -/
theorem Settled.sum_step {fuel : Nat} (ih : Settled env fuel) {ts : List Token}
    (hts : 4 * ts.length + 3 ≤ fuel) (f : α → α) :
    (evalTerm env (fuel + 1) ts >>= fun p => evalSum env (fuel + 1) (f p.1) p.2) =
      evalTerm env fuel ts >>= fun p => evalSum env fuel (f p.1) p.2 := by
  refine bind_congr_ok (ih.term ts hts) fun p hp => ?_
  obtain ⟨used, t, heq, hd⟩ := (sound env fuel).term hp
  have hlt := hd.rest_lt heq
  exact ih.sum _ _ (by omega)

/-- A signed primary and the rest of its product. -/
theorem Settled.product_step {fuel : Nat} (ih : Settled env fuel) {ts : List Token}
    (hts : 4 * ts.length + 2 ≤ fuel) (f : α → α) :
    (evalUnary env (fuel + 1) ts >>= fun p => evalProduct env (fuel + 1) (f p.1) p.2) =
      evalUnary env fuel ts >>= fun p => evalProduct env fuel (f p.1) p.2 := by
  refine bind_congr_ok (ih.unary ts hts) fun p hp => ?_
  obtain ⟨used, t, heq, hd⟩ := (sound env fuel).unary hp
  have hlt := hd.rest_lt heq
  exact ih.product _ _ (by omega)

/-- An expression and the arguments after it. -/
theorem Settled.args_step {fuel : Nat} (ih : Settled env fuel) {ts : List Token}
    (hts : 4 * ts.length + 4 ≤ fuel) (f : α → List α) :
    (evalExpr env (fuel + 1) ts >>= fun p => evalArgs env (fuel + 1) (f p.1) p.2) =
      evalExpr env fuel ts >>= fun p => evalArgs env fuel (f p.1) p.2 := by
  refine bind_congr_ok (ih.expr ts hts) fun p hp => ?_
  obtain ⟨used, t, heq, hd⟩ := (sound env fuel).expr hp
  have hlt := hd.rest_lt heq
  exact ih.args _ _ (by omega)

theorem settled_zero : Settled env 0 := by
  constructor <;> intros <;> omega

/-- Each function hands on a run that is shorter, or the same run to a lower level. -/
theorem settled_succ {fuel : Nat} (ih : Settled env fuel) : Settled env (fuel + 1) where
  expr := by
    intro ts hts
    rw [evalExpr, evalExpr]
    exact ih.sum_step env (by omega) id
  sum := by
    intro v ts hts
    by_cases hfree : Free [.plus, .minus] ts
    · rw [evalSum_stop env hfree (by omega), evalSum_stop env hfree (by omega)]
    · obtain ⟨o, ts, rfl, ho⟩ := exists_op_of_not_free hfree
      rw [List.length_cons] at hts
      simp only [List.mem_cons, List.not_mem_nil, or_false] at ho
      rcases ho with rfl | rfl
      · rw [evalSum, evalSum]
        exact ih.sum_step env (by omega) (Carrier.add v)
      · rw [evalSum, evalSum]
        exact ih.sum_step env (by omega) (Carrier.sub v)
  term := by
    intro ts hts
    rw [evalTerm, evalTerm]
    exact ih.product_step env (by omega) id
  product := by
    intro v ts hts
    by_cases hfree : Free [.times, .slash] ts
    · rw [evalProduct_stop env hfree (by omega), evalProduct_stop env hfree (by omega)]
    · obtain ⟨o, ts, rfl, ho⟩ := exists_op_of_not_free hfree
      rw [List.length_cons] at hts
      simp only [List.mem_cons, List.not_mem_nil, or_false] at ho
      rcases ho with rfl | rfl
      · rw [evalProduct, evalProduct]
        exact ih.product_step env (by omega) (Carrier.mul v)
      · rw [evalProduct, evalProduct]
        exact ih.product_step env (by omega) (Carrier.div v)
  unary := by
    intro ts hts
    by_cases hfree : Free [.plus, .minus] ts
    · rw [evalUnary_of_free env hfree, evalUnary_of_free env hfree]
      exact ih.primary ts (by omega)
    · obtain ⟨o, ts, rfl, ho⟩ := exists_op_of_not_free hfree
      rw [List.length_cons] at hts
      simp only [List.mem_cons, List.not_mem_nil, or_false] at ho
      rcases ho with rfl | rfl
      · rw [evalUnary, evalUnary]
        exact ih.unary ts (by omega)
      · rw [evalUnary, evalUnary]
        exact bind_congr_ok (ih.unary ts (by omega)) fun _ _ => rfl
  primary := by
    intro ts hts
    cases ts with
    | nil => rfl
    | cons t ts =>
      rw [List.length_cons] at hts
      cases t with
      | num x => rfl
      | name n =>
        by_cases hfree : Free [.left] ts
        · rw [evalPrimary_name env hfree, evalPrimary_name env hfree]
        · obtain ⟨o, ts, rfl, ho⟩ := exists_op_of_not_free hfree
          obtain rfl := List.mem_singleton.1 ho
          rw [List.length_cons] at hts
          rw [evalPrimary, evalPrimary]
          cases MathFn.ofName? n with
          | none => rfl
          | some f =>
            refine bind_congr_ok (ih.expr ts (by omega)) fun p hp => ?_
            obtain ⟨used, t, heq, hd⟩ := (sound env fuel).expr hp
            have hlt := hd.rest_lt heq
            exact bind_congr_ok (ih.args _ _ (by omega)) fun _ _ => rfl
      | op o =>
        cases o with
        | left =>
          rw [evalPrimary, evalPrimary]
          exact bind_congr_ok (ih.expr ts (by omega)) fun _ _ => rfl
        | _ => rfl
  args := by
    intro vs ts hts
    cases ts with
    | nil => rfl
    | cons t ts =>
      rw [List.length_cons] at hts
      cases t with
      | num | name => rfl
      | op o =>
        cases o with
        | comma =>
          rw [evalArgs, evalArgs]
          exact ih.args_step env (by omega) fun v => vs ++ [v]
        | _ => rfl

theorem settled : ∀ fuel, Settled env fuel
  | 0 => settled_zero env
  | fuel + 1 => settled_succ env (settled fuel)

/-- **A bound of four steps a token is never met**: with any greater one the outcome is the same,
errors included. -/
theorem evalExpr_fuel {ts : List Token} {fuel : Nat} (hfuel : 4 * ts.length + 4 ≤ fuel) :
    evalExpr env fuel ts = evalExpr env (4 * ts.length + 4) ts := by
  induction fuel, hfuel using Nat.le_induction with
  | base => rfl
  | succ fuel hle ih => rw [(settled env fuel).expr ts hle, ih]

/-! ## Acceptance -/

/-- **Evaluation accepts the sentences of the grammar, with what they denote.** A value comes from a
derivation of all the tokens in which every name is bound and every call fits its function; a text
without a derivation is refused; and evaluation ends within four steps a token. -/
theorem eval_accepts_sentences (text : String) :
    (∀ v, eval env text = .ok v ↔ ∃ ts t, tokens? text.toList = some ts ∧
      Derives .expr ts [t] ∧ t.Denotes env v) ∧
      ((¬∃ ts t, tokens? text.toList = some ts ∧ Derives .expr ts [t]) →
        ∃ e, eval env text = .error e) ∧
      ∀ ts fuel, 4 * ts.length + 4 ≤ fuel →
        evalExpr env fuel ts = evalExpr env (4 * ts.length + 4) ts := by
  have hvalue : ∀ v, eval env text = .ok v ↔ ∃ ts t, tokens? text.toList = some ts ∧
      Derives .expr ts [t] ∧ t.Denotes env v := by
    intro v
    simp only [eval_eq_ok_iff, HasValue, Tree.eval_eq_ok]
  refine ⟨hvalue, fun hnone => ?_, fun ts fuel hfuel => evalExpr_fuel env hfuel⟩
  cases he : eval env text with
  | error e => exact ⟨e, rfl⟩
  | ok v =>
    obtain ⟨ts, t, hts, ht, -⟩ := (hvalue v).1 he
    exact (hnone ⟨ts, t, hts, ht⟩).elim

end

/-- Terms written out with all their parentheses, as a number system. -/
structure Written where
  text : String
deriving DecidableEq

instance : Carrier Written where
  ofFloat x := ⟨numberText x⟩
  add x y := ⟨"(" ++ x.text ++ "+" ++ y.text ++ ")"⟩
  sub x y := ⟨"(" ++ x.text ++ "-" ++ y.text ++ ")"⟩
  mul x y := ⟨"(" ++ x.text ++ "*" ++ y.text ++ ")"⟩
  div x y := ⟨"(" ++ x.text ++ "/" ++ y.text ++ ")"⟩
  neg x := ⟨"-" ++ x.text⟩
  apply f xs := ⟨f.name ++ "(" ++ ",".intercalate (xs.map Written.text) ++ ")"⟩
  eq x y := x == y
  lt _ _ := false
  le x y := x == y
  isWhole _ := true
  toNat? _ := none
  text := Written.text

/-- A derived run does not end in an operator, but for a closing parenthesis. -/
theorem Derives.getLast_ne {nt : Nonterminal} {ts : List Token} {us : List Tree} (h : Derives nt ts us)
    {o : Op} (ho : o ≠ .right) : ts.getLast? ≠ some (.op o) := by
  have hlast (as bs : List Token) (c : Token) (hpos : 0 < bs.length) :
      (as ++ c :: bs).getLast? = bs.getLast? := by
    rw [List.append_cons, List.getLast?_append_of_ne_nil _ (List.ne_nil_of_length_pos hpos)]
  induction h with
  | add _ hr _ ih | sub _ hr _ ih | mul _ hr _ ih | div _ hr _ ih | more _ hr _ ih =>
    rwa [hlast _ _ _ hr.length_pos]
  | neg ht ih | pos ht ih => rwa [← List.nil_append (_ :: _), hlast _ _ _ ht.length_pos]
  | num | name => simp
  | call | paren =>
    rw [List.getLast?_concat]
    simpa using ho.symm
  | ofTerm _ ih | ofUnary _ ih | ofPrimary _ ih | one _ ih => exact ih

/-- Names stand for themselves, but for one that is not bound. -/
def letters : Env Written :=
  fun n => if n = "q" then none else some ⟨n⟩

/-- A sentence that is derived has the value of its derivation, from left to right. A text that has a
value is derived, powers and signs included. A text that ends in an operator is refused. -/
theorem eval_accepts_sentences_written :
    eval letters "x - y - z" = .ok ⟨"((x-y)-z)"⟩ ∧
    (∃ ts t, tokens? "-x*pow(y, +z)".toList = some ts ∧ Derives .expr ts [t] ∧
      t.Denotes letters ⟨"(-x*pow(y,z))"⟩) ∧
    ∃ e, eval letters "x -" = .error e := by
  have hx : Derives .term [.name "x"] [.name "x"] := .ofUnary (.ofPrimary .name)
  have hy : Derives .term [.name "y"] [.name "y"] := .ofUnary (.ofPrimary .name)
  have hz : Derives .term [.name "z"] [.name "z"] := .ofUnary (.ofPrimary .name)
  refine ⟨?_, ?_, ?_⟩
  · refine ((eval_accepts_sentences letters "x - y - z").1 _).2
      ⟨_, _, rfl, .sub (.sub (.ofTerm hx) hy) hz, ?_⟩
    have hname (n : String) (hn : n ≠ "q") : (Tree.name n).Denotes letters ⟨n⟩ := .name (if_neg hn)
    exact .bin (.bin (hname "x" (by decide)) (hname "y" (by decide))) (hname "z" (by decide))
  · refine ((eval_accepts_sentences letters "-x*pow(y, +z)").1 _).1 (toOption_eq_some_iff.1 ?_)
    decide +kernel
  · refine (eval_accepts_sentences letters "x -").2.1 ?_
    rintro ⟨ts, t, hts, ht⟩
    obtain rfl : [Token.name "x", .op .minus] = ts := Option.some.inj hts
    exact ht.getLast_ne (o := .minus) (by decide) rfl

end RecurrenceCompiler.Arith
