import Mathlib
import RecurrenceCompiler.Arith.Eval
import RecurrenceCompiler.Expr.Eval

/-!
# The grammar of arithmetic text

`Derives` is the grammar that `Arith.Eval` documents, as a relation between a nonterminal, a run of
tokens and the trees it stands for, and `Tree.eval` is the value of a tree. The evaluator reads and
evaluates in one pass; here the two are taken apart:

* `evalTokens_of_derives`: on a sentence the evaluator gives the value of its tree, errors included;
* `derives_of_evalTokens`: what has a value is a sentence.

So a statement about the value of a text is one about derivations, and two readers of one text agree
as soon as they build the same tree.
-/

namespace RecurrenceCompiler.Arith

/-! ## Trees and derivations -/

/-- What a sentence of arithmetic stands for. Parentheses leave no trace. -/
inductive Tree where
  | num (value : Float)
  | name (name : String)
  | call (fn : String) (args : List Tree)
  | neg (arg : Tree)
  | pos (arg : Tree)
  | bin (op : BinOp) (left right : Tree)

/-- The nonterminals of the grammar. `args` is what stands between the parentheses of a call. -/
inductive Nonterminal where
  | expr
  | term
  | unary
  | primary
  | args

/-- A run of tokens that a nonterminal derives, with the trees it stands for: the arguments of a
call, or one tree. -/
inductive Derives : Nonterminal → List Token → List Tree → Prop
  | ofTerm {ts t} : Derives .term ts [t] → Derives .expr ts [t]
  | add {as bs l r} : Derives .expr as [l] → Derives .term bs [r] →
      Derives .expr (as ++ .op .plus :: bs) [.bin .add l r]
  | sub {as bs l r} : Derives .expr as [l] → Derives .term bs [r] →
      Derives .expr (as ++ .op .minus :: bs) [.bin .sub l r]
  | ofUnary {ts t} : Derives .unary ts [t] → Derives .term ts [t]
  | mul {as bs l r} : Derives .term as [l] → Derives .unary bs [r] →
      Derives .term (as ++ .op .times :: bs) [.bin .mul l r]
  | div {as bs l r} : Derives .term as [l] → Derives .unary bs [r] →
      Derives .term (as ++ .op .slash :: bs) [.bin .div l r]
  | ofPrimary {ts t} : Derives .primary ts [t] → Derives .unary ts [t]
  | neg {ts t} : Derives .unary ts [t] → Derives .unary (.op .minus :: ts) [.neg t]
  | pos {ts t} : Derives .unary ts [t] → Derives .unary (.op .plus :: ts) [.pos t]
  | num {x} : Derives .primary [.num x] [.num x]
  | name {n} : Derives .primary [.name n] [.name n]
  | call {n ts us} : Derives .args ts us →
      Derives .primary (.name n :: .op .left :: ts ++ [.op .right]) [.call n us]
  | paren {ts t} : Derives .expr ts [t] →
      Derives .primary (.op .left :: ts ++ [.op .right]) [t]
  | one {ts t} : Derives .expr ts [t] → Derives .args ts [t]
  | more {as bs us t} : Derives .args as us → Derives .expr bs [t] →
      Derives .args (as ++ .op .comma :: bs) (us ++ [t])

/-- A sentence: a run of tokens that is one sum. -/
def Sentence (ts : List Token) : Prop :=
  ∃ t, Derives .expr ts [t]

/-- A nonterminal derives no empty run. -/
theorem Derives.length_pos {nt ts us} (h : Derives nt ts us) : 0 < ts.length := by
  induction h <;> simp_all

/-! ## The value of a tree -/

section

variable {α : Type} [Carrier α] (env : Env α)

mutual

/-- The value of a tree, from left to right: the first failure counts. -/
def Tree.eval : Tree → Except Failure α
  | .num x => .ok (Carrier.ofFloat x)
  | .name n =>
    match env n with
    | some v => .ok v
    | none => .error (.unbound n)
  | .call n us =>
    match MathFn.ofName? n with
    | none => .error (.unknownFunction n)
    | some f => do
      let vs ← Tree.evalAll us
      if vs.length == f.arity then return Carrier.apply f vs else throw (.wrongArity f)
  | .neg t => do
    let v ← Tree.eval t
    return Carrier.neg v
  | .pos t => Tree.eval t
  | .bin op l r => do
    let v ← Tree.eval l
    let w ← Tree.eval r
    return op.apply v w

/-- The values of trees, from left to right. -/
def Tree.evalAll : List Tree → Except Failure (List α)
  | [] => .ok []
  | t :: ts => do
    let v ← Tree.eval t
    let vs ← Tree.evalAll ts
    return v :: vs

end

/-- The values of trees with one more at the end. -/
theorem Tree.evalAll_concat (us : List Tree) (t : Tree) :
    Tree.evalAll env (us ++ [t]) = do
      let vs ← Tree.evalAll env us
      let v ← Tree.eval env t
      return vs ++ [v] := by
  induction us with
  | nil => simp [Tree.evalAll]; rfl
  | cons u us ih =>
    simp only [List.cons_append, Tree.evalAll, ih, bind_assoc, pure_bind]

/-! ## The evaluator on a sentence -/

/-- Whether none of some operators stands at the front. -/
def Free (ops : List Op) : List Token → Prop
  | .op o :: _ => o ∉ ops
  | _ => True

/-- Fewer operators are avoided more easily. -/
theorem Free.mono {ops ops' : List Op} (h : ops' ⊆ ops) : ∀ {rest}, Free ops rest → Free ops' rest
  | .op _ :: _, hr => fun ho => hr (h ho)
  | .num _ :: _, _ => trivial
  | .name _ :: _, _ => trivial
  | [], _ => trivial

/-- A sum ends where no sign follows. -/
theorem evalSum_stop {rest : List Token} (h : Free [.plus, .minus] rest) {fuel : Nat}
    (hf : 0 < fuel) (v : α) : evalSum env fuel v rest = .ok (v, rest) := by
  obtain ⟨fuel, rfl⟩ := Nat.exists_eq_add_one.2 hf
  unfold evalSum
  split <;> simp_all [Free]

/-- A product ends where neither a star nor a slash follows. -/
theorem evalProduct_stop {rest : List Token} (h : Free [.times, .slash] rest) {fuel : Nat}
    (hf : 0 < fuel) (v : α) : evalProduct env fuel v rest = .ok (v, rest) := by
  obtain ⟨fuel, rfl⟩ := Nat.exists_eq_add_one.2 hf
  unfold evalProduct
  split <;> simp_all [Free]

/-- What the evaluator does on a run of tokens before a rest. Sums and products are left recursive
in the grammar and loops in the evaluator, so they are read up to the loop that goes on with the
rest. -/
def Read : Nonterminal → List Token → List Tree → Prop
  | .expr, ts, [t] => ∀ fuel rest, 4 * ts.length ≤ fuel → Free [.left, .times, .slash] rest →
      ∃ f, fuel ≤ f + ts.length ∧
        evalExpr env fuel (ts ++ rest) = t.eval env >>= fun v => evalSum env f v rest
  | .term, ts, [t] => ∀ fuel rest, 4 * ts.length ≤ fuel + 1 → Free [.left] rest →
      ∃ f, fuel ≤ f + ts.length ∧
        evalTerm env fuel (ts ++ rest) = t.eval env >>= fun v => evalProduct env f v rest
  | .unary, ts, [t] => ∀ fuel rest, 4 * ts.length ≤ fuel + 2 → Free [.left] rest →
      evalUnary env fuel (ts ++ rest) = t.eval env >>= fun v => .ok (v, rest)
  | .primary, ts, [t] => ∀ fuel rest, 4 * ts.length ≤ fuel + 3 → Free [.left] rest →
      evalPrimary env fuel (ts ++ rest) = t.eval env >>= fun v => .ok (v, rest)
  | .args, ts, us => ∀ fuel rest, 4 * ts.length ≤ fuel →
      Free [.left, .times, .slash, .plus, .minus] rest →
      ∃ f, fuel ≤ f + ts.length ∧
        (evalExpr env fuel (ts ++ rest) >>= fun p => evalArgs env fuel [p.1] p.2) =
          Tree.evalAll env us >>= fun vs => evalArgs env f vs rest
  | _, _, _ => True

/-- One more term of a sum. -/
theorem Read.sum {as bs : List Token} {l r : Tree} {o : Op} {b : BinOp}
    (hl : Read env .expr as [l]) (hr : Read env .term bs [r]) (hpos : 0 < bs.length)
    (ho : o ∉ [Op.left, .times, .slash])
    (hloop : ∀ f v ts, evalSum env (f + 1) v (.op o :: ts) =
      evalTerm env f ts >>= fun p => evalSum env f (b.apply v p.1) p.2) :
    Read env .expr (as ++ .op o :: bs) [.bin b l r] := by
  intro fuel rest hf hfree
  simp only [List.length_append, List.length_cons] at hf ⊢
  obtain ⟨f, hle, he⟩ := hl fuel (.op o :: (bs ++ rest)) (by omega) ho
  obtain ⟨f, rfl⟩ : ∃ k, f = k + 1 := Nat.exists_eq_add_one.2 (by omega)
  obtain ⟨g, hge, hg⟩ := hr f rest (by omega) (hfree.mono (by simp))
  refine ⟨f, by omega, ?_⟩
  rw [List.append_assoc, List.cons_append, he, Tree.eval]
  simp only [bind_assoc, pure_bind]
  refine congrArg _ (funext fun v => ?_)
  rw [hloop, hg, bind_assoc]
  refine congrArg _ (funext fun w => ?_)
  rw [evalProduct_stop env (hfree.mono (by simp)) (by omega)]
  rfl

/-- One more factor of a product. -/
theorem Read.product {as bs : List Token} {l r : Tree} {o : Op} {b : BinOp}
    (hl : Read env .term as [l]) (hr : Read env .unary bs [r]) (ho : o ≠ .left)
    (hloop : ∀ f v ts, evalProduct env (f + 1) v (.op o :: ts) =
      evalUnary env f ts >>= fun p => evalProduct env f (b.apply v p.1) p.2) :
    Read env .term (as ++ .op o :: bs) [.bin b l r] := by
  intro fuel rest hf hfree
  simp only [List.length_append, List.length_cons] at hf ⊢
  obtain ⟨f, hle, he⟩ := hl fuel (.op o :: (bs ++ rest)) (by omega) (by simpa [Free] using ho)
  obtain ⟨f, rfl⟩ : ∃ k, f = k + 1 := Nat.exists_eq_add_one.2 (by omega)
  refine ⟨f, by omega, ?_⟩
  rw [List.append_assoc, List.cons_append, he, Tree.eval]
  simp only [bind_assoc, pure_bind]
  refine congrArg _ (funext fun v => ?_)
  rw [hloop, hr f rest (by omega) hfree, bind_assoc]
  rfl

/-- A derived run is read as its trees. -/
theorem read_of_derives {nt ts us} (h : Derives nt ts us) : Read env nt ts us := by
  induction h with
  | @ofTerm ts t ht ih =>
    intro fuel rest hf hr
    have hpos := ht.length_pos
    obtain ⟨fuel, rfl⟩ : ∃ k, fuel = k + 1 := Nat.exists_eq_add_one.2 (by omega)
    obtain ⟨f, hle, he⟩ := ih fuel rest (by omega) (hr.mono (by simp))
    refine ⟨fuel, by omega, ?_⟩
    rw [evalExpr, he, bind_assoc]
    refine congrArg _ (funext fun v => ?_)
    rw [evalProduct_stop env (hr.mono (by simp)) (by omega)]
    rfl
  | add _ hr ihl ihr => exact ihl.sum env ihr hr.length_pos (by simp) fun _ _ _ => by rw [evalSum]; rfl
  | sub _ hr ihl ihr => exact ihl.sum env ihr hr.length_pos (by simp) fun _ _ _ => by rw [evalSum]; rfl
  | @ofUnary ts t ht ih =>
    intro fuel rest hf hr
    have hpos := ht.length_pos
    obtain ⟨fuel, rfl⟩ : ∃ k, fuel = k + 1 := Nat.exists_eq_add_one.2 (by omega)
    refine ⟨fuel, by omega, ?_⟩
    rw [evalTerm, ih fuel rest (by omega) hr, bind_assoc]
    rfl
  | mul _ _ ihl ihr => exact ihl.product env ihr (by simp) fun _ _ _ => by rw [evalProduct]; rfl
  | div _ _ ihl ihr => exact ihl.product env ihr (by simp) fun _ _ _ => by rw [evalProduct]; rfl
  | @ofPrimary ts t ht ih =>
    intro fuel rest hf hr
    have hpos := ht.length_pos
    obtain ⟨fuel, rfl⟩ : ∃ k, fuel = k + 1 := Nat.exists_eq_add_one.2 (by omega)
    rw [← ih fuel rest (by omega) hr]
    cases ht <;> simp [evalUnary]
  | @neg ts t ht ih =>
    intro fuel rest hf hr
    simp only [List.length_cons] at hf
    obtain ⟨fuel, rfl⟩ : ∃ k, fuel = k + 1 := Nat.exists_eq_add_one.2 (by omega)
    rw [List.cons_append, evalUnary, ih fuel rest (by omega) hr, Tree.eval]
    simp only [bind_assoc, pure_bind]
    rfl
  | @pos ts t ht ih =>
    intro fuel rest hf hr
    simp only [List.length_cons] at hf
    obtain ⟨fuel, rfl⟩ : ∃ k, fuel = k + 1 := Nat.exists_eq_add_one.2 (by omega)
    rw [List.cons_append, evalUnary, ih fuel rest (by omega) hr, Tree.eval]
  | num =>
    intro fuel rest hf hr
    simp only [List.length_cons, List.length_nil] at hf
    obtain ⟨fuel, rfl⟩ : ∃ k, fuel = k + 1 := Nat.exists_eq_add_one.2 (by omega)
    simp only [List.cons_append, List.nil_append, evalPrimary, Tree.eval]
    rfl
  | @name n =>
    intro fuel rest hf hr
    simp only [List.length_cons, List.length_nil] at hf
    obtain ⟨fuel, rfl⟩ : ∃ k, fuel = k + 1 := Nat.exists_eq_add_one.2 (by omega)
    simp only [List.cons_append, List.nil_append, Tree.eval]
    rw [evalPrimary]
    · cases env n <;> rfl
    · rintro ts rfl
      simp [Free] at hr
  | @call n ts us hargs ih =>
    intro fuel rest hf hr
    simp only [List.length_cons, List.length_append, List.length_nil] at hf
    obtain ⟨fuel, rfl⟩ : ∃ k, fuel = k + 1 := Nat.exists_eq_add_one.2 (by omega)
    simp only [List.cons_append, List.append_assoc, List.nil_append, Tree.eval]
    rw [evalPrimary]
    cases MathFn.ofName? n with
    | none => rfl
    | some fn =>
      obtain ⟨f, hle, he⟩ := ih fuel (.op .right :: rest) (by omega) (by simp [Free])
      obtain ⟨f, rfl⟩ : ∃ k, f = k + 1 := Nat.exists_eq_add_one.2 (by omega)
      simp only [evalArgs] at he
      have hs := congrArg (· >>= fun p : List α × List Token =>
        if p.1.length == fn.arity then Except.ok (Carrier.apply fn p.1, p.2)
        else .error (.wrongArity fn)) he
      simp only [bind_assoc] at hs
      refine hs.trans ?_
      simp only [bind_assoc]
      refine congrArg _ (funext fun vs => ?_)
      simp only [bind, Except.bind]
      cases vs.length == fn.arity <;> rfl
  | @paren ts t ht ih =>
    intro fuel rest hf hr
    simp only [List.length_cons, List.length_append, List.length_nil] at hf
    obtain ⟨fuel, rfl⟩ : ∃ k, fuel = k + 1 := Nat.exists_eq_add_one.2 (by omega)
    simp only [List.cons_append, List.append_assoc, List.nil_append]
    obtain ⟨f, hle, he⟩ := ih fuel (.op .right :: rest) (by omega) (by simp [Free])
    rw [evalPrimary, he, bind_assoc]
    refine congrArg _ (funext fun v => ?_)
    rw [evalSum_stop env (by simp [Free]) (by omega)]
    rfl
  | @one ts t ht ih =>
    intro fuel rest hf hr
    obtain ⟨f, hle, he⟩ := ih fuel rest hf (hr.mono (by simp))
    have hpos := ht.length_pos
    refine ⟨fuel, by omega, ?_⟩
    rw [he, bind_assoc]
    simp only [Tree.evalAll, bind_assoc]
    refine congrArg _ (funext fun v => ?_)
    rw [evalSum_stop env (hr.mono (by simp)) (by omega)]
    rfl
  | @more as bs us t ha hb iha ihb =>
    intro fuel rest hf hr
    simp only [List.length_append, List.length_cons] at hf ⊢
    obtain ⟨f, hle, he⟩ := iha fuel (.op .comma :: (bs ++ rest)) (by omega) (by simp [Free])
    obtain ⟨f, rfl⟩ : ∃ k, f = k + 1 := Nat.exists_eq_add_one.2 (by omega)
    obtain ⟨g, hge, hg⟩ := ihb f rest (by omega) (hr.mono (by simp))
    refine ⟨f, by omega, ?_⟩
    rw [List.append_assoc, List.cons_append, he, Tree.evalAll_concat, bind_assoc]
    refine congrArg _ (funext fun vs => ?_)
    rw [evalArgs, hg]
    simp only [bind_assoc]
    refine congrArg _ (funext fun v => ?_)
    rw [evalSum_stop env (hr.mono (by simp)) (by omega)]
    rfl

/-- **The value of a sentence is that of its tree**, failures included. -/
theorem evalTokens_of_derives {ts t} (h : Derives .expr ts [t]) :
    evalTokens env ts = t.eval env := by
  obtain ⟨f, hle, he⟩ := read_of_derives env h (4 * ts.length + 4) [] (by omega) trivial
  rw [List.append_nil] at he
  rw [evalTokens, he]
  cases t.eval env with
  | error e => rfl
  | ok v =>
    have hstop : evalSum env f v [] = .ok (v, []) :=
      evalSum_stop env (show Free _ [] from trivial) (by omega) v
    simp [bind, Except.bind, hstop]

/-! ## What has a value is a sentence -/

/-- A computation that runs through gives what its first step gives to the second. -/
theorem bind_ok {ε β γ : Type} {x : Except ε β} {f : β → Except ε γ} {r : γ}
    (h : x >>= f = .ok r) : ∃ a, x = .ok a ∧ f a = .ok r := by
  cases x with
  | error e => cases h
  | ok a => exact ⟨a, rfl, h⟩

/-- A computation fails in its first step or in its second. -/
theorem bind_error {ε β γ : Type} {x : Except ε β} {f : β → Except ε γ} {e : ε}
    (h : x >>= f = .error e) : x = .error e ∨ ∃ a, x = .ok a ∧ f a = .error e := by
  cases x with
  | error e' =>
    cases h
    exact .inl rfl
  | ok a => exact .inr ⟨a, rfl, h⟩

/-- A computation that gives a value runs through. -/
theorem toOption_eq_some_iff {ε β : Type} {x : Except ε β} {b : β} : x.toOption = some b ↔ x = .ok b := by
  cases x <;> simp [Except.toOption]

/-- What evaluation shows of a result. -/
theorem exists_ok_of_any {ε β : Type} {x : Except ε β} {p : β → Bool}
    (h : x.toOption.any p = true) : ∃ b, x = .ok b ∧ p b = true := by
  cases x with
  | error e => cases h
  | ok b => exact ⟨b, rfl, h⟩

/-- A computation over a list that runs through gives a result for every element. -/
theorem forall₂_of_mapM {ε α β : Type} {f : α → Except ε β} {xs : List α} : ∀ {ys : List β},
    xs.mapM f = .ok ys → List.Forall₂ (fun x y => f x = .ok y) xs ys := by
  induction xs with
  | nil =>
    rintro ys ⟨⟩
    exact .nil
  | cons x xs ih =>
    intro ys h
    rw [List.mapM_cons] at h
    obtain ⟨y, hy, h⟩ := bind_ok h
    obtain ⟨ys, hys, h⟩ := bind_ok h
    cases h
    exact .cons hy (ih hys)

/-- A computation that runs through on every element runs through on the list. -/
theorem exists_mapM_map {ε α β γ : Type} {f : α → Except ε β} {g : β → γ} {k : α → γ} {xs : List α}
    (h : ∀ x ∈ xs, ∃ y, f x = .ok y ∧ g y = k x) : ∃ ys, xs.mapM f = .ok ys ∧ ys.map g = xs.map k := by
  induction xs with
  | nil => exact ⟨[], rfl, rfl⟩
  | cons x xs ih =>
    obtain ⟨y, hy, hgy⟩ := h x (by simp)
    obtain ⟨ys, hys, hgys⟩ := ih fun x' hx' => h x' (by simp [hx'])
    refine ⟨y :: ys, ?_, by simp [hgy, hgys]⟩
    rw [List.mapM_cons, hy, hys]
    rfl

/-- What the evaluator reads within a bound is derived, one field a function. The loops are given
the run read before them. -/
structure Sound (fuel : Nat) : Prop where
  expr : ∀ {ts v rest}, evalExpr env fuel ts = .ok (v, rest) →
    ∃ used t, ts = used ++ rest ∧ Derives .expr used [t]
  sum : ∀ {ts v w rest as l}, Derives .expr as [l] → evalSum env fuel v ts = .ok (w, rest) →
    ∃ used t, ts = used ++ rest ∧ Derives .expr (as ++ used) [t]
  term : ∀ {ts v rest}, evalTerm env fuel ts = .ok (v, rest) →
    ∃ used t, ts = used ++ rest ∧ Derives .term used [t]
  product : ∀ {ts v w rest as l}, Derives .term as [l] → evalProduct env fuel v ts = .ok (w, rest) →
    ∃ used t, ts = used ++ rest ∧ Derives .term (as ++ used) [t]
  unary : ∀ {ts v rest}, evalUnary env fuel ts = .ok (v, rest) →
    ∃ used t, ts = used ++ rest ∧ Derives .unary used [t]
  primary : ∀ {ts v rest}, evalPrimary env fuel ts = .ok (v, rest) →
    ∃ used t, ts = used ++ rest ∧ Derives .primary used [t]
  args : ∀ {ts vs ws rest as us}, Derives .args as us → evalArgs env fuel vs ts = .ok (ws, rest) →
    ∃ used us', ts = used ++ .op .right :: rest ∧ Derives .args (as ++ used) us'

/-- Nothing is read without fuel. -/
theorem sound_zero : Sound env 0 := by
  constructor <;> intros <;>
    simp_all [evalExpr, evalSum, evalTerm, evalProduct, evalUnary, evalPrimary, evalArgs]

/-- A run and what a loop reads after it, cut behind the loop's operator. -/
theorem append_cons_append (as : List Token) (o : Token) (bs cs : List Token) :
    as ++ (o :: (bs ++ cs)) = as ++ o :: bs ++ cs := by
  simp

theorem sound_succ {fuel : Nat} (ih : Sound env fuel) : Sound env (fuel + 1) where
  expr := by
    intro ts v rest h
    rw [evalExpr] at h
    obtain ⟨⟨w, mid⟩, ht, hs⟩ := bind_ok h
    obtain ⟨as, l, rfl, hl⟩ := ih.term ht
    obtain ⟨used, t, rfl, hd⟩ := ih.sum (.ofTerm hl) hs
    exact ⟨as ++ used, t, by simp, hd⟩
  sum := by
    intro ts v w rest as l hl h
    unfold evalSum at h
    split at h <;> try obtain rfl : fuel = _ := Nat.succ.inj ‹_›
    · contradiction
    · obtain ⟨⟨x, mid⟩, ht, hs⟩ := bind_ok h
      obtain ⟨bs, r, rfl, hr⟩ := ih.term ht
      obtain ⟨used, t, rfl, hd⟩ := ih.sum (.add hl hr) hs
      exact ⟨.op .plus :: (bs ++ used), t, by simp, by rwa [append_cons_append]⟩
    · obtain ⟨⟨x, mid⟩, ht, hs⟩ := bind_ok h
      obtain ⟨bs, r, rfl, hr⟩ := ih.term ht
      obtain ⟨used, t, rfl, hd⟩ := ih.sum (.sub hl hr) hs
      exact ⟨.op .minus :: (bs ++ used), t, by simp, by rwa [append_cons_append]⟩
    · cases h
      exact ⟨[], l, rfl, by rwa [List.append_nil]⟩
  term := by
    intro ts v rest h
    rw [evalTerm] at h
    obtain ⟨⟨w, mid⟩, ht, hs⟩ := bind_ok h
    obtain ⟨as, l, rfl, hl⟩ := ih.unary ht
    obtain ⟨used, t, rfl, hd⟩ := ih.product (.ofUnary hl) hs
    exact ⟨as ++ used, t, by simp, hd⟩
  product := by
    intro ts v w rest as l hl h
    unfold evalProduct at h
    split at h <;> try obtain rfl : fuel = _ := Nat.succ.inj ‹_›
    · contradiction
    · obtain ⟨⟨x, mid⟩, ht, hs⟩ := bind_ok h
      obtain ⟨bs, r, rfl, hr⟩ := ih.unary ht
      obtain ⟨used, t, rfl, hd⟩ := ih.product (.mul hl hr) hs
      exact ⟨.op .times :: (bs ++ used), t, by simp, by rwa [append_cons_append]⟩
    · obtain ⟨⟨x, mid⟩, ht, hs⟩ := bind_ok h
      obtain ⟨bs, r, rfl, hr⟩ := ih.unary ht
      obtain ⟨used, t, rfl, hd⟩ := ih.product (.div hl hr) hs
      exact ⟨.op .slash :: (bs ++ used), t, by simp, by rwa [append_cons_append]⟩
    · cases h
      exact ⟨[], l, rfl, by rwa [List.append_nil]⟩
  unary := by
    intro ts v rest h
    unfold evalUnary at h
    split at h <;> try obtain rfl : fuel = _ := Nat.succ.inj ‹_›
    · contradiction
    · obtain ⟨⟨x, mid⟩, ht, hs⟩ := bind_ok h
      cases hs
      obtain ⟨used, t, rfl, hd⟩ := ih.unary ht
      exact ⟨.op .minus :: used, _, rfl, .neg hd⟩
    · obtain ⟨used, t, rfl, hd⟩ := ih.unary h
      exact ⟨.op .plus :: used, _, rfl, .pos hd⟩
    · obtain ⟨used, t, rfl, hd⟩ := ih.primary h
      exact ⟨used, t, rfl, .ofPrimary hd⟩
  primary := by
    intro ts v rest h
    unfold evalPrimary at h
    split at h <;> try obtain rfl : fuel = _ := Nat.succ.inj ‹_›
    · contradiction
    · cases h
      exact ⟨[_], _, rfl, .num⟩
    · split at h
      · contradiction
      · obtain ⟨⟨x, mid⟩, ht, hrest⟩ := bind_ok h
        obtain ⟨⟨xs, mid'⟩, ha, hv⟩ := bind_ok hrest
        obtain ⟨as, l, rfl, hl⟩ := ih.expr ht
        obtain ⟨used, us, rfl, hd⟩ := ih.args (.one hl) ha
        dsimp only at hv
        split at hv
        · cases hv
          exact ⟨.name ‹String› :: .op .left :: (as ++ used) ++ [.op .right], _, by simp, .call hd⟩
        · contradiction
    · split at h
      · cases h
        exact ⟨[_], _, rfl, .name⟩
      · contradiction
    · obtain ⟨⟨x, mid⟩, ht, hv⟩ := bind_ok h
      obtain ⟨as, l, rfl, hl⟩ := ih.expr ht
      dsimp only at hv
      split at hv
      · cases hv
        exact ⟨_, _, by simp, .paren hl⟩
      · contradiction
    · contradiction
  args := by
    intro ts vs ws rest as us hus h
    unfold evalArgs at h
    split at h <;> try obtain rfl : fuel = _ := Nat.succ.inj ‹_›
    · contradiction
    · obtain ⟨⟨x, mid⟩, ht, ha⟩ := bind_ok h
      obtain ⟨bs, r, rfl, hr⟩ := ih.expr ht
      obtain ⟨used, us', rfl, hd⟩ := ih.args (.more hus hr) ha
      exact ⟨.op .comma :: (bs ++ used), us', by simp, by rwa [append_cons_append]⟩
    · cases h
      exact ⟨[], us, rfl, by rwa [List.append_nil]⟩
    · contradiction

/-- What the evaluator reads within any bound is derived. -/
theorem sound : ∀ fuel, Sound env fuel
  | 0 => sound_zero env
  | fuel + 1 => sound_succ env (sound fuel)

/-- **What has a value is a sentence.** -/
theorem derives_of_evalTokens {ts : List Token} {v : α} (h : evalTokens env ts = .ok v) :
    Sentence ts := by
  unfold evalTokens at h
  split at h
  · next he =>
    obtain ⟨used, t, rfl, hd⟩ := (sound env _).expr he
    exact ⟨t, by rwa [List.append_nil]⟩
  · contradiction
  · contradiction

end

end RecurrenceCompiler.Arith
