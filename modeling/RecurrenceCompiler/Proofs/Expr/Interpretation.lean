import RecurrenceCompiler.Proofs.Expr.Eval

/-!
# Interpretations of expressions

An interpretation leaves open what the parts of an expression stand for: it gives values of any type to
numbers, texts and calls, and any meaning to the operations. The evaluator is one of them, where a part
without a value leaves the whole without one (`Interpretation.toOption_eval`).
-/

namespace RecurrenceCompiler

open Decimal

/-- What the parts of expressions stand for. A call is known by its target and its shifts. -/
structure Interpretation (V : Type) where
  number : Float → V
  raw : String → V
  var : String → V
  index : String → V
  lookup : String → String → V
  call : Option String → List Int → V
  op : BinOp → V → V → V

namespace Interpretation

variable {V : Type} (I : Interpretation V)

/-- The value of a call. -/
def ofCall (c : Call) : V :=
  I.call c.target (c.shifts.map Whole.toInt)

/-- The sum of values from left to right. The empty sum is zero. -/
def total : List V → V
  | [] => I.number 0.0
  | v :: vs => vs.foldl (I.op .add) v

/-- The value of what a term multiplies, if the reference is bound. -/
def factor (shared : String → Option V) : Factor → Option V
  | .call c => some (I.ofCall c)
  | .ref n => shared n

mutual

/-- The value of an expression, if all its references are bound. An average of nothing has none. -/
def value (shared : String → Option V) : Expr → Option V
  | .const (.number x) => some (I.number x)
  | .const (.raw t) => some (I.raw t)
  | .var n => some (I.var n)
  | .index t => some (I.index t)
  | .lookup table i => some (I.lookup table i)
  | .ref n => shared n
  | .call c => some (I.ofCall c)
  | .binop op l r => do
    let x ← value shared l
    let y ← value shared r
    return I.op op x y
  | .term t => do
    let v ← I.factor shared t.factor
    if t.coeff.isUnit then return v
    else
      let k ← value shared t.coeff
      return I.op .mul k v
  | .sum ts => do
    let vs ← termValues shared ts
    return I.total vs
  | .scaled inner scale division => do
    let x ← value shared inner
    let k ← value shared scale
    return I.op (if division then .div else .mul) x k
  | .average bs scale => do
    let vs ← values shared bs
    if vs.isEmpty then none
    else
      let k ← value shared scale
      return I.op .mul (I.total vs) k

/-- The values of terms. -/
def termValues (shared : String → Option V) : List (Term Expr) → Option (List V)
  | [] => some []
  | t :: ts => do
    let v ← I.factor shared t.factor
    let v ←
      if t.coeff.isUnit then some v
      else do
        let k ← value shared t.coeff
        some (I.op .mul k v)
    let vs ← termValues shared ts
    return v :: vs

/-- The values of expressions. -/
def values (shared : String → Option V) : List Expr → Option (List V)
  | [] => some []
  | e :: es => do
    let v ← value shared e
    let vs ← values shared es
    return v :: vs

end

/-! ## Values of sums and averages -/

section
variable {I} {shared : String → Option V}

theorem termValues_eq (ts : List (Term Expr)) :
    I.termValues shared ts = ts.mapM fun t => I.value shared (.term t) := by
  induction ts with
  | nil => rfl
  | cons t ts ih =>
    rw [termValues, List.mapM_cons, ih, value]
    cases I.factor shared t.factor with
    | none => rfl
    | some v =>
      cases t.coeff.isUnit with
      | true => rfl
      | false =>
        cases I.value shared t.coeff <;> rfl

theorem values_eq (es : List Expr) : I.values shared es = es.mapM (I.value shared) := by
  induction es with
  | nil => rfl
  | cons e es ih => rw [values, List.mapM_cons, ih]

theorem value_sum (ts : List (Term Expr)) :
    I.value shared (.sum ts) = (ts.mapM fun t => I.value shared (.term t)).map I.total := by
  rw [value, termValues_eq]
  cases ts.mapM fun t => I.value shared (.term t) <;> rfl

/-- Reading part by part, in the list or in its image, gives the same. -/
theorem mapM_eq_of_map {α β γ : Type} {f : α → Option γ} {g : β → Option γ} {h : α → β} {xs : List α}
    (heq : ∀ x ∈ xs, g (h x) = f x) : (xs.map h).mapM g = xs.mapM f := by
  induction xs with
  | nil => rfl
  | cons x xs ih =>
    rw [List.map_cons, List.mapM_cons, List.mapM_cons, heq x (by simp), ih fun y hy => heq y (by simp [hy])]

/-- If every part has a value, the list has one. -/
theorem exists_mapM {α β : Type} {f : α → Option β} {xs : List α} (h : ∀ x ∈ xs, ∃ y, f x = some y) :
    ∃ ys, xs.mapM f = some ys ∧ ys.length = xs.length := by
  induction xs with
  | nil => exact ⟨[], rfl, rfl⟩
  | cons x xs ih =>
    obtain ⟨y, hy⟩ := h x (by simp)
    obtain ⟨ys, hys, hlen⟩ := ih fun z hz => h z (by simp [hz])
    exact ⟨y :: ys, by rw [List.mapM_cons, hy, hys]; rfl, by simp [hlen]⟩

end

/-! ## The evaluator as an interpretation -/

section
variable {α : Type} [Carrier α]

/-- Texts are evaluated as arithmetic. A part without a value leaves the whole without one. -/
def ofScope (s : Scope α) (call : Option String → List Int → Option α) : Interpretation (Option α) where
  number x := some (Carrier.ofFloat x)
  raw t := (Arith.eval s.value t).toOption
  var n := (Arith.eval s.value n).toOption
  index t := (Arith.eval s.value t).toOption
  lookup table i := (Expr.evalLookup s table i).toOption
  call := call
  op o x y := do
    let x ← x
    let y ← y
    return o.apply x y

variable {s : Scope α} {call : Option String → List Int → Option α}

theorem toOption_bind {ε β γ : Type} (x : Except ε β) (f : β → Except ε γ) :
    (x >>= f).toOption = x.toOption.bind fun b => (f b).toOption := by
  cases x <;> rfl

/-- A sum has a value if all its parts have. -/
theorem total_ofScope (vs : List (Option α)) :
    (ofScope s call).total vs = (vs.mapM id).map RecurrenceCompiler.total := by
  have hfold (vs : List (Option α)) (x : Option α) : vs.foldl ((ofScope s call).op .add) x =
      x.bind fun x => (vs.mapM id).map (·.foldl Carrier.add x) := by
    induction vs generalizing x with
    | nil => cases x <;> rfl
    | cons v vs ih =>
      rw [List.foldl_cons, ih, List.mapM_cons]
      cases x with
      | none => rfl
      | some x =>
        cases v with
        | none => rfl
        | some v =>
          simp only [id_eq, Option.bind_eq_bind, Option.bind_some]
          cases vs.mapM id <;> rfl
  cases vs with
  | nil => rfl
  | cons v vs =>
    rw [total, hfold, List.mapM_cons]
    cases v with
    | none => rfl
    | some v =>
      simp only [id_eq, Option.bind_eq_bind, Option.bind_some]
      cases vs.mapM id <;> rfl

omit [Carrier α] in
/-- The values of a list are all there if each part has one. -/
theorem mapM_join {β : Type} {f : β → Option (Option α)} (xs : List β) :
    (xs.mapM f).bind (·.mapM id) = xs.mapM fun x => (f x).join := by
  induction xs with
  | nil => rfl
  | cons x xs ih =>
    rw [List.mapM_cons, List.mapM_cons, ← ih]
    cases f x with
    | none => rfl
    | some v =>
      cases v with
      | none => cases xs.mapM f <;> rfl
      | some v =>
        cases xs.mapM f with
        | none => rfl
        | some vs => simp [List.mapM_cons]

variable {call' : Call → Except Error α}

theorem toOption_evalFactor {f : Factor}
    (hcall : ∀ c, f = .call c → (call' c).toOption = call c.target (c.shifts.map Whole.toInt)) :
    (Expr.evalFactor s call' f).toOption =
      ((ofScope s call).factor (fun n => (s.shared n).map some) f).join := by
  cases f with
  | call c => exact hcall c rfl
  | ref n =>
    simp only [Expr.evalFactor, orThrow_eq, Expr.evalRef, factor]
    cases s.shared n <;> rfl

theorem evalTerms_eq (ts : List (Term Expr)) :
    Expr.evalTerms s call' ts = ts.mapM fun t => Expr.eval s call' (.term t) := by
  induction ts with
  | nil => rfl
  | cons t ts ih =>
    rw [Expr.evalTerms, List.mapM_cons, ih, Expr.eval]
    cases Expr.evalFactor s call' t.factor with
    | error e => rfl
    | ok v =>
      cases t.coeff.isUnit with
      | true => rfl
      | false => cases t.coeff.eval s call' <;> rfl

theorem evalList_eq (es : List Expr) : Expr.evalList s call' es = es.mapM (Expr.eval s call') := by
  induction es with
  | nil => rfl
  | cons e es ih => rw [Expr.evalList, List.mapM_cons, ih]

theorem toOption_mapM {ε β γ : Type} (f : β → Except ε γ) (xs : List β) :
    (xs.mapM f).toOption = xs.mapM fun x => (f x).toOption := by
  induction xs with
  | nil => rfl
  | cons x xs ih =>
    rw [List.mapM_cons, List.mapM_cons, toOption_bind, ← ih]
    cases f x with
    | error e => rfl
    | ok y => cases xs.mapM f <;> rfl

omit [Carrier α] in
/-- The values of parts, from those of the evaluator. -/
theorem toOption_mapM_eq {β : Type} {f : β → Except Error α} {g : β → Option (Option α)}
    (xs : List β) (h : ∀ x ∈ xs, (f x).toOption = (g x).join) :
    (xs.mapM f).toOption = (xs.mapM g).bind (·.mapM id) := by
  rw [toOption_mapM, mapM_join]
  simpa using mapM_eq_of_map (h := id) fun x hx => h x hx

omit [Carrier α] in
/-- The value of an operation, from the values of its operands. -/
theorem toOption_both {x y : Except Error α} {X Y : Option (Option α)} (hx : x.toOption = X.join)
    (hy : y.toOption = Y.join) (f : α → α → α) {F : Option α → Option α → Option α}
    (hF : ∀ X Y, F X Y = X.bind fun a => Y.map (f a)) :
    (x >>= fun a => y >>= fun b => pure (f a b)).toOption =
      (X >>= fun a => Y >>= fun b => pure (F a b)).join := by
  obtain rfl : F = fun X Y => X.bind fun a => Y.map (f a) := funext fun X => funext fun Y => hF X Y
  rw [toOption_bind, hx]
  rcases X with _ | _ | a
  · rfl
  · cases Y <;> rfl
  · rw [Option.join_some, Option.bind_some, toOption_bind, hy]
    rcases Y with _ | _ | b <;> rfl

theorem op_ofScope (o : BinOp) (X Y : Option α) :
    (ofScope s call).op o X Y = X.bind fun a => Y.map (o.apply a) := by
  cases X <;> cases Y <;> rfl

theorem toOption_evalTerm {t : Term Expr}
    (hcall : ∀ c, t.factor = .call c → (call' c).toOption = call c.target (c.shifts.map Whole.toInt))
    (hcoeff : (t.coeff.eval s call').toOption =
      ((ofScope s call).value (fun n => (s.shared n).map some) t.coeff).join) :
    ((Expr.term t).eval s call').toOption =
      ((ofScope s call).value (fun n => (s.shared n).map some) (.term t)).join := by
  have hfactor := toOption_evalFactor (s := s) hcall
  rw [Expr.eval, value]
  cases t.coeff.isUnit with
  | true =>
    rw [toOption_bind, hfactor]
    rcases (ofScope s call).factor (fun n => (s.shared n).map some) t.factor with _ | _ | v <;> rfl
  | false =>
    refine toOption_both hfactor hcoeff (fun v k => Carrier.mul k v) fun X Y => ?_
    rw [op_ofScope]
    cases X <;> cases Y <;> rfl

/-- **The evaluator is one of the interpretations**, errors aside. -/
theorem toOption_eval {e : Expr}
    (hcall : ∀ c ∈ e.calls, (call' c).toOption = call c.target (c.shifts.map Whole.toInt)) :
    (e.eval s call').toOption =
      ((ofScope s call).value (fun n => (s.shared n).map some) e).join := by
  have hterm {t : Term Expr} (hcalls : ∀ c ∈ Expr.termCalls t, (call' c).toOption =
      call c.target (c.shifts.map Whole.toInt)) : ∀ c, t.factor = .call c →
      (call' c).toOption = call c.target (c.shifts.map Whole.toInt) :=
    fun c hc => hcalls c (by simp [Expr.termCalls, hc, Factor.call?])
  induction e using Expr.induction with
  | const c => cases c <;> simp [Expr.eval, value, ofScope, Except.toOption, pure, Except.pure]
  | var n => simp [Expr.eval, value, ofScope]
  | index t => simp [Expr.eval, value, ofScope]
  | lookup t i => simp [Expr.eval, value, ofScope]
  | ref n =>
    rw [Expr.eval, orThrow_eq, Expr.evalRef, value]
    cases s.shared n <;> rfl
  | call c => exact hcall c (by simp)
  | binop op l r ihl ihr =>
    rw [Expr.eval, value]
    exact toOption_both (ihl fun c hc => hcall c (by simp [hc])) (ihr fun c hc => hcall c (by simp [hc]))
      op.apply (op_ofScope op)
  | term t iht =>
    rw [Expr.calls_term] at hcall
    exact toOption_evalTerm (hterm hcall) (iht fun c hc => hcall c (by simp [Expr.termCalls, hc]))
  | sum ts iht =>
    rw [Expr.calls_sum] at hcall
    have hvalues := toOption_mapM_eq ts (f := fun t => Expr.eval s call' (.term t))
      (g := fun t => (ofScope s call).value (fun n => (s.shared n).map some) (.term t)) fun t ht => by
        have hcalls : ∀ c ∈ Expr.termCalls t, _ := fun c hc =>
          hcall c (List.mem_flatMap.2 ⟨t, ht, hc⟩)
        exact toOption_evalTerm (hterm hcalls) (iht t ht fun c hc => hcalls c (by simp [Expr.termCalls, hc]))
    rw [Expr.eval, value_sum, evalTerms_eq, toOption_bind, hvalues]
    cases ts.mapM fun t => (ofScope s call).value (fun n => (s.shared n).map some) (.term t) with
    | none => rfl
    | some vs =>
      simp only [Option.bind_some, Option.map_some, Option.join_some, total_ofScope]
      cases vs.mapM id <;> rfl
  | scaled inner scale division ihi ihs =>
    rw [Expr.eval, value]
    refine toOption_both (ihi fun c hc => hcall c (by simp [hc])) (ihs fun c hc => hcall c (by simp [hc]))
      (fun x k => if division then Carrier.div x k else Carrier.mul x k) fun X Y => ?_
    rw [op_ofScope]
    cases division <;> rfl
  | average branches scale ihb ihs =>
    have hvalues := toOption_mapM_eq branches fun b hb => ihb b hb fun c hc =>
      hcall c (by simp only [Expr.calls_average, List.mem_append, List.mem_flatMap]; exact .inl ⟨b, hb, hc⟩)
    have hscale := ihs fun c hc => hcall c (by simp [hc])
    rw [Expr.eval, value, evalList_eq, values_eq, toOption_bind, hvalues]
    rcases branches.mapM ((ofScope s call).value fun n => (s.shared n).map some) with _ | _ | ⟨v, vs⟩
    · rfl
    · rfl
    · simp only [Option.bind_some, Option.bind_eq_bind, List.isEmpty_cons, Bool.false_eq_true, if_false,
        total_ofScope, op_ofScope]
      rcases hws : (v :: vs).mapM id with _ | _ | ⟨w, ws⟩
      · cases (ofScope s call).value (fun n => (s.shared n).map some) scale <;> rfl
      · rw [List.mapM_cons] at hws
        obtain ⟨w, -, hws⟩ := Option.bind_eq_some_iff.1 hws
        obtain ⟨ws, -, hws⟩ := Option.bind_eq_some_iff.1 hws
        cases hws
      · simp only [Option.bind_some, List.isEmpty_cons, Bool.false_eq_true, if_false, Option.map_some,
          toOption_bind, hscale]
        rcases (ofScope s call).value (fun n => (s.shared n).map some) scale with _ | _ | k <;> rfl

end
end Interpretation

end RecurrenceCompiler
