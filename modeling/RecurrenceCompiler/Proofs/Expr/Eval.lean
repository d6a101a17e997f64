import RecurrenceCompiler.Expr.Eval
import RecurrenceCompiler.Proofs.Arith.Grammar

/-!
# Evaluating expressions

An expression is evaluated in any computation that can fail. A relation between two computations that
one step after the other keeps (`Expr.Relates`) holds between the values of an expression if it holds
between those of its calls (`Expr.Relates.eval`). So what the value is depends on the calls only
(`eval_congr`), and if a computation with a state simulates plain results call by call, it does so for
the expression (`simulates_eval`).
-/

namespace RecurrenceCompiler

open Arith

/-! ## Induction over expressions -/

/-- An expression is built from its parts. -/
@[elab_as_elim]
theorem Expr.induction {P : Expr → Prop} (const : ∀ c, P (.const c)) (var : ∀ n, P (.var n))
    (index : ∀ t, P (.index t)) (lookup : ∀ t i, P (.lookup t i)) (ref : ∀ n, P (.ref n))
    (call : ∀ c, P (.call c)) (binop : ∀ op l r, P l → P r → P (.binop op l r))
    (term : ∀ t : Term Expr, P t.coeff → P (.term t))
    (sum : ∀ ts : List (Term Expr), (∀ t ∈ ts, P t.coeff) → P (.sum ts))
    (scaled : ∀ inner scale division, P inner → P scale → P (.scaled inner scale division))
    (average : ∀ branches scale, (∀ b ∈ branches, P b) → P scale → P (.average branches scale))
    (e : Expr) : P e := by
  refine @Expr.rec P (fun t => P t.coeff) (fun ts => ∀ t ∈ ts, P t.coeff) (fun es => ∀ e ∈ es, P e)
    const var index lookup ref call binop term sum scaled average (fun _ _ h => h) ?_ ?_ ?_ ?_ e
  · simp
  · exact fun t ts ht hts => List.forall_mem_cons.2 ⟨ht, hts⟩
  · simp
  · exact fun e es he hes => List.forall_mem_cons.2 ⟨he, hes⟩

namespace Expr

/-! ## Leaves -/

theorem leaves_sum (ts : List (Term Expr)) :
    (Expr.sum ts).leaves = ts.flatMap fun t => (Expr.term t).leaves := by
  rw [leaves]
  induction ts with
  | nil => rfl
  | cons t ts ih => rw [leavesOfTerms, ih, List.flatMap_cons, leaves]

theorem leaves_average (bs : List Expr) (scale : Expr) :
    (Expr.average bs scale).leaves = bs.flatMap leaves ++ scale.leaves := by
  rw [leaves]
  congr 1
  induction bs with
  | nil => rfl
  | cons b bs ih => rw [leavesOfList, ih, List.flatMap_cons]

theorem leaves_term_subset {ts : List (Term Expr)} {t : Term Expr} (h : t ∈ ts) :
    (Expr.term t).leaves ⊆ (Expr.sum ts).leaves := fun l hl => by
  rw [leaves_sum]
  exact List.mem_flatMap.2 ⟨t, h, hl⟩

theorem leaves_branch_subset {bs : List Expr} {scale b : Expr} (h : b ∈ bs) :
    b.leaves ⊆ (Expr.average bs scale).leaves := fun l hl => by
  rw [leaves_average]
  exact List.mem_append_left _ (List.mem_flatMap.2 ⟨b, h, hl⟩)

/-! ## Calls -/

/-- The calls of a term: those of its coefficient, then its own. -/
def termCalls (t : Term Expr) : List Call :=
  t.coeff.calls ++ t.factor.call?.toList

theorem filterMap_factor (f : Factor) : [f.expr].filterMap call? = f.call?.toList := by
  cases f <;> rfl

@[simp] theorem calls_call (c : Call) : (Expr.call c).calls = [c] := rfl

@[simp] theorem calls_binop (op : BinOp) (l r : Expr) :
    (Expr.binop op l r).calls = l.calls ++ r.calls :=
  List.filterMap_append

@[simp] theorem calls_term (t : Term Expr) : (Expr.term t).calls = termCalls t :=
  List.filterMap_append.trans (congrArg (t.coeff.calls ++ ·) (filterMap_factor t.factor))

@[simp] theorem calls_sum (ts : List (Term Expr)) : (Expr.sum ts).calls = ts.flatMap termCalls := by
  rw [calls, leaves_sum, List.filterMap_flatMap]
  exact List.flatMap_congr fun t _ => calls_term t

@[simp] theorem calls_scaled (inner scale : Expr) (division : Bool) :
    (Expr.scaled inner scale division).calls = inner.calls ++ scale.calls :=
  List.filterMap_append

@[simp] theorem calls_average (bs : List Expr) (scale : Expr) :
    (Expr.average bs scale).calls = bs.flatMap calls ++ scale.calls := by
  rw [calls, leaves_average, List.filterMap_append, List.filterMap_flatMap]
  rfl

end Expr

/-! ## Evaluation in two computations -/

/-- A plain result is thrown or returned as it is. -/
@[simp] theorem orThrow_eq {β : Type} (r : Except Error β) : (orThrow r : Except Error β) = r := by
  cases r <;> rfl

namespace Expr

section
variable {α : Type} [Carrier α] {s : Scope α} {m m' : Type → Type} [Monad m] [MonadExceptOf Error m]
  [Monad m'] [MonadExceptOf Error m']

/-- What the leaves of an expression that are no calls come to. -/
inductive LeafResult (s : Scope α) : Except Error α → Prop where
  | text (t : String) : LeafResult s (Arith.eval s.value t)
  | lookup (table index : String) : LeafResult s (evalLookup s table index)
  | ref (n : String) : LeafResult s (evalRef s n)

/-- A relation between computations that one step of evaluation after the other keeps. -/
structure Relates (s : Scope α) (R : (β : Type) → m β → m' β → Prop) : Prop where
  pure {β : Type} (b : β) : R β (pure b) (pure b)
  bind {β γ : Type} {f : m β} {g : m' β} {f' : β → m γ} {g' : β → m' γ} :
    R β f g → (∀ b, R γ (f' b) (g' b)) → R γ (f >>= f') (g >>= g')
  leaf {x : Except Error α} : LeafResult s x → R α (orThrow x) (orThrow x)
  /-- An average without branches fails. -/
  noBranch {β : Type} : R β (throw (.fault (.readOfUndefined "tag")))
    (throw (.fault (.readOfUndefined "tag")))

variable {R : (β : Type) → m β → m' β → Prop} {call : Call → m α} {call' : Call → m' α}

theorem Relates.evalFactor (hR : Relates s R) {f : Factor}
    (h : ∀ c ∈ f.call?.toList, R α (call c) (call' c)) :
    R α (evalFactor s call f) (evalFactor s call' f) := by
  cases f with
  | call c => exact h c (by simp [Factor.call?])
  | ref n => exact hR.leaf (.ref n)

/-- **Evaluation is related if the calls are.** -/
theorem Relates.eval (hR : Relates s R) (call : Call → m α) (call' : Call → m' α) (e : Expr)
    (h : ∀ c ∈ e.calls, R α (call c) (call' c)) : R α (e.eval s call) (e.eval s call') := by
  induction e using Expr.induction with
  | const c =>
    cases c with
    | number x => exact hR.pure _
    | raw t => exact hR.leaf (.text t)
  | var n => exact hR.leaf (.text n)
  | index t => exact hR.leaf (.text t)
  | lookup t i => exact hR.leaf (.lookup t i)
  | ref n => exact hR.leaf (.ref n)
  | call c => exact h c (by simp)
  | binop op l r ihl ihr =>
    rw [calls_binop, List.forall_mem_append] at h
    exact hR.bind (ihl h.1) fun x => hR.bind (ihr h.2) fun y => hR.pure _
  | term t ih =>
    rw [calls_term, termCalls, List.forall_mem_append] at h
    refine hR.bind (hR.evalFactor h.2) fun v => ?_
    split
    · exact hR.pure v
    · exact hR.bind (ih h.1) fun k => hR.pure _
  | sum ts ih =>
    rw [calls_sum] at h
    suffices hterms : R _ (evalTerms s call ts) (evalTerms s call' ts) from
      hR.bind hterms fun vs => hR.pure _
    induction ts with
    | nil => exact hR.pure _
    | cons t ts ihts =>
      rw [List.flatMap_cons, List.forall_mem_append, termCalls, List.forall_mem_append] at h
      obtain ⟨iht, ih⟩ := List.forall_mem_cons.1 ih
      have hrest (w : α) := hR.bind (ihts ih h.2) fun vs => hR.pure (w :: vs)
      refine hR.bind (hR.evalFactor h.1.2) fun v => ?_
      dsimp only
      split
      · exact hR.bind (hR.pure v) hrest
      · exact hR.bind (iht h.1.1) fun k => hR.bind (hR.pure _) hrest
  | scaled inner scale division ihi ihs =>
    rw [calls_scaled, List.forall_mem_append] at h
    exact hR.bind (ihi h.1) fun x => hR.bind (ihs h.2) fun k => hR.pure _
  | average bs scale ihbs ihs =>
    rw [calls_average, List.forall_mem_append] at h
    suffices hlist : R _ (evalList s call bs) (evalList s call' bs) by
      refine hR.bind hlist fun vs => ?_
      have hscale := hR.bind (ihs h.2) fun k => hR.pure (Carrier.mul (total vs) k)
      cases vs.isEmpty with
      | true => exact hR.bind hR.noBranch fun _ => hscale
      | false => exact hscale
    obtain ⟨h, -⟩ := h
    induction bs with
    | nil => exact hR.pure _
    | cons b bs ihbs' =>
      rw [List.flatMap_cons, List.forall_mem_append] at h
      obtain ⟨ihb, ihbs⟩ := List.forall_mem_cons.1 ihbs
      exact hR.bind (ihb h.1) fun v => hR.bind (ihbs' ihbs h.2) fun vs => hR.pure _

end

end Expr

/-! ## Computations with a state -/

/-- A computation with a state agrees with a plain result: what it returns is the result, and it
returns one if there is one, unless it runs out of depth where it may. -/
def Simulates {σ β : Type} (Inv : σ → Prop) (Deep : Prop) (f : StateT σ (Except Error) β)
    (g : Except Error β) : Prop :=
  ∀ m, Inv m → (∀ b m', f.run m = .ok (b, m') → g = .ok b ∧ Inv m') ∧
    ∀ b, g = .ok b → (∃ m', f.run m = .ok (b, m')) ∨ Deep ∧ f.run m = .error (.fault .tooDeep)

section
variable {σ β γ : Type} {Inv : σ → Prop} {Deep : Prop}

theorem Simulates.pure (b : β) : Simulates Inv Deep (pure b) (.ok b) := by
  refine fun m hm => ⟨fun b' m' h => ?_, fun b' h => ?_⟩
  · cases h
    exact ⟨rfl, hm⟩
  · cases h
    exact .inl ⟨m, rfl⟩

/-- A result that is given needs no state. -/
theorem Simulates.orThrow (r : Except Error β) : Simulates Inv Deep (orThrow r) r := by
  cases r with
  | ok b => exact .pure b
  | error e =>
    refine fun m hm => ⟨fun b m' h => ?_, fun b h => ?_⟩
    · cases h
    · cases h

/-- Only what is returned counts. -/
theorem Simulates.congr {f : StateT σ (Except Error) β} {g g' : Except Error β}
    (h : Simulates Inv Deep f g) (heq : ∀ b, g = .ok b ↔ g' = .ok b) : Simulates Inv Deep f g' := by
  intro m hm
  obtain ⟨hsound, hcomplete⟩ := h m hm
  refine ⟨fun b m' hrun => ?_, fun b hb => hcomplete b ((heq b).2 hb)⟩
  obtain ⟨hb, hm'⟩ := hsound b m' hrun
  exact ⟨(heq b).1 hb, hm'⟩

theorem Simulates.bind {f : StateT σ (Except Error) β} {g : Except Error β}
    {f' : β → StateT σ (Except Error) γ} {g' : β → Except Error γ} (h : Simulates Inv Deep f g)
    (h' : ∀ b, g = .ok b → Simulates Inv Deep (f' b) (g' b)) :
    Simulates Inv Deep (f >>= f') (g >>= g') := by
  intro m hm
  obtain ⟨hsound, hcomplete⟩ := h m hm
  constructor
  · intro c m' hrun
    obtain ⟨⟨b, m₁⟩, hb, hc⟩ := bind_ok hrun
    obtain ⟨hg, hm₁⟩ := hsound b m₁ hb
    obtain ⟨hg', hm'⟩ := (h' b hg m₁ hm₁).1 c m' hc
    exact ⟨by rw [hg]; exact hg', hm'⟩
  · intro c hc
    obtain ⟨b, hb, hc⟩ := bind_ok hc
    rw [StateT.run_bind]
    rcases hcomplete b hb with ⟨m₁, hrun⟩ | ⟨hdeep, hrun⟩
    · have hm₁ := (hsound b m₁ hrun).2
      rw [hrun]
      exact (h' b hb m₁ hm₁).2 c hc
    · rw [hrun]
      exact .inr ⟨hdeep, rfl⟩

/-- What follows a computation may change the state only. -/
theorem Simulates.followed {f : StateT σ (Except Error) β} {g : Except Error β}
    {f' : β → StateT σ (Except Error) β} (h : Simulates Inv Deep f g)
    (h' : ∀ b, g = .ok b → Simulates Inv Deep (f' b) (.ok b)) : Simulates Inv Deep (f >>= f') g := by
  refine (h.bind h').congr fun b => ?_
  cases g <;> rfl

end

namespace Expr

/-- **An expression is simulated if its calls are.** -/
theorem simulates_eval {σ α : Type} [Carrier α] {Inv : σ → Prop} {Deep : Prop} {s : Scope α}
    {call : Call → StateT σ (Except Error) α} {call' : Call → Except Error α} (e : Expr)
    (h : ∀ c ∈ e.calls, Simulates Inv Deep (call c) (call' c)) :
    Simulates Inv Deep (e.eval s call) (e.eval s call') := by
  have hR : Relates s fun β (f : StateT σ (Except Error) β) g => Simulates Inv Deep f g := {
    pure := Simulates.pure
    bind := fun h h' => h.bind fun b _ => h' b
    leaf := fun {x} _ => by
      rw [orThrow_eq]
      exact .orThrow x
    noBranch := .orThrow (.error _) }
  exact hR.eval call call' e h

/-! ## What a value depends on -/

section
variable {α : Type} [Carrier α] {s : Scope α}

/-- **The value of an expression depends on its calls only.** -/
theorem eval_congr {m : Type → Type} [Monad m] [MonadExceptOf Error m] {call call' : Call → m α}
    (e : Expr) (h : ∀ c ∈ e.calls, call c = call' c) : e.eval s call = e.eval s call' := by
  have hR : Relates s fun β (f : m β) g => f = g := {
    pure := fun _ => rfl
    bind := fun h h' => by rw [h, funext h']
    leaf := fun _ => rfl
    noBranch := rfl }
  exact hR.eval call call' e h

section
variable {call : Call → Except Error α}

/-- The leaves of an expression have values where it has one. -/
def NeedsLeaves (s : Scope α) (call : Call → Except Error α) (e : Expr) : Prop :=
  ∀ {x}, e.eval s call = .ok x → ∀ l ∈ e.leaves, ∃ v, l.eval s call = .ok v

/-- What a term multiplies is a leaf. -/
theorem exists_ok_of_evalFactor {f : Factor} {v : α} (h : evalFactor s call f = .ok v) :
    ∃ v, f.expr.eval s call = .ok v := by
  cases f with
  | call c => exact ⟨v, h⟩
  | ref n => exact ⟨v, h⟩

/-- A coefficient is passed over only if it is one, and then it is a leaf with a value. -/
theorem NeedsLeaves.of_coeff {coeff : Expr} (h : NeedsLeaves s call coeff) {β : Type} {x : β}
    {g : Except Error β} {k : α → Except Error β}
    (heval : (if coeff.isUnit then g else coeff.eval s call >>= k) = .ok x) :
    ∀ l ∈ coeff.leaves, ∃ v, l.eval s call = .ok v := by
  split at heval
  · next hunit =>
    cases coeff with
    | const c =>
      cases c with
      | number x => exact h rfl
      | raw t => cases hunit
    | _ => cases hunit
  · obtain ⟨v, hv, -⟩ := bind_ok heval
    exact h hv

theorem exists_ok_of_evalTerms {ts : List (Term Expr)} (h : ∀ t ∈ ts, NeedsLeaves s call t.coeff)
    {vs : List α} (heval : evalTerms s call ts = .ok vs) :
    ∀ l ∈ ts.flatMap fun t => (Expr.term t).leaves, ∃ v, l.eval s call = .ok v := by
  induction ts generalizing vs with
  | nil => simp
  | cons t ts ih =>
    obtain ⟨ht, hts⟩ := List.forall_mem_cons.1 h
    obtain ⟨v, hv, heval⟩ := bind_ok heval
    rw [List.flatMap_cons, List.forall_mem_append, leaves, List.forall_mem_append]
    refine ⟨⟨ht.of_coeff heval, by simpa using exists_ok_of_evalFactor hv⟩, ?_⟩
    dsimp only at heval
    split at heval
    · obtain ⟨w, -, heval⟩ := bind_ok heval
      obtain ⟨ws, hws, -⟩ := bind_ok heval
      exact ih hts hws
    · obtain ⟨k, -, heval⟩ := bind_ok heval
      obtain ⟨w, -, heval⟩ := bind_ok heval
      obtain ⟨ws, hws, -⟩ := bind_ok heval
      exact ih hts hws

theorem exists_ok_of_evalList {bs : List Expr} (h : ∀ b ∈ bs, NeedsLeaves s call b) {vs : List α}
    (heval : evalList s call bs = .ok vs) : ∀ l ∈ bs.flatMap leaves, ∃ v, l.eval s call = .ok v := by
  induction bs generalizing vs with
  | nil => simp
  | cons b bs ih =>
    obtain ⟨hb, hbs⟩ := List.forall_mem_cons.1 h
    obtain ⟨v, hv, heval⟩ := bind_ok heval
    obtain ⟨ws, hws, -⟩ := bind_ok heval
    rw [List.flatMap_cons, List.forall_mem_append]
    exact ⟨hb hv, ih hbs hws⟩

/-- **An expression has a value only if its leaves have.** -/
theorem needsLeaves (e : Expr) : NeedsLeaves s call e := by
  intro x h
  induction e using Expr.induction generalizing x with
  | const c => simpa [leaves] using ⟨x, h⟩
  | var n | index t | lookup t i | ref n | call c => simpa [leaves] using ⟨x, h⟩
  | binop op l r ihl ihr =>
    obtain ⟨y, hl, h⟩ := bind_ok h
    obtain ⟨z, hr, -⟩ := bind_ok h
    rw [leaves, List.forall_mem_append]
    exact ⟨ihl hl, ihr hr⟩
  | term t ih =>
    obtain ⟨v, hv, h⟩ := bind_ok h
    rw [leaves, List.forall_mem_append]
    exact ⟨NeedsLeaves.of_coeff ih h, by simpa using exists_ok_of_evalFactor hv⟩
  | sum ts ih =>
    obtain ⟨vs, hvs, -⟩ := bind_ok h
    rw [leaves_sum]
    exact exists_ok_of_evalTerms ih hvs
  | scaled inner scale division ihi ihs =>
    obtain ⟨y, hy, h⟩ := bind_ok h
    obtain ⟨z, hz, -⟩ := bind_ok h
    rw [leaves, List.forall_mem_append]
    exact ⟨ihi hy, ihs hz⟩
  | average bs scale ihbs ihs =>
    obtain ⟨vs, hvs, h⟩ := bind_ok h
    rw [leaves_average, List.forall_mem_append]
    refine ⟨exists_ok_of_evalList ihbs hvs, ?_⟩
    cases hempty : vs.isEmpty with
    | true =>
      rw [hempty] at h
      cases h
    | false =>
      rw [hempty] at h
      obtain ⟨k, hk, -⟩ := bind_ok h
      exact ihs hk

/-- The calls of an expression have values where it has one. -/
theorem needsCalls (e : Expr) {x : α} (h : e.eval s call = .ok x) :
    ∀ c ∈ e.calls, ∃ v, call c = .ok v := by
  intro c hc
  obtain ⟨l, hl, hcall⟩ := List.mem_filterMap.1 hc
  cases l with
  | call c' =>
    cases hcall
    exact needsLeaves e h _ hl
  | _ => cases hcall

end

end

end Expr

end RecurrenceCompiler
