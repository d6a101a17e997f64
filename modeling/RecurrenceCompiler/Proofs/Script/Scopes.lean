import RecurrenceCompiler.Proofs.Arith.Grammar
import RecurrenceCompiler.Script.Run

/-!
# Names in running functions

A statement gives new values to names that are in scope and leaves the scope otherwise as it is, so a
name keeps its value while others are assigned (`Locals.find?_assign_of_ne`) and past the end of a block
that does not declare it (`Locals.find?_leave`).
-/

namespace RecurrenceCompiler.Script

open Arith

namespace Locals

variable {α : Type} {s inner outer : Locals α} {n m : String} {v : Value α}

/-- The names in scope, the innermost first. -/
def names (s : Locals α) : List String :=
  s.map (·.name)

@[simp] theorem names_cons (b : Binding α) (s : Locals α) : names (b :: s) = b.name :: s.names := rfl

@[simp] theorem names_enter (s : Locals α) (ns : List String) : (s.enter ns).names = ns ++ s.names := by
  simp [names, enter, Function.comp_def]

@[simp] theorem names_assign (n : String) (v : Value α) (s : Locals α) : (assign n v s).names = s.names := by
  induction s with
  | nil => rfl
  | cons b s ih =>
    rw [assign]
    split
    · next h => simp [eq_of_beq h]
    · rw [names_cons, names_cons, ih]

theorem find?_cons_self (b : Binding α) (s : Locals α) : find? (b :: s) b.name = some b :=
  List.find?_cons_of_pos (beq_self_eq_true b.name)

theorem find?_cons_of_ne {b : Binding α} (h : b.name ≠ n) (s : Locals α) : find? (b :: s) n = s.find? n :=
  List.find?_cons_of_neg (by simpa using h)

theorem mem_names_of_find? {b : Binding α} (h : s.find? n = some b) : n ∈ s.names := by
  have hname : b.name = n := by simpa using List.find?_some h
  exact hname ▸ List.mem_map_of_mem (List.mem_of_find?_eq_some h)

theorem find?_eq_none (h : n ∉ s.names) : s.find? n = none := by
  cases hb : s.find? n with
  | none => rfl
  | some b => exact absurd (mem_names_of_find? hb) h

/-- A name that is assigned has the new value. -/
theorem find?_assign_self (h : n ∈ s.names) : (assign n v s).find? n = some ⟨n, some v⟩ := by
  induction s with
  | nil => cases h
  | cons b s ih =>
    rw [assign]
    split
    · exact find?_cons_self _ s
    · next hne =>
      have hne : b.name ≠ n := by simpa using hne
      rw [find?_cons_of_ne hne, ih ((List.mem_cons.1 h).resolve_left (Ne.symm hne))]

/-- Other names keep their values. -/
theorem find?_assign_of_ne (h : m ≠ n) : (assign n v s).find? m = s.find? m := by
  induction s with
  | nil => rfl
  | cons b s ih =>
    rw [assign]
    split
    · next heq =>
      have heq : b.name = n := eq_of_beq heq
      rw [find?_cons_of_ne (fun h' => h h'.symm), find?_cons_of_ne (fun h' => h (h'.symm.trans heq))]
    · by_cases hm : b.name = m
      · rw [← hm, find?_cons_self, find?_cons_self]
      · rw [find?_cons_of_ne hm, find?_cons_of_ne hm, ih]

theorem find?_append_of_notMem (h : m ∉ inner.names) : find? (inner ++ outer) m = outer.find? m := by
  induction inner with
  | nil => rfl
  | cons b inner ih =>
    rw [names_cons, List.mem_cons, not_or] at h
    exact (find?_cons_of_ne (Ne.symm h.1) _).trans (ih h.2)

/-- A block hides no names but those that it declares. -/
theorem find?_enter {ns : List String} (h : m ∉ ns) : (s.enter ns).find? m = s.find? m := by
  refine find?_append_of_notMem ?_
  simpa [names, Function.comp_def] using h

/-- Names that a block does not declare are after it what they were at its end. -/
theorem find?_leave {ns : List String} (hnames : inner.names = ns ++ outer.names) (h : m ∉ ns) :
    (leave outer inner).find? m = inner.find? m := by
  have hlength : inner.length = ns.length + outer.length := by
    simpa [names] using congrArg List.length hnames
  have htake : names (inner.take ns.length) = ns := by
    have := congrArg (List.take ns.length) hnames
    rwa [List.take_left, names, ← List.map_take] at this
  have hcut : inner = inner.take ns.length ++ leave outer inner := by
    rw [leave, show inner.length - outer.length = ns.length by omega, List.take_append_drop]
  have hfind : find? (inner.take ns.length ++ leave outer inner) m = (leave outer inner).find? m :=
    find?_append_of_notMem (htake.symm ▸ h)
  rw [← hfind, ← hcut]

/-- Nothing is taken away where nothing was declared. -/
theorem leave_of_names (hnames : inner.names = outer.names) : leave outer inner = inner := by
  have hlength : inner.length = outer.length := by simpa [names] using congrArg List.length hnames
  rw [leave, hlength, Nat.sub_self, List.drop_zero]

theorem names_leave {ns : List String} (hnames : inner.names = ns ++ outer.names) :
    (leave outer inner).names = outer.names := by
  have hlength : inner.length = ns.length + outer.length := by
    simpa [names] using congrArg List.length hnames
  have hdrop := congrArg (List.drop ns.length) hnames
  rw [List.drop_left, names, ← List.map_drop] at hdrop
  rw [leave, show inner.length - outer.length = ns.length by omega, ← hdrop, names]

/-- Nothing changes where a name is given the value that it has. -/
theorem assign_self (h : s.find? n = some ⟨n, some v⟩) : s.assign n v = s := by
  induction s with
  | nil => rfl
  | cons b s ih =>
    rw [find?, List.find?_cons] at h
    rw [assign]
    split at h
    · next hb =>
      cases h
      rw [if_pos hb]
    · next hb =>
      rw [if_neg (by simpa using hb), ih h]

/-- Of two values the later one counts. -/
theorem assign_assign (n : String) (u v : Value α) : (s.assign n u).assign n v = s.assign n v := by
  induction s with
  | nil => rfl
  | cons b s ih =>
    by_cases hb : (b.name == n) = true
    · simp [assign, hb]
    · simp [assign, hb, ih]

/-- What is read depends on the binding only. -/
theorem read_congr {outside : Expression.Names α} (h : inner.find? m = outer.find? m) :
    inner.read outside m = outer.read outside m := by
  rw [read, read, h]

theorem read_of_find? {outside : Expression.Names α} (h : s.find? n = some ⟨n, some v⟩) :
    s.read outside n = .ok v := by
  rw [read, h]

theorem read_assign_self {outside : Expression.Names α} (h : n ∈ s.names) :
    (assign n v s).read outside n = .ok v := by
  rw [read, find?_assign_self h]

end Locals

/-! ## Operators -/

/-- The value of an operator on operands that have values. -/
theorem Expression.eval_binary {α : Type} [Carrier α] {names : Expression.Names α}
    {functions : Expression.Functions α} {op : Operator} {l r : Expression} {x y : Value α}
    (hl : l.eval names functions = .ok x) (hr : r.eval names functions = .ok y) :
    (Expression.binary op l r).eval names functions = .ok (op.apply x y) := by
  rw [eval, hl, hr]
  rfl

section
variable {α : Type} [Carrier α] {w : World α} {s : Locals α} {l r : Expression}

/-- Whether a condition holds, from its value. -/
theorem World.test_of_eval {v : Value α} (h : w.eval s l = .ok v) : w.test s l = .ok v.holds := by
  rw [World.test, h]
  rfl

/-- What a comparison comes to. -/
theorem World.test_binary {op : Operator} {u v : Value α} (hl : w.eval s l = .ok u)
    (hr : w.eval s r = .ok v) : w.test s (.binary op l r) = .ok (op.apply u v).holds :=
  World.test_of_eval (Expression.eval_binary hl hr)

/-- A choice has the value of the side that its condition chooses. -/
theorem World.eval_cond {b : Bool} {y n : Expression} (h : w.test s l = .ok b) :
    w.eval s (.cond l y n) = if b then w.eval s y else w.eval s n := by
  obtain ⟨v, hv, h⟩ := bind_ok h
  cases h
  rw [World.eval] at hv
  rw [World.eval, Expression.eval, hv]
  rfl

/-- The second condition is tested where the first one holds. -/
theorem World.test_both_of {b : Bool} (hl : w.test s l = .ok b) :
    w.test s (.both l r) = if b then w.test s r else .ok false := by
  obtain ⟨v, hv, hl⟩ := bind_ok hl
  cases hl
  rw [World.eval] at hv
  rw [World.test, World.eval, Expression.eval, hv]
  cases hholds : v.holds with
  | true =>
    rw [if_pos rfl, World.test, World.eval]
    exact congrArg (· >>= _) (if_pos hholds)
  | false =>
    rw [if_neg Bool.false_ne_true]
    have hvalue : (if v.holds then r.eval (s.read w.names) w.value else pure v) = .ok v := by
      rw [hholds]
      rfl
    exact (congrArg (· >>= _) hvalue).trans (congrArg Except.ok hholds)

/-- One of two conditions holds if either does. -/
theorem World.test_either_of {b c : Bool} (hl : w.test s l = .ok b) (hr : w.test s r = .ok c) :
    w.test s (.either l r) = .ok (b || c) := by
  obtain ⟨v, hv, hl⟩ := bind_ok hl
  cases hl
  rw [World.eval] at hv
  rw [World.test, World.eval, Expression.eval, hv]
  cases hholds : v.holds with
  | true =>
    have hvalue : (if v.holds then pure v else r.eval (s.read w.names) w.value) = .ok v := by
      rw [hholds]
      rfl
    exact (congrArg (· >>= _) hvalue).trans (congrArg Except.ok hholds)
  | false =>
    rw [Bool.false_or, ← hr, World.test, World.eval]
    exact congrArg (· >>= _) (if_neg (by rw [hholds]; exact Bool.false_ne_true))

/-- Conditions joined from left to right hold if all of them do. -/
theorem World.test_foldl_both {b : Bool} {bs : List Bool} {x : Expression} {xs : List Expression}
    (hx : w.test s x = .ok b) (hxs : List.Forall₂ (fun b x => w.test s x = .ok b) bs xs) :
    w.test s (xs.foldl .both x) = .ok (b && bs.all id) := by
  induction hxs generalizing b x with
  | nil => simpa using hx
  | @cons c y bs xs hy _ ih =>
    have hboth : w.test s (.both x y) = .ok (b && c) := by
      rw [World.test_both_of hx]
      cases b with
      | true => exact hy
      | false => rfl
    rw [List.foldl_cons, ih hboth, List.all_cons, id, Bool.and_assoc]

theorem World.test_not {b : Bool} (h : w.test s l = .ok b) : w.test s (.not l) = .ok !b := by
  obtain ⟨v, hv, h⟩ := bind_ok h
  cases h
  rw [World.eval] at hv
  refine World.test_of_eval (v := .truth !v.holds) ?_
  rw [World.eval, Expression.eval, hv]
  rfl

/-- Two conditions hold together only if each does. -/
theorem World.test_both (h : w.test s (.both l r) = .ok true) :
    w.test s l = .ok true ∧ w.test s r = .ok true := by
  obtain ⟨v, hv, -⟩ := bind_ok h
  obtain ⟨u, hu, -⟩ := bind_ok hv
  have hl := World.test_of_eval hu
  rw [World.test_both_of hl] at h
  split at h
  · next hholds => exact ⟨hholds ▸ hl, h⟩
  · cases h

end

/-! ## Statements -/

section
variable {α : Type} [Carrier α] {limits : Limits} {w : World α} {s s' : Locals α}

/-- Statements that do not return run one after the other. -/
theorem runStmts_cons_none {stmt : Stmt Expression} {rest : List (Stmt Expression)}
    (h : runStmts limits w s (stmt :: rest) = .ok (s', none)) :
    ∃ t, runStmt limits w s stmt = .ok (t, none) ∧ runStmts limits w t rest = .ok (s', none) := by
  rw [runStmts] at h
  obtain ⟨⟨t, r⟩, hstmt, h⟩ := bind_ok h
  cases r with
  | some v => cases h
  | none => exact ⟨t, hstmt, h⟩

theorem runStmts_singleton {stmt : Stmt Expression} (h : runStmt limits w s stmt = .ok (s', none)) :
    runStmts limits w s [stmt] = .ok (s', none) := by
  rw [runStmts, h]
  rfl

/-- Statements that do not return are followed by the rest. -/
theorem runStmts_append {es fs : List (Stmt Expression)} (h : runStmts limits w s es = .ok (s', none)) :
    runStmts limits w s (es ++ fs) = runStmts limits w s' fs := by
  induction es generalizing s with
  | nil =>
    cases h
    rfl
  | cons e es ih =>
    obtain ⟨t, hfirst, hrest⟩ := runStmts_cons_none h
    rw [List.cons_append, runStmts, hfirst, ← ih hrest]
    rfl

/-- A declaration gives its name the value. -/
theorem runStmt_value {n : String} {e : Expression} {r : Option (Value α)}
    (h : runStmt limits w s (.value n e) = .ok (s', r)) :
    ∃ v, w.eval s e = .ok v ∧ s' = s.assign n v ∧ r = none := by
  rw [runStmt] at h
  obtain ⟨v, hv, h⟩ := bind_ok h
  cases h
  exact ⟨v, hv, rfl, rfl⟩

/-- Where a conditional return does not return, its condition does not hold. -/
theorem runStmt_retIf_none {c e : Expression} (h : runStmt limits w s (.retIf c e) = .ok (s', none)) :
    w.test s c = .ok false ∧ s' = s := by
  rw [runStmt] at h
  obtain ⟨b, hb, h⟩ := bind_ok h
  cases b with
  | true =>
    obtain ⟨v, -, h⟩ := bind_ok h
    cases h
  | false =>
    cases h
    exact ⟨hb, rfl⟩

end

/-!
## Arguments of functions

A parameter has the argument at its place for value (`Locals.find?_ofParams`), and the caller finds there
what the function left under the name of the parameter (`Locals.getElem?_arguments`). Arguments that are names
are taken back by the caller (`Locals.takeBack_append`).
-/

namespace Locals

variable {α : Type} {params : List String} {args : List (Value α)} {s : Locals α} {n : String} {v : Value α}

@[simp] theorem names_ofParams : ∀ (params : List String) (args : List (Value α)),
    (ofParams params args).names = params
  | [], _ => rfl
  | p :: ps, [] => congrArg (p :: ·) (names_ofParams ps [])
  | p :: ps, _ :: vs => congrArg (p :: ·) (names_ofParams ps vs)

/-- **A parameter has the argument at its place for value.** -/
theorem find?_ofParams (hparams : params.Nodup) {i : Nat} (hn : params[i]? = some n) (hv : args[i]? = some v) :
    (ofParams params args).find? n = some ⟨n, some v⟩ := by
  induction params generalizing args i with
  | nil => simp at hn
  | cons p ps ih =>
    rw [List.nodup_cons] at hparams
    cases args with
    | nil => simp at hv
    | cons w ws =>
      cases i with
      | zero =>
        rw [List.getElem?_cons_zero, Option.some.injEq] at hn hv
        subst hn hv
        exact find?_cons_self _ _
      | succ i =>
        rw [List.getElem?_cons_succ] at hn hv
        have hne : p ≠ n := fun heq => hparams.1 (heq ▸ List.mem_of_getElem? hn)
        exact (find?_cons_of_ne hne _).trans (ih hparams.2 hn hv)

/-- Under distinct names, a name is bound at its place. -/
theorem getElem?_of_find? (hnames : s.names.Nodup) {i : Nat} (hn : s.names[i]? = some n) {b : Binding α}
    (hb : s.find? n = some b) : s[i]? = some b := by
  induction s generalizing i with
  | nil => simp [names] at hn
  | cons c s ih =>
    rw [names_cons] at hnames hn
    rw [List.nodup_cons] at hnames
    cases i with
    | zero =>
      rw [List.getElem?_cons_zero, Option.some.injEq] at hn
      subst hn
      rw [find?_cons_self, Option.some.injEq] at hb
      rw [hb, List.getElem?_cons_zero]
    | succ i =>
      rw [List.getElem?_cons_succ] at hn ⊢
      have hne : c.name ≠ n := fun heq => hnames.1 (heq ▸ List.mem_of_getElem? hn)
      exact ih hnames.2 hn ((find?_cons_of_ne hne s).symm.trans hb)

theorem getElem?_arguments_of {i : Nat} {m : String} (hi : s[i]? = some ⟨m, some v⟩)
    (hlength : i < args.length) : (s.arguments args)[i]? = some v := by
  induction s generalizing args i with
  | nil => simp at hi
  | cons b s ih =>
    cases args with
    | nil => simp at hlength
    | cons w ws =>
      cases i with
      | zero =>
        rw [List.getElem?_cons_zero, Option.some.injEq] at hi
        rw [hi]
        rfl
      | succ i => exact ih hi (Nat.lt_of_succ_lt_succ hlength)

/-- **An argument is left as what the function has under the name of its parameter.** -/
theorem getElem?_arguments (hnames : s.names.Nodup) {i : Nat} (hn : s.names[i]? = some n)
    (hb : s.find? n = some ⟨n, some v⟩) (hlength : i < args.length) : (s.arguments args)[i]? = some v :=
  getElem?_arguments_of (getElem?_of_find? hnames hn hb) hlength

theorem length_arguments (s : Locals α) (args : List (Value α)) : (s.arguments args).length = args.length := by
  induction s generalizing args with
  | nil => cases args <;> rfl
  | cons b s ih =>
    cases args with
    | nil => rfl
    | cons v vs => exact congrArg Nat.succ (ih vs)

/-- Arguments are left as what the function has under the names of its parameters. -/
theorem arguments_eq {left : List (Value α)} (hnames : s.names.Nodup) (hlength : left.length = args.length)
    (hparams : s.names.length = args.length)
    (h : ∀ (i : Nat) n v, s.names[i]? = some n → left[i]? = some v → s.find? n = some ⟨n, some v⟩) :
    s.arguments args = left := by
  refine List.ext_getElem? fun i => ?_
  by_cases hi : i < args.length
  · have hname := List.getElem?_eq_getElem (hparams ▸ hi)
    have hleft := List.getElem?_eq_getElem (hlength ▸ hi)
    rw [hleft]
    exact getElem?_arguments hnames hname (h i _ _ hname hleft) hi
  · rw [List.getElem?_eq_none (by rw [length_arguments]; omega), List.getElem?_eq_none (by omega)]

/-- Arguments behind the last parameter are not looked at. -/
theorem ofParams_append (h : params.length ≤ args.length) (rest : List (Value α)) :
    ofParams params (args ++ rest) = ofParams params args := by
  induction params generalizing args with
  | nil => rfl
  | cons p ps ih =>
    cases args with
    | nil => simp at h
    | cons v vs => exact congrArg (⟨p, some v⟩ :: ·) (ih (Nat.le_of_succ_le_succ h))

/-- Arguments that a function leaves as they were are taken back as they were. -/
theorem takeBack_append {es : List Expression} {vs : List (Value α)}
    (h : List.Forall₂ (fun e v => ∀ n, e = .name n → s.find? n = some ⟨n, some v⟩) es vs) (es' : List Expression)
    (vs' : List (Value α)) : s.takeBack (es ++ es') (vs ++ vs') = s.takeBack es' vs' := by
  induction h with
  | nil => rfl
  | @cons e v es vs he _ ih =>
    rw [List.cons_append, List.cons_append]
    cases e with
    | name n => rw [takeBack, assign_self (he n rfl), ih]
    | _ => exact ih

end Locals

/-- A call for its effect. -/
theorem World.run_call {α : Type} [Carrier α] {w : World α} {s : Locals α} {n : String} {f : Callable}
    {es : List Expression} {vs : List (Value α)} {r : Returned α} (hf : s.read w.names n = .ok (.function f))
    (hes : Expression.evalAll (s.read w.names) w.value es = .ok vs) (hcall : w.call f vs = .ok r) :
    w.run s (.call (.name n) es) = .ok (s.takeBack es r.args) := by
  have hname : w.eval s (.name n) = .ok (.function f) := hf
  rw [World.run, hname, hes]
  dsimp only [bind, Except.bind, Value.callable]
  rw [hcall]
  rfl

end RecurrenceCompiler.Script
