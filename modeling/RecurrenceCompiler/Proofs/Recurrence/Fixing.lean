import RecurrenceCompiler.Proofs.Arith.Fixing
import RecurrenceCompiler.Proofs.Constraint.Bounds
import RecurrenceCompiler.Proofs.Expr.Substitution
import RecurrenceCompiler.Proofs.Recurrence.Reported

/-!
# Fixing indices and binding them

Layered code fixes indices in text where other code binds them. For what the builder makes the two agree:
whatever an expression evaluates to with indices bound to numbers, it evaluates to with the numbers written
in place of the indices (`Built.eval_fixed`). Index arithmetic and table indices are written anew; what
is left alone, runtime variables and runtime arithmetic, names no index.
-/

namespace RecurrenceCompiler

open Text Decimal Arith RuleText

variable {f : Fixing} {s : Scope Float}

/-- A scope with the names bound. -/
def Scope.fix (s : Scope Float) (f : Fixing) : Scope Float :=
  { s with value := f.bind s.value }

namespace Arith

/-- A text that names nothing that is fixed has the value it has without. -/
theorem carries_eval_bind {text : String} (h : ∀ n ∈ pieceNames text.toList, f.value n = none)
    {env : Env Float} : Carries (eval (f.bind env) text) (eval env text) := by
  intro v hv
  refine eval_eq_ok_iff.2 ((eval_eq_ok_iff.1 hv).congr fun n hn => ?_)
  rw [Fixing.bind, h n (mentions_iff.1 hn), Option.none_or]

end Arith

namespace Expr

/-- A table entry is found at the same place. -/
theorem carries_evalLookup {table i : String} (h : ∀ n ∈ functionsIn i, f.value n = none) :
    Carries (evalLookup (s.fix f) table i) (evalLookup s table (Arith.substitute f.text i)) := by
  have htable : (s.fix f).table = s.table := rfl
  rw [evalLookup, evalLookup, htable]
  cases s.table table with
  | none => exact .refl _
  | some t =>
    refine Carries.bind ?_ fun k => .refl _
    intro v hv
    exact evalIndex_substitute hv h

end Expr

namespace Recurrence

variable {r : Recurrence}

/-- No runtime variable is an index. -/
theorem Built.runtime_not_index (h : r.Built) {v : String} (hv : v ∈ r.runtimeVars) : v ∉ r.indices :=
  fun hi => (List.nodup_append.1 h.nodup_names).2.2 v hi v hv rfl

/-- A leaf that is read keeps its value. -/
theorem Built.carries_leaf (hr : r.Built) (hindices : ∀ n x, f.value n = some x → n ∈ r.indices)
    {l : Expr} (hl : Kept r.runtimeVars r.indices r.arrayVars l)
    (hcalled : ∀ t, l.leafText? = some t → ∀ n ∈ functionsIn t, f.value n = none)
    (call : Call → Except Error Float) :
    Carries (l.eval (s.fix f) call) ((l.substitute f.text).eval s call) := by
  have hnone {n : String} (hn : n ∉ r.indices) : f.value n = none := by
    cases hx : f.value n with
    | none => rfl
    | some x => exact absurd (hindices n x hx) hn
  cases hl with
  | number | call => exact .refl _
  | @runtime v hv =>
    -- The only name in a runtime variable is its own.
    have hname : isName v.toList := hr.wellFormed.runtime v hv
    rw [Expr.substitute, Expr.eval, Expr.eval, orThrow_eq, orThrow_eq]
    refine carries_eval_bind fun n hn => hnone ?_
    rw [pieceNames_name hname, List.mem_singleton, String.ofList_toList] at hn
    rw [hn]
    exact hr.runtime_not_index hv
  | text _ hnames =>
    rw [Expr.substitute, Expr.eval, Expr.eval, orThrow_eq, orThrow_eq]
    exact carries_eval_bind fun n hn => hnone (hnames n hn)
  | @index t _ =>
    rw [Expr.substitute, Expr.eval, Expr.eval, orThrow_eq, orThrow_eq]
    intro v hv
    exact Arith.eval_substitute hv (hcalled t rfl)
  | @lookup table i _ =>
    rw [Expr.substitute, Expr.eval, Expr.eval, orThrow_eq, orThrow_eq]
    exact Expr.carries_evalLookup (hcalled i rfl)

/-- **Fixing indices in text is binding them.** Whatever its calls give, an expression that has a value
where indices are bound to numbers has this value with the numbers written in place of the indices, as long
as none of these is called as a function. -/
theorem Built.eval_fixed (hr : r.Built) {e : Expr} (he : e ∈ r.exprs)
    (hindices : ∀ n x, f.value n = some x → n ∈ r.indices)
    (hcalled : ∀ t ∈ e.texts, ∀ n ∈ functionsIn t, f.value n = none)
    {call : Call → Except Error Float} {v : Float} (h : e.eval (s.fix f) call = .ok v) :
    (e.substitute f.text).eval s call = .ok v := by
  refine Expr.carries_substitute e (fun l hl => ?_) v h
  refine hr.carries_leaf hindices ((hr.reported.exprs e he).kept l hl) (fun t ht => ?_) call
  exact hcalled t (List.mem_filterMap.2 ⟨l, hl, ht⟩)

/-- One index below zero and one above. -/
def bothSigns : Fixing :=
  .ofInts [("n", -3), ("k", 2)] (by decide)

/-- A table read at a difference, and a difference with a product in a coefficient. -/
def differences : List Step :=
  [.base [("n", 0.0)] (.raw "T[k-n]"), .rule "n > 0" "(2-n*k)*x*E[n-1,k]" none none]

/-- A variable and a table of squares. -/
def squares : Scope Float where
  value n := [("x", 5.0)].lookup n
  table n := [("T", .ofList [0.0, 1.0, 4.0, 9.0, 16.0, 25.0])].lookup n

/-- Every call gives one. -/
def ones (_ : Call) : Except Error Float :=
  .ok 1.0

/-- The sign of a number may stand next to a minus sign. -/
theorem eval_fixed_differences : ∃ r r', create "Tri" ["n", "k"] ["x", "T"] { arrayVars := ["T"] } = .ok r ∧
    r' = differences.foldl (fun r s => (s.run r).1) r ∧
    r'.exprs.map (fun e => (e.substitute bothSigns.text).texts) = [["2--3"], ["2--3*2", "x"]] ∧
    ∀ e ∈ r'.exprs, ∃ v, e.eval (squares.fix bothSigns) ones = .ok v ∧
      (e.substitute bothSigns.text).eval squares ones = .ok v := by
  have hcheck : ((create "Tri" ["n", "k"] ["x", "T"] { arrayVars := ["T"] }).toOption.any fun r =>
      let r' := differences.foldl (fun r s => (s.run r).1) r
      r'.indices == ["n", "k"] &&
      r'.exprs.map (fun e => (e.substitute bothSigns.text).texts) == [["2--3"], ["2--3*2", "x"]] &&
        r'.exprs.all fun e => (e.texts.all fun t => (functionsIn t).isEmpty) &&
          (e.eval (squares.fix bothSigns) ones).toOption.isSome) = true := by
    decide +kernel
  obtain ⟨r, hr, hcheck⟩ := exists_ok_of_any hcheck
  simp only [Bool.and_eq_true, beq_iff_eq, List.all_eq_true, List.isEmpty_iff] at hcheck
  obtain ⟨⟨hindices, htexts⟩, hexprs⟩ := hcheck
  have hbuilt : (differences.foldl (fun r s => (s.run r).1) r).Built := .step _ (.step _ (.create hr))
  refine ⟨r, _, hr, rfl, htexts, fun e he => ?_⟩
  obtain ⟨hcalled, hsome⟩ := hexprs e he
  obtain ⟨v, hv⟩ := Option.isSome_iff_exists.1 hsome
  rw [toOption_eq_some_iff] at hv
  refine ⟨v, hv, hbuilt.eval_fixed he (fun n x hn => ?_) (fun t ht n hn => ?_) hv⟩
  · rw [hindices]
    exact Fixing.mem_of_ofInts hn
  · rw [hcalled t ht] at hn
    cases hn

end Recurrence

end RecurrenceCompiler
