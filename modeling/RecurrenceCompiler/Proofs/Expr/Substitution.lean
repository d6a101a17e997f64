import RecurrenceCompiler.Expr.Substitution
import RecurrenceCompiler.Proofs.Expr.Eval

/-!
# Expressions with names fixed

Fixing names of index arithmetic changes leaves and nothing above them: the leaves of the result are the
leaves with names fixed (`leaves_substitute`), the calls are kept (`calls_substitute`), and where each leaf
keeps the value it has, so does the expression (`carries_substitute`).
-/

namespace RecurrenceCompiler

open Arith

/-- What one computation gives, the other gives too. -/
def Carries {ε β : Type} (x y : Except ε β) : Prop :=
  ∀ v, x = .ok v → y = .ok v

theorem Carries.refl {ε β : Type} (x : Except ε β) : Carries x x :=
  fun _ h => h

theorem Carries.bind {ε β γ : Type} {x y : Except ε β} {f g : β → Except ε γ} (h : Carries x y)
    (hf : ∀ b, Carries (f b) (g b)) : Carries (x >>= f) (y >>= g) := by
  intro v hv
  obtain ⟨b, hb, hv⟩ := bind_ok hv
  rw [h b hb]
  exact hf b v hv

namespace Expr

variable {value : String → Option String}

theorem substituteTerms_eq_map (ts : List (Term Expr)) :
    substituteTerms value ts = ts.map fun t => ⟨t.coeff.substitute value, t.factor⟩ := by
  induction ts with
  | nil => rfl
  | cons t ts ih => rw [substituteTerms, ih, List.map_cons]

theorem substituteList_eq_map (es : List Expr) :
    substituteList value es = es.map (·.substitute value) := by
  induction es with
  | nil => rfl
  | cons e es ih => rw [substituteList, ih, List.map_cons]

theorem substitute_factor (f : Factor) : f.expr.substitute value = f.expr := by
  cases f <;> rfl

/-- **The leaves of an expression with names replaced** are its leaves with names replaced. -/
theorem leaves_substitute (value : String → Option String) (e : Expr) :
    (e.substitute value).leaves = e.leaves.map (·.substitute value) := by
  have hterm {t : Term Expr}
      (h : (t.coeff.substitute value).leaves = t.coeff.leaves.map (·.substitute value)) :
      ((Expr.term t).substitute value).leaves = (Expr.term t).leaves.map (·.substitute value) := by
    simp [substitute, leaves, h, substitute_factor]
  induction e using Expr.induction with
  | const | var | index | lookup | ref | call => rfl
  | binop op l r ihl ihr => simp [substitute, leaves, ihl, ihr]
  | term t ih => exact hterm ih
  | sum ts ih =>
    rw [substitute, leaves_sum, leaves_sum, substituteTerms_eq_map, List.flatMap_map, List.map_flatMap]
    exact List.flatMap_congr fun t ht => hterm (ih t ht)
  | scaled inner scale division ihi ihs => simp [substitute, leaves, ihi, ihs]
  | average bs scale ihb ihs =>
    rw [substitute, leaves_average, leaves_average, substituteList_eq_map, List.flatMap_map, List.map_append,
      List.map_flatMap, ihs]
    congr 1
    exact List.flatMap_congr fun b hb => ihb b hb

/-- Replacing names keeps the calls. -/
theorem calls_substitute (value : String → Option String) (e : Expr) :
    (e.substitute value).calls = e.calls := by
  rw [calls, leaves_substitute, List.filterMap_map]
  refine List.filterMap_congr fun l _ => ?_
  cases l <;> rfl

theorem isUnit_substitute (e : Expr) : (e.substitute value).isUnit = e.isUnit := by
  cases e <;> rfl

/-! ## Values -/

section
variable {α : Type} [Carrier α] {s s' : Scope α} {call : Call → Except Error α}

/-- What a term multiplies has no names of its own. -/
theorem carries_factor {f : Factor}
    (h : Carries (f.expr.eval s call) ((f.expr.substitute value).eval s' call)) :
    Carries (evalFactor s call f) (evalFactor s' call f) := by
  rw [substitute_factor] at h
  cases f <;> exact h

/-- **Where each leaf with names replaced keeps its value, the expression does.** -/
theorem carries_substitute (e : Expr)
    (h : ∀ l ∈ e.leaves, Carries (l.eval s call) ((l.substitute value).eval s' call)) :
    Carries (e.eval s call) ((e.substitute value).eval s' call) := by
  induction e using Expr.induction with
  | const | var | index | lookup | ref | call => exact h _ (List.mem_singleton_self _)
  | binop op l r ihl ihr =>
    rw [leaves, List.forall_mem_append] at h
    rw [substitute, eval, eval]
    exact (ihl h.1).bind fun x => (ihr h.2).bind fun y => .refl _
  | term t ih =>
    rw [leaves, List.forall_mem_append, List.forall_mem_singleton] at h
    rw [substitute, eval, eval, isUnit_substitute]
    refine (carries_factor h.2).bind fun v => ?_
    split
    · exact .refl _
    · exact (ih h.1).bind fun k => .refl _
  | sum ts ih =>
    rw [leaves] at h
    rw [substitute, eval, eval]
    suffices hterms : Carries (evalTerms s call ts) (evalTerms s' call (substituteTerms value ts)) from
      hterms.bind fun vs => .refl _
    induction ts with
    | nil => exact .refl _
    | cons t ts ihts =>
      rw [leavesOfTerms, List.forall_mem_append, List.forall_mem_append, List.forall_mem_singleton] at h
      obtain ⟨iht, ih⟩ := List.forall_mem_cons.1 ih
      have hrest (w : α) := (ihts ih h.2).bind fun vs => .refl (pure (w :: vs))
      rw [substituteTerms, evalTerms, evalTerms, isUnit_substitute]
      refine (carries_factor h.1.2).bind fun v => ?_
      dsimp only
      split
      · exact (Carries.refl (pure v)).bind hrest
      · exact (iht h.1.1).bind fun k => (Carries.refl (pure (Carrier.mul k v))).bind hrest
  | scaled inner scale division ihi ihs =>
    rw [leaves, List.forall_mem_append] at h
    rw [substitute, eval, eval]
    exact (ihi h.1).bind fun x => (ihs h.2).bind fun k => .refl _
  | average bs scale ihbs ihs =>
    rw [leaves, List.forall_mem_append] at h
    rw [substitute, eval, eval]
    suffices hlist : Carries (evalList s call bs) (evalList s' call (substituteList value bs)) by
      refine hlist.bind fun vs => ?_
      have hscale := (ihs h.2).bind fun k => .refl (pure (Carrier.mul (total vs) k))
      cases vs.isEmpty with
      | true => exact (Carries.refl (throw (.fault (.readOfUndefined "tag")))).bind fun _ => hscale
      | false => exact hscale
    obtain ⟨h, -⟩ := h
    induction bs with
    | nil => exact .refl _
    | cons b bs ihbs' =>
      rw [leavesOfList, List.forall_mem_append] at h
      obtain ⟨ihb, ihbs⟩ := List.forall_mem_cons.1 ihbs
      rw [substituteList, evalList, evalList]
      exact (ihb h.1).bind fun v => (ihbs' ihbs h.2).bind fun vs => .refl _

end

end Expr

end RecurrenceCompiler
