import RecurrenceCompiler.Proofs.Arith.Lexing
import RecurrenceCompiler.Proofs.Arith.Sentence
import RecurrenceCompiler.Proofs.Decimal.Operations
import RecurrenceCompiler.Recurrence.Builder

/-!
# Index arithmetic in compiled code

Compiled code computes index arithmetic on integers of 32 bits, where a quotient is cut towards zero and
overflow is undefined; the evaluator computes the same text on doubles. `Machine` is the first as a number
system, so that both are evaluations of one text. They agree where every quotient comes out even
(`machine_eval`), and not in general: half of one is zero on integers.
-/

namespace RecurrenceCompiler

open Text Decimal

/-! ## Integers of 32 bits -/

/-- A value of integer arithmetic of 32 bits, or nothing where it is undefined. If the arithmetic is
strict, then so is a quotient that does not come out even. -/
structure Machine (strict : Bool) where
  value? : Option Int
deriving DecidableEq

namespace Machine

variable {strict : Bool}

/-- An integer, if it has 32 bits. -/
def check (i : Int) : Option Int :=
  if -2 ^ 31 ≤ i ∧ i < 2 ^ 31 then some i else none

/-- The value of an integer. -/
def ofInt (i : Int) : Machine strict :=
  ⟨check i⟩

/-- The quotient of two integers, cut towards zero. -/
def quotient? (strict : Bool) (i j : Int) : Option Int :=
  if j = 0 ∨ strict ∧ ¬ j ∣ i then none else some (i.tdiv j)

/-- An operation on two integers. -/
def combine (f : Int → Int → Option Int) (x y : Machine strict) : Machine strict where
  value? := do check (← f (← x.value?) (← y.value?))

instance : Carrier (Machine strict) where
  ofFloat x := ⟨if isWhole x then check (toInt x) else none⟩
  add := combine fun i j => some (i + j)
  sub := combine fun i j => some (i - j)
  mul := combine fun i j => some (i * j)
  div := combine (quotient? strict)
  neg x := ⟨x.value?.bind fun i => check (-i)⟩
  apply _ _ := ⟨none⟩
  eq x y := x.value? == y.value?
  lt x y := (do return decide ((← x.value?) < (← y.value?))).getD false
  le x y := (do return decide ((← x.value?) ≤ (← y.value?))).getD false
  isWhole x := x.value?.isSome
  toNat? x := x.value?.bind Int.toNat?
  text x := (x.value?.map toString).getD ""

theorem check_eq_some {i k : Int} : check i = some k ↔ i = k ∧ -2 ^ 31 ≤ k ∧ k < 2 ^ 31 := by
  rw [check]
  split
  · rw [Option.some.injEq]
    constructor
    · rintro rfl
      exact ⟨rfl, ‹_›⟩
    · exact fun h => h.1
  · constructor
    · nofun
    · rintro ⟨rfl, h⟩
      contradiction

/-- A result is that of an operation on two integers. -/
theorem combine_eq_some {f : Int → Int → Option Int} {x y : Machine strict} {k : Int} :
    (combine f x y).value? = some k ↔
      ∃ i j, x.value? = some i ∧ y.value? = some j ∧ f i j = some k ∧ -2 ^ 31 ≤ k ∧ k < 2 ^ 31 := by
  simp only [combine, Option.bind_eq_bind, Option.bind_eq_some_iff, check_eq_some]
  constructor
  · rintro ⟨i, hi, j, hj, l, hl, rfl, hk⟩
    exact ⟨i, j, hi, hj, hl, hk⟩
  · rintro ⟨i, j, hi, hj, hl, hk⟩
    exact ⟨i, hi, j, hj, k, hl, rfl, hk⟩

/-- A quotient that comes out even. -/
theorem quotient?_eq_some {i j k : Int} (h : quotient? true i j = some k) : j ≠ 0 ∧ i = k * j := by
  rw [quotient?] at h
  split at h
  · cases h
  · next hno =>
    obtain ⟨hj, hdvd⟩ : j ≠ 0 ∧ j ∣ i := by simpa using hno
    cases h
    exact ⟨hj, (Int.tdiv_mul_cancel hdvd).symm⟩

end Machine

/-! ## Number systems that follow each other -/

namespace Arith

/-- A relation between two number systems that their operations keep. -/
structure Respects {α β : Type} [Carrier α] [Carrier β] (R : α → β → Prop) : Prop where
  ofFloat : ∀ x, R (Carrier.ofFloat x) (Carrier.ofFloat x)
  apply : ∀ f vs ws, List.Forall₂ R vs ws → R (Carrier.apply f vs) (Carrier.apply f ws)
  neg : ∀ {x y}, R x y → R (Carrier.neg x) (Carrier.neg y)
  binary : ∀ (op : BinOp) {x x' y y'}, R x y → R x' y' → R (op.apply x x') (op.apply y y')

section
variable {α β : Type} [Carrier α] [Carrier β] {R : α → β → Prop} {env : Env α} {env' : Env β}

mutual

/-- **Trees have related values in related number systems.** -/
theorem Respects.eval (h : Respects R) (henv : ∀ n v, env n = some v → ∃ w, env' n = some w ∧ R v w) :
    ∀ {t : Tree} {v : α}, t.eval env = .ok v → ∃ w, t.eval env' = .ok w ∧ R v w
  | .num x, v, hv => by
    cases hv
    exact ⟨_, rfl, h.ofFloat x⟩
  | .name n, v, hv => by
    rw [Tree.eval] at hv
    split at hv
    · next hn =>
      cases hv
      obtain ⟨w, hw, hrel⟩ := henv n _ hn
      exact ⟨w, by rw [Tree.eval, hw], hrel⟩
    · cases hv
  | .call n us, v, hv => by
    rw [Tree.eval] at hv
    split at hv
    · cases hv
    · next f hf =>
      obtain ⟨vs, hvs, hv⟩ := bind_ok hv
      obtain ⟨ws, hws, hrel⟩ := h.evalAll henv hvs
      split at hv
      · next harity =>
        cases hv
        refine ⟨_, ?_, h.apply f vs ws hrel⟩
        rw [hrel.length_eq] at harity
        simp only [Tree.eval, hf, hws]
        change (if _ then _ else _) = _
        rw [if_pos harity]
        rfl
      · cases hv
  | .neg t, v, hv => by
    obtain ⟨x, hx, hv⟩ := bind_ok hv
    cases hv
    obtain ⟨y, hy, hrel⟩ := h.eval henv hx
    exact ⟨_, by rw [Tree.eval, hy]; rfl, h.neg hrel⟩
  | .pos t, v, hv => h.eval henv (t := t) hv
  | .bin op l r, v, hv => by
    obtain ⟨x, hx, hv⟩ := bind_ok hv
    obtain ⟨x', hx', hv⟩ := bind_ok hv
    cases hv
    obtain ⟨y, hy, hrel⟩ := h.eval henv hx
    obtain ⟨y', hy', hrel'⟩ := h.eval henv hx'
    exact ⟨_, by rw [Tree.eval, hy, hy']; rfl, h.binary op hrel hrel'⟩

theorem Respects.evalAll (h : Respects R)
    (henv : ∀ n v, env n = some v → ∃ w, env' n = some w ∧ R v w) :
    ∀ {us : List Tree} {vs : List α}, Tree.evalAll env us = .ok vs →
      ∃ ws, Tree.evalAll env' us = .ok ws ∧ List.Forall₂ R vs ws
  | [], vs, hvs => by
    cases hvs
    exact ⟨[], rfl, .nil⟩
  | t :: us, vs, hvs => by
    obtain ⟨x, hx, hvs⟩ := bind_ok hvs
    obtain ⟨xs, hxs, hvs⟩ := bind_ok hvs
    cases hvs
    obtain ⟨y, hy, hrel⟩ := h.eval henv hx
    obtain ⟨ys, hys, hrels⟩ := h.evalAll henv hxs
    exact ⟨y :: ys, by rw [Tree.evalAll, hy, hys]; rfl, .cons hrel hrels⟩

end

/-- Texts have related values in related number systems. -/
theorem Respects.text (h : Respects R) (henv : ∀ n v, env n = some v → ∃ w, env' n = some w ∧ R v w)
    {text : String} {v : α} (hv : Arith.eval env text = .ok v) :
    ∃ w, Arith.eval env' text = .ok w ∧ R v w := by
  obtain ⟨ts, t, hts, ht, hv⟩ := eval_eq_ok_iff.1 hv
  obtain ⟨w, hw, hrel⟩ := h.eval henv hv
  exact ⟨w, eval_eq_ok_iff.2 ⟨ts, t, hts, ht, hw⟩, hrel⟩

end

end Arith

/-! ## Even quotients -/

namespace Machine

/-- Strict arithmetic has no other values. -/
def Refines (x : Machine true) (y : Machine false) : Prop :=
  ∀ k, x.value? = some k → y.value? = some k

/-- The double of a value. -/
def IsDouble (x : Machine true) (v : Float) : Prop :=
  ∀ k, x.value? = some k → (-2 ^ 31 ≤ k ∧ k < 2 ^ 31) ∧ IsInt v k

theorem respects_refines : Arith.Respects Refines where
  ofFloat _ _ h := h
  apply _ _ _ _ _ h := by cases h
  neg h k hk := by
    obtain ⟨i, hi, hk⟩ := Option.bind_eq_some_iff.1 hk
    exact Option.bind_eq_some_iff.2 ⟨i, h i hi, hk⟩
  binary op x x' y y' h h' k hk := by
    cases op with
    | add | sub | mul =>
      obtain ⟨i, j, hi, hj, hop⟩ := combine_eq_some.1 hk
      exact combine_eq_some.2 ⟨i, j, h i hi, h' j hj, hop⟩
    | div =>
      obtain ⟨i, j, hi, hj, hop, hrange⟩ := combine_eq_some.1 hk
      obtain ⟨hj0, rfl⟩ := quotient?_eq_some hop
      refine combine_eq_some.2 ⟨_, j, h _ hi, h' j hj, ?_, hrange⟩
      simp [quotient?, hj0]

theorem respects_isDouble : Arith.Respects IsDouble where
  ofFloat x k hk := by
    change (if isWhole x then check (toInt x) else none) = some k at hk
    split at hk
    · next hwhole =>
      obtain ⟨rfl, hrange⟩ := check_eq_some.1 hk
      obtain ⟨hfin, hint⟩ := isIntegral_of_isWhole hwhole
      exact ⟨hrange, hfin, hint.doubleValue_eq⟩
    · cases hk
  apply _ _ _ _ _ h := by cases h
  neg h k hk := by
    obtain ⟨i, hi, hk⟩ := Option.bind_eq_some_iff.1 hk
    obtain ⟨rfl, hrange⟩ := check_eq_some.1 hk
    exact ⟨hrange, (h i hi).2.neg (by omega)⟩
  binary op x x' y y' h h' k hk := by
    cases op with
    | add =>
      obtain ⟨i, j, hi, hj, hop, hrange⟩ := combine_eq_some.1 hk
      obtain rfl := Option.some.inj hop
      exact ⟨hrange, (h i hi).2.add (h' j hj).2 (by omega)⟩
    | sub =>
      obtain ⟨i, j, hi, hj, hop, hrange⟩ := combine_eq_some.1 hk
      obtain rfl := Option.some.inj hop
      obtain ⟨hjrange, hjint⟩ := h' j hj
      exact ⟨hrange, (h i hi).2.sub hjint (by omega) (by omega)⟩
    | mul =>
      obtain ⟨i, j, hi, hj, hop, hrange⟩ := combine_eq_some.1 hk
      obtain rfl := Option.some.inj hop
      exact ⟨hrange, (h i hi).2.mul (h' j hj).2 (by omega)⟩
    | div =>
      obtain ⟨i, j, hi, hj, hop, hrange⟩ := combine_eq_some.1 hk
      obtain ⟨hj0, rfl⟩ := quotient?_eq_some hop
      exact ⟨hrange, (h _ hi).2.div (h' j hj).2 hj0 (by omega)⟩

/-- A number that is an integer to compiled code: digits without a point or an exponent, and no zero
before others, which would make it octal. -/
def isIntLiteral (l : Literal) : Bool :=
  !l.point && l.exponent.isNone && (l.whole.head? != some '0' || l.whole.length == 1)

/-- A text that compiled code reads as arithmetic on integers: its numbers are integers, and no sign is
doubled. -/
def isIntText (text : String) : Bool :=
  (Arith.literals text.toList).all isIntLiteral &&
    !decide (['-', '-'] <:+: text.toList) && !decide (['+', '+'] <:+: text.toList)

/-- The value of a text in compiled code at given indices. -/
def eval (strict : Bool) (env : String → Option Int) (text : String) : Option Int :=
  if isIntText text then
    (Arith.eval (fun n => (env n).map ofInt) text : Except Error (Machine strict)).toOption.bind (·.value?)
  else none

theorem eval_eq_some {strict : Bool} {env : String → Option Int} {text : String} {k : Int} :
    eval strict env text = some k ↔ isIntText text = true ∧
      ∃ x : Machine strict, Arith.eval (fun n => (env n).map ofInt) text = .ok x ∧ x.value? = some k := by
  rw [eval]
  split
  · next h =>
    cases Arith.eval (fun n => (env n).map (@ofInt strict)) text <;>
      simp [h, Except.toOption]
  · next h => simp [h]

/-- **Index arithmetic means the same on integers of 32 bits and on doubles where every quotient comes
out even**: compiled code and the evaluator give the same integer. -/
theorem machine_eval {env : String → Option Int} {text : String} {k : Int}
    (h : eval true env text = some k) :
    eval false env text = some k ∧
      ∃ v : Float, Arith.evalIndex (fun n => (env n).map Decimal.ofInt) text = .ok v ∧ toInt v = k := by
  obtain ⟨htext, x, hx, hk⟩ := eval_eq_some.1 h
  constructor
  · have henv (n : String) (v : Machine true) (hv : (env n).map ofInt = some v) :
        ∃ w, (env n).map ofInt = some w ∧ Refines v w := by
      obtain ⟨i, hi, rfl⟩ := Option.map_eq_some_iff.1 hv
      exact ⟨ofInt i, by rw [hi]; rfl, fun _ hk => hk⟩
    obtain ⟨y, hy, hrel⟩ := respects_refines.text henv hx
    exact eval_eq_some.2 ⟨htext, y, hy, hrel k hk⟩
  · have henv (n : String) (v : Machine true) (hv : (env n).map ofInt = some v) :
        ∃ w, (env n).map Decimal.ofInt = some w ∧ IsDouble v w := by
      obtain ⟨i, hi, rfl⟩ := Option.map_eq_some_iff.1 hv
      refine ⟨Decimal.ofInt i, by rw [hi]; rfl, fun k hk => ?_⟩
      obtain ⟨rfl, hrange⟩ := check_eq_some.1 hk
      exact ⟨hrange, isInt_ofInt (by omega)⟩
    obtain ⟨v, hv, hrel⟩ := respects_isDouble.text henv hx
    obtain ⟨hrange, hint⟩ := hrel k hk
    refine ⟨v, ?_, hint.toInt_eq⟩
    have hwhole : Carrier.isWhole v = true := hint.isWhole (by omega)
    simp only [Arith.evalIndex, hv]
    change (if _ then _ else _) = _
    rw [if_pos hwhole]
    rfl

/-- The indices of a recurrence with the one index `n`. -/
def atIndex (n : Int) : String → Option Int := fun name => if name = "n" then some n else none

/-- The third triangular number is six on both. -/
theorem machine_eval_triangular : eval true (atIndex 3) "n*(n + 1)/2" = some 6 ∧
    eval false (atIndex 3) "n*(n + 1)/2" = some 6 ∧
      ∃ v : Float, Arith.evalIndex (fun n => (atIndex 3 n).map Decimal.ofInt) "n*(n + 1)/2" = .ok v ∧
        toInt v = 6 :=
  have h : eval true (atIndex 3) "n*(n + 1)/2" = some 6 := by decide +kernel
  ⟨h, machine_eval h⟩

/-- A recurrence with half of its index as a coefficient. -/
def halfRule : Except Error Recurrence := do
  let r ← Recurrence.create "Seq" ["n"] [] {}
  r.build [.base [("n", 0)] (.number 1), .rule "n > 0" "(n/2)*E[n-1]" none none]

/-- **Half of one is zero in compiled code and not in the evaluator**, and the builder takes it as a
coefficient. -/
theorem half_not_machine : ∃ r, halfRule = .ok r ∧ r.diagnostics.isEmpty ∧
    eval false (atIndex 1) "n/2" = some 0 ∧
      ∃ v : Float, Arith.eval (fun n => (atIndex 1 n).map Decimal.ofInt) "n/2" = .ok v ∧
        (v == 0) = false := by
  have hrule : (halfRule.toOption.any fun r => r.diagnostics.isEmpty) = true := by decide +kernel
  have hmachine : eval false (atIndex 1) "n/2" = some 0 := by decide +kernel
  have hvalue : ((Arith.eval (fun n => (atIndex 1 n).map Decimal.ofInt) "n/2").toOption.any fun v =>
      !(v == (0 : Float))) = true := by
    decide +kernel
  obtain ⟨r, hr, hempty⟩ := Arith.exists_ok_of_any hrule
  obtain ⟨v, hv, hne⟩ := Arith.exists_ok_of_any hvalue
  exact ⟨r, hr, hempty, hmachine, v, hv, by simpa using hne⟩

end Machine

end RecurrenceCompiler
