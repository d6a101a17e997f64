import RecurrenceCompiler.Codegen.Dialect
import RecurrenceCompiler.Proofs.Arith.MachineInt
import RecurrenceCompiler.Proofs.Script.Numbers
import RecurrenceCompiler.Proofs.Script.Scopes

/-!
# Shifted indices

An index with a shift is written as a sum or a difference (`isText_shiftedIndex`). Scripts compute indices
on doubles and compiled code on integers of 32 bits; what either does with them is `IndexArithmetic`, in
which an integer index with a shift is an integer again as long as it stays below a limit
(`IndexArithmetic.eval_shifted`) or does not fall below zero (`IndexArithmetic.eval_shifted_of_le`).
-/

namespace RecurrenceCompiler

open Text Decimal

theorem Decimal.IsFinite.neg {x : Float} (h : IsFinite x) : IsFinite (-x) := by
  rw [IsFinite] at h ⊢
  rw [unpack_neg]
  cases hu : x.toModel.unpack <;> rw [hu] at h <;> first | exact h.elim | trivial

namespace Script

/-- An index with a shift. -/
def Expression.shifted (index : String) (shift : Int) : Expression :=
  if shift == 0 then .name index
  else if 0 < shift then .binary .add (.name index) (.ofNumber (ofInt shift))
  else .binary .sub (.name index) (.ofNumber (ofInt (-shift)))

/-- A natural number has no sign. -/
theorem showsSign_ofInt {i : Int} (hi : 0 ≤ i) : showsSign (ofInt i) = false := by
  cases hsign : showsSign (ofInt i) with
  | false => rfl
  | true =>
    -- What is written with a sign is below zero.
    have hround := rounds_ofInt i
    have hzero : IsIntegral 0.0 ∧ toInt 0.0 = 0 := toFloat_natural 0
    have hlt := (hround.isIntegral.lt_iff hzero.1).1 (lt_zero_of_showsSign hsign)
    have hle := le_onDoubleGrid hzero.1 (hzero.2 ▸ hi)
    rw [hzero.2] at hlt hle
    rw [toInt_ofInt] at hlt
    omega

/-- A natural number is written without a sign. -/
theorem isText_intText {i : Int} (hi : 0 ≤ i) : IsText .operand (intText i) [.ofNumber (ofInt i)] :=
  (isText_numeral (isNumeral_intText i)).2 (showsSign_ofInt hi)

/-- **An index with a shift is written as a sum or a difference.** -/
theorem isText_shiftedIndex {index : String} (h : IsText .operand index [.name index]) (shift : Int)
    {level : Nat} (hlevel : level ≤ 5) :
    IsText (.binary level) (shiftedIndex index shift) [.shifted index shift] := by
  have hjoin (symbol : String) {o : Operator} (ho : o.level = 5)
      (hsymbol : tokens? symbol.toList = some [.mark (.op o)]) {i : Int} (hi : 0 ≤ i) :
      IsText (.binary level) (index ++ " " ++ symbol ++ " " ++ intText i)
        [.binary o (.name index) (.ofNumber (ofInt i))] := by
    refine IsText.join (m := .op o) (k := 5) ?_ hsymbol hlevel (h.binary 5)
      ((isText_intText hi).binary 6)
    rw [← ho]
    rfl
  rw [shiftedIndex, Expression.shifted]
  split
  · exact h.binary level
  · split
    · next hpos =>
      simpa [String.append_assoc] using hjoin "+" (o := .add) rfl rfl hpos.le
    · next hneg =>
      have hsub := hjoin "-" (o := .sub) rfl rfl (i := -shift) (by omega)
      simpa [String.append_assoc] using hsub

/-! ## Values -/

theorem unpack_ofInt_zero : (ofInt 0).toModel.unpack = .zero .positive := rfl

/-- A shift is added to a coordinate like its integer, whatever the sign of a shift by zero. -/
theorem add_toFloat {x : Float} (hx : isNegativeZero x = false) (w : Whole) :
    x + w.toFloat = x + ofInt w.toInt := by
  rw [Whole.toFloat]
  split
  · next hzero =>
    obtain ⟨-, hmagnitude⟩ := Bool.and_eq_true_iff.1 hzero
    have htoInt : w.toInt = 0 := by
      rw [Whole.toInt, beq_iff_eq.1 hmagnitude]
      split <;> rfl
    have hnegative : (-0.0 : Float).toModel.unpack = .zero .negative := isNegativeZero_iff.1 (by decide +kernel)
    rw [htoInt, add_eq_self hx hnegative, add_eq_self hx unpack_ofInt_zero]
  · rfl

/-- **The value of an index with a shift**, wherever the index is. -/
theorem eval_shifted {names : Expression.Names Float} (hnames : KnowsNumbers names)
    (functions : Expression.Functions Float) {index : String} {x : Float}
    (hindex : names index = .ok (.num x)) (hx : isNegativeZero x = false) (shift : Int) :
    (Expression.shifted index shift).eval names functions = .ok (.num (x + ofInt shift)) := by
  have hname : (Expression.name index).eval names functions = .ok (.num x) := hindex
  have hnumber (i : Int) : (Expression.ofNumber (ofInt i)).eval names functions = .ok (.num (ofInt i)) :=
    eval_ofNumber hnames functions (isNegativeZero_ofInt i)
  rw [Expression.shifted]
  split
  · next hzero =>
    rw [beq_iff_eq.1 hzero, add_eq_self hx unpack_ofInt_zero, hname]
  · split
    · exact Expression.eval_binary hname (hnumber shift)
    · next hne hneg =>
      have hopposite : ofInt shift = -ofInt (-shift) := by
        have hlt : shift < 0 := by
          have hne : shift ≠ 0 := by simpa using hne
          omega
        rw [ofInt, ofInt, if_pos hlt, if_neg (by omega), Int.natAbs_neg]
      rw [Expression.eval_binary hname (hnumber (-shift)), hopposite]
      exact congrArg (fun y => Except.ok (Value.num y)) (sub_eq_add_neg x _)

theorem isInt_zero : IsInt 0.0 0 :=
  isInt_ofInt (i := 0) (by decide)

/-- A number system in which some numbers stand for integers, as far as indices need it: comparisons are
those of the integers, and so are sums up to a limit and differences from zero up. -/
structure IndexArithmetic (α : Type) [Carrier α] (Is : α → Int → Prop) (limit : Int) : Prop where
  limit_nonneg : 0 ≤ limit
  limit_le : limit ≤ 2 ^ 53
  lt_iff {x y i j} : Is x i → Is y j → (Carrier.lt x y = true ↔ i < j)
  le_iff {x y i j} : Is x i → Is y j → (Carrier.le x y = true ↔ i ≤ j)
  literal {y k} : IsInt y k → 0 ≤ k → k ≤ limit → Is (Carrier.ofFloat y) k
  add {x y i j} : Is x i → Is y j → 0 ≤ i → 0 ≤ j → i + j ≤ limit → Is (Carrier.add x y) (i + j)
  /-- A difference that is not below zero is one of integers. -/
  sub {x y z i k} : Is x i → 0 ≤ i → i ≤ limit → IsInt y k → 0 ≤ k → Is z 0 →
    Carrier.le z (Carrier.sub x (Carrier.ofFloat y)) = true →
    ∃ j, Is (Carrier.sub x (Carrier.ofFloat y)) j ∧ 0 ≤ j ∧ j ≤ i
  /-- A count that is below an integer is at one. -/
  start {y k n} : 0 ≤ k → Is y n → Carrier.lt (Carrier.ofInt k) y = true →
    ∃ j, Is (Carrier.ofInt k) j ∧ 0 ≤ j
  next {x y i n} : Is x i → 0 ≤ i → Is y n → Carrier.lt (Carrier.add x (Carrier.ofInt 1)) y = true →
    ∃ j, Is (Carrier.add x (Carrier.ofInt 1)) j ∧ 0 ≤ j

section
variable {α : Type} [Carrier α] (names : Expression.Names α) (functions : Expression.Functions α)

/-- The value of the text of an integral double without a sign. -/
theorem exists_eval_ofNumber {x : Float} {k : Int} (hx : IsInt x k) (hsign : showsSign x = false) : ∃ y,
    (Expression.ofNumber x).eval names functions = .ok (.num (Carrier.ofFloat y)) ∧ IsInt y k := by
  have hagrees := agrees x
  rw [showsSign] at hsign
  rw [Expression.ofNumber]
  cases hr : Reading.ofFloat x with
  | nan | infinite =>
    have hfinite := hx.finite
    rw [hr] at hagrees
    rw [IsFinite] at hfinite
    cases hu : x.toModel.unpack <;> rw [hu] at hagrees hfinite <;>
      first | exact hagrees.elim | exact hfinite.elim
  | zero negative =>
    rw [hr] at hagrees
    have hk : (k : ℚ) = 0 := by
      rw [← hx.value, doubleValue]
      cases hu : x.toModel.unpack <;> rw [hu] at hagrees <;> first | exact hagrees.elim | rfl
    obtain rfl := Int.cast_eq_zero.1 hk
    exact ⟨0.0, rfl, isInt_zero⟩
  | finite negative b =>
    rw [hr] at hsign
    obtain rfl : negative = false := hsign
    exact ⟨x, rfl, hx⟩

variable {Is : α → Int → Prop} {limit : Int} (h : IndexArithmetic α Is limit)
include h

namespace IndexArithmetic

theorem zero : Is (Carrier.ofFloat 0.0) 0 :=
  h.literal isInt_zero le_rfl h.limit_nonneg

/-- The value of the text of a natural number up to the limit. -/
theorem eval_natural {k : Int} (hk : 0 ≤ k) (hlimit : k ≤ limit) : ∃ y,
    (Expression.ofNumber (ofInt k)).eval names functions = .ok (.num y) ∧ Is y k := by
  have hle := h.limit_le
  have hint : IsInt (ofInt k) k := isInt_ofInt (by omega)
  obtain ⟨y, hy, hvalue⟩ := exists_eval_ofNumber names functions hint
    (showsSign_ofInt hk)
  exact ⟨_, hy, h.literal hvalue hk hlimit⟩

variable {names functions}

/-- **The value of an index with a shift upwards**, up to the limit. -/
theorem eval_shifted {index : String} {x : α} {i shift : Int} (hindex : names index = .ok (.num x))
    (hx : Is x i) (hi : 0 ≤ i) (hshift : 0 ≤ shift) (hlimit : i + shift ≤ limit) : ∃ y,
      (Expression.shifted index shift).eval names functions = .ok (.num y) ∧ Is y (i + shift) := by
  have hname : (Expression.name index).eval names functions = .ok (.num x) := hindex
  rw [Expression.shifted]
  split
  · next hzero =>
    obtain rfl : shift = 0 := by simpa using hzero
    rw [Int.add_zero]
    exact ⟨x, hname, hx⟩
  · next hne =>
    have hpos : 0 < shift := lt_of_le_of_ne hshift (Ne.symm (by simpa using hne))
    obtain ⟨y, hy, hvalue⟩ :=
      h.eval_natural names functions hshift (by omega)
    rw [if_pos hpos, Expression.eval_binary hname hy]
    exact ⟨_, rfl, h.add hx hvalue hi hshift hlimit⟩

/-- **The value of an index with a shift downwards**, where it is not below zero. -/
theorem eval_shifted_of_le {index : String} {x : α} {v : Value α} {i shift : Int}
    (hindex : names index = .ok (.num x)) (hx : Is x i) (hi : 0 ≤ i) (hlimit : i ≤ limit)
    (hshift : shift < 0) (hfinite : IsFinite (ofInt shift))
    (hv : (Expression.shifted index shift).eval names functions = .ok v)
    (hle : (Value.num (Carrier.ofFloat 0.0)).lessEq v = true) : ∃ y j, v = .num y ∧ Is y j ∧ 0 ≤ j ∧ j ≤ i := by
  have hname : (Expression.name index).eval names functions = .ok (.num x) := hindex
  have hopposite : ofInt (-shift) = -ofInt shift := by
    rw [ofInt, ofInt, if_neg (by omega), if_pos hshift, double_neg_neg, Int.natAbs_neg]
  have hint : IsInt (ofInt (-shift)) (onDoubleGrid (-shift)) :=
    ⟨hopposite ▸ hfinite.neg, by rw [(rounds_ofInt _).isIntegral.doubleValue_eq, toInt_ofInt]⟩
  obtain ⟨z, hz, hvalue⟩ := exists_eval_ofNumber names functions hint (showsSign_ofInt (by omega))
  rw [Expression.shifted, if_neg (by simpa using hshift.ne), if_neg (by omega),
    Expression.eval_binary hname hz] at hv
  cases hv
  have hpos : 0 ≤ onDoubleGrid (-shift) := by
    have hzero : IsIntegral 0.0 ∧ toInt 0.0 = 0 := toFloat_natural 0
    exact hzero.2 ▸ le_onDoubleGrid hzero.1 (hzero.2 ▸ (by omega : (0 : Int) ≤ -shift))
  obtain ⟨j, hj⟩ := h.sub hx hi hlimit hvalue hpos h.zero hle
  exact ⟨_, j, rfl, hj⟩

end IndexArithmetic

end

/-! ## Doubles and machine integers -/

/-- Rounding keeps what is not negative. -/
theorem toInt_nonneg_of_rounds {k : Int} {x : Float} (h : Rounds k x) (hk : 0 ≤ k) : 0 ≤ toInt x := by
  have hle := h.le 0.0 isInt_zero.finite.isNumber (by rw [isInt_zero.value]; exact_mod_cast hk)
  rw [isInt_zero.value, h.isIntegral.doubleValue_eq] at hle
  exact_mod_cast hle

/-- An integral double from zero up is an integer if a larger one is. -/
theorem isInt_of_lt {x y : Float} {n : Int} (hx : IsIntegral x) (hpos : 0 ≤ toInt x) (hy : IsInt y n)
    (hlt : x < y) : IsInt x (toInt x) := by
  refine ⟨?_, hx.doubleValue_eq⟩
  have hvalue := hx.doubleValue_eq
  have hless : (toInt x : ℚ) < doubleValue y := by
    rw [hy.value]
    exact_mod_cast hy.toInt_eq ▸ (hx.lt_iff hy.isIntegral).1 hlt
  have hlimit := (abs_le.1 (abs_doubleValue_le hy.finite.isNumber)).2
  have hpos : (0 : ℚ) ≤ toInt x := by exact_mod_cast hpos
  have hnumber := hx.1
  rw [← hvalue, doubleValue] at hless hpos
  rw [IsNumber] at hnumber
  rw [IsFinite]
  cases hu : x.toModel.unpack with
  | notANumber => exact hnumber hu
  | infinity s =>
    rw [hu] at hless hpos
    cases s with
    | positive =>
      exact absurd (hless.trans_le hlimit) (by simp [unpackedValue, Float.Model.UnpackedFloat.Sign.apply])
    | negative =>
      exact absurd hpos (by simp [unpackedValue, Float.Model.UnpackedFloat.Sign.apply, limit_pos])
  | zero | finite => trivial

/-- **Doubles count up to two to the power 53.** -/
theorem indexArithmetic_double : IndexArithmetic Float IsInt (2 ^ 53) where
  limit_nonneg := by decide
  limit_le := le_rfl
  lt_iff hx hy := by
    rw [← hx.toInt_eq, ← hy.toInt_eq, ← hx.isIntegral.lt_iff hy.isIntegral]
    exact decide_eq_true_iff
  le_iff hx hy := by
    rw [← hx.toInt_eq, ← hy.toInt_eq, ← hx.isIntegral.le_iff hy.isIntegral]
    exact decide_eq_true_iff
  literal hy _ _ := hy
  add hx hy hi hj hlimit := hx.add hy (by omega)
  sub := by
    intro x y z i k hx hi hlimit hy hk hz hle
    have hround := rounds_add hx.finite hy.finite.neg
    rw [doubleValue_neg, hx.value, hy.value, ← Int.cast_neg, ← Int.cast_add] at hround
    have hsub : (Carrier.sub x (Carrier.ofFloat y) : Float) = x + -y := Decimal.sub_eq_add_neg x y
    rw [hsub] at hle ⊢
    have hle : z ≤ x + -y := of_decide_eq_true hle
    rw [hz.isIntegral.le_iff hround.isIntegral, hz.toInt_eq] at hle
    have hpos : 0 ≤ i + -k := by
      by_contra hneg
      have hone : IsInt (ofInt (-1)) (-1) := isInt_ofInt (by decide)
      have hge := hround.ge _ hone.finite.isNumber (by rw [hone.value]; exact_mod_cast (by omega))
      rw [hone.value, hround.isIntegral.doubleValue_eq] at hge
      have hge : toInt (x + -y) ≤ -1 := by exact_mod_cast hge
      omega
    exact ⟨i + -k, hround.isInt (by omega), hpos, by omega⟩
  start := by
    intro y k n hk hy hlt
    have hround := rounds_ofInt k
    have hpos := toInt_nonneg_of_rounds hround hk
    exact ⟨_, isInt_of_lt hround.isIntegral hpos hy (of_decide_eq_true hlt), hpos⟩
  next := by
    intro x y i n hx hi hy hlt
    have hone : IsInt (ofInt 1) 1 := isInt_ofInt (by decide)
    have hround := rounds_add hx.finite hone.finite
    rw [hx.value, hone.value, ← Int.cast_add] at hround
    have hpos := toInt_nonneg_of_rounds hround (by omega)
    exact ⟨_, isInt_of_lt hround.isIntegral hpos hy (of_decide_eq_true hlt), hpos⟩

/-- The value of a number as a machine integer is the integer that it is. -/
theorem machine_ofFloat {strict : Bool} {y : Float} {k : Int} :
    (Carrier.ofFloat y : Machine strict).value? = some k ↔
      isWhole y = true ∧ toInt y = k ∧ -2 ^ 31 ≤ k ∧ k < 2 ^ 31 := by
  change (if isWhole y then Machine.check (toInt y) else none) = some k ↔ _
  split
  · next hwhole => simp [hwhole, Machine.check_eq_some]
  · next hwhole => simp [hwhole]

/-- **Integers of 32 bits count up to the largest one.** -/
theorem indexArithmetic_machine (strict : Bool) :
    IndexArithmetic (Machine strict) (fun x i => x.value? = some i) (2 ^ 31 - 1) where
  limit_nonneg := by decide
  limit_le := by decide
  lt_iff hx hy := by simp [Carrier.lt, hx, hy]
  le_iff hx hy := by simp [Carrier.le, hx, hy]
  literal hy hk hlimit := machine_ofFloat.2 ⟨hy.isWhole (by omega), hy.toInt_eq, by omega, by omega⟩
  add hx hy hi hj hlimit := Machine.combine_eq_some.2 ⟨_, _, hx, hy, rfl, by omega, by omega⟩
  sub := by
    intro x y z i k hx hi hlimit hy hk hz hle
    cases hv : (Carrier.sub x (Carrier.ofFloat y)).value? with
    | none => simp [Carrier.le, hv] at hle
    | some j =>
      have hj : 0 ≤ j := by simpa [Carrier.le, hv, hz] using hle
      obtain ⟨i', k', hi', hk', hsub, -, -⟩ := Machine.combine_eq_some.1 hv
      obtain rfl := Option.some.inj (hx.symm.trans hi')
      obtain ⟨-, rfl, -, -⟩ := machine_ofFloat.1 hk'
      obtain rfl := Option.some.inj hsub
      rw [hy.toInt_eq] at hj ⊢
      exact ⟨_, rfl, hj, by omega⟩
  start := by
    intro y k n hk hy hlt
    cases hv : (Carrier.ofInt k : Machine strict).value? with
    | none => simp [Carrier.lt, hv] at hlt
    | some j =>
      obtain ⟨-, rfl, -, -⟩ := machine_ofFloat.1 hv
      exact ⟨_, rfl, toInt_nonneg_of_rounds (rounds_ofInt k) hk⟩
  next := by
    intro x y i n hx hi hy hlt
    cases hv : (Carrier.add x (Carrier.ofInt 1)).value? with
    | none => simp [Carrier.lt, hv] at hlt
    | some j =>
      obtain ⟨i', k', hi', hk', hadd, -, -⟩ := Machine.combine_eq_some.1 hv
      obtain rfl := Option.some.inj (hx.symm.trans hi')
      obtain ⟨-, rfl, -, -⟩ := machine_ofFloat.1 hk'
      obtain rfl := Option.some.inj hadd
      have hone : IsInt (ofInt 1) 1 := isInt_ofInt (by decide)
      rw [hone.toInt_eq]
      exact ⟨_, rfl, by omega⟩

end Script

end RecurrenceCompiler
