import Mathlib

/-!
# Doubles, unpacked

A double is given by its unpacked form: a sign, a mantissa of at most 53 bits and an exponent, in the
one way that `Canonical` allows (`double_ext`), and packing keeps such a form (`unpack_pack`). So
statements about doubles are statements about unpacked forms; `doubleValue` is the rational number
that a double stands for, and comparing doubles is comparing those (`lt_iff`, `le_iff`, `beq_iff`).
-/

namespace RecurrenceCompiler.Decimal

open Float.Model
open Float.Model.UnpackedFloat hiding unpack pack add sub mul div compare le lt beq

/-! ## Canonical forms -/

/-- The parts of a finite double: 53 bits of mantissa, fewer only at the smallest exponent. -/
structure Canonical (m : Nat) (e : Int) : Prop where
  pos : 0 < m
  lt : m < 2 ^ 53
  min : -1074 ≤ e
  max : e ≤ 971
  normal : 2 ^ 52 ≤ m ∨ e = -1074

/-- An unpacked double in the form that unpacking gives. -/
def IsCanonical : UnpackedFloat → Prop
  | .finite _ m e _ => Canonical m e
  | _ => True

/-- A mantissa of 53 bits. -/
theorem log2_eq {m : Nat} (h : 2 ^ 52 ≤ m) (h' : m < 2 ^ 53) : m.log2 = 52 :=
  (Nat.log2_eq_iff (by omega)).2 ⟨h, h'⟩

/-- The mantissa of a normal double with its implicit bit. -/
theorem toNat_implicit (m : BitVec 52) : (1#1 ++ m).toNat = 2 ^ 52 + m.toNat := by
  rw [BitVec.toNat_append, ← Nat.shiftLeft_add_eq_or_of_lt m.isLt]
  rfl

/-- Unpacking gives a canonical form. -/
theorem isCanonical_unpack (b : BitVec 64) :
    IsCanonical (UnpackedFloat.unpack Format.binary64 b) := by
  unfold UnpackedFloat.unpack
  extract_lets mantissa exponentVec exponent signVec sign
  have hm : mantissa.toNat < 2 ^ 52 := mantissa.isLt
  have he : exponentVec.toNat < 2 ^ 11 := exponentVec.isLt
  have hexp : exponent = exponentVec.toNat - 1075 := rfl
  split
  · split <;> trivial
  · next hne =>
    have hne' : exponentVec.toNat ≠ 2047 := fun h => hne (BitVec.eq_of_toNat_eq h)
    split
    · next hz =>
      have hz' : exponentVec.toNat = 0 := by rw [hz]; rfl
      split
      · trivial
      · next hpos =>
        have hpos' : mantissa.toNat ≠ 0 := fun h => hpos (BitVec.eq_of_toNat_eq h)
        exact ⟨by omega, by omega, by omega, by omega, .inr (by omega)⟩
    · next hz =>
      have hz' : exponentVec.toNat ≠ 0 := fun h => hz (BitVec.eq_of_toNat_eq h)
      have hval := toNat_implicit mantissa
      exact ⟨by omega, by omega, by omega, by omega, .inl (by omega)⟩

/-! ## Packing and unpacking -/

/-- The sign is where packing puts it. -/
theorem unpackSign_packComponents {spec : Format} {sign exponent mantissa} :
    unpackSign (packComponents spec sign exponent mantissa) = sign.toBitVec := by
  ext i hi
  obtain rfl : i = 0 := by omega
  simp only [unpackSign, packComponents, BitVec.getElem_cast, BitVec.extractLsb,
    BitVec.getElem_extractLsb', BitVec.getLsbD_append]
  simp

/-- A sign is its bit. -/
theorem ofBitVec_toBitVec (s : Sign) : Sign.ofBitVec s.toBitVec = s := by
  cases s <;> rfl

/-- Bits are put together from the three parts that unpacking reads. -/
theorem eq_packComponents (b : BitVec 64) :
    b = packComponents Format.binary64 (Sign.ofBitVec (@unpackSign Format.binary64 b))
      (@unpackExponent Format.binary64 b) (@unpackMantissa Format.binary64 b) := by
  have hs : ∀ c : BitVec 1, (Sign.ofBitVec c).toBitVec = c := by decide
  rw [packComponents, hs]
  apply BitVec.eq_of_getLsbD_eq
  intro i hi
  simp only [unpackSign, unpackExponent, unpackMantissa, BitVec.getLsbD_append,
    BitVec.getLsbD_cast, BitVec.extractLsb, BitVec.getLsbD_extractLsb']
  by_cases h1 : i < 52
  · simp [h1]
  · by_cases h2 : i - 52 < 11
    · simp [h1, h2, show 52 + (i - 52) = i by omega]
    · obtain rfl : i = 63 := by omega
      simp [-BitVec.getLsbD_eq_getElem]

/-- The unpacked form of three parts. -/
theorem unpack_packComponents (s : Sign) (e : BitVec 11) (m : BitVec 52) :
    UnpackedFloat.unpack Format.binary64 (packComponents Format.binary64 s e m) =
      if e = -1#_ then if m = 0#_ then .infinity s else .notANumber
      else if e = 0#_ then
        if h : m = 0#_ then .zero s
        else .finite s m.toNat (e.toNat - 1075 + 1)
          (by simpa [BitVec.toNat_pos, BitVec.pos_iff_ne_zero])
      else .finite s (1#1 ++ m).toNat (e.toNat - 1075) (by rw [toNat_implicit]; omega) := by
  simp only [UnpackedFloat.unpack, unpackMantissa_packComponents, unpackExponent_packComponents,
    unpackSign_packComponents, ofBitVec_toBitVec]
  rfl

/-- The packed form of a finite double. -/
theorem pack_finite (s : Sign) (m : Nat) (e : Int) (hm : 0 < m) :
    UnpackedFloat.pack Format.binary64 (.finite s m e hm) =
      if 2 ^ 11 ≤ (e + 1075).toNat + 1 then packedInfinity Format.binary64 s
      else if m.log2 = 52 then
        packComponents Format.binary64 s (BitVec.ofNat 11 (e + 1075).toNat) (BitVec.ofNat 52 m)
      else packComponents Format.binary64 s 0#11 (BitVec.ofNat 52 m) := by
  have hbias : (e + Format.binary64.exponentBias +
      Format.binary64.mantissaBitsWithoutImplicit).toNat = (e + 1075).toNat := by
    have h1 : (Format.binary64.exponentBias : Int) = 1023 := rfl
    have h2 : (Format.binary64.mantissaBitsWithoutImplicit : Int) = 52 := rfl
    omega
  have hlog : (m.log2 + 1 = Format.binary64.mantissaBits) ↔ m.log2 = 52 := by
    simp [Format.mantissaBits]
  simp only [UnpackedFloat.pack, hbias, hlog]

/-- A number that fits is its bits. -/
theorem toNat_ofNat_of_lt {w n : Nat} (h : n < 2 ^ w) : (BitVec.ofNat w n).toNat = n := by
  rw [BitVec.toNat_ofNat, Nat.mod_eq_of_lt h]

/-- **Packing keeps a canonical form.** -/
theorem unpack_pack {u : UnpackedFloat} (h : IsCanonical u) : (Float.Model.pack u).unpack = u := by
  change UnpackedFloat.unpack Format.binary64 (UnpackedFloat.pack Format.binary64 u) = u
  cases u with
  | notANumber | infinity _ | zero _ => exact (unpack_packComponents _ _ _).trans rfl
  | finite s m e hm =>
    obtain ⟨hpos, hlt, hmin, hmax, hnormal⟩ := h
    rw [pack_finite, if_neg (by omega)]
    split
    · next hlog =>
      have hge := ((Nat.log2_eq_iff (by omega)).1 hlog).1
      have he : (BitVec.ofNat 11 (e + 1075).toNat).toNat = (e + 1075).toNat :=
        toNat_ofNat_of_lt (by omega)
      have hm : (BitVec.ofNat 52 m).toNat = m - 2 ^ 52 := by
        rw [BitVec.toNat_ofNat]
        omega
      have he1 : BitVec.ofNat 11 (e + 1075).toNat ≠ -1#_ := fun h => by
        have h2047 : (e + 1075).toNat = 2047 := he ▸ congrArg BitVec.toNat h
        omega
      have he0 : BitVec.ofNat 11 (e + 1075).toNat ≠ 0#_ := fun h => by
        have h0 : (e + 1075).toNat = 0 := he ▸ congrArg BitVec.toNat h
        omega
      rw [unpack_packComponents, if_neg he1, if_neg he0]
      congr 1
      · rw [toNat_implicit, hm]
        omega
      · rw [he]
        omega
    · next hlog =>
      have hm52 : m < 2 ^ 52 := by
        by_contra hge
        exact hlog (log2_eq (by omega) hlt)
      have hm := toNat_ofNat_of_lt hm52
      have hm0 : BitVec.ofNat 52 m ≠ 0#_ := fun h => by
        have h0 : m = 0 := hm ▸ congrArg BitVec.toNat h
        omega
      rw [unpack_packComponents, if_neg (by decide), if_pos rfl, dif_neg hm0]
      congr 1
      rw [BitVec.toNat_zero]
      omega

/-- Unpacking and packing keeps the bits of a double. -/
theorem pack_unpack {b : BitVec 64} (h : Format.binary64.Valid b) :
    UnpackedFloat.pack Format.binary64 (UnpackedFloat.unpack Format.binary64 b) = b := by
  have hb := eq_packComponents b
  generalize Sign.ofBitVec (@unpackSign Format.binary64 b) = s at hb
  have hnan := h.eq_packedNaN
  generalize @unpackExponent Format.binary64 b = e at hb hnan
  generalize @unpackMantissa Format.binary64 b = m at hb hnan
  subst hb
  have hm : m.toNat < 2 ^ 52 := m.isLt
  have he : e.toNat < 2 ^ 11 := e.isLt
  rw [unpack_packComponents]
  split
  · next he =>
    split
    · next hm => subst he hm; rfl
    · next hm => exact (hnan he hm).symm
  · next hne =>
    have hne' : e.toNat ≠ 2047 := fun h => hne (BitVec.eq_of_toNat_eq h)
    split
    · next hz =>
      subst hz
      split
      · next hm => subst hm; rfl
      · next hmz =>
        have hlog : m.toNat.log2 ≠ 52 := fun hl => by
          have hge := ((Nat.log2_eq_iff (fun hz => hmz (BitVec.eq_of_toNat_eq hz))).1 hl).1
          omega
        rw [pack_finite, if_neg (by simp), if_neg hlog, BitVec.ofNat_toNat, BitVec.setWidth_eq]
    · next hz =>
      have hz' : e.toNat ≠ 0 := fun h => hz (BitVec.eq_of_toNat_eq h)
      have hval := toNat_implicit m
      have hexp : ((e.toNat : Int) - 1075 + 1075).toNat = e.toNat := by omega
      rw [pack_finite, hexp, if_neg (by omega), if_pos (log2_eq (by omega) (by omega))]
      congr 1
      · rw [BitVec.ofNat_toNat, BitVec.setWidth_eq]
      · apply BitVec.eq_of_toNat_eq
        rw [BitVec.toNat_ofNat, hval]
        omega

/-- **A double is given by its unpacked form.** -/
theorem double_ext {x y : Float} (h : x.toModel.unpack = y.toModel.unpack) : x = y := by
  obtain ⟨⟨b, hb⟩⟩ := x
  obtain ⟨⟨c, hc⟩⟩ := y
  have hbc : b.toBitVec = c.toBitVec := by
    rw [← pack_unpack hb, ← pack_unpack hc]
    exact congrArg _ h
  obtain rfl : b = c := UInt64.toBitVec_inj.1 hbc
  rfl

/-- The unpacked form of a double is canonical. -/
theorem isCanonical_double (x : Float) : IsCanonical x.toModel.unpack :=
  isCanonical_unpack x.toModel.toBits.toBitVec

/-! ## The value of a double -/

/-- The power of two just beyond the finite doubles. -/
@[irreducible] def limit : ℚ :=
  2 ^ (1024 : ℤ)

theorem limit_pos : 0 < limit := by
  rw [limit]
  exact zpow_pos (by norm_num) _

/-- The rational number that an unpacked double stands for. The infinities count as the powers of two
just beyond the finite doubles, and what is not a number counts as zero. -/
def unpackedValue : UnpackedFloat → ℚ
  | .finite s m e _ => s.apply m * 2 ^ e
  | .infinity s => s.apply 1 * limit
  | _ => 0

/-- The rational number that a double stands for, infinities included. -/
def doubleValue (x : Float) : ℚ :=
  unpackedValue x.toModel.unpack

/-- Changing the sign of a double changes that of its unpacked form. -/
theorem unpack_neg (x : Float) : (-x).toModel.unpack = x.toModel.unpack.neg := by
  refine unpack_pack ?_
  have hx := isCanonical_double x
  cases hu : x.toModel.unpack <;> rw [hu] at hx <;> exact hx

/-- Changing the sign changes the sign of the number. -/
theorem apply_neg (s : Sign) (n : Int) : (-s).apply n = -s.apply n := by
  cases s
  · exact (Int.neg_neg n).symm
  · rfl

/-- Changing the sign of a double changes that of its value. -/
@[simp] theorem doubleValue_neg (x : Float) : doubleValue (-x) = -doubleValue x := by
  rw [doubleValue, doubleValue, unpack_neg]
  cases x.toModel.unpack with
  | finite | infinity =>
    simp only [unpackedValue, UnpackedFloat.neg, apply_neg, Int.cast_neg, neg_mul]
  | _ => simp [unpackedValue, UnpackedFloat.neg]

/-! ## Comparing doubles -/

/-- A double that is a number, possibly infinite. -/
def IsNumber (x : Float) : Prop :=
  x.toModel.unpack ≠ .notANumber

/-- The size of a canonical mantissa. -/
theorem Canonical.value_lt {m : Nat} {e : Int} (h : Canonical m e) :
    (m : ℚ) * 2 ^ e < 2 ^ (e + 53) := by
  rw [zpow_add₀ (by norm_num), mul_comm]
  have hm : (m : ℚ) < 2 ^ (53 : ℤ) := by exact_mod_cast h.lt
  gcongr

/-- The order of canonical doubles is that of exponents, then that of mantissas. -/
theorem Canonical.compare_eq {m₁ m₂ : Nat} {e₁ e₂ : Int} (h₁ : Canonical m₁ e₁)
    (h₂ : Canonical m₂ e₂) :
    (compare e₁ e₂).then (compare m₁ m₂) = compare ((m₁ : ℚ) * 2 ^ e₁) (m₂ * 2 ^ e₂) := by
  -- A smaller exponent gives the smaller value, since the other mantissa is normal.
  have key : ∀ {m₁ m₂ : Nat} {e₁ e₂ : Int}, Canonical m₁ e₁ → Canonical m₂ e₂ → e₁ < e₂ →
      (m₁ : ℚ) * 2 ^ e₁ < m₂ * 2 ^ e₂ := by
    intro m₁ m₂ e₁ e₂ h₁ h₂ he
    have hnormal : 2 ^ 52 ≤ m₂ := h₂.normal.resolve_right (by have := h₁.min; omega)
    calc (m₁ : ℚ) * 2 ^ e₁ < 2 ^ (e₁ + 53) := h₁.value_lt
      _ ≤ 2 ^ (52 + e₂) := zpow_le_zpow_right₀ (by norm_num) (by omega)
      _ = 2 ^ (52 : ℤ) * 2 ^ e₂ := zpow_add₀ (by norm_num) _ _
      _ ≤ m₂ * 2 ^ e₂ := by
        have hm : (2 : ℚ) ^ (52 : ℤ) ≤ m₂ := by exact_mod_cast hnormal
        gcongr
  rcases lt_trichotomy e₁ e₂ with he | he | he
  · rw [compare_lt_iff_lt.2 he, compare_lt_iff_lt.2 (key h₁ h₂ he)]
    rfl
  · subst he
    have hpos : (0 : ℚ) < 2 ^ e₁ := by positivity
    rw [compare_eq_iff_eq.2 rfl, Ordering.eq_then]
    rcases lt_trichotomy m₁ m₂ with hm | hm | hm
    · rw [compare_lt_iff_lt.2 hm, compare_lt_iff_lt.2]
      exact mul_lt_mul_of_pos_right (by exact_mod_cast hm) hpos
    · subst hm
      simp
    · rw [compare_gt_iff_gt.2 hm, compare_gt_iff_gt.2]
      exact mul_lt_mul_of_pos_right (by exact_mod_cast hm) hpos
  · rw [compare_gt_iff_gt.2 he, compare_gt_iff_gt.2 (key h₂ h₁ he)]
    rfl

/-- A finite double is less than the infinite one. -/
theorem Canonical.value_lt_overflow {m : Nat} {e : Int} (h : Canonical m e) :
    (m : ℚ) * 2 ^ e < limit := by
  have hmax := h.max
  rw [limit]
  exact h.value_lt.trans_le (zpow_le_zpow_right₀ (by norm_num) (by omega))

/-- The value of a finite double is not zero. -/
theorem Canonical.value_pos {m : Nat} {e : Int} (h : Canonical m e) : 0 < (m : ℚ) * 2 ^ e :=
  mul_pos (by exact_mod_cast h.pos) (by positivity)

/-- Changing both signs turns the order around. -/
theorem swap_compare_neg (p q : ℚ) : (compare p q).swap = compare (-p) (-q) := by
  rcases lt_trichotomy p q with h | h | h
  · rw [compare_lt_iff_lt.2 h, compare_gt_iff_gt.2 (neg_lt_neg h)]
    rfl
  · rw [h, compare_eq_iff_eq.2 rfl, compare_eq_iff_eq.2 rfl]
    rfl
  · rw [compare_gt_iff_gt.2 h, compare_lt_iff_lt.2 (neg_lt_neg h)]
    rfl

/-- **The order of canonical forms is that of their values.** -/
theorem compare_unpacked {u v : UnpackedFloat} (hu : IsCanonical u) (hv : IsCanonical v)
    (hu' : u ≠ .notANumber) (hv' : v ≠ .notANumber) :
    u.compare v = some (compare (unpackedValue u) (unpackedValue v)) := by
  have hbig := limit_pos
  have lt {p q : ℚ} (h : p < q) : some Ordering.lt = some (compare p q) := by
    rw [compare_lt_iff_lt.2 h]
  have gt {p q : ℚ} (h : q < p) : some Ordering.gt = some (compare p q) := by
    rw [compare_gt_iff_gt.2 h]
  have eq (p : ℚ) : some Ordering.eq = some (compare p p) := by
    rw [compare_eq_iff_eq.2 rfl]
  have small {m : Nat} {e : Int} (h : Canonical m e) :
      0 < (m : ℚ) * 2 ^ e ∧ (m : ℚ) * 2 ^ e < limit :=
    ⟨h.value_pos, h.value_lt_overflow⟩
  -- Values of different signs are apart by zero, finite ones below infinite ones; only two finite
  -- values of one sign are compared by their parts.
  rcases u with ⟨_ | _⟩ | _ | _ | ⟨_ | _, m, e, hm⟩ <;>
    rcases v with ⟨_ | _⟩ | _ | _ | ⟨_ | _, m', e', hm'⟩ <;>
    simp only [unpackedValue, Sign.apply, Int.cast_neg, Int.cast_one, Int.cast_natCast,
      neg_mul, one_mul]
  all_goals first
    | exact absurd rfl hu'
    | exact absurd rfl hv'
    | exact eq _
    | exact congrArg some (Canonical.compare_eq hu hv)
    | exact congrArg some
        ((congrArg Ordering.swap (Canonical.compare_eq hu hv)).trans (swap_compare_neg _ _))
    | exact lt (by linarith)
    | exact gt (by linarith)
    | exact lt (by linarith [small hu])
    | exact gt (by linarith [small hu])
    | exact lt (by linarith [small hv])
    | exact gt (by linarith [small hv])
    | exact lt (by linarith [small hu, small hv])
    | exact gt (by linarith [small hu, small hv])

section
variable {x y : Float}

/-- The order of two numbers is that of their values. -/
theorem compare_eq (hx : IsNumber x) (hy : IsNumber y) :
    x.toModel.unpack.compare y.toModel.unpack = some (compare (doubleValue x) (doubleValue y)) :=
  compare_unpacked (isCanonical_double x) (isCanonical_double y) hx hy

theorem lt_iff (hx : IsNumber x) (hy : IsNumber y) : x < y ↔ doubleValue x < doubleValue y := by
  change decide ((x.toModel.unpack.compare y.toModel.unpack == some .lt) = true) = true ↔ _
  rw [decide_eq_true_iff, compare_eq hx hy, beq_iff_eq, Option.some_inj, compare_lt_iff_lt]

theorem le_iff (hx : IsNumber x) (hy : IsNumber y) : x ≤ y ↔ doubleValue x ≤ doubleValue y := by
  change decide ((x.toModel.unpack.compare y.toModel.unpack).any (·.isLE) = true) = true ↔ _
  rw [decide_eq_true_iff, compare_eq hx hy, Option.any_some, ← compare_le_iff_le, Ordering.isLE_iff_ne_gt]

theorem beq_iff (hx : IsNumber x) (hy : IsNumber y) :
    (x == y) = true ↔ doubleValue x = doubleValue y := by
  change (x.toModel.unpack.compare y.toModel.unpack == some .eq) = true ↔ _
  rw [compare_eq hx hy, beq_iff_eq, Option.some_inj, compare_eq_iff_eq]

end

end RecurrenceCompiler.Decimal
