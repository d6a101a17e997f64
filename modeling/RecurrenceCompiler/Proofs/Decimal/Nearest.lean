import RecurrenceCompiler.Decimal.Nearest
import RecurrenceCompiler.Proofs.Decimal.Interval
import RecurrenceCompiler.Proofs.Decimal.Rounding

/-!
# The nearest double is nearest

`ofQuotient` gives the double in whose interval the quotient lies, infinity beyond the largest interval
and zero below the smallest one (`nearest_ofQuotient`). Intervals do not meet, so a double is given
back by every quotient in its interval (`ofQuotient_of_near`), and no double lies between a quotient
and the one it is rounded to (`rounds_ofQuotient`).
-/

namespace RecurrenceCompiler.Decimal

open Float.Model
open Float.Model.UnpackedFloat hiding unpack pack add sub mul div compare le lt beq

/-! ## Rounding a quotient -/

/-- A quotient is rounded by at most a half, and by less than that if the result is odd. -/
theorem roundQuotient_spec (n : Nat) {d : Nat} (hd : 0 < d) :
    2 * n ≤ 2 * (roundQuotient n d * d) + d ∧ 2 * (roundQuotient n d * d) ≤ 2 * n + d ∧
      (roundQuotient n d % 2 ≠ 0 →
        2 * n < 2 * (roundQuotient n d * d) + d ∧ 2 * (roundQuotient n d * d) < 2 * n + d) := by
  have hdiv := Nat.div_add_mod n d
  have hmod := Nat.mod_lt n hd
  have hcomm : d * (n / d) = n / d * d := Nat.mul_comm _ _
  have hsucc : (n / d + 1) * d = n / d * d + d := Nat.succ_mul _ _
  rw [roundQuotient]
  split
  · next h =>
    simp only [Bool.or_eq_true, Bool.and_eq_true, decide_eq_true_eq, beq_iff_eq] at h
    omega
  · next h =>
    simp only [Bool.or_eq_true, Bool.and_eq_true, decide_eq_true_eq, beq_iff_eq] at h
    rw [hsucc]
    omega

/-- The rounded quotient over the rational numbers. -/
theorem roundQuotient_le (n : Nat) {d : Nat} (hd : 0 < d) :
    (n / d : ℚ) ≤ roundQuotient n d + 1 / 2 ∧ (roundQuotient n d : ℚ) - 1 / 2 ≤ n / d ∧
      (roundQuotient n d % 2 ≠ 0 →
        (n / d : ℚ) < roundQuotient n d + 1 / 2 ∧ (roundQuotient n d : ℚ) - 1 / 2 < n / d) := by
  obtain ⟨hle, hge, hodd⟩ := roundQuotient_spec n hd
  generalize roundQuotient n d = q at *
  have hd : (0 : ℚ) < d := by exact_mod_cast hd
  rw [div_le_iff₀ hd, le_div_iff₀ hd, div_lt_iff₀ hd, lt_div_iff₀ hd]
  have hle : 2 * (n : ℚ) ≤ 2 * (q * d) + d := by exact_mod_cast hle
  have hge : 2 * ((q : ℚ) * d) ≤ 2 * n + d := by exact_mod_cast hge
  refine ⟨by linarith, by linarith, fun h => ?_⟩
  obtain ⟨hlt, hgt⟩ := hodd h
  have hlt : 2 * (n : ℚ) < 2 * (q * d) + d := by exact_mod_cast hlt
  have hgt : 2 * ((q : ℚ) * d) < 2 * n + d := by exact_mod_cast hgt
  exact ⟨by linarith, by linarith⟩

/-- Scaling multiplies a quotient by a power of the base. -/
theorem scale_div {base : Nat} (hbase : 0 < base) (e : Int) (n d : Nat) :
    ((scale base e (n, d)).1 / (scale base e (n, d)).2 : ℚ) = n / d * base ^ e := by
  have hne : (base : ℚ) ≠ 0 := by exact_mod_cast hbase.ne'
  have hpow := zpow_mul_toNat (base : ℚ) hne e
  have hneg : (base : ℚ) ^ (-e).toNat ≠ 0 := pow_ne_zero _ hne
  rw [scale_eq]
  push_cast
  rw [← hpow]
  field_simp

theorem scale_pos {base d : Nat} (hbase : 0 < base) (hd : 0 < d) (e : Int) (n : Nat) :
    0 < (scale base e (n, d)).2 := by
  rw [scale_eq]
  positivity

section
variable {num den : Nat}

/-- A quotient lies between two adjacent powers of two. -/
theorem binaryMagnitude_spec (hnum : 0 < num) (hden : 0 < den) :
    (2 : ℚ) ^ binaryMagnitude num den ≤ num / den ∧
      (num / den : ℚ) < 2 ^ (binaryMagnitude num den + 1) := by
  have hdenq : (0 : ℚ) < den := by exact_mod_cast hden
  have hn : ((2 ^ num.log2 : Nat) : ℚ) ≤ num ∧ (num : ℚ) < (2 ^ (num.log2 + 1) : Nat) :=
    ⟨by exact_mod_cast Nat.log2_self_le hnum.ne', by exact_mod_cast Nat.lt_log2_self⟩
  have hd : ((2 ^ den.log2 : Nat) : ℚ) ≤ den ∧ (den : ℚ) < (2 ^ (den.log2 + 1) : Nat) :=
    ⟨by exact_mod_cast Nat.log2_self_le hden.ne', by exact_mod_cast Nat.lt_log2_self⟩
  have hquot := scale_div (show 0 < 2 by norm_num) (-((num.log2 : Int) - den.log2)) num den
  have hpos := scale_pos (show 0 < 2 by norm_num) hden (-((num.log2 : Int) - den.log2)) num
  rw [binaryMagnitude]
  dsimp only
  generalize scale 2 (-((num.log2 : Int) - den.log2)) (num, den) = p at *
  push_cast at hn hd hquot
  generalize num.log2 = a at *
  generalize den.log2 = b at *
  have hposq : (0 : ℚ) < p.2 := by exact_mod_cast hpos
  have hunit : (0 : ℚ) < 2 ^ (-((a : Int) - b)) := by positivity
  have hinv : (2 : ℚ) ^ ((a : Int) - b) * 2 ^ (-((a : Int) - b)) = 1 := by
    rw [← zpow_add₀ (by norm_num), add_neg_cancel, zpow_zero]
  have hab : (2 : ℚ) ^ ((a : Int) - b) * 2 ^ b = 2 ^ a := by
    rw [← zpow_natCast, ← zpow_natCast, ← zpow_add₀ (by norm_num), sub_add_cancel]
  have hsucc : (2 : ℚ) ^ ((a : Int) - b + 1) = 2 * 2 ^ ((a : Int) - b) := by
    rw [zpow_add₀ (by norm_num), zpow_one, mul_comm]
  have hpred : (2 : ℚ) ^ ((a : Int) - b) = 2 * 2 ^ ((a : Int) - b - 1) := by
    rw [show (a : Int) - b = (a : Int) - b - 1 + 1 by omega, zpow_add₀ (by norm_num), zpow_one,
      mul_comm, add_sub_cancel_right]
  have hpos' : (0 : ℚ) < 2 ^ ((a : Int) - b) := by positivity
  rw [pow_succ] at hn hd
  split
  · next h =>
    have h : (1 : ℚ) ≤ p.1 / p.2 := by
      rw [one_le_div hposq]
      exact_mod_cast h
    refine ⟨?_, ?_⟩
    · rw [hquot, ← hinv, mul_le_mul_iff_left₀ hunit] at h
      exact h
    · rw [hsucc, div_lt_iff₀ hdenq]
      nlinarith
  · next h =>
    have h : (p.1 / p.2 : ℚ) < 1 := by
      rw [div_lt_one hposq]
      exact_mod_cast not_le.1 h
    refine ⟨?_, ?_⟩
    · rw [le_div_iff₀ hdenq]
      nlinarith
    · rw [hquot, ← hinv, mul_lt_mul_iff_left₀ hunit] at h
      rwa [sub_add_cancel]

/-- The gap around a quotient: below it the quotient has 53 bits, or the gap is the smallest one. -/
theorem gapExponent_spec (hnum : 0 < num) (hden : 0 < den) :
    -1074 ≤ gapExponent num den ∧ (num / den : ℚ) < 2 ^ (gapExponent num den + 53) ∧
      (gapExponent num den ≠ -1074 → (2 : ℚ) ^ (gapExponent num den + 52) ≤ num / den) := by
  obtain ⟨hle, hlt⟩ := binaryMagnitude_spec hnum hden
  have hgap : gapExponent num den = max (binaryMagnitude num den - 52) (-1074) := rfl
  refine ⟨hgap ▸ le_max_right _ _, ?_, fun h => ?_⟩
  · exact hlt.trans_le (zpow_le_zpow_right₀ (by norm_num) (by omega))
  · rwa [show gapExponent num den + 52 = binaryMagnitude num den by omega]

end

/-! ## Bits -/

/-- The bits of a positive double or of infinity are read as they are. -/
theorem reading_ofBits {bits : Nat} (h : bits ≤ 2047 * 2 ^ 52) :
    Reading.ofFloat (Float.ofBits (UInt64.ofNat bits)) = Reading.ofBits bits := by
  have hbits : (UInt64.ofNat bits).toBitVec.toNat = bits := by
    rw [UInt64.toNat_toBitVec, UInt64.toNat_ofNat']
    omega
  have hvalid : Format.binary64.Valid (UInt64.ofNat bits).toBitVec := by
    refine ⟨fun hexponent hmantissa => absurd ?_ hmantissa⟩
    have hexponent : bits / 2 ^ 52 % 2048 = 2047 := by
      have := congrArg BitVec.toNat hexponent
      simpa [unpackExponent, Nat.shiftRight_eq_div_pow, hbits] using this
    refine BitVec.eq_of_toNat_eq ?_
    have hzero : bits % 2 ^ 52 = 0 := by omega
    simpa [unpackMantissa, hbits] using hzero
  have hback : (Float.ofBits (UInt64.ofNat bits)).toBits.toBitVec = (UInt64.ofNat bits).toBitVec :=
    pack_unpack hvalid
  rw [Reading.ofFloat, ← UInt64.toNat_toBitVec, hback, hbits]

/-- The bits put together from a mantissa and an exponent. -/
theorem reading_of_parts {m : Nat} {g : Int} (hm : 0 < m) (hlt : m < 2 ^ 53) (hmin : -1074 ≤ g)
    (hmax : g ≤ 971) (hnormal : g ≠ -1074 → 2 ^ 52 ≤ m) :
    Reading.ofBits ((g + 1074).toNat * 2 ^ 52 + m) =
      .finite false ⟨m, g, m == 2 ^ 52 && g != -1074⟩ := by
  obtain ⟨k, rfl⟩ : ∃ k : Nat, g = k - 1074 := ⟨(g + 1074).toNat, by omega⟩
  rw [show ((k : Int) - 1074 + 1074).toNat = k by omega, Reading.ofBits]
  simp only [Nat.pow_eq, beq_iff_eq]
  have hsign : ((k * 2 ^ 52 + m) / 2 ^ 63 % 2 == 1) = false := by
    rw [beq_eq_false_iff_ne]
    omega
  rw [hsign]
  by_cases hsmall : m < 2 ^ 52
  · -- A subnormal mantissa stands alone in the bits.
    obtain rfl : k = 0 := by omega
    have hbiased : (0 * 2 ^ 52 + m) / 2 ^ 52 % 2048 = 0 := by omega
    have hfraction : (0 * 2 ^ 52 + m) % 2 ^ 52 = m := by omega
    have hlowered : (m == 2 ^ 52 && ((0 : Nat) : Int) - 1074 != -1074) = false := by
      rw [Bool.and_eq_false_iff]
      exact .inl (beq_eq_false_iff_ne.2 hsmall.ne)
    rw [hbiased, hfraction, hlowered, if_neg (by omega), if_pos rfl, if_neg hm.ne']
    rfl
  · have hbiased : (k * 2 ^ 52 + m) / 2 ^ 52 % 2048 = k + 1 := by omega
    have hfraction : (k * 2 ^ 52 + m) % 2 ^ 52 = m - 2 ^ 52 := by omega
    rw [hbiased, hfraction, if_neg (by omega), if_neg (by omega)]
    have hmantissa : 2 ^ 52 + (m - 2 ^ 52) = m := by omega
    have hexponent : ((k + 1 : Nat) : Int) - 1075 = k - 1074 := by omega
    have hlowered : (m - 2 ^ 52 == 0 && k + 1 != 1) = (m == 2 ^ 52 && (k : Int) - 1074 != -1074) := by
      rw [Bool.eq_iff_iff]
      simp only [Bool.and_eq_true, beq_iff_eq, bne_iff_ne, ne_eq]
      omega
    rw [hmantissa, hexponent, hlowered]

/-- Bits beyond the finite doubles. -/
theorem reading_infinity : Reading.ofBits (2047 * 2 ^ 52) = .infinite false := by
  decide +kernel

/-! ## The nearest double -/

/-- Where a positive number goes: to the double whose interval it is in, to infinity from the end of the
largest interval on, or to zero up to the start of the smallest one. -/
inductive Nearest (v : ℚ) : Reading → Prop
  | finite {b : Binary} : b.WellFormed → b.Near v → Nearest v (.finite false b)
  | infinite : (2 ^ 54 - 1) * 2 ^ (970 : Int) ≤ v → Nearest v (.infinite false)
  | zero : v ≤ 2 ^ (-1075 : Int) → Nearest v (.zero false)

/-- The interval of a binary number, in quarters of the gap above it. -/
theorem near_iff {b : Binary} {w : ℚ} :
    b.Near (w * 2 ^ b.exponent) ↔ Between (b.mantissa % 2 == 0) b.low b.high (4 * w) := by
  have hunit : (0 : ℚ) < 2 ^ (b.exponent - 2) := by positivity
  have hquarters : w * 2 ^ b.exponent = 4 * w * 2 ^ (b.exponent - 2) := by
    rw [zpow_sub₀ (by norm_num)]
    norm_num
    ring
  rw [Binary.Near, hquarters, between_mul_iff hunit]

/-- A number that rounds to a mantissa in units of a gap is in the interval of the double with that
mantissa and gap. Where the gap below is half as wide, the number may be below the double by half as
much only. -/
theorem near_of_round {q : Nat} {g : Int} {w : ℚ} {lowered : Bool} (hq : 0 < q) (hle : w ≤ q + 1 / 2)
    (hge : (q : ℚ) - 1 / 2 ≤ w) (hodd : q % 2 ≠ 0 → w < q + 1 / 2 ∧ (q : ℚ) - 1 / 2 < w)
    (hlowered : lowered = true → q % 2 = 0 ∧ (q : ℚ) - 1 / 4 ≤ w) : Binary.Near ⟨q, g, lowered⟩ (w * 2 ^ g) := by
  have hhigh : ((Binary.high ⟨q, g, lowered⟩ : Nat) : ℚ) = 4 * q + 2 := by
    rw [Binary.high]
    push_cast
    rfl
  have hlow : ((Binary.low ⟨q, g, lowered⟩ : Nat) : ℚ) = 4 * q - if lowered then 1 else 2 := by
    rw [Binary.low, Nat.cast_sub (by dsimp only; split <;> omega)]
    push_cast
    rfl
  -- What lies between is at most a quarter, or a half, below.
  have hbelow : (4 * q - if lowered = true then 1 else 2 : ℚ) ≤ 4 * w ∧
      (q % 2 ≠ 0 → (4 * q - if lowered = true then 1 else 2 : ℚ) < 4 * w) := by
    cases lowered with
    | true =>
      obtain ⟨heven, hqw⟩ := hlowered rfl
      rw [if_pos rfl]
      exact ⟨by linarith, fun h => absurd heven h⟩
    | false =>
      rw [if_neg (by decide)]
      exact ⟨by linarith, fun h => by linarith [(hodd h).2]⟩
  rw [near_iff, hhigh, hlow, Between]
  split
  · exact ⟨hbelow.1, by linarith⟩
  · next hne =>
    have hne : q % 2 ≠ 0 := by simpa using hne
    exact ⟨hbelow.2 hne, by linarith [(hodd hne).1]⟩

/-- From the end of the largest interval on. -/
theorem nearest_infinity {w : ℚ} {g : Int} (h : (971 ≤ g ∧ 2 ^ 53 - 1 / 2 ≤ w) ∨ (972 ≤ g ∧ 2 ^ 52 ≤ w)) :
    Nearest (w * 2 ^ g) (.infinite false) := by
  refine .infinite ?_
  have hstep (k : Int) : (2 : ℚ) ^ (k + 1) = 2 ^ k * 2 := zpow_add_one₀ (by norm_num) k
  have hpow {k : Int} (hk : k ≤ g) : (2 : ℚ) ^ k ≤ 2 ^ g := zpow_le_zpow_right₀ (by norm_num) hk
  have hunit : (0 : ℚ) < 2 ^ (970 : Int) := by positivity
  rcases h with ⟨hg, hw⟩ | ⟨hg, hw⟩
  · have hg := hpow hg
    rw [show (971 : Int) = 970 + 1 from rfl, hstep] at hg
    generalize (2 : ℚ) ^ (970 : Int) = u at *
    generalize (2 : ℚ) ^ g = x at *
    nlinarith
  · have hg := hpow hg
    rw [show (972 : Int) = 970 + 1 + 1 from rfl, hstep, hstep] at hg
    generalize (2 : ℚ) ^ (970 : Int) = u at *
    generalize (2 : ℚ) ^ g = x at *
    nlinarith

/-- A number that rounds to a mantissa in units of the gap is nearest to the double of that mantissa
and gap. -/
theorem nearest_of_round {q : Nat} {g : Int} {w : ℚ} (hmin : -1074 ≤ g) (hle : w ≤ q + 1 / 2)
    (hge : (q : ℚ) - 1 / 2 ≤ w) (hodd : q % 2 ≠ 0 → w < q + 1 / 2 ∧ (q : ℚ) - 1 / 2 < w)
    (hlt : w < 2 ^ 53) (hnormal : g ≠ -1074 → 2 ^ 52 ≤ w) :
    Nearest (w * 2 ^ g) (Reading.ofBits (min ((g + 1074).toNat * 2 ^ 52 + q) (2047 * 2 ^ 52))) := by
  have hq : q ≤ 2 ^ 53 := by
    have : (q : ℚ) < ((2 ^ 53 + 1 : Nat) : ℚ) := by
      push_cast
      linarith
    exact Nat.lt_succ_iff.1 (by exact_mod_cast this)
  have hqnormal (hg : g ≠ -1074) : 2 ^ 52 ≤ q := by
    have : ((2 ^ 52 : Nat) : ℚ) < ((q + 1 : Nat) : ℚ) := by
      push_cast
      linarith [hnormal hg]
    exact Nat.lt_succ_iff.1 (by exact_mod_cast this)
  rcases Nat.eq_zero_or_pos q with rfl | hpos
  · obtain rfl : g = -1074 := by
      by_contra hg
      have := hqnormal hg
      omega
    refine .zero ?_
    have hhalf : (2 : ℚ) ^ (-1075 : Int) = 1 / 2 * 2 ^ (-1074 : Int) := by
      rw [show (-1075 : Int) = -1074 - 1 from rfl, zpow_sub_one₀ (by norm_num)]
      ring
    rw [hhalf]
    refine mul_le_mul_of_nonneg_right ?_ (by positivity)
    simpa using hle
  · rcases hq.eq_or_lt with rfl | hq
    · -- Rounded up to the next power of two.
      have hw : (2 : ℚ) ^ 53 - 1 / 2 ≤ w := by exact_mod_cast hge
      by_cases hg : g ≤ 970
      · have hbits : min ((g + 1074).toNat * 2 ^ 52 + 2 ^ 53) (2047 * 2 ^ 52) =
            (g + 1 + 1074).toNat * 2 ^ 52 + 2 ^ 52 := by omega
        have hhalf : w * 2 ^ g = w / 2 * 2 ^ (g + 1) := by
          rw [zpow_add_one₀ (by norm_num)]
          ring
        have hwle : w / 2 ≤ ((2 ^ 52 : Nat) : ℚ) + 1 / 2 := by
          push_cast
          linarith
        rw [hbits, reading_of_parts (by norm_num) (by norm_num) (by omega) (by omega) (by omega), hhalf]
        refine .finite ⟨⟨by norm_num, by norm_num, ?_, ?_, .inl le_rfl⟩, ?_⟩
          (near_of_round (by norm_num) hwle ?_ (fun h => absurd (by norm_num) h) fun _ => ⟨by norm_num, ?_⟩)
        · dsimp only
          omega
        · dsimp only
          omega
        · simp only [Bool.and_eq_true, beq_iff_eq, bne_iff_ne]
        all_goals
          push_cast
          linarith
      · rw [min_eq_right (by omega), reading_infinity]
        exact nearest_infinity (.inl ⟨by omega, hw⟩)
    · by_cases hg : g ≤ 971
      · rw [min_eq_left (by omega), reading_of_parts hpos hq hmin hg hqnormal]
        refine .finite ⟨⟨hpos, hq, hmin, hg, ?_⟩, ?_⟩ (near_of_round hpos hle hge hodd fun h => ?_)
        · by_cases hg' : g = -1074
          · exact .inr hg'
          · exact .inl (hqnormal hg')
        · simp only [Bool.and_eq_true, beq_iff_eq, bne_iff_ne]
        · simp only [Bool.and_eq_true, beq_iff_eq, bne_iff_ne] at h
          have hw := hnormal h.2
          obtain rfl := h.1
          refine ⟨by norm_num, ?_⟩
          push_cast
          linarith
      · have hbig := hqnormal (by omega)
        rw [min_eq_right (by omega), reading_infinity]
        exact nearest_infinity (.inr ⟨by omega, hnormal (by omega)⟩)

/-- **The double of a quotient is the one whose interval the quotient is in.** -/
theorem nearest_ofQuotient {num den : Nat} (hnum : 0 < num) (hden : 0 < den) :
    Nearest (num / den) (Reading.ofFloat (ofQuotient num den)) := by
  obtain ⟨hmin, hlt, hnormal⟩ := gapExponent_spec hnum hden
  have hquot := scale_div (show 0 < 2 by norm_num) (-gapExponent num den) num den
  have hpos := scale_pos (show 0 < 2 by norm_num) hden (-gapExponent num den) num
  have hzero : (num == 0) = false := beq_eq_false_iff_ne.2 hnum.ne'
  rw [ofQuotient, hzero, if_neg (by decide), quotientBits]
  dsimp only [Nat.pow_eq]
  rw [reading_ofBits (min_le_right _ _)]
  generalize scale 2 (-gapExponent num den) (num, den) = p at *
  generalize gapExponent num den = g at *
  obtain ⟨hle, hge, hodd⟩ := roundQuotient_le p.1 hpos
  rw [hquot] at hle hge hodd
  generalize roundQuotient p.1 p.2 = q at *
  -- The quotient in units of the gap.
  obtain ⟨w, hw⟩ : ∃ w : ℚ, w = num / den * (2 : Nat) ^ (-g) := ⟨_, rfl⟩
  have hunit : (0 : ℚ) < 2 ^ g := by positivity
  have hv : (num / den : ℚ) = w * 2 ^ g := by
    rw [hw, Nat.cast_ofNat, zpow_neg, mul_assoc, inv_mul_cancel₀ hunit.ne', mul_one]
  rw [← hw] at hle hge hodd
  rw [hv] at hlt hnormal ⊢
  rw [add_comm, zpow_add₀ (by norm_num), mul_lt_mul_iff_left₀ hunit] at hlt
  rw [add_comm, zpow_add₀ (by norm_num), mul_le_mul_iff_left₀ hunit] at hnormal
  exact nearest_of_round hmin hle hge hodd (by exact_mod_cast hlt) fun hg => by exact_mod_cast hnormal hg

/-! ## Intervals of doubles -/

/-- The interval of a double lies between half the smallest double and the end of the largest interval,
both of them excluded. -/
theorem Binary.Near.bounds {b : Binary} (hb : b.WellFormed) {v : ℚ} (h : b.Near v) :
    2 ^ (-1075 : Int) < v ∧ v < (2 ^ 54 - 1) * 2 ^ (970 : Int) := by
  obtain ⟨hpos, hlt, hmin, hmax, -⟩ := hb.canonical
  have hunit : (0 : ℚ) < 2 ^ (b.exponent - 2) := by positivity
  have hlow : 2 ≤ b.low ∧ (b.mantissa % 2 = 0 → 2 < b.low) := by
    rw [Binary.low]
    split
    · next hl =>
      have := (hb.lowered.1 hl).1
      omega
    · omega
  have hhigh : b.high ≤ 2 ^ 55 - 2 ∧ (b.mantissa % 2 = 0 → b.high < 2 ^ 55 - 2) := by
    rw [Binary.high]
    omega
  have hsmall : (2 : ℚ) ^ (-1075 : Int) ≤ 2 * 2 ^ (b.exponent - 2) := by
    rw [mul_comm, ← zpow_add_one₀ (by norm_num)]
    exact zpow_le_zpow_right₀ (by norm_num) (by omega)
  have hlarge : ((2 ^ 55 - 2 : Nat) : ℚ) * 2 ^ (b.exponent - 2) ≤ (2 ^ 54 - 1) * 2 ^ (970 : Int) := by
    have hpow : (2 : ℚ) ^ (b.exponent - 2) ≤ 2 ^ (969 : Int) :=
      zpow_le_zpow_right₀ (by norm_num) (by omega)
    rw [show (970 : Int) = 969 + 1 from rfl, zpow_add_one₀ (by norm_num)]
    generalize (2 : ℚ) ^ (969 : Int) = u at *
    push_cast
    linarith
  rw [Binary.Near, Between] at h
  split at h
  · next heven =>
    have heven : b.mantissa % 2 = 0 := by simpa using heven
    have hlow : (2 : ℚ) < b.low := by exact_mod_cast hlow.2 heven
    have hhigh : (b.high : ℚ) < (2 ^ 55 - 2 : Nat) := by exact_mod_cast hhigh.2 heven
    have hlow := mul_lt_mul_of_pos_right hlow hunit
    have hhigh := mul_lt_mul_of_pos_right hhigh hunit
    exact ⟨by linarith, by linarith⟩
  · have hlow : (2 : ℚ) ≤ b.low := by exact_mod_cast hlow.1
    have hhigh : (b.high : ℚ) ≤ (2 ^ 55 - 2 : Nat) := by exact_mod_cast hhigh.1
    have hlow := mul_le_mul_of_nonneg_right hlow hunit.le
    have hhigh := mul_le_mul_of_nonneg_right hhigh hunit.le
    exact ⟨by linarith, by linarith⟩

/-- **A positive double is that of every quotient in its interval.** -/
theorem ofQuotient_of_near {x : Float} {b : Binary} (hx : Reading.ofFloat x = .finite false b)
    {num den : Nat} (hnum : 0 < num) (hden : 0 < den) (h : b.Near (num / den)) :
    ofQuotient num den = x := by
  have hb := wellFormed_of_reading hx
  obtain ⟨hlow, hhigh⟩ := h.bounds hb
  refine Reading.ofFloat_inj ?_
  have hnearest := nearest_ofQuotient hnum hden
  cases hr : Reading.ofFloat (ofQuotient num den) with
  | finite n c =>
    rw [hr] at hnearest
    cases hnearest with
    | finite hc hnear => rw [hx, h.unique hb hc hnear]
  | infinite n =>
    rw [hr] at hnearest
    cases hnearest with
    | infinite hge => linarith
  | zero n =>
    rw [hr] at hnearest
    cases hnearest with
    | zero hle => linarith
  | nan =>
    rw [hr] at hnearest
    cases hnearest

/-! ## Rounding -/

/-- The number that a reading stands for. -/
def Reading.value? : Reading → Option ℚ
  | .nan => none
  | .infinite negative => some (if negative then -limit else limit)
  | .zero _ => some 0
  | .finite negative b => some (if negative then -b.value else b.value)

/-- The reading of a double has its value. -/
theorem value?_eq_some_iff {x : Float} {v : ℚ} :
    (Reading.ofFloat x).value? = some v ↔ IsNumber x ∧ doubleValue x = v := by
  have hagrees := agrees x
  rw [IsNumber, doubleValue]
  cases hu : x.toModel.unpack <;> cases hr : Reading.ofFloat x <;> rw [hu, hr] at hagrees <;>
    try exact hagrees.elim
  case notANumber.nan => simp [Reading.value?]
  case zero.zero => simp [Reading.value?, unpackedValue]
  case infinity.infinite s n =>
    obtain rfl := hagrees
    cases s <;> simp [Reading.value?, unpackedValue, Sign.apply, isNegative]
  case finite.finite s m e hm n b =>
    obtain ⟨rfl, rfl, rfl⟩ := hagrees
    cases s <;> simp [Reading.value?, unpackedValue, Sign.apply, isNegative, Binary.value]

/-- A positive number among the doubles is a binary number or infinity. -/
theorem reading_of_pos {x : Float} (hx : IsNumber x) (hpos : 0 < doubleValue x) :
    (∃ b : Binary, b.WellFormed ∧ doubleValue x = b.value) ∨ doubleValue x = limit := by
  have hvalue := value?_eq_some_iff.2 ⟨hx, rfl⟩
  have hlimit := limit_pos
  cases hr : Reading.ofFloat x with
  | nan =>
    rw [hr] at hvalue
    cases hvalue
  | infinite n =>
    rw [hr] at hvalue
    have hvalue := Option.some.inj hvalue
    cases n with
    | true =>
      rw [if_pos rfl] at hvalue
      linarith
    | false => exact .inr (by rw [← hvalue]; rfl)
  | zero n =>
    rw [hr] at hvalue
    exact absurd (Option.some.inj hvalue) hpos.ne
  | finite n b =>
    rw [hr] at hvalue
    have hvalue := Option.some.inj hvalue
    have hb := wellFormed_of_reading hr
    have hbpos : 0 < b.value := hb.canonical.value_pos
    cases n with
    | true =>
      rw [if_pos rfl] at hvalue
      linarith
    | false => exact .inl ⟨b, hb, hvalue.symm⟩

/-- No double is beyond the infinities. -/
theorem abs_doubleValue_le {g : Float} (hg : IsNumber g) : |doubleValue g| ≤ limit := by
  obtain ⟨m, e, -, -, hmax, hvalue | hvalue⟩ := exists_magnitude hg <;> rw [hvalue]
  · rwa [abs_of_nonneg (by positivity)]
  · rwa [abs_neg, abs_of_nonneg (by positivity)]

/-- The end of the largest interval is before the infinities. -/
theorem end_lt_limit : ((2 : ℚ) ^ 54 - 1) * 2 ^ (970 : Int) < limit := by
  have hunit : (0 : ℚ) < 2 ^ (970 : Int) := by positivity
  rw [limit, show (1024 : Int) = 54 + 970 from rfl, zpow_add₀ (by norm_num)]
  refine mul_lt_mul_of_pos_right ?_ hunit
  norm_num

/-- No double lies between a number and the double nearest to it. -/
theorem Nearest.rounds {v : ℚ} {y : Float} (hv : 0 < v) (h : Nearest v (Reading.ofFloat y)) :
    Rounds v y := by
  have hend := end_lt_limit
  have hlimit := limit_pos
  -- A positive double other than infinity is in its own interval.
  have hself {c : Binary} (hc : c.WellFormed) := (near_value hc).bounds hc
  cases hr : Reading.ofFloat y with
  | nan =>
    rw [hr] at h
    cases h
  | infinite n =>
    rw [hr] at h
    cases h with
    | infinite hge =>
      obtain ⟨hy, hvalue⟩ := value?_eq_some_iff.1 (by rw [hr]; rfl : (Reading.ofFloat y).value? = some limit)
      refine ⟨hy, fun g hg _ => ?_, fun g hg hle => ?_⟩ <;> rw [hvalue]
      · exact (abs_le.1 (abs_doubleValue_le hg)).2
      · rcases reading_of_pos hg (hv.trans_le hle) with ⟨c, hc, hcv⟩ | hcv
        · linarith [(hself hc).2]
        · exact hcv.ge
  | zero n =>
    rw [hr] at h
    cases h with
    | zero hle =>
      obtain ⟨hy, hvalue⟩ := value?_eq_some_iff.1 (by rw [hr]; rfl : (Reading.ofFloat y).value? = some 0)
      refine ⟨hy, fun g hg hge => ?_, fun g hg hge => ?_⟩ <;> rw [hvalue]
      · by_contra hpos
        rcases reading_of_pos hg (not_le.1 hpos) with ⟨c, hc, hcv⟩ | hcv
        · linarith [(hself hc).1]
        · have hsmall : (2 : ℚ) ^ (-1075 : Int) ≤ 1 := zpow_le_one_of_nonpos₀ (by norm_num) (by norm_num)
          have hone : (1 : ℚ) < limit := by
            rw [limit]
            exact one_lt_zpow₀ (by norm_num) (by norm_num)
          rw [hcv] at hge
          exact absurd (hge.trans (hle.trans hsmall)) (not_le.2 hone)
      · exact hv.le.trans hge
  | finite n b =>
    rw [hr] at h
    cases h with
    | finite hb hnear =>
      obtain ⟨hy, hvalue⟩ := value?_eq_some_iff.1
        (by rw [hr]; rfl : (Reading.ofFloat y).value? = some b.value)
      have hbounds := hnear.bounds hb
      refine ⟨hy, fun g hg hle => ?_, fun g hg hle => ?_⟩ <;> rw [hvalue]
      · by_contra hlt
        have hlt := not_le.1 hlt
        rcases reading_of_pos hg (hb.canonical.value_pos.trans hlt) with ⟨c, hc, hcv⟩ | hcv
        · rw [hcv] at hle hlt
          exact absurd hle (not_le.2 (hnear.lt_of_value_lt hb hc hlt))
        · linarith
      · by_contra hlt
        have hlt := not_le.1 hlt
        rcases reading_of_pos hg (hv.trans_le hle) with ⟨c, hc, hcv⟩ | hcv
        · rw [hcv] at hle hlt
          exact absurd hle (not_le.2 (hnear.lt_of_lt_value hb hc hlt))
        · have := (hself hb).2
          linarith

/-- **A quotient is rounded to a double.** -/
theorem rounds_ofQuotient (num : Nat) {den : Nat} (hden : 0 < den) :
    Rounds (num / den) (ofQuotient num den) := by
  rcases Nat.eq_zero_or_pos num with rfl | hnum
  · have hun : (0.0 : Float).toModel.unpack = .zero .positive := rfl
    have hnumber : IsNumber 0.0 := by
      rw [IsNumber, hun]
      simp
    have hvalue : doubleValue 0.0 = ((0 : Nat) : ℚ) / den := by
      simp [doubleValue, hun, unpackedValue]
    exact hvalue ▸ rounds_self hnumber
  · exact (nearest_ofQuotient hnum hden).rounds (by positivity)

end RecurrenceCompiler.Decimal
