import RecurrenceCompiler.Proofs.Decimal.Integers
import RecurrenceCompiler.Proofs.Decimal.Scan
import RecurrenceCompiler.Proofs.Decimal.Shortest

/-!
# The text of a number

A text spells a double if it is a literal, with a sign where one is due, for a number nearest to the
double (`Spells`). The text of a double spells it, and so does the text of an integer; a text spells
one double only, the two zeros apart. So numbers are told apart by their texts (`numberChars_inj`,
`intText_inj`), and the text of a finite number is read back as it (`Spells.signedLiteral?_eq`).
-/

namespace RecurrenceCompiler.Decimal

open Text Float.Model

/-! ## Digits -/

/-- The number that a literal spells. -/
def Literal.number (l : Literal) : ℚ :=
  natOfDigits (l.whole ++ l.fraction) * 10 ^ (l.power - l.fraction.length)

theorem natOfDigits_eq (cs : List Char) : natOfDigits cs = Nat.ofDigitChars 10 cs 0 := by
  rw [natOfDigits, digitsValue, Nat.ofDigitChars_eq_foldl]
  congr 1
  funext n c
  rw [mul_comm]
  rfl

@[simp] theorem natOfDigits_toDigits (n : Nat) : natOfDigits (Nat.toDigits 10 n) = n := by
  rw [natOfDigits_eq, Nat.ofDigitChars_ten_toDigits]

/-- Zeros behind digits count tenfold each. -/
theorem natOfDigits_append_zeros (cs : List Char) (k : Nat) :
    natOfDigits (cs ++ List.replicate k '0') = natOfDigits cs * 10 ^ k := by
  rw [natOfDigits_eq, natOfDigits_eq, Nat.ofDigitChars_append, Nat.ofDigitChars_replicate_zero,
    mul_comm]

/-- Zeros before digits do not count. -/
theorem natOfDigits_zeros_append (k : Nat) (cs : List Char) :
    natOfDigits (List.replicate k '0' ++ cs) = natOfDigits cs := by
  rw [natOfDigits_eq, natOfDigits_eq, Nat.ofDigitChars_append, Nat.ofDigitChars_replicate_zero,
    mul_zero]

theorem all_isDigit_toDigits (n : Nat) : (Nat.toDigits 10 n).all isDigit :=
  List.all_eq_true.2 fun _ hc => Nat.isDigit_of_mem_toDigits (by norm_num) le_rfl hc

theorem all_isDigit_zeros (k : Nat) : (List.replicate k '0').all isDigit :=
  List.all_eq_true.2 fun c hc => by
    rw [List.eq_of_mem_replicate hc]
    rfl

/-! ## Layouts -/

/-- A literal without an exponent is what its digits and its point say. -/
theorem Literal.number_of_digits {n : Nat} {k : Int} {l : Literal}
    (hn : natOfDigits (l.whole ++ l.fraction) = n) (hk : l.power - l.fraction.length = k) :
    l.number = n * 10 ^ k := by
  rw [Literal.number, hn, hk]

/-- A literal with one digit before the point and an exponent. -/
def scientific (c : Char) (rest : List Char) (power : Int) : Literal :=
  ⟨[c], !rest.isEmpty, rest,
    some ('e', some (if power < 0 then '-' else '+'), Nat.toDigits 10 power.natAbs)⟩

theorem wellFormed_scientific {c : Char} {rest : List Char} (hc : isDigit c) (hrest : rest.all isDigit)
    (power : Int) : (scientific c rest power).WellFormed := by
  refine ⟨by simpa [scientific] using hc, hrest, ?_, .inl (by simp [scientific]), ?_⟩
  · simp [scientific]
  · rintro e s ds heq
    simp only [scientific, Option.some.injEq, Prod.mk.injEq] at heq
    obtain ⟨rfl, rfl, rfl⟩ := heq
    refine ⟨.inl rfl, .inr ?_, Nat.toDigits_ne_nil, all_isDigit_toDigits _⟩
    split
    · exact .inr rfl
    · exact .inl rfl

theorem power_scientific (c : Char) (rest : List Char) (power : Int) :
    (scientific c rest power).power = power := by
  simp only [scientific, Literal.power, natOfDigits_toDigits]
  by_cases h : power < 0
  · rw [if_pos h, if_pos (by decide)]
    omega
  · rw [if_neg h, if_neg (by decide)]
    omega

/-- **A decimal is written as a literal for its number**, with a digit before the point. -/
theorem exists_literal (layout : Layout) (d : Digits) : ∃ l : Literal,
    l.WellFormed ∧ l.whole ≠ [] ∧ layout.write d = l.chars ∧ l.number = d.value := by
  have hall := all_isDigit_toDigits d.digits
  have hne : Nat.toDigits 10 d.digits ≠ [] := Nat.toDigits_ne_nil
  have hvalue := natOfDigits_toDigits d.digits
  rw [Layout.write]
  generalize Nat.toDigits 10 d.digits = ds at *
  have hlength : 0 < ds.length := List.length_pos_iff.2 hne
  dsimp only
  split
  · next h =>
    -- Zeros follow the digits.
    obtain ⟨k, hk⟩ : ∃ k : Nat, d.exponent = k := by
      have := of_decide_eq_true (Bool.and_eq_true_iff.1 h).1
      exact ⟨d.exponent.toNat, by omega⟩
    have hdigits : (ds ++ List.replicate d.exponent.toNat '0').all isDigit := by
      rw [List.all_append, hall, all_isDigit_zeros]
      rfl
    have hfirst : ds ++ List.replicate d.exponent.toNat '0' ≠ [] := by simp [hne]
    refine ⟨⟨ds ++ List.replicate d.exponent.toNat '0', false, [], none⟩,
      ⟨hdigits, rfl, fun _ => rfl, .inl hfirst, by simp⟩, hfirst, by simp [Literal.chars], ?_⟩
    rw [Literal.number, Digits.value, List.append_nil, natOfDigits_append_zeros, hvalue, hk]
    simp [Literal.power]
  · next hlarge =>
    split
    · next h =>
      -- The point stands between the digits.
      obtain ⟨hpos, hwhole⟩ := Bool.and_eq_true_iff.1 h
      have hpos := of_decide_eq_true hpos
      have hlt : (ds.length : Int) + d.exponent < ds.length := by
        by_contra hge
        exact hlarge (Bool.and_eq_true_iff.2 ⟨decide_eq_true (by omega), hwhole⟩)
      generalize hpoint : (ds.length + d.exponent).toNat = point
      have hfirst : ds.take point ≠ [] := by
        simp only [ne_eq, List.take_eq_nil_iff, hne, or_false]
        omega
      refine ⟨⟨ds.take point, true, ds.drop point, none⟩, ?_, hfirst, by simp [Literal.chars], ?_⟩
      · have hsplit : (ds.take point ++ ds.drop point).all isDigit := by
          rwa [List.take_append_drop]
        rw [List.all_append, Bool.and_eq_true] at hsplit
        exact ⟨hsplit.1, hsplit.2, by simp, .inl hfirst, by simp⟩
      · refine Literal.number_of_digits ?_ ?_
        · rw [List.take_append_drop, hvalue]
        · simp only [Literal.power, List.length_drop]
          omega
    · split
      · next h =>
        -- Zeros follow the point.
        have hle := of_decide_eq_true (Bool.and_eq_true_iff.1 h).2
        generalize hzeros : (-(ds.length + d.exponent)).toNat = zeros
        have hdigits : (List.replicate zeros '0' ++ ds).all isDigit := by
          rw [List.all_append, hall, all_isDigit_zeros]
          rfl
        refine ⟨⟨['0'], true, List.replicate zeros '0' ++ ds, none⟩,
          ⟨rfl, hdigits, by simp, .inl (by simp), by simp⟩, by simp, by simp [Literal.chars], ?_⟩
        refine Literal.number_of_digits ?_ ?_
        · rw [← hvalue]
          exact natOfDigits_zeros_append (zeros + 1) ds
        · simp only [Literal.power, List.length_append, List.length_replicate]
          omega
      · -- One digit stands before the point, and an exponent follows.
        obtain ⟨c, rest, rfl⟩ := List.exists_cons_of_ne_nil hne
        rw [List.all_cons, Bool.and_eq_true] at hall
        rw [List.length_cons]
        generalize hpower : ((rest.length + 1 : Nat) : Int) + d.exponent - 1 = power
        refine ⟨scientific c rest power, wellFormed_scientific hall.1 hall.2 power, by simp [scientific],
          ?_, ?_⟩
        · cases rest <;> simp [scientific, Literal.chars]
        refine Literal.number_of_digits hvalue ?_
        rw [power_scientific]
        change power - (rest.length : Int) = d.exponent
        omega

/-- A literal is given by its characters. -/
theorem Literal.chars_inj {l l' : Literal} (h : l.WellFormed) (h' : l'.WellFormed)
    (heq : l.chars = l'.chars) : l = l' := by
  have hscan := Literal.scan?_chars h (Literal.stops_nil l)
  have hscan' := Literal.scan?_chars h' (Literal.stops_nil l')
  rw [heq, hscan'] at hscan
  simpa using hscan.symm

/-- A literal is read from its characters. -/
theorem Literal.ofChars?_chars {l : Literal} (h : l.WellFormed) : Literal.ofChars? l.chars = some l := by
  have hscan := Literal.scan?_chars h (Literal.stops_nil l)
  rw [List.append_nil] at hscan
  rw [Literal.ofChars?, hscan]

/-- A literal starts with a digit or a point. -/
theorem Literal.WellFormed.head {l : Literal} (h : l.WellFormed) :
    ∃ c cs, l.chars = c :: cs ∧ (isDigit c ∨ c = '.') := by
  have hscan := Literal.scan?_chars h (Literal.stops_nil l)
  rw [List.append_nil] at hscan
  cases hchars : l.chars with
  | nil =>
    rw [hchars] at hscan
    cases hscan
  | cons c cs =>
    rw [hchars] at hscan
    exact ⟨c, cs, rfl, head_of_scan? hscan⟩

/-! ## Texts of doubles -/

/-- The sign of a number before its literal. -/
def signed (negative : Bool) (cs : List Char) : List Char :=
  if negative then '-' :: cs else cs

/-- A text spells a double: it is a literal for a number nearest to it, with a minus sign if the
double is negative and not zero, or one of the words. -/
def Spells (cs : List Char) (x : Float) : Prop :=
  match Reading.ofFloat x with
  | .nan => cs = "NaN".toList
  | .infinite negative => cs = signed negative "Infinity".toList
  | .zero _ => cs = ['0']
  | .finite negative b => ∃ l : Literal, l.WellFormed ∧ b.Near l.number ∧ cs = signed negative l.chars

/-- **The text of a double spells it.** -/
theorem spells_numberChars (x : Float) : Spells (numberChars x) x := by
  rw [Spells, numberChars]
  cases hx : Reading.ofFloat x with
  | nan => rfl
  | infinite negative => cases negative <;> rfl
  | zero negative => rfl
  | finite negative b =>
    obtain ⟨l, hl, -, htext, hnumber⟩ := exists_literal Layout.standard (shortest b)
    refine ⟨l, hl, ?_, ?_⟩
    · rw [hnumber]
      exact (near_shortest (wellFormed_of_reading hx)).2
    · rw [← htext]
      rfl

/-- The sign shows in front of a literal or a word. -/
theorem signed_inj {n n' : Bool} {cs cs' : List Char} (hcs : cs.head? ≠ some '-')
    (hcs' : cs'.head? ≠ some '-') (h : signed n cs = signed n' cs') : n = n' ∧ cs = cs' := by
  cases n <;> cases n' <;> simp only [signed, if_true, if_false, Bool.false_eq_true] at h
  · exact ⟨rfl, h⟩
  · rw [h] at hcs
    exact absurd rfl hcs
  · rw [← h] at hcs'
    exact absurd rfl hcs'
  · exact ⟨rfl, (List.cons.inj h).2⟩

/-- A literal does not start with a letter or a sign. -/
theorem Literal.WellFormed.head_ne {l : Literal} (h : l.WellFormed) {c : Char} (hc : isDigit c = false)
    (hp : c ≠ '.') : l.chars.head? ≠ some c := by
  obtain ⟨d, cs, hcs, hd⟩ := h.head
  rw [hcs]
  rintro ⟨⟩
  rcases hd with hd | rfl
  · rw [hc] at hd
    cases hd
  · exact hp rfl

theorem near_ne_zero {b : Binary} (hb : b.WellFormed) : ¬ b.Near 0 := by
  intro h
  have hlow : (0 : ℚ) < b.low * 2 ^ (b.exponent - 2) := by
    have hpos : 0 < b.low := by
      have := hb.canonical.pos
      rw [Binary.low]
      split <;> omega
    positivity
  rw [Binary.Near, Between] at h
  split at h <;> linarith

/-- A word is not a literal. -/
theorem word_ne_literal {l : Literal} (hl : l.WellFormed) {w : List Char} {c : Char}
    (hw : w.head? = some c) (hc : isNameStart c) (n n' : Bool) : signed n w ≠ signed n' l.chars := by
  intro h
  have hsign : c ≠ '-' ∧ c ≠ '.' := by
    constructor <;> rintro rfl <;> cases hc
  have hdigit : isDigit c = false := by
    rw [← Bool.not_eq_true]
    intro hd
    rw [isNameStart_of_isDigit hd] at hc
    cases hc
  have hbody := (signed_inj (by simp [hw, hsign.1]) (hl.head_ne rfl (by decide)) h).2
  exact hl.head_ne hdigit hsign.2 (hbody ▸ hw)

/-- **A text spells one double only**, the two zeros apart. -/
theorem Spells.unique {cs : List Char} {x y : Float} (hx : Spells cs x) (hy : Spells cs y)
    (hx' : isNegativeZero x = false) (hy' : isNegativeZero y = false) : x = y := by
  have hzero : Literal.WellFormed ⟨['0'], false, [], none⟩ :=
    ⟨rfl, rfl, fun _ => rfl, .inl (by simp), nofun⟩
  -- Zero is no literal of another number.
  have hapart {z : Float} {n : Bool} {b : Binary} (hz : Reading.ofFloat z = .finite n b) {l : Literal}
      (hl : l.WellFormed) (hnear : b.Near l.number) (h : ['0'] = signed n l.chars) : False := by
    have hbody := (@signed_inj false n ['0'] l.chars (by decide) (hl.head_ne rfl (by decide)) h).2
    obtain rfl := Literal.chars_inj hzero hl hbody
    refine near_ne_zero (wellFormed_of_reading hz) ?_
    simpa [Literal.number, natOfDigits, digitsValue, digitValue] using hnear
  refine Reading.ofFloat_inj ?_
  rw [isNegativeZero] at hx' hy'
  rw [Spells] at hx hy
  cases hrx : Reading.ofFloat x <;> cases hry : Reading.ofFloat y <;> rw [hrx] at hx hx' <;>
    rw [hry] at hy hy'
  case nan.infinite n | infinite.nan n =>
    have h := hx.symm.trans hy
    cases n <;> simp [signed] at h
  case nan.zero n | zero.nan n =>
    have h := hx.symm.trans hy
    simp at h
  case infinite.zero n _ | zero.infinite _ n =>
    have h := hx.symm.trans hy
    cases n <;> simp [signed] at h
  case infinite.infinite n n' =>
    rw [(signed_inj (by decide) (by decide) (hx.symm.trans hy)).1]
  case zero.zero n n' =>
    cases n <;> cases n' <;> first | rfl | contradiction
  case nan.finite n b =>
    obtain ⟨l, hl, -, hcs⟩ := hy
    exact absurd (hx.symm.trans hcs) (word_ne_literal hl rfl rfl false n)
  case finite.nan n b =>
    obtain ⟨l, hl, -, hcs⟩ := hx
    exact absurd (hy.symm.trans hcs) (word_ne_literal hl rfl rfl false n)
  case infinite.finite n' n b =>
    obtain ⟨l, hl, -, hcs⟩ := hy
    exact absurd (hx.symm.trans hcs) (word_ne_literal hl rfl rfl n' n)
  case finite.infinite n b n' =>
    obtain ⟨l, hl, -, hcs⟩ := hx
    exact absurd (hy.symm.trans hcs) (word_ne_literal hl rfl rfl n' n)
  case zero.finite =>
    obtain ⟨l, hl, hnear, hcs⟩ := hy
    exact (hapart hry hl hnear (hx.symm.trans hcs)).elim
  case finite.zero =>
    obtain ⟨l, hl, hnear, hcs⟩ := hx
    exact (hapart hrx hl hnear (hy.symm.trans hcs)).elim
  case finite.finite n b n' b' =>
    obtain ⟨l, hl, hnear, hcs⟩ := hx
    obtain ⟨l', hl', hnear', hcs'⟩ := hy
    obtain ⟨rfl, hbody⟩ := signed_inj (hl.head_ne rfl (by decide)) (hl'.head_ne rfl (by decide))
      (hcs.symm.trans hcs')
    obtain rfl := Literal.chars_inj hl hl' hbody
    rw [hnear.unique (wellFormed_of_reading hrx) (wellFormed_of_reading hry) hnear']

/-- **Numbers are told apart by their texts.** -/
theorem numberChars_inj {x y : Float} (hx : isNegativeZero x = false) (hy : isNegativeZero y = false)
    (h : numberChars x = numberChars y) : x = y :=
  (spells_numberChars x).unique (h ▸ spells_numberChars y) hx hy

/-- A text that spells a number is not empty. -/
theorem Spells.ne_nil {cs : List Char} {x : Float} (h : Spells cs x) : cs ≠ [] := by
  rintro rfl
  rw [Spells] at h
  cases hx : Reading.ofFloat x with
  | nan | zero =>
    rw [hx] at h
    simp at h
  | infinite n =>
    rw [hx] at h
    cases n <;> simp [signed] at h
  | finite n b =>
    rw [hx] at h
    obtain ⟨l, hl, -, h⟩ := h
    obtain ⟨c, cs, hcs, -⟩ := hl.head
    cases n <;> simp [signed, hcs] at h

/-- The characters of a number's text all belong to words, or are points and signs. -/
theorem Spells.not_isJoint {cs : List Char} {x : Float} (h : Spells cs x) :
    ∀ c ∈ cs, isJoint c = false := by
  have hsigned {n : Bool} {body : List Char} (hbody : ∀ c ∈ body, isJoint c = false) :
      ∀ c ∈ signed n body, isJoint c = false := by
    cases n
    · exact hbody
    · exact List.forall_mem_cons.2 ⟨rfl, hbody⟩
  rw [Spells] at h
  cases hx : Reading.ofFloat x with
  | nan =>
    rw [hx] at h
    subst h
    intro c hc
    fin_cases hc <;> rfl
  | infinite n =>
    rw [hx] at h
    subst h
    refine hsigned fun c hc => ?_
    fin_cases hc <;> rfl
  | zero n =>
    rw [hx] at h
    subst h
    intro c hc
    fin_cases hc
    rfl
  | finite n b =>
    rw [hx] at h
    obtain ⟨l, hl, -, rfl⟩ := h
    exact hsigned hl.not_isJoint

/-! ## Reading back -/

/-- A power of ten beyond the exponents of doubles. -/
theorem two_zpow_le : (2 : ℚ) ^ (1200 : Int) ≤ 10 ^ (400 : Int) := by
  rw [show (1200 : Int) = 3 * 400 from rfl, zpow_mul]
  exact zpow_le_zpow_left₀ (by norm_num) (by norm_num) (by norm_num)

/-- Digits with a power of ten in the interval of a double are read as that double. -/
theorem toFloat_of_near {x : Float} {b : Binary} (hx : Reading.ofFloat x = .finite false b) {n : Nat}
    {e : Int} (h : b.Near (n * 10 ^ e)) : toFloat n e = x := by
  have hb := wellFormed_of_reading hx
  obtain ⟨hlow, hhigh⟩ := h.bounds hb
  have hn : 0 < n := by
    rcases Nat.eq_zero_or_pos n with rfl | hn
    · rw [Nat.cast_zero, zero_mul] at h
      exact (near_ne_zero hb h).elim
    · exact hn
  have hunit : (0 : ℚ) < 10 ^ e := by positivity
  -- Neither a huge number nor a tiny one is in an interval.
  have hcount : ((10 ^ (digitCount n - 1) : Nat) : ℚ) ≤ n ∧ (n : ℚ) < (10 ^ digitCount n : Nat) :=
    ⟨by exact_mod_cast pow_digitCount_le hn,
      by exact_mod_cast (Nat.length_toDigits_le_iff (by norm_num) Nat.length_toDigits_pos).1 le_rfl⟩
  have hcountPos : 0 < digitCount n := Nat.length_toDigits_pos
  push_cast at hcount
  have htop : (digitCount n : Int) + e ≤ 400 := by
    by_contra hlarge
    have hpow : (10 : ℚ) ^ (400 : Int) ≤ n * 10 ^ e := by
      calc (10 : ℚ) ^ (400 : Int) ≤ 10 ^ ((digitCount n - 1 : Nat) + e) :=
            zpow_le_zpow_right₀ (by norm_num) (by omega)
        _ = 10 ^ (digitCount n - 1) * 10 ^ e := by rw [zpow_add₀ (by norm_num), zpow_natCast]
        _ ≤ n * 10 ^ e := mul_le_mul_of_nonneg_right hcount.1 hunit.le
    have hend : limit ≤ 10 ^ (400 : Int) := by
      rw [limit]
      exact (zpow_le_zpow_right₀ (by norm_num) (by norm_num)).trans two_zpow_le
    exact absurd (end_lt_limit.le.trans (hend.trans hpow)) (not_le.2 hhigh)
  have hbottom : -400 ≤ (digitCount n : Int) + e := by
    by_contra hsmall
    have hpow : (n : ℚ) * 10 ^ e < 10 ^ (-400 : Int) := by
      calc (n : ℚ) * 10 ^ e < 10 ^ digitCount n * 10 ^ e := mul_lt_mul_of_pos_right hcount.2 hunit
        _ = 10 ^ (digitCount n + e) := by rw [zpow_add₀ (by norm_num), zpow_natCast]
        _ ≤ 10 ^ (-400 : Int) := zpow_le_zpow_right₀ (by norm_num) (by omega)
    have hend : (10 : ℚ) ^ (-400 : Int) ≤ 2 ^ (-1075 : Int) := by
      rw [zpow_neg, zpow_neg]
      exact inv_anti₀ (by positivity)
        ((zpow_le_zpow_right₀ (by norm_num) (by norm_num)).trans two_zpow_le)
    exact absurd (hpow.trans_le hend) (not_lt.2 hlow.le)
  have hquot := scale_div (show 0 < 10 by norm_num) e n 1
  have hden := scale_pos (show 0 < 10 by norm_num) one_pos e n
  rw [toFloat, if_neg (by simpa using hn.ne')]
  dsimp only
  rw [if_neg (by omega), if_neg (by omega)]
  refine ofQuotient_of_near hx ?_ hden ?_
  · rw [scale_eq]
    positivity
  · rw [hquot]
    simpa using h

/-- A literal for a number in the interval of a double is read as that double. -/
theorem Literal.value_of_near {x : Float} {b : Binary} (hx : Reading.ofFloat x = .finite false b)
    {l : Literal} (h : b.Near l.number) : l.value = x :=
  toFloat_of_near hx h

/-- The reading of a double with its sign changed. -/
theorem reading_neg {x : Float} {n : Bool} {b : Binary} (hx : Reading.ofFloat x = .finite n b) :
    Reading.ofFloat (-x) = .finite (!n) b := by
  have hagrees := agrees x
  have hagrees' := agrees (-x)
  have hb := wellFormed_of_reading hx
  rw [hx] at hagrees
  rw [unpack_neg] at hagrees'
  cases hu : x.toModel.unpack with
  | finite s m e hm =>
    rw [hu] at hagrees hagrees'
    cases hr : Reading.ofFloat (-x) with
    | finite n' b' =>
      have hb' := wellFormed_of_reading hr
      rw [hr] at hagrees'
      obtain ⟨rfl, hmantissa, hexponent⟩ := hagrees
      obtain ⟨hn, hmantissa', hexponent'⟩ := hagrees'
      have hlowered : b'.lowered = b.lowered := by
        rw [Bool.eq_iff_iff, hb.lowered, hb'.lowered, hmantissa, hmantissa', hexponent, hexponent']
      obtain rfl : b' = b := by
        cases b
        cases b'
        simp_all
      rw [hn]
      cases s <;> rfl
    | nan | infinite | zero =>
      rw [hr] at hagrees'
      exact hagrees'.elim
  | notANumber | infinity | zero =>
    rw [hu] at hagrees
    exact hagrees.elim

/-- Changing the sign twice changes nothing. -/
theorem double_neg_neg (x : Float) : - -x = x := by
  refine double_ext ?_
  rw [unpack_neg, unpack_neg]
  cases x.toModel.unpack with
  | notANumber => rfl
  | infinity s | zero s | finite s => cases s <;> rfl

/-- A literal is read back with the sign before it. -/
theorem signedLiteral?_signed {l : Literal} (hl : l.WellFormed) (n : Bool) :
    signedLiteral? (signed n l.chars) = some (if n then -l.value else l.value) := by
  cases n with
  | false =>
    have hhead := hl.head_ne (c := '-') rfl (by decide)
    have hhead' := hl.head_ne (c := '+') rfl (by decide)
    rw [signed, if_neg (by decide), signedLiteral?, Literal.ofChars?_chars hl, Option.map_some,
      if_neg (by decide)]
    · intro r hcs
      exact hhead (by rw [hcs]; rfl)
    · intro r hcs
      exact hhead' (by rw [hcs]; rfl)
  | true =>
    rw [signed, if_pos rfl, signedLiteral?, Literal.ofChars?_chars hl, Option.map_some, if_pos rfl]

/-- **The text of a finite double is read back as the double**, negative zero apart. -/
theorem Spells.signedLiteral?_eq {cs : List Char} {x : Float} (h : Spells cs x) (hx : IsFinite x)
    (hzero : isNegativeZero x = false) : signedLiteral? cs = some x := by
  have hagrees := agrees x
  rw [IsFinite] at hx
  rw [isNegativeZero] at hzero
  rw [Spells] at h
  cases hr : Reading.ofFloat x with
  | nan | infinite =>
    rw [hr] at hagrees
    cases hu : x.toModel.unpack <;> rw [hu] at hagrees hx
    all_goals first | exact hx.elim | exact hagrees.elim
  | zero n =>
    rw [hr] at h hzero
    subst h
    cases n with
    | true => cases hzero
    | false =>
      have hzero : Reading.ofFloat (toFloat 0 0) = .zero false := by decide +kernel
      exact congrArg some (Reading.ofFloat_inj (hzero.trans hr.symm))
  | finite n b =>
    rw [hr] at h
    obtain ⟨l, hl, hnear, rfl⟩ := h
    rw [signedLiteral?_signed hl]
    cases n with
    | false => rw [if_neg (by decide), Literal.value_of_near hr hnear]
    | true =>
      have hvalue := Literal.value_of_near (reading_neg hr) hnear
      rw [if_pos rfl, hvalue, double_neg_neg]

/-- The text of a finite double is a literal with a digit before the point, after a minus sign only if
the double is negative. -/
theorem exists_literal_numberChars {x : Float} (hx : IsFinite x) : ∃ (n : Bool) (l : Literal),
    l.WellFormed ∧ l.whole ≠ [] ∧ numberChars x = signed n l.chars ∧ (n = true → x < 0.0) := by
  have hagrees := agrees x
  rw [numberChars]
  cases hu : x.toModel.unpack <;> cases hr : Reading.ofFloat x <;> rw [hu, hr] at hagrees <;>
    try exact hagrees.elim
  case notANumber.nan | infinity.infinite =>
    rw [IsFinite, hu] at hx
    exact hx.elim
  case zero.zero =>
    exact ⟨false, ⟨['0'], false, [], none⟩, ⟨rfl, rfl, fun _ => rfl, .inl (by simp), by simp⟩, by simp,
      rfl, by simp⟩
  case finite.finite s m e hm n b =>
    obtain ⟨rfl, rfl, rfl⟩ := hagrees
    obtain ⟨l, hl, hfirst, htext, -⟩ := exists_literal Layout.standard (shortest b)
    refine ⟨isNegative s, l, hl, hfirst, by rw [← htext]; rfl, fun hneg => ?_⟩
    obtain rfl : s = .negative := by
      cases s
      · rfl
      · cases hneg
    have hcanonical := isCanonical_double x
    rw [hu] at hcanonical
    have hpos : (0 : ℚ) < b.mantissa * 2 ^ b.exponent := hcanonical.value_pos
    have hzero : IsIntegral 0.0 ∧ toInt 0.0 = 0 := toFloat_natural 0
    rw [lt_iff hx.isNumber hzero.1.1, hzero.1.doubleValue_eq, hzero.2, doubleValue, hu]
    simpa [unpackedValue, UnpackedFloat.Sign.apply] using hpos

/-! ## Texts of integers -/

/-- The digits of an integer, with its sign. -/
theorem toList_toString (i : Int) :
    (toString i).toList = signed (decide (i < 0)) (Nat.toDigits 10 i.natAbs) := by
  cases i with
  | ofNat n => simp [Int.toString_eq_repr, Int.repr, signed, Nat.repr_eq_ofList_toDigits]
  | negSucc n => simp [Int.toString_eq_repr, Int.repr, signed, Nat.repr_eq_ofList_toDigits]

/-- The text of an integer has digits only, but for the sign. -/
theorem isDigit_of_mem_toString {i : Int} {c : Char} (h : c ∈ (toString i).toList) (hc : c ≠ '-') :
    isDigit c = true := by
  rw [toList_toString, signed] at h
  split at h
  · exact List.all_eq_true.1 (all_isDigit_toDigits _) c ((List.mem_cons.1 h).resolve_left hc)
  · exact List.all_eq_true.1 (all_isDigit_toDigits _) c h

theorem isNatural_toDigits (n : Nat) : isNatural (Nat.toDigits 10 n) = true := by
  rw [isNatural, all_isDigit_toDigits, Bool.and_true, Bool.not_eq_true', List.isEmpty_eq_false_iff]
  exact Nat.toDigits_ne_nil

theorem isInteger_toString (i : Int) : isInteger (toString i).toList = true := by
  rw [toList_toString, signed]
  split
  · exact isNatural_toDigits _
  · obtain ⟨c, cs, hcs⟩ := List.exists_cons_of_ne_nil (l := Nat.toDigits 10 i.natAbs) Nat.toDigits_ne_nil
    have hc : c ≠ '-' := by
      rintro rfl
      exact absurd (List.all_eq_true.1 (all_isDigit_toDigits i.natAbs) '-' (by simp [hcs])) (by decide)
    have hnatural := isNatural_toDigits i.natAbs
    rw [hcs] at hnatural ⊢
    rw [isInteger]
    · exact hnatural
    · rintro ds ⟨⟩
      exact hc rfl

/-- The reading of a double with an integer value. -/
theorem reading_of_doubleValue {x : Float} {i : Int} (hx : IsNumber x) (hvalue : doubleValue x = i)
    (hne : i ≠ 0) (hlt : |(i : ℚ)| < limit) :
    ∃ b, Reading.ofFloat x = .finite (decide (i < 0)) b ∧ b.value = i.natAbs := by
  have hagrees := agrees x
  have hpos := limit_pos
  rw [doubleValue] at hvalue
  cases hu : x.toModel.unpack <;> cases hr : Reading.ofFloat x <;> rw [hu, hr] at hagrees <;>
    try exact hagrees.elim
  case notANumber.nan => exact absurd hu hx
  case infinity.infinite s n =>
    rw [hu] at hvalue
    rw [← hvalue] at hlt
    cases s <;> simp [unpackedValue, UnpackedFloat.Sign.apply, abs_of_pos hpos] at hlt
  case zero.zero s n =>
    rw [hu] at hvalue
    change (0 : ℚ) = i at hvalue
    exact absurd (by exact_mod_cast hvalue.symm) hne
  case finite.finite s m e hm n b =>
    obtain ⟨rfl, rfl, rfl⟩ := hagrees
    have hcanonical := isCanonical_double x
    rw [hu] at hcanonical
    have hbpos : (0 : ℚ) < b.value := hcanonical.value_pos
    have hcast : ((i.natAbs : Nat) : ℚ) = |(i : ℚ)| := by
      rw [Nat.cast_natAbs, Int.cast_abs]
    rw [hu] at hvalue
    cases s with
    | positive =>
      have hi : (i : ℚ) = b.value := by
        simp [← hvalue, unpackedValue, UnpackedFloat.Sign.apply, Binary.value]
      have hpos : ¬ i < 0 := by
        have : (0 : ℚ) < i := hi ▸ hbpos
        have : 0 < i := by exact_mod_cast this
        omega
      exact ⟨b, by simp [hpos, isNegative], by rw [hcast, hi, abs_of_pos hbpos]⟩
    | negative =>
      have hi : (i : ℚ) = -b.value := by
        simp [← hvalue, unpackedValue, UnpackedFloat.Sign.apply, Binary.value]
      have hneg : i < 0 := by
        have : (i : ℚ) < 0 := by linarith
        exact_mod_cast this
      exact ⟨b, by simp [hneg, isNegative], by rw [hcast, hi, abs_neg, abs_of_pos hbpos]⟩

/-- Integers up to which doubles count are below the largest doubles. -/
theorem abs_lt_limit {i : Int} (hi : i.natAbs ≤ 2 ^ 53) : |(i : ℚ)| < limit := by
  have hle : |(i : ℚ)| ≤ 2 ^ (53 : ℤ) := by
    rw [← Int.cast_abs, Int.abs_eq_natAbs]
    exact_mod_cast hi
  rw [limit]
  exact hle.trans_lt (zpow_lt_zpow_right₀ (by norm_num) (by norm_num))

/-- The digits of an integer spell every double that is equal to it. -/
theorem spells_toString {x : Float} {i : Int} (hx : IsNumber x) (hvalue : doubleValue x = i)
    (hne : i ≠ 0) (hi : i.natAbs ≤ exactLimit) : Spells (toString i).toList x := by
  obtain ⟨b, hreading, hb⟩ := reading_of_doubleValue hx hvalue hne (abs_lt_limit hi)
  rw [toList_toString, Spells, hreading]
  refine ⟨⟨Nat.toDigits 10 i.natAbs, false, [], none⟩,
    ⟨all_isDigit_toDigits _, rfl, fun _ => rfl, .inl Nat.toDigits_ne_nil, by simp⟩, ?_, ?_⟩
  · have hnear := near_value (wellFormed_of_reading hreading)
    rw [hb] at hnear
    simpa [Literal.number, Literal.power] using hnear
  · simp [Literal.chars]

/-- **The text of an integer spells the double nearest to it.** -/
theorem spells_intText (i : Int) : Spells (intText i).toList (ofInt i) := by
  rw [intText]
  split
  · next hi =>
    have hint := (rounds_ofInt i).isIntegral
    have hvalue : doubleValue (ofInt i) = i := by
      rw [hint.doubleValue_eq, (rounds_ofInt i).toInt_eq hi]
    by_cases hzero : i = 0
    · subst hzero
      have hreading : Reading.ofFloat (ofInt 0) = .zero false := by decide +kernel
      rw [toList_toString, Spells, hreading]
      rfl
    · exact spells_toString hint.1 hvalue hzero hi
  · rw [numberText, String.toList_ofList]
    exact spells_numberChars _

/-- An integer is not negative zero. -/
theorem isNegativeZero_ofInt (i : Int) : isNegativeZero (ofInt i) = false := by
  rw [isNegativeZero, beq_eq_false_iff_ne]
  intro hzero
  have hgrid : onDoubleGrid i = 0 := by
    rw [← toInt_ofInt, toInt, hzero]
  -- No other integer is rounded to zero: rounding does not cross one.
  have hone {k : Int} (hk : k.natAbs = 1) : IsIntegral (ofInt k) ∧ toInt (ofInt k) = k := by
    have hround := rounds_ofInt k
    exact ⟨hround.isIntegral, hround.toInt_eq (by omega)⟩
  obtain ⟨hpos, hpos'⟩ := hone (k := 1) rfl
  obtain ⟨hneg, hneg'⟩ := hone (k := -1) rfl
  rcases lt_trichotomy i 0 with hi | rfl | hi
  · have := onDoubleGrid_le hneg (k := i) (by omega)
    omega
  · revert hzero
    decide +kernel
  · have := le_onDoubleGrid hpos (k := i) (by omega)
    omega

/-- **Integers on the grid of doubles are told apart by their texts.** -/
theorem intText_inj {i j : Int} (hi : onDoubleGrid i = i) (hj : onDoubleGrid j = j)
    (h : intText i = intText j) : i = j := by
  have hfloat := (spells_intText i).unique (h ▸ spells_intText j) (isNegativeZero_ofInt i)
    (isNegativeZero_ofInt j)
  rw [← hi, ← hj, ← toInt_ofInt, ← toInt_ofInt, hfloat]

/-! ## Zeros and sums -/

theorem isNegativeZero_iff {x : Float} :
    isNegativeZero x = true ↔ x.toModel.unpack = .zero .negative := by
  have hagrees := agrees x
  rw [isNegativeZero, beq_iff_eq]
  constructor
  · intro h
    rw [h] at hagrees
    cases hu : x.toModel.unpack with
    | zero s =>
      rw [hu] at hagrees
      cases s with
      | negative => rfl
      | positive => cases hagrees
    | _ =>
      rw [hu] at hagrees
      exact hagrees.elim
  · intro h
    rw [h] at hagrees
    cases hr : Reading.ofFloat x with
    | zero n =>
      rw [hr] at hagrees
      rw [show n = true from hagrees]
    | _ =>
      rw [hr] at hagrees
      exact hagrees.elim

/-- A double that equals one is one. -/
theorem eq_one_of_beq {x : Float} (hx : IsFinite x) (h : (x == 1.0) = true) : x = 1.0 := by
  have hone : IsFinite (1.0 : Float) ∧ doubleValue 1.0 = 1 := toFloat_one
  have hvalue : doubleValue x = (1 : Int) := by
    rw [(beq_iff hx.isNumber hone.1.isNumber).1 h, hone.2]
    rfl
  have hspells {y : Float} (hy : IsNumber y) (hvalue : doubleValue y = (1 : Int)) :=
    spells_toString hy hvalue (by decide) (by decide)
  have hzero {y : Float} (hvalue : doubleValue y = (1 : Int)) : isNegativeZero y = false := by
    rw [← Bool.not_eq_true, isNegativeZero_iff]
    intro hu
    rw [doubleValue, hu] at hvalue
    exact absurd hvalue (by simp [unpackedValue])
  exact (hspells hx.isNumber hvalue).unique (hspells hone.1.isNumber (by rw [hone.2]; rfl)) (hzero hvalue)
    (hzero (by rw [hone.2]; rfl))

/-- What is rounded to zero on the grid of doubles is zero. -/
theorem eq_zero_of_rounds {k e : Int} (he : -1074 ≤ e) {x : Float} (h : Rounds (k * 2 ^ e) x)
    (hx : doubleValue x = 0) : k = 0 := by
  have hunit : (0 : ℚ) < 2 ^ (-1074 : Int) := by positivity
  have hlimit : ((1 : Nat) : ℚ) * 2 ^ (-1074 : Int) ≤ limit := by
    rw [limit, Nat.cast_one, one_mul]
    exact zpow_le_zpow_right₀ (by norm_num) (by norm_num)
  obtain ⟨g, hg, hvalue⟩ := exists_double (m := 1) (by norm_num) le_rfl hlimit
  rw [Nat.cast_one, one_mul] at hvalue
  have hscale : (2 : ℚ) ^ (-1074 : Int) ≤ 2 ^ e := zpow_le_zpow_right₀ (by norm_num) he
  -- The smallest positive double is between.
  have hpos {k : Int} {x : Float} (hk : 0 < k) (h : Rounds (k * 2 ^ e) x) : 0 < doubleValue x := by
    have hk' : (1 : ℚ) ≤ k := by exact_mod_cast hk
    have hle := h.le g hg (by rw [hvalue]; nlinarith)
    rw [hvalue] at hle
    linarith
  rcases lt_trichotomy k 0 with hk | hk | hk
  · have hneg := h.neg
    rw [← neg_mul, ← Int.cast_neg] at hneg
    have := hpos (by omega) hneg
    rw [doubleValue_neg, hx] at this
    simp at this
  · exact hk
  · exact absurd hx (hpos hk h).ne'

/-- **A sum is negative zero only if both parts are.** -/
theorem isNegativeZero_add {x y : Float} (hx : isNegativeZero x = false) :
    isNegativeZero (x + y) = false := by
  rw [← Bool.not_eq_true, isNegativeZero_iff] at hx ⊢
  have hcx := isCanonical_double x
  have hcy := isCanonical_double y
  change (Float.Model.pack
    (UnpackedFloat.add Format.binary64 x.toModel.unpack y.toModel.unpack)).unpack ≠ .zero .negative
  generalize x.toModel.unpack = u at *
  generalize y.toModel.unpack = v at *
  intro hzero
  -- Other than for two finite numbers the result is exact.
  have hexact {w : UnpackedFloat} (hw : IsCanonical w)
      (hadd : UnpackedFloat.add Format.binary64 u v = w) : w = .zero .negative := by
    rw [hadd, unpack_pack hw] at hzero
    exact hzero
  match u, v with
  | .notANumber, _ | .infinity _, .notANumber | .zero _, .notANumber | .finite .., .notANumber =>
    cases hexact (w := .notANumber) trivial rfl
  | .infinity s, .infinity s' =>
    cases s <;> cases s' <;> first
      | cases hexact (w := .notANumber) trivial rfl
      | cases hexact (w := .infinity _) trivial rfl
  | .infinity _, .zero _ | .infinity _, .finite .. | .zero _, .infinity _ | .finite .., .infinity _ =>
    cases hexact (w := .infinity _) trivial rfl
  | .zero s, .zero s' =>
    cases s <;> cases s' <;> first
      | exact hx rfl
      | cases hexact (w := .zero .positive) trivial rfl
  | .zero _, .finite .. => cases hexact hcy rfl
  | .finite .., .zero _ => cases hexact hcx rfl
  | .finite s m e hm, .finite s' m' e' hm' =>
    generalize hk : s.apply (UnpackedFloat.decreaseExponent m e (min e e')).1 +
      s'.apply (UnpackedFloat.decreaseExponent m' e' (min e e')).1 = k
    have hadd : UnpackedFloat.add Format.binary64 (.finite s m e hm) (.finite s' m' e' hm') =
        UnpackedFloat.normalize Format.binary64 k (min e e') .positive := by
      rw [← hk]
      rfl
    have hround := rounds_normalize k (min e e') .positive
    have hk0 : k = 0 := by
      refine eq_zero_of_rounds (le_min hcx.min hcy.min) hround ?_
      rw [doubleValue, ← hadd]
      change unpackedValue (Float.Model.pack _).unpack = 0
      rw [hzero]
      rfl
    subst hk0
    cases hexact (w := .zero .positive) trivial (hadd.trans rfl)

/-- **A zero of either sign may be added** to anything but the negative zero. -/
theorem add_eq_self {x y : Float} (hx : isNegativeZero x = false) {s : UnpackedFloat.Sign}
    (hy : y.toModel.unpack = .zero s) : x + y = x := by
  rw [← Bool.not_eq_true, isNegativeZero_iff] at hx
  refine double_ext ?_
  change (Float.Model.pack
    (UnpackedFloat.add Format.binary64 x.toModel.unpack y.toModel.unpack)).unpack = x.toModel.unpack
  have hadd : UnpackedFloat.add Format.binary64 x.toModel.unpack (.zero s) = x.toModel.unpack := by
    cases hu : x.toModel.unpack with
    | notANumber | infinity | finite => rfl
    | zero s' =>
      cases s' with
      | positive => cases s <;> rfl
      | negative => exact absurd hu hx
  rw [hy, hadd, unpack_pack (isCanonical_double x)]

end RecurrenceCompiler.Decimal
