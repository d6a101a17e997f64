import RecurrenceCompiler.Proofs.Arith.Sentence
import RecurrenceCompiler.Proofs.Constraint.Bounds
import RecurrenceCompiler.Proofs.Decimal.Operations
import RecurrenceCompiler.Proofs.Decimal.Spelling

/-!
# Texts with integer values

Generated arithmetic is put together from numbers, names, parentheses and operators between blanks. As
long as the integers stay within those that doubles count, the value of such a text is the integer that
the operations on integers give (`HasInt.binary`).
-/

namespace RecurrenceCompiler

open Text Decimal

/-- A double that is an integer up to which doubles count. -/
theorem Decimal.IsIntegral.isInt {x : Float} {i : Int} (hx : IsIntegral x) (hi : toInt x = i)
    (hsmall : i.natAbs ≤ 2 ^ 53) : IsInt x i := by
  have hwhole := hx.isWhole (hi ▸ abs_lt_overflow hsmall)
  exact ⟨(isIntegral_of_isWhole hwhole).1, by rw [hx.doubleValue_eq, hi]⟩

/-- A whole number up to which doubles count is the same double, whatever the sign of its zero. -/
theorem Decimal.Whole.isInt_toFloat {w : Whole} (h : w.toInt.natAbs ≤ 2 ^ 53) :
    IsInt w.toFloat w.toInt := by
  rw [Whole.toFloat]
  split
  · next hzero =>
    obtain ⟨hneg, hmag⟩ := Bool.and_eq_true_iff.1 hzero
    have hint : w.toInt = 0 := by
      rw [Whole.toInt, if_pos hneg, beq_iff_eq.1 hmag]
      rfl
    have hnat := (toFloat_natural 0).1.neg
    rw [hint]
    exact hnat.1.isInt (hnat.2.trans (by rw [(toFloat_natural 0).2]; rfl)) (by decide)
  · exact isInt_ofInt h

/-- Zero has two doubles. -/
theorem Decimal.reading_of_zero {x : Float} (hx : IsInt x 0) (hzero : isNegativeZero x = false) :
    Reading.ofFloat x = .zero false := by
  obtain ⟨hfinite, hvalue⟩ := hx
  have hagrees := agrees x
  have hcanonical := isCanonical_double x
  rw [isNegativeZero, beq_eq_false_iff_ne] at hzero
  rw [IsFinite] at hfinite
  rw [doubleValue] at hvalue
  cases hu : x.toModel.unpack with
  | notANumber | infinity => simp [hu] at hfinite
  | zero s =>
    rw [hu] at hagrees
    cases hr : Reading.ofFloat x with
    | zero n =>
      rw [hr] at hzero
      cases n with
      | false => rfl
      | true => exact absurd rfl hzero
    | _ =>
      rw [hr] at hagrees
      exact hagrees.elim
  | finite s m e hm =>
    rw [hu] at hvalue hcanonical
    have hpos := hcanonical.value_pos
    have hzero : (m : ℚ) * 2 ^ e = 0 := by
      cases s <;> simpa [unpackedValue, Float.Model.UnpackedFloat.Sign.apply] using hvalue
    exact absurd hzero hpos.ne'

/-- A double that is an integer is the one that the integer is rounded to, if it is not negative zero. -/
theorem Decimal.IsInt.eq_ofInt {x : Float} {i : Int} (hx : IsInt x i) (hi : i.natAbs ≤ 2 ^ 53)
    (hzero : isNegativeZero x = false) : x = ofInt i := by
  have hspells {y : Float} (hy : IsInt y i) (hy0 : isNegativeZero y = false) :
      Spells (toString i).toList y := by
    by_cases hi0 : i = 0
    · subst hi0
      rw [toList_toString, Spells, reading_of_zero hy hy0]
      rfl
    · exact spells_toString hy.finite.isNumber hy.value hi0 hi
  exact (hspells hx hzero).unique (hspells (isInt_ofInt hi) (isNegativeZero_ofInt i)) hzero
    (isNegativeZero_ofInt i)

namespace Arith

/-- A text that a nonterminal derives and whose value is an integer. -/
def HasInt (nt : Nonterminal) (env : Env Float) (cs : List Char) (i : Int) : Prop :=
  ∃ ts t x, tokens? cs = some ts ∧ Derives nt ts [t] ∧ t.eval env = .ok x ∧ IsInt x i

variable {env : Env Float} {as bs cs : List Char} {i j : Int}

/-- A sum with an integer value has it as a text. -/
theorem HasInt.hasValue (h : HasInt .expr env cs i) : ∃ x, HasValue env cs x ∧ IsInt x i := by
  obtain ⟨ts, t, x, hts, ht, hx, hi⟩ := h
  exact ⟨x, ⟨ts, t, hts, ht, hx⟩, hi⟩

theorem HasInt.mono {nt nt' : Nonterminal} (himp : ∀ {ts t}, Derives nt ts [t] → Derives nt' ts [t])
    (h : HasInt nt env cs i) : HasInt nt' env cs i := by
  obtain ⟨ts, t, x, hts, ht, hx⟩ := h
  exact ⟨ts, t, x, hts, himp ht, hx⟩

theorem HasInt.unary (h : HasInt .primary env cs i) : HasInt .unary env cs i :=
  h.mono .ofPrimary

theorem HasInt.term (h : HasInt .primary env cs i) : HasInt .term env cs i :=
  h.mono fun ht => .ofUnary (.ofPrimary ht)

theorem HasInt.expr (h : HasInt .term env cs i) : HasInt .expr env cs i :=
  h.mono .ofTerm

/-- The digits of a natural number. -/
theorem hasInt_natural {k : Nat} (hk : k ≤ exactLimit) : HasInt .primary env (intText k).toList k := by
  have hdigits : (intText k).toList = Nat.toDigits 10 k := by
    rw [intText, if_pos (by simpa using hk)]
    exact String.toList_ofList
  have hnatural : isNatural (Nat.toDigits 10 k) := by
    rw [isNatural, Bool.and_eq_true]
    exact ⟨by simp, all_isDigit_toDigits k⟩
  have htokens := tokens?_literal (ofChars?_natural hnatural)
  have hvalue : (⟨Nat.toDigits 10 k, false, [], none⟩ : Literal).value = toFloat k 0 := by
    simp [Literal.value, Literal.power]
  rw [hvalue] at htokens
  obtain ⟨hint, htoInt⟩ := toFloat_natural k
  rw [onDoubleGrid, if_pos (by simpa using hk)] at htoInt
  exact ⟨_, _, _, hdigits ▸ htokens, .num, rfl, hint.isInt htoInt (by simpa [exactLimit] using hk)⟩

/-- A name that stands for an integer. -/
theorem hasInt_name {n : String} (hn : isIdentifier n) {x : Float} (hx : env n = some x)
    (hi : IsInt x i) : HasInt .primary env n.toList i :=
  ⟨_, _, x, tokens?_identifier hn, .name, by rw [Tree.eval, hx], hi⟩

theorem HasInt.paren (h : HasInt .expr env cs i) : HasInt .primary env ('(' :: cs ++ [')']) i := by
  obtain ⟨ts, t, x, hts, ht, hx⟩ := h
  exact ⟨_, t, x, tokens?_paren hts, .paren ht, hx⟩

/-- An operator between blanks. -/
theorem tokens?_between {ts us : List Token} (o : Op) (has : tokens? as = some ts)
    (hbs : tokens? bs = some us) : tokens? (as ++ [' ', o.char, ' '] ++ bs) = some (ts ++ .op o :: us) := by
  have hop : tokens? ([o.char, ' '] ++ bs) = some (.op o :: us) := by
    refine (tokens?_op o (' ' :: bs)).trans ?_
    rw [tokens?_blank rfl, hbs]
    rfl
  rw [List.append_assoc]
  refine (tokens?_append rfl as ([o.char, ' '] ++ bs)).trans ?_
  rw [has, tokens?_blank rfl, hop]
  rfl

/-- An operator joins two texts if the grammar does and the result can be counted. -/
theorem HasInt.binary {nt nt' nt'' : Nonterminal} {o : Op} {op : BinOp} (ha : HasInt nt env as i)
    (hb : HasInt nt' env bs j) {k : Int}
    (hjoin : ∀ {ts us l r}, Derives nt ts [l] → Derives nt' us [r] →
      Derives nt'' (ts ++ .op o :: us) [.bin op l r])
    (hop : ∀ {x y : Float}, IsInt x i → IsInt y j → IsInt (op.apply x y) k) :
    HasInt nt'' env (as ++ [' ', o.char, ' '] ++ bs) k := by
  obtain ⟨ts, l, x, hts, hl, hx, hi⟩ := ha
  obtain ⟨us, r, y, hus, hr, hy, hj⟩ := hb
  refine ⟨_, _, _, tokens?_between o hts hus, hjoin hl hr, ?_, hop hi hj⟩
  rw [Tree.eval, hx, hy]
  rfl

theorem HasInt.add (ha : HasInt .expr env as i) (hb : HasInt .term env bs j)
    (h : (i + j).natAbs ≤ 2 ^ 53) : HasInt .expr env (as ++ " + ".toList ++ bs) (i + j) :=
  ha.binary (o := .plus) hb .add fun hx hy => hx.add hy h

theorem HasInt.sub (ha : HasInt .expr env as i) (hb : HasInt .term env bs j)
    (hj : j.natAbs ≤ 2 ^ 53) (h : (i - j).natAbs ≤ 2 ^ 53) :
    HasInt .expr env (as ++ " - ".toList ++ bs) (i - j) :=
  ha.binary (o := .minus) hb .sub fun hx hy => hx.sub hy hj h

theorem HasInt.mul (ha : HasInt .term env as i) (hb : HasInt .unary env bs j)
    (h : (i * j).natAbs ≤ 2 ^ 53) : HasInt .term env (as ++ " * ".toList ++ bs) (i * j) :=
  ha.binary (o := .times) hb .mul fun hx hy => hx.mul hy h

/-- Texts with a separator before each but the first. -/
theorem toList_intercalate_cons (sep t : String) (ts : List String) :
    (sep.intercalate (t :: ts)).toList = t.toList ++ ts.flatMap fun u => sep.toList ++ u.toList := by
  induction ts generalizing t with
  | nil => simp
  | cons u ts ih => rw [String.intercalate_cons_cons, String.toList_append, ih, List.flatMap_cons]; simp

/-- A name that stands for an integer in an environment. -/
def NamesInt (env : Env Float) (n : String) (k : Int) : Prop :=
  isIdentifier n = true ∧ ∃ x, env n = some x ∧ IsInt x k

/-- **A sum of names that stand for natural numbers.** -/
theorem hasInt_sum {names : List String} {ks : List Int} (hne : names ≠ [])
    (h : List.Forall₂ (NamesInt env) names ks) (hpos : ∀ k ∈ ks, 0 ≤ k) (hsum : ks.sum ≤ 2 ^ 53) :
    HasInt .expr env (" + ".intercalate names).toList ks.sum := by
  -- The text before the names that are left is a sum already.
  have hmore {names : List String} {ks : List Int} {cs : List Char} {i : Int}
      (h : List.Forall₂ (NamesInt env) names ks) (hpos : ∀ k ∈ ks, 0 ≤ k) (hcs : HasInt .expr env cs i)
      (hi : 0 ≤ i) (hsum : i + ks.sum ≤ 2 ^ 53) :
      HasInt .expr env (cs ++ names.flatMap fun n => " + ".toList ++ n.toList) (i + ks.sum) := by
    induction h generalizing cs i with
    | nil => simpa using hcs
    | @cons n k names ks hn _ ih =>
      obtain ⟨hname, x, hx, hint⟩ := hn
      rw [List.forall_mem_cons] at hpos
      have hrest : 0 ≤ ks.sum := List.sum_nonneg hpos.2
      rw [List.sum_cons] at hsum
      have hadd := hcs.add (hasInt_name hname hx hint).term (by omega)
      simpa [add_assoc] using ih hpos.2 hadd (by omega) (by omega)
  cases h with
  | nil => exact absurd rfl hne
  | @cons n k names ks hn hrest =>
    obtain ⟨hname, x, hx, hint⟩ := hn
    rw [List.forall_mem_cons] at hpos
    rw [toList_intercalate_cons, List.sum_cons]
    exact hmore hrest hpos.2 (hasInt_name hname hx hint).term.expr hpos.1 (by simpa using hsum)

end Arith

end RecurrenceCompiler
