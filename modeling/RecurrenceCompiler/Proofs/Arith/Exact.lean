import RecurrenceCompiler.Proofs.Arith.Sentence
import RecurrenceCompiler.Proofs.Decimal.Double

/-!
# Exact arithmetic

A number system whose four operations are those of a field, and whose constants keep their sign. The
rational numbers are one, with every finite constant standing for the rational number that its double
is. In such a system a product may be cut at any star outside its parentheses (`Derives.cut_times`)
and its leading minus sign may be taken off (`Derives.cut_minus`), although the grammar groups its
factors from the left and gives the sign to the first of them.
-/

namespace RecurrenceCompiler

open Decimal

/-- A number system with the operations of a field. -/
class FieldCarrier (K : Type) [Field K] [Carrier K] : Prop where
  add_eq (x y : K) : Carrier.add x y = x + y
  sub_eq (x y : K) : Carrier.sub x y = x - y
  mul_eq (x y : K) : Carrier.mul x y = x * y
  div_eq (x y : K) : Carrier.div x y = x / y
  neg_eq (x : K) : Carrier.neg x = -x
  ofFloat_one : (Carrier.ofFloat 1.0 : K) = 1
  ofFloat_neg (x : Float) : (Carrier.ofFloat (-x) : K) = -Carrier.ofFloat x

/-- The rational numbers. Of the elementary functions only the absolute value is rational; the others
count as zero. -/
instance : Carrier ℚ where
  ofFloat := doubleValue
  add := (· + ·)
  sub := (· - ·)
  mul := (· * ·)
  div := (· / ·)
  neg := (- ·)
  apply
    | .abs, [x] => |x|
    | _, _ => 0
  eq x y := decide (x = y)
  lt x y := decide (x < y)
  le x y := decide (x ≤ y)
  isWhole x := x.den == 1
  toNat? x := if x.den == 1 && decide (0 ≤ x) then some x.num.toNat else none
  text x := toString x.num ++ "/" ++ toString x.den

instance : FieldCarrier ℚ where
  add_eq _ _ := rfl
  sub_eq _ _ := rfl
  mul_eq _ _ := rfl
  div_eq _ _ := rfl
  neg_eq _ := rfl
  ofFloat_one := by
    have hone : (1.0 : Float).toModel.unpack = .finite .positive (2 ^ 52) (-52) (by decide) := rfl
    change doubleValue 1.0 = 1
    rw [doubleValue, hone]
    norm_num [unpackedValue, Float.Model.UnpackedFloat.Sign.apply]
  ofFloat_neg := doubleValue_neg

/-! ## Cutting a product -/

namespace Arith

/-- Two ways to cut a list at an element: at the same place, or one before the other. -/
theorem append_cons_eq_append_cons {α : Type} {as bs a b : List α} {o p : α}
    (h : as ++ o :: bs = a ++ p :: b) :
    (as = a ∧ o = p ∧ bs = b) ∨ (∃ c, a = as ++ o :: c ∧ bs = c ++ p :: b) ∨
      ∃ c, as = a ++ p :: c ∧ b = c ++ o :: bs := by
  rcases List.append_eq_append_iff.1 h with ⟨_ | ⟨x, c⟩, rfl, hc⟩ | ⟨_ | ⟨x, c⟩, rfl, hc⟩
  · simp_all
  · obtain ⟨rfl, rfl⟩ := List.cons.inj hc
    exact .inr (.inl ⟨c, rfl, rfl⟩)
  · simp_all
  · obtain ⟨rfl, rfl⟩ := List.cons.inj hc
    exact .inr (.inr ⟨c, rfl, rfl⟩)

/-- The operands of an operation that has a value have values. -/
theorem Tree.eval_bin {α : Type} [Carrier α] {env : Env α} {op : BinOp} {l r : Tree} {v : α}
    (h : (Tree.bin op l r).eval env = .ok v) :
    ∃ x y, l.eval env = .ok x ∧ r.eval env = .ok y ∧ v = op.apply x y := by
  rw [Tree.eval] at h
  obtain ⟨x, hx, h⟩ := bind_ok h
  obtain ⟨y, hy, h⟩ := bind_ok h
  cases h
  exact ⟨x, y, hx, hy, rfl⟩

/-- The value of an operation whose operands have values. -/
theorem Tree.eval_bin_of {α : Type} [Carrier α] {env : Env α} {l r : Tree} {x y : α} (op : BinOp)
    (hl : l.eval env = .ok x) (hr : r.eval env = .ok y) :
    (Tree.bin op l r).eval env = .ok (op.apply x y) := by
  rw [Tree.eval, hl, hr]
  rfl

section

variable {K : Type} [Field K] [Carrier K] [FieldCarrier K] {env : Env K}

/-- A run with a tree of a value, as a product. -/
def HasProduct (env : Env K) (ts : List Token) (v : K) : Prop :=
  ∃ t, Derives .term ts [t] ∧ t.eval env = .ok v

/-- A star or a slash and one more factor. -/
theorem cut_times_step {as bs a b : List Token} {o : Op} {op : BinOp} {l r : Tree} {v : K}
    (ho : (o = .times ∧ op = .mul) ∨ (o = .slash ∧ op = .div)) (hl : Derives .term as [l])
    (hr : Derives .unary bs [r]) (heq : as ++ .op o :: bs = a ++ .op .times :: b)
    (ha : nesting a = 0) (hv : (Tree.bin op l r).eval env = .ok v)
    (ih : ∀ {c : List Token} {x : K}, as = a ++ .op .times :: c → l.eval env = .ok x →
      ∃ y z, HasProduct env a y ∧ HasProduct env c z ∧ x = y * z) :
    ∃ x y, HasProduct env a x ∧ HasProduct env b y ∧ v = x * y := by
  obtain ⟨x, y, hx, hy, rfl⟩ := Tree.eval_bin hv
  rcases append_cons_eq_append_cons heq with ⟨rfl, hot, rfl⟩ | ⟨c, rfl, rfl⟩ | ⟨c, rfl, rfl⟩
  · rcases ho with ⟨rfl, rfl⟩ | ⟨rfl, rfl⟩
    · exact ⟨x, y, ⟨l, hl, hx⟩, ⟨r, .ofUnary hr, hy⟩, FieldCarrier.mul_eq x y⟩
    · cases hot
  · have hpos := hr.nesting_pos (.inl rfl) (.inl rfl) rfl
    have hc : nesting (.op o :: c) = nesting c := by
      rcases ho with ⟨rfl, -⟩ | ⟨rfl, -⟩ <;> rfl
    rw [nesting_append, hl.nesting_eq, hc] at ha
    omega
  · obtain ⟨y', z', hy', ⟨u, hu, hz'⟩, rfl⟩ := ih rfl hx
    rcases ho with ⟨rfl, rfl⟩ | ⟨rfl, rfl⟩
    · refine ⟨y', z' * y, hy', ⟨_, .mul hu hr, ?_⟩, ?_⟩
      · rw [Tree.eval_bin_of .mul hz' hy, BinOp.apply, FieldCarrier.mul_eq]
      · rw [BinOp.apply, FieldCarrier.mul_eq, mul_assoc]
    · refine ⟨y', z' / y, hy', ⟨_, .div hu hr, ?_⟩, ?_⟩
      · rw [Tree.eval_bin_of .div hz' hy, BinOp.apply, FieldCarrier.div_eq]
      · rw [BinOp.apply, FieldCarrier.div_eq, mul_div_assoc]

/-- **A product may be cut at any star outside its parentheses.** -/
theorem Derives.cut_times : ∀ {ts a b : List Token} {t : Tree} {v : K}, Derives .term ts [t] →
    ts = a ++ .op .times :: b → nesting a = 0 → t.eval env = .ok v →
    ∃ x y, HasProduct env a x ∧ HasProduct env b y ∧ v = x * y
  | _, _, _, _, _, .ofUnary h, heq, ha, _ => by
    have hpos := h.nesting_pos (.inl rfl) (.inl rfl) heq
    omega
  | _, _, _, _, _, .mul hl hr, heq, ha, hv =>
    cut_times_step (.inl ⟨rfl, rfl⟩) hl hr heq ha hv fun hc hx => cut_times hl hc ha hx
  | _, _, _, _, _, .div hl hr, heq, ha, hv =>
    cut_times_step (.inr ⟨rfl, rfl⟩) hl hr heq ha hv fun hc hx => cut_times hl hc ha hx

/-- The first token of a run that begins with a derived run is in the derived run. -/
theorem Derives.of_append_eq_cons {nt : Nonterminal} {as rest b : List Token} {us : List Tree}
    {o : Token} (h : Derives nt as us) (heq : as ++ rest = o :: b) :
    ∃ as', as = o :: as' ∧ b = as' ++ rest := by
  rcases as with _ | ⟨o', as⟩
  · cases h.length_pos
  obtain ⟨rfl, rfl⟩ := List.cons.inj heq
  exact ⟨as, rfl, rfl⟩

/-- The operand of a leading minus sign is one factor. -/
theorem Derives.unary_minus {b : List Token} {t : Tree} (h : Derives .unary (.op .minus :: b) [t]) :
    ∃ u, Derives .unary b [u] ∧ t = .neg u := by
  cases h with
  | neg h => exact ⟨_, h, rfl⟩
  | ofPrimary h => cases h

/-- A leading minus sign belongs to the first factor, and to the product. -/
theorem Derives.cut_minus {ts b : List Token} {t : Tree} {v : K} (h : Derives .term ts [t])
    (heq : ts = .op .minus :: b) (hv : t.eval env = .ok v) : HasProduct env b (-v) := by
  generalize hnt : Nonterminal.term = nt, hus : [t] = us at h
  induction h generalizing t b v with
  | ofUnary h =>
    obtain rfl := List.singleton_inj.1 hus
    subst heq
    obtain ⟨u, hu, rfl⟩ := h.unary_minus
    rw [Tree.eval] at hv
    obtain ⟨x, hx, hv⟩ := bind_ok hv
    cases hv
    exact ⟨u, .ofUnary hu, by rw [FieldCarrier.neg_eq, neg_neg, hx]⟩
  | mul hl hr ih =>
    obtain rfl := List.singleton_inj.1 hus
    obtain ⟨x, y, hx, hy, rfl⟩ := Tree.eval_bin hv
    -- The sign is in the first run, since no run is empty.
    obtain ⟨as, rfl, rfl⟩ := hl.of_append_eq_cons heq
    obtain ⟨u, hu, hux⟩ := ih rfl hx rfl rfl
    refine ⟨_, .mul hu hr, ?_⟩
    rw [Tree.eval_bin_of .mul hux hy]
    simp only [BinOp.apply, FieldCarrier.mul_eq, neg_mul]
  | div hl hr ih =>
    obtain rfl := List.singleton_inj.1 hus
    obtain ⟨x, y, hx, hy, rfl⟩ := Tree.eval_bin hv
    obtain ⟨as, rfl, rfl⟩ := hl.of_append_eq_cons heq
    obtain ⟨u, hu, hux⟩ := ih rfl hx rfl rfl
    refine ⟨_, .div hu hr, ?_⟩
    rw [Tree.eval_bin_of .div hux hy]
    simp only [BinOp.apply, FieldCarrier.div_eq, neg_div]
  | _ => cases hnt

end

end Arith

end RecurrenceCompiler
