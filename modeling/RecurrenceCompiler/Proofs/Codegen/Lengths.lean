import RecurrenceCompiler.Proofs.Codegen.LayerChoice
import RecurrenceCompiler.Proofs.Script.Scopes
import RecurrenceCompiler.Proofs.Script.Shifts

/-!
# Fixed slots and lengths of buffers

The code of a base layer writes the fixed slots of its base cases that are below its size, so a slot is
outside of the layer exactly if a base case has a negative value for it. A buffer for another layer is as
long as the larger of the two layers, and some more: its length is negative exactly if both sizes are
far enough below zero. The accessor makes a table only for a layer that has the slot it is asked for
(`slots_and_lengths`). The sizes of rule layers are not cut off at zero, so lengths below zero occur
(`slot_and_length_below_zero`).
-/

namespace RecurrenceCompiler

open Text Decimal Arith Script

/-! ## Fixed slots -/

namespace Recurrence

variable {r : Recurrence} {o : CodegenOptions} {plan : LayerPlan} {l : BaseLayer}

/-- The slot that a base case fixes, if its layer has it or it is negative. -/
def FixesSlot (plan : LayerPlan) (l : BaseLayer) (b : BaseCase) (slot : String) : Prop :=
  ∃ a : Whole, b.slots[plan.auxSlot]?.join = some a ∧ slot = a.text ∧ a.toInt < l.size

/-- **The fixed slots that are written** are those of the base cases, up to the size of the layer. -/
theorem write_mem_baseCode {bs : List BaseCase} {stmts : List (Stmt String)}
    (h : r.baseCode o plan l bs = .ok stmts) (slot : String) :
    (∃ text, .write slot text ∈ stmts) ↔ ∃ b ∈ bs, FixesSlot plan l b slot := by
  induction bs generalizing stmts with
  | nil =>
    cases h
    simp
  | cons b bs ih =>
    simp only [List.mem_cons, exists_eq_or_imp]
    have hfixes {own rest : List (Stmt String)} (hrest : r.baseCode o plan l bs = .ok rest)
        (hfirst : (∃ text, .write slot text ∈ own) ↔ FixesSlot plan l b slot) :
        (∃ text, .write slot text ∈ own ++ rest) ↔
          FixesSlot plan l b slot ∨ ∃ b ∈ bs, FixesSlot plan l b slot := by
      rw [← hfirst, ← ih hrest]
      simp only [List.mem_append, exists_or]
    simp only [baseCode] at h
    split at h
    · next hfree =>
      obtain ⟨text, -, h⟩ := bind_ok h
      obtain ⟨own, hown, h⟩ := bind_ok h
      obtain ⟨rest, hrest, h⟩ := bind_ok h
      cases hown
      cases h
      exact hfixes hrest (by simp [FixesSlot, hfree])
    · next a hfixed =>
      split at h
      · next hlt =>
        obtain ⟨text, -, h⟩ := bind_ok h
        obtain ⟨own, hown, h⟩ := bind_ok h
        obtain ⟨rest, hrest, h⟩ := bind_ok h
        cases hown
        cases h
        exact hfixes hrest (by simp [FixesSlot, hfixed, hlt])
      · next hle =>
        obtain ⟨own, hown, h⟩ := bind_ok h
        obtain ⟨rest, hrest, h⟩ := bind_ok h
        cases hown
        cases h
        exact hfixes hrest (by simp [FixesSlot, hfixed, hle])

end Recurrence

/-! ## Lengths -/

namespace Script

/-- The number of slots of the layer that a buffer holds. -/
def PreviousLayer.size (p : PreviousLayer Expression) : Expression :=
  .call (.name (p.layer ++ "Size")) p.args

/-- The length of a buffer. -/
def PreviousLayer.length (p : PreviousLayer Expression) : Expression :=
  .binary .add (.call (.member (.name "Math") "max") [PreviousLayer.size p, .name "N_VALUES"])
    (.num (ofInt p.extra))

theorem PreviousLayer.buffer_eq (p : PreviousLayer Expression) :
    PreviousLayer.buffer p = .zeros (.name "Array") (PreviousLayer.length p) := rfl

/-- Whether a value is some integer. -/
def Value.isInt (k : Int) : Value Float → Bool
  | .num x => Decimal.isWhole x && toInt x == k
  | _ => false

theorem Value.exists_of_isInt {v : Value Float} {k : Int} (h : v.isInt k = true) : ∃ x, v = .num x ∧ IsInt x k := by
  cases v with
  | num x =>
    obtain ⟨hwhole, hk⟩ := Bool.and_eq_true_iff.1 h
    obtain ⟨hfinite, hintegral⟩ := isIntegral_of_isWhole hwhole
    exact ⟨x, rfl, hfinite, by rw [hintegral.doubleValue_eq, beq_iff_eq.1 hk]⟩
  | _ => cases h

/-- The larger of two integers. -/
theorem isInt_larger {x y : Float} {i j : Int} (hx : IsInt x i) (hy : IsInt y j) :
    IsInt (Value.larger x y) (max i j) := by
  have hself {z : Float} {k : Int} (hz : IsInt z k) : Carrier.eq z z = true :=
    (beq_iff hz.finite.isNumber hz.finite.isNumber).2 rfl
  have hlt : Carrier.lt x y = true ↔ i < j := by
    rw [← hx.toInt_eq, ← hy.toInt_eq, ← hx.isIntegral.lt_iff hy.isIntegral]
    exact decide_eq_true_iff
  rw [Value.larger, hself hx, hself hy]
  by_cases h : i < j
  · simpa [hlt.2 h, max_eq_right h.le] using hy
  · have hno : Carrier.lt x y = false := Bool.eq_false_iff.2 (mt hlt.1 h)
    simpa [hno, max_eq_left (not_lt.1 h)] using hx

/-- The largest of two integers, as scripts find it: starting below all numbers. -/
theorem isInt_largest {x y : Float} {i j : Int} (hx : IsInt x i) (hy : IsInt y j) :
    IsInt (Value.largest (Carrier.ofFloat (-(1.0 / 0.0))) [x, y]) (max i j) := by
  have hnumber : IsNumber (-(1.0 / 0.0)) := by
    have := (rounds_self isNumber_infinity).neg
    exact this.isNumber
  have hlt : Carrier.lt (-(1.0 / 0.0)) x = true := by
    refine decide_eq_true ((lt_iff hnumber hx.finite.isNumber).2 (lt_of_le_of_ne ?_ fun heq => ?_))
    · rw [doubleValue_neg, doubleValue_infinity]
      exact (abs_le.1 (abs_doubleValue_le hx.finite.isNumber)).1
    · exact hx.finite.of_doubleValue_eq hnumber heq
  have hfirst : Value.larger (-(1.0 / 0.0)) x = x := by
    have hself : Carrier.eq (-(1.0 / 0.0) : Float) (-(1.0 / 0.0)) = true := (beq_iff hnumber hnumber).2 rfl
    rw [Value.larger, hself, hlt]
    rfl
  change IsInt (Value.larger (Value.larger (-(1.0 / 0.0)) x) y) (max i j)
  rw [hfirst]
  exact isInt_larger hx hy

/-- What a table of zeros of an integer length is: none if the length is negative or too large. -/
theorem zeros_eq {z : Float} {k : Int} (hz : IsInt z k) (hk : k.natAbs ≤ 2 ^ 53) :
    (Value.zeros (.num z) : Except Error (Value Float)) =
      if 0 ≤ k ∧ k < 2 ^ 32 then .ok (.ofItems (List.replicate k.toNat (.num 0.0)))
      else .error (.fault .badLength) := by
  have hzero : IsIntegral 0.0 ∧ toInt 0.0 = 0 := toFloat_natural 0
  have hle : (0.0 ≤ z) ↔ 0 ≤ k := by
    rw [hzero.1.le_iff hz.isIntegral, hzero.2, hz.toInt_eq]
  have hplace : Carrier.toNat? z = if 0 ≤ k then some k.toNat else none := by
    change (if isWhole z && 0.0 ≤ z then some (toInt z).toNat else none) = _
    simp [hz.isWhole hk, hle, hz.toInt_eq]
  have hlimit : k.toNat < 4294967296 ↔ k < 2 ^ 32 := by omega
  rw [Value.zeros, hplace]
  by_cases hpos : 0 ≤ k
  · rw [if_pos hpos, Option.filter_some]
    by_cases hlt : k < 2 ^ 32
    · rw [if_pos (by simpa using hlimit.2 hlt), if_pos ⟨hpos, hlt⟩]
      rfl
    · rw [if_neg (by simpa using mt hlimit.1 hlt), if_neg fun h => hlt h.2]
  · rw [if_neg hpos, if_neg fun h => hpos h.1]
    rfl

section
variable {p : Program} {unit depth : Nat} {limits : Limits} {s : Locals Float}

/-- What `max` of the host gives. -/
theorem eval_max {es : List Expression} {v : Value Float} (h : (unitWorld p unit limits depth).eval s
    (.call (.member (.name "Math") "max") es) = .ok v) : ∃ vs,
      Expression.evalAll (s.read (p.nameIn unit)) (unitWorld p unit limits depth).value es = .ok vs ∧
        v = .num (Value.largest (Carrier.ofFloat (-(1.0 / 0.0))) (vs.map Value.toNumber)) := by
  rw [World.eval, Expression.eval, Expression.eval] at h
  obtain ⟨callee, hcallee, h⟩ := bind_ok h
  obtain ⟨record, -, hcallee⟩ := bind_ok hcallee
  obtain ⟨vs, hvs, h⟩ := bind_ok h
  obtain ⟨f, hf, h⟩ := bind_ok h
  -- Only the record of elementary functions has a function of that name.
  obtain rfl : f = .largest := by
    unfold Value.member at hcallee
    split at hcallee
    · cases hcallee
    · cases hcallee
    · cases hcallee
      cases hf
    · split at hcallee <;> cases hcallee
      · cases hf
      · exact (Except.ok.inj hf).symm
    · cases hcallee
      cases hf
  refine ⟨vs, hvs, ?_⟩
  cases depth with
  | zero => cases h
  | succ depth => exact (Except.ok.inj h).symm

/-- The sizes from which the length of a buffer is computed are integers: the other layer has `m` slots,
the layer itself `n`, and the length is not too large to be exact. -/
structure Sized (w : World Float) (s : Locals Float) (q : PreviousLayer Expression) (m n : Int) : Prop where
  other : ∃ y, w.eval s (PreviousLayer.size q) = .ok (.num y) ∧ IsInt y m
  own : ∃ x, s.read w.names "N_VALUES" = .ok (.num x) ∧ IsInt x n
  extra : q.extra.natAbs ≤ 2 ^ 53
  limit : (max m n + q.extra).natAbs ≤ 2 ^ 53

/-- **The length of a buffer** is the larger of the two sizes, and the extra slots. -/
theorem Sized.eval_length {q : PreviousLayer Expression} {m n : Int} {v : Value Float}
    (hsized : Sized (unitWorld p unit limits depth) s q m n)
    (h : (unitWorld p unit limits depth).eval s (PreviousLayer.length q) = .ok v) :
    ∃ z, v = .num z ∧ IsInt z (max m n + q.extra) := by
  obtain ⟨y, hsize, hy⟩ := hsized.other
  obtain ⟨x, hvalues, hx⟩ := hsized.own
  rw [PreviousLayer.length, World.eval, Expression.eval] at h
  obtain ⟨larger, hlarger, h⟩ := bind_ok h
  obtain ⟨extra, hadd, h⟩ := bind_ok h
  obtain ⟨vs, hvs, rfl⟩ := eval_max hlarger
  obtain rfl : vs = [.num y, .num x] := by
    have hsize : (PreviousLayer.size q).eval (s.read (p.nameIn unit))
        (unitWorld p unit limits depth).value = .ok (.num y) := hsize
    have hvalues : s.read (p.nameIn unit) "N_VALUES" = .ok (.num x) := hvalues
    rw [Expression.evalAll, Expression.evalAll, Expression.evalAll, hsize, Expression.eval, hvalues] at hvs
    exact (Except.ok.inj hvs).symm
  cases hadd
  cases h
  exact ⟨_, rfl, (isInt_largest hy hx).add (isInt_ofInt hsized.extra) hsized.limit⟩

end

/-- **The accessor makes a table only for a layer that has the slot**: the length of the table is the size
of the layer, and the slot lies below it. -/
theorem accessor_length {w : World Float} {limits : Limits} {f : Family Expression} {s s' : Locals Float}
    {a x : Float} {k n : Int} (haux : f.aux ∉ ["size", "out"])
    (ha : s.read w.names f.aux = .ok (.num a)) (hk : IsInt a k)
    (hx : w.eval (s.enter ["size", "out"])
      (.call (.name f.sizeName) (f.layerIndices.map .name)) = .ok (.num x)) (hn : IsInt x n)
    (hrun : runStmts limits w (s.enter ["size", "out"]) (f.accessorFunction.body.take 2) = .ok (s', none)) :
    w.eval s' (.name "size") = .ok (.num x) ∧ 0 ≤ k ∧ k < n := by
  have hbody : f.accessorFunction.body.take 2 =
      [.value "size" (.call (.name f.sizeName) (f.layerIndices.map .name)),
        .retIf (.either (.binary .lt (.name f.aux) (.num 0.0))
          (.binary .ge (.name f.aux) (.name "size"))) (.num 0.0)] := rfl
  rw [hbody] at hrun
  obtain ⟨t, hsize, hrun⟩ := runStmts_cons_none hrun
  obtain ⟨v, hv, rfl, -⟩ := runStmt_value hsize
  obtain rfl : Value.num x = v := Except.ok.inj (hx.symm.trans hv)
  obtain ⟨t, hret, hrun⟩ := runStmts_cons_none hrun
  obtain ⟨htest, rfl⟩ := runStmt_retIf_none hret
  cases hrun
  have hread : (Expression.name f.aux).eval (((s.enter ["size", "out"]).assign "size" (.num x)).read w.names)
      w.value = .ok (.num a) := by
    rw [← ha]
    exact Locals.read_congr ((Locals.find?_assign_of_ne (by simp_all)).trans (Locals.find?_enter haux))
  have hown : (Expression.name "size").eval (((s.enter ["size", "out"]).assign "size" (.num x)).read w.names)
      w.value = .ok (.num x) :=
    Locals.read_assign_self (by simp)
  refine ⟨hown, ?_⟩
  have hzero : IsInt (0.0 : Float) 0 := isInt_ofInt (i := 0) (by decide)
  have hbelow : w.eval ((s.enter ["size", "out"]).assign "size" (.num x))
      (.binary .lt (.name f.aux) (.num 0.0)) = .ok (.truth (Carrier.lt a 0.0)) := by
    have hnum : (Expression.num 0.0).eval (((s.enter ["size", "out"]).assign "size" (.num x)).read w.names)
        w.value = .ok (.num 0.0) := rfl
    rw [World.eval, Expression.eval_binary hread hnum]
    rfl
  have habove : w.eval ((s.enter ["size", "out"]).assign "size" (.num x))
      (.binary .ge (.name f.aux) (.name "size")) = .ok (.truth (Carrier.le x a)) := by
    rw [World.eval, Expression.eval_binary hread hown]
    rfl
  have hvalue : w.test ((s.enter ["size", "out"]).assign "size" (.num x))
      (.either (.binary .lt (.name f.aux) (.num 0.0)) (.binary .ge (.name f.aux) (.name "size"))) =
      .ok (Carrier.lt a 0.0 || Carrier.le x a) := by
    rw [World.eval] at hbelow habove
    rw [World.test, World.eval, Expression.eval, hbelow, habove]
    cases Carrier.lt a 0.0 <;> rfl
  rw [hvalue] at htest
  have hoff := Except.ok.inj htest
  rw [Bool.or_eq_false_iff] at hoff
  obtain ⟨hneg, hge⟩ := hoff
  have hlt : Carrier.lt a 0.0 = true ↔ k < 0 := by
    rw [← hk.toInt_eq, ← hzero.toInt_eq, ← hk.isIntegral.lt_iff hzero.isIntegral]
    exact decide_eq_true_iff
  have hle : Carrier.le x a = true ↔ n ≤ k := by
    rw [← hk.toInt_eq, ← hn.toInt_eq, ← hn.isIntegral.le_iff hk.isIntegral]
    exact decide_eq_true_iff
  refine ⟨not_lt.1 fun h => ?_, not_le.1 fun h => ?_⟩
  · rw [hlt.2 h] at hneg
    cases hneg
  · rw [hle.2 h] at hge
    cases hge

end Script

namespace Recurrence

variable {r : Recurrence} {o : CodegenOptions} {resolve : Resolver} {plan : LayerPlan}

/-- The largest number of a list is none of the smaller ones. -/
theorem le_maximum {first : Int} {rest : List Int} : ∀ x ∈ first :: rest, x ≤ maximum first rest := by
  induction rest generalizing first with
  | nil =>
    rintro x hx
    exact (List.mem_singleton.1 hx).le
  | cons y rest ih =>
    have hfirst := ih (max first y) List.mem_cons_self
    rintro x hx
    rcases List.mem_cons.1 hx with rfl | hx
    · exact (le_max_left _ y).trans hfirst
    · rcases List.mem_cons.1 hx with rfl | hx
      · exact (le_max_right first _).trans hfirst
      · exact ih x (List.mem_cons_of_mem _ hx)

/-- The extra slots are never fewer than none. -/
theorem extraSlots_nonneg (plan : LayerPlan) (g : LayerGroup) : 0 ≤ extraSlots plan g :=
  le_maximum 0 List.mem_cons_self

/-- The extra slots are as many as a call of the group goes up. -/
theorem shiftAt_le_extraSlots {g : LayerGroup} {lr : LayerRule} (hlr : lr ∈ g.rules) {c : Call}
    (hc : c ∈ lr.rule.expr.calls) : c.shiftAt plan.auxSlot ≤ extraSlots plan g :=
  le_maximum _ (List.mem_cons_of_mem _ (List.mem_flatMap.2
    ⟨lr, hlr, List.mem_map_of_mem (f := fun c => c.shiftAt plan.auxSlot) hc⟩))

/-- Every buffer of a group is declared, with the group's extra slots. -/
theorem previous_mem_fillBuffers {g : LayerGroup} {buffers : List Buffer} {b : Buffer} (hb : b ∈ buffers) :
    ∃ p, .previous p ∈ r.fillBuffers resolve plan g buffers ∧ p.name = b.name ∧
      p.extra = extraSlots plan g := by
  rw [fillBuffers]
  dsimp only
  rw [if_neg (by simpa using List.ne_nil_of_mem hb)]
  exact ⟨_, List.mem_append_left _ (List.mem_map_of_mem hb), rfl, rfl⟩

/-- Every buffer of a group has the group's extra slots. -/
theorem extra_eq_of_mem_fillBuffers {g : LayerGroup} {buffers : List Buffer} {q : PreviousLayer String}
    (h : .previous q ∈ r.fillBuffers resolve plan g buffers) {q' : PreviousLayer Expression}
    (hread : readStmt (.previous q) = .ok [.previous q']) : q'.extra = extraSlots plan g := by
  have hextra : q.extra = extraSlots plan g := by
    rw [fillBuffers] at h
    dsimp only at h
    split at h
    · cases h
    · simp only [List.mem_append, List.mem_map, List.mem_singleton, reduceCtorEq, or_false,
        Stmt.previous.injEq] at h
      obtain ⟨b, -, rfl⟩ := h
      rfl
  rw [readStmt] at hread
  obtain ⟨args, -, hread⟩ := bind_ok hread
  cases hread
  exact hextra

/-- **Fixed slots and lengths of buffers.** The code of a base layer writes the slots that its base cases
fix below its size, the negative ones among them. A buffer for another layer is as long as the larger of
the two layers, with the extra slots, so its length is negative exactly if both sizes are far enough
below zero. The accessor makes a table only of a size above the slot that it is asked for. -/
theorem slots_and_lengths (r : Recurrence) (o : CodegenOptions) (resolve : Resolver) (plan : LayerPlan) :
    (∀ (l : BaseLayer) (bs : List BaseCase) (stmts : List (Stmt String)),
      r.baseCode o plan l bs = .ok stmts → ∀ slot,
        (∃ text, .write slot text ∈ stmts) ↔ ∃ b ∈ bs, FixesSlot plan l b slot) ∧
    (∀ (g : LayerGroup) (buffers : List Buffer) (q : PreviousLayer String) (q' : PreviousLayer Expression),
      .previous q ∈ r.fillBuffers resolve plan g buffers → readStmt (.previous q) = .ok [.previous q'] →
      ∀ (p : Program) (unit depth : Nat) (limits : Limits) (s : Locals Float) (m n : Int) (v : Value Float),
        Sized (unitWorld p unit limits depth) s q' m n →
        (unitWorld p unit limits depth).eval s (PreviousLayer.length q') = .ok v →
        0 ≤ extraSlots plan g ∧ ∃ z, v = .num z ∧ IsInt z (max m n + extraSlots plan g)) ∧
    (∀ (f : Family Expression) (w : World Float) (limits : Limits) (s s' : Locals Float) (a x : Float)
      (k n : Int), f.aux ∉ ["size", "out"] → s.read w.names f.aux = .ok (.num a) → IsInt a k →
      w.eval (s.enter ["size", "out"])
        (.call (.name f.sizeName) (f.layerIndices.map .name)) = .ok (.num x) → IsInt x n →
      runStmts limits w (s.enter ["size", "out"]) (f.accessorFunction.body.take 2) = .ok (s', none) →
      w.eval s' (.name "size") = .ok (.num x) ∧ 0 ≤ k ∧ k < n) := by
  refine ⟨fun l bs stmts h slot => write_mem_baseCode h slot, ?_, ?_⟩
  · intro g buffers q q' hmem hread p unit depth limits s m n v hsized hv
    have hextra := extra_eq_of_mem_fillBuffers hmem hread
    exact ⟨extraSlots_nonneg plan g, hextra ▸ hsized.eval_length hv⟩
  · intro f w limits s s' a x k n haux ha hk hx hn hrun
    exact accessor_length haux ha hk hx hn hrun

/-! ## Layers below zero -/

/-- A rule that goes on below layer zero, where the layers have sizes below zero. -/
def sinkingSteps : List Step :=
  [.validity ["t >= 0", "t <= n"], .base [("n", 1), ("t", 0)] (.number 1),
    .rule "n > -7" "E[n-2, t]" none none]

/-- The program for the layers of a recurrence without callees. -/
def layerProgram (r : Recurrence) : Except Error Program := do
  let u ← r.generateLayered { target := .js } fun _ => none
  Program.load [u]

/-- The names in a function for layer `-2` of `sinkingSteps`, which has `-1` slots. -/
def sunkenLocals : Locals Float :=
  [⟨"n", some (.num (ofInt (-2)))⟩, ⟨"N_VALUES", some (.num (ofInt (-1)))⟩]

/-- The parameters of the accessor at slot zero of layer two. -/
def accessorLocals : Locals Float :=
  [⟨"n", some (.num (ofInt 2))⟩, ⟨"t", some (.num (ofInt 0))⟩]

/-- The base layer of `sinkingSteps` fixes slot zero. -/
theorem fixesSlot_sinking : ∃ r plan l stmts, planOf sinkingSteps = .ok (r, plan) ∧
    r.baseCode { target := .js } plan l (l.bases.map (·.2)) = .ok stmts ∧
    ∃ b ∈ l.bases.map (·.2), FixesSlot plan l b "0" := by
  have hcheck : ((planOf sinkingSteps).toOption.any fun p => p.2.baseLayers.any fun l =>
      (p.1.baseCode { target := .js } p.2 l (l.bases.map (·.2))).toOption.any fun _ =>
        (l.bases.map (·.2)).any fun b => decide (b.slots[p.2.auxSlot]?.join = some 0) && decide (0 < l.size)) =
      true := by
    decide +kernel
  obtain ⟨⟨r, plan⟩, hrun, hcheck⟩ := exists_ok_of_any hcheck
  obtain ⟨l, -, hcheck⟩ := List.any_eq_true.1 hcheck
  obtain ⟨stmts, hstmts, hcheck⟩ := exists_ok_of_any hcheck
  obtain ⟨b, hb, hslot⟩ := List.any_eq_true.1 hcheck
  rw [Bool.and_eq_true, decide_eq_true_eq, decide_eq_true_eq] at hslot
  exact ⟨r, plan, l, stmts, hrun, hstmts, b, hb, 0, hslot.1, by decide +kernel, hslot.2⟩

/-- Whether a statement fills a buffer with a layer of `-3` slots, and gives it a length, in layer `-2` of
`sinkingSteps`. -/
def fillsFromSunken (program : Program) (plan : LayerPlan) (g : LayerGroup) : Stmt String → Bool
  | .previous q => (readStmt (.previous q)).toOption.any fun
    | [.previous q'] =>
      let w : World Float := unitWorld program 0 Program.standardLimits 2
      extraSlots plan g == 0 && q'.extra == 0 &&
      (w.eval sunkenLocals (PreviousLayer.size q')).toOption.any (·.isInt (-3)) &&
      (w.eval sunkenLocals (PreviousLayer.length q')).toOption.any fun _ => true
    | _ => false
  | _ => false

/-- The only buffer of `sinkingSteps`, in layer `-2`. -/
theorem sized_sinking : ∃ r plan p g buffers q q' v, planOf sinkingSteps = .ok (r, plan) ∧
    r.layerProgram = .ok p ∧ .previous q ∈ r.fillBuffers (fun _ => none) plan g buffers ∧
    readStmt (.previous q) = .ok [.previous q'] ∧ extraSlots plan g = 0 ∧
    Sized (unitWorld p 0 Program.standardLimits 2) sunkenLocals q' (-3) (-1) ∧
    (unitWorld p 0 Program.standardLimits 2).eval sunkenLocals (PreviousLayer.length q') = .ok v := by
  have hcheck : ((planOf sinkingSteps).toOption.any fun p => p.1.layerProgram.toOption.any fun program =>
      p.2.groups.any fun g => (p.1.buffers p.2 g).toOption.any fun buffers =>
        (p.1.fillBuffers (fun _ => none) p.2 g buffers).any (fillsFromSunken program p.2 g)) =
      true := by
    decide +kernel
  obtain ⟨⟨r, plan⟩, hrun, hcheck⟩ := exists_ok_of_any hcheck
  obtain ⟨p, hp, hcheck⟩ := exists_ok_of_any hcheck
  obtain ⟨g, -, hcheck⟩ := List.any_eq_true.1 hcheck
  obtain ⟨buffers, -, hcheck⟩ := exists_ok_of_any hcheck
  obtain ⟨stmt, hstmt, hcheck⟩ := List.any_eq_true.1 hcheck
  cases stmt with
  | previous q =>
    rw [fillsFromSunken] at hcheck
    obtain ⟨stmts, hread, hcheck⟩ := exists_ok_of_any hcheck
    dsimp only at hcheck
    split at hcheck
    · next q' =>
      simp only [Bool.and_eq_true, beq_iff_eq] at hcheck
      obtain ⟨⟨⟨hextra, hown⟩, hother⟩, hlength⟩ := hcheck
      obtain ⟨v, hv, -⟩ := exists_ok_of_any hlength
      obtain ⟨_, hy, hisInt⟩ := exists_ok_of_any hother
      obtain ⟨y, rfl, hint⟩ := Value.exists_of_isInt hisInt
      refine ⟨r, plan, p, g, buffers, q, q', v, hrun, hp, hstmt, hread, hextra, ?_, hv⟩
      exact {
        other := ⟨y, hy, hint⟩
        own := ⟨ofInt (-1), by simp [Locals.read, Locals.find?, sunkenLocals], isInt_ofInt (by decide)⟩
        extra := by rw [hown]; decide
        limit := by rw [hown]; decide }
    · cases hcheck
  | _ => cases hcheck

/-- The accessor of `sinkingSteps` runs to its table at slot zero of layer two. -/
theorem accessor_sinking : ∃ r plan p, ∃ f : Family Expression, ∃ s' x,
    planOf sinkingSteps = .ok (r, plan) ∧ r.layerProgram = .ok p ∧ f.aux = "t" ∧
    (unitWorld p 0 Program.standardLimits 2).eval (accessorLocals.enter ["size", "out"])
      (.call (.name f.sizeName) (f.layerIndices.map .name)) = .ok (.num x) ∧ IsInt x 3 ∧
    runStmts Program.standardLimits (unitWorld p 0 Program.standardLimits 2)
      (accessorLocals.enter ["size", "out"]) (f.accessorFunction.body.take 2) = .ok (s', none) := by
  have hcheck : ((planOf sinkingSteps).toOption.any fun p => p.1.layerProgram.toOption.any fun program =>
      program.units.any fun u =>
        match u.content with
        | .family f =>
          let w : World Float := unitWorld program 0 Program.standardLimits 2
          f.aux == "t" &&
          (w.eval (accessorLocals.enter ["size", "out"])
            (.call (.name f.sizeName) (f.layerIndices.map .name))).toOption.any (·.isInt 3) &&
          (runStmts Program.standardLimits w (accessorLocals.enter ["size", "out"])
            (f.accessorFunction.body.take 2)).toOption.any (·.2.isNone)
        | _ => false) = true := by
    decide +kernel
  obtain ⟨⟨r, plan⟩, hrun, hcheck⟩ := exists_ok_of_any hcheck
  obtain ⟨p, hp, hcheck⟩ := exists_ok_of_any hcheck
  obtain ⟨u, -, hcheck⟩ := List.any_eq_true.1 hcheck
  split at hcheck
  · next f _ =>
    simp only [Bool.and_eq_true, beq_iff_eq] at hcheck
    obtain ⟨⟨haux, hsize⟩, hfirst⟩ := hcheck
    obtain ⟨_, hx, hisInt⟩ := exists_ok_of_any hsize
    obtain ⟨x, rfl, hint⟩ := Value.exists_of_isInt hisInt
    obtain ⟨⟨s', v⟩, hs', hnone⟩ := exists_ok_of_any hfirst
    obtain rfl : v = none := Option.isNone_iff_eq_none.1 hnone
    exact ⟨r, plan, p, f, s', x, hrun, hp, haux, hx, hint, hs'⟩
  · cases hcheck

/-- The base layer of `sinkingSteps` writes slot zero, the buffer in layer `-2` is to have `-1` slots, and
the accessor makes a table of the three slots of layer two. -/
theorem slots_and_lengths_sinking : ∃ r plan, planOf sinkingSteps = .ok (r, plan) ∧
    (∃ l stmts, r.baseCode { target := .js } plan l (l.bases.map (·.2)) = .ok stmts ∧
      ∃ text, .write "0" text ∈ stmts) ∧
    ∃ p, r.layerProgram = .ok p ∧
      (∃ q v z, (unitWorld p 0 Program.standardLimits 2).eval sunkenLocals (PreviousLayer.length q) = .ok v ∧
        v = .num z ∧ IsInt z (-1)) ∧
      ∃ s' x, (unitWorld p 0 Program.standardLimits 2).eval s' (.name "size") = .ok (.num x) ∧ IsInt x 3 := by
  obtain ⟨r, plan, l, stmts, hrun, hstmts, hfixes⟩ := fixesSlot_sinking
  obtain ⟨_, _, p, g, buffers, q, q', v, hrun', hp, hmem, hread, hextra, hsized, hv⟩ := sized_sinking
  cases hrun.symm.trans hrun'
  obtain ⟨_, _, _, f, s', x, hrun', hp', haux, hx, hint, hs'⟩ := accessor_sinking
  cases hrun.symm.trans hrun'
  cases hp.symm.trans hp'
  obtain ⟨hwrites, hlengths, haccessor⟩ := slots_and_lengths r { target := .js } (fun _ => none) plan
  obtain ⟨-, z, hz, hvalue⟩ := hlengths g buffers q q' hmem hread p 0 2 _ _ (-3) (-1) v hsized hv
  rw [hextra] at hvalue
  have hzero : accessorLocals.read (unitWorld p 0 Program.standardLimits 2).names f.aux =
      .ok (.num (ofInt 0)) := by
    rw [haux]
    simp [Locals.read, Locals.find?, accessorLocals]
  have haccess := haccessor f (unitWorld p 0 Program.standardLimits 2) _ _ s' _ x 0 3 (by rw [haux]; decide)
    hzero (isInt_ofInt (by decide)) hx hint hs'
  exact ⟨r, plan, hrun, ⟨l, stmts, hstmts, (hwrites l _ stmts hstmts "0").2 hfixes⟩, p, hp,
    ⟨q', v, z, hv, hz, hvalue⟩, s', x, haccess.1, hint⟩

/-- A base case below slot zero, next to one at slot zero. -/
def lowBaseSteps : List Step :=
  [.validity ["t >= 0", "t <= n"], .base [("n", 0), ("t", 0)] (.number 1),
    .base [("n", 0), ("t", -1)] (.number 2), .rule "n > 0" "E[n-1, t]" none none]

/-- Whether a result is that a table cannot have its length. -/
def isBadLength : Except Error Float → Bool
  | .error (.fault .badLength) => true
  | _ => false

theorem isBadLength_iff {x : Except Error Float} :
    isBadLength x = true ↔ x = .error (.fault .badLength) := by
  unfold isBadLength
  split <;> simp_all

/-- **Slots and lengths below zero occur**: the base layer of `lowBaseSteps` writes slot `-1`, and the value
of `sinkingSteps` at slot zero of layer two, which is zero, is not found by layered code, since a buffer
two layers below is to have `-1` slots. -/
theorem slot_and_length_below_zero :
    (∃ r plan l stmts text, planOf lowBaseSteps = .ok (r, plan) ∧ l ∈ plan.baseLayers ∧
      r.baseCode { target := .js } plan l (l.bases.map (·.2)) = .ok stmts ∧ .write "-1" text ∈ stmts) ∧
    ∃ r plan c y, planOf sinkingSteps = .ok (r, plan) ∧ ({} : Catalog).register r userModule = .ok c ∧
      c.evaluate r.name [(2 : Float), 0] (fun _ => none) true = .error (.fault .badLength) ∧
      Derivable (fun _ => none) (fun _ => none) r [(2 : Float), 0] y ∧ y == 0 := by
  constructor
  · have hcheck : ((planOf lowBaseSteps).toOption.any fun p => p.2.baseLayers.any fun l =>
        (p.1.baseCode { target := .js } p.2 l (l.bases.map (·.2))).toOption.any fun _ =>
          (l.bases.map (·.2)).any fun b =>
            decide (b.slots[p.2.auxSlot]?.join = some ⟨true, 1⟩) && decide (0 ≤ l.size)) = true := by
      decide +kernel
    obtain ⟨⟨r, plan⟩, hrun, hcheck⟩ := exists_ok_of_any hcheck
    obtain ⟨l, hl, hcheck⟩ := List.any_eq_true.1 hcheck
    obtain ⟨stmts, hstmts, hcheck⟩ := exists_ok_of_any hcheck
    obtain ⟨b, hb, hslot⟩ := List.any_eq_true.1 hcheck
    rw [Bool.and_eq_true, decide_eq_true_eq, decide_eq_true_eq] at hslot
    have hfixes : FixesSlot plan l b "-1" :=
      ⟨⟨true, 1⟩, hslot.1, by decide +kernel, lt_of_lt_of_le (by decide) hslot.2⟩
    obtain ⟨text, htext⟩ := (write_mem_baseCode hstmts "-1").2 ⟨b, hb, hfixes⟩
    exact ⟨r, plan, l, stmts, text, hrun, hl, hstmts, htext⟩
  · have hcheck : ((planOf sinkingSteps).toOption.any fun p =>
        (({} : Catalog).register p.1 userModule).toOption.any fun c =>
          isBadLength (c.evaluate p.1.name [(2 : Float), 0] (fun _ => none) true) &&
          (recurse (fun _ => none) (fun _ => none) 6 p.1 [(2 : Float), 0]).toOption.any (· == 0)) =
        true := by
      decide +kernel
    obtain ⟨⟨r, plan⟩, hrun, hcheck⟩ := exists_ok_of_any hcheck
    obtain ⟨c, hc, hcheck⟩ := exists_ok_of_any hcheck
    rw [Bool.and_eq_true] at hcheck
    obtain ⟨hlayered, hrecurse⟩ := hcheck
    obtain ⟨y, hy, hzero⟩ := exists_ok_of_any hrecurse
    exact ⟨r, plan, c, y, hrun, hc, isBadLength_iff.1 hlayered, Derivable.of_recurse hy, hzero⟩

end Recurrence

end RecurrenceCompiler
